import Bole.Sync.InProcess

/-!
The closure walk of a transfer (`missing_closure` of `src/sync/negotiate.rs`) and what the receiver
has after it (`sync_transfer` of `src/sync/mod.rs`).

* `missingClosure_exact`: a walk of complete closures puts out what it reaches around the
  receiver's objects, each once;
* `Receives.delivered`, `Receives.closed_landed`: a receiver without gaps reads the closures of
  the wants once the missing objects have landed, and has no gaps again;
* `closure_negotiation`: the two together, for a transfer.
-/

namespace Bole

variable {L : Linked} {s src dest t : ObjectStore} {wants : List ObjectId} {x : ObjectId}

/-! ### The walk -/

/-- What is below some roots is below one of them. -/
lemma closure_of_wants (h : Closure L s wants x) : ∃ w ∈ wants, Closure L s [w] x := by
  induction h with
  | root hx hs => exact ⟨_, hx, .root (by simp) hs⟩
  | step _ hy hs ih =>
      obtain ⟨w, hw, hreach⟩ := ih
      exact ⟨w, hw, .step hreach hy hs⟩

/-- **The walk is exact.**  Below complete wants it puts out the objects it reaches around those
that the receiver has, each once. -/
lemma missingClosure_exact (hcomplete : ∀ w ∈ wants, Complete L s w) (have_ : Finset ObjectId) :
    ∃ out, missingClosure L s wants have_ = .ok out ∧ out.Nodup ∧
      ∀ x, x ∈ out ↔ ReachVia L s childEdges (fun id => decide (id ∈ have_)) wants x := by
  have hread : ∀ x, ReachVia L s childEdges (fun id => decide (id ∈ have_)) wants x →
      (s.object L x).isSome := fun x hx => by
    obtain ⟨w, hw, hbelow⟩ := closure_of_wants (closure_of_reachVia hx)
    exact hcomplete w hw x hbelow
  rw [missingClosure]
  cases hwalk : walk L s childEdges (fun id => decide (id ∈ have_)) wants with
  | error e =>
      obtain ⟨x, hx, he⟩ := walk_error hwalk
      obtain ⟨o, ho⟩ := Option.isSome_iff_exists.mp (hread x hx)
      rw [ObjectStore.object_eq_some.mp ho] at he
      cases he
  | ok r =>
      obtain ⟨seen, out⟩ := r
      refine ⟨out, rfl, walk_nodup hwalk, fun x => ?_⟩
      rw [(walk_spec hwalk).2.2 x]
      exact and_iff_left_of_imp (hread x)

/-! ### The receiver -/

/-- A store without gaps: what it lists can be read, and what that refers to is listed. -/
def ObjectStore.Closed (L : Linked) (s : ObjectStore) : Prop :=
  ∀ x ∈ s.list, ∃ obj, s.object L x = some obj ∧ ∀ y ∈ childEdges obj, y ∈ s.list

/-- A sender whose objects hash to their ids, and a receiver without gaps that holds nothing else
under one of these ids. -/
structure Receives (L : Linked) (src dest : ObjectStore) : Prop where
  addressed : ∀ x b, src.getRaw L x = .ok (some b) → L.fromContent b = x
  agrees : ∀ x b b', dest.getRaw L x = .ok (some b) → src.getRaw L x = .ok (some b') → b = b'
  closed : dest.Closed L

namespace Receives

/-- What both read, they read alike. -/
lemma object_eq (g : Receives L src dest) {o o' : Object} (ho : dest.object L x = some o)
    (ho' : src.object L x = some o') : o = o' := by
  obtain ⟨b, hb, hd⟩ := ObjectStore.get_eq_some.mp (ObjectStore.object_eq_some.mp ho)
  obtain ⟨b', hb', hd'⟩ := ObjectStore.get_eq_some.mp (ObjectStore.object_eq_some.mp ho')
  rw [g.agrees x b b' hb hb', hd'] at hd
  exact (Except.ok.inj hd).symm

variable {have_ : List ObjectId} {objects : List (ObjectId × Bytes)} {mtime : Option ℕ}

/-- **An object that lands is read** as the sender reads it; so is one that the receiver had. -/
lemma landed (g : Receives L src dest)
    (hobjects : ∀ p ∈ objects, src.getRaw L p.1 = .ok (some p.2))
    (hland : ObjectStore.land L mtime objects dest = (.ok (), t)) {o : Object}
    (ho : src.object L x = some o) (hx : x ∈ dest.list ∨ ∃ b, (x, b) ∈ objects) :
    t.object L x = some o := by
  have hwritten := ObjectStore.land_written L mtime objects dest
  rw [hland] at hwritten
  by_cases hlist : x ∈ dest.list
  · obtain ⟨o', ho', -⟩ := g.closed x hlist
    rw [g.object_eq ho' ho] at ho'
    exact hwritten.grows x o ho'
  · obtain ⟨b, hmem⟩ := hx.resolve_left hlist
    have hid := g.addressed x b (hobjects _ hmem)
    obtain ⟨c, hc⟩ := ObjectStore.land_reads hland hmem (by rwa [hid])
    rw [hid] at hc
    -- what was written under the id are the bytes of some object, and so those of this one
    have hraw : t.getRaw L x = src.getRaw L x := by
      rcases hwritten.getRaw x with heq | ⟨-, c', ⟨p, hp, rfl⟩, hx', hnew⟩
      · rw [heq] at hc
        exact absurd (ObjectStore.listed_of_getRaw hc) hlist
      · have hpid : p.1 = x := (g.addressed _ _ (hobjects p hp)).symm.trans hx'.symm
        rw [hnew, ← hobjects p hp, hpid]
    rw [ObjectStore.object, ObjectStore.get_congr hraw]
    exact ho

/-- What is below a complete want is listed by the receiver, or the walk comes to it. -/
lemma closure_cases (g : Receives L src dest) (hhave : ∀ y ∈ have_, y ∈ dest.list) {w : ObjectId}
    (hw : w ∈ wants) (hcomplete : Complete L src w) (hx : Closure L src [w] x) :
    x ∈ dest.list ∨ ReachVia L src childEdges (fun id => decide (id ∈ have_.toFinset)) wants x := by
  induction hx with
  | @root x hx _ =>
      rw [List.mem_singleton.mp hx]
      by_cases hmem : w ∈ have_
      · exact .inl (hhave w hmem)
      · exact .inr (.root hw (by simpa using hmem))
  | @step y x hreach hy _ ih =>
      rcases ih with hlist | hwalk
      · obtain ⟨obj, hobj, hchildren⟩ := g.closed y hlist
        obtain ⟨obj', hobj'⟩ := Option.isSome_iff_exists.mp (hcomplete y hreach)
        rw [outEdges_of_object hobj', ← g.object_eq hobj hobj'] at hy
        exact .inl (hchildren x hy)
      · by_cases hmem : x ∈ have_
        · exact .inl (hhave x hmem)
        · exact .inr (.step hwalk hy (by simpa using hmem))

section Land

variable (g : Receives L src dest) (hhave : ∀ y ∈ have_, y ∈ dest.list)
  (hobjects : ∀ p, p ∈ objects ↔ (ReachVia L src childEdges
      (fun id => decide (id ∈ have_.toFinset)) wants p.1 ∧
    (src.object L p.1).isSome) ∧ src.getRaw L p.1 = .ok (some p.2))
  (hland : ObjectStore.land L mtime objects dest = (.ok (), t))

include g hhave hobjects hland

/-- **What is delivered** below a complete want. -/
lemma delivered {w : ObjectId} (hw : w ∈ wants) (hcomplete : Complete L src w)
    (hx : Closure L src [w] x) : t.object L x = src.object L x := by
  obtain ⟨o, ho⟩ := Option.isSome_iff_exists.mp (hcomplete x hx)
  rw [ho]
  refine g.landed (fun p hp => ((hobjects p).mp hp).2) hland ho ?_
  rcases g.closure_cases hhave hw hcomplete hx with hlist | hwalk
  · exact .inl hlist
  · obtain ⟨b, hb, -⟩ := ObjectStore.get_eq_some.mp (ObjectStore.object_eq_some.mp ho)
    exact .inr ⟨b, (hobjects (x, b)).mpr ⟨⟨hwalk, by rw [ho]; rfl⟩, hb⟩⟩

/-- **The receiver has no gaps again.** -/
lemma closed_landed (hcomplete : ∀ w ∈ wants, Complete L src w) : t.Closed L := by
  have hwritten := ObjectStore.land_written L mtime objects dest
  rw [hland] at hwritten
  have hkept : ∀ y ∈ dest.list, y ∈ t.list := by
    intro y hy
    obtain ⟨obj, hobj, -⟩ := g.closed y hy
    exact ObjectStore.listed_of_object (hwritten.grows y obj hobj)
  intro x hx
  rcases hwritten.list hx with hlist | ⟨b, ⟨p, hp, rfl⟩, hid⟩
  · obtain ⟨obj, hobj, hchildren⟩ := g.closed x hlist
    exact ⟨obj, hwritten.grows x obj hobj, fun y hy => hkept y (hchildren y hy)⟩
  · -- a new object: what it refers to is had, or the walk went on to it
    obtain ⟨⟨hwalk, hsome⟩, hraw⟩ := (hobjects p).mp hp
    obtain rfl : x = p.1 := hid.trans (g.addressed _ _ hraw)
    obtain ⟨w, hw, hbelow⟩ := closure_of_wants (closure_of_reachVia hwalk)
    obtain ⟨obj, hobj⟩ := Option.isSome_iff_exists.mp hsome
    have hread : ∀ y, Closure L src [w] y → t.object L y = src.object L y := fun y hy =>
      g.delivered hhave hobjects hland hw (hcomplete w hw) hy
    refine ⟨obj, (hread p.1 hbelow).trans hobj, fun y hy => ?_⟩
    have hbelow' : Closure L src [w] y :=
      .step hbelow (by rwa [outEdges_of_object hobj]) rfl
    obtain ⟨o, ho⟩ := Option.isSome_iff_exists.mp (hcomplete w hw y hbelow')
    exact ObjectStore.listed_of_object ((hread y hbelow').trans ho)

end Land

end Receives

/-! ### A transfer -/

section Transfer

variable {mtime : Option ℕ} {sender self self' : Repository} {n : ℕ}

lemma syncTransfer_eq (h : (InProcess.syncTransfer L mtime sender wants self).1 = .ok n) :
    ∃ self', InProcess.syncTransfer L mtime sender wants self = (.ok n, self') := by
  rw [← h]
  exact ⟨_, rfl⟩

/-- **A transfer that returns** has landed the missing objects. -/
lemma syncTransfer_landed
    (hsized : ∀ x b, sender.objects.getRaw L x = .ok (some b) → b.length < 2 ^ 64)
    (h : InProcess.syncTransfer L mtime sender wants self = (.ok n, self')) :
    ∃ objects, (∀ p, p ∈ objects ↔ (ReachVia L sender.objects childEdges
          (fun id => decide (id ∈ self.objects.list.toFinset)) wants p.1 ∧
        (sender.objects.object L p.1).isSome) ∧ sender.objects.getRaw L p.1 = .ok (some p.2)) ∧
      ObjectStore.land L mtime objects self.objects = (.ok (), self'.objects) ∧
      self' = { self with objects := self'.objects } := by
  rw [InProcess.syncTransfer] at h
  split at h
  · cases h
  · next hnone =>
      cases h
      rw [InProcess.transferPack, Result.bind_eq_ok] at hnone
      obtain ⟨missing, hmissing, hnone⟩ := hnone
      split_ifs at hnone with hnil
      · refine ⟨[], fun p => ?_, rfl, rfl⟩
        have hmem := mem_missingClosure hmissing p.1
        rw [hnil] at hmem
        simp only [List.not_mem_nil, false_iff] at hmem ⊢
        exact fun hp => hmem hp.1
      · obtain ⟨pack, -, hnone⟩ := Result.bind_eq_ok.mp hnone
        cases hnone
  · next pack hpack =>
      split at h
      · cases h
      · next decoded hdecode =>
          split at h
          · cases h
          · next landed hland =>
              cases h
              rw [Repository.land] at hland
              obtain ⟨hok, rfl⟩ := Prod.mk.inj hland
              obtain ⟨objects, entries, digest, hfinish, hobjects⟩ :=
                InProcess.transferPack_objects hpack
              obtain rfl : decoded = objects := decodePack_finish_sound hfinish
                (fun p hp => hsized _ _ ((hobjects p).mp hp).2) hdecode
              exact ⟨decoded, hobjects, Prod.ext hok rfl, rfl⟩

/-- **The negotiation is exact.**  From a sender with complete wants the walk puts out the objects
that it reaches around those the receiver has, each once; and a receiver without gaps that has
taken them in holds the closures of the wants, and has no gaps. -/
theorem closure_negotiation (hcomplete : ∀ w ∈ wants, Complete L sender.objects w) :
    (∀ have_ : Finset ObjectId, ∃ out, missingClosure L sender.objects wants have_ = .ok out ∧
      out.Nodup ∧ ∀ x, x ∈ out ↔
        ReachVia L sender.objects childEdges (fun id => decide (id ∈ have_)) wants x) ∧
    ∀ (mtime : Option ℕ) (self self' : Repository) (n : ℕ),
      Receives L sender.objects self.objects →
      (∀ x b, sender.objects.getRaw L x = .ok (some b) → b.length < 2 ^ 64) →
      InProcess.syncTransfer L mtime sender wants self = (.ok n, self') →
      (∀ w ∈ wants, Complete L self'.objects w ∧ ∀ x, Closure L sender.objects [w] x →
        self'.objects.object L x = sender.objects.object L x) ∧ self'.objects.Closed L := by
  refine ⟨missingClosure_exact hcomplete, fun mtime self self' n g hsized h => ?_⟩
  obtain ⟨objects, hobjects, hland, -⟩ := syncTransfer_landed hsized h
  have hhave : ∀ y ∈ self.objects.list, y ∈ self.objects.list := fun _ hy => hy
  refine ⟨fun w hw => ?_, g.closed_landed hhave hobjects hland hcomplete⟩
  have hread : ∀ x, Closure L sender.objects [w] x →
      self'.objects.object L x = sender.objects.object L x := fun x hx =>
    g.delivered hhave hobjects hland hw (hcomplete w hw) hx
  refine ⟨fun x hx => ?_, hread⟩
  rw [closure_iff_of_agree hread] at hx
  rw [hread x hx]
  exact hcomplete w hw x hx

end Transfer

/-! ### A branch for a receiver that has its base -/

/-- The branch, and a receiver that has its first snapshots. -/
def branchSender : Repository := { Repository.memory with objects := branchStore }

def branchReceiver : Repository :=
  { Repository.memory with objects := .holding branchLinked (branchObjects.take 3) }

lemma branch_receives : Receives branchLinked branchSender.objects branchReceiver.objects := by
  have hclosed : ∀ x ∈ branchReceiver.objects.list,
      (branchReceiver.objects.object branchLinked x).any fun obj =>
        decide (∀ y ∈ childEdges obj, y ∈ branchReceiver.objects.list) := by decide +kernel
  have hagrees : ∀ x ∈ branchReceiver.objects.list,
      (branchReceiver.objects.getRaw branchLinked x).toOption =
        (branchSender.objects.getRaw branchLinked x).toOption := by decide +kernel
  have hobjects : branchSender.objects = .holding branchLinked branchObjects := by
    rw [branchSender, branchStore]
  have hwf := ObjectStore.holding_wf branchLinked branchObjects
  refine ⟨?_, fun x b b' hb hb' => ?_, fun x hx => ?_⟩
  · rw [hobjects]
    exact fun x b hb => hwf.addressed hb
  · have heq := hagrees x (ObjectStore.listed_of_getRaw hb)
    rw [hb, hb'] at heq
    exact Option.some.inj (Option.some.inj heq)
  · simpa [Option.any_eq_true] using hclosed x hx

/-- The receiver gets the four snapshots it lacks. -/
theorem closure_negotiation_branch :
    ∃ n self', InProcess.syncTransfer branchLinked none branchSender [branchId 6] branchReceiver =
        (.ok n, self') ∧ Complete branchLinked self'.objects (branchId 6) ∧
      self'.objects.Closed branchLinked := by
  have hpresent : closurePresent branchLinked branchSender.objects (branchId 6) = .ok true := by
    decide +kernel
  have hcomplete : ∀ w ∈ [branchId 6], Complete branchLinked branchSender.objects w := by
    intro w hw
    rw [List.mem_singleton.mp hw]
    exact closurePresent_true hpresent
  have hsized : ∀ x ∈ branchSender.objects.list,
      ((branchSender.objects.getRaw branchLinked x).toOption.bind id).all
        fun b => decide (b.length < 2 ^ 64) := by decide +kernel
  have hsent : (InProcess.syncTransfer branchLinked none branchSender [branchId 6]
      branchReceiver).1 = .ok 4 := by decide +kernel
  obtain ⟨self', hself⟩ := syncTransfer_eq hsent
  obtain ⟨hwants, hclosed⟩ := (closure_negotiation hcomplete).2 none branchReceiver self' 4
    branch_receives (fun x b hb => by
      simpa [hb, Except.toOption] using hsized x (ObjectStore.listed_of_getRaw hb)) hself
  exact ⟨4, self', hself, (hwants _ (by simp)).1, hclosed⟩

end Bole
