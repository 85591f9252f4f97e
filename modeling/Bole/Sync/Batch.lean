import Bole.Sync.Registries

/-!
The answer to a batch of pushed operations: `apply_push_ops` of `src/sync/session.rs`.

The loop decides each operation on its own and goes on after a refusal.  Two kinds of operations are
not refused in this way: one that names a tag fails when its ref is read, and one that creates a ref
which is there fails in the transaction.  Either fails the whole batch.

* `checkOps_verdict`: the loop gives each operation its own verdict;
* `verdict_spec`: an operation is let through exactly when no check refuses it;
* `commitPush_conflict`, `commitPush_fails`: what becomes of the operations that are let through;
* `reported_iff`: **every operation of a batch is reported** exactly when those that no check
  refuses name timelines, and find them or not, as they expect.
-/

namespace Bole

namespace RefUpdateOp

variable {m m' : RefMap} {op : RefUpdateOp} {ops : List RefUpdateOp} {n : RefName}

/-- An operation that fails has found another head than it expects, if there is a ref where it
expects one and none where it expects none. -/
lemma conflict_of_applyOp {e : Error} (htag : ∀ t, m op.name ≠ some (.tag t))
    (hpresent : op.expectedOld = none ↔ m op.name = none) (h : m.applyOp op.refOp = .error e) :
    ∃ msg, e = .transactionConflict msg := by
  rw [RefMap.applyOp, op.name_refOp, refOp] at h
  cases hold : op.expectedOld with
  | none => simp [hold, hpresent.mp hold, RefOp.next] at h
  | some old =>
      cases hm : m op.name with
      | none => simp [hpresent.mpr hm] at hold
      | some v =>
          cases v with
          | tag t => exact absurd hm (htag t)
          | timeline T =>
              by_cases hhead : T.head = old
              · simp [hold, hm, RefOp.next, hhead] at h
              · simp only [hold, hm, RefOp.next, if_neg hhead] at h
                exact ⟨_, (Except.error.inj h).symm⟩

/-- It fails otherwise, and not with a conflict. -/
lemma applyOp_fails (hpresent : ¬ (op.expectedOld = none ↔ m op.name = none)) :
    ∃ e, m.applyOp op.refOp = .error e ∧ ∀ msg, e ≠ .transactionConflict msg := by
  rw [RefMap.applyOp, op.name_refOp, refOp]
  cases hold : op.expectedOld with
  | none =>
      cases hm : m op.name with
      | none => exact absurd (by simp [hold, hm]) hpresent
      | some v => exact ⟨alreadyExists op.name, by simp [RefOp.next], fun msg h => by cases h⟩
  | some old =>
      cases hm : m op.name with
      | none => exact ⟨refNotFound op.name, by simp [RefOp.next], fun msg h => by cases h⟩
      | some v => exact absurd (by simp [hold, hm]) hpresent

/-- Operations of a push make no tag. -/
lemma tag_of_applyOps {t : Tag} (h : RefMap.applyOps (ops.map refOp) m = .ok m')
    (hn : m' n = some (.tag t)) : m n = some (.tag t) := by
  induction ops generalizing m with
  | nil =>
      cases h
      exact hn
  | cons op rest ih =>
      obtain ⟨m₁, h₁, h⟩ := Result.bind_eq_ok.mp h
      obtain ⟨-, ⟨T, hT⟩, hrest⟩ := applyOp_refOp h₁
      have hbefore := ih h
      by_cases hname : n = op.name
      · rw [hname, hT] at hbefore
        cases hbefore
      · rwa [hrest n hname] at hbefore

end RefUpdateOp

namespace Repository

/-! ### What a batch should be answered -/

/-- A check refuses the operation. -/
inductive Refused (L : Linked) (r : Repository) (accessor : Accessor) (b : PushBinding)
    (op : RefUpdateOp) : Prop where
  | reserved (h : (op.name.startsWith "refs/policy/" || op.name.startsWith "refs/collab/") = true)
  | unwritable (h : accessor.canWrite (b.rules.labelForTimeline b.lattice op.name.asStr)
      ⟨.timeline, op.name.asStr⟩ = false)
  | notSnapshot (h : r.objects.getSnapshot L op.newHead = .ok none)
  | incomplete (h : closurePresent L r.objects op.newHead = .ok false)
  | nonFastForward (old : ObjectId) (remote : Timeline) (hold : op.expectedOld = some old)
      (hremote : r.refs.get op.name = some (.timeline remote))
      (hpolicy : remote.policy ≠ .unrestricted)
      (h : findCommonAncestor L r.objects old op.newHead ≠ .ok (some old))
  | denied (remote : Timeline) (hremote : r.refs.get op.name = some (.timeline remote))
      (h : b.registry.evaluateReplayable L (r.pushContext accessor op remote) ≠ .allow)

/-- An operation is to be rejected on its own account: a check refuses it, or no hook may decide
about pushes, or it names a tag, or it creates a ref that is there. -/
inductive Rejected (L : Linked) (r : Repository) (accessor : Accessor) (b : PushBinding)
    (op : RefUpdateOp) : Prop where
  | refused (h : Refused L r accessor b op)
  | notReplayable (h : b.registry.deterministic = false)
  | wrongKind (t : Tag) (h : r.refs.get op.name = some (.tag t))
  | taken (v : Ref) (hold : op.expectedOld = none) (h : r.refs.get op.name = some v)

/-- The statuses `answer` of the operations are what `refs` has come from: a rejected operation is
reported as one, the others are all done or all in conflict, and what is done is what is reported
as done. -/
structure Settles (L : Linked) (r : Repository) (accessor : Accessor) (b : PushBinding)
    (ops : List RefUpdateOp) (answer : List (RefUpdateOp × RefApplyStatus)) (refs : RefStore) :
    Prop where
  each : answer.map Prod.fst = ops
  rejected : ∀ a ∈ answer, Rejected L r accessor b a.1 → a.2 ≠ .ok
  others : (∀ a ∈ answer, ¬ Rejected L r accessor b a.1 → a.2 = .ok) ∨
    ∀ a ∈ answer, a.2 ≠ .ok ∧
      (¬ Rejected L r accessor b a.1 → ∃ head, a.2 = .nonFastForward head)
  applied : RefMap.applyOps ((answer.filter fun a => a.2 = .ok).map fun a => a.1.refOp)
    r.refs.map = .ok refs.map

/-- The push is answered, with one status for each operation. -/
def Reported (L : Linked) (r : Repository) (accessor : Accessor) (ops : List RefUpdateOp) : Prop :=
  ∃ b results answer, r.bindPush L = .ok b ∧ (r.applyPushOps L accessor ops).1 = .ok results ∧
    results.Perm (answer.map fun a => ⟨a.1.name, a.2⟩) ∧
    Settles L r accessor b ops answer (r.applyPushOps L accessor ops).2.refs

open Classical in
/-- The operations that no check refuses, in the order of the batch. -/
noncomputable def unrefused (L : Linked) (r : Repository) (accessor : Accessor) (b : PushBinding)
    (ops : List RefUpdateOp) : List RefUpdateOp :=
  ops.filter fun op => ¬ Refused L r accessor b op

/-- No operation fails the batch: those that no check refuses name no tag, and each that the
others before it let the transaction come to creates a ref that is not there or advances one that
is. -/
structure Answerable (L : Linked) (r : Repository) (accessor : Accessor) (b : PushBinding)
    (ops : List RefUpdateOp) : Prop where
  kind : ∀ op ∈ unrefused L r accessor b ops, ∀ t, r.refs.get op.name ≠ some (.tag t)
  present : ∀ before op after m, unrefused L r accessor b ops = before ++ op :: after →
    RefMap.applyOps (before.map RefUpdateOp.refOp) r.refs.map = .ok m →
    (op.expectedOld = none ↔ m op.name = none)

/-! ### The verdicts -/

/-- The refusal of an operation, if the checks answer and refuse it. -/
def verdict (L : Linked) (r : Repository) (accessor : Accessor) (b : PushBinding)
    (op : RefUpdateOp) : Option RefApplyStatus :=
  match r.gateOp L accessor b op with
  | .ok (.error status) => some status
  | .ok (.ok current) => r.policyOp L accessor b op current
  | .error _ => none

variable {L : Linked} {r : Repository} {accessor : Accessor} {b : PushBinding}
  {ops accepted : List RefUpdateOp} {results : List RefStatusEntry} {op : RefUpdateOp}

/-- **The loop gives each operation its own verdict**, and lets through those that have none. -/
lemma checkOps_verdict (h : ∀ op ∈ ops, ∃ answer, r.gateOp L accessor b op = .ok answer) :
    r.checkOps L accessor b ops =
      .ok (ops.filterMap fun op => (r.verdict L accessor b op).map (RefStatusEntry.mk op.name),
        ops.filter fun op => (r.verdict L accessor b op).isNone) := by
  induction ops with
  | nil => rfl
  | cons op rest ih =>
      rw [List.forall_mem_cons] at h
      obtain ⟨⟨g, hg⟩, hrest⟩ := h
      rw [checkOps, hg, ih hrest, List.filterMap_cons, List.filter_cons, verdict, hg]
      cases g with
      | error status => simp [bind, Except.bind]
      | ok current => cases hp : r.policyOp L accessor b op current <;> simp [bind, Except.bind, hp]

lemma verdict_refuses {status : RefApplyStatus} (h : r.verdict L accessor b op = some status) :
    status ≠ .ok := by
  rw [verdict] at h
  split at h
  · next s hg =>
      cases h
      exact gateOp_refuses hg
  · exact policyOp_refuses h
  · cases h

lemma policyOp_eq_none {current : Option Timeline} :
    r.policyOp L accessor b op current = none ↔ ∀ remote, current = some remote →
      b.registry.evaluateReplayable L (r.pushContext accessor op remote) = .allow := by
  unfold policyOp
  cases current with
  | none => simp
  | some remote =>
      simp only [Option.some.injEq, forall_eq']
      split
      · next h => simp [h]
      · next h => simp [h]
      · next h => simp [h]

/-- The checks that come before the ref is read let the operation through. -/
structure Cleared (L : Linked) (r : Repository) (accessor : Accessor) (b : PushBinding)
    (op : RefUpdateOp) : Prop where
  free : (op.name.startsWith "refs/policy/" || op.name.startsWith "refs/collab/") = false
  writable : accessor.canWrite (b.rules.labelForTimeline b.lattice op.name.asStr)
    ⟨.timeline, op.name.asStr⟩ = true
  snapshot : ∃ snap, r.objects.getSnapshot L op.newHead = .ok (some snap)
  closure : closurePresent L r.objects op.newHead = .ok true

namespace Cleared

/-- What is left to refuse it is about the timeline there. -/
lemma refused_iff (h : Cleared L r accessor b op) :
    Refused L r accessor b op ↔ ∃ remote, r.refs.get op.name = some (.timeline remote) ∧
      ((∃ old, op.expectedOld = some old ∧ remote.policy ≠ .unrestricted ∧
          findCommonAncestor L r.objects old op.newHead ≠ .ok (some old)) ∨
        b.registry.evaluateReplayable L (r.pushContext accessor op remote) ≠ .allow) := by
  constructor
  · intro href
    cases href with
    | reserved hres =>
        rw [h.free] at hres
        cases hres
    | unwritable hw =>
        rw [h.writable] at hw
        cases hw
    | notSnapshot hs =>
        obtain ⟨snap, hsnap⟩ := h.snapshot
        rw [hsnap] at hs
        cases hs
    | incomplete hc =>
        rw [h.closure] at hc
        cases hc
    | nonFastForward old remote hold hremote hpolicy hff =>
        exact ⟨remote, hremote, .inl ⟨old, hold, hpolicy, hff⟩⟩
    | denied remote hremote hdeny => exact ⟨remote, hremote, .inr hdeny⟩
  · rintro ⟨remote, hremote, ⟨old, hold, hpolicy, hff⟩ | hdeny⟩
    · exact .nonFastForward old remote hold hremote hpolicy hff
    · exact .denied remote hremote hdeny

/-- The gate answers as the ref that it reads lets it. -/
lemma gateOp_tag (h : Cleared L r accessor b op) {t : Tag}
    (ht : r.refs.get op.name = some (.tag t)) :
    r.gateOp L accessor b op = .error (isTag op.name) := by
  obtain ⟨snap, hsnap⟩ := h.snapshot
  rw [gateOp, h.free]
  simp [h.writable, hsnap, h.closure, RefStore.getTimeline, ht, bind, Except.bind]

lemma gateOp_free (h : Cleared L r accessor b op) (hn : r.refs.get op.name = none) :
    r.gateOp L accessor b op = .ok (.ok none) := by
  obtain ⟨snap, hsnap⟩ := h.snapshot
  rw [gateOp, h.free]
  simp [h.writable, hsnap, h.closure, RefStore.getTimeline, hn, bind, Except.bind]

lemma gateOp_create (h : Cleared L r accessor b op) {T : Timeline}
    (hT : r.refs.get op.name = some (.timeline T)) (hold : op.expectedOld = none) :
    r.gateOp L accessor b op = .ok (.ok (some T)) := by
  obtain ⟨snap, hsnap⟩ := h.snapshot
  rw [gateOp, h.free]
  simp [h.writable, hsnap, h.closure, RefStore.getTimeline, hT, hold, bind, Except.bind]

lemma gateOp_advance (h : Cleared L r accessor b op) {T : Timeline} {old : ObjectId}
    {ancestor : Option ObjectId} (hT : r.refs.get op.name = some (.timeline T))
    (hold : op.expectedOld = some old)
    (hanc : findCommonAncestor L r.objects old op.newHead = .ok ancestor) :
    r.gateOp L accessor b op =
      if T.policy ≠ .unrestricted ∧ ancestor ≠ some old then .ok (.error (.nonFastForward T.head))
      else .ok (.ok (some T)) := by
  obtain ⟨snap, hsnap⟩ := h.snapshot
  rw [gateOp, h.free]
  simp [h.writable, hsnap, h.closure, RefStore.getTimeline, hT, hold, hanc, bind, Except.bind]

end Cleared

/-- The checks before it refuse the operation otherwise. -/
lemma refused_of_not_cleared (hreads : ∀ id, ∃ o, r.objects.get L id = .ok o)
    (h : ¬ Cleared L r accessor b op) :
    Refused L r accessor b op ∧ ∃ status, r.gateOp L accessor b op = .ok (.error status) := by
  cases hfree : (op.name.startsWith "refs/policy/" || op.name.startsWith "refs/collab/") with
  | true => exact ⟨.reserved hfree, _, by rw [gateOp, hfree, if_pos rfl]⟩
  | false =>
    rw [gateOp, hfree, if_neg Bool.false_ne_true]
    cases hwrite : accessor.canWrite (b.rules.labelForTimeline b.lattice op.name.asStr)
        ⟨.timeline, op.name.asStr⟩ with
    | false => exact ⟨.unwritable hwrite, _, rfl⟩
    | true =>
      obtain ⟨o, ho⟩ := ObjectStore.getSnapshot_of_get (hreads op.newHead)
      rw [Bool.not_true, if_neg Bool.false_ne_true, ho]
      cases o with
      | none => exact ⟨.notSnapshot ho, _, rfl⟩
      | some snap =>
        obtain ⟨present, hpresent⟩ := closurePresent_answers hreads op.newHead
        cases present with
        | false =>
            exact ⟨.incomplete hpresent, .denied "incomplete object closure",
              by simp [hpresent, bind, Except.bind]⟩
        | true => exact absurd ⟨hfree, hwrite, ⟨snap, ho⟩, hpresent⟩ h

/-- **An operation is refused, or let through, or names a tag and fails.** -/
lemma verdict_spec (hreads : ∀ id, ∃ o, r.objects.get L id = .ok o) (op : RefUpdateOp) :
    (∃ answer, r.gateOp L accessor b op = .ok answer) ∧
        (r.verdict L accessor b op = none ↔ ¬ Refused L r accessor b op) ∧
        (¬ Refused L r accessor b op → ∀ t, r.refs.get op.name ≠ some (.tag t)) ∨
      (∃ t, r.refs.get op.name = some (.tag t)) ∧ ¬ Refused L r accessor b op ∧
        r.gateOp L accessor b op = .error (isTag op.name) := by
  by_cases hclear : Cleared L r accessor b op
  · cases hget : r.refs.get op.name with
    | none =>
        left
        refine ⟨⟨_, hclear.gateOp_free hget⟩, ?_, fun _ t => nofun⟩
        rw [verdict, hclear.gateOp_free hget, hclear.refused_iff, hget]
        simp [policyOp]
    | some v =>
        cases v with
        | tag t =>
            refine .inr ⟨⟨t, rfl⟩, ?_, hclear.gateOp_tag hget⟩
            rw [hclear.refused_iff, hget]
            simp
        | timeline T =>
            left
            rw [verdict, hclear.refused_iff]
            cases hold : op.expectedOld with
            | none =>
                rw [hclear.gateOp_create hget hold, policyOp_eq_none]
                simp [hget]
            | some old =>
                obtain ⟨ancestor, hanc⟩ := findCommonAncestor_returns (L := L) (s := r.objects)
                  (a := old) (b := op.newHead) fun x _ => snapshotParents_of_get (hreads x)
                rw [hclear.gateOp_advance hget hold hanc]
                split_ifs with hff
                · simp [hget, hanc, hff]
                · rw [not_and, not_not] at hff
                  simp only [policyOp_eq_none]
                  simpa [hget, hanc] using fun _ => hff
  · obtain ⟨hrefused, status, hgate⟩ := refused_of_not_cleared hreads hclear
    exact .inl ⟨⟨_, hgate⟩, by simp [verdict, hgate, hrefused], fun hno => absurd hrefused hno⟩

lemma mem_unrefused : op ∈ unrefused L r accessor b ops ↔
    op ∈ ops ∧ ¬ Refused L r accessor b op := by
  simp [unrefused]

/-- Where no operation fails, the loop lets through those that no check refuses. -/
lemma unrefused_eq_filter (hreads : ∀ id, ∃ o, r.objects.get L id = .ok o)
    (hkind : ∀ op ∈ unrefused L r accessor b ops, ∀ t, r.refs.get op.name ≠ some (.tag t)) :
    (∀ op ∈ ops, ∃ answer, r.gateOp L accessor b op = .ok answer) ∧
      unrefused L r accessor b ops = ops.filter fun op => (r.verdict L accessor b op).isNone := by
  have hspec : ∀ op ∈ ops, (∃ answer, r.gateOp L accessor b op = .ok answer) ∧
      (r.verdict L accessor b op = none ↔ ¬ Refused L r accessor b op) := by
    intro op hop
    rcases verdict_spec (b := b) hreads op with ⟨hanswer, hverdict, -⟩ | ⟨⟨t, ht⟩, hno, -⟩
    · exact ⟨hanswer, hverdict⟩
    · exact absurd ht (hkind op (mem_unrefused.mpr ⟨hop, hno⟩) t)
  refine ⟨fun op hop => (hspec op hop).1, ?_⟩
  rw [unrefused]
  refine List.filter_congr fun op hop => ?_
  rw [Bool.eq_iff_iff, Option.isNone_iff_eq_none, (hspec op hop).2]
  simp

/-- An operation that names a tag, and that no check refuses, fails the loop. -/
lemma checkOps_tag (hreads : ∀ id, ∃ o, r.objects.get L id = .ok o)
    (hop : op ∈ unrefused L r accessor b ops) {t : Tag} (ht : r.refs.get op.name = some (.tag t)) :
    ∃ e, r.checkOps L accessor b ops = .error e := by
  obtain ⟨hmem, hno⟩ := mem_unrefused.mp hop
  cases hcheck : r.checkOps L accessor b ops with
  | error e => exact ⟨e, rfl⟩
  | ok out =>
      obtain ⟨answer, hanswer⟩ := checkOps_ok_iff.mp ⟨out, hcheck⟩ op hmem
      rcases verdict_spec (b := b) hreads op with
        ⟨-, -, hkind⟩ | ⟨-, -, hfails⟩
      · exact absurd ht (hkind hno t)
      · rw [hfails] at hanswer
        cases hanswer

/-! ### The transaction -/

/-- The head that a conflict reports. -/
def serverHead (r : Repository) (n : RefName) : ObjectId :=
  match r.refs.get n with
  | some (.timeline T) => T.head
  | _ => ⟨.replicate 0⟩

lemma commitPush_done (results : List RefStatusEntry) {m : RefMap}
    (h : RefMap.applyOps (accepted.map RefUpdateOp.refOp) r.refs.map = .ok m) :
    (r.commitPush results accepted).1 =
        .ok (results ++ accepted.map fun op => ⟨op.name, .ok⟩) ∧
      (r.commitPush results accepted).2.refs.map = m := by
  rw [commitPush]
  split_ifs with hnil
  · subst hnil
    exact ⟨by simp, Except.ok.inj h⟩
  · obtain ⟨t, hcommit, ht⟩ := RefStore.commit_of_applyOps h
    rw [hcommit]
    exact ⟨rfl, ht⟩

lemma commitPush_conflict (results : List RefStatusEntry) {msg : String}
    (hkind : ∀ op ∈ accepted, ∀ t, r.refs.get op.name ≠ some (.tag t))
    (h : RefMap.applyOps (accepted.map RefUpdateOp.refOp) r.refs.map =
      .error (.transactionConflict msg)) :
    r.commitPush results accepted =
      (.ok (results ++ accepted.map fun op => ⟨op.name, .nonFastForward (r.serverHead op.name)⟩),
        r) := by
  have hentries : r.conflictEntries accepted =
      .ok (accepted.map fun op => ⟨op.name, .nonFastForward (r.serverHead op.name)⟩) := by
    refine Result.mapM_eq_ok fun op hop => ?_
    rw [RefStore.getTimeline, serverHead]
    cases hget : r.refs.get op.name with
    | none => rfl
    | some v =>
        cases v with
        | tag t => exact absurd hget (hkind op hop t)
        | timeline T => rfl
  rw [commitPush]
  split_ifs with hnil
  · subst hnil
    cases h
  · rw [RefStore.commit_of_error h]
    simp only [hentries, bind, Except.bind]

lemma commitPush_fails {e : Error} (he : ∀ msg, e ≠ .transactionConflict msg)
    (h : RefMap.applyOps (accepted.map RefUpdateOp.refOp) r.refs.map = .error e) :
    (r.commitPush results accepted).1 = .error e := by
  rw [commitPush]
  split_ifs with hnil
  · subst hnil
    cases h
  · rw [RefStore.commit_of_error h]
    cases e with
    | transactionConflict msg => exact absurd rfl (he msg)
    | _ => rfl

/-! ### The whole answer -/

/-- The refusals, and what is put down for the operations that are let through, are one status for
each operation. -/
lemma perm_answer (final : RefUpdateOp → RefApplyStatus) (v : RefUpdateOp → Option RefApplyStatus)
    (ops : List RefUpdateOp) :
    (ops.filterMap (fun op => (v op).map (RefStatusEntry.mk op.name)) ++
        (ops.filter fun op => (v op).isNone).map fun op =>
          RefStatusEntry.mk op.name (final op)).Perm
      (ops.map fun op => ⟨op.name, (v op).getD (final op)⟩) := by
  induction ops with
  | nil => exact .nil
  | cons op rest ih =>
      cases hv : v op with
      | none =>
          simp only [List.filterMap_cons, List.filter_cons, hv, Option.map_none, Option.isNone_none,
            if_true, List.map_cons, Option.getD_none]
          exact List.perm_middle.trans (ih.cons _)
      | some status =>
          simp only [List.filterMap_cons, List.filter_cons, hv, Option.map_some, Option.isNone_some,
            Bool.false_eq_true, if_false, List.map_cons, Option.getD_some, List.cons_append]
          exact ih.cons _

/-- An answer that gives each operation its status. -/
lemma settles_of_status {status : RefUpdateOp → RefApplyStatus} {refs : RefStore}
    (hrejected : ∀ op ∈ ops, Rejected L r accessor b op → status op ≠ .ok)
    (hothers : (∀ op ∈ ops, ¬ Rejected L r accessor b op → status op = .ok) ∨
      ∀ op ∈ ops, status op ≠ .ok ∧
        (¬ Rejected L r accessor b op → ∃ head, status op = .nonFastForward head))
    (happlied : RefMap.applyOps ((ops.filter fun op => status op = .ok).map RefUpdateOp.refOp)
      r.refs.map = .ok refs.map) :
    Settles L r accessor b ops (ops.map fun op => (op, status op)) refs where
  each := by
    rw [List.map_map]
    exact List.map_id ops
  rejected := List.forall_mem_map.mpr hrejected
  others := hothers.imp List.forall_mem_map.mpr List.forall_mem_map.mpr
  applied := by
    rw [List.filter_map, List.map_map]
    exact happlied

/-- A rejected operation that no check refuses does not go through. -/
lemma Answerable.not_rejected {m : RefMap} (h : Answerable L r accessor b ops)
    (hdet : b.registry.deterministic = true) (hop : op ∈ unrefused L r accessor b ops)
    (happly : RefMap.applyOps ((unrefused L r accessor b ops).map RefUpdateOp.refOp) r.refs.map =
      .ok m) : ¬ Rejected L r accessor b op := by
  intro hrej
  cases hrej with
  | refused href => exact (mem_unrefused.mp hop).2 href
  | notReplayable hno =>
      rw [hdet] at hno
      cases hno
  | wrongKind t ht => exact h.kind op hop t ht
  | taken v hold hv =>
      obtain ⟨before, after, hsplit⟩ := List.append_of_mem hop
      rw [hsplit, List.map_append, RefMap.applyOps_append, Result.bind_eq_ok] at happly
      obtain ⟨m₁, hbefore, -⟩ := happly
      have hnone := (h.present before op after m₁ hsplit hbefore).mp hold
      cases v with
      | tag t => exact h.kind op hop t hv
      | timeline T =>
          obtain ⟨T', hT'⟩ := applyOps_refOp_timeline hbefore (.inl ⟨T, hv⟩)
          rw [hnone] at hT'
          cases hT'

section Answer

variable (hreads : ∀ id, ∃ o, r.objects.get L id = .ok o) (hbind : r.bindPush L = .ok b)
  (hdet : b.registry.deterministic = true)

include hreads

/-- What no check refuses has no verdict. -/
lemma mem_unrefused_iff (hkind : ∀ op ∈ unrefused L r accessor b ops, ∀ t,
    r.refs.get op.name ≠ some (.tag t)) (hop : op ∈ ops) :
    op ∈ unrefused L r accessor b ops ↔ r.verdict L accessor b op = none := by
  simp [(unrefused_eq_filter hreads hkind).2, hop]

include hbind hdet

/-- Where no operation fails, what is left of the push is its transaction. -/
lemma applyPushOps_unrefused
    (hkind : ∀ op ∈ unrefused L r accessor b ops, ∀ t, r.refs.get op.name ≠ some (.tag t)) :
    r.applyPushOps L accessor ops = r.commitPush
      (ops.filterMap fun op => (r.verdict L accessor b op).map (RefStatusEntry.mk op.name))
      (unrefused L r accessor b ops) := by
  obtain ⟨hanswers, hfilter⟩ := unrefused_eq_filter hreads hkind
  rw [applyPushOps, hbind]
  simp only [hdet, Bool.not_true, Bool.false_eq_true, if_false, checkOps_verdict hanswers, hfilter]

/-- Operations that can be applied are reported as done. -/
lemma Answerable.reported_done (h : Answerable L r accessor b ops) {m : RefMap}
    (happly : RefMap.applyOps ((unrefused L r accessor b ops).map RefUpdateOp.refOp) r.refs.map =
      .ok m) : Reported L r accessor ops := by
  have hpush := applyPushOps_unrefused hreads hbind hdet h.kind
  obtain ⟨-, hfilter⟩ := unrefused_eq_filter hreads h.kind
  obtain ⟨hresults, hrefs⟩ := commitPush_done (ops.filterMap fun op =>
    (r.verdict L accessor b op).map (RefStatusEntry.mk op.name)) happly
  refine ⟨b, _, ops.map fun op => (op, (r.verdict L accessor b op).getD .ok), hbind,
    by rw [hpush, hresults], ?_, settles_of_status (fun op hop hrej => ?_)
      (.inl fun op hop hno => ?_) ?_⟩
  · rw [hfilter, List.map_map]
    exact perm_answer (fun _ => .ok) _ ops
  · cases hv : r.verdict L accessor b op with
    | none =>
        have hpass := (mem_unrefused_iff hreads h.kind hop).mpr hv
        exact absurd hrej (h.not_rejected hdet hpass happly)
    | some status => exact verdict_refuses hv
  · have hpass := mem_unrefused.mpr ⟨hop, fun href => hno (.refused href)⟩
    rw [(mem_unrefused_iff hreads h.kind hop).mp hpass]
    rfl
  · rw [hpush, hrefs, ← happly, hfilter]
    congr 2
    refine List.filter_congr fun op _ => ?_
    cases hv : r.verdict L accessor b op with
    | none => rfl
    | some status => simpa using verdict_refuses hv

/-- Operations that are in conflict are all reported so. -/
lemma Answerable.reported_conflict (h : Answerable L r accessor b ops) {msg : String}
    (happly : RefMap.applyOps ((unrefused L r accessor b ops).map RefUpdateOp.refOp) r.refs.map =
      .error (.transactionConflict msg)) : Reported L r accessor ops := by
  have hpush := applyPushOps_unrefused hreads hbind hdet h.kind
  obtain ⟨-, hfilter⟩ := unrefused_eq_filter hreads h.kind
  have hconflict := commitPush_conflict (ops.filterMap fun op =>
    (r.verdict L accessor b op).map (RefStatusEntry.mk op.name)) h.kind happly
  have hstatus : ∀ op, (r.verdict L accessor b op).getD
      (.nonFastForward (r.serverHead op.name)) ≠ .ok := by
    intro op
    cases hv : r.verdict L accessor b op with
    | none => simp
    | some status => exact verdict_refuses hv
  refine ⟨b, _, ops.map fun op => (op, (r.verdict L accessor b op).getD
    (.nonFastForward (r.serverHead op.name))), hbind, by rw [hpush, hconflict], ?_,
    settles_of_status (fun op _ _ => hstatus op)
      (.inr fun op hop => ⟨hstatus op, fun hno => ⟨r.serverHead op.name, ?_⟩⟩) ?_⟩
  · rw [hfilter, List.map_map]
    exact perm_answer (fun op => .nonFastForward (r.serverHead op.name)) _ ops
  · have hpass := mem_unrefused.mpr ⟨hop, fun href => hno (.refused href)⟩
    rw [(mem_unrefused_iff hreads h.kind hop).mp hpass]
    rfl
  · rw [hpush, hconflict, List.filter_eq_nil_iff.mpr fun op _ => by simpa using hstatus op]
    rfl

/-- **Where no operation fails the batch, every operation is reported.** -/
lemma Answerable.reported (h : Answerable L r accessor b ops) : Reported L r accessor ops := by
  cases happly : RefMap.applyOps ((unrefused L r accessor b ops).map RefUpdateOp.refOp)
      r.refs.map with
  | ok m => exact h.reported_done hreads hbind hdet happly
  | error e =>
      -- the first operation that fails is in conflict
      obtain ⟨before, o, after, m, hsplit, hbefore, ho⟩ := RefMap.applyOps_error happly
      obtain ⟨before, rest, hops, rfl, hrest⟩ := List.map_eq_append_iff.mp hsplit
      obtain ⟨op, after, rfl, rfl, rfl⟩ := List.map_eq_cons_iff.mp hrest
      have hop : op ∈ unrefused L r accessor b ops := by simp [hops]
      obtain ⟨msg, rfl⟩ := RefUpdateOp.conflict_of_applyOp
        (fun t ht => h.kind op hop t (RefUpdateOp.tag_of_applyOps hbefore ht))
        (h.present before op after m hops hbefore) ho
      exact h.reported_conflict hreads hbind hdet happly

/-- A batch that is answered has no operation that fails it. -/
lemma answerable_of_ok (h : (r.applyPushOps L accessor ops).1 = .ok results) :
    Answerable L r accessor b ops := by
  have hkind : ∀ op ∈ unrefused L r accessor b ops, ∀ t, r.refs.get op.name ≠ some (.tag t) := by
    intro op hop t ht
    obtain ⟨e, he⟩ := checkOps_tag hreads hop ht
    rw [applyPushOps, hbind] at h
    simp only [hdet, Bool.not_true, Bool.false_eq_true, if_false, he] at h
    cases h
  refine ⟨hkind, fun before op after m hsplit hbefore => ?_⟩
  by_contra hno
  obtain ⟨e, hfails, he⟩ := RefUpdateOp.applyOp_fails hno
  have happly : RefMap.applyOps ((unrefused L r accessor b ops).map RefUpdateOp.refOp)
      r.refs.map = .error e := by
    rw [hsplit, List.map_append, RefMap.applyOps_append, hbefore, List.map_cons]
    simp only [bind, Except.bind, RefMap.applyOps, hfails]
  rw [applyPushOps_unrefused hreads hbind hdet hkind, commitPush_fails he happly] at h
  cases h

end Answer

/-- Where a hook may not decide about pushes, every operation is refused. -/
lemma reported_of_not_deterministic (hbind : r.bindPush L = .ok b)
    (hdet : b.registry.deterministic = false) : Reported L r accessor ops := by
  have hpush : r.applyPushOps L accessor ops = (.ok (refuseAll b ops), r) := by
    rw [applyPushOps, hbind]
    simp [hdet]
  obtain ⟨reason, hreason⟩ : ∃ reason, refuseAll b ops =
      ops.map fun op => ⟨op.name, .denied reason⟩ := ⟨_, rfl⟩
  rw [Reported, hpush]
  refine ⟨b, _, ops.map fun op => (op, .denied reason), hbind, rfl, ?_,
    settles_of_status (fun op _ _ => ?_) (.inr fun op _ => ?_) ?_⟩
  · rw [hreason, List.map_map]
    exact .refl _
  · simp
  · exact ⟨by simp, fun hno => absurd (.notReplayable hdet) hno⟩
  · simp [RefMap.applyOps]

/-- **Every operation of a batch is reported** exactly when the policy can be read and none of them
fails the batch. -/
theorem reported_iff (hreads : ∀ id, ∃ o, r.objects.get L id = .ok o) :
    Reported L r accessor ops ↔ ∃ b, r.bindPush L = .ok b ∧
      (b.registry.deterministic = true → Answerable L r accessor b ops) := by
  constructor
  · rintro ⟨b, results, answer, hbind, hresults, -⟩
    exact ⟨b, hbind, fun hdet => answerable_of_ok hreads hbind hdet hresults⟩
  · rintro ⟨b, hbind, hanswerable⟩
    cases hdet : b.registry.deterministic with
    | true => exact (hanswerable hdet).reported hreads hbind hdet
    | false => exact reported_of_not_deterministic hbind hdet

/-! ### A reserved name and a tag -/

lemma pushRepo_objects : pushRepo.objects = .holding pushLinked pushObjects := by
  rw [pushRepo]

lemma pushRepo_reads (id : ObjectId) : ∃ o, pushRepo.objects.get pushLinked id = .ok o := by
  have hlisted : ∀ id ∈ (ObjectStore.holding pushLinked pushObjects).list,
      ((ObjectStore.holding pushLinked pushObjects).get pushLinked id).map (fun _ => ()) =
        .ok () := by
    decide +kernel
  rw [pushRepo_objects]
  exact ObjectStore.holding_reads hlisted id

/-- The creation of a timeline in the place of the policy. -/
def policySquat : RefUpdateOp := ⟨policyRootRef, none, pushId 5⟩

/-- **A reserved name is reported**, and the advance next to it is still made. -/
theorem reported_reserved :
    Reported pushLinked pushRepo timelineWriter [policySquat, pushUpdate] := by
  have hadvance : (pushRepo.applyPushOps pushLinked timelineWriter [pushUpdate]).1 =
      .ok [⟨pushName, .ok⟩] := by decide +kernel
  obtain ⟨-, b, -, hbind, -⟩ := (pushRepo_accepts hadvance).checked
  refine (reported_iff pushRepo_reads).mpr ⟨b, hbind, fun _ => ?_⟩
  have hrefused : Refused pushLinked pushRepo timelineWriter b policySquat :=
    .reserved (by decide +kernel)
  have hops : ∀ op ∈ unrefused pushLinked pushRepo timelineWriter b [policySquat, pushUpdate],
      op = pushUpdate := by
    intro op hop
    obtain ⟨hop, hno⟩ := mem_unrefused.mp hop
    rcases List.mem_pair.mp hop with rfl | rfl
    · exact absurd hrefused hno
    · rfl
  refine ⟨fun op hop t => ?_, fun before op after m hsplit hbefore => ?_⟩
  · rw [hops op hop, pushRepo_get]
    exact nofun
  · obtain rfl := hops op (by simp [hsplit])
    obtain ⟨T, hT⟩ := applyOps_refOp_timeline hbefore (.inl ⟨_, pushRepo_get⟩)
    rw [hT]
    exact ⟨nofun, nofun⟩

/-- The repository with a tag next to the timeline. -/
def taggedRepo : Repository :=
  { pushRepo with
    refs := ⟨pushRepo.refs.refs.insert ⟨"v1", RefName.valid_v1⟩ (.tag ⟨pushId 4, 0, none⟩)⟩ }

lemma taggedRepo_objects : taggedRepo.objects = pushRepo.objects := by
  rw [taggedRepo]

/-- **A tag fails the batch**: the advance next to it is not reported. -/
theorem tag_fails_batch :
    ¬ ∀ (L : Linked) (r : Repository) (accessor : Accessor) (ops : List RefUpdateOp),
      (∀ id, ∃ o, r.objects.get L id = .ok o) → Reported L r accessor ops := by
  intro h
  have hreads : ∀ id, ∃ o, taggedRepo.objects.get pushLinked id = .ok o := by
    rw [taggedRepo_objects]
    exact pushRepo_reads
  obtain ⟨b, results, answer, -, hresults, -⟩ := h pushLinked taggedRepo timelineWriter
    [pushUpdate, ⟨⟨"v1", RefName.valid_v1⟩, none, pushId 5⟩] hreads
  have hfails : (taggedRepo.applyPushOps pushLinked timelineWriter
      [pushUpdate, ⟨⟨"v1", RefName.valid_v1⟩, none, pushId 5⟩]).1 =
        .error (.wrongRefKind "'v1' is a tag, not a timeline") := by
    decide +kernel
  rw [hfails] at hresults
  cases hresults

end Repository

end Bole
