import Bole.Repo.Proposal

/-!
Merges among other calls (`merge_proposal` of `src/repo/pr.rs`, the merge command of
`bole-cli/src/commands/merge.rs`).

A merge reads each head twice: once for the parents of the merge snapshot, and once more inside
`merge_timelines` for its trees.  The commit is bound to the target's head of the first read.

* `step_alone`: thirteen steps on one state are the merge;
* `run_sound`: whatever happens in between, the committed tree is the merge of the heads of the
  second reads;
* `merge_of_recorded_parents`: it is the merge of the recorded parents in every run in which the
  second reads find the heads of the first.
-/

namespace Bole

/-! ### The steps of a merge -/

/-- What a merge has found once it has taken its diff: the heads it will record, those whose
trees it has read, the state it read them in, and the merged map. -/
structure Diffed where
  heads : MergeHeads
  seen : MergeHeads
  base : Repository
  merged : BTreeMap String ObjectId

/-- How far a merge has come. -/
inductive MergeCall where
  | called (req : MergeRequest)
  | sourceRecorded (req : MergeRequest) (sourceHead : ObjectId)
  | recorded (req : MergeRequest) (heads : MergeHeads)
  | sourceSeen (req : MergeRequest) (heads : MergeHeads) (sourceHead : ObjectId)
  | seen (req : MergeRequest) (heads seen : MergeHeads)
  | diffed (req : MergeRequest) (d : Diffed)
  | built (req : MergeRequest) (d : Diffed) (root : ObjectId)
  | advancing (req : MergeRequest) (d : Diffed) (root : ObjectId) (c : AdvanceCall)
  | returned (req : MergeRequest) (result : Result ProposalMerge)

namespace MergeCall

/-- A read that succeeds hands on what it has found, one that fails returns. -/
def proceed {α : Type} (r : Repository) (req : MergeRequest) (x : Result α)
    (next : α → MergeCall) : MergeCall × Repository :=
  match x with
  | .error e => (.returned req (.error e), r)
  | .ok a => (next a, r)

/-- The last stretch is an advance; when it returns the merge does. -/
def ofAdvance (req : MergeRequest) (d : Diffed) (root : ObjectId) : AdvanceCall → MergeCall
  | .returned areq (.ok ()) => .returned req (.ok (.merged areq.snapshotId))
  | .returned _ (.error e) => .returned req (.error e)
  | c => .advancing req d root c

/-- The diff of the heads that were seen. -/
def diff (L : Linked) (r : Repository) (req : MergeRequest) (heads seen : MergeHeads) :
    MergeCall :=
  match r.mergeTrees L seen with
  | .error e => .returned req (.error e)
  | .ok result =>
      match Repository.cleanMerge result with
      | .error conflicts => .returned req (.ok (.conflicts conflicts))
      | .ok merged => .diffed req ⟨heads, seen, r, merged⟩

/-- The next step of a merge, on the state it finds. -/
def step (L : Linked) (r : Repository) : MergeCall → MergeCall × Repository
  | called req =>
      proceed r req (r.timelineHead req.source req.missingSource) (sourceRecorded req)
  | sourceRecorded req sourceHead =>
      proceed r req (r.timelineHead req.target req.missingTarget) fun targetHead =>
        recorded req ⟨sourceHead, targetHead⟩
  | recorded req heads =>
      proceed r req (do
        Repository.mayMerge req.accessor req.target
        r.timelineHead req.source (Repository.timelineNotFound req.source)) (sourceSeen req heads)
  | sourceSeen req heads sourceHead =>
      proceed r req (r.timelineHead req.target (Repository.timelineNotFound req.target))
        fun targetHead => seen req heads ⟨sourceHead, targetHead⟩
  | seen req heads heads' => (diff L r req heads heads', r)
  | diffed req d =>
      proceed (r.putTree L d.merged req.mtime).2 req (r.putTree L d.merged req.mtime).1
        (built req d)
  | built req d root =>
      proceed (r.putMerge L req d.heads root).2 req (r.putMerge L req d.heads root).1 fun snap =>
        advancing req d root (.called (req.advance d.heads snap))
  | advancing req d root c => (ofAdvance req d root (c.step L r).1, (c.step L r).2)
  | returned req result => (returned req result, r)

/-- A step of the advance is a step of the merge, also when the advance has returned. -/
lemma step_ofAdvance (L : Linked) (r : Repository) (req : MergeRequest) (d : Diffed)
    (root : ObjectId) (c : AdvanceCall) :
    (ofAdvance req d root c).step L r = (ofAdvance req d root (c.step L r).1, (c.step L r).2) := by
  cases c with
  | returned areq result =>
      cases result with
      | error e => rfl
      | ok u => rfl
  | _ => rfl

/-- Steps of the advance are steps of the merge. -/
lemma iterate_ofAdvance (L : Linked) (req : MergeRequest) (d : Diffed) (root : ObjectId) (n : ℕ)
    (c : AdvanceCall) (r : Repository) :
    (fun s : MergeCall × Repository => s.1.step L s.2)^[n] (ofAdvance req d root c, r) =
      (ofAdvance req d root
          ((fun s : AdvanceCall × Repository => AdvanceCall.step L s.2 s.1)^[n] (c, r)).1,
        ((fun s : AdvanceCall × Repository => AdvanceCall.step L s.2 s.1)^[n] (c, r)).2) := by
  induction n generalizing c r with
  | zero => rfl
  | succ n ih =>
      rw [Function.iterate_succ_apply, Function.iterate_succ_apply, step_ofAdvance, ih]

/-- A merge that has returned stays as it is. -/
lemma iterate_of_returned {L : Linked} {c : MergeCall} {r r' : Repository} {req : MergeRequest}
    {result : Result ProposalMerge} {k : ℕ} (n : ℕ)
    (h : (fun s : MergeCall × Repository => s.1.step L s.2)^[k] (c, r) =
      (returned req result, r')) :
    (fun s : MergeCall × Repository => s.1.step L s.2)^[n + k] (c, r) =
      (returned req result, r') := by
  rw [Function.iterate_add_apply, h]
  exact Function.iterate_fixed (f := fun s : MergeCall × Repository => s.1.step L s.2) rfl n

/-- Eight steps from the diff on one state publish the merge. -/
lemma step_publish (L : Linked) (r : Repository) (req : MergeRequest) (d : Diffed) :
    (fun s : MergeCall × Repository => s.1.step L s.2)^[8] (diffed req d, r) =
      (returned req (r.publishMerge L req d.heads d.merged).1,
        (r.publishMerge L req d.heads d.merged).2) := by
  rw [Repository.publishMerge]
  rcases h1 : r.putTree L d.merged req.mtime with ⟨result, r₁⟩
  cases result with
  | error e => exact iterate_of_returned (k := 1) 7 (by simp [step, proceed, h1])
  | ok root =>
      rcases h2 : r₁.putMerge L req d.heads root with ⟨result, r₂⟩
      cases result with
      | error e => exact iterate_of_returned (k := 2) 6 (by simp [step, proceed, h1, h2])
      | ok snap =>
          have hadvance := iterate_ofAdvance L req d root 6 (.called (req.advance d.heads snap)) r₂
          rw [AdvanceCall.step_six] at hadvance
          have htwo : (fun s : MergeCall × Repository => s.1.step L s.2)^[2] (diffed req d, r) =
              (ofAdvance req d root (.called (req.advance d.heads snap)), r₂) := by
            simp [step, proceed, h1, h2, ofAdvance]
          rw [show 8 = 6 + 2 from rfl, Function.iterate_add_apply, htwo, hadvance]
          dsimp only
          rw [h2]
          dsimp only
          rcases r₂.advanceTimelineExpecting L (req.advance d.heads snap) with ⟨result, r₃⟩
          cases result with
          | error e => rfl
          | ok u => rfl

/-- **Thirteen steps on one state are the merge.** -/
lemma step_alone (L : Linked) (r : Repository) (req : MergeRequest) :
    (fun s : MergeCall × Repository => s.1.step L s.2)^[13] (called req, r) =
      (returned req (r.mergeInto L req).1, (r.mergeInto L req).2) := by
  rw [Repository.mergeInto, Repository.recordHeads, Repository.mergeTimelines]
  cases h1 : r.timelineHead req.source req.missingSource with
  | error e =>
      exact iterate_of_returned (k := 1) 12 (by simp [step, proceed, h1, bind, Except.bind])
  | ok sourceHead =>
    cases h2 : r.timelineHead req.target req.missingTarget with
    | error e =>
        exact iterate_of_returned (k := 2) 11 (by simp [step, proceed, h1, h2, bind, Except.bind])
    | ok targetHead =>
      -- the second reads of the refs find what the first have found
      have h4 : r.timelineHead req.source (Repository.timelineNotFound req.source) =
          .ok sourceHead := Repository.timelineHead_eq_ok.mpr (Repository.timelineHead_eq_ok.mp h1)
      have h5 : r.timelineHead req.target (Repository.timelineNotFound req.target) =
          .ok targetHead := Repository.timelineHead_eq_ok.mpr (Repository.timelineHead_eq_ok.mp h2)
      cases h3 : Repository.mayMerge req.accessor req.target with
      | error e =>
          exact iterate_of_returned (k := 3) 10
            (by simp [step, proceed, h1, h2, h3, bind, Except.bind])
      | ok _ =>
        have hfive : (fun s : MergeCall × Repository => s.1.step L s.2)^[5] (called req, r) =
            (diff L r req ⟨sourceHead, targetHead⟩ ⟨sourceHead, targetHead⟩, r) := by
          simp [step, proceed, h1, h2, h3, h4, h5, bind, Except.bind]
        simp only [bind, Except.bind, h4, h5]
        rw [diff] at hfive
        cases h6 : r.mergeTrees L ⟨sourceHead, targetHead⟩ with
        | error e =>
            rw [h6] at hfive
            exact iterate_of_returned 8 hfive
        | ok result =>
          rw [h6] at hfive
          dsimp only at hfive ⊢
          cases h7 : Repository.cleanMerge result with
          | error conflicts =>
              rw [h7] at hfive
              exact iterate_of_returned 8 hfive
          | ok merged =>
              rw [h7] at hfive
              rw [show 13 = 8 + 5 from rfl, Function.iterate_add_apply, hfive]
              exact step_publish L r req _

end MergeCall

/-! ### The advance at the end -/

namespace AdvanceCall

/-- What a call was asked for. -/
def request : AdvanceCall → AdvanceRequest
  | called req => req
  | prepared req _ => req
  | read req _ _ => req
  | cleared req _ => req
  | bound req _ _ => req
  | allowed req _ => req
  | returned req _ => req

/-- The timeline a call has read, if it is bound to it. -/
def timeline : AdvanceCall → Option Timeline
  | read _ _ timeline => some timeline
  | cleared _ timeline => some timeline
  | bound _ timeline _ => some timeline
  | allowed _ timeline => some timeline
  | _ => none

/-- The head a call is bound to is the one its caller expects. -/
def Expected (c : AdvanceCall) : Prop :=
  ∀ T, c.timeline = some T → ∀ head, c.request.expectedOld = some head → T.head = head

variable {L : Linked} {r : Repository} {c : AdvanceCall}

/-- What a step of a call can lead to. -/
lemma step_cases (L : Linked) (r : Repository) (c : AdvanceCall) :
    (c.step L r).1.request = c.request ∧ ((c.step L r).1.timeline = none ∨
      (c.step L r).1.timeline = c.timeline ∨
      ∃ T, r.readTimeline c.request = .ok T ∧ (c.step L r).1.timeline = some T) := by
  cases c with
  | called req =>
      rcases proceed_cases r req (r.prepare L req) (.prepared req) with ⟨e, h⟩ | ⟨a, -, h⟩
      · simp [step, h, request, timeline]
      · simp [step, h, request, timeline]
  | prepared req p =>
      rcases proceed_cases r req (r.readTimeline req) (.read req p) with ⟨e, h⟩ | ⟨a, ha, h⟩
      · simp [step, h, request, timeline]
      · rw [step, h]
        exact ⟨rfl, Or.inr (Or.inr ⟨a, ha, rfl⟩)⟩
  | read req p T =>
      rcases proceed_cases r req (r.checkRemoved L req p T) (fun _ => .cleared req T) with
        ⟨e, h⟩ | ⟨a, -, h⟩
      · simp [step, h, request, timeline]
      · simp [step, h, request, timeline]
  | cleared req T =>
      rcases proceed_cases r req (r.policyRegistry L).attempt (.bound req T) with
        ⟨e, h⟩ | ⟨a, -, h⟩
      · simp [step, h, request, timeline]
      · simp [step, h, request, timeline]
  | bound req T registry =>
      rcases proceed_cases r req (r.checkPolicy L req registry T) (fun _ => .allowed req T) with
        ⟨e, h⟩ | ⟨a, -, h⟩
      · simp [step, h, request, timeline]
      · simp [step, h, request, timeline]
  | allowed req T => simp [step, request, timeline]
  | returned req result => simp [step, request, timeline]

lemma Expected.step (h : c.Expected) : (c.step L r).1.Expected := by
  obtain ⟨hreq, hnone | hsame | ⟨T, hread, hT⟩⟩ := step_cases L r c
  · intro T hT
    rw [hnone] at hT
    cases hT
  · rw [Expected, hreq, hsame]
    exact h
  · intro T' hT' head hhead
    rw [hT] at hT'
    cases hT'
    rw [hreq] at hhead
    exact (Repository.readTimeline_eq_ok.mp hread).2 head hhead

end AdvanceCall

/-! ### What a merge knows -/

namespace MergeCall

/-- What a call has established: its diff is that of the heads it has seen, its root was built
from it, and its snapshot records the heads it has recorded. -/
def Sound (L : Linked) : MergeCall → Prop
  | .diffed _ d => d.base.mergeTrees L d.seen = .ok ⟨d.merged, []⟩
  | .built req d root => d.base.mergeTrees L d.seen = .ok ⟨d.merged, []⟩ ∧
      ∃ s, (buildTree L s d.merged req.mtime).1 = .ok root
  | .advancing req d root c => d.base.mergeTrees L d.seen = .ok ⟨d.merged, []⟩ ∧
      (∃ s, (buildTree L s d.merged req.mtime).1 = .ok root) ∧
      (∃ b, L.codec.serialize (.snapshot (req.snapshot d.heads root)) = .ok b ∧
        c.request = req.advance d.heads (L.fromContent b)) ∧ c.Expected
  | _ => True

/-- A call has read the trees of the heads it has recorded. -/
def Agrees : MergeCall → Prop
  | .sourceSeen _ heads sourceHead => sourceHead = heads.source
  | .seen _ heads heads' => heads' = heads
  | .diffed _ d => d.seen = d.heads
  | .built _ d _ => d.seen = d.heads
  | .advancing _ d _ _ => d.seen = d.heads
  | _ => True

/-- A second read of a head finds the timeline at the head that was recorded. -/
def SteadyAt (r : Repository) : MergeCall → Prop
  | .recorded req heads => ∀ T, r.refs.get req.source = some (.timeline T) → T.head = heads.source
  | .sourceSeen req heads _ =>
      ∀ T, r.refs.get req.target = some (.timeline T) → T.head = heads.target
  | _ => True

/-- The state a call has taken its trees from. -/
def base : MergeCall → Option Repository
  | .diffed _ d => some d.base
  | .built _ d _ => some d.base
  | .advancing _ d _ _ => some d.base
  | _ => none

variable {L : Linked} {r : Repository} {c : MergeCall}

lemma proceed_cases {α : Type} (r : Repository) (req : MergeRequest) (x : Result α)
    (next : α → MergeCall) :
    (∃ e, (proceed r req x next).1 = returned req (.error e)) ∨
      ∃ a, x = .ok a ∧ (proceed r req x next).1 = next a := by
  cases x with
  | error e => exact Or.inl ⟨e, rfl⟩
  | ok a => exact Or.inr ⟨a, rfl, rfl⟩

lemma ofAdvance_cases (req : MergeRequest) (d : Diffed) (root : ObjectId) (c : AdvanceCall) :
    (∃ result, ofAdvance req d root c = returned req result) ∨
      ofAdvance req d root c = advancing req d root c := by
  cases c with
  | returned areq result =>
      cases result with
      | error e => exact Or.inl ⟨_, rfl⟩
      | ok u => exact Or.inl ⟨_, rfl⟩
  | _ => exact Or.inr rfl

/-- A diff that is taken is clean. -/
lemma diff_cases (L : Linked) (r : Repository) (req : MergeRequest) (heads seen : MergeHeads) :
    (∃ result, diff L r req heads seen = returned req result) ∨
      ∃ merged, r.mergeTrees L seen = .ok ⟨merged, []⟩ ∧
        diff L r req heads seen = diffed req ⟨heads, seen, r, merged⟩ := by
  rw [diff]
  cases hm : r.mergeTrees L seen with
  | error e => exact Or.inl ⟨_, rfl⟩
  | ok result =>
      obtain ⟨merged, conflicts⟩ := result
      dsimp only [Repository.cleanMerge]
      split_ifs with hc
      · subst hc
        exact Or.inr ⟨merged, rfl, rfl⟩
      · exact Or.inl ⟨_, rfl⟩

/-- What a step of a call can lead to, with what it has found. -/
inductive Next (L : Linked) (r : Repository) : MergeCall → MergeCall → Prop where
  | returned (c : MergeCall) (req : MergeRequest) (result : Result ProposalMerge) :
      Next L r c (.returned req result)
  | recordSource (req : MergeRequest) (head : ObjectId) :
      Next L r (.called req) (.sourceRecorded req head)
  | recordTarget (req : MergeRequest) (sourceHead targetHead : ObjectId) :
      Next L r (.sourceRecorded req sourceHead) (.recorded req ⟨sourceHead, targetHead⟩)
  | seeSource {req : MergeRequest} (heads : MergeHeads) {T : Timeline} :
      r.refs.get req.source = some (.timeline T) →
      Next L r (.recorded req heads) (.sourceSeen req heads T.head)
  | seeTarget {req : MergeRequest} (heads : MergeHeads) (sourceHead : ObjectId) {T : Timeline} :
      r.refs.get req.target = some (.timeline T) →
      Next L r (.sourceSeen req heads sourceHead) (.seen req heads ⟨sourceHead, T.head⟩)
  | diff (req : MergeRequest) (heads : MergeHeads) {seen : MergeHeads}
      {merged : BTreeMap String ObjectId} : r.mergeTrees L seen = .ok ⟨merged, []⟩ →
      Next L r (.seen req heads seen) (.diffed req ⟨heads, seen, r, merged⟩)
  | build {req : MergeRequest} {d : Diffed} {root : ObjectId} :
      (buildTree L r.objects d.merged req.mtime).1 = .ok root →
      Next L r (.diffed req d) (.built req d root)
  | put {req : MergeRequest} {d : Diffed} {root : ObjectId} {b : Bytes} :
      L.codec.serialize (.snapshot (req.snapshot d.heads root)) = .ok b →
      Next L r (.built req d root)
        (.advancing req d root (.called (req.advance d.heads (L.fromContent b))))
  | advance (req : MergeRequest) (d : Diffed) (root : ObjectId) (c : AdvanceCall) :
      Next L r (.advancing req d root c) (.advancing req d root (c.step L r).1)

/-- **What a step of a call does.** -/
lemma step_next (L : Linked) (r : Repository) (c : MergeCall) : Next L r c (c.step L r).1 := by
  cases c with
  | called req =>
      rw [step]
      rcases proceed_cases r req (r.timelineHead req.source req.missingSource)
        (sourceRecorded req) with ⟨e, h⟩ | ⟨head, -, h⟩
      · exact h ▸ .returned _ _ _
      · exact h ▸ .recordSource _ _
  | sourceRecorded req sourceHead =>
      rw [step]
      rcases proceed_cases r req (r.timelineHead req.target req.missingTarget)
        (fun targetHead => recorded req ⟨sourceHead, targetHead⟩) with ⟨e, h⟩ | ⟨head, -, h⟩
      · exact h ▸ .returned _ _ _
      · exact h ▸ .recordTarget _ _ _
  | recorded req heads =>
      rw [step]
      rcases proceed_cases r req (do
        Repository.mayMerge req.accessor req.target
        r.timelineHead req.source (Repository.timelineNotFound req.source))
        (sourceSeen req heads) with ⟨e, h⟩ | ⟨head, hread, h⟩
      · exact h ▸ .returned _ _ _
      · obtain ⟨_, -, hhead⟩ := Result.bind_eq_ok.mp hread
        obtain ⟨T, hT, rfl⟩ := Repository.timelineHead_eq_ok.mp hhead
        exact h ▸ .seeSource heads hT
  | sourceSeen req heads sourceHead =>
      rw [step]
      rcases proceed_cases r req (r.timelineHead req.target
        (Repository.timelineNotFound req.target))
        (fun targetHead => seen req heads ⟨sourceHead, targetHead⟩) with
        ⟨e, h⟩ | ⟨head, hread, h⟩
      · exact h ▸ .returned _ _ _
      · obtain ⟨T, hT, rfl⟩ := Repository.timelineHead_eq_ok.mp hread
        exact h ▸ .seeTarget heads sourceHead hT
  | seen req heads heads' =>
      rw [step]
      rcases diff_cases L r req heads heads' with ⟨result, h⟩ | ⟨merged, hm, h⟩
      · exact h ▸ .returned _ _ _
      · exact h ▸ .diff req heads hm
  | diffed req d =>
      rw [step]
      rcases proceed_cases (r.putTree L d.merged req.mtime).2 req
        (r.putTree L d.merged req.mtime).1 (built req d) with ⟨e, h⟩ | ⟨root, hroot, h⟩
      · exact h ▸ .returned _ _ _
      · exact h ▸ .build hroot
  | built req d root =>
      rw [step]
      rcases proceed_cases (r.putMerge L req d.heads root).2 req
        (r.putMerge L req d.heads root).1
        (fun snap => advancing req d root (.called (req.advance d.heads snap))) with
        ⟨e, h⟩ | ⟨snap, hsnap, h⟩
      · exact h ▸ .returned _ _ _
      · obtain ⟨b, hb, rfl⟩ := ObjectStore.put_eq_ok hsnap
        exact h ▸ .put hb
  | advancing req d root c =>
      rw [step]
      rcases ofAdvance_cases req d root (c.step L r).1 with ⟨result, h⟩ | h
      · exact h ▸ .returned _ _ _
      · exact h ▸ .advance _ _ _ _
  | returned req result => exact .returned _ _ _

lemma Sound.next {c' : MergeCall} (h : c.Sound L) (hn : Next L r c c') : c'.Sound L := by
  cases hn with
  | returned => trivial
  | recordSource => trivial
  | recordTarget => trivial
  | seeSource => trivial
  | seeTarget => trivial
  | diff _ _ hm => exact hm
  | build hroot => exact ⟨h, r.objects, hroot⟩
  | put hb => exact ⟨h.1, h.2, ⟨_, hb, rfl⟩, fun T hT => nomatch hT⟩
  | advance req d root c =>
      obtain ⟨hdiff, hroot, ⟨b, hb, hreq⟩, hexp⟩ := h
      exact ⟨hdiff, hroot, ⟨b, hb, (AdvanceCall.step_cases L r c).1.trans hreq⟩, hexp.step⟩

lemma Agrees.next {c' : MergeCall} (h : c.Agrees) (hs : c.SteadyAt r) (hn : Next L r c c') :
    c'.Agrees := by
  cases hn with
  | returned => trivial
  | recordSource => trivial
  | recordTarget => trivial
  | seeSource _ hT => exact hs _ hT
  | seeTarget heads sourceHead hT =>
      have hsource : sourceHead = heads.source := h
      rw [Agrees, hsource, hs _ hT]
  | diff _ _ _ => exact h
  | build _ => exact h
  | put _ => exact h
  | advance _ _ _ _ => exact h

lemma Next.base {c' : MergeCall} {b : Repository} (hn : Next L r c c') (hb : c'.base = some b) :
    c.base = some b ∨ r = b := by
  cases hn with
  | returned => cases hb
  | recordSource => cases hb
  | recordTarget => cases hb
  | seeSource => cases hb
  | seeTarget => cases hb
  | diff _ _ _ => exact Or.inr (Option.some.inj hb)
  | build _ => exact Or.inl hb
  | put _ => exact Or.inl hb
  | advance _ _ _ _ => exact Or.inl hb

end MergeCall

/-! ### Merges and advances on one repository -/

/-- A call that has been made. -/
inductive Call where
  | advance (c : AdvanceCall)
  | merge (c : MergeCall)

namespace Call

/-- The next step of a call. -/
def step (L : Linked) (r : Repository) : Call → Call × Repository
  | advance c => (advance (c.step L r).1, (c.step L r).2)
  | merge c => (merge (c.step L r).1, (c.step L r).2)

/-- A call that has just been made. -/
inductive Start : Call → Prop where
  | advance (req : AdvanceRequest) : Start (.advance (.called req))
  | merge (req : MergeRequest) : Start (.merge (.called req))

end Call

/-- A repository and the calls made on it so far. -/
abbrev MergeSystem := Interleave.System Repository Call

namespace MergeSystem

open Transition

/-- A call is made, a call takes its next step, or anything else happens to the repository. -/
abbrev Step (L : Linked) : MergeSystem → Interleave.Action Call → MergeSystem → Prop :=
  Interleave.Step Call.Start (Call.step L) fun _ _ => True

/-- The second reads of a merge find the heads it has recorded. -/
def Steady (s : MergeSystem) (a : Interleave.Action Call) : Prop :=
  ∀ (i : ℕ) c, a = .step i → s.calls[i]? = some (.merge c) → c.SteadyAt s.shared

variable {L : Linked} {s t s₀ : MergeSystem} {a : Interleave.Action Call}
  {steps : List (MergeSystem × Interleave.Action Call)}

/-- A merge after a step is one that was there, or one that was just made, or the next stage of
the one that took the step. -/
lemma merge_of_step {c : MergeCall} (h : Step L s a t) (hc : .merge c ∈ t.calls) :
    .merge c ∈ s.calls ∨ (∃ req, c = .called req) ∨
      ∃ (i : ℕ) (c₀ : MergeCall), a = .step i ∧ s.calls[i]? = some (.merge c₀) ∧
        c = (c₀.step L s.shared).1 := by
  cases h with
  | call hstart =>
      rcases List.mem_append.mp hc with hc | hc
      · exact Or.inl hc
      · rw [← List.mem_singleton.mp hc] at hstart
        cases hstart with
        | merge req => exact Or.inr (Or.inl ⟨req, rfl⟩)
  | @step i c₀ hi =>
      rcases List.mem_or_eq_of_mem_set hc with hc | hc
      · exact Or.inl hc
      · cases c₀ with
        | advance c₀ => cases hc
        | merge c₀ =>
            cases hc
            exact Or.inr (Or.inr ⟨i, c₀, rfl, hi, rfl⟩)
  | env _ => exact Or.inl hc

/-- **Whatever happens in between**, a merge has built its tree from the heads it has seen. -/
lemma run_sound (h₀ : s₀.calls = []) (h : Run (Step L) s₀ steps t) {c : MergeCall}
    (hc : .merge c ∈ t.calls) : c.Sound L := by
  refine h.invariant (fun u => ∀ c, .merge c ∈ u.calls → c.Sound L) (fun _ _ => True) ?_
    (fun _ _ => trivial) (by simp [h₀]) c hc
  intro u a v hu _ huv c hc
  rcases merge_of_step huv hc with hold | ⟨req, rfl⟩ | ⟨i, c₀, -, hi, rfl⟩
  · exact hu c hold
  · trivial
  · exact (hu c₀ (List.mem_of_getElem? hi)).next (MergeCall.step_next L _ c₀)

/-- In a steady run a merge has seen the heads it has recorded. -/
lemma run_agrees (h₀ : s₀.calls = []) (h : Run (Step L) s₀ steps t)
    (hsteady : ∀ p ∈ steps, Steady p.1 p.2) {c : MergeCall} (hc : .merge c ∈ t.calls) :
    c.Agrees := by
  refine h.invariant (fun u => ∀ c, .merge c ∈ u.calls → c.Agrees) Steady ?_ hsteady
    (by simp [h₀]) c hc
  intro u a v hu hok huv c hc
  rcases merge_of_step huv hc with hold | ⟨req, rfl⟩ | ⟨i, c₀, ha, hi, rfl⟩
  · exact hu c hold
  · trivial
  · exact (hu c₀ (List.mem_of_getElem? hi)).next (hok i c₀ ha hi) (MergeCall.step_next L _ c₀)

/-- The state a merge has taken its trees from is one of the run. -/
lemma run_base (h : Run (Step L) s steps t) {c : MergeCall} {b : Repository}
    (hc : .merge c ∈ t.calls) (hb : c.base = some b) :
    (∃ c₀, .merge c₀ ∈ s.calls ∧ c₀.base = some b) ∨ ∃ q ∈ steps, q.1.shared = b := by
  induction h with
  | nil s => exact Or.inl ⟨c, hc, hb⟩
  | cons hfirst _ ih =>
      rcases ih hc with ⟨c₁, hc₁, hb₁⟩ | ⟨q, hq, hqb⟩
      · rcases merge_of_step hfirst hc₁ with hold | ⟨req, rfl⟩ | ⟨i, c₀, -, hi, rfl⟩
        · exact Or.inl ⟨c₁, hold, hb₁⟩
        · cases hb₁
        · rcases (MergeCall.step_next L _ c₀).base hb₁ with hb₀ | rfl
          · exact Or.inl ⟨c₀, List.mem_of_getElem? hi, hb₀⟩
          · exact Or.inr ⟨_, List.mem_cons_self, rfl⟩
      · exact Or.inr ⟨q, List.mem_cons_of_mem _ hq, hqb⟩

/-- The tree with the given root is built from the clean merge of the recorded heads over their
common ancestor, in the state the merge has read its trees from. -/
def MergesParents (L : Linked) (req : MergeRequest) (d : Diffed) (root : ObjectId) : Prop :=
  ∃ result s, d.base.mergeTrees L d.heads = .ok result ∧ result.conflicts = [] ∧
    (buildTree L s result.merged req.mtime).1 = .ok root

/-- **A merge snapshot is the merge of its recorded parents.**  In every run in which the second
reads of the merges find the heads of the first, whenever a merge commits: its snapshot records
the two heads as parents, its tree is the clean merge of their trees, and the head it replaces
is its first parent. -/
theorem merge_of_recorded_parents (h₀ : s₀.calls = []) (hrun : Run (Step L) s₀ steps t)
    (hsteady : ∀ p ∈ steps, Steady p.1 p.2) :
    ∀ p ∈ steps, ∀ (i : ℕ) req d root areq timeline, p.2 = .step i →
      p.1.calls[i]? = some (.merge (.advancing req d root (.allowed areq timeline))) →
      (p.1.shared.commitAdvance areq timeline).1 = .ok () →
      (∃ b, L.codec.serialize (.snapshot ⟨root, [d.heads.target, d.heads.source], req.author,
          req.createdAt, req.message⟩) = .ok b ∧ areq.snapshotId = L.fromContent b) ∧
        MergesParents L req d root ∧ (∃ q ∈ steps, q.1.shared = d.base) ∧
        ∃ T, p.1.shared.refs.get req.target = some (.timeline T) ∧ T.head = d.heads.target ∧
          (p.1.shared.commitAdvance areq timeline).2.refs.get req.target =
            some (.timeline { T with head := areq.snapshotId }) := by
  intro p hp i req d root areq timeline hpi hc hok
  obtain ⟨pre, post, u, rfl, hpre, -⟩ := hrun.splitAt hp
  have hmem := List.mem_of_getElem? hc
  obtain ⟨hdiff, ⟨objects, hroot⟩, ⟨b, hb, hreq⟩, hexp⟩ := run_sound h₀ hpre hmem
  have hseen : d.seen = d.heads :=
    run_agrees h₀ hpre (fun q hq => hsteady q (List.mem_append_left _ hq)) hmem
  have hareq : areq = req.advance d.heads (L.fromContent b) := hreq
  refine ⟨⟨b, hb, by rw [hareq]; rfl⟩, ⟨_, objects, hseen ▸ hdiff, rfl, hroot⟩, ?_, ?_⟩
  · rcases run_base hpre hmem rfl with ⟨c₀, hc₀, -⟩ | ⟨q, hq, hqb⟩
    · rw [h₀] at hc₀
      cases hc₀
    · exact ⟨q, List.mem_append_left _ hq, hqb⟩
  · have htarget : areq.name = req.target := by rw [hareq]; rfl
    rcases AdvanceCall.commitAdvance_cases p.1.shared areq timeline with
      ⟨T, hT, hhead, -, hnew, -⟩ | ⟨e, he, -⟩
    · rw [htarget] at hT hnew
      refine ⟨T, hT, hhead.trans (hexp timeline rfl d.heads.target ?_), hnew⟩
      show areq.expectedOld = _
      rw [hareq]
      rfl
    · rw [hok] at he
      cases he

/-! ### A merge on its own -/

/-- The timelines as they are at the start and where the source goes: a file is added, then
replaced; and the snapshots that the merges below store. -/
def mergeObjects : List Object :=
  let file : Object := .blob (ascii "data")
  let empty : Object := .tree ⟨∅⟩
  let first : Object := .tree ⟨(∅ : BTreeMap String TreeEntry).insert "a" ⟨file.refId, .blob⟩⟩
  let second : Object := .tree ⟨(∅ : BTreeMap String TreeEntry).insert "b" ⟨file.refId, .blob⟩⟩
  let base : Object := .snapshot ⟨empty.refId, [], "", 0, "base"⟩
  let one : Object := .snapshot ⟨first.refId, [base.refId], "", 1, "one"⟩
  [file, empty, first, second, base, one, .snapshot ⟨second.refId, [one.refId], "", 1, "two"⟩,
    .snapshot ⟨first.refId, [base.refId, one.refId], "", 2, "merge"⟩,
    .snapshot ⟨second.refId, [base.refId, one.refId], "", 2, "merge"⟩]

/-- The crates with a codec for these objects. -/
def mergeLinked : Linked := .over mergeObjects

def mergeId (i : ℕ) : ObjectId := (mergeObjects.getD i (.blob [])).refId

/-- The source is one step ahead of the target. -/
def mergeRepo : Repository :=
  { Repository.memory with
    objects := .holding mergeLinked (mergeObjects.take 7)
    refs := ⟨((∅ : BTreeMap RefName Ref).insert AdvanceSystem.raceName
      (.timeline ⟨mergeId 4, .fastForwardOnly, 0, "persistent", none⟩)).insert
        Repository.featureName (.timeline ⟨mergeId 5, .fastForwardOnly, 0, "persistent", none⟩)⟩ }

/-- The merge of one into the other. -/
def mergeRequest : MergeRequest :=
  .ofCommand Repository.featureName AdvanceSystem.raceName "" 2 "merge" AdvanceSystem.raceWriter
    none

/-- What a merge that is about to commit has in hand. -/
def committing : Call → Option (MergeRequest × Diffed × ObjectId × AdvanceRequest × Timeline)
  | .merge (.advancing req d root (.allowed areq timeline)) => some (req, d, root, areq, timeline)
  | _ => none

lemma committing_eq_some {c : Call}
    {x : MergeRequest × Diffed × ObjectId × AdvanceRequest × Timeline}
    (h : committing c = some x) :
    c = .merge (.advancing x.1 x.2.1 x.2.2.1 (.allowed x.2.2.2.1 x.2.2.2.2)) := by
  rw [committing.eq_def] at h
  split at h
  · cases h
    rfl
  · cases h

/-- Whether the second read of a merge would find the recorded head. -/
def isSteady (r : Repository) : Call → Bool
  | .merge (.recorded req heads) =>
      decide ((r.refs.get req.source).map Ref.target = some heads.source)
  | .merge (.sourceSeen req heads _) =>
      decide ((r.refs.get req.target).map Ref.target = some heads.target)
  | _ => true

lemma steadyAt_of_isSteady {r : Repository} {c : MergeCall} (h : isSteady r (.merge c) = true) :
    c.SteadyAt r := by
  cases c with
  | recorded req heads =>
      intro T hT
      simpa [isSteady, hT, Ref.target] using h
  | sourceSeen req heads sourceHead =>
      intro T hT
      simpa [isSteady, hT, Ref.target] using h
  | _ => trivial

def soloStart : MergeSystem := ⟨mergeRepo, [.merge (.called mergeRequest)]⟩

/-- The state after `k` steps of the merge. -/
def soloState (k : ℕ) : MergeSystem := Interleave.solo (Call.step mergeLinked) 0 soloStart k

/-- The run that consists of it. -/
def soloSteps : List (MergeSystem × Interleave.Action Call) :=
  (⟨mergeRepo, []⟩, .call (.merge (.called mergeRequest))) ::
    (List.range 13).map fun k => (soloState k, .step 0)

lemma solo_run : Run (Step mergeLinked) ⟨mergeRepo, []⟩ soloSteps (soloState 13) :=
  .cons (.call (.merge mergeRequest)) (Interleave.run_solo (by simp) 13)

lemma solo_steady :
    ∀ k < 13, (soloState k).calls[0]?.all (isSteady (soloState k).shared) = true := by
  decide +kernel

lemma soloSteps_steady : ∀ p ∈ soloSteps, Steady p.1 p.2 := by
  intro p hp i c hpi hc
  rcases List.mem_cons.mp hp with rfl | hp
  · cases hpi
  · obtain ⟨k, hk, rfl⟩ := List.mem_map.mp hp
    cases hpi
    have hsteady := solo_steady k (List.mem_range.mp hk)
    rw [show (soloState k).calls[0]? = some (.merge c) from hc] at hsteady
    exact steadyAt_of_isSteady hsteady

/-- What the merge is about to commit, and what comes of it. -/
lemma solo_commit : ((soloState 12).calls[0]?.bind committing).map (fun x =>
      (x.2.1.heads, x.2.2.1, ((soloState 12).shared.commitAdvance x.2.2.2.1 x.2.2.2.2).1)) =
    some (⟨mergeId 5, mergeId 4⟩, mergeId 2, .ok ()) := by
  decide +kernel

/-- On its own the merge commits, and its tree is the merge of its parents. -/
theorem merge_of_recorded_parents_solo :
    ∃ req d root areq timeline, (soloState 12).calls[0]? =
        some (.merge (.advancing req d root (.allowed areq timeline))) ∧
      ((soloState 12).shared.commitAdvance areq timeline).1 = .ok () ∧
      d.heads = ⟨mergeId 5, mergeId 4⟩ ∧ MergesParents mergeLinked req d root := by
  obtain ⟨x, hx, hval⟩ := Option.map_eq_some_iff.mp solo_commit
  obtain ⟨c, hc, hcommit⟩ := Option.bind_eq_some_iff.mp hx
  obtain rfl := committing_eq_some hcommit
  simp only [Prod.mk.injEq] at hval
  obtain ⟨hheads, -, hok⟩ := hval
  have hlast : (soloState 12, .step 0) ∈ soloSteps :=
    List.mem_cons_of_mem _ (List.mem_map.mpr ⟨12, by simp, rfl⟩)
  obtain ⟨-, hmerges, -⟩ := merge_of_recorded_parents rfl solo_run soloSteps_steady
    (soloState 12, .step 0) hlast 0 x.1 x.2.1 x.2.2.1 x.2.2.2.1 x.2.2.2.2 rfl hc hok
  exact ⟨_, _, _, _, _, hc, hok, hheads, hmerges⟩

/-! ### A source that moves between the two reads -/

/-- The merge has been asked for, and an advance of its source. -/
def staleStart : MergeSystem :=
  ⟨mergeRepo, [.merge (.called mergeRequest),
    .advance (.called ⟨Repository.featureName, mergeId 6, none, AdvanceSystem.raceWriter⟩)]⟩

/-- The merge records its parents, the source is advanced, the merge goes on. -/
def staleTurns : List ℕ := [0, 0, 1, 1, 1, 1, 1, 1, 0, 0, 0, 0, 0, 0, 0, 0, 0, 0]

/-- The merge is about to commit. -/
def staleState : MergeSystem :=
  staleTurns.foldl (Interleave.turn (Call.step mergeLinked)) staleStart

lemma stale_run : ∃ steps, Run (Step mergeLinked) ⟨mergeRepo, []⟩ steps staleState := by
  obtain ⟨steps, hrun⟩ : ∃ steps, Run (Step mergeLinked) staleStart steps staleState :=
    Interleave.run_turns staleTurns staleStart
  exact ⟨_, .cons (.call (.merge mergeRequest)) (.cons (.call (.advance _)) hrun)⟩

/-- It has recorded one head of the source and built its tree from the next. -/
lemma stale_commit : (staleState.calls[0]?.bind committing).map (fun x =>
      (x.2.1.heads, x.2.2.1, (staleState.shared.commitAdvance x.2.2.2.1 x.2.2.2.2).1,
        x.1.mtime)) = some (⟨mergeId 5, mergeId 4⟩, mergeId 3, .ok (), none) := by
  decide +kernel

/-- The tree of the merge of the recorded heads. -/
def parentsRoot (x : MergeRequest × Diffed × ObjectId × AdvanceRequest × Timeline) :
    Result (Result ObjectId) :=
  (x.2.1.base.mergeTrees mergeLinked x.2.1.heads).map fun result =>
    (buildTree mergeLinked ⟨.memory ∅⟩ result.merged none).1

lemma stale_parents : (staleState.calls[0]?.bind committing).map parentsRoot =
    some (.ok (.ok (mergeId 2))) := by
  decide +kernel

lemma mergeId_ne : mergeId 2 ≠ mergeId 3 := by decide +kernel

/-- **A merge of other heads than its parents.**  The source is advanced after the merge has
recorded its head and before `merge_timelines` reads it again: the merge commits, and its tree
is not the merge of its recorded parents. -/
theorem merge_of_other_heads :
    ∃ steps, Run (Step mergeLinked) ⟨mergeRepo, []⟩ steps staleState ∧
      ∃ req d root areq timeline, staleState.calls[0]? =
          some (.merge (.advancing req d root (.allowed areq timeline))) ∧
        (staleState.shared.commitAdvance areq timeline).1 = .ok () ∧
        ¬ MergesParents mergeLinked req d root := by
  obtain ⟨steps, hrun⟩ := stale_run
  obtain ⟨x, hx, hval⟩ := Option.map_eq_some_iff.mp stale_commit
  obtain ⟨c, hc, hcommit⟩ := Option.bind_eq_some_iff.mp hx
  obtain rfl := committing_eq_some hcommit
  simp only [Prod.mk.injEq] at hval
  obtain ⟨-, hroot, hok, hmtime⟩ := hval
  have hparents : parentsRoot x = .ok (.ok (mergeId 2)) := by
    have hall := stale_parents
    rw [hx] at hall
    exact Option.some.inj hall
  refine ⟨steps, hrun, x.1, x.2.1, x.2.2.1, x.2.2.2.1, x.2.2.2.2, hc, hok, ?_⟩
  rintro ⟨result, objects, hresult, -, hbuild⟩
  rw [parentsRoot, hresult] at hparents
  have hother : (buildTree mergeLinked ⟨.memory ∅⟩ result.merged none).1 = .ok (mergeId 2) :=
    Except.ok.inj hparents
  rw [hmtime, hroot] at hbuild
  exact mergeId_ne (buildTree_root hother hbuild)

end MergeSystem

end Bole
