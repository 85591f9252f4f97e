import Bole.Lib.Interleave
import Bole.Repo.Policy
import Bole.Repo.Walk

/-!
Advancing a timeline: `advance_timeline_expecting` of `src/repo/mod.rs`.

The call reads the stores in several places and commits with a compare-and-set on the head it
has read.  Each stretch between two reads of the refs is a function of its own; the call is
their composition on one state, and a call among others takes them one at a time, each on the
state it finds.

* `step_six`: six steps on one state are the call;
* `step_refs`: only the last step of a call touches the refs, and only when it returns `Ok`;
* `advance_never_rewinds`: whatever the interleaving, a protected timeline only moves to
  descendants of where it was.
-/

namespace Bole

/-! ### The stretches of the call -/

/-- What a call that is refused leaves: its error, and the event it hands to the audit
sink. -/
structure Refusal where
  error : Error
  event : Option AuditEvent

/-- A fallible read inside the call; its error is not audited. -/
def Result.attempt {α : Type} (x : Result α) : Except Refusal α := x.mapError fun e => ⟨e, none⟩

lemma Result.attempt_eq_ok {α : Type} {x : Result α} {a : α} :
    x.attempt = .ok a ↔ x = .ok a := by
  cases x <;> simp [Result.attempt, Except.mapError]

/-- The arguments of `advance_timeline_expecting`. -/
structure AdvanceRequest where
  name : RefName
  snapshotId : ObjectId
  expectedOld : Option ObjectId
  accessor : Accessor

/-- What the first stretch has found. -/
structure Prepared where
  lattice : LabelLattice
  rules : LabelRuleSet
  auditOld : Option ObjectId
  paths : BTreeMap String ObjectId

namespace AdvanceRequest

/-- `audit_advance`: there is an event only where there is an old head. -/
def auditAdvance (req : AdvanceRequest) (oldHead : Option ObjectId) (decision : AuditDecision) :
    Option AuditEvent :=
  oldHead.map fun old => ⟨req.name.asStr, req.accessor.actor, old, req.snapshotId, decision⟩

/-- An audited `AccessDenied`. -/
def accessDenied (req : AdvanceRequest) (oldHead : Option ObjectId) (reason : String) : Refusal :=
  ⟨.accessDenied reason, req.auditAdvance oldHead (.denied reason)⟩

/-- The check on the timeline's label. -/
def mayWriteTimeline (req : AdvanceRequest) (lattice : LabelLattice) (rules : LabelRuleSet) :
    Bool :=
  req.accessor.canWrite (rules.labelForTimeline lattice req.name.asStr)
    ⟨.timeline, req.name.asStr⟩

/-- The first of the paths that the accessor may not write. -/
def deniedPath (req : AdvanceRequest) (lattice : LabelLattice) (rules : LabelRuleSet)
    (paths : List String) : Option String :=
  paths.find? fun path => !req.accessor.canWrite (rules.labelForPath lattice path) ⟨.path, path⟩

end AdvanceRequest

/-- The snapshot stored under an id; any other object is none. -/
def ObjectStore.getSnapshot (L : Linked) (s : ObjectStore) (id : ObjectId) :
    Result (Option Snapshot) :=
  match s.get L id with
  | .error e => .error e
  | .ok (some (.snapshot sn)) => .ok (some sn)
  | .ok _ => .ok none

lemma getSnapshot_eq_some {L : Linked} {s : ObjectStore} {id : ObjectId} {snap : Snapshot} :
    s.getSnapshot L id = .ok (some snap) ↔ s.get L id = .ok (some (.snapshot snap)) := by
  rw [ObjectStore.getSnapshot]
  split
  · next e he => simp [he]
  · next sn hsn => simp [hsn]
  · next o hno ho =>
      constructor
      · intro h
        cases h
      · intro h
        rw [ho] at h
        exact absurd h (by simpa using hno snap)

lemma ObjectStore.getSnapshot_eq_none {L : Linked} {s : ObjectStore} {id : ObjectId}
    {o : Option Object} (hget : s.get L id = .ok o)
    (hother : ∀ snap, o ≠ some (.snapshot snap)) : s.getSnapshot L id = .ok none := by
  rw [getSnapshot, hget]
  cases o with
  | none => rfl
  | some obj =>
      cases obj with
      | snapshot snap => exact absurd rfl (hother snap)
      | _ => rfl

lemma ObjectStore.getSnapshot_of_get {L : Linked} {s : ObjectStore} {id : ObjectId}
    (h : ∃ o, s.get L id = .ok o) : ∃ snap, s.getSnapshot L id = .ok snap := by
  obtain ⟨o, ho⟩ := h
  rw [getSnapshot, ho]
  cases o with
  | none => exact ⟨none, rfl⟩
  | some obj => cases obj <;> exact ⟨_, rfl⟩

namespace Repository

/-- `tree_as_map`. -/
def treeAsMap (L : Linked) (r : Repository) (treeId : ObjectId) :
    Result (BTreeMap String ObjectId) := do
  let lattice ← r.acls.getLattice
  let rules ← r.acls.getLabelRuleset
  walkTreeFiltered L r.objects lattice rules treeId "" .privileged ∅

/-- From the start to the check of every path of the new tree. -/
def prepare (L : Linked) (r : Repository) (req : AdvanceRequest) : Except Refusal Prepared := do
  let lattice ← r.acls.getLattice.attempt
  let rules ← r.acls.getLabelRuleset.attempt
  let current ← (r.refs.getTimeline req.name).attempt
  let auditOld := current.map Timeline.head
  if !req.mayWriteTimeline lattice rules then
    .error (req.accessDenied auditOld ("write denied on timeline: " ++ req.name.asStr))
  else
    match ← (r.objects.getSnapshot L req.snapshotId).attempt with
    | none => .error ⟨.storage ("snapshot not found: " ++ req.snapshotId.toHex), none⟩
    | some snap => do
        let paths ←
          (walkTreeFiltered L r.objects lattice rules snap.root "" .privileged ∅).attempt
        match req.deniedPath lattice rules paths.keys with
        | some path => .error (req.accessDenied auditOld ("write denied on path: " ++ path))
        | none => .ok ⟨lattice, rules, auditOld, paths⟩

/-- The read the commit is bound to, with the caller's own expectation. -/
def readTimeline (r : Repository) (req : AdvanceRequest) : Except Refusal Timeline := do
  match ← (r.refs.getTimeline req.name).attempt with
  | none => .error ⟨.storage ("timeline not found: " ++ req.name.asStr), none⟩
  | some timeline =>
      match req.expectedOld with
      | none => .ok timeline
      | some expected =>
          if timeline.head ≠ expected then
            .error ⟨.transactionConflict ("timeline '" ++ req.name.asStr ++
              "' moved from the expected head (merge is stale); retry"), none⟩
          else .ok timeline

/-- The paths of the replaced head. -/
def oldPaths (L : Linked) (r : Repository) (head : ObjectId) :
    Result (BTreeMap String ObjectId) := do
  match ← r.objects.getSnapshot L head with
  | some snap => r.treeAsMap L snap.root
  | none => .ok ∅

/-- The check of every path that the new tree removes. -/
def checkRemoved (L : Linked) (r : Repository) (req : AdvanceRequest) (p : Prepared)
    (timeline : Timeline) : Except Refusal Unit := do
  let old ← (r.oldPaths L timeline.head).attempt
  match req.deniedPath p.lattice p.rules (old.keys.filter fun path => !p.paths.contains path) with
  | some path =>
      .error (req.accessDenied p.auditOld ("write denied on removed path: " ++ path))
  | none => .ok ()

/-- What the hooks are asked. -/
def advanceContext (r : Repository) (req : AdvanceRequest) (oldHead : ObjectId) :
    PolicyContext :=
  ⟨.advance req.name oldHead req.snapshotId, req.accessor, r.objects, r.refs, 0⟩

/-- The verdict of the hooks. -/
def checkPolicy (L : Linked) (r : Repository) (req : AdvanceRequest) (registry : PolicyRegistry)
    (timeline : Timeline) : Except Refusal Unit :=
  match registry.evaluate L (r.advanceContext req timeline.head) with
  | .allow => .ok ()
  | .deny reason =>
      .error ⟨.policyViolation reason, req.auditAdvance (some timeline.head) (.denied reason)⟩
  | .requiresApproval reason needed =>
      .error ⟨.approvalRequired reason needed,
        req.auditAdvance (some timeline.head) (.approvalRequired needed reason)⟩

/-- The commit: a compare-and-set on the head that was read. -/
def commitAdvance (r : Repository) (req : AdvanceRequest) (timeline : Timeline) :
    Result Unit × Repository :=
  match r.refs.commit [.advanceHeadIf req.name timeline.head req.snapshotId] with
  | (.error e, refs) => (.error e, { r with refs := refs })
  | (.ok (), refs) =>
      (.ok (), { r with refs := refs }.record (req.auditAdvance (some timeline.head) .allowed))

/-- Everything before the commit. -/
def checkAdvance (L : Linked) (r : Repository) (req : AdvanceRequest) :
    Except Refusal Timeline := do
  let p ← r.prepare L req
  let timeline ← r.readTimeline req
  r.checkRemoved L req p timeline
  let registry ← (r.policyRegistry L).attempt
  r.checkPolicy L req registry timeline
  .ok timeline

/-- `advance_timeline_expecting`. -/
def advanceTimelineExpecting (L : Linked) (r : Repository) (req : AdvanceRequest) :
    Result Unit × Repository :=
  match r.checkAdvance L req with
  | .error refusal => (.error refusal.error, r.record refusal.event)
  | .ok timeline => r.commitAdvance req timeline

/-- `advance_timeline`. -/
def advanceTimeline (L : Linked) (r : Repository) (name : RefName) (snapshotId : ObjectId)
    (accessor : Accessor) : Result Unit × Repository :=
  r.advanceTimelineExpecting L ⟨name, snapshotId, none, accessor⟩

/-- **A commit is only reached** where the built-in hook has found the timeline, and a
descendant of the head that was read if the timeline is protected. -/
lemma checkPolicy_ok {L : Linked} {r : Repository} {req : AdvanceRequest}
    {registry : PolicyRegistry} {timeline : Timeline}
    (hreg : PolicyHook.timelinePolicy ∈ registry.hooks)
    (h : r.checkPolicy L req registry timeline = .ok ()) :
    ∃ T, r.refs.get req.name = some (.timeline T) ∧
      (T.policy = .unrestricted ∨ Descends L r.objects req.snapshotId timeline.head) := by
  rw [checkPolicy] at h
  split at h
  · next hallow =>
      exact PolicyHook.timelinePolicy_allow rfl
        (PolicyRegistry.evaluate_eq_allow.mp hallow _ hreg)
  · cases h
  · cases h

/-! ### When a call is allowed -/

variable {L : Linked} {r : Repository} {req : AdvanceRequest}

lemma deniedPath_eq_none {lattice : LabelLattice} {rules : LabelRuleSet} {paths : List String} :
    req.deniedPath lattice rules paths = none ↔ ∀ path ∈ paths,
      req.accessor.canWrite (rules.labelForPath lattice path) ⟨.path, path⟩ = true := by
  simp [AdvanceRequest.deniedPath]

/-- What the first stretch checks. -/
lemma prepare_eq_ok {p : Prepared} : r.prepare L req = .ok p ↔
    r.acls.getLattice = .ok p.lattice ∧ r.acls.getLabelRuleset = .ok p.rules ∧
      (∃ current, r.refs.getTimeline req.name = .ok current ∧
        current.map Timeline.head = p.auditOld) ∧
      req.mayWriteTimeline p.lattice p.rules = true ∧
      ∃ snap, r.objects.getSnapshot L req.snapshotId = .ok (some snap) ∧
        walkTreeFiltered L r.objects p.lattice p.rules snap.root "" .privileged ∅ = .ok p.paths ∧
        ∀ path ∈ p.paths,
          req.accessor.canWrite (p.rules.labelForPath p.lattice path) ⟨.path, path⟩ = true := by
  obtain ⟨lattice, rules, auditOld, paths⟩ := p
  simp only [prepare, Result.bind_eq_ok, Result.attempt_eq_ok]
  constructor
  · rintro ⟨lattice', hlat, rules', hrules, current, hcur, h⟩
    split_ifs at h with hw
    rw [Result.bind_eq_ok] at h
    obtain ⟨snap, hsnap, h⟩ := h
    cases snap with
    | none => cases h
    | some snap =>
      simp only [Result.bind_eq_ok, Result.attempt_eq_ok] at h
      obtain ⟨paths', hwalk, h⟩ := h
      split at h
      · cases h
      · next hden =>
          cases h
          refine ⟨hlat, hrules, ⟨current, hcur, rfl⟩, by simpa using hw, snap,
            Result.attempt_eq_ok.mp hsnap, hwalk, fun path hp => ?_⟩
          exact deniedPath_eq_none.mp hden path (Std.ExtTreeMap.mem_keys.mpr hp)
  · rintro ⟨hlat, hrules, ⟨current, hcur, haudit⟩, hw, snap, hsnap, hwalk, hpaths⟩
    refine ⟨lattice, hlat, rules, hrules, current, hcur, ?_⟩
    have hden : req.deniedPath lattice rules paths.keys = none :=
      deniedPath_eq_none.mpr fun path hp => hpaths path (Std.ExtTreeMap.mem_keys.mp hp)
    simp only [hw, Bool.not_true, Bool.false_eq_true, if_false, Result.bind_eq_ok]
    refine ⟨some snap, Result.attempt_eq_ok.mpr hsnap, ?_⟩
    simp only [Result.bind_eq_ok, Result.attempt_eq_ok]
    exact ⟨paths, hwalk, by rw [hden, haudit]⟩

/-- What the check of the removed paths checks. -/
lemma checkRemoved_eq_ok {p : Prepared} {timeline : Timeline} :
    r.checkRemoved L req p timeline = .ok () ↔
      ∃ old, r.oldPaths L timeline.head = .ok old ∧ ∀ path ∈ old, path ∉ p.paths →
        req.accessor.canWrite (p.rules.labelForPath p.lattice path) ⟨.path, path⟩ = true := by
  simp only [checkRemoved, Result.bind_eq_ok, Result.attempt_eq_ok]
  refine exists_congr fun old => and_congr_right fun _ => ?_
  have hkeys : req.deniedPath p.lattice p.rules
        (old.keys.filter fun path => !p.paths.contains path) = none ↔
      ∀ path ∈ old, path ∉ p.paths →
        req.accessor.canWrite (p.rules.labelForPath p.lattice path) ⟨.path, path⟩ = true := by
    simp only [deniedPath_eq_none, List.mem_filter, Std.ExtTreeMap.mem_keys, and_imp,
      Bool.not_eq_true', ← Bool.not_eq_true, Std.ExtTreeMap.contains_iff_mem]
  rw [← hkeys]
  cases req.deniedPath p.lattice p.rules (old.keys.filter fun path => !p.paths.contains path) <;>
    simp

lemma checkPolicy_eq_ok {registry : PolicyRegistry} {timeline : Timeline} :
    r.checkPolicy L req registry timeline = .ok () ↔
      registry.evaluate L (r.advanceContext req timeline.head) = .allow := by
  rw [checkPolicy]
  cases registry.evaluate L (r.advanceContext req timeline.head) <;> simp

lemma readTimeline_eq_ok {timeline : Timeline} : r.readTimeline req = .ok timeline ↔
    r.refs.get req.name = some (.timeline timeline) ∧
      ∀ expected, req.expectedOld = some expected → timeline.head = expected := by
  simp only [readTimeline, Result.bind_eq_ok, Result.attempt_eq_ok]
  constructor
  · rintro ⟨current, hcur, h⟩
    cases current with
    | none => cases h
    | some t =>
      cases he : req.expectedOld with
      | none =>
          obtain rfl : t = timeline := by simpa [he] using h
          exact ⟨RefStore.getTimeline_eq_some.mp hcur, by simp⟩
      | some expected =>
          simp only [he] at h
          split_ifs at h with hne
          obtain rfl : t = timeline := by simpa using h
          exact ⟨RefStore.getTimeline_eq_some.mp hcur, by simpa using hne⟩
  · rintro ⟨hget, hexp⟩
    refine ⟨some timeline, RefStore.getTimeline_eq_some.mpr hget, ?_⟩
    cases he : req.expectedOld with
    | none => rfl
    | some expected => simp [hexp expected he]

/-- **A call on its own is allowed exactly when its checks pass**: its commit finds the head it
has read. -/
lemma advanceTimelineExpecting_ok_iff : (r.advanceTimelineExpecting L req).1 = .ok () ↔
    ∃ p timeline registry, r.prepare L req = .ok p ∧ r.readTimeline req = .ok timeline ∧
      r.checkRemoved L req p timeline = .ok () ∧ r.policyRegistry L = .ok registry ∧
      r.checkPolicy L req registry timeline = .ok () := by
  have hcheck : (r.advanceTimelineExpecting L req).1 = .ok () ↔
      ∃ timeline, r.checkAdvance L req = .ok timeline := by
    rw [advanceTimelineExpecting]
    cases hc : r.checkAdvance L req with
    | error refusal => simp
    | ok timeline =>
        refine iff_of_true ?_ ⟨timeline, rfl⟩
        simp only [checkAdvance, Result.bind_eq_ok] at hc
        obtain ⟨p, -, t, ht, -, -, registry, -, -, -, h⟩ := hc
        cases h
        have hcommit := RefStore.commit_advanceHeadIf_of_get (readTimeline_eq_ok.mp ht).1
          req.snapshotId
        dsimp only
        rw [commitAdvance]
        generalize r.refs.commit [.advanceHeadIf req.name timeline.head req.snapshotId] = c
          at hcommit
        obtain ⟨result, refs⟩ := c
        obtain rfl : result = .ok () := hcommit
        rfl
  rw [hcheck]
  simp only [checkAdvance, Result.bind_eq_ok, Result.attempt_eq_ok]
  constructor
  · rintro ⟨timeline, p, hp, t, ht, u, hrem, registry, hreg, v, hpol, h⟩
    exact ⟨p, t, registry, hp, ht, hrem, hreg, hpol⟩
  · rintro ⟨p, t, registry, hp, ht, hrem, hreg, hpol⟩
    exact ⟨t, p, hp, t, ht, (), hrem, registry, hreg, (), hpol, rfl⟩

end Repository

/-! ### A call among others -/

/-- How far a call has come. -/
inductive AdvanceCall where
  | called (req : AdvanceRequest)
  | prepared (req : AdvanceRequest) (p : Prepared)
  | read (req : AdvanceRequest) (p : Prepared) (timeline : Timeline)
  | cleared (req : AdvanceRequest) (timeline : Timeline)
  | bound (req : AdvanceRequest) (timeline : Timeline) (registry : PolicyRegistry)
  | allowed (req : AdvanceRequest) (timeline : Timeline)
  | returned (req : AdvanceRequest) (result : Result Unit)

namespace AdvanceCall

/-- A stretch that succeeds hands on what it has found, one that fails returns. -/
def proceed {α : Type} (r : Repository) (req : AdvanceRequest) (x : Except Refusal α)
    (next : α → AdvanceCall) : AdvanceCall × Repository :=
  match x with
  | .error refusal => (.returned req (.error refusal.error), r.record refusal.event)
  | .ok a => (next a, r)

/-- The next stretch of a call, on the state it finds. -/
def step (L : Linked) (r : Repository) : AdvanceCall → AdvanceCall × Repository
  | called req => proceed r req (r.prepare L req) (prepared req)
  | prepared req p => proceed r req (r.readTimeline req) (read req p)
  | read req p timeline =>
      proceed r req (r.checkRemoved L req p timeline) fun _ => cleared req timeline
  | cleared req timeline => proceed r req (r.policyRegistry L).attempt (bound req timeline)
  | bound req timeline registry =>
      proceed r req (r.checkPolicy L req registry timeline) fun _ => allowed req timeline
  | allowed req timeline =>
      (returned req (r.commitAdvance req timeline).1, (r.commitAdvance req timeline).2)
  | returned req result => (returned req result, r)

/-- **Six steps on one state are the call.** -/
lemma step_six (L : Linked) (r : Repository) (req : AdvanceRequest) :
    (fun s : AdvanceCall × Repository => step L s.2 s.1)^[6] (called req, r) =
      (returned req (r.advanceTimelineExpecting L req).1,
        (r.advanceTimelineExpecting L req).2) := by
  simp only [Function.iterate_succ, Function.iterate_zero, Function.comp_apply, id]
  rw [Repository.advanceTimelineExpecting, Repository.checkAdvance]
  cases h1 : r.prepare L req with
  | error e => simp [step, proceed, h1, bind, Except.bind]
  | ok p =>
    cases h2 : r.readTimeline req with
    | error e => simp [step, proceed, h1, h2, bind, Except.bind]
    | ok timeline =>
      cases h3 : r.checkRemoved L req p timeline with
      | error e => simp [step, proceed, h1, h2, h3, bind, Except.bind]
      | ok _ =>
        cases h4 : (r.policyRegistry L).attempt with
        | error e => simp [step, proceed, h1, h2, h3, h4, bind, Except.bind]
        | ok registry =>
          cases h5 : r.checkPolicy L req registry timeline with
          | error e => simp [step, proceed, h1, h2, h3, h4, h5, bind, Except.bind]
          | ok _ => simp [step, proceed, h1, h2, h3, h4, h5, bind, Except.bind]

/-! ### What a step does -/

variable {L : Linked} {r : Repository}

@[simp] lemma record_refs (r : Repository) (event : Option AuditEvent) :
    (r.record event).refs = r.refs := by
  unfold Repository.record
  split <;> rfl

@[simp] lemma record_objects (r : Repository) (event : Option AuditEvent) :
    (r.record event).objects = r.objects := by
  unfold Repository.record
  split <;> rfl

@[simp] lemma proceed_refs {α : Type} (req : AdvanceRequest) (x : Except Refusal α)
    (next : α → AdvanceCall) : (proceed r req x next).2.refs = r.refs := by
  cases x <;> simp [proceed]

@[simp] lemma proceed_objects {α : Type} (req : AdvanceRequest) (x : Except Refusal α)
    (next : α → AdvanceCall) : (proceed r req x next).2.objects = r.objects := by
  cases x <;> simp [proceed]

/-- A stretch before the commit hands on or returns an error. -/
lemma proceed_cases {α : Type} (r : Repository) (req : AdvanceRequest) (x : Except Refusal α)
    (next : α → AdvanceCall) :
    (∃ e, (proceed r req x next).1 = returned req (.error e)) ∨
      ∃ a, x = .ok a ∧ (proceed r req x next).1 = next a := by
  cases x with
  | error refusal => exact Or.inl ⟨refusal.error, rfl⟩
  | ok a => exact Or.inr ⟨a, rfl, rfl⟩

/-- **The commit**: it returns `Ok` when the head is still the one that was read, and then the
head is the new one; otherwise no ref changes. -/
lemma commitAdvance_cases (r : Repository) (req : AdvanceRequest) (timeline : Timeline) :
    (∃ T, r.refs.get req.name = some (.timeline T) ∧ T.head = timeline.head ∧
        (r.commitAdvance req timeline).1 = .ok () ∧
        (r.commitAdvance req timeline).2.refs.get req.name =
          some (.timeline { T with head := req.snapshotId }) ∧
        ∀ k, k ≠ req.name → (r.commitAdvance req timeline).2.refs.get k = r.refs.get k) ∨
      ∃ e, (r.commitAdvance req timeline).1 = .error e ∧
        (r.commitAdvance req timeline).2.refs = r.refs := by
  rw [Repository.commitAdvance]
  cases hc : r.refs.commit [.advanceHeadIf req.name timeline.head req.snapshotId] with
  | mk result refs =>
      cases result with
      | error e => exact Or.inr ⟨e, rfl, RefStore.commit_error hc⟩
      | ok u =>
          obtain ⟨T, hT, hhead, hnew, hrest⟩ := RefStore.commit_advanceHeadIf hc
          refine Or.inl ⟨T, hT, hhead, rfl, ?_, fun k hk => ?_⟩
          · simpa using hnew
          · simpa using hrest k hk

lemma commitAdvance_objects (r : Repository) (req : AdvanceRequest) (timeline : Timeline) :
    (r.commitAdvance req timeline).2.objects = r.objects := by
  rw [Repository.commitAdvance]
  split <;> simp

/-- No step of a call touches the objects. -/
@[simp] lemma step_objects (L : Linked) (r : Repository) (c : AdvanceCall) :
    (c.step L r).2.objects = r.objects := by
  cases c <;> simp [step, commitAdvance_objects]

/-- **Only the commit touches the refs, and only when it returns `Ok`.** -/
lemma step_refs (L : Linked) (r : Repository) (c : AdvanceCall) :
    (c.step L r).2.refs = r.refs ∨
      ∃ req timeline, c = allowed req timeline ∧ (c.step L r).1 = returned req (.ok ()) := by
  cases c with
  | allowed req timeline =>
      rcases commitAdvance_cases r req timeline with ⟨T, -, -, hok, -⟩ | ⟨e, -, hrefs⟩
      · exact Or.inr ⟨req, timeline, rfl, by rw [step, hok]⟩
      · exact Or.inl hrefs
  | _ => simp [step]

end AdvanceCall

/-! ### Any number of calls -/

/-- A repository and the calls made on it so far. -/
abbrev AdvanceSystem := Interleave.System Repository AdvanceCall

namespace AdvanceSystem

/-- What happens besides the calls: objects arrive, a ref is created, the labels or the hooks
are changed. -/
inductive Env (L : Linked) : Repository → Repository → Prop where
  | objects {r : Repository} {objects : ObjectStore} (h : r.objects.Grows L objects) :
      Env L r { r with objects := objects }
  | create (r : Repository) {op : RefOp} (h : op.creates = true) :
      Env L r { r with refs := (r.refs.commit [op]).2 }
  | configure (r : Repository) (acls : AclBackend) (hooks : List HookSpec) :
      Env L r { r with acls := acls, hooks := hooks }

/-- A call that is just being made. -/
def Fresh (c : AdvanceCall) : Prop := ∃ req, c = .called req

/-- One thing happens. -/
def Step (L : Linked) : AdvanceSystem → Interleave.Action AdvanceCall → AdvanceSystem → Prop :=
  Interleave.Step Fresh (AdvanceCall.step L) (Env L)

/-- The second state comes after the first: objects stay, a timeline keeps its policy, and a
protected one is at a descendant of where it was. -/
structure Follows (L : Linked) (r r' : Repository) : Prop where
  grows : r.objects.Grows L r'.objects
  timeline : ∀ n T, r.refs.get n = some (.timeline T) →
    ∃ T', r'.refs.get n = some (.timeline T') ∧ T'.policy = T.policy ∧
      (T.policy ≠ .unrestricted → Descends L r'.objects T'.head T.head)

/-- What a call knows before it commits: the built-in hook has been asked, and has found a
descendant of the head that was read. -/
def Sound (L : Linked) (r : Repository) : AdvanceCall → Prop
  | .bound _ _ registry => .timelinePolicy ∈ registry.hooks
  | .allowed req timeline =>
      ∃ T, r.refs.get req.name = some (.timeline T) ∧
        (T.policy ≠ .unrestricted → Descends L r.objects req.snapshotId timeline.head)
  | _ => True

variable {L : Linked} {r r' r'' : Repository}

lemma Follows.of_refs (hg : r.objects.Grows L r'.objects) (h : r'.refs = r.refs) :
    Follows L r r' where
  grows := hg
  timeline n T hT := ⟨T, by rw [h, hT], rfl, fun _ => .refl⟩

lemma Follows.trans (h : Follows L r r') (h' : Follows L r' r'') : Follows L r r'' where
  grows := h.grows.trans h'.grows
  timeline n T hT := by
    obtain ⟨T', hT', hp', hd'⟩ := h.timeline n T hT
    obtain ⟨T'', hT'', hp'', hd''⟩ := h'.timeline n T' hT'
    refine ⟨T'', hT'', hp''.trans hp', fun hp => ?_⟩
    have hlater : Descends L r''.objects T'.head T.head := (hd' hp).mono h'.grows
    exact (hd'' (by rwa [hp'])).trans hlater

/-- What a call knows lasts. -/
lemma Sound.mono {c : AdvanceCall} (hc : Sound L r c) (h : Follows L r r') : Sound L r' c := by
  cases c with
  | bound req timeline registry => exact hc
  | allowed req timeline =>
      obtain ⟨T, hT, hd⟩ := hc
      obtain ⟨T', hT', hp, -⟩ := h.timeline _ T hT
      exact ⟨T', hT', fun hp' => (hd (by rwa [← hp])).mono h.grows⟩
  | _ => trivial

/-- **One stretch of a call**: the state follows, and the call knows what it needs to. -/
lemma step_follows {c : AdvanceCall} (hc : Sound L r c) :
    Follows L r (c.step L r).2 ∧ Sound L (c.step L r).2 (c.step L r).1 := by
  have hgrows : r.objects.Grows L (c.step L r).2.objects := by
    rw [AdvanceCall.step_objects]
    exact .refl L _
  refine ⟨?_, ?_⟩
  · rcases AdvanceCall.step_refs L r c with hrefs | ⟨req, timeline, rfl, hret⟩
    · exact .of_refs hgrows hrefs
    · refine ⟨hgrows, fun n T hT => ?_⟩
      rcases AdvanceCall.commitAdvance_cases r req timeline with
        ⟨T', hT', hhead, -, hnew, hrest⟩ | ⟨e, -, hrefs⟩
      · by_cases hn : n = req.name
        · obtain rfl : T = T' := by simpa [hn, hT'] using hT.symm
          obtain ⟨T'', hT'', hd⟩ := hc
          obtain rfl : T = T'' := by simpa [hT'] using hT''
          refine ⟨{ T with head := req.snapshotId }, ?_, rfl, fun hp => ?_⟩
          · rw [hn]
            exact hnew
          · rw [hhead, AdvanceCall.step_objects]
            exact hd hp
        · exact ⟨T, (hrest n hn).trans hT, rfl, fun _ => .refl⟩
      · exact ⟨T, by rw [AdvanceCall.step, hrefs, hT], rfl, fun _ => .refl⟩
  · cases c with
    | called req =>
        rcases AdvanceCall.proceed_cases r req (r.prepare L req) (.prepared req) with
          ⟨e, h⟩ | ⟨a, -, h⟩ <;> rw [AdvanceCall.step, h] <;> trivial
    | prepared req p =>
        rcases AdvanceCall.proceed_cases r req (r.readTimeline req) (.read req p) with
          ⟨e, h⟩ | ⟨a, -, h⟩ <;> rw [AdvanceCall.step, h] <;> trivial
    | read req p timeline =>
        rcases AdvanceCall.proceed_cases r req (r.checkRemoved L req p timeline)
          (fun _ => .cleared req timeline) with
          ⟨e, h⟩ | ⟨a, -, h⟩ <;> rw [AdvanceCall.step, h] <;> trivial
    | cleared req timeline =>
        rcases AdvanceCall.proceed_cases r req (r.policyRegistry L).attempt
          (.bound req timeline) with ⟨e, h⟩ | ⟨registry, hreg, h⟩
        · rw [AdvanceCall.step, h]
          trivial
        · rw [AdvanceCall.step, h]
          exact Repository.policyRegistry_mem (Result.attempt_eq_ok.mp hreg)
    | bound req timeline registry =>
        rcases AdvanceCall.proceed_cases r req (r.checkPolicy L req registry timeline)
          (fun _ => .allowed req timeline) with ⟨e, h⟩ | ⟨u, hpol, h⟩
        · rw [AdvanceCall.step, h]
          trivial
        · rw [AdvanceCall.step, h]
          obtain ⟨T, hT, hd⟩ := Repository.checkPolicy_ok hc hpol
          refine ⟨T, by simpa using hT, fun hp => ?_⟩
          simpa using hd.resolve_left hp
    | allowed req timeline => trivial
    | returned req result => trivial

lemma Follows.of_env (h : Env L r r') : Follows L r r' := by
  cases h with
  | objects hg => exact .of_refs hg rfl
  | @create op hop =>
      refine ⟨.refl L _, fun n T hT => ⟨T, ?_, rfl, fun _ => .refl⟩⟩
      cases hc : r.refs.commit [op] with
      | mk result refs =>
          cases result with
          | error e => rw [RefStore.commit_error hc, hT]
          | ok u => exact RefStore.commit_creates hop hc hT
  | configure acls hooks => exact .of_refs (.refl L _) rfl

open Transition

variable {s t : AdvanceSystem}
  {steps pre post : List (AdvanceSystem × Interleave.Action AdvanceCall)}

/-- **A run**: its end follows its beginning. -/
lemma run_follows (hs : ∀ c ∈ s.calls, Sound L s.shared c) (h : Run (Step L) s steps t) :
    Follows L s.shared t.shared ∧ ∀ c ∈ t.calls, Sound L t.shared c := by
  refine Interleave.run_follows (fun _ => .of_refs (.refl L _) rfl) (fun _ _ _ => .trans) ?_
    (fun _ _ => step_follows) (fun _ _ => .of_env) (fun _ _ _ hf hc => hc.mono hf) hs h
  rintro x c ⟨req, rfl⟩
  trivial

/-- No step of a call that ends with an error has touched the refs. -/
lemma run_error {i : ℕ} {req : AdvanceRequest} {e : Error} (h : Run (Step L) s steps t)
    (ht : t.calls[i]? = some (.returned req (.error e)))
    {p : AdvanceSystem × Interleave.Action AdvanceCall} (hp : p ∈ steps) (hpi : p.2 = .step i)
    {c : AdvanceCall} (hc : p.1.calls[i]? = some c) :
    (c.step L p.1.shared).2.refs = p.1.shared.refs := by
  rcases AdvanceCall.step_refs L p.1.shared c with hrefs | ⟨req', timeline, -, hret⟩
  · exact hrefs
  · -- it would have returned `Ok` there, and would still be there
    obtain ⟨pre, post, u, -, hstep, hpost⟩ := h.split hp
    rw [hpi] at hstep
    have hu : u.calls[i]? = some (.returned req' (.ok ())) := by
      rw [hstep.step_inv hc, ← hret]
      exact Interleave.getElem?_set_of_some hc
    have hend := Interleave.run_finished (fun _ => rfl) hu hpost
    rw [hend] at ht
    cases ht

/-- **Local advances never rewind a protected timeline.**  In any interleaving of any number of
calls, between any two points of a run: a protected timeline is at a descendant of where it
was, a commit that returns `Ok` puts the head it was asked for in the place of one it descends
from, and a call that ends with an error has changed no ref. -/
theorem advance_never_rewinds {s₀ : AdvanceSystem} (h₀ : s₀.calls = [])
    (hpre : Run (Step L) s₀ pre s) (hpost : Run (Step L) s post t) :
    (∀ n T, s.shared.refs.get n = some (.timeline T) → T.policy ≠ .unrestricted →
        ∃ T', t.shared.refs.get n = some (.timeline T') ∧ T'.policy = T.policy ∧
          Descends L t.shared.objects T'.head T.head) ∧
      (∀ (i : ℕ) req timeline, s.calls[i]? = some (.allowed req timeline) →
        (s.shared.commitAdvance req timeline).1 = .ok () →
        ∃ T, s.shared.refs.get req.name = some (.timeline T) ∧
          (s.shared.commitAdvance req timeline).2.refs.get req.name =
            some (.timeline { T with head := req.snapshotId }) ∧
          (T.policy ≠ .unrestricted → Descends L s.shared.objects req.snapshotId T.head)) ∧
      ∀ (i : ℕ) req e, t.calls[i]? = some (.returned req (.error e)) →
        ∀ p ∈ post, p.2 = .step i → ∀ c, p.1.calls[i]? = some c →
          (c.step L p.1.shared).2.refs = p.1.shared.refs := by
  obtain ⟨-, hs⟩ := run_follows (by simp [h₀]) hpre
  refine ⟨fun n T hT hp => ?_, fun i req timeline hi hok => ?_, fun i req e ht p hp hpi c hc =>
    run_error hpost ht hp hpi hc⟩
  · obtain ⟨T', hT', hpol, hd⟩ := (run_follows hs hpost).1.timeline n T hT
    exact ⟨T', hT', hpol, hd hp⟩
  · obtain ⟨T', hT', hd⟩ := hs _ (List.mem_of_getElem? hi)
    rcases AdvanceCall.commitAdvance_cases s.shared req timeline with
      ⟨T, hT, hhead, -, hnew, -⟩ | ⟨e, he, -⟩
    · obtain rfl : T = T' := by simpa [hT] using hT'
      exact ⟨T, hT, hnew, fun hp => hhead ▸ hd hp⟩
    · rw [hok] at he
      cases he

/-! ### Two calls that race -/

/-- An empty tree, a snapshot of it and two snapshots that come after that one. -/
def raceObjects : List Object :=
  let tree : Object := .tree ⟨∅⟩
  let base : Object := .snapshot ⟨tree.refId, [], "", 0, "base"⟩
  [tree, base, .snapshot ⟨tree.refId, [base.refId], "", 1, "left"⟩,
    .snapshot ⟨tree.refId, [base.refId], "", 1, "right"⟩]

/-- The crates with a codec for these objects. -/
def raceLinked : Linked := .over raceObjects

def raceId (i : ℕ) : ObjectId := (raceObjects.getD i (.blob [])).refId

def raceName : RefName := ⟨"main", RefName.valid_main⟩

/-- Whoever may write everything. -/
def raceWriter : Accessor := .fromParts .twoPoint ⟨[]⟩ ⟨[⟨.protected_, .readWrite, none⟩], false⟩

/-- A repository with a protected timeline at the first snapshot. -/
def raceRepo : Repository :=
  { Repository.memory with
    objects := .holding raceLinked raceObjects
    refs := ⟨(∅ : BTreeMap RefName Ref).insert raceName
      (.timeline ⟨raceId 1, .fastForwardOnly, 0, "persistent", none⟩)⟩ }

/-- A call to advance it. -/
def raceRequest (i : ℕ) : AdvanceRequest := ⟨raceName, raceId i, none, raceWriter⟩

/-- Both calls have been made. -/
def raceStart : AdvanceSystem :=
  ⟨raceRepo, [.called (raceRequest 2), .called (raceRequest 3)]⟩

lemma race_called :
    ∃ steps, Run (Step raceLinked) ⟨raceRepo, []⟩ steps raceStart :=
  ⟨_, .cons (.call ⟨raceRequest 2, rfl⟩) (.single (.call ⟨raceRequest 3, rfl⟩))⟩

/-- Both check against the first snapshot before either commits. -/
def raceTurns : List ℕ := [0, 0, 0, 0, 0, 1, 1, 1, 1, 1, 0, 1]

def raceEnd : AdvanceSystem :=
  raceTurns.foldl (Interleave.turn (AdvanceCall.step raceLinked)) raceStart

/-- What a call has returned. -/
def outcome : AdvanceCall → Option (Result Unit)
  | .returned _ result => some result
  | _ => none

lemma race_outcome : raceEnd.calls.map outcome = [some (.ok ()), some (.error
      (.transactionConflict "head of 'main' is not the expected value"))] ∧
    (raceEnd.shared.refs.get raceName).map Ref.target = some (raceId 2) := by
  decide +kernel

/-- The first commit goes through, the second finds the head moved, and the timeline is at a
descendant of the first snapshot. -/
theorem advance_never_rewinds_race :
    raceEnd.calls.map outcome = [some (.ok ()), some (.error
        (.transactionConflict "head of 'main' is not the expected value"))] ∧
      ∃ T, raceEnd.shared.refs.get raceName = some (.timeline T) ∧ T.head = raceId 2 ∧
        Descends raceLinked raceEnd.shared.objects T.head (raceId 1) := by
  obtain ⟨pre, hpre⟩ := race_called
  obtain ⟨post, hpost⟩ : ∃ steps, Run (Step raceLinked) raceStart steps raceEnd :=
    Interleave.run_turns raceTurns raceStart
  have hstart : raceStart.shared.refs.get raceName =
      some (.timeline ⟨raceId 1, .fastForwardOnly, 0, "persistent", none⟩) := by decide +kernel
  obtain ⟨T, hT, -, hd⟩ := (advance_never_rewinds rfl hpre hpost).1 raceName _ hstart (by simp)
  have hhead := race_outcome.2
  refine ⟨race_outcome.1, T, hT, ?_, hd⟩
  rw [show raceEnd.shared.refs.get raceName = some (.timeline T) from hT] at hhead
  exact Option.some.inj hhead

end AdvanceSystem

end Bole
