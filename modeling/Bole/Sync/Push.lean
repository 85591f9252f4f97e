import Bole.Repo.Advance
import Bole.Repo.Merge

/-!
Accepting a push: `apply_push_ops` of `src/sync/session.rs`.

Each operation is checked on its own; those that pass are committed in one transaction, which
compares the head an operation expects with the one it finds.

* `accepts_of_ok`: an `Ok` in the answer stands for an accepted operation;
* `get_applyPushOps`: a push changes only refs that the accessor may write;
* `push_allowed_locally_iff`: an accepted advance of an existing timeline is one that
  `advance_timeline` allows exactly when the accessor may write the paths it touches.
-/

namespace Bole

/-! ### The wire types -/

/-- `RefUpdateOp`. -/
structure RefUpdateOp where
  name : RefName
  expectedOld : Option ObjectId
  newHead : ObjectId
deriving DecidableEq

/-- `RefApplyStatus`. -/
inductive RefApplyStatus where
  | ok
  | nonFastForward (serverHead : ObjectId)
  | denied (reason : String)
deriving DecidableEq

/-- `RefStatusEntry`. -/
structure RefStatusEntry where
  name : RefName
  status : RefApplyStatus
deriving DecidableEq

/-- `starts_with`. -/
def RefName.startsWith (n : RefName) (pfx : String) : Bool :=
  pfx.toList.isPrefixOf n.asStr.toList

lemma RefName.startsWith_iff {n : RefName} {pfx : String} :
    n.startsWith pfx = true ↔ pfx.toList <+: n.asStr.toList := by
  rw [startsWith, List.isPrefixOf_iff_prefix]

/-- The operation of the transaction: a conditional advance, or the creation of a timeline
with the safe default policy. -/
def RefUpdateOp.refOp (op : RefUpdateOp) : RefOp :=
  match op.expectedOld with
  | some old => .advanceHeadIf op.name old op.newHead
  | none => .createTimeline op.name op.newHead .fastForwardOnly 0 "persistent" none

lemma RefUpdateOp.name_refOp (op : RefUpdateOp) : op.refOp.name = op.name := by
  rw [refOp]
  cases op.expectedOld <;> rfl

/-! ### The checks -/

/-- What `apply_push_ops` reads before it looks at the operations. -/
structure PushBinding where
  lattice : LabelLattice
  rules : LabelRuleSet
  registry : PolicyRegistry

namespace Repository

def bindPush (L : Linked) (r : Repository) : Result PushBinding := do
  let lattice ← r.acls.getLattice
  let rules ← r.acls.getLabelRuleset
  let registry ← r.policyRegistry L
  .ok ⟨lattice, rules, registry⟩

/-- The checks of one operation up to the fast-forward gate: a refusal, or the timeline the
operation was checked against. -/
def gateOp (L : Linked) (r : Repository) (accessor : Accessor) (b : PushBinding)
    (op : RefUpdateOp) : Result (Except RefApplyStatus (Option Timeline)) :=
  if op.name.startsWith "refs/policy/" || op.name.startsWith "refs/collab/" then
    .ok (.error (.denied "reserved ref namespace"))
  else if !accessor.canWrite (b.rules.labelForTimeline b.lattice op.name.asStr)
      ⟨.timeline, op.name.asStr⟩ then
    .ok (.error (.denied "write denied on timeline"))
  else do
    match ← r.objects.getSnapshot L op.newHead with
    | none => .ok (.error (.denied "new head is not a snapshot"))
    | some _ => do
        if !(← closurePresent L r.objects op.newHead) then
          .ok (.error (.denied "incomplete object closure"))
        else do
          let current ← r.refs.getTimeline op.name
          match op.expectedOld, current with
          | some old, some remote => do
              let ancestor ← findCommonAncestor L r.objects old op.newHead
              if remote.policy ≠ .unrestricted ∧ ancestor ≠ some old then
                .ok (.error (.nonFastForward remote.head))
              else .ok (.ok current)
          | _, _ => .ok (.ok current)

/-- What the hooks are asked about a replicated advance. -/
def pushContext (r : Repository) (accessor : Accessor) (op : RefUpdateOp) (remote : Timeline) :
    PolicyContext :=
  ⟨.advance op.name remote.head op.newHead, accessor, r.objects, r.refs, 0⟩

/-- The verdict of the hooks on an advance of an existing timeline. -/
def policyOp (L : Linked) (r : Repository) (accessor : Accessor) (b : PushBinding)
    (op : RefUpdateOp) (current : Option Timeline) : Option RefApplyStatus :=
  match current with
  | none => none
  | some remote =>
      match b.registry.evaluateReplayable L (r.pushContext accessor op remote) with
      | .allow => none
      | .deny reason => some (.denied reason)
      | .requiresApproval reason _ => some (.denied reason)

/-- The loop over the operations: the refusals, and the operations that passed. -/
def checkOps (L : Linked) (r : Repository) (accessor : Accessor) (b : PushBinding) :
    List RefUpdateOp → Result (List RefStatusEntry × List RefUpdateOp)
  | [] => .ok ([], [])
  | op :: rest => do
      match ← r.gateOp L accessor b op with
      | .error status => do
          let (results, accepted) ← checkOps L r accessor b rest
          .ok (⟨op.name, status⟩ :: results, accepted)
      | .ok current =>
          match r.policyOp L accessor b op current with
          | some status => do
              let (results, accepted) ← checkOps L r accessor b rest
              .ok (⟨op.name, status⟩ :: results, accepted)
          | none => do
              let (results, accepted) ← checkOps L r accessor b rest
              .ok (results, op :: accepted)

/-! ### The commit -/

/-- The answer after a conflict: where the server's heads are now. -/
def conflictEntries (r : Repository) (accepted : List RefUpdateOp) :
    Result (List RefStatusEntry) :=
  accepted.mapM fun op => do
    let current ← r.refs.getTimeline op.name
    .ok ⟨op.name, .nonFastForward ((current.map Timeline.head).getD ⟨.replicate 0⟩)⟩

/-- The transaction over the accepted operations. -/
def commitPush (r : Repository) (results : List RefStatusEntry) (accepted : List RefUpdateOp) :
    Result (List RefStatusEntry) × Repository :=
  if accepted = [] then (.ok results, r)
  else
    match r.refs.commit (accepted.map RefUpdateOp.refOp) with
    | (.ok (), refs) =>
        (.ok (results ++ accepted.map fun op => ⟨op.name, .ok⟩), { r with refs := refs })
    | (.error (.transactionConflict _), refs) =>
        ((do let conflicts ← { r with refs := refs }.conflictEntries accepted
             .ok (results ++ conflicts)), { r with refs := refs })
    | (.error e, refs) => (.error e, { r with refs := refs })

/-- The answer where a hook is not deterministic. -/
def refuseAll (b : PushBinding) (ops : List RefUpdateOp) : List RefStatusEntry :=
  ops.map fun op => ⟨op.name, .denied ("repository binds non-deterministic policy hook(s) [" ++
    ", ".intercalate b.registry.nonDeterministic ++
    "]; refusing replicated push (fail-closed)")⟩

/-- `apply_push_ops`. -/
def applyPushOps (L : Linked) (r : Repository) (accessor : Accessor) (ops : List RefUpdateOp) :
    Result (List RefStatusEntry) × Repository :=
  match r.bindPush L with
  | .error e => (.error e, r)
  | .ok b =>
      if !b.registry.deterministic then (.ok (refuseAll b ops), r)
      else
        match r.checkOps L accessor b ops with
        | .error e => (.error e, r)
        | .ok (results, accepted) => r.commitPush results accepted

/-! ### Accepted operations -/

/-- `op` is one of the operations of a push that pass the checks and are committed. -/
def PushAccepts (L : Linked) (r : Repository) (accessor : Accessor) (ops : List RefUpdateOp)
    (op : RefUpdateOp) : Prop :=
  ∃ b results accepted, r.bindPush L = .ok b ∧ b.registry.deterministic = true ∧
    r.checkOps L accessor b ops = .ok (results, accepted) ∧ op ∈ accepted ∧
    (r.refs.commit (accepted.map RefUpdateOp.refOp)).1 = .ok ()

variable {L : Linked} {r : Repository} {accessor : Accessor} {b : PushBinding}
  {ops accepted : List RefUpdateOp} {results : List RefStatusEntry} {op : RefUpdateOp}

/-- An operation passes exactly when neither the gate nor the hooks refuse it. -/
lemma checkOps_accepted (h : r.checkOps L accessor b ops = .ok (results, accepted)) :
    op ∈ accepted ↔ op ∈ ops ∧ ∃ current, r.gateOp L accessor b op = .ok (.ok current) ∧
      r.policyOp L accessor b op current = none := by
  induction ops generalizing results accepted with
  | nil =>
      cases h
      simp
  | cons o rest ih =>
      rw [checkOps, Result.bind_eq_ok] at h
      obtain ⟨g, hg, h⟩ := h
      cases g with
      | error status =>
          simp only [Result.bind_eq_ok] at h
          obtain ⟨⟨rs, acc⟩, hrec, h⟩ := h
          cases h
          rw [ih hrec, List.mem_cons, or_and_right, eq_comm]
          refine ⟨Or.inr, fun h => h.resolve_left ?_⟩
          rintro ⟨rfl, current, hcur, -⟩
          rw [hg] at hcur
          cases hcur
      | ok current =>
          cases hp : r.policyOp L accessor b o current with
          | some status =>
              simp only [hp, Result.bind_eq_ok] at h
              obtain ⟨⟨rs, acc⟩, hrec, h⟩ := h
              cases h
              rw [ih hrec, List.mem_cons, or_and_right, eq_comm]
              refine ⟨Or.inr, fun h => h.resolve_left ?_⟩
              rintro ⟨rfl, current', hcur, hp'⟩
              rw [hg] at hcur
              cases hcur
              rw [hp] at hp'
              cases hp'
          | none =>
              simp only [hp, Result.bind_eq_ok] at h
              obtain ⟨⟨rs, acc⟩, hrec, h⟩ := h
              cases h
              rw [List.mem_cons, ih hrec, List.mem_cons, or_and_right]
              refine or_congr_left ⟨?_, And.left⟩
              rintro rfl
              exact ⟨rfl, current, hg, hp⟩

/-- What an operation that passes the gate has been found to be. -/
structure Gated (L : Linked) (r : Repository) (accessor : Accessor) (b : PushBinding)
    (op : RefUpdateOp) (current : Option Timeline) : Prop where
  timeline : accessor.canWrite (b.rules.labelForTimeline b.lattice op.name.asStr)
    ⟨.timeline, op.name.asStr⟩ = true
  snapshot : ∃ snap, r.objects.getSnapshot L op.newHead = .ok (some snap)
  closure : closurePresent L r.objects op.newHead = .ok true
  found : r.refs.getTimeline op.name = .ok current
  fastForward : ∀ old remote, op.expectedOld = some old → current = some remote →
    remote.policy ≠ .unrestricted → findCommonAncestor L r.objects old op.newHead = .ok (some old)

lemma gateOp_ok {current : Option Timeline}
    (h : r.gateOp L accessor b op = .ok (.ok current)) : Gated L r accessor b op current := by
  rw [gateOp] at h
  split_ifs at h with hres hw
  · cases h
  · cases h
  rw [Result.bind_eq_ok] at h
  obtain ⟨snap, hsnap, h⟩ := h
  cases snap with
  | none => cases h
  | some snap =>
    simp only [Result.bind_eq_ok] at h
    obtain ⟨present, hpresent, h⟩ := h
    cases present with
    | false => simp at h
    | true =>
      simp only [Bool.not_true, Bool.false_eq_true, if_false, Result.bind_eq_ok] at h
      obtain ⟨cur, hcur, h⟩ := h
      have hwrite : accessor.canWrite (b.rules.labelForTimeline b.lattice op.name.asStr)
          ⟨.timeline, op.name.asStr⟩ = true := by simpa using hw
      split at h
      · next old remote hold =>
          rw [Result.bind_eq_ok] at h
          obtain ⟨ancestor, hanc, h⟩ := h
          split_ifs at h with hff
          · cases h
          · cases h
            refine ⟨hwrite, ⟨snap, hsnap⟩, hpresent, hcur, fun old' remote' ho hr hp => ?_⟩
            rw [hold] at ho
            cases ho
            cases hr
            rw [hanc]
            by_contra hne
            exact hff ⟨hp, fun h => hne (congrArg Except.ok h)⟩
      · next hnone =>
          cases h
          refine ⟨hwrite, ⟨snap, hsnap⟩, hpresent, hcur, fun old' remote' ho hr _ => ?_⟩
          exact absurd hr (hnone old' remote' ho)

/-- The gate never refuses with `Ok`. -/
lemma gateOp_refuses {status : RefApplyStatus}
    (h : r.gateOp L accessor b op = .ok (.error status)) : status ≠ .ok := by
  rw [gateOp] at h
  split_ifs at h
  · cases h
    simp
  · cases h
    simp
  rw [Result.bind_eq_ok] at h
  obtain ⟨snap, -, h⟩ := h
  cases snap with
  | none =>
      cases h
      simp
  | some snap =>
    simp only [Result.bind_eq_ok] at h
    obtain ⟨present, -, h⟩ := h
    split_ifs at h
    · cases h
      simp
    · rw [Result.bind_eq_ok] at h
      obtain ⟨cur, -, h⟩ := h
      split at h
      · rw [Result.bind_eq_ok] at h
        obtain ⟨ancestor, -, h⟩ := h
        split_ifs at h
        · cases h
          simp
        · cases h
      · cases h

lemma policyOp_refuses {current : Option Timeline} {status : RefApplyStatus}
    (h : r.policyOp L accessor b op current = some status) : status ≠ .ok := by
  unfold policyOp at h
  split at h
  · cases h
  · split at h
    all_goals
      cases h
      try simp

/-- No refusal is an `Ok`. -/
lemma checkOps_results (h : r.checkOps L accessor b ops = .ok (results, accepted)) :
    ∀ e ∈ results, e.status ≠ .ok := by
  induction ops generalizing results accepted with
  | nil =>
      cases h
      simp
  | cons o rest ih =>
      rw [checkOps, Result.bind_eq_ok] at h
      obtain ⟨g, hg, h⟩ := h
      cases g with
      | error status =>
          simp only [Result.bind_eq_ok] at h
          obtain ⟨⟨rs, acc⟩, hrec, h⟩ := h
          cases h
          exact List.forall_mem_cons.mpr ⟨gateOp_refuses hg, ih hrec⟩
      | ok current =>
          cases hp : r.policyOp L accessor b o current with
          | some status =>
              simp only [hp, Result.bind_eq_ok] at h
              obtain ⟨⟨rs, acc⟩, hrec, h⟩ := h
              cases h
              exact List.forall_mem_cons.mpr ⟨policyOp_refuses hp, ih hrec⟩
          | none =>
              simp only [hp, Result.bind_eq_ok] at h
              obtain ⟨⟨rs, acc⟩, hrec, h⟩ := h
              cases h
              exact ih hrec

/-- After a conflict nothing is reported as done. -/
lemma conflictEntries_status {entries : List RefStatusEntry}
    (h : r.conflictEntries accepted = .ok entries) : ∀ e ∈ entries, e.status ≠ .ok := by
  intro e he
  obtain ⟨op, -, hturn⟩ := Result.mem_mapM h he
  obtain ⟨current, -, hturn⟩ := Result.bind_eq_ok.mp hturn
  cases hturn
  simp

/-- **An `Ok` in the answer stands for an accepted operation.** -/
lemma accepts_of_ok {r' : Repository} (h : r.applyPushOps L accessor ops = (.ok results, r'))
    {n : RefName} (hn : ⟨n, .ok⟩ ∈ results) :
    ∃ op, op.name = n ∧ PushAccepts L r accessor ops op := by
  rw [applyPushOps] at h
  cases hb : r.bindPush L with
  | error e => simp [hb] at h
  | ok b =>
    simp only [hb] at h
    split_ifs at h with hdet
    · obtain rfl : refuseAll b ops = results := by simpa using congrArg Prod.fst h
      simp [refuseAll] at hn
    cases hc : r.checkOps L accessor b ops with
    | error e => simp [hc] at h
    | ok p =>
      obtain ⟨rs, accepted⟩ := p
      simp only [hc, commitPush] at h
      split_ifs at h with hnil
      · obtain rfl : rs = results := by simpa using congrArg Prod.fst h
        exact absurd rfl (checkOps_results hc _ hn)
      split at h
      · next refs hcommit =>
          obtain rfl : _ = results := by simpa using congrArg Prod.fst h
          rcases List.mem_append.mp hn with hn | hn
          · exact absurd rfl (checkOps_results hc _ hn)
          · obtain ⟨op, hop, he⟩ := List.mem_map.mp hn
            refine ⟨op, by simpa using congrArg RefStatusEntry.name he, b, rs, accepted, hb, ?_, hc,
              hop, congrArg Prod.fst hcommit⟩
            simpa using hdet
      · next refs hcommit =>
          have hres := congrArg Prod.fst h
          rw [Result.bind_eq_ok] at hres
          obtain ⟨conflicts, hconf, he⟩ := hres
          obtain rfl : rs ++ conflicts = results := by simpa using he
          rcases List.mem_append.mp hn with hn | hn
          · exact absurd rfl (checkOps_results hc _ hn)
          · exact absurd rfl (conflictEntries_status hconf _ hn)
      · cases h

/-- What the checks have found about an accepted operation. -/
lemma PushAccepts.checked (h : PushAccepts L r accessor ops op) :
    op ∈ ops ∧ ∃ b current, r.bindPush L = .ok b ∧ Gated L r accessor b op current ∧
      r.policyOp L accessor b op current = none := by
  obtain ⟨b, results, accepted, hb, -, hc, hop, -⟩ := h
  obtain ⟨hmem, current, hg, hp⟩ := (checkOps_accepted hc).mp hop
  exact ⟨hmem, b, current, hb, gateOp_ok hg, hp⟩

/-- **A push changes only refs that the accessor may write.** -/
lemma get_applyPushOps {n : RefName}
    (hn : ∀ label, accessor.canWrite label ⟨.timeline, n.asStr⟩ = false) :
    (r.applyPushOps L accessor ops).2.refs.get n = r.refs.get n := by
  rw [applyPushOps]
  split
  · rfl
  · next b hb =>
      split_ifs
      · rfl
      · split
        · rfl
        · next results accepted hc =>
            have hne : ∀ op ∈ accepted.map RefUpdateOp.refOp, n ≠ op.name := by
              intro op hop
              obtain ⟨o, ho, rfl⟩ := List.mem_map.mp hop
              rw [o.name_refOp]
              rintro rfl
              obtain ⟨-, current, hg, -⟩ := (checkOps_accepted hc).mp ho
              have hwrite := (gateOp_ok hg).timeline
              rw [hn] at hwrite
              cases hwrite
            have hget := RefStore.get_commit_of_ne (s := r.refs) hne
            rw [commitPush]
            split_ifs
            · rfl
            · split
              · next refs hcommit => rwa [hcommit] at hget
              · next msg refs hcommit => rwa [hcommit] at hget
              · next e refs hcommit => rwa [hcommit] at hget

/-- A commit changes nothing, or has the effect of its operations one after another. -/
lemma commitPush_refs (r : Repository) (results : List RefStatusEntry) (ops : List RefUpdateOp) :
    (r.commitPush results ops).2.refs = r.refs ∨
      RefMap.applyOps (ops.map RefUpdateOp.refOp) r.refs.map =
        .ok (r.commitPush results ops).2.refs.map := by
  rw [commitPush]
  split_ifs
  · exact Or.inl rfl
  cases hc : r.refs.commit (ops.map RefUpdateOp.refOp) with
  | mk result refs =>
      cases result with
      | ok u => exact Or.inr (RefStore.commit_ok hc)
      | error e =>
          refine Or.inl ?_
          have hrefs := RefStore.commit_error hc
          cases e <;> exact hrefs

lemma commitPush_objects (r : Repository) (results : List RefStatusEntry)
    (ops : List RefUpdateOp) : (r.commitPush results ops).2.objects = r.objects := by
  rw [commitPush]
  split_ifs
  · rfl
  split <;> rfl

/-! ### Push and local advance -/

/-- Both trees can be walked, and the accessor may write every path of the new one and every
path of the old one that the new one lacks. -/
def PathsWritable (L : Linked) (r : Repository) (accessor : Accessor) (newHead oldHead : ObjectId) :
    Prop :=
  ∃ lattice rules snap paths old, r.acls.getLattice = .ok lattice ∧
    r.acls.getLabelRuleset = .ok rules ∧ r.objects.getSnapshot L newHead = .ok (some snap) ∧
    walkTreeFiltered L r.objects lattice rules snap.root "" .privileged ∅ = .ok paths ∧
    r.oldPaths L oldHead = .ok old ∧
    (∀ path ∈ paths, accessor.canWrite (rules.labelForPath lattice path) ⟨.path, path⟩ = true) ∧
    ∀ path ∈ old, path ∉ paths →
      accessor.canWrite (rules.labelForPath lattice path) ⟨.path, path⟩ = true

/-- The hooks of an accepted advance of an existing timeline allow it locally. -/
lemma evaluate_of_policyOp {T : Timeline} (h : r.policyOp L accessor b op (some T) = none) :
    b.registry.evaluate L
      (r.advanceContext ⟨op.name, op.newHead, none, accessor⟩ T.head) = .allow := by
  rw [policyOp] at h
  split at h
  · next hallow => exact PolicyRegistry.evaluateReplayable_allow hallow
  · cases h
  · cases h

/-- **A push that is accepted for an existing timeline would be allowed locally exactly when
the accessor may write the paths it touches.**  The other checks of the two agree. -/
theorem push_allowed_locally_iff {T : Timeline} (h : PushAccepts L r accessor ops op)
    (hT : r.refs.get op.name = some (.timeline T)) :
    (r.advanceTimeline L op.name op.newHead accessor).1 = .ok () ↔
      PathsWritable L r accessor op.newHead T.head := by
  obtain ⟨-, b, current, hb, hg, hp⟩ := h.checked
  obtain rfl : current = some T :=
    Except.ok.inj (hg.found.symm.trans (RefStore.getTimeline_eq_some.mpr hT))
  simp only [bindPush, Result.bind_eq_ok] at hb
  obtain ⟨lattice, hlat, rules, hrules, registry, hreg, rfl⟩ :
      ∃ lattice, r.acls.getLattice = .ok lattice ∧ ∃ rules, r.acls.getLabelRuleset = .ok rules ∧
        ∃ registry, r.policyRegistry L = .ok registry ∧
          PushBinding.mk lattice rules registry = b := by
    simpa using hb
  rw [advanceTimeline, advanceTimelineExpecting_ok_iff]
  constructor
  · rintro ⟨p, timeline, registry', hprep, hread, hrem, -, -⟩
    obtain ⟨hlat', hrules', -, -, snap, hsnap, hwalk, hpaths⟩ := prepare_eq_ok.mp hprep
    obtain rfl : T = timeline := by simpa [hT] using (readTimeline_eq_ok.mp hread).1
    obtain ⟨old, hold, hremoved⟩ := checkRemoved_eq_ok.mp hrem
    exact ⟨p.lattice, p.rules, snap, p.paths, old, hlat', hrules', hsnap, hwalk, hold, hpaths,
      hremoved⟩
  · rintro ⟨lattice', rules', snap, paths, old, hlat', hrules', hsnap, hwalk, hold, hpaths,
      hremoved⟩
    obtain rfl : lattice = lattice' := Except.ok.inj (hlat.symm.trans hlat')
    obtain rfl : rules = rules' := Except.ok.inj (hrules.symm.trans hrules')
    refine ⟨⟨lattice, rules, some T.head, paths⟩, T, registry, prepare_eq_ok.mpr ?_,
      readTimeline_eq_ok.mpr ⟨hT, by simp⟩, checkRemoved_eq_ok.mpr ⟨old, hold, hremoved⟩, hreg,
      checkPolicy_eq_ok.mpr (evaluate_of_policyOp hp)⟩
    exact ⟨hlat, hrules, ⟨some T, hg.found, rfl⟩, hg.timeline, snap, hsnap, hwalk, hpaths⟩

/-! ### A writer of timelines only -/

/-- Two snapshots, the second with other contents in the one file. -/
def pushObjects : List Object :=
  let before : Object := .blob (ascii "1")
  let after : Object := .blob (ascii "2")
  let tree : Object := .tree ⟨(∅ : BTreeMap String TreeEntry).insert "f" ⟨before.refId, .blob⟩⟩
  let tree' : Object := .tree ⟨(∅ : BTreeMap String TreeEntry).insert "f" ⟨after.refId, .blob⟩⟩
  let base : Object := .snapshot ⟨tree.refId, [], "", 0, ""⟩
  [before, after, tree, tree', base, .snapshot ⟨tree'.refId, [base.refId], "", 1, ""⟩]

/-- The crates with a codec for these objects. -/
def pushLinked : Linked := .over pushObjects

def pushId (i : ℕ) : ObjectId := (pushObjects.getD i (.blob [])).refId

def pushName : RefName := ⟨"main", RefName.valid_main⟩

/-- A protected timeline at the first snapshot; nothing is labelled. -/
def pushRepo : Repository :=
  { memory with
    objects := .holding pushLinked pushObjects
    refs := ⟨(∅ : BTreeMap RefName Ref).insert pushName
      (.timeline ⟨pushId 4, .fastForwardOnly, 0, "persistent", none⟩)⟩ }

/-- The advance to the second snapshot. -/
def pushUpdate : RefUpdateOp := ⟨pushName, some (pushId 4), pushId 5⟩

/-- Whoever may write timelines, and no path. -/
def timelineWriter : Accessor := Accessor.new.withTimelineRole "**" .readWrite

/-- Whoever may write everything. -/
def fullWriter : Accessor := .fromParts .twoPoint ⟨[]⟩ ⟨[⟨.protected_, .readWrite, none⟩], false⟩

lemma pushRepo_accepts {accessor : Accessor}
    (h : (pushRepo.applyPushOps pushLinked accessor [pushUpdate]).1 = .ok [⟨pushName, .ok⟩]) :
    PushAccepts pushLinked pushRepo accessor [pushUpdate] pushUpdate := by
  obtain ⟨op, -, hacc⟩ := accepts_of_ok (Prod.ext h rfl) (List.mem_singleton.mpr rfl)
  obtain rfl : op = pushUpdate := List.mem_singleton.mp hacc.checked.1
  exact hacc

lemma pushRepo_get : pushRepo.refs.get pushUpdate.name =
    some (.timeline ⟨pushId 4, .fastForwardOnly, 0, "persistent", none⟩) := by
  decide +kernel

/-- The push of someone who may write everything would be allowed locally. -/
theorem push_allowed_locally_full :
    (pushRepo.applyPushOps pushLinked fullWriter [pushUpdate]).1 = .ok [⟨pushName, .ok⟩] ∧
      PathsWritable pushLinked pushRepo fullWriter (pushId 5) (pushId 4) := by
  have hpush : (pushRepo.applyPushOps pushLinked fullWriter [pushUpdate]).1 =
      .ok [⟨pushName, .ok⟩] := by decide +kernel
  have hlocal : (pushRepo.advanceTimeline pushLinked pushUpdate.name pushUpdate.newHead
      fullWriter).1 = .ok () := by decide +kernel
  exact ⟨hpush, (push_allowed_locally_iff (pushRepo_accepts hpush) pushRepo_get).mp hlocal⟩

/-- The push of someone who may write no path is accepted, and would not be allowed locally. -/
theorem push_bypasses_path_write :
    ¬ ∀ (L : Linked) (r : Repository) (accessor : Accessor) (ops : List RefUpdateOp)
      (op : RefUpdateOp) (T : Timeline), PushAccepts L r accessor ops op →
      r.refs.get op.name = some (.timeline T) →
      (r.advanceTimeline L op.name op.newHead accessor).1 = .ok () := by
  intro h
  have hpush : (pushRepo.applyPushOps pushLinked timelineWriter [pushUpdate]).1 =
      .ok [⟨pushName, .ok⟩] := by decide +kernel
  have hlocal : (pushRepo.advanceTimeline pushLinked pushUpdate.name pushUpdate.newHead
      timelineWriter).1 = .error (.accessDenied "write denied on path: f") := by decide +kernel
  have hok := h pushLinked pushRepo timelineWriter [pushUpdate] pushUpdate _
    (pushRepo_accepts hpush) pushRepo_get
  rw [hlocal] at hok
  cases hok

end Repository

end Bole
