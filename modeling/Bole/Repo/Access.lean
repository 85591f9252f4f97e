import Bole.Acl.Explain
import Bole.Acl.TwoPoint
import Bole.Repo.Proposal

/-!
What an actor may see, write, advance and merge: `get_snapshot_filtered` and `explain_path` of
`src/repo/mod.rs`, and what an `advance_timeline` or a `check_merge` that goes through has
checked.

`tree_as_map` and the checks walk a tree as the privileged accessor does, whose lattice is the
two-point one.  Under the shipped backends that is everything.

* `advance_authorised`: a timeline is advanced by actors who may write it and every path they add,
  keep or remove, and with the consent of every hook;
* `check_merge_contains`: a merge that is allowed leads no path to a place below its label;
* `explain_agrees_iff`: when an explanation agrees with what is enforced;
* `enumerated_iff`: when the privileged walk returns every path;
* `gates_agree_iff`: when the gate of a merge is that of an advance.
-/

namespace Bole

/-! ### Filtered snapshots -/

/-- `FilteredSnapshot`. -/
structure FilteredSnapshot where
  id : ObjectId
  author : String
  createdAt : ℕ
  message : String
  parents : List ObjectId
  visiblePaths : BTreeMap String ObjectId

/-- `get_snapshot_filtered`. -/
def Repository.getSnapshotFiltered (L : Linked) (r : Repository) (id : ObjectId)
    (accessor : Accessor) : Result (Option FilteredSnapshot) :=
  match r.objects.get L id with
  | .error e => .error e
  | .ok (some (.snapshot snap)) => do
      let lattice ← r.acls.getLattice
      let rules ← r.acls.getLabelRuleset
      let visiblePaths ← walkTreeFiltered L r.objects lattice rules snap.root "" accessor ∅
      .ok (some ⟨id, snap.author, snap.createdAt, snap.message, snap.parents, visiblePaths⟩)
  | .ok _ => .ok none

variable {L : Linked} {r : Repository} {accessor : Accessor}

/-- What a filtered snapshot is made of. -/
lemma getSnapshotFiltered_eq_some {head : ObjectId} {view : FilteredSnapshot}
    (h : r.getSnapshotFiltered L head accessor = .ok (some view)) :
    ∃ snap lattice rules, r.objects.get L head = .ok (some (.snapshot snap)) ∧
      r.acls.getLattice = .ok lattice ∧ r.acls.getLabelRuleset = .ok rules ∧
      walkTreeFiltered L r.objects lattice rules snap.root "" accessor ∅ =
        .ok view.visiblePaths := by
  rw [Repository.getSnapshotFiltered] at h
  split at h
  · cases h
  · next snap hsnap =>
      obtain ⟨lattice, hl, h⟩ := Result.bind_eq_ok.mp h
      obtain ⟨rules, hr, h⟩ := Result.bind_eq_ok.mp h
      obtain ⟨visiblePaths, hw, h⟩ := Result.bind_eq_ok.mp h
      cases h
      exact ⟨snap, lattice, rules, hsnap, hl, hr, hw⟩
  · cases h

/-! ### The shipped backends -/

section Shipped

variable {pathAcls timelineAcls secretAcls : List String}

/-- The privileged walk tests nothing. -/
lemma visible_privileged (path : String) :
    visible .twoPoint (derivedRules pathAcls timelineAcls secretAcls) .privileged path = true :=
  visible_iff.mpr (Or.inr (privileged_canRead.mpr (LabelRuleSet.labelFor_derived_cases _ _ _ _ _)))

/-- It shows every path below the root. -/
lemma mem_walk_privileged {s : ObjectStore} {root : ObjectId} {path : String}
    {m : BTreeMap String ObjectId}
    (h : walkTreeFiltered L s .twoPoint (derivedRules pathAcls timelineAcls secretAcls) root ""
      .privileged ∅ = .ok m) : path ∈ m ↔ ShowsPath L s root "" path := by
  rw [mem_walkTreeFiltered h, and_iff_right (visible_privileged path)]

/-! ### Advancing -/

/-- An advance that goes through has replaced the head of a timeline. -/
lemma advance_replaces {req : AdvanceRequest} (h : (r.advanceTimelineExpecting L req).1 = .ok ()) :
    ∃ T, r.refs.get req.name = some (.timeline T) ∧
      (r.advanceTimelineExpecting L req).2.refs.get req.name =
        some (.timeline { T with head := req.snapshotId }) := by
  rw [Repository.advanceTimelineExpecting] at h ⊢
  cases hc : r.checkAdvance L req with
  | error refusal => simp [hc] at h
  | ok timeline =>
      rw [hc] at h
      dsimp only at h ⊢
      rcases AdvanceCall.commitAdvance_cases r req timeline with ⟨T, hT, -, -, hnew, -⟩ | ⟨e, he, -⟩
      · exact ⟨T, hT, hnew⟩
      · rw [he] at h
        cases h

/-- **An advance that goes through is authorised**: by the label of the timeline, by the label of
every path of the new tree and of every path that it removes, and by every hook. -/
theorem advance_authorised {req : AdvanceRequest}
    (hacls : r.acls = .shipped pathAcls timelineAcls secretAcls)
    (h : (r.advanceTimelineExpecting L req).1 = .ok ()) :
    ∃ T snap registry, r.refs.get req.name = some (.timeline T) ∧
      (r.advanceTimelineExpecting L req).2.refs.get req.name =
        some (.timeline { T with head := req.snapshotId }) ∧
      r.objects.getSnapshot L req.snapshotId = .ok (some snap) ∧
      r.policyRegistry L = .ok registry ∧
      req.accessor.canWrite ((derivedRules pathAcls timelineAcls secretAcls).labelForTimeline
        .twoPoint req.name.asStr) ⟨.timeline, req.name.asStr⟩ = true ∧
      (∀ path, ShowsPath L r.objects snap.root "" path →
        req.accessor.canWrite ((derivedRules pathAcls timelineAcls secretAcls).labelForPath
          .twoPoint path) ⟨.path, path⟩ = true) ∧
      (∀ old path, r.objects.getSnapshot L T.head = .ok (some old) →
        ShowsPath L r.objects old.root "" path → ¬ ShowsPath L r.objects snap.root "" path →
        req.accessor.canWrite ((derivedRules pathAcls timelineAcls secretAcls).labelForPath
          .twoPoint path) ⟨.path, path⟩ = true) ∧
      ∀ hook ∈ registry.hooks, hook.check L (r.advanceContext req T.head) = .allow := by
  obtain ⟨T, hT, hnew⟩ := advance_replaces h
  obtain ⟨⟨lattice, rules, auditOld, paths⟩, timeline, registry, hprep, hread, hremoved, hreg,
    hpolicy⟩ := Repository.advanceTimelineExpecting_ok_iff.mp h
  obtain ⟨hlat, hrules, -, hwrite, snap, hsnap, hwalk, hpaths⟩ := Repository.prepare_eq_ok.mp hprep
  rw [hacls] at hlat hrules
  obtain rfl : LabelLattice.twoPoint = lattice := Except.ok.inj hlat
  obtain rfl : derivedRules pathAcls timelineAcls secretAcls = rules := Except.ok.inj hrules
  obtain rfl : timeline = T := by
    have := (Repository.readTimeline_eq_ok.mp hread).1
    simpa [hT] using this.symm
  refine ⟨timeline, snap, registry, hT, hnew, hsnap, hreg, hwrite, fun path hpath => ?_,
    fun old path hold hpath hgone => ?_, ?_⟩
  · exact hpaths path ((mem_walk_privileged hwalk).mpr hpath)
  · obtain ⟨m, hm, hchecked⟩ := Repository.checkRemoved_eq_ok.mp hremoved
    rw [Repository.oldPaths, hold] at hm
    have hmap : r.treeAsMap L old.root = .ok m := hm
    rw [Repository.treeAsMap, hacls] at hmap
    refine hchecked path ((mem_walk_privileged hmap).mpr hpath) fun hkept => hgone ?_
    exact (mem_walk_privileged hwalk).mp hkept
  · exact PolicyRegistry.evaluate_eq_allow.mp (Repository.checkPolicy_eq_ok.mp hpolicy)

/-- Whoever may write protected places advances a timeline to a tree with a protected file. -/
theorem advance_authorised_protected :
    ((Repository.leakRepo ["secrets/**"]).advanceTimelineExpecting Repository.leakLinked
        ⟨AdvanceSystem.raceName, Repository.leakId 5, none, AdvanceSystem.raceWriter⟩).1 = .ok () ∧
      ∃ T, (Repository.leakRepo ["secrets/**"]).refs.get AdvanceSystem.raceName =
          some (.timeline T) ∧
        ∀ old path,
          (Repository.leakRepo ["secrets/**"]).objects.getSnapshot Repository.leakLinked T.head =
            .ok (some old) →
          ShowsPath Repository.leakLinked (Repository.leakRepo ["secrets/**"]).objects old.root ""
            path →
          AdvanceSystem.raceWriter.canWrite
            ((derivedRules ["secrets/**"] [] []).labelForPath .twoPoint path) ⟨.path, path⟩ =
              true := by
  have hok : ((Repository.leakRepo ["secrets/**"]).advanceTimelineExpecting Repository.leakLinked
      ⟨AdvanceSystem.raceName, Repository.leakId 5, none, AdvanceSystem.raceWriter⟩).1 =
        .ok () := by decide +kernel
  have hacls : (Repository.leakRepo ["secrets/**"]).acls = .shipped ["secrets/**"] [] [] := by
    rw [Repository.leakRepo]
  obtain ⟨T, snap, -, hT, -, -, -, -, hnew, hold, -⟩ := advance_authorised hacls hok
  refine ⟨hok, T, hT, fun old path hsnap hpath => ?_⟩
  by_cases hkept : ShowsPath Repository.leakLinked (Repository.leakRepo ["secrets/**"]).objects
      snap.root "" path
  · exact hnew path hkept
  · exact hold old path hsnap hpath hkept

/-! ### Merging -/

/-- **A merge that `check_merge` allows** leads no path of the source to a place below its label,
and every hook consents to it. -/
theorem check_merge_contains {source dest : RefName}
    (hacls : r.acls = .shipped pathAcls timelineAcls secretAcls)
    (h : r.checkMerge L source dest accessor = .ok .allowed) :
    ∃ T snap registry, r.refs.get source = some (.timeline T) ∧
      r.objects.getSnapshot L T.head = .ok (some snap) ∧ r.policyRegistry L = .ok registry ∧
      (∀ path, ShowsPath L r.objects snap.root "" path →
        LabelLattice.twoPoint.dominates
          ((derivedRules pathAcls timelineAcls secretAcls).labelForTimeline .twoPoint dest.asStr)
          ((derivedRules pathAcls timelineAcls secretAcls).labelForPath .twoPoint path) = true) ∧
      ∀ hook ∈ registry.hooks,
        hook.check L (r.mergeContext source dest accessor T.head) = .allow := by
  have hreads := h
  simp only [Repository.checkMerge, Result.bind_eq_ok] at hreads
  obtain ⟨head, hhead, root, hroot, lattice, hlat, rules, hrules, paths, hwalk, acls, -, registry,
    hreg, -⟩ := hreads
  obtain ⟨T, hT, rfl⟩ := Repository.timelineHead_eq_ok.mp hhead
  obtain ⟨snap, hsnap, rfl⟩ := Repository.snapshotRoot_eq_ok.mp hroot
  obtain ⟨hleak, happroved⟩ :=
    (Repository.checkMerge_allowed_iff hT hsnap hlat hrules hwalk hreg).mp h
  refine ⟨T, snap, registry, hT, hsnap, hreg, fun path hpath => ?_, fun hook hhook => ?_⟩
  · obtain ⟨acls, hlist, hnone⟩ := hleak T snap .twoPoint
      (derivedRules pathAcls timelineAcls secretAcls) hT hsnap (by rw [hacls]; rfl)
      (by rw [hacls]; rfl)
    -- a public path flows anywhere, and a protected one is matched by an ACL of the scan
    rcases LabelRuleSet.labelFor_derived_cases pathAcls timelineAcls secretAcls .path path with
      hpublic | hprotected
    · rw [LabelRuleSet.labelForPath, hpublic]
      exact LabelLattice.twoPoint_dominates_public (LabelRuleSet.labelFor_derived_cases _ _ _ _ _)
    · obtain ⟨glob, hglob, hmatch⟩ := LabelRuleSet.exists_pathAcl hprotected
      obtain rfl : pathAcls.map PathAcl.mk = acls := by
        rw [hacls] at hlist
        exact Except.ok.inj hlist
      exact hnone ⟨glob⟩ (List.mem_map.mpr ⟨glob, hglob, rfl⟩) path hpath (visible_privileged path)
        hmatch
  · exact Repository.check_merge_eq_allow.mpr (happroved T registry hT hreg hook hhook)

/-- The repository of the leaking proposal, with its target protected too. -/
def sealedRepo : Repository :=
  { Repository.leakRepo [] with acls := .shipped ["secrets/**"] ["main"] [] }

/-- There the protected file may flow to the target. -/
theorem check_merge_contains_sealed :
    sealedRepo.checkMerge Repository.leakLinked Repository.featureName AdvanceSystem.raceName
        .new = .ok .allowed ∧
      ∃ T snap, sealedRepo.refs.get Repository.featureName = some (.timeline T) ∧
        sealedRepo.objects.getSnapshot Repository.leakLinked T.head = .ok (some snap) ∧
        ∀ path, ShowsPath Repository.leakLinked sealedRepo.objects snap.root "" path →
          LabelLattice.twoPoint.dominates
            ((derivedRules ["secrets/**"] ["main"] []).labelForTimeline .twoPoint "main")
            ((derivedRules ["secrets/**"] ["main"] []).labelForPath .twoPoint path) = true := by
  have hallowed : sealedRepo.checkMerge Repository.leakLinked Repository.featureName
      AdvanceSystem.raceName .new = .ok .allowed := by decide +kernel
  have hacls : sealedRepo.acls = .shipped ["secrets/**"] ["main"] [] := by rw [sealedRepo]
  obtain ⟨T, snap, -, hT, hsnap, -, hcontains, -⟩ := check_merge_contains hacls hallowed
  exact ⟨hallowed, T, snap, hT, hsnap, hcontains⟩

end Shipped

/-! ### Explaining -/

/-- `Decision`. -/
structure Decision where
  allowed : Bool
  reason : String
  confinedWriteDownBlock : Bool
  clearances : List ClearanceEval
deriving DecidableEq

/-- `AccessExplanation`. -/
structure AccessExplanation where
  path : String
  present : Bool
  label : Label
  matchedRules : List String
  read : Decision
  write : Decision
deriving DecidableEq

/-- The globs of the path rules that match. -/
def LabelRuleSet.matched (rules : LabelRuleSet) (path : String) : List String :=
  rules.rules.filterMap fun rule =>
    if rule.kind = .path ∧ globMatches rule.glob path then some rule.glob else none

/-- The read decision: what is public is readable by all. -/
def readDecision (lattice : LabelLattice) (label : Label) (trace : CapabilityTrace) : Decision :=
  if label = lattice.bottom then
    ⟨true, "path label is public (lattice bottom); readable by all actors", false,
      trace.clearances⟩
  else if trace.allowed then
    ⟨true, "granted: a read clearance dominates label `" ++ label.name ++ "`", false,
      trace.clearances⟩
  else
    ⟨false, "denied: no in-scope read clearance dominates label `" ++ label.name ++ "`", false,
      trace.clearances⟩

/-- The write decision. -/
def writeDecision (label : Label) (trace : CapabilityTrace) : Decision :=
  if trace.allowed then
    ⟨true, "granted: a write clearance dominates label `" ++ label.name ++ "`", false,
      trace.clearances⟩
  else if trace.confinedWriteDownBlock then
    ⟨false, "denied: confined actor may not write down to label `" ++ label.name ++ "`", true,
      trace.clearances⟩
  else
    ⟨false, "denied: no in-scope write clearance dominates label `" ++ label.name ++ "`", false,
      trace.clearances⟩

/-- `explain_path`. -/
def Repository.explainPath (L : Linked) (r : Repository) (accessor : Accessor)
    (snapshot : ObjectId) (path : String) : Result AccessExplanation := do
  let lattice ← r.acls.getLattice
  let rules ← r.acls.getLabelRuleset
  let label := rules.labelForPath lattice path
  match ← r.objects.getSnapshot L snapshot with
  | none => .error (.storage ("snapshot not found: " ++ snapshot.toHex))
  | some snap => do
      let full ← r.treeAsMap L snap.root
      let (readTrace, writeTrace) := accessor.explain label ⟨.path, path⟩
      .ok ⟨path, full.contains path, label, rules.matched path,
        readDecision lattice label readTrace, writeDecision label writeTrace⟩

section Explain

variable {snapshot : ObjectId} {path : String} {e : AccessExplanation}

lemma allowed_readDecision {lattice : LabelLattice} {rules : LabelRuleSet} :
    (readDecision lattice (rules.labelForPath lattice path)
      (accessor.evalCap (rules.labelForPath lattice path) ⟨.path, path⟩ .read)).allowed =
        visible lattice rules accessor path := by
  rw [readDecision, Accessor.evalCap_read, visible]
  split_ifs with hbottom hread
  · simp [hbottom]
  · simp [hbottom, hread]
  · simp [hbottom, hread]

lemma allowed_writeDecision {label : Label} {resource : ResourceRef} :
    (writeDecision label (accessor.evalCap label resource .write)).allowed =
      accessor.canWrite label resource := by
  rw [← Accessor.evalCap_write, writeDecision]
  split_ifs with hallowed hblock
  · exact hallowed.symm
  · simp [hallowed]
  · simp [hallowed]

/-- **What an explanation says.** -/
lemma explainPath_eq_ok (h : r.explainPath L accessor snapshot path = .ok e) :
    ∃ lattice rules snap full, r.acls.getLattice = .ok lattice ∧
      r.acls.getLabelRuleset = .ok rules ∧ r.objects.getSnapshot L snapshot = .ok (some snap) ∧
      walkTreeFiltered L r.objects lattice rules snap.root "" .privileged ∅ = .ok full ∧
      (e.present = true ↔ path ∈ full) ∧
      e.read.allowed = visible lattice rules accessor path ∧
      e.write.allowed = accessor.canWrite (rules.labelForPath lattice path) ⟨.path, path⟩ := by
  simp only [Repository.explainPath, Result.bind_eq_ok] at h
  obtain ⟨lattice, hlat, rules, hrules, found, hsnap, h⟩ := h
  cases found with
  | none => cases h
  | some snap =>
      simp only [Result.bind_eq_ok] at h
      obtain ⟨full, hfull, h⟩ := h
      cases h
      simp only [Repository.treeAsMap, hlat, hrules, bind, Except.bind] at hfull
      exact ⟨lattice, rules, snap, full, hlat, hrules, hsnap, hfull,
        Std.ExtTreeMap.contains_iff_mem, allowed_readDecision, allowed_writeDecision⟩

/-- There is an explanation exactly where there is a filtered snapshot. -/
lemma explainPath_ok_iff : (∃ e, r.explainPath L accessor snapshot path = .ok e) ↔
    ∃ view, r.getSnapshotFiltered L snapshot accessor = .ok (some view) := by
  constructor
  · rintro ⟨e, h⟩
    obtain ⟨lattice, rules, snap, full, hlat, hrules, hsnap, hfull, -⟩ := explainPath_eq_ok h
    obtain ⟨m, hm⟩ := walkTreeFiltered_ok hfull accessor
    refine ⟨⟨snapshot, snap.author, snap.createdAt, snap.message, snap.parents, m⟩, ?_⟩
    simp only [Repository.getSnapshotFiltered, getSnapshot_eq_some.mp hsnap, hlat, hrules, hm, bind,
      Except.bind]
  · rintro ⟨view, h⟩
    obtain ⟨snap, lattice, rules, hsnap, hlat, hrules, hwalk⟩ := getSnapshotFiltered_eq_some h
    obtain ⟨full, hfull⟩ := walkTreeFiltered_ok hwalk .privileged
    simp only [Repository.explainPath, Repository.treeAsMap, hlat, hrules,
      getSnapshot_eq_some.mpr hsnap, hfull, bind, Except.bind]
    exact ⟨_, rfl⟩

/-- The explanation says that the path is there and readable when the filtered snapshot shows it,
and that it is writable when a write would be let through. -/
def ExplainAgrees (L : Linked) (r : Repository) (accessor : Accessor) (snapshot : ObjectId)
    (path : String) (e : AccessExplanation) : Prop :=
  ∃ view lattice rules, r.getSnapshotFiltered L snapshot accessor = .ok (some view) ∧
    r.acls.getLattice = .ok lattice ∧ r.acls.getLabelRuleset = .ok rules ∧
    ((e.present = true ∧ e.read.allowed = true) ↔ path ∈ view.visiblePaths) ∧
    (e.write.allowed = true ↔
      accessor.canWrite (rules.labelForPath lattice path) ⟨.path, path⟩ = true)

/-- The path is not in the snapshot, or the actor may not read it, or its label is the bottom of
the lattice or one of the two labels the privileged accessor knows. -/
def Explainable (L : Linked) (r : Repository) (accessor : Accessor) (snapshot : ObjectId)
    (path : String) : Prop :=
  ∀ lattice rules snap, r.acls.getLattice = .ok lattice → r.acls.getLabelRuleset = .ok rules →
    r.objects.getSnapshot L snapshot = .ok (some snap) → ShowsPath L r.objects snap.root "" path →
    visible lattice rules accessor path = true →
    rules.labelForPath lattice path = lattice.bottom ∨
      rules.labelForPath lattice path = .public_ ∨ rules.labelForPath lattice path = .protected_

lemma visible_privileged_iff {lattice : LabelLattice} {rules : LabelRuleSet} :
    visible lattice rules .privileged path = true ↔
      rules.labelForPath lattice path = lattice.bottom ∨
        rules.labelForPath lattice path = .public_ ∨
          rules.labelForPath lattice path = .protected_ := by
  rw [visible_iff, privileged_canRead]

/-- Under the shipped backends there are no other labels. -/
lemma explainable_of_shipped {pathAcls timelineAcls secretAcls : List String}
    (hacls : r.acls = .shipped pathAcls timelineAcls secretAcls) :
    Explainable L r accessor snapshot path := by
  intro lattice rules snap hlat hrules _ _ _
  rw [hacls] at hlat hrules
  cases hlat
  cases hrules
  exact Or.inr (LabelRuleSet.labelFor_derived_cases _ _ _ _ _)

/-- **An explanation agrees with what is enforced exactly when the privileged accessor can see
the path**, as far as the actor can. -/
theorem explain_agrees_iff (h : r.explainPath L accessor snapshot path = .ok e) :
    ExplainAgrees L r accessor snapshot path e ↔ Explainable L r accessor snapshot path := by
  obtain ⟨view, hview⟩ := explainPath_ok_iff.mp ⟨e, h⟩
  obtain ⟨lattice, rules, snap, full, hlat, hrules, hsnap, hfull, hpresent, hread, hwrite⟩ :=
    explainPath_eq_ok h
  obtain ⟨snap', lattice', rules', hsnap', hlat', hrules', hwalk⟩ :=
    getSnapshotFiltered_eq_some hview
  rw [← getSnapshot_eq_some] at hsnap'
  obtain rfl : lattice = lattice' := Except.ok.inj (hlat.symm.trans hlat')
  obtain rfl : rules = rules' := Except.ok.inj (hrules.symm.trans hrules')
  obtain rfl : snap = snap' := Option.some.inj (Except.ok.inj (hsnap.symm.trans hsnap'))
  have hboth : ((e.present = true ∧ e.read.allowed = true) ↔ path ∈ view.visiblePaths) ↔
      (ShowsPath L r.objects snap.root "" path → visible lattice rules accessor path = true →
        visible lattice rules .privileged path = true) := by
    rw [hpresent, hread, mem_walkTreeFiltered hfull, mem_walkTreeFiltered hwalk]
    tauto
  constructor
  · rintro ⟨view', lattice', rules', hview', -, -, hagree, -⟩ lattice'' rules'' snap'' hlat''
      hrules'' hsnap'' hshows hvisible
    obtain rfl : view = view' := Option.some.inj (Except.ok.inj (hview.symm.trans hview'))
    obtain rfl : lattice = lattice'' := Except.ok.inj (hlat.symm.trans hlat'')
    obtain rfl : rules = rules'' := Except.ok.inj (hrules.symm.trans hrules'')
    obtain rfl : snap = snap'' := Option.some.inj (Except.ok.inj (hsnap.symm.trans hsnap''))
    exact visible_privileged_iff.mp (hboth.mp hagree hshows hvisible)
  · intro hexplainable
    refine ⟨view, lattice, rules, hview, hlat, hrules, hboth.mpr fun hshows hvisible => ?_, ?_⟩
    · exact visible_privileged_iff.mpr
        (hexplainable lattice rules snap hlat hrules hsnap hshows hvisible)
    · rw [hwrite]

end Explain

/-! ### What the privileged walk returns -/

/-- The files of a tree are what its privileged walks return: the maps a merge works on, the walk
of a `check_merge`, and the paths an advance to it or away from it checks. -/
structure Enumerated (L : Linked) (r : Repository) (root : ObjectId)
    (full : BTreeMap String ObjectId) : Prop where
  map : r.treeAsMap L root = .ok full
  scan : ∀ lattice rules, r.acls.getLattice = .ok lattice → r.acls.getLabelRuleset = .ok rules →
    walkTreeFiltered L r.objects lattice rules root "" .privileged ∅ = .ok full
  advance : ∀ (req : AdvanceRequest) p snap, r.prepare L req = .ok p →
    r.objects.getSnapshot L req.snapshotId = .ok (some snap) → snap.root = root →
      p.paths = full ∧ ∀ path ∈ full, req.accessor.canWrite (p.rules.labelForPath p.lattice path)
        ⟨.path, path⟩ = true
  removed : ∀ head snap, r.objects.getSnapshot L head = .ok (some snap) → snap.root = root →
    r.oldPaths L head = .ok full

/-- The labels the privileged accessor passes. -/
def Passes (lattice : LabelLattice) (rules : LabelRuleSet) (path : String) : Prop :=
  rules.labelForPath lattice path = lattice.bottom ∨
    rules.labelForPath lattice path = .public_ ∨ rules.labelForPath lattice path = .protected_

/-- A map restricted to keys that pass is whole iff all of its keys do. -/
lemma restrict_eq_self {keep : String → Bool} {m : BTreeMap String ObjectId} :
    Collect.restrict keep m = m ↔ ∀ path ∈ m, keep path = true := by
  constructor
  · intro h path hpath
    by_contra hkeep
    have hnone : (Collect.restrict keep m)[path]? = none := by
      rw [Collect.getElem?_restrict, if_neg hkeep]
    rw [h] at hnone
    have hsome := Std.ExtTreeMap.mem_iff_isSome_getElem?.mp hpath
    rw [hnone] at hsome
    cases hsome
  · intro h
    refine Std.ExtTreeMap.ext_getElem? fun path => ?_
    rw [Collect.getElem?_restrict]
    split_ifs with hkeep
    · rfl
    · exact (Std.ExtTreeMap.getElem?_eq_none fun hpath => hkeep (h path hpath)).symm

/-- **The privileged walk returns every path iff each has the bottom label or one of the two
labels of the two-point lattice.**  For every lattice and rule set a backend may have, and every
snapshot of admissible depth. -/
theorem enumerated_iff {lattice : LabelLattice} {rules : LabelRuleSet} {fuel : ℕ}
    {head : ObjectId} {snap : Snapshot} {full : BTreeMap String ObjectId}
    (hlat : r.acls.getLattice = .ok lattice) (hrules : r.acls.getLabelRuleset = .ok rules)
    (hsnap : r.objects.getSnapshot L head = .ok (some snap))
    (hfits : fitsDepth L r.objects maxTreeDepth snap.root = true)
    (hfull : snapshotPaths L r.objects fuel head = .ok (some full)) :
    Enumerated L r snap.root full ↔ ∀ path ∈ full, Passes lattice rules path := by
  rw [snapshotPaths, getSnapshot_eq_some.mp hsnap] at hfull
  obtain ⟨view, hview⟩ := walkTreeFiltered_of_fits hfits lattice rules .privileged ""
  have hmap : r.treeAsMap L snap.root = .ok view := by
    simpa only [Repository.treeAsMap, hlat, hrules, bind, Except.bind] using hview
  have hwhole : view = full ↔ ∀ path ∈ full, Passes lattice rules path := by
    rw [walkTreeFiltered_eq hfull hview, restrict_eq_self]
    exact forall₂_congr fun path _ => visible_privileged_iff
  rw [← hwhole]
  constructor
  · intro h
    exact Except.ok.inj (hmap.symm.trans h.map)
  · rintro rfl
    refine ⟨hmap, fun lattice' rules' hlat' hrules' => ?_, fun req p snap' hp hsnap' hroot => ?_,
      fun head' snap' hsnap' hroot => ?_⟩
    · obtain rfl : lattice = lattice' := Except.ok.inj (hlat.symm.trans hlat')
      obtain rfl : rules = rules' := Except.ok.inj (hrules.symm.trans hrules')
      exact hview
    · obtain ⟨hlat', hrules', -, -, snap'', hsnap'', hwalk, hcan⟩ :=
        Repository.prepare_eq_ok.mp hp
      obtain rfl : snap' = snap'' := Option.some.inj (Except.ok.inj (hsnap'.symm.trans hsnap''))
      obtain rfl : lattice = p.lattice := Except.ok.inj (hlat.symm.trans hlat')
      obtain rfl : rules = p.rules := Except.ok.inj (hrules.symm.trans hrules')
      rw [hroot, hview] at hwalk
      obtain rfl : view = p.paths := Except.ok.inj hwalk
      exact ⟨rfl, hcan⟩
    · simp only [Repository.oldPaths, hsnap', bind, Except.bind]
      rw [hroot]
      exact hmap

/-! ### Two gates on a timeline -/

/-- `merge_timelines`, a `check_merge` that finds a leak, and `advance_timeline` give an actor one
verdict on a timeline, when the repository has this lattice and these rules. -/
structure GatesAgree (lattice : LabelLattice) (rules : LabelRuleSet) (accessor : Accessor)
    (name : RefName) : Prop where
  merge : ∀ req : AdvanceRequest, req.name = name → req.accessor = accessor →
    (Repository.mayMerge accessor name = .ok () ↔ req.mayWriteTimeline lattice rules = true)
  check : ∀ (req : AdvanceRequest) (leaks : List PathAcl), req.name = name →
    req.accessor = accessor → leaks ≠ [] →
      (Repository.mergeVerdict accessor name leaks .allow = .requiresApproval leaks ↔
        req.mayWriteTimeline lattice rules = true)

lemma mayMerge_eq_ok {name : RefName} :
    Repository.mayMerge accessor name = .ok () ↔ accessor.canWriteTimeline name.asStr = true := by
  rw [Repository.mayMerge]
  split_ifs with h
  · simp [h]
  · simp [h]

lemma mergeVerdict_leaking {name : RefName} {leaks : List PathAcl} (h : leaks ≠ []) :
    Repository.mergeVerdict accessor name leaks .allow = .requiresApproval leaks ↔
      accessor.canWriteTimeline name.asStr = true := by
  rw [Repository.mergeVerdict, if_neg h]
  split_ifs with hw
  · simp [hw]
  · simp [hw]

/-- The two gates ask for the same right on two labels. -/
lemma gatesAgree_iff_canWrite {lattice : LabelLattice} {rules : LabelRuleSet} {name : RefName} :
    GatesAgree lattice rules accessor name ↔
      (accessor.canWrite (accessor.rules.labelForTimeline accessor.lattice name.asStr)
          ⟨.timeline, name.asStr⟩ = true ↔
        accessor.canWrite (rules.labelForTimeline lattice name.asStr) ⟨.timeline, name.asStr⟩ =
          true) := by
  constructor
  · intro h
    have hmerge := h.merge ⟨name, ⟨.replicate 0⟩, none, accessor⟩ rfl rfl
    rwa [mayMerge_eq_ok] at hmerge
  · intro h
    refine ⟨?_, ?_⟩
    · rintro ⟨_, _, _, _⟩ rfl rfl
      exact mayMerge_eq_ok.trans h
    · rintro ⟨_, _, _, _⟩ leaks rfl rfl hleaks
      exact (mergeVerdict_leaking hleaks).trans h

/-- **The gates of a merge and of an advance agree, whatever clearances the actor has, iff its own
rules and those of the repository give the timeline one label.** -/
theorem gates_agree_iff (lattice : LabelLattice) (rules : LabelRuleSet) (accessor : Accessor)
    (name : RefName) :
    (∀ clearances, GatesAgree lattice rules { accessor with clearances := clearances } name) ↔
      accessor.rules.labelForTimeline accessor.lattice name.asStr =
        rules.labelForTimeline lattice name.asStr := by
  simp only [gatesAgree_iff_canWrite]
  constructor
  · intro h
    by_contra hne
    -- a confined actor writes at the one label only
    have hgate := h ⟨[⟨accessor.rules.labelForTimeline accessor.lattice name.asStr, .write,
      none⟩], true⟩
    have hwrite : Capability.write.contains .write = true := by decide
    simp [Accessor.canWrite, Accessor.grants, scopeApplies, hwrite,
      LabelLattice.strictlyDominates, hne] at hgate
  · intro h clearances
    rw [h]

/-! ### A label that the privileged accessor does not know -/

/-- Three labels in a row. -/
def threeLevels : LabelLattice :=
  .new [.public_, ⟨"internal"⟩, .protected_]
    [⟨.public_, ⟨"internal"⟩⟩, ⟨⟨"internal"⟩, .protected_⟩]

/-- A snapshot of the nested tree. -/
def explainObjects : List Object := walkObjects ++ [.snapshot ⟨walkRoot, [], "", 0, ""⟩]

def explainLinked : Linked := .over explainObjects

def explainHead : ObjectId := (explainObjects.getD 3 (.blob [])).refId

/-- A repository with the snapshot. -/
def explainRepo (acls : AclBackend) : Repository :=
  { Repository.memory with objects := .holding explainLinked explainObjects, acls := acls }

/-- A backend with three levels, in which the sources are internal. -/
def threeAcls : AclBackend := ⟨.ok threeLevels, .ok ⟨[⟨.path, "src/**", ⟨"internal"⟩⟩]⟩, .ok []⟩

/-- Whoever may read what is internal. -/
def internalReader : Accessor := .fromParts threeLevels ⟨[]⟩ ⟨[⟨⟨"internal"⟩, .read, none⟩], false⟩

lemma explained_away : (threeLevels.validate = .ok () ∧
    ((explainRepo threeAcls).explainPath explainLinked internalReader explainHead "src/x").map
      (fun e => (e.present, e.read.allowed)) = .ok (false, true) ∧
    ((explainRepo threeAcls).getSnapshotFiltered explainLinked explainHead internalReader).map
      (Option.map fun view => view.visiblePaths.contains "src/x") = .ok (some true)) ∧
    threeLevels.labels.contains ⟨"internal"⟩ = true ∧
    ((explainRepo threeAcls).treeAsMap explainLinked walkRoot).map
      (fun m => m.contains "src/x") = .ok false := by
  decide +kernel

/-- **A path that is shown and said to be absent.** -/
theorem explain_denies_presence :
    threeLevels.validate = .ok () ∧
      ∃ e, (explainRepo threeAcls).explainPath explainLinked internalReader explainHead "src/x" =
          .ok e ∧
        ¬ ExplainAgrees explainLinked (explainRepo threeAcls) internalReader explainHead "src/x"
          e := by
  obtain ⟨⟨hvalid, hexplain, hview⟩, -⟩ := explained_away
  refine ⟨hvalid, ?_⟩
  cases he : (explainRepo threeAcls).explainPath explainLinked internalReader explainHead "src/x"
    with
  | error err =>
      rw [he] at hexplain
      cases hexplain
  | ok e =>
      refine ⟨e, rfl, ?_⟩
      rintro ⟨view, -, -, hfiltered, -, -, hagree, -⟩
      rw [hfiltered] at hview
      rw [he] at hexplain
      have hshown : view.visiblePaths.contains "src/x" = true :=
        Option.some.inj (Except.ok.inj hview)
      have habsent : e.present = false := congrArg Prod.fst (Except.ok.inj hexplain)
      have hpresent := (hagree.mpr (Std.ExtTreeMap.contains_iff_mem.mp hshown)).1
      rw [habsent] at hpresent
      cases hpresent

lemma explainRepo_objects (acls : AclBackend) :
    (explainRepo acls).objects = .holding explainLinked explainObjects := by
  rw [explainRepo]

/-- What the store holds, and the explanation under a shipped backend. -/
lemma explain_evaluated :
    (((snapshotPaths explainLinked (.holding explainLinked explainObjects) 2
        explainHead).toOption.bind id).any fun full => full.contains "src/x") = true ∧
      fitsDepth explainLinked (.holding explainLinked explainObjects) maxTreeDepth walkRoot =
        true ∧
      ((ObjectStore.holding explainLinked explainObjects).getSnapshot explainLinked
        explainHead).map (Option.map Snapshot.root) = .ok (some walkRoot) ∧
      ((explainRepo (.shipped ["src/**"] [] [])).explainPath explainLinked .new explainHead
        "src/x").toOption.isSome = true := by
  decide +kernel

lemma explain_full (acls : AclBackend) : ∃ full, snapshotPaths explainLinked
    (explainRepo acls).objects 2 explainHead = .ok (some full) ∧ "src/x" ∈ full := by
  rw [explainRepo_objects]
  obtain ⟨full, hfull, hpath⟩ := Option.any_eq_true _ _ |>.mp explain_evaluated.1
  refine ⟨full, ?_, Std.ExtTreeMap.contains_iff_mem.mp hpath⟩
  cases hs : snapshotPaths explainLinked (.holding explainLinked explainObjects) 2 explainHead with
  | error e => simp [hs, Except.toOption] at hfull
  | ok o =>
      rw [hs] at hfull
      exact congrArg Except.ok hfull

/-- **An internal path is lost.**  The lattice is valid and the rules use its labels; the snapshot
has the path, and the walk that should see everything does not return it. -/
theorem enumerated_three :
    threeLevels.validate = .ok () ∧
      (∃ rules, threeAcls.getLabelRuleset = .ok rules ∧
        ∀ rule ∈ rules.rules, rule.label ∈ threeLevels.labels) ∧
      ∃ full, snapshotPaths explainLinked (explainRepo threeAcls).objects 2 explainHead =
          .ok (some full) ∧ "src/x" ∈ full ∧
        ¬ Enumerated explainLinked (explainRepo threeAcls) walkRoot full := by
  obtain ⟨full, hfull, hpath⟩ := explain_full threeAcls
  obtain ⟨⟨hvalid, -⟩, hlabel, hlost⟩ := explained_away
  refine ⟨hvalid, ⟨_, rfl, fun rule hrule => ?_⟩, full, hfull, hpath, fun h => ?_⟩
  · rw [List.mem_singleton.mp hrule]
    exact Std.ExtTreeSet.mem_iff_contains.mpr hlabel
  rw [h.map] at hlost
  have hmissing : full.contains "src/x" = false := Except.ok.inj hlost
  rw [Std.ExtTreeMap.contains_iff_mem.mpr hpath] at hmissing
  cases hmissing

/-- Under a shipped backend the same walk returns everything. -/
theorem enumerated_iff_shipped :
    ∃ full, snapshotPaths explainLinked (explainRepo (.shipped ["src/**"] [] [])).objects 2
        explainHead = .ok (some full) ∧ "src/x" ∈ full ∧
      Enumerated explainLinked (explainRepo (.shipped ["src/**"] [] [])) walkRoot full := by
  obtain ⟨full, hfull, hpath⟩ := explain_full (.shipped ["src/**"] [] [])
  have hfits : fitsDepth explainLinked (explainRepo (.shipped ["src/**"] [] [])).objects
      maxTreeDepth walkRoot = true := by
    rw [explainRepo_objects]
    exact explain_evaluated.2.1
  have hroot : ((explainRepo (.shipped ["src/**"] [] [])).objects.getSnapshot explainLinked
      explainHead).map (Option.map Snapshot.root) = .ok (some walkRoot) := by
    rw [explainRepo_objects]
    exact explain_evaluated.2.2.1
  have hacls : (explainRepo (.shipped ["src/**"] [] [])).acls = .shipped ["src/**"] [] [] := by
    rw [explainRepo]
  have hlat : (explainRepo (.shipped ["src/**"] [] [])).acls.getLattice = .ok .twoPoint := by
    rw [hacls]
    rfl
  have hrules : (explainRepo (.shipped ["src/**"] [] [])).acls.getLabelRuleset =
      .ok (derivedRules ["src/**"] [] []) := by
    rw [hacls]
    rfl
  cases hsnap : (explainRepo (.shipped ["src/**"] [] [])).objects.getSnapshot explainLinked
      explainHead with
  | error e => simp [hsnap, Except.map] at hroot
  | ok o =>
  cases o with
  | none => simp [hsnap, Except.map] at hroot
  | some snap =>
  have hsame : snap.root = walkRoot := by simpa [hsnap, Except.map] using hroot
  rw [← hsame] at hfits ⊢
  refine ⟨full, hfull, hpath, (enumerated_iff hlat hrules hsnap hfits hfull).mpr fun path _ => ?_⟩
  exact Or.inr (LabelRuleSet.labelFor_derived_cases _ _ _ _ _)

/-! ### A protected timeline and an actor who does not know it -/

/-- Whoever may write what is public, by rules of its own. -/
def publicWriter : Accessor := .fromParts .twoPoint ⟨[]⟩ ⟨[⟨.public_, .write, none⟩], false⟩

/-- **The merge is let through, the advance is not.**  The repository protects the timeline. -/
theorem gates_agree_unaware :
    Repository.mayMerge publicWriter AdvanceSystem.raceName = .ok () ∧
      (⟨AdvanceSystem.raceName, explainHead, none, publicWriter⟩ :
        AdvanceRequest).mayWriteTimeline .twoPoint (derivedRules [] ["main"] []) = false ∧
      ¬ GatesAgree .twoPoint (derivedRules [] ["main"] []) publicWriter AdvanceSystem.raceName := by
  obtain ⟨hmerge, hadvance⟩ : Repository.mayMerge publicWriter AdvanceSystem.raceName = .ok () ∧
      (⟨AdvanceSystem.raceName, explainHead, none, publicWriter⟩ :
        AdvanceRequest).mayWriteTimeline .twoPoint (derivedRules [] ["main"] []) = false := by
    decide +kernel
  refine ⟨hmerge, hadvance, fun h => ?_⟩
  have := (h.merge ⟨AdvanceSystem.raceName, explainHead, none, publicWriter⟩ rfl rfl).mp hmerge
  rw [hadvance] at this
  cases this

/-- Under a shipped backend the explanation of the same path agrees. -/
theorem explain_agrees_shipped :
    ∃ e, (explainRepo (.shipped ["src/**"] [] [])).explainPath explainLinked .new explainHead
        "src/x" = .ok e ∧
      ExplainAgrees explainLinked (explainRepo (.shipped ["src/**"] [] [])) .new explainHead
        "src/x" e := by
  obtain ⟨e, he⟩ := exists_of_isOk explain_evaluated.2.2.2
  have hacls : (explainRepo (.shipped ["src/**"] [] [])).acls = .shipped ["src/**"] [] [] := by
    rw [explainRepo]
  exact ⟨e, he, (explain_agrees_iff he).mpr (explainable_of_shipped hacls)⟩

end Bole
