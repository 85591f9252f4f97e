import Bole.Acl.TwoPoint
import Bole.Repo.Advance

/-!
What an advance publishes (`advance_timeline` of `src/repo/mod.rs`).

The checks of an advance cover the paths its walk of the new tree has found, and the walk passes
over an object that is not there.  `apply_push_ops` asks for the whole closure before it moves a
ref; the local call does not.

* `visible_shipped`: with either shipped backend the privileged walk is shown every path;
* `advance_publishes_checked_iff`: an advance that returns `Ok` has published a complete tree
  with every path checked exactly when its walk came to no missing object and hid no path the
  accessor may not write.
-/

namespace Bole

open Collect

namespace Repository

variable {L : Linked} {r : Repository} {accessor : Accessor} {root : ObjectId}

/-- Every object that the tree entries below the root name is in the store. -/
def TreeComplete (L : Linked) (r : Repository) (root : ObjectId) : Prop :=
  ∀ id p, Below L r.objects root "" id p → ∃ obj, r.objects.get L id = .ok (some obj)

/-- Every path shown below the root, now or when more objects have arrived, passes the write
check of the accessor. -/
def PathsChecked (L : Linked) (r : Repository) (accessor : Accessor) (root : ObjectId) : Prop :=
  ∀ lattice rules, r.acls.getLattice = .ok lattice → r.acls.getLabelRuleset = .ok rules →
    ∀ later, r.objects.Grows L later → ∀ path, ShowsPath L later root "" path →
      accessor.canWrite (rules.labelForPath lattice path) ⟨.path, path⟩ = true

/-- What the walk of an advance has to find: it never takes its `continue` on a missing object,
and a path that its privileged accessor is not shown is one the caller may write. -/
structure WalkCovers (L : Linked) (r : Repository) (accessor : Accessor) (root : ObjectId) :
    Prop where
  noSkip : ∀ item, Visits (openBounded L r.objects) [(root, "", 0)] item →
    r.objects.get L item.1 ≠ .ok none
  hidden : ∀ lattice rules, r.acls.getLattice = .ok lattice →
    r.acls.getLabelRuleset = .ok rules → ∀ path, ShowsPath L r.objects root "" path →
      visible lattice rules .privileged path = false →
        accessor.canWrite (rules.labelForPath lattice path) ⟨.path, path⟩ = true

/-! ### The shipped backends hide nothing -/

/-- **With either shipped backend the privileged accessor is shown every path.** -/
theorem visible_shipped (pathAcls timelineAcls secretAcls : List String) (path : String) :
    visible .twoPoint (derivedRules pathAcls timelineAcls secretAcls) .privileged path = true := by
  rw [visible_iff]
  exact Or.inr (privileged_canRead.mpr (LabelRuleSet.labelFor_derived_cases _ _ _ _ _))

/-! ### What an advance publishes -/

lemma advanceTimeline_objects (L : Linked) (r : Repository) (name : RefName)
    (snapshotId : ObjectId) (accessor : Accessor) :
    (r.advanceTimeline L name snapshotId accessor).2.objects = r.objects := by
  rw [advanceTimeline, advanceTimelineExpecting]
  split
  · exact AdvanceCall.record_objects _ _
  · exact AdvanceCall.commitAdvance_objects _ _ _

lemma advanceTimeline_acls (L : Linked) (r : Repository) (name : RefName)
    (snapshotId : ObjectId) (accessor : Accessor) :
    (r.advanceTimeline L name snapshotId accessor).2.acls = r.acls := by
  have hrecord : ∀ (r : Repository) (e : Option AuditEvent), (r.record e).acls = r.acls := by
    intro r e
    unfold record
    split <;> rfl
  rw [advanceTimeline, advanceTimelineExpecting]
  split
  · exact hrecord _ _
  · rw [commitAdvance]
    split
    · rfl
    · exact hrecord _ _

/-- The walk comes to no missing object exactly when the tree is complete. -/
lemma treeComplete_iff {keep : String → Bool} {m : BTreeMap String ObjectId}
    (hwalk : walkBounded L r.objects keep root "" ∅ = .ok m) :
    r.TreeComplete L root ↔ ∀ item, Visits (openBounded L r.objects) [(root, "", 0)] item →
      r.objects.get L item.1 ≠ .ok none := by
  constructor
  · intro hall item hv hnone
    obtain ⟨obj, hobj⟩ := hall _ _ (below_of_visits hv)
    rw [hobj] at hnone
    cases hnone
  · intro hno id p hb
    obtain ⟨depth, hv⟩ := visits_of_below hwalk hb
    obtain ⟨o, ho⟩ := getTree_of_visits hwalk hv
    have hne := hno _ hv
    dsimp only at ho hne
    rw [ObjectStore.getTree] at ho
    cases hg : r.objects.get L id with
    | error e => simp [hg] at ho
    | ok found =>
        cases found with
        | none => exact absurd hg hne
        | some obj => exact ⟨obj, rfl⟩

/-- **What an advance publishes.**  When the call returns `Ok`, every tree object below the new
head is in the store and every path the snapshot will ever show has been checked, exactly when
the walk came to no missing object and hid no path the accessor may not write. -/
theorem advance_publishes_checked_iff {name : RefName} {snapshotId : ObjectId} {snap : Snapshot}
    (h : (r.advanceTimeline L name snapshotId accessor).1 = .ok ())
    (hsnap : r.objects.getSnapshot L snapshotId = .ok (some snap)) :
    (TreeComplete L (r.advanceTimeline L name snapshotId accessor).2 snap.root ∧
        PathsChecked L (r.advanceTimeline L name snapshotId accessor).2 accessor snap.root) ↔
      WalkCovers L r accessor snap.root := by
  obtain ⟨p, timeline, registry, hp, -⟩ := advanceTimelineExpecting_ok_iff.mp h
  obtain ⟨hlat, hrules, -, -, snap', hsnap', hwalk, hpaths⟩ := prepare_eq_ok.mp hp
  obtain rfl : snap = snap' := by simpa [hsnap] using hsnap'
  have hcomplete : TreeComplete L (r.advanceTimeline L name snapshotId accessor).2 snap.root ↔
      r.TreeComplete L snap.root := by
    rw [TreeComplete, TreeComplete, advanceTimeline_objects]
  have hchecked : PathsChecked L (r.advanceTimeline L name snapshotId accessor).2 accessor
      snap.root ↔ r.PathsChecked L accessor snap.root := by
    rw [PathsChecked, PathsChecked, advanceTimeline_objects, advanceTimeline_acls]
  rw [hcomplete, hchecked]
  constructor
  · rintro ⟨hall, hcheck⟩
    refine ⟨(treeComplete_iff hwalk).mp hall, fun lattice rules hl hr path hshow _ => ?_⟩
    exact hcheck lattice rules hl hr _ (.refl L _) path hshow
  · intro hcov
    have hall := (treeComplete_iff hwalk).mpr hcov.noSkip
    refine ⟨hall, fun lattice rules hl hr later hgrows path hshow => ?_⟩
    obtain rfl : p.lattice = lattice := Except.ok.inj (hlat.symm.trans hl)
    obtain rfl : p.rules = rules := Except.ok.inj (hrules.symm.trans hr)
    -- nothing new can appear below a complete tree
    have hnow := hshow.of_grows hgrows hall
    cases hv : visible p.lattice p.rules .privileged path with
    | true => exact hpaths path ((mem_walkTreeFiltered hwalk).mpr ⟨hv, hnow⟩)
    | false => exact hcov.hidden p.lattice p.rules hl hr path hnow hv

/-! ### A tree that arrives later -/

/-- A tree with a protected file, a snapshot of it, and an empty tree with its snapshot. -/
def publishObjects : List Object :=
  let file : Object := .blob (ascii "data")
  let tree : Object :=
    .tree ⟨(∅ : BTreeMap String TreeEntry).insert "secrets/key" ⟨file.refId, .blob⟩⟩
  let empty : Object := .tree ⟨∅⟩
  [tree, .snapshot ⟨tree.refId, [], "", 0, "new"⟩, empty, .snapshot ⟨empty.refId, [], "", 0, "old"⟩]

/-- The crates with a codec for these objects. -/
def publishLinked : Linked := .over publishObjects

def publishId (i : ℕ) : ObjectId := (publishObjects.getD i (.blob [])).refId

/-- Whoever may write what is public. -/
def publicWriter : Accessor := .fromParts .twoPoint ⟨[]⟩ ⟨[⟨.public_, .readWrite, none⟩], false⟩

/-- A repository with the timeline at the empty snapshot, holding the given objects; what is
below `secrets` is protected. -/
def publishedRepo (objects : List Object) : Repository :=
  { Repository.memory with
    objects := .holding publishLinked objects
    acls := .shipped ["secrets/**"] [] []
    refs := ⟨(∅ : BTreeMap RefName Ref).insert AdvanceSystem.raceName
      (.timeline ⟨publishId 3, .unrestricted, 0, "persistent", none⟩)⟩ }

lemma publishedRepo_acls (objects : List Object) :
    (publishedRepo objects).acls = .shipped ["secrets/**"] [] [] := rfl

lemma publishedRepo_wf (objects : List Object) : (publishedRepo objects).objects.WF publishLinked :=
  ObjectStore.holding_wf publishLinked objects

/-- The repository without the new tree. -/
def publishMissing : Repository := publishedRepo (publishObjects.drop 1)

/-- The store once the tree has arrived. -/
def publishLater : ObjectStore :=
  (publishMissing.objects.putRaw publishLinked
    (Postcard.object (publishObjects.getD 0 (.blob []))) none).2

/-- The advanced repository. -/
def publishEnd : Repository :=
  (publishMissing.advanceTimeline publishLinked AdvanceSystem.raceName (publishId 1)
    publicWriter).2

lemma publish_evaluated :
    ((publishMissing.advanceTimeline publishLinked AdvanceSystem.raceName (publishId 1)
        publicWriter).1 = .ok () ∧
      publishMissing.objects.getSnapshot publishLinked (publishId 1) =
        .ok (some ⟨publishId 0, [], "", 0, "new"⟩) ∧
      publishMissing.objects.getRaw publishLinked (publishId 0) = .ok none) ∧
    (publishLater.getTree publishLinked (publishId 0)).map (Option.map fun t => t.files "") =
        .ok (some [("secrets/key", (Object.blob (ascii "data")).refId)]) ∧
      publicWriter.canWrite ((derivedRules ["secrets/**"] [] []).labelForPath .twoPoint
        "secrets/key") ⟨.path, "secrets/key"⟩ = false := by
  decide +kernel

/-- The tree shows the protected file as soon as it is there. -/
lemma publish_shows : ShowsPath publishLinked publishLater (publishId 0) "" "secrets/key" := by
  have hfiles := publish_evaluated.2.1
  cases hg : publishLater.getTree publishLinked (publishId 0) with
  | error e =>
      rw [hg] at hfiles
      cases hfiles
  | ok o =>
      cases o with
      | none =>
          rw [hg] at hfiles
          cases hfiles
      | some t =>
          rw [hg] at hfiles
          have ht : t.files "" = [("secrets/key", (Object.blob (ascii "data")).refId)] :=
            Option.some.inj (Except.ok.inj hfiles)
          exact ⟨publishId 0, "", t, _, .root, hg, by rw [ht]; exact List.mem_singleton_self _⟩

/-- **A tree that is not there is published unchecked.**  The advance returns `Ok`, the root of
the new head is missing, and once it arrives the snapshot shows a file the caller may not
write. -/
theorem advance_publishes_unchecked :
    (publishMissing.advanceTimeline publishLinked AdvanceSystem.raceName (publishId 1)
        publicWriter).1 = .ok () ∧
      publishMissing.objects.getSnapshot publishLinked (publishId 1) =
        .ok (some ⟨publishId 0, [], "", 0, "new"⟩) ∧
      ¬ TreeComplete publishLinked publishEnd (publishId 0) ∧
      ¬ PathsChecked publishLinked publishEnd publicWriter (publishId 0) := by
  have hobjects : publishEnd.objects = publishMissing.objects := by
    rw [publishEnd, advanceTimeline_objects]
  have hacls : publishEnd.acls = .shipped ["secrets/**"] [] [] := by
    rw [publishEnd, advanceTimeline_acls, publishMissing, publishedRepo_acls]
  obtain ⟨⟨hok, hsnap, hroot⟩, -, hcanWrite⟩ := publish_evaluated
  refine ⟨hok, hsnap, fun hall => ?_, fun hcheck => ?_⟩
  · obtain ⟨obj, hobj⟩ := hall _ _ .root
    rw [hobjects, ObjectStore.get_of_getRaw_none hroot] at hobj
    cases hobj
  · have hgrows : publishEnd.objects.Grows publishLinked publishLater := by
      rw [hobjects, publishLater]
      exact ObjectStore.putRaw_grows (publishedRepo_wf _) _ _
    have hwrite := hcheck .twoPoint (derivedRules ["secrets/**"] [] []) (by rw [hacls]; rfl)
      (by rw [hacls]; rfl) publishLater hgrows "secrets/key" publish_shows
    rw [hcanWrite] at hwrite
    cases hwrite

/-! ### A tree that is there -/

lemma race_advance :
    (AdvanceSystem.raceRepo.advanceTimeline AdvanceSystem.raceLinked AdvanceSystem.raceName
        (AdvanceSystem.raceId 2) AdvanceSystem.raceWriter).1 = .ok () ∧
      AdvanceSystem.raceRepo.objects.getSnapshot AdvanceSystem.raceLinked
          (AdvanceSystem.raceId 2) = .ok (some ⟨AdvanceSystem.raceId 0,
            [AdvanceSystem.raceId 1], "", 1, "left"⟩) ∧
      (AdvanceSystem.raceRepo.objects.getTree AdvanceSystem.raceLinked
          (AdvanceSystem.raceId 0)).map (Option.map fun t => t.entries.toList) =
        .ok (some []) := by
  decide +kernel

/-- Advancing to a snapshot of an empty tree that is there publishes it complete and checked. -/
theorem advance_publishes_checked_iff_race :
    ∃ r' : Repository, r' = (AdvanceSystem.raceRepo.advanceTimeline AdvanceSystem.raceLinked
        AdvanceSystem.raceName (AdvanceSystem.raceId 2) AdvanceSystem.raceWriter).2 ∧
      TreeComplete AdvanceSystem.raceLinked r' (AdvanceSystem.raceId 0) ∧
      PathsChecked AdvanceSystem.raceLinked r' AdvanceSystem.raceWriter
        (AdvanceSystem.raceId 0) := by
  obtain ⟨hok, hsnap, htree⟩ := race_advance
  refine ⟨_, rfl, (advance_publishes_checked_iff hok hsnap).mpr ?_⟩
  obtain ⟨t, ht, hentries⟩ : ∃ t, AdvanceSystem.raceRepo.objects.getTree
      AdvanceSystem.raceLinked (AdvanceSystem.raceId 0) = .ok (some t) ∧
        t.entries.toList = [] := by
    cases hg : AdvanceSystem.raceRepo.objects.getTree AdvanceSystem.raceLinked
        (AdvanceSystem.raceId 0) with
    | error e =>
        rw [hg] at htree
        cases htree
    | ok o =>
        cases o with
        | none =>
            rw [hg] at htree
            cases htree
        | some t =>
            rw [hg] at htree
            exact ⟨t, rfl, Option.some.inj (Except.ok.inj htree)⟩
  have hbelow : ∀ id p, Below AdvanceSystem.raceLinked AdvanceSystem.raceRepo.objects
      (AdvanceSystem.raceId 0) "" id p → id = AdvanceSystem.raceId 0 := by
    intro id p hb
    induction hb with
    | root => rfl
    | @sub id y p q u _ hu hsub ih =>
        rw [ih, ht] at hu
        obtain rfl : t = u := by simpa using hu
        rw [Tree.subtrees, hentries] at hsub
        cases hsub
  refine ⟨fun item hv hnone => ?_, fun lattice rules hl hr path hshow hhid => ?_⟩
  · rw [hbelow _ _ (below_of_visits hv), getTree_eq_some.mp ht] at hnone
    cases hnone
  · cases hl
    cases hr
    exact absurd (visible_shipped [] [] [] path) (by simp [hhid])

end Repository

end Bole
