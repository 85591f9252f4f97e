import Bole.Repo.Nested
import Bole.Repo.ThreeWay

/-!
Whether a clean merge keeps every file it chose: `three_way_diff` (`src/repo/merge.rs`) takes
each path by itself, `build_tree` (`src/repo/ephemeral.rs`) nests them.

* `mem_merged`: which paths a merge without conflicts keeps;
* `clean_merge_built_iff`: its tree has all of them exactly if they nest;
* `clean_merge_loses_file`: a file on one side and a directory of the same name on the other.
-/

namespace Bole

/-- The paths a merge without conflicts keeps: those on both sides, and the new ones. -/
def Kept (base ours theirs : BTreeMap String ObjectId) : Set String :=
  {p | (p ∈ ours ∧ p ∈ theirs) ∨ p ∉ base ∧ (p ∈ ours ∨ p ∈ theirs)}

/-- The same for the entries that the three sides give a path. -/
def KeepsEntry (anc our thr : Option ObjectId) : Prop :=
  (our.isSome ∧ thr.isSome) ∨ anc = none ∧ (our.isSome ∨ thr.isSome)

lemma keepsEntry_of_settle {anc our thr e : Option ObjectId} (h : settle anc our thr = some e) :
    KeepsEntry anc our thr ↔ e.isSome := by
  rw [settle] at h
  split_ifs at h with heq hour hthr
  · cases h
    subst heq
    simp [KeepsEntry]
  · cases h
    subst hour
    cases our with
    | none => simp [KeepsEntry]
    | some o => simp [KeepsEntry]
  · cases h
    subst hthr
    cases thr with
    | none => simp [KeepsEntry]
    | some t => simp [KeepsEntry]

variable {base ours theirs : BTreeMap String ObjectId}

/-- Without conflicts every path is settled. -/
lemma settledEntry_of_clean (hclean : (threeWayDiff base ours theirs).conflicts = [])
    (path : String) : ∃ e, settledEntry base ours theirs path = some e := by
  have hnone : conflictAt base ours theirs path = none := by
    rw [← Option.toList_eq_nil_iff, ← conflictsAt_threeWayDiff, MergeResult.conflictsAt, hclean]
    rfl
  rw [conflictAt] at hnone
  split_ifs at hnone with hs
  exact Option.ne_none_iff_exists'.mp hs

/-- **What a merge without conflicts keeps.** -/
lemma mem_merged (hclean : (threeWayDiff base ours theirs).conflicts = []) (p : String) :
    p ∈ (threeWayDiff base ours theirs).merged ↔ p ∈ Kept base ours theirs := by
  have hmem : ∀ m : BTreeMap String ObjectId, m[p]?.isSome = true ↔ p ∈ m := fun m =>
    Std.ExtTreeMap.mem_iff_isSome_getElem?.symm
  have hkeeps : KeepsEntry base[p]? ours[p]? theirs[p]? ↔ p ∈ Kept base ours theirs := by
    have hbase : base[p]? = none ↔ p ∉ base := by
      rw [← hmem base, Option.not_isSome_iff_eq_none]
    rw [KeepsEntry, hmem, hmem, hbase]
    rfl
  obtain ⟨e, he⟩ := settledEntry_of_clean hclean p
  rw [← hmem, threeWayDiff_merged, he, Option.join_some, ← hkeeps]
  exact (keepsEntry_of_settle he).symm

/-! ### The tree of a clean merge -/

variable {L : Linked} {s : ObjectStore}

/-- **The tree of a clean merge has its files exactly if they nest.**  Building the tree
succeeds where its trees can be stored; the paths of any snapshot made of it are those of the
merged map if and only if no kept path begins with a slash or lies below another one. -/
theorem clean_merge_built_iff (hclean : (threeWayDiff base ours theirs).conflicts = [])
    (hready : s.Ready L ((dirNode (threeWayDiff base ours theirs).merged).trees L))
    (mtime : Option ℕ) :
    ∃ root s', buildTree L s (threeWayDiff base ours theirs).merged mtime = (.ok root, s') ∧
      ∀ t snapshotId snap, s'.Grows L t → t.get L snapshotId = .ok (some (.snapshot snap)) →
        snap.root = root →
        ((∃ fuel, snapshotPaths L t fuel snapshotId =
            .ok (some (threeWayDiff base ours theirs).merged)) ↔
          Nests (Kept base ours theirs)) := by
  have hkept : {p | p ∈ (threeWayDiff base ours theirs).merged} = Kept base ours theirs :=
    Set.ext fun p => mem_merged hclean p
  obtain ⟨root, s', hbuild, -, hpaths⟩ := snapshotPaths_built hready mtime
  exact ⟨root, s', hbuild, hkept ▸ hpaths⟩

/-! ### A file and a directory of one name -/

namespace CleanMerge

/-- A file. -/
def file : Object := .blob (ascii "data")

/-- A directory with that file as `b`, and the root it is in as `a`. -/
def dir : Tree := ⟨(∅ : BTreeMap String TreeEntry).insert "b" ⟨file.refId, .blob⟩⟩
def dirRoot : Tree :=
  ⟨(∅ : BTreeMap String TreeEntry).insert "a" ⟨(Object.tree dir).refId, .tree⟩⟩

/-- A root with that file as `a`. -/
def fileRoot : Tree := ⟨(∅ : BTreeMap String TreeEntry).insert "a" ⟨file.refId, .blob⟩⟩

/-- A root with both, under different names. -/
def bothRoot : Tree :=
  ⟨((∅ : BTreeMap String TreeEntry).insert "c" ⟨file.refId, .blob⟩).insert "a"
    ⟨(Object.tree dir).refId, .tree⟩⟩

/-- Snapshots of the two roots that the merges below make. -/
def snapshotOf (root : Tree) : Snapshot := ⟨(Object.tree root).refId, [], "x", 0, ""⟩

def objects : List Object :=
  [file, .tree dir, .tree dirRoot, .tree fileRoot, .tree bothRoot, .tree ⟨∅⟩,
    .snapshot (snapshotOf dirRoot), .snapshot (snapshotOf bothRoot)]

/-- The crates with a codec for these objects, and a store that holds them. -/
def linked : Linked := .over objects
def store : ObjectStore := .holding linked objects

/-- The sides: a file of the given name, and the file in the directory. -/
def fileSide (name : String) : BTreeMap String ObjectId :=
  (∅ : BTreeMap String ObjectId).insert name file.refId
def dirSide : BTreeMap String ObjectId := (∅ : BTreeMap String ObjectId).insert "a/b" file.refId

/-- The merge of the two, from nothing. -/
def merge (name : String) : MergeResult := threeWayDiff ∅ (fileSide name) dirSide

/-- Whether the codec reads a tree back. -/
def readsBack (t : Tree) : Bool :=
  match linked.codec.deserialize (linked.treeBytes t) with
  | .ok (.tree u) => decide (u.entries = t.entries)
  | _ => false

lemma readsBack_eq {t : Tree} (h : readsBack t = true) :
    linked.codec.deserialize (linked.treeBytes t) = .ok (.tree t) := by
  rw [readsBack] at h
  split at h
  · next u hu =>
      have hentries : u.entries = t.entries := of_decide_eq_true h
      rw [hu, show u = t from congrArg Tree.mk hentries]
  · cases h

/-- Trees that the store has and the codec reads back can be stored. -/
lemma ready {trees : List Tree}
    (h : ∀ t ∈ trees, readsBack t = true ∧
      (∀ u ∈ trees, linked.treeId t = linked.treeId u → linked.treeBytes t = linked.treeBytes u) ∧
      store.exists_ (linked.treeId t) = .ok true ∧
      store.getRaw linked (linked.treeId t) = .ok (some (linked.treeBytes t))) :
    store.Ready linked trees where
  encodes _ _ := rfl
  faithful := by
    have hbytes : ∀ (t : Tree) (b : Bytes), linked.codec.serialize (.tree t) = .ok b →
        linked.treeBytes t = b := by
      intro t b hb
      rw [Linked.treeBytes, hb]
    constructor
    · rintro o ⟨t, ht, rfl⟩ b hb
      rw [← hbytes t b hb]
      exact readsBack_eq (h t ht).1
    · rintro o ⟨t, ht, rfl⟩ o' ⟨u, hu, rfl⟩ b b' hb hb'
      rw [← hbytes t b hb, ← hbytes u b' hb']
      exact (h t ht).2.1 u hu
    · rintro o ⟨t, ht, rfl⟩ b hb -
      rw [← hbytes t b hb]
      exact (h t ht).2.2.2
  answers t ht := ⟨true, (h t ht).2.2.1⟩

/-- The snapshot under an id. -/
def snapshotAt (s : ObjectStore) (id : ObjectId) : Option Snapshot :=
  match s.get linked id with
  | .ok (some (.snapshot snap)) => some snap
  | _ => none

lemma snapshotAt_eq {s : ObjectStore} {id : ObjectId} {snap : Snapshot}
    (h : snapshotAt s id = some snap) : s.get linked id = .ok (some (.snapshot snap)) := by
  rw [snapshotAt] at h
  split at h
  · next snap' hsnap =>
      rw [hsnap, Option.some.inj h]
  · cases h

end CleanMerge

open CleanMerge in
/-- Two files whose paths nest are both there after the merge. -/
theorem clean_merge_built_apart :
    ∃ root s' snapshotId, buildTree linked store (merge "c").merged none = (.ok root, s') ∧
      ∃ fuel, snapshotPaths linked s' fuel snapshotId = .ok (some (merge "c").merged) := by
  have hclean : (merge "c").conflicts = [] := by decide +kernel
  have hready : store.Ready linked ((dirNode (merge "c").merged).trees linked) :=
    ready (by decide +kernel)
  have hroot : (buildTree linked store (merge "c").merged none).1 =
      .ok (snapshotOf bothRoot).root := by decide +kernel
  have hsnap : snapshotAt (buildTree linked store (merge "c").merged none).2
      (Object.snapshot (snapshotOf bothRoot)).refId = some (snapshotOf bothRoot) := by
    decide +kernel
  have hkeys : ∀ p ∈ Kept ∅ (fileSide "c") dirSide, p ∈ ["c", "a/b"] := by
    rintro p hp
    have hp' : p ∈ fileSide "c" ∨ p ∈ dirSide := hp.elim (fun h => Or.inl h.1) fun h => h.2
    simp only [fileSide, dirSide, Std.ExtTreeMap.mem_insert, Std.LawfulEqOrd.compare_eq_iff_eq,
      Std.ExtTreeMap.not_mem_empty, or_false] at hp'
    simpa [eq_comm] using hp'
  have hnests : ∀ q ∈ ["c", "a/b"], ¬ Under "" q ∧ ∀ p ∈ ["c", "a/b"], ¬ Under p q := by
    decide +kernel
  obtain ⟨root, s', hbuild, hpaths⟩ := clean_merge_built_iff hclean hready none
  obtain ⟨hok, hs⟩ := Prod.ext_iff.mp hbuild
  refine ⟨root, s', _, hbuild, (hpaths s' _ (snapshotOf bothRoot) (.refl _ _)
    (hs ▸ snapshotAt_eq hsnap) (Except.ok.inj (hroot.symm.trans hok))).mpr fun q hq => ?_⟩
  obtain ⟨hslash, hbelow⟩ := hnests q (hkeys q hq)
  exact ⟨hslash, fun p hp => hbelow p (hkeys p hp)⟩

open CleanMerge in
/-- **A clean merge that loses a file.**  One side adds the file `a`, the other the file `a/b`;
the merge keeps both and reports no conflict, and the tree built of it has only the second. -/
theorem clean_merge_loses_file :
    (walkTree linked store 1 (Object.tree ⟨∅⟩).refId "" ∅ = .ok (some ∅) ∧
        walkTree linked store 1 (Object.tree fileRoot).refId "" ∅ = .ok (some (fileSide "a")) ∧
        walkTree linked store 2 (Object.tree dirRoot).refId "" ∅ = .ok (some dirSide)) ∧
      (threeWayDiff ∅ (fileSide "a") dirSide).conflicts = [] ∧
      "a" ∈ (threeWayDiff ∅ (fileSide "a") dirSide).merged ∧
      ∃ root s' snapshotId snap,
        buildTree linked store (threeWayDiff ∅ (fileSide "a") dirSide).merged none =
          (.ok root, s') ∧
        s'.get linked snapshotId = .ok (some (.snapshot snap)) ∧ snap.root = root ∧
        (∃ fuel paths, snapshotPaths linked s' fuel snapshotId = .ok (some paths) ∧ "a" ∉ paths) ∧
        ¬ ∃ fuel, snapshotPaths linked s' fuel snapshotId =
          .ok (some (threeWayDiff ∅ (fileSide "a") dirSide).merged) := by
  have hroot : (buildTree linked store (threeWayDiff ∅ (fileSide "a") dirSide).merged none).1 =
      .ok (snapshotOf dirRoot).root := by decide +kernel
  have hsnap : snapshotAt
      (buildTree linked store (threeWayDiff ∅ (fileSide "a") dirSide).merged none).2
      (Object.snapshot (snapshotOf dirRoot)).refId = some (snapshotOf dirRoot) := by
    decide +kernel
  have hpaths : snapshotPaths linked
      (buildTree linked store (threeWayDiff ∅ (fileSide "a") dirSide).merged none).2 2
      (Object.snapshot (snapshotOf dirRoot)).refId = .ok (some dirSide) := by
    decide +kernel
  have hlost : "a" ∉ dirSide := by decide +kernel
  have hkept : "a" ∈ (threeWayDiff ∅ (fileSide "a") dirSide).merged := by decide +kernel
  obtain ⟨s', hs⟩ :
      ∃ s', (buildTree linked store (threeWayDiff ∅ (fileSide "a") dirSide).merged none).2 = s' :=
    ⟨_, rfl⟩
  rw [hs] at hsnap hpaths
  refine ⟨by decide +kernel, by decide +kernel, hkept, _, s', _, snapshotOf dirRoot,
    Prod.ext hroot hs, snapshotAt_eq hsnap, rfl, ⟨2, dirSide, hpaths, hlost⟩, ?_⟩
  rintro ⟨fuel, h⟩
  exact hlost (snapshotPaths_unique hpaths h ▸ hkept)

end Bole
