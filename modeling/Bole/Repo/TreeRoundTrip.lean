import Bole.Repo.CleanMerge

/-!
Flat maps and the trees that `build_tree` makes of them (`src/repo/ephemeral.rs`).

* `snapshotPaths_buildTree`: a map whose paths have no empty segments and do not lie below one
  another comes back as it was;
* `buildTree_injective`: such maps are told apart by the roots of their trees.
-/

namespace Bole

variable {L : Linked} {s : ObjectStore} {files files' : BTreeMap String ObjectId}

/-- A path that begins with a slash has an empty segment. -/
lemma not_under_empty {path : String} (h : "" ∉ pathSegments path) : ¬ Under "" path := by
  intro hu
  have hempty : pathSegments "" = [""] := pathSegments_name (by simp)
  obtain ⟨rest, hrest⟩ := (under_iff.mp hu).1
  rw [hempty] at hrest
  exact h (hrest ▸ List.mem_append_left _ (List.mem_singleton_self _))

/-- Paths without empty segments none of which is a directory of another. -/
def Flat (files : BTreeMap String ObjectId) : Prop :=
  (∀ p ∈ files, "" ∉ pathSegments p) ∧ ∀ p ∈ files, ∀ q ∈ files, ¬ Under p q

lemma Flat.nests (h : Flat files) : Nests {p | p ∈ files} := fun q hq =>
  ⟨not_under_empty (h.1 q hq), fun p hp => h.2 p hp q hq⟩

/-- **The round trip.**  Where its trees can be stored, the tree of a flat map is built, and the
paths of every snapshot with its root are the map. -/
theorem snapshotPaths_buildTree (hflat : Flat files)
    (hready : s.Ready L ((dirNode files).trees L)) (mtime : Option ℕ) :
    ∃ root s', buildTree L s files mtime = (.ok root, s') ∧
      ∀ t snapshotId snap, s'.Grows L t → t.get L snapshotId = .ok (some (.snapshot snap)) →
        snap.root = root →
        (∃ fuel, snapshotPaths L t fuel snapshotId = .ok (some files)) ∧
          ∀ fuel paths, snapshotPaths L t fuel snapshotId = .ok (some paths) → paths = files := by
  obtain ⟨root, s', hbuild, -, hpaths⟩ := snapshotPaths_built hready mtime
  refine ⟨root, s', hbuild, fun t snapshotId snap hgrows hsnap hroot => ?_⟩
  obtain ⟨fuel, hfuel⟩ := (hpaths t snapshotId snap hgrows hsnap hroot).mpr hflat.nests
  exact ⟨⟨fuel, hfuel⟩, fun fuel' paths h => snapshotPaths_unique h hfuel⟩

namespace CleanMerge

/-- A file beside a directory with a file. -/
def bothSides : BTreeMap String ObjectId := (fileSide "c").insert "a/b" file.refId

lemma flat_bothSides : Flat bothSides := by
  have hkeys : ∀ p ∈ bothSides, p ∈ ["c", "a/b"] := by
    intro p hp
    simp only [bothSides, fileSide, Std.ExtTreeMap.mem_insert,
      Std.LawfulEqOrd.compare_eq_iff_eq, Std.ExtTreeMap.not_mem_empty, or_false] at hp
    simpa [eq_comm, or_comm] using hp
  have hflat : ∀ q ∈ ["c", "a/b"], "" ∉ pathSegments q ∧ ∀ p ∈ ["c", "a/b"], ¬ Under q p := by
    decide +kernel
  exact ⟨fun p hp => (hflat p (hkeys p hp)).1,
    fun p hp q hq => (hflat p (hkeys p hp)).2 q (hkeys q hq)⟩

/-- What is evaluated of them: the trees can be stored, and their root is that of the snapshot. -/
lemma bothSides_evaluated :
    (∀ t ∈ (dirNode bothSides).trees linked, readsBack t = true ∧
      (∀ u ∈ (dirNode bothSides).trees linked, linked.treeId t = linked.treeId u →
        linked.treeBytes t = linked.treeBytes u) ∧
      store.exists_ (linked.treeId t) = .ok true ∧
      store.getRaw linked (linked.treeId t) = .ok (some (linked.treeBytes t))) ∧
    (buildTree linked store bothSides none).1 = .ok (snapshotOf bothRoot).root ∧
    snapshotAt (buildTree linked store bothSides none).2
      (Object.snapshot (snapshotOf bothRoot)).refId = some (snapshotOf bothRoot) := by
  decide +kernel

lemma ready_bothSides : store.Ready linked ((dirNode bothSides).trees linked) :=
  ready bothSides_evaluated.1

end CleanMerge

open CleanMerge in
/-- A file and a directory come back. -/
theorem snapshotPaths_buildTree_both :
    ∃ root s', buildTree linked store bothSides none = (.ok root, s') ∧
      ∃ snapshotId fuel, snapshotPaths linked s' fuel snapshotId = .ok (some bothSides) := by
  obtain ⟨-, hroot, hsnap⟩ := bothSides_evaluated
  obtain ⟨root, s', hbuild, hpaths⟩ := snapshotPaths_buildTree flat_bothSides ready_bothSides none
  obtain ⟨hok, hs⟩ := Prod.ext_iff.mp hbuild
  obtain ⟨⟨fuel, hfuel⟩, -⟩ := hpaths s' _ (snapshotOf bothRoot) (.refl _ _)
    (hs ▸ snapshotAt_eq hsnap) (Except.ok.inj (hroot.symm.trans hok))
  exact ⟨root, s', hbuild, _, fuel, hfuel⟩

/-! ### Maps and roots -/

/-- **Flat maps are told apart by their roots.** -/
theorem buildTree_injective (hflat : Flat files) (hflat' : Flat files')
    (hready : s.Ready L ((dirNode files).trees L ++ (dirNode files').trees L)) (mtime : Option ℕ)
    (h : (buildTree L s files mtime).1 = (buildTree L s files' mtime).1) : files = files' := by
  obtain ⟨s₁, hstore, hready₁, hreads⟩ : ∃ s₁, storeDir L mtime s (dirNode files) = _ ∧ _ :=
    storeDir_ready hready (dirNode files) fun _ => List.mem_append_left _
  -- the second one is built after the first, so that both can be walked in one store
  obtain ⟨s₂, hstore', -, hreads'⟩ : ∃ s₂, storeDir L mtime s₁ (dirNode files') = _ ∧ _ :=
    storeDir_ready hready₁ (dirNode files') fun _ => List.mem_append_right _
  obtain ⟨s₃, hstore'', -⟩ : ∃ s₃, storeDir L mtime s (dirNode files') = _ ∧ _ :=
    storeDir_ready hready (dirNode files') fun _ => List.mem_append_right _
  have hgrows : s₁.Grows L s₂ := by
    obtain rfl : _ = s₂ := congrArg Prod.snd hstore'
    exact (storeDir_written s₁ (dirNode files')).grows
  have hroots : L.treeId ((dirNode files).tree L) = L.treeId ((dirNode files').tree L) := by
    rw [buildTree, buildTree, hstore, hstore''] at h
    exact Except.ok.inj h
  have hboth : ∀ u ∈ (dirNode files).trees L, s₂.get L (L.treeId u) = .ok (some (.tree u)) :=
    fun u hu => ObjectStore.object_eq_some.mp
      (hgrows _ _ (ObjectStore.object_eq_some.mpr (hreads u hu)))
  obtain ⟨fuel, hwalk⟩ := (walkTree_built hboth).mpr hflat.nests
  obtain ⟨fuel', hwalk'⟩ := (walkTree_built hreads').mpr hflat'.nests
  rw [hroots] at hwalk
  exact walkTree_unique hwalk hwalk'

end Bole
