import Bole.Repo.Walk

/-!
From a flat map of paths to stored trees and back: `build_tree` and `snapshot_paths` of
`src/repo/ephemeral.rs`.

* `buildTree_written`: building a tree writes trees and nothing else;
* `buildTree_root`: the root it returns does not depend on the store;
* `snapshotPaths_unique`: `snapshot_paths` has one answer.
-/

namespace Bole

open Collect

/-! ### Directories -/

/-- `DirNode`; the directories are kept in the order of their names. -/
inductive DirNode where
  | node (files : BTreeMap String ObjectId) (dirs : List (String × DirNode))

namespace DirNode

/-- `DirNode::default`. -/
def empty : DirNode := .node ∅ []

/-- `dirs.entry(name).or_default()`, changed by `f`. -/
def updateDir (name : String) (f : DirNode → DirNode) :
    List (String × DirNode) → List (String × DirNode)
  | [] => [(name, f empty)]
  | (k, d) :: rest =>
      match compare name k with
      | .lt => (name, f empty) :: (k, d) :: rest
      | .eq => (k, f d) :: rest
      | .gt => (k, d) :: updateDir name f rest

/-- `insert`, on the segments of the path: all but the last name directories. -/
def insert (id : ObjectId) : List String → DirNode → DirNode
  | [], n => n
  | [name], .node files dirs => .node (files.insert name id) dirs
  | head :: rest, .node files dirs => .node files (updateDir head (insert id rest) dirs)

end DirNode

/-- The segments of a path; there is at least one. -/
def pathSegments (path : String) : List String := (path.toList.splitOn '/').map String.ofList

/-- The nested directories of a flat map. -/
def dirNode (files : BTreeMap String ObjectId) : DirNode :=
  files.toList.foldl (fun root f => root.insert f.2 (pathSegments f.1)) .empty

/-- The entries of the files of a directory. -/
def blobEntries (files : BTreeMap String ObjectId) : BTreeMap String TreeEntry :=
  files.map fun _ id => ⟨id, .blob⟩

/-! ### Storing them -/

mutual

/-- `store_dir`: the directories inside come first, in order. -/
def storeDir (L : Linked) (mtime : Option ℕ) (s : ObjectStore) :
    DirNode → Result ObjectId × ObjectStore
  | .node files dirs =>
      match storeDirs L mtime s dirs (blobEntries files) with
      | (.error e, s) => (.error e, s)
      | (.ok entries, s) => s.put L (.tree ⟨entries⟩) mtime

/-- The loop over the directories inside; an entry replaces a file of its name. -/
def storeDirs (L : Linked) (mtime : Option ℕ) (s : ObjectStore) :
    List (String × DirNode) → BTreeMap String TreeEntry →
      Result (BTreeMap String TreeEntry) × ObjectStore
  | [], entries => (.ok entries, s)
  | (name, child) :: rest, entries =>
      match storeDir L mtime s child with
      | (.error e, s) => (.error e, s)
      | (.ok id, s) => storeDirs L mtime s rest (entries.insert name ⟨id, .tree⟩)

end

/-- `build_tree`. -/
def buildTree (L : Linked) (s : ObjectStore) (files : BTreeMap String ObjectId)
    (mtime : Option ℕ) : Result ObjectId × ObjectStore :=
  storeDir L mtime s (dirNode files)

/-- `snapshot_paths`, for the given number of turns of `walk_tree`. -/
def snapshotPaths (L : Linked) (s : ObjectStore) (fuel : ℕ) (snapshotId : ObjectId) :
    Result (Option (BTreeMap String ObjectId)) :=
  match s.get L snapshotId with
  | .error e => .error e
  | .ok (some (.snapshot snap)) => walkTree L s fuel snap.root "" ∅
  | .ok _ => .error (.storage ("not a snapshot: " ++ snapshotId.toHex))

/-- The walk has one answer, whatever its number of turns. -/
lemma walkTree_unique {L : Linked} {s : ObjectStore} {n n' : ℕ} {treeId : ObjectId} {pfx : String}
    {out paths paths' : BTreeMap String ObjectId}
    (h : walkTree L s n treeId pfx out = .ok (some paths))
    (h' : walkTree L s n' treeId pfx out = .ok (some paths')) : paths = paths' := by
  refine collect_agree id (fun x r r' hr hr' => ?_) h h'
  obtain rfl : r = r' := Except.ok.inj (hr.symm.trans hr')
  exact ⟨rfl, (List.map_id _).symm⟩

/-- `snapshot_paths` has one answer, whatever its number of turns. -/
lemma snapshotPaths_unique {L : Linked} {s : ObjectStore} {n n' : ℕ} {snapshotId : ObjectId}
    {paths paths' : BTreeMap String ObjectId}
    (h : snapshotPaths L s n snapshotId = .ok (some paths))
    (h' : snapshotPaths L s n' snapshotId = .ok (some paths')) : paths = paths' := by
  rw [snapshotPaths] at h h'
  split at h
  · cases h
  · next snap hsnap =>
      rw [hsnap] at h'
      exact walkTree_unique h h'
  · cases h

/-- **A snapshot keeps its paths** while the store grows. -/
lemma snapshotPaths_grows {L : Linked} {s t : ObjectStore} (hgrows : s.Grows L t) {n : ℕ}
    {snapshotId : ObjectId} {paths : BTreeMap String ObjectId}
    (h : snapshotPaths L s n snapshotId = .ok (some paths)) :
    snapshotPaths L t n snapshotId = .ok (some paths) := by
  have hget : ∀ {id obj}, s.get L id = .ok (some obj) → t.get L id = .ok (some obj) := fun hid =>
    ObjectStore.object_eq_some.mp (hgrows _ _ (ObjectStore.object_eq_some.mpr hid))
  rw [snapshotPaths] at h ⊢
  split at h
  · cases h
  · next snap hsnap =>
      rw [hget hsnap]
      refine collect_mono (fun x r hr => ?_) h
      obtain ⟨tree, htree, hr⟩ := openTree_eq_ok.mp hr
      exact openTree_eq_ok.mpr ⟨tree, getTree_eq_some.mpr (hget (getTree_eq_some.mp htree)), hr⟩
  · cases h

/-! ### What building a tree writes -/

/-- The bytes of a tree. -/
def IsTreeBytes (L : Linked) (b : Bytes) : Prop := ∃ t, L.codec.serialize (.tree t) = .ok b

variable {L : Linked} {mtime : Option ℕ}

mutual

theorem storeDir_written (s : ObjectStore) :
    ∀ n : DirNode, s.Written L (IsTreeBytes L) (storeDir L mtime s n).2
  | .node files dirs => by
      have hdirs := storeDirs_written s dirs (blobEntries files)
      rw [storeDir]
      split
      · next e t heq =>
          rw [heq] at hdirs
          exact hdirs
      · next entries t heq =>
          rw [heq] at hdirs
          exact hdirs.put (fun b hb => ⟨_, hb⟩) mtime

theorem storeDirs_written (s : ObjectStore) :
    ∀ (dirs : List (String × DirNode)) (entries : BTreeMap String TreeEntry),
      s.Written L (IsTreeBytes L) (storeDirs L mtime s dirs entries).2
  | [], entries => by
      rw [storeDirs]
      exact .refl s
  | (name, child) :: rest, entries => by
      have hchild := storeDir_written s child
      rw [storeDirs]
      split
      · next e t heq =>
          rw [heq] at hchild
          exact hchild
      · next id t heq =>
          rw [heq] at hchild
          exact hchild.trans (storeDirs_written t rest _)

end

/-- **Building a tree writes trees** and nothing else. -/
lemma buildTree_written (s : ObjectStore) (files : BTreeMap String ObjectId) :
    s.Written L (IsTreeBytes L) (buildTree L s files mtime).2 :=
  storeDir_written s (dirNode files)

mutual

theorem storeDir_root {s s' : ObjectStore} :
    ∀ (n : DirNode) {id id' : ObjectId}, (storeDir L mtime s n).1 = .ok id →
      (storeDir L mtime s' n).1 = .ok id' → id = id'
  | .node files dirs, id, id', h, h' => by
      rw [storeDir] at h h'
      split at h
      · cases h
      split at h'
      · cases h'
      next entries t heq _ entries' t' heq' =>
        have he := storeDirs_root dirs (blobEntries files) (congrArg Prod.fst heq)
          (congrArg Prod.fst heq')
        obtain ⟨b, hb, rfl⟩ := ObjectStore.put_eq_ok h
        obtain ⟨b', hb', rfl⟩ := ObjectStore.put_eq_ok h'
        rw [he, hb'] at hb
        cases hb
        rfl

theorem storeDirs_root {s s' : ObjectStore} :
    ∀ (dirs : List (String × DirNode)) (entries : BTreeMap String TreeEntry)
      {out out' : BTreeMap String TreeEntry}, (storeDirs L mtime s dirs entries).1 = .ok out →
      (storeDirs L mtime s' dirs entries).1 = .ok out' → out = out'
  | [], entries, out, out', h, h' => by
      rw [storeDirs] at h h'
      exact Except.ok.inj (h.symm.trans h')
  | (name, child) :: rest, entries, out, out', h, h' => by
      rw [storeDirs] at h h'
      split at h
      · cases h
      split at h'
      · cases h'
      next id t heq _ id' t' heq' =>
        obtain rfl := storeDir_root child (congrArg Prod.fst heq) (congrArg Prod.fst heq')
        exact storeDirs_root rest _ h h'

end

/-- **The root does not depend on the store** it is built in. -/
lemma buildTree_root {s s' : ObjectStore} {files : BTreeMap String ObjectId} {id id' : ObjectId}
    (h : (buildTree L s files mtime).1 = .ok id) (h' : (buildTree L s' files mtime).1 = .ok id') :
    id = id' :=
  storeDir_root (dirNode files) h h'

end Bole
