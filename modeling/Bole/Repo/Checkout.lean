import Bole.Repo.DiskWorkspace
import Bole.Repo.TreeRoundTrip

/-!
From a snapshot to a work tree and back: `materialize` (`src/repo/materialize.rs`), then `diff`
and `commit` of a `DiskWorkspace` (`src/repo/ephemeral.rs`).

* `diffPaths_isEmpty`: a diff is empty exactly when the maps are equal;
* `materialize_built`: into an empty directory the tree of a portable map is written, and the
  directory mirrors the map;
* `collect_stored`: a walk whose files are stored already ends, and changes no store;
* `checkout_snapshot_iff`: the unedited checkout has an empty diff, and is committed under the
  same root, exactly when nothing of the map is ignored and its blobs are stored as `put_blob`
  stores them.
-/

namespace Bole

open Posix Collect

/-! ### Diffs -/

/-- `PathDiff`. -/
structure PathDiff where
  added : List String
  removed : List String
  modified : List String

/-- `is_empty`. -/
def PathDiff.isEmpty (d : PathDiff) : Bool :=
  d.added.isEmpty && d.removed.isEmpty && d.modified.isEmpty

/-- `diff_paths`. -/
def diffPaths (base target : BTreeMap String ObjectId) : PathDiff where
  added := target.keys.filter fun path => base[path]?.isNone
  removed := base.keys.filter fun path => !target.contains path
  modified := (target.toList.filter fun e => base[e.1]?.any (· ≠ e.2)).map Prod.fst

/-- **A diff is empty exactly when the maps are equal.** -/
lemma diffPaths_isEmpty {base target : BTreeMap String ObjectId} :
    (diffPaths base target).isEmpty = true ↔ base = target := by
  simp only [PathDiff.isEmpty, diffPaths, Bool.and_eq_true, List.isEmpty_iff,
    List.filter_eq_nil_iff, List.map_eq_nil_iff, Std.ExtTreeMap.mem_keys, Prod.forall,
    Std.ExtTreeMap.mem_toList_iff_getElem?_eq_some]
  constructor
  · rintro ⟨⟨hadded, hremoved⟩, hmodified⟩
    refine Std.ExtTreeMap.ext_getElem? fun path => ?_
    cases htarget : target[path]? with
    | none =>
        have hout : path ∉ target := by
          rw [Std.ExtTreeMap.mem_iff_isSome_getElem?, htarget]
          simp
        by_contra hne
        refine hremoved path ?_ ?_
        · rw [Std.ExtTreeMap.mem_iff_isSome_getElem?, Option.isSome_iff_ne_none]
          exact hne
        · rw [Bool.not_eq_true', ← Bool.not_eq_true, Std.ExtTreeMap.contains_iff_mem]
          exact hout
    | some id =>
        have hin : path ∈ target := by
          rw [Std.ExtTreeMap.mem_iff_isSome_getElem?, htarget]
          rfl
        cases hbase : base[path]? with
        | none => exact absurd (by simp [hbase]) (hadded path hin)
        | some id' =>
            have hsame := hmodified path id htarget
            simp only [hbase, Option.any_some, decide_eq_true_eq, not_not] at hsame
            rw [hsame]
  · rintro rfl
    refine ⟨⟨fun path hpath => ?_, fun path hpath => ?_⟩, fun path id hid => ?_⟩
    · rw [Std.ExtTreeMap.mem_iff_isSome_getElem?] at hpath
      simp [Option.isSome_iff_ne_none.mp hpath]
    · simpa using hpath
    · simp [hid]

namespace DiskWorkspace

/-- The paths of the base; there are none without one. -/
def basePaths (L : Linked) (fuel : ℕ) (ws : DiskWorkspace) (s : ObjectStore) :
    Result (Option (BTreeMap String ObjectId)) :=
  match ws.base with
  | some base => snapshotPaths L s fuel base
  | none => .ok (some ∅)

/-- `diff`; `none` means that the fuel ran out. -/
def diff (L : Linked) (W : DirWalk) (mtime : Option ℕ) (fuel : ℕ) (fs : Fs Bytes)
    (ws : DiskWorkspace) (s : ObjectStore) : Result (Option PathDiff) × ObjectStore :=
  match ws.basePaths L fuel s with
  | .error e => (.error e, s)
  | .ok none => (.ok none, s)
  | .ok (some base) =>
      match ws.collect L W mtime fuel fs s with
      | (.error e, s) => (.error e, s)
      | (.ok none, s) => (.ok none, s)
      | (.ok (some target), s) => (.ok (some (diffPaths base target)), s)

end DiskWorkspace

/-! ### Writing the tree of a map -/

/-- The segments of a path are neither empty nor made of dots, have no null byte and no backslash,
and none is `.bole`. -/
def PortablePath (path : String) : Prop :=
  ∀ seg ∈ path.toList.splitOn '/',
    IsProper seg ∧ '\x00' ∉ seg ∧ '\\' ∉ seg ∧ seg ≠ repoDirName.chars

variable {L : Linked} {s : ObjectStore} {files : BTreeMap String ObjectId}

/-- A segment that is the name of a directory entry. -/
def IsName (seg : String) : Prop := ∃ n : FileName, n.chars = seg.toList

lemma PortablePath.isName {path : String} (h : PortablePath path) {seg : String}
    (hseg : seg ∈ pathSegments path) : IsName seg := by
  obtain ⟨chars, hchars, rfl⟩ := List.mem_map.mp hseg
  obtain ⟨⟨hempty, hdot, hdots⟩, hnull, -⟩ := h chars hchars
  rw [IsName, String.toList_ofList]
  exact ⟨⟨chars, hempty, hdot, hdots, Words.notMem_of_mem_splitOn hchars, hnull⟩, rfl⟩

/-- A directory whose segments are names and whose files can be read. -/
structure DirNode.Writable (L : Linked) (s : ObjectStore) (n : DirNode) : Prop where
  dirs : ∀ names, n.hasDir names = true → ∀ seg ∈ names, IsName seg
  files : ∀ names id, n.fileAt names = some id → n.hasDir names = false →
    (∀ seg ∈ names, IsName seg) ∧ ∃ data, blobData L s id = some data

/-- The directories inside are so as well. -/
lemma DirNode.Writable.inside {dirs : List (String × DirNode)}
    (h : (DirNode.node files dirs).Writable L s) {name : String} {d : DirNode}
    (hd : dirs.lookup name = some d) : IsName name ∧ d.Writable L s := by
  have hdir : ∀ names, (DirNode.node files dirs).hasDir (name :: names) = d.hasDir names := by
    intro names
    rw [DirNode.hasDir, hd]
  refine ⟨h.dirs [name] (by rw [hdir]; rfl) name List.mem_cons_self, fun names hn seg hseg => ?_,
    fun names id hf hn => ?_⟩
  · exact h.dirs (name :: names) (by rw [hdir, hn]) seg (List.mem_cons_of_mem _ hseg)
  · cases names with
    | nil => cases hf
    | cons next rest =>
        have hfile : (DirNode.node files dirs).fileAt (name :: next :: rest) = some id := by
          rw [fileAt_cons_cons, hd]
          exact hf
        obtain ⟨hnames, hdata⟩ := h.files _ id hfile (by rw [hdir, hn])
        exact ⟨fun seg hseg => hnames seg (List.mem_cons_of_mem _ hseg), hdata⟩

lemma blobData_eq_some {id : ObjectId} {data : Bytes} :
    blobData L s id = some data ↔ s.get L id = .ok (some (.blob data)) := by
  rw [blobData]
  split
  · next data' hget => simp [hget]
  · next hother =>
      refine iff_of_false (by simp) fun hget => hother data hget

/-- A tree is written into any empty directory, and in one way from the given fuel on. -/
def WritesInto (write : ℕ → ObjectId → RawPath → Checkout → Option (Result Unit) × Checkout)
    (k : ℕ) (id : ObjectId) : Prop :=
  ∀ l fs log, dirAt l fs = some FileTree.emptyDir → ∃ d log', ∀ m, k ≤ m →
    write m id (l.map FileName.chars) ⟨fs, log⟩ = (some (.ok ()), ⟨graft l d fs, log'⟩)

lemma WritesInto.mono
    {write : ℕ → ObjectId → RawPath → Checkout → Option (Result Unit) × Checkout} {k k' : ℕ}
    {id : ObjectId} (h : WritesInto write k id) (hk : k ≤ k') : WritesInto write k' id := by
  intro l fs log hempty
  obtain ⟨d, log', hw⟩ := h l fs log hempty
  exact ⟨d, log', fun m hm => hw m (hk.trans hm)⟩

/-- A file is written into a directory that has nothing of its name. -/
lemma writeEntries_blob
    {sub : ObjectId → RawPath → Checkout → Option (Result Unit) × Checkout} {l : List FileName}
    {name : String} {id : ObjectId} {rest : List (String × TreeEntry)} {fs d : Fs Bytes}
    {log : List (List FileName)} {n : FileName} {data : Bytes} (hd : dirAt l fs = some d)
    (hn : n.chars = name.toList) (hfree : d n = none) (hdata : blobData L s id = some data) :
    writeEntries L s sub (l.map FileName.chars) ((name, ⟨id, .blob⟩) :: rest) ⟨fs, log⟩ =
      writeEntries L s sub (l.map FileName.chars) rest
        ⟨graft l (Function.update d n (some (.file data))) fs, log ++ [l ++ [n]]⟩ := by
  have hjoin : Posix.join (l.map FileName.chars) name.toList = (l ++ [n]).map FileName.chars := by
    rw [← hn, join_name, List.map_append, List.map_singleton]
  rw [writeEntries, hjoin]
  dsimp only
  rw [blobData_eq_some.mp hdata]
  dsimp only
  rw [writeFile_names hd (by simp [hfree])]

/-- **The entries of a tree are written** into a directory that has none of their names; nothing
else changes. -/
lemma writeEntries_grafts
    {sub : ℕ → ObjectId → RawPath → Checkout → Option (Result Unit) × Checkout} {k : ℕ}
    {l : List FileName} {entries : List (String × TreeEntry)} {fs d : Fs Bytes}
    {log : List (List FileName)} (hd : dirAt l fs = some d)
    (hnames : ∀ e ∈ entries, ∃ n : FileName, n.chars = e.1.toList ∧ d n = none)
    (hapart : entries.Pairwise fun a b => a.1 ≠ b.1)
    (hkinds : ∀ e ∈ entries, match e.2.kind with
      | .blob => ∃ data, blobData L s e.2.id = some data
      | .tree => WritesInto sub k e.2.id) :
    ∃ d' log', ∀ m, k ≤ m → writeEntries L s (sub m) (l.map FileName.chars) entries ⟨fs, log⟩ =
      (some (.ok ()), ⟨graft l d' fs, log'⟩) := by
  induction entries generalizing fs d log with
  | nil => exact ⟨d, log, fun m _ => by rw [writeEntries, graft_self hd]⟩
  | cons e rest ih =>
      obtain ⟨name, id, kind⟩ := e
      rw [List.forall_mem_cons] at hnames hkinds
      obtain ⟨⟨n, hn, hfree⟩, hrest⟩ := hnames
      obtain ⟨hother, hpair⟩ := List.pairwise_cons.mp hapart
      obtain ⟨hkind, hkinds⟩ := hkinds
      -- what is left to write is still free after this entry
      have hfresh : ∀ node, ∀ e ∈ rest, ∃ m : FileName, m.chars = e.1.toList ∧
          Function.update d n (some node) m = none := by
        intro node e he
        obtain ⟨m, hm, hmfree⟩ := hrest e he
        refine ⟨m, hm, ?_⟩
        rw [Function.update_of_ne, hmfree]
        rintro rfl
        exact hother e he (String.toList_injective (hn.symm.trans hm))
      cases kind with
      | blob =>
          obtain ⟨data, hdata⟩ := hkind
          obtain ⟨d', log', hw⟩ := @ih _ _ (log ++ [l ++ [n]]) (dirAt_graft l _ fs)
            (hfresh (.file data)) hpair hkinds
          simp only [graft_graft] at hw
          refine ⟨d', log', fun m hm => ?_⟩
          rw [writeEntries_blob hd hn hfree hdata]
          exact hw m hm
      | tree =>
          have hin : dirAt (l ++ [n]) (graft l (Function.update d n
              (some (.dir FileTree.emptyDir))) fs) = some FileTree.emptyDir :=
            dirAt_append.mpr ⟨_, dirAt_graft l _ fs, by simp [dirAt]⟩
          obtain ⟨e, log₁, hsub⟩ := hkind (l ++ [n]) _ log hin
          rw [graft_append (dirAt_graft l _ fs), graft_name, graft_graft, Function.update_idem]
            at hsub
          obtain ⟨d', log', hw⟩ := @ih _ _ log₁ (dirAt_graft l _ fs) (hfresh (.dir e)) hpair hkinds
          simp only [graft_graft] at hw
          have hjoin : Posix.join (l.map FileName.chars) name.toList =
              (l ++ [n]).map FileName.chars := by
            rw [← hn, join_name, List.map_append, List.map_singleton]
          refine ⟨d', log', fun m hm => ?_⟩
          rw [writeEntries, hjoin]
          dsimp only
          rw [createDirAll_names hd hfree]
          dsimp only
          rw [hsub m hm]
          exact hw m hm

/-- **The tree of a directory is written** into any empty directory, with enough fuel. -/
lemma writeTree_built {n : DirNode} (hn : n.Ordered)
    (hreads : ∀ t ∈ n.trees L, s.get L (L.treeId t) = .ok (some (.tree t)))
    (hw : n.Writable L s) : ∃ k, WritesInto (writeTree L s) k (L.treeId (n.tree L)) := by
  induction hn with
  | @node files dirs hp _ ih =>
      have hinside : ∀ d ∈ dirs, ∃ k, dirs.lookup d.1 = some d.2 →
          WritesInto (writeTree L s) k (L.treeId (d.2.tree L)) := by
        intro d hd
        by_cases hlookup : dirs.lookup d.1 = some d.2
        · obtain ⟨k, hk⟩ := ih d hd (reads_inside hreads hd) (hw.inside hlookup).2
          exact ⟨k, fun _ => hk⟩
        · exact ⟨0, fun h => absurd h hlookup⟩
      choose! depth hdepth using hinside
      -- enough for every directory inside
      have hsum : ∀ d ∈ dirs, depth d ≤ (dirs.map depth).sum := fun d hd =>
        List.single_le_sum (by simp) _ (List.mem_map_of_mem hd)
      have hroot : s.get L (L.treeId ((DirNode.node files dirs).tree L)) =
          .ok (some (.tree ((DirNode.node files dirs).tree L))) := by
        refine hreads _ ?_
        rw [DirNode.trees]
        exact List.mem_cons_self
      have hentry : ∀ e ∈ ((DirNode.node files dirs).tree L).entries.toList, IsName e.1 ∧
          match e.2.kind with
          | .blob => ∃ data, blobData L s e.2.id = some data
          | .tree => WritesInto (writeTree L s) (dirs.map depth).sum e.2.id := by
        rintro ⟨name, id, kind⟩ he
        rw [Std.ExtTreeMap.mem_toList_iff_getElem?_eq_some] at he
        cases kind with
        | blob =>
            obtain ⟨hnone, hfile⟩ := (blob_entry hp).mp he
            obtain ⟨hname, hdata⟩ := hw.files [name] id hfile (by simp [DirNode.hasDir, hnone])
            exact ⟨hname name List.mem_cons_self, hdata⟩
        | tree =>
            obtain ⟨d, hd, rfl⟩ := (tree_entry hp).mp he
            have hmem := DirNode.mem_of_lookup hd
            exact ⟨(hw.inside hd).1, (hdepth (name, d) hmem hd).mono (hsum _ hmem)⟩
      refine ⟨(dirs.map depth).sum + 1, fun l fs log hempty => ?_⟩
      have hnames : ∀ e ∈ ((DirNode.node files dirs).tree L).entries.toList,
          ∃ n : FileName, n.chars = e.1.toList ∧ (FileTree.emptyDir : Fs Bytes) n = none := by
        intro e he
        obtain ⟨n, hn⟩ := (hentry e he).1
        exact ⟨n, hn, rfl⟩
      have hapart : ((DirNode.node files dirs).tree L).entries.toList.Pairwise
          fun a b => a.1 ≠ b.1 := by
        refine Std.ExtTreeMap.distinct_keys_toList.imp fun h heq => h ?_
        simp [heq]
      obtain ⟨d, log', hwrite⟩ := @writeEntries_grafts L s (writeTree L s) _ l _ fs _ log hempty
        hnames hapart fun e he => (hentry e he).2
      refine ⟨d, log', fun m hm => ?_⟩
      obtain ⟨m, rfl⟩ : ∃ m', m = m' + 1 := ⟨m - 1, by omega⟩
      rw [writeTree, hroot]
      exact hwrite m (by omega)

/-- The directories of a portable map can be written if its blobs can be read. -/
lemma writable_dirNode (hportable : ∀ path ∈ files, PortablePath path)
    (hblobs : ∀ (path : String) id, files[path]? = some id → ∃ data, blobData L s id = some data) :
    (dirNode files).Writable L s where
  dirs names hdir seg hseg := by
    rw [dirNode, hasDir_foldl DirNode.ordered_empty, DirNode.hasDir_empty] at hdir
    rcases hdir with rfl | ⟨e, he, hpre, -⟩
    · cases hseg
    · rw [Std.ExtTreeMap.mem_toList_iff_getElem?_eq_some] at he
      have hmem : e.1 ∈ files := Std.ExtTreeMap.mem_iff_isSome_getElem?.mpr (by simp [he])
      exact (hportable e.1 hmem).isName (hpre.subset hseg)
  files names id hfile _ := by
    obtain ⟨p, rfl, hp⟩ := fileAt_dirNode.mp hfile
    have hmem : p ∈ files := Std.ExtTreeMap.mem_iff_isSome_getElem?.mpr (by simp [hp])
    exact ⟨fun seg hseg => (hportable p hmem).isName hseg, hblobs p id hp⟩

/-! ### The directory after a checkout -/

section Checkout

variable {snapshotId : ObjectId} {snap : Snapshot} {dest : List FileName} {fs : Fs Bytes}

/-- **A checkout into an empty directory succeeds**, with enough fuel. -/
lemma materialize_built (hportable : ∀ path ∈ files, PortablePath path)
    (hblobs : ∀ (path : String) id, files[path]? = some id → ∃ data, blobData L s id = some data)
    (hreads : ∀ t ∈ (dirNode files).trees L, s.get L (L.treeId t) = .ok (some (.tree t)))
    (hsnap : s.get L snapshotId = .ok (some (.snapshot snap)))
    (hroot : snap.root = L.treeId ((dirNode files).tree L))
    (hempty : dirAt dest fs = some FileTree.emptyDir) :
    ∃ k c, (∀ fuel, k ≤ fuel → materialize L s fuel snapshotId dest fs = (some (.ok ()), c)) ∧
      (dirAt dest c.fs).isSome := by
  obtain ⟨k, hk⟩ := writeTree_built (ordered_dirNode files) hreads
    (writable_dirNode hportable hblobs)
  obtain ⟨d, log, hw⟩ := hk dest fs [] hempty
  refine ⟨k, ⟨graft dest d fs, log⟩, fun fuel hfuel => ?_, by rw [dirAt_graft]; rfl⟩
  rw [materialize, createDirAll_isDir (by rw [hempty]; rfl)]
  dsimp only
  rw [hsnap]
  dsimp only
  rw [hroot, hw fuel hfuel]

/-- More fuel changes no result of the entries. -/
lemma writeEntries_mono
    {sub sub' : ObjectId → RawPath → Checkout → Option (Result Unit) × Checkout}
    (hsub : ∀ id base c r c', sub id base c = (some r, c') → sub' id base c = (some r, c'))
    {base : RawPath} {entries : List (String × TreeEntry)} {c c' : Checkout} {r : Result Unit}
    (h : writeEntries L s sub base entries c = (some r, c')) :
    writeEntries L s sub' base entries c = (some r, c') := by
  induction entries generalizing c with
  | nil => exact h
  | cons e rest ih =>
      obtain ⟨name, id, kind⟩ := e
      rw [writeEntries] at h ⊢
      cases kind with
      | blob =>
          dsimp only at h ⊢
          split
          · next e he => simpa only [he] using h
          · next data hdata =>
              simp only [hdata] at h
              split
              · next e hw => simpa only [hw] using h
              · next l fs' hw =>
                  simp only [hw] at h
                  exact ih h
          · next o hother ho =>
              cases o with
              | blob data => exact absurd rfl (hother data)
              | _ => simpa only [ho] using h
          · next hnone => simpa only [hnone] using h
      | tree =>
          dsimp only at h ⊢
          split
          · next e fs' hd => simpa only [hd] using h
          · next fs' hd =>
              simp only [hd] at h
              cases hrun : sub id (Posix.join base name.toList) { c with fs := fs' } with
              | mk result c₁ =>
                  rw [hrun] at h
                  cases result with
                  | none => cases h
                  | some result =>
                      rw [hsub _ _ _ _ _ hrun]
                      cases result with
                      | error e => exact h
                      | ok u => exact ih h

/-- More fuel changes no result. -/
lemma writeTree_add {fuel : ℕ} {id : ObjectId} {base : RawPath} {c c' : Checkout}
    {r : Result Unit} (h : writeTree L s fuel id base c = (some r, c')) (m : ℕ) :
    writeTree L s (fuel + m) id base c = (some r, c') := by
  induction fuel generalizing id base c r c' with
  | zero => cases h
  | succ fuel ih =>
      rw [Nat.succ_add, writeTree]
      rw [writeTree] at h
      split
      · next e he => simpa only [he] using h
      · next t ht =>
          simp only [ht] at h
          exact writeEntries_mono (fun id base c r c' => ih) h
      · next o hother ho =>
          cases o with
          | tree t => exact absurd rfl (hother t)
          | _ => simpa only [ho] using h
      · next hnone => simpa only [hnone] using h

/-- **Two checkouts of one snapshot** into one directory end alike. -/
lemma materialize_unique {fuel fuel' : ℕ} {r r' : Result Unit} {c c' : Checkout}
    (h : materialize L s fuel snapshotId dest fs = (some r, c))
    (h' : materialize L s fuel' snapshotId dest fs = (some r', c')) : r = r' ∧ c = c' := by
  have hmore : ∀ {fuel r c} m, materialize L s fuel snapshotId dest fs = (some r, c) →
      materialize L s (fuel + m) snapshotId dest fs = (some r, c) := by
    intro fuel r c m h
    rw [materialize] at h ⊢
    split
    · next e fs' hd => simpa only [hd] using h
    · next fs' hd =>
        simp only [hd] at h
        split
        · next e he => simpa only [he] using h
        · next snap hsnap =>
            simp only [hsnap] at h
            exact writeTree_add h m
        · next o hother ho =>
            cases o with
            | snapshot snap => exact absurd rfl (hother snap)
            | _ => simpa only [ho] using h
        · next hnone => simpa only [hnone] using h
  have heq := hmore fuel' h
  rw [Nat.add_comm, hmore fuel h'] at heq
  cases heq
  exact ⟨rfl, rfl⟩

/-- The files of a tree are those that its walk shows. -/
lemma mem_treeFiles_iff {fuel : ℕ} {id : ObjectId} {pfx : String} (h : Opens L s fuel id)
    {e : String × ObjectId} :
    e ∈ treeFiles L s fuel id pfx ↔ Emits (openTree L s) (id, pfx) e.1 e.2 := by
  induction fuel generalizing id pfx with
  | zero => exact h.elim
  | succ fuel ih =>
      obtain ⟨t, hg, hentries⟩ := h
      have hopen : openTree L s (id, pfx) = .ok (t.files pfx, t.subtrees pfx) :=
        openTree_eq_ok.mpr ⟨t, hg, rfl⟩
      simp only [treeFiles, hg]
      rw [mem_flatMap_entryFiles, emits_iff hopen]
      refine or_congr Iff.rfl (exists_congr fun x => and_congr_right fun hx => ih ?_)
      obtain ⟨⟨name, cid, kind⟩, he, hsub⟩ := List.mem_filterMap.mp hx
      cases kind with
      | blob => cases hsub
      | tree =>
          obtain rfl := Option.some.inj hsub
          exact hentries _ he

/-- **After a checkout the directory mirrors the map.** -/
lemma mirrors_built {fuel : ℕ} {c : Checkout} (hportable : ∀ path ∈ files, PortablePath path)
    (hnests : Nests {p | p ∈ files})
    (hreads : ∀ t ∈ (dirNode files).trees L, s.get L (L.treeId t) = .ok (some (.tree t)))
    (hsnap : s.get L snapshotId = .ok (some (.snapshot snap)))
    (hroot : snap.root = L.treeId ((dirNode files).tree L))
    (hempty : dirAt dest fs = some FileTree.emptyDir)
    (hmat : materialize L s fuel snapshotId dest fs = (some (.ok ()), c)) :
    Mirrors L s dest c.fs files := by
  obtain ⟨snap', hsnap', hopens⟩ := materialize_opens hmat
  obtain rfl : snap = snap' := by
    rw [hsnap] at hsnap'
    cases hsnap'
    rfl
  have hfiles : ∀ p id, (p, id) ∈ snapshotFiles L s fuel snapshotId ↔ files[p]? = some id := by
    intro p id
    rw [snapshotFiles, hsnap]
    dsimp only
    rw [mem_treeFiles_iff hopens, hroot]
    exact emits_nests hreads hnests
  obtain ⟨n, paths, hpaths, hiff⟩ := (materialize_faithful_iff hempty hmat).2 rfl
  obtain ⟨n', paths', hpaths', hkeys, hvalues⟩ := snapshotPaths_of_opens hsnap hopens
  obtain rfl := snapshotPaths_unique hpaths hpaths'
  have hlast : LastCounts L s fuel snapshotId paths :=
    lastCounts_of_distinct hkeys hvalues fun p id id' hid hid' =>
      Option.some.inj (((hfiles p id).mp hid).symm.trans ((hfiles p id').mp hid'))
  have hclean : CheckoutClean L s fuel snapshotId := by
    intro e he seg hseg
    have hmem : e.1 ∈ files := Std.ExtTreeMap.mem_iff_isSome_getElem?.mpr
      (by rw [(hfiles e.1 e.2).mp he]; rfl)
    exact (hportable e.1 hmem seg hseg).1
  obtain ⟨fuel', hwalk⟩ := (walkTree_built hreads).mpr hnests
  have hsame : paths = files := by
    rw [snapshotPaths, hsnap] at hpaths
    dsimp only at hpaths
    rw [hroot] at hpaths
    exact walkTree_unique hpaths hwalk
  rw [← hsame]
  exact (hiff.mpr ⟨hclean, hlast⟩).2

end Checkout

/-! ### What is stored already -/

section Stored

variable {mtime : Option ℕ}

/-- **Storing what is stored** changes nothing. -/
lemma put_stored {o : Object} {b : Bytes} (hb : L.codec.serialize o = .ok b)
    (hget : s.get L (L.fromContent b) = .ok (some o)) :
    s.put L o mtime = (.ok (L.fromContent b), s) := by
  obtain ⟨data, hdata, -⟩ := ObjectStore.get_eq_some.mp hget
  rw [ObjectStore.put, hb]
  exact ObjectStore.putRaw_found mtime (ObjectStore.exists_of_getRaw hdata)

mutual

/-- **Storing a directory whose trees are stored** changes nothing. -/
theorem storeDir_stored : ∀ n : DirNode,
    (∀ t ∈ n.trees L, L.codec.serialize (.tree t) = .ok (L.treeBytes t) ∧
      s.get L (L.treeId t) = .ok (some (.tree t))) →
    storeDir L mtime s n = (.ok (L.treeId (n.tree L)), s)
  | .node files dirs, h => by
      rw [DirNode.trees] at h
      obtain ⟨⟨hb, hget⟩, hrest⟩ := List.forall_mem_cons.mp h
      rw [storeDir, storeDirs_stored dirs (blobEntries files) hrest]
      exact put_stored hb hget

theorem storeDirs_stored : ∀ (dirs : List (String × DirNode)) (entries : BTreeMap String TreeEntry),
    (∀ t ∈ DirNode.treesIn L dirs, L.codec.serialize (.tree t) = .ok (L.treeBytes t) ∧
      s.get L (L.treeId t) = .ok (some (.tree t))) →
    storeDirs L mtime s dirs entries = (.ok (DirNode.dirEntries L dirs entries), s)
  | [], entries, _ => rfl
  | (name, child) :: rest, entries, h => by
      rw [DirNode.treesIn] at h
      rw [storeDirs, storeDir_stored child fun t ht => h t (List.mem_append_left _ ht)]
      exact storeDirs_stored rest _ fun t ht => h t (List.mem_append_right _ ht)

end

end Stored

/-! ### The walk of a directory -/

/-- Reading a directory that is there does not fail. -/
def DirWalk.Answers (W : DirWalk) (fs : Fs Bytes) : Prop :=
  ∀ l, (dirAt l fs).isSome → ∃ names, W.readDir fs l = .ok names

/-- Neither the file nor a directory on the way to it is ignored. -/
def Spared (ignore : List FileName → Bool → Bool) (names : List FileName) : Prop :=
  ignore names false = false ∧
    ∀ dir, dir ≠ [] → dir ≠ names → dir <+: names → ignore dir true = false

section Walk

variable {W : DirWalk} {mtime : Option ℕ} {ignore : List FileName → Bool → Bool} {fs : Fs Bytes}
  {root rel names : List FileName}

lemma lookup_eq_some {l : List FileName} {n : FileName} {data : Bytes} :
    FileTree.lookup (l ++ [n]) fs = some data ↔ entryAt l n fs = some (.file data) :=
  lookup_concat

/-- **What is picked up** are the files that are spared and have no `.bole` on the way. -/
lemma pickedUp_iff {data : Bytes} : PickedUp ignore fs root names data ↔
    names ≠ [] ∧ repoDirName ∉ names ∧ Spared ignore names ∧
      FileTree.lookup (root ++ names) fs = some data := by
  constructor
  · rintro ⟨rel, n, rfl, ⟨hrepo, hpfx⟩, hn, hignore, hentry⟩
    refine ⟨by simp, by simp [hrepo, Ne.symm hn], ⟨hignore, fun dir hne hwhole hdir => ?_⟩, ?_⟩
    · have hrel : dir <+: rel := (List.prefix_concat_iff.mp hdir).resolve_left hwhole
      exact (hpfx dir (List.mem_inits _ _ |>.mpr hrel)).resolve_left hne
    · rw [← List.append_assoc]
      exact lookup_eq_some.mpr hentry
  · rintro ⟨hne, hrepo, ⟨hignore, hdirs⟩, hlookup⟩
    obtain ⟨rel, n, rfl⟩ : ∃ rel n, names = rel ++ [n] :=
      ⟨names.dropLast, names.getLast hne, (List.dropLast_append_getLast hne).symm⟩
    rw [List.mem_append, List.mem_singleton, not_or] at hrepo
    refine ⟨rel, n, rfl, ⟨hrepo.1, fun pfx hpfx => ?_⟩, Ne.symm hrepo.2, hignore, ?_⟩
    · by_cases hempty : pfx = []
      · exact Or.inl hempty
      · have hpre : pfx <+: rel := (List.mem_inits _ _).mp hpfx
        refine Or.inr (hdirs pfx hempty ?_ (hpre.trans (List.prefix_append _ _)))
        rintro rfl
        simpa using hpre.length_le
    · rw [← List.append_assoc] at hlookup
      exact lookup_eq_some.mp hlookup

/-- **The walk of a directory ends.** -/
lemma opensWhole_openDir (hanswers : W.Answers fs) {d : Fs Bytes}
    (hd : dirAt (root ++ rel) fs = some d) :
    OpensWhole (openDir L W ignore fs root) rel := by
  induction d using FileTree.dir_induction generalizing rel with
  | _ d ih =>
      obtain ⟨names, hnames⟩ := hanswers _ (by rw [hd]; rfl)
      refine .intro (by rw [openDir, hnames]) fun sub hsub => ?_
      obtain ⟨n, -, hn⟩ := List.mem_filterMap.mp hsub
      split at hn
      · next e he =>
          split_ifs at hn
          cases hn
          have hin : d n = some (.dir e) := by
            have hentry : entryAt (root ++ rel) n fs = some (.dir e) := he
            rwa [entryAt, hd] at hentry
          refine ih n e hin ?_
          rw [← List.append_assoc]
          exact dirAt_append.mpr ⟨d, hd, by simp [dirAt, hin]⟩
      · cases hn

/-- The turn of the walk for one directory whose files are stored. -/
lemma collectEntries_stored {node : FileName → Option (FileTree.Node FileName Bytes)}
    {taken : Taken}
    (hstored : ∀ n ∈ names, ∀ data, node n = some (.file data) → n ≠ repoDirName →
      ignore (rel ++ [n]) false = false →
        s.put L (.blob data) mtime = (.ok (L.blobId data), s)) :
    collectEntries L mtime ignore node rel names s taken =
      (.ok ⟨(pushedDirs ignore node rel names).reverse ++ taken.stack,
        insertAll (fun _ => true) (pickedFiles L ignore node rel names) taken.out⟩, s) := by
  induction names generalizing taken with
  | nil => rfl
  | cons n rest ih =>
      have hrest := fun {taken} => @ih taken fun m hm => hstored m (List.mem_cons_of_mem _ hm)
      rw [collectEntries, pushedDirs, pickedFiles, List.filterMap_cons, List.filterMap_cons]
      cases hn : node n with
      | none => exact hrest
      | some x =>
          cases x with
          | dir e =>
              dsimp only
              split_ifs with hskip
              · exact hrest
              · rw [hrest]
                simp only [List.reverse_cons, List.append_assoc, List.singleton_append]
                rfl
          | file data =>
              dsimp only
              split_ifs with hskip
              · exact hrest
              · simp only [Bool.or_eq_true, decide_eq_true_eq, not_or, Bool.not_eq_true] at hskip
                rw [hstored n List.mem_cons_self data hn hskip.1 hskip.2]
                exact hrest

/-- **A walk whose files are stored** changes no store. -/
lemma collectLoop_stored {fuel : ℕ} {stack : List (List FileName)}
    {out m : BTreeMap String ObjectId} (hstack : ∀ rel ∈ stack, Entered ignore rel)
    (hstored : ∀ names data, PickedUp ignore fs root names data →
      s.put L (.blob data) mtime = (.ok (L.blobId data), s))
    (h : collect (openDir L W ignore fs root) (fun _ => true) fuel stack out = .ok (some m)) :
    collectLoop L W mtime ignore fs root fuel s ⟨stack, out⟩ = (.ok (some m), s) := by
  induction fuel generalizing stack out with
  | zero =>
      cases stack with
      | nil =>
          cases h
          rfl
      | cons rel stack => cases h
  | succ fuel ih =>
      cases stack with
      | nil =>
          cases h
          rfl
      | cons rel stack =>
          have hrel := hstack rel List.mem_cons_self
          rw [collect, openDir] at h
          rw [collectLoop]
          cases hnames : W.readDir fs (root ++ rel) with
          | error e => simp [hnames] at h
          | ok names =>
              simp only [hnames] at h
              dsimp only
              rw [collectEntries_stored fun n _ data hn hne hignore =>
                hstored (rel ++ [n]) data ⟨rel, n, rfl, hrel, hne, hignore, hn⟩]
              refine ih (fun sub hsub => ?_) h
              rcases List.mem_append.mp hsub with hsub | hsub
              · exact entered_of_pushed hrel (List.mem_reverse.mp hsub)
              · exact hstack sub (List.mem_cons_of_mem _ hsub)

end Walk

/-! ### There and back -/

section RoundTrip

variable {W : DirWalk} {mtime : Option ℕ} {ignore : List FileName → Bool → Bool} {fs : Fs Bytes}
  {dest names : List FileName} {snapshotId : ObjectId}

/-- The file at a location below the destination. -/
lemma Mirrors.lookup (h : Mirrors L s dest fs files) (hne : names ≠ []) :
    FileTree.lookup (dest ++ names) fs = (files[relPath names]?).bind (blobData L s) := by
  cases hl : FileTree.lookup (dest ++ names) fs with
  | some data => exact (h.contents names data hne hl).symm
  | none =>
      have hout : relPath names ∉ files := by
        intro hmem
        obtain ⟨names', data, hne', hrel, hdata⟩ := (h.files _).mp hmem
        rw [relPath_injective hne' hne hrel, hl] at hdata
        cases hdata
      rw [Std.ExtTreeMap.getElem?_eq_none hout]
      rfl

/-- The names on the way to a file of a portable map. -/
lemma PortablePath.keeps (h : PortablePath (relPath names)) (hne : names ≠ []) :
    repoDirName ∉ names ∧ ∀ n ∈ names, '\\' ∉ n.chars := by
  rw [PortablePath, splitOn_relPath hne] at h
  refine ⟨fun hrepo => ?_, fun n hn => ?_⟩
  · exact (h _ (List.mem_map_of_mem hrepo)).2.2.2 rfl
  · exact (h _ (List.mem_map_of_mem hn)).2.2.1

/-- What the work tree of a portable map holds are its files that are spared. -/
lemma holdsFile_iff (h : Mirrors L s dest fs files)
    (hportable : ∀ path ∈ files, PortablePath path) {path : String} {id : ObjectId} :
    HoldsFile L ignore fs dest path id ↔ ∃ names data, names ≠ [] ∧ relPath names = path ∧
      Spared ignore names ∧ (files[path]?).bind (blobData L s) = some data ∧
        id = L.blobId data := by
  have hmem : ∀ {names data}, (files[relPath names]?).bind (blobData L s) = some data →
      relPath names ∈ files := by
    intro names data hdata
    obtain ⟨id, hid, -⟩ := Option.bind_eq_some_iff.mp hdata
    exact Std.ExtTreeMap.mem_iff_isSome_getElem?.mpr (by rw [hid]; rfl)
  constructor
  · rintro ⟨names, data, hpicked, rfl, rfl⟩
    obtain ⟨hne, -, hspared, hlookup⟩ := pickedUp_iff.mp hpicked
    rw [h.lookup hne] at hlookup
    rw [collectedName_of_names ((hportable _ (hmem hlookup)).keeps hne).2]
    exact ⟨names, data, hne, rfl, hspared, hlookup, rfl⟩
  · rintro ⟨names, data, hne, rfl, hspared, hdata, rfl⟩
    obtain ⟨hrepo, hslash⟩ := (hportable _ (hmem hdata)).keeps hne
    refine ⟨names, data, pickedUp_iff.mpr ⟨hne, hrepo, hspared, ?_⟩,
      (collectedName_of_names hslash).symm, rfl⟩
    rw [h.lookup hne, hdata]

/-- No two files of such a work tree are confused. -/
lemma namesApart_of_mirrors (h : Mirrors L s dest fs files)
    (hportable : ∀ path ∈ files, PortablePath path) : NamesApart ignore fs dest := by
  refine namesApart_of_no_backslash fun names data hpicked => ?_
  obtain ⟨hne, -, -, hlookup⟩ := pickedUp_iff.mp hpicked
  have hmem : relPath names ∈ files := (h.files _).mpr ⟨names, data, hne, rfl, hlookup⟩
  exact ((hportable _ hmem).keeps hne).2

/-- The matcher of the ignore file of a map. -/
def ignoreOf (L : Linked) (W : DirWalk) (s : ObjectStore) (files : BTreeMap String ObjectId) :
    List FileName → Bool → Bool :=
  W.matched ((files[relPath [ignoreFileName]]?).bind (blobData L s))

/-- Nothing of a map is ignored. -/
def AllSpared (ignore : List FileName → Bool → Bool) (files : BTreeMap String ObjectId) : Prop :=
  ∀ names, names ≠ [] → relPath names ∈ files → Spared ignore names

/-- Every file has the id under which `put_blob` stores its bytes. -/
def BlobIds (L : Linked) (s : ObjectStore) (files : BTreeMap String ObjectId) : Prop :=
  ∀ (path : String) id data, files[path]? = some id → blobData L s id = some data →
    L.blobId data = id

/-- **What is collected is the map** exactly when nothing of it is ignored and its ids are those
of `put_blob`. -/
lemma holdsFile_all_iff (h : Mirrors L s dest fs files)
    (hportable : ∀ path ∈ files, PortablePath path) :
    (∀ path id, files[path]? = some id ↔ HoldsFile L ignore fs dest path id) ↔
      AllSpared ignore files ∧ BlobIds L s files := by
  have hget : ∀ {path : String}, path ∈ files → ∃ id, files[path]? = some id := fun hmem =>
    Option.isSome_iff_exists.mp (Std.ExtTreeMap.mem_iff_isSome_getElem?.mp hmem)
  constructor
  · intro hall
    refine ⟨fun names hne hmem => ?_, fun path id data hid hdata => ?_⟩
    · obtain ⟨id, hid⟩ := hget hmem
      obtain ⟨names', data, hne', hrel, hspared, -⟩ :=
        (holdsFile_iff h hportable).mp ((hall _ _).mp hid)
      rwa [← relPath_injective hne' hne hrel]
    · obtain ⟨names', data', -, -, -, hdata', hblob⟩ :=
        (holdsFile_iff h hportable).mp ((hall _ _).mp hid)
      rw [hid, Option.bind_some, hdata] at hdata'
      rw [hblob, Option.some.inj hdata']
  · rintro ⟨hspared, hids⟩ path id
    rw [holdsFile_iff h hportable]
    constructor
    · intro hid
      have hmem : path ∈ files := Std.ExtTreeMap.mem_iff_isSome_getElem?.mpr (by rw [hid]; rfl)
      obtain ⟨names, data, hne, rfl, hlookup⟩ := (h.files path).mp hmem
      have hdata := h.contents names data hne hlookup
      refine ⟨names, data, hne, rfl, hspared names hne hmem, hdata, ?_⟩
      rw [hid, Option.bind_some] at hdata
      exact (hids _ _ _ hid hdata).symm
    · rintro ⟨names, data, -, -, -, hdata, rfl⟩
      obtain ⟨id', hid', hdata'⟩ := Option.bind_eq_some_iff.mp hdata
      rw [hids _ _ _ hid' hdata', hid']

/-- A diff that is reported is that of the base and what is collected. -/
lemma diff_eq_ok {ws : DiskWorkspace} {fuel : ℕ} {d : PathDiff} {s' : ObjectStore}
    (h : ws.diff L W mtime fuel fs s = (.ok (some d), s')) :
    ∃ base target, ws.basePaths L fuel s = .ok (some base) ∧
      ws.collect L W mtime fuel fs s = (.ok (some target), s') ∧ d = diffPaths base target := by
  rw [DiskWorkspace.diff] at h
  split at h
  · cases h
  · cases h
  · next base hbase =>
      split at h
      · cases h
      · cases h
      · next target s₁ htarget =>
          cases h
          exact ⟨base, target, hbase, htarget, rfl⟩

/-- The trees of a built map, in a store that has grown since. -/
lemma stored_of_build {s₀ s₁ : ObjectStore} {root : ObjectId} {mtime₀ : Option ℕ}
    (hready : s₀.Ready L ((dirNode files).trees L))
    (hbuild : buildTree L s₀ files mtime₀ = (.ok root, s₁)) (hgrows : s₁.Grows L s) :
    root = L.treeId ((dirNode files).tree L) ∧ ∀ t ∈ (dirNode files).trees L,
      L.codec.serialize (.tree t) = .ok (L.treeBytes t) ∧
        s.get L (L.treeId t) = .ok (some (.tree t)) := by
  obtain ⟨s', hstore, -, hreads⟩ : ∃ s', storeDir L mtime₀ s₀ (dirNode files) = _ ∧ _ :=
    storeDir_ready hready _ fun _ => id
  rw [buildTree, hstore] at hbuild
  obtain ⟨hroot, rfl⟩ := Prod.mk.inj hbuild
  refine ⟨(Except.ok.inj hroot).symm, fun t ht => ⟨hready.encodes t ht, ?_⟩⟩
  exact ObjectStore.object_eq_some.mp (hgrows _ _ (ObjectStore.object_eq_some.mpr (hreads t ht)))

/-- **There and back.**  The tree of a portable map is checked out into an empty directory.  The
unedited directory has an empty diff, and is committed under the root it came from, exactly when
the ignore file of the map ignores nothing of it and every id is that of `put_blob`. -/
theorem checkout_snapshot_iff {s₀ s₁ : ObjectStore} {root newId : ObjectId} {snap : Snapshot}
    {mtime₀ : Option ℕ} {author message : String} {createdAt : ℕ}
    (hencodes : ∀ data, ∃ b, L.codec.serialize (.blob data) = .ok b)
    (hportable : ∀ path ∈ files, PortablePath path)
    (hunder : ∀ p ∈ files, ∀ q ∈ files, ¬ Under p q)
    (hblobs : ∀ (path : String) id, files[path]? = some id → ∃ data, blobData L s id = some data)
    (hready : s₀.Ready L ((dirNode files).trees L))
    (hbuild : buildTree L s₀ files mtime₀ = (.ok root, s₁)) (hgrows : s₁.Grows L s)
    (hsnap : s.get L snapshotId = .ok (some (.snapshot snap))) (hroot : snap.root = root)
    (hput : (s.put L (.snapshot ⟨root, [snapshotId], author, createdAt, message⟩) mtime).1 =
      .ok newId)
    (hkeeps : s.Faithful L {.snapshot ⟨root, [snapshotId], author, createdAt, message⟩})
    (hempty : dirAt dest fs = some FileTree.emptyDir) :
    (∃ fuel c, materialize L s fuel snapshotId dest fs = (some (.ok ()), c)) ∧
      ∀ fuel c, materialize L s fuel snapshotId dest fs = (some (.ok ()), c) →
        W.Exact c.fs → W.Answers c.fs →
        ((∃ n d s', DiskWorkspace.diff L W mtime n c.fs ⟨dest, some snapshotId⟩ s =
              (.ok (some d), s') ∧ d.isEmpty = true ∧
            ∃ n' id ws s'', DiskWorkspace.commit L W mtime n' c.fs ⟨dest, some snapshotId⟩ s'
                author message createdAt = (.ok (some id), ws, s'') ∧
              ∃ new, s''.get L id = .ok (some (.snapshot new)) ∧ new.root = root) ↔
          AllSpared (ignoreOf L W s files) files ∧ BlobIds L s files) := by
  obtain ⟨hid, hstored⟩ := stored_of_build hready hbuild hgrows
  have hreads : ∀ t ∈ (dirNode files).trees L, s.get L (L.treeId t) = .ok (some (.tree t)) :=
    fun t ht => (hstored t ht).2
  have hnests : Nests {p | p ∈ files} := fun q hq => ⟨not_under_empty fun hempty => by
    obtain ⟨chars, hchars, hnil⟩ := List.mem_map.mp hempty
    refine (hportable q hq chars hchars).1.1 ?_
    simpa using congrArg String.toList hnil, fun p hp => hunder p hp q hq⟩
  subst hid
  obtain ⟨depth, c₀, hmat₀, hdir⟩ := materialize_built hportable hblobs hreads hsnap hroot hempty
  refine ⟨⟨depth, c₀, hmat₀ depth le_rfl⟩, fun fuel c hmat hexact hanswers => ?_⟩
  obtain rfl : c = c₀ := (materialize_unique hmat (hmat₀ depth le_rfl)).2
  have hmirrors := mirrors_built hportable hnests hreads hsnap hroot hempty hmat
  have hmatcher : DiskWorkspace.ignoreMatcher W c.fs ⟨dest, some snapshotId⟩ =
      ignoreOf L W s files := by
    rw [DiskWorkspace.ignoreMatcher, ignoreOf, hmirrors.lookup (by simp)]
  have hapart : NamesApart (ignoreOf L W s files) c.fs dest :=
    namesApart_of_mirrors hmirrors hportable
  obtain ⟨k, hwalk⟩ := (walkTree_built hreads).mpr hnests
  have hpaths : ∀ m, snapshotPaths L s (k + m) snapshotId = .ok (some files) := by
    intro m
    rw [snapshotPaths, hsnap]
    dsimp only
    rw [hroot]
    exact collect_add hwalk m
  constructor
  · rintro ⟨n, d, s', hdiff, hd, -⟩
    obtain ⟨base, target, hbase, htarget, rfl⟩ := diff_eq_ok hdiff
    obtain rfl : base = files := snapshotPaths_unique hbase (hpaths 0)
    obtain rfl := diffPaths_isEmpty.mp hd
    have hcollect := (DiskWorkspace.collect_spec author message createdAt htarget).2 base rfl
    rw [hmatcher] at hcollect
    exact (holdsFile_all_iff hmirrors hportable).mp fun path id =>
      getElem?_collected hexact hapart hcollect
  · rintro ⟨hspared, hids⟩
    have hall := (holdsFile_all_iff hmirrors hportable).mpr ⟨hspared, hids⟩
    obtain ⟨d, hd⟩ := Option.isSome_iff_exists.mp hdir
    have hopens : ∀ x ∈ [[]], OpensWhole (openDir L W (ignoreOf L W s files) c.fs dest) x := by
      intro x hx
      rw [List.mem_singleton.mp hx]
      exact opensWhole_openDir hanswers (by rwa [List.append_nil])
    obtain ⟨k', m, hm⟩ := collect_opens (fun _ => true) hopens ∅
    obtain rfl : m = files := Std.ExtTreeMap.ext_getElem? fun path => Option.ext fun id => by
      rw [getElem?_collected hexact hapart hm, hall]
    -- every file that is picked up is a blob of the store
    have hblob : ∀ names data, PickedUp (ignoreOf L W s m) c.fs dest names data →
        s.put L (.blob data) mtime = (.ok (L.blobId data), s) := by
      intro names data hpicked
      obtain ⟨hne, -, -, hlookup⟩ := pickedUp_iff.mp hpicked
      rw [hmirrors.lookup hne] at hlookup
      obtain ⟨id, hid, hdata⟩ := Option.bind_eq_some_iff.mp hlookup
      obtain ⟨b, hb⟩ := hencodes data
      have hblobId : L.blobId data = L.fromContent b := by rw [Linked.blobId, hb]
      rw [hblobId]
      refine put_stored hb ?_
      rw [← hblobId, hids _ _ _ hid hdata]
      exact blobData_eq_some.mp hdata
    have hwalks : ∀ n, DiskWorkspace.collect L W mtime (n + k') c.fs ⟨dest, some snapshotId⟩ s =
        (.ok (some m), s) := by
      intro n
      rw [DiskWorkspace.collect, hmatcher, Nat.add_comm]
      refine collectLoop_stored (fun rel hrel => ?_) hblob (collect_add hm n)
      rw [List.mem_singleton.mp hrel]
      exact entered_nil
    have hdiff : DiskWorkspace.diff L W mtime (k + k') c.fs ⟨dest, some snapshotId⟩ s =
        (.ok (some (diffPaths m m)), s) := by
      rw [DiskWorkspace.diff, DiskWorkspace.basePaths]
      dsimp only
      rw [hpaths k']
      dsimp only
      rw [hwalks k]
    obtain ⟨-, hread⟩ : _ ∧ (s.put L (.snapshot ⟨L.treeId ((dirNode m).tree L), [snapshotId],
        author, createdAt, message⟩) mtime).2.get L newId = .ok (some (.snapshot
          ⟨L.treeId ((dirNode m).tree L), [snapshotId], author, createdAt, message⟩)) :=
      hkeeps.put rfl hput
    refine ⟨_, _, s, hdiff, diffPaths_isEmpty.mpr rfl, k + k', newId, ⟨dest, some newId⟩, _, ?_,
      _, hread, rfl⟩
    rw [DiskWorkspace.commit, hwalks k]
    dsimp only
    rw [buildTree, storeDir_stored (dirNode m) hstored]
    dsimp only [Option.toList_some]
    rw [eq_mk_of_fst hput]

end RoundTrip

/-! ### A file that is ignored, and one that is not -/

namespace Tracked

/-- An ignore file with the pattern `b`. -/
def ignoreFile : Object := .blob (ascii "b")

def file : Object := .blob (ascii "data")

/-- The ignore file, and a file of the given name. -/
def tracked (name : String) : BTreeMap String ObjectId :=
  ((∅ : BTreeMap String ObjectId).insert ".boleignore" ignoreFile.refId).insert name file.refId

def root (name : String) : Tree :=
  ⟨((∅ : BTreeMap String TreeEntry).insert ".boleignore" ⟨ignoreFile.refId, .blob⟩).insert name
    ⟨file.refId, .blob⟩⟩

def first (name : String) : Snapshot := ⟨(Object.tree (root name)).refId, [], "x", 0, "start"⟩

def firstId (name : String) : ObjectId := (Object.snapshot (first name)).refId

/-- The commit of the unedited checkout. -/
def second (name : String) : Snapshot :=
  ⟨(Object.tree (root name)).refId, [firstId name], "x", 1, "again"⟩

def objects (name : String) : List Object :=
  [ignoreFile, file, .tree (root name), .snapshot (first name), .snapshot (second name)]

def linked (name : String) : Linked := .over (objects name)

/-- All but the last are stored. -/
def store (name : String) : ObjectStore := .holding (linked name) ((objects name).take 4)

def aFile : FileName := ⟨['a'], by decide⟩

def bFile : FileName := ⟨['b'], by decide⟩

/-- The names that occur. -/
def shelf : List FileName := [workDir, ignoreFileName, aFile, bFile]

/-- A directory is read in the order of the shelf; an ignore file is one name. -/
def dirWalk : DirWalk where
  readDir fs l :=
    match dirAt l fs with
    | some d => .ok (shelf.filter fun n => (d n).isSome)
    | none => .error (.io .notFound)
  matched pattern names _ :=
    match pattern, names.getLast? with
    | some pattern, some n => decide (ascii (String.ofList n.chars) = pattern)
    | _, _ => false

lemma dirWalk_answers (fs : Fs Bytes) : dirWalk.Answers fs := by
  intro l hl
  obtain ⟨d, hd⟩ := Option.isSome_iff_exists.mp hl
  exact ⟨_, by rw [dirWalk]; dsimp only; rw [hd]⟩

/-- What a checkout of the two files leaves. -/
def checkedOut (n : FileName) : Fs Bytes :=
  graft [workDir] (Function.update (Function.update FileTree.emptyDir ignoreFileName
    (some (.file (ascii "b")))) n (some (.file (ascii "data")))) checkoutFs

lemma dirWalk_exact {n : FileName} (hn : n ∈ shelf) : dirWalk.Exact (checkedOut n) := by
  have hnames : ∀ l d m, dirAt l (checkedOut n) = some d → (d m).isSome → m ∈ shelf := by
    intro l d m hd hm
    rw [checkedOut, graft_name] at hd
    cases l with
    | nil =>
        cases hd
        by_cases hwork : m = workDir
        · simp [hwork, shelf]
        · simp [hwork, checkoutFs] at hm
    | cons x rest =>
        by_cases hx : x = workDir
        · subst hx
          rw [dirAt, Function.update_self] at hd
          cases rest with
          | nil =>
              cases hd
              by_cases hfile : m = n
              · rwa [hfile]
              · by_cases hignore : m = ignoreFileName
                · simp [hignore, shelf]
                · simp [hfile, hignore, FileTree.emptyDir] at hm
          | cons y rest =>
              by_cases hfile : y = n
              · simp [dirAt, hfile] at hd
              · by_cases hignore : y = ignoreFileName
                · simp [dirAt, hignore, Function.update_apply] at hd
                  split_ifs at hd
                · simp [dirAt, hfile, hignore, FileTree.emptyDir] at hd
        · simp [dirAt, hx, checkoutFs] at hd
  intro l names hread
  rw [dirWalk] at hread
  dsimp only at hread
  split at hread
  · next d hd =>
      cases hread
      refine ⟨by rw [hd]; rfl, fun m => ?_⟩
      rw [List.mem_filter, entryAt, hd, Option.bind_some]
      exact ⟨And.right, fun hm => ⟨hnames l d m hd hm, hm⟩⟩
  · cases hread

/-- What is evaluated of the objects of a name. -/
structure Held (name : String) : Prop where
  bytes : ((objects name).map Postcard.object).Nodup
  ids : ((objects name).map Object.refId).Nodup
  held : ∀ o ∈ objects name, (store name).exists_ o.refId = .ok true →
    (store name).getRaw (linked name) o.refId = .ok (some (Postcard.object o))
  there : ∀ o ∈ (objects name).take 4, (store name).exists_ o.refId = .ok true
  entries : (root name).entries.toList =
    [(".boleignore", ⟨ignoreFile.refId, .blob⟩), (name, ⟨file.refId, .blob⟩)]
  trees : ∀ t ∈ (dirNode (tracked name)).trees (linked name), t.entries = (root name).entries
  put : ((store name).put (linked name) (.snapshot (second name)) none).1 =
    .ok (Object.snapshot (second name)).refId

instance (name : String) : Decidable (Held name) :=
  decidable_of_iff (_ ∧ _ ∧ _ ∧ _ ∧ _ ∧ _ ∧ _)
    ⟨fun ⟨h₁, h₂, h₃, h₄, h₅, h₆, h₇⟩ => ⟨h₁, h₂, h₃, h₄, h₅, h₆, h₇⟩,
      fun h => ⟨h.bytes, h.ids, h.held, h.there, h.entries, h.trees, h.put⟩⟩

section Held

variable {name : String} {n : FileName}

lemma Held.faithful (h : Held name) :
    (store name).Faithful (linked name) {o | o ∈ objects name} :=
  ObjectStore.faithful_over h.bytes h.ids h.held

lemma Held.get (h : Held name) {o : Object} (ho : o ∈ (objects name).take 4) :
    (store name).get (linked name) o.refId = .ok (some o) :=
  ObjectStore.object_eq_some.mp
    (h.faithful.get (List.mem_of_mem_take ho) rfl (h.there o ho))

lemma Held.blobs (h : Held name) :
    blobData (linked name) (store name) ignoreFile.refId = some (ascii "b") ∧
      blobData (linked name) (store name) file.refId = some (ascii "data") :=
  ⟨blobData_eq_some.mpr (h.get (by simp [objects])),
    blobData_eq_some.mpr (h.get (by simp [objects]))⟩

lemma Held.tree_eq (h : Held name) {t : Tree}
    (ht : t ∈ (dirNode (tracked name)).trees (linked name)) : t = root name := by
  obtain ⟨entries⟩ := t
  exact congrArg Tree.mk (h.trees _ ht)

lemma treeId_root (name : String) :
    (linked name).treeId (root name) = (Object.tree (root name)).refId := by
  rw [Linked.treeId, Linked.treeBytes, linked]
  rfl

lemma Held.stored (h : Held name) {t : Tree}
    (ht : t ∈ (dirNode (tracked name)).trees (linked name)) :
    (linked name).codec.serialize (.tree t) = .ok ((linked name).treeBytes t) ∧
      (store name).get (linked name) ((linked name).treeId t) = .ok (some (.tree t)) := by
  rw [h.tree_eq ht, treeId_root]
  exact ⟨rfl, h.get (by simp [objects])⟩

lemma Held.ready (h : Held name) :
    (store name).Ready (linked name) ((dirNode (tracked name)).trees (linked name)) where
  encodes t ht := (h.stored ht).1
  faithful := h.faithful.mono (by
    rintro o ⟨t, ht, rfl⟩
    rw [h.tree_eq ht]
    simp [objects])
  answers t ht := by
    rw [h.tree_eq ht, treeId_root]
    exact ⟨true, h.there _ (by simp [objects])⟩

/-- The tree is there already. -/
lemma Held.build (h : Held name) : buildTree (linked name) (store name) (tracked name) none =
    (.ok (first name).root, store name) := by
  have hroot : (dirNode (tracked name)).tree (linked name) = root name := by
    refine h.tree_eq ?_
    cases dirNode (tracked name) with
    | node files dirs =>
        rw [DirNode.trees]
        exact List.mem_cons_self
  rw [buildTree, storeDir_stored _ fun t ht => h.stored ht, hroot]
  rfl

/-- Both files are written. -/
lemma Held.checkout (h : Held name) (hn : n.chars = name.toList) (hne : n ≠ ignoreFileName) :
    materialize (linked name) (store name) 1 (firstId name) [workDir] checkoutFs =
      (some (.ok ()), ⟨checkedOut n, [[workDir, ignoreFileName], [workDir, n]]⟩) := by
  have hsnap : (store name).get (linked name) (firstId name) =
      .ok (some (.snapshot (first name))) := h.get (by simp [objects])
  have hroot : (store name).get (linked name) (first name).root =
      .ok (some (.tree (root name))) := h.get (by simp [objects])
  rw [materialize, createDirAll_isDir (by rw [checkoutFs_empty]; rfl)]
  dsimp only
  rw [hsnap]
  dsimp only
  rw [writeTree, hroot]
  dsimp only
  rw [h.entries, @writeEntries_blob _ _ _ _ _ _ _ _ _ _ ignoreFileName _
      checkoutFs_empty rfl rfl h.blobs.1,
    writeEntries_blob (dirAt_graft _ _ _) hn (by simp [hne, FileTree.emptyDir]) h.blobs.2,
    writeEntries, graft_graft]
  rfl

lemma mem_tracked {path : String} {id : ObjectId} (h : (tracked name)[path]? = some id) :
    (path = name ∧ id = file.refId) ∨ (path = ".boleignore" ∧ id = ignoreFile.refId) := by
  rw [tracked, Std.ExtTreeMap.getElem?_insert, Std.ExtTreeMap.getElem?_insert] at h
  split_ifs at h with hname hignore
  · exact Or.inl ⟨(Std.LawfulEqOrd.eq_of_compare hname).symm, (Option.some.inj h).symm⟩
  · exact Or.inr ⟨(Std.LawfulEqOrd.eq_of_compare hignore).symm, (Option.some.inj h).symm⟩
  · simp at h

lemma tracked_ignoreFile (hne : name ≠ ".boleignore") :
    (tracked name)[".boleignore"]? = some ignoreFile.refId := by
  rw [tracked, Std.ExtTreeMap.getElem?_insert, if_neg, Std.ExtTreeMap.getElem?_insert_self]
  exact fun h => hne (Std.LawfulEqOrd.eq_of_compare h)

end Held

lemma held_both : ∀ name ∈ ["a", "b"], Held name := by decide +kernel

lemma held_a : Held "a" := held_both "a" (by simp)

lemma held_b : Held "b" := held_both "b" (by simp)

/-- The paths may stand in a tree. -/
lemma portable_tracked {name : String} (hname : name ∈ ["a", "b"]) :
    (∀ path ∈ tracked name, PortablePath path) ∧
      ∀ p ∈ tracked name, ∀ q ∈ tracked name, ¬ Under p q := by
  have hmem : ∀ p ∈ tracked name, p ∈ [name, ".boleignore"] := by
    intro p hp
    obtain ⟨id, hid⟩ := Option.isSome_iff_exists.mp (Std.ExtTreeMap.mem_iff_isSome_getElem?.mp hp)
    rcases mem_tracked hid with ⟨rfl, -⟩ | ⟨rfl, -⟩ <;> simp
  have hpaths : ∀ name ∈ ["a", "b"], ∀ p ∈ [name, ".boleignore"],
      (∀ seg ∈ p.toList.splitOn '/',
        IsProper seg ∧ '\x00' ∉ seg ∧ '\\' ∉ seg ∧ seg ≠ repoDirName.chars) ∧
      ∀ q ∈ [name, ".boleignore"], ¬ Under p q := by
    decide +kernel
  exact ⟨fun p hp => (hpaths name hname p (hmem p hp)).1,
    fun p hp q hq => (hpaths name hname p (hmem p hp)).2 q (hmem q hq)⟩

/-- Nothing of the two is ignored. -/
lemma spared_a :
    AllSpared (ignoreOf (linked "a") dirWalk (store "a") (tracked "a")) (tracked "a") := by
  have hignore : ignoreOf (linked "a") dirWalk (store "a") (tracked "a") =
      dirWalk.matched (some (ascii "b")) := by
    rw [ignoreOf, show relPath [ignoreFileName] = ".boleignore" by decide,
      tracked_ignoreFile (by decide), Option.bind_some, held_a.blobs.1]
  have hone : ∀ {names : List FileName} {n : FileName}, names ≠ [] →
      relPath names = relPath [n] → n ∈ [aFile, ignoreFileName] →
      Spared (dirWalk.matched (some (ascii "b"))) names := by
    intro names n hne hrel hn
    obtain rfl := relPath_injective hne (by simp) hrel
    refine ⟨?_, fun dir hdir hwhole hpre => ?_⟩
    · have hmatched : ∀ n ∈ [aFile, ignoreFileName],
          dirWalk.matched (some (ascii "b")) [n] false = false := by decide
      exact hmatched n hn
    · have hpos := List.length_pos_iff.mpr hdir
      have hle := hpre.length_le
      rw [List.length_singleton] at hle
      exact absurd (hpre.eq_of_length (by rw [List.length_singleton]; omega)) hwhole
  intro names hne hmem
  obtain ⟨id, hid⟩ := Option.isSome_iff_exists.mp (Std.ExtTreeMap.mem_iff_isSome_getElem?.mp hmem)
  rw [hignore]
  rcases mem_tracked hid with ⟨hrel, -⟩ | ⟨hrel, -⟩
  · exact hone hne (hrel.trans (by decide)) (n := aFile) (by simp)
  · exact hone hne (hrel.trans (by decide)) (n := ignoreFileName) (by simp)

lemma Held.blobIds (h : Held name) : BlobIds (linked name) (store name) (tracked name) := by
  intro path id data hid hdata
  rcases mem_tracked hid with ⟨-, rfl⟩ | ⟨-, rfl⟩
  · rw [h.blobs.2] at hdata
    obtain rfl := Option.some.inj hdata
    rfl
  · rw [h.blobs.1] at hdata
    obtain rfl := Option.some.inj hdata
    rfl

end Tracked

open Tracked in
/-- A checkout whose ignore file names another file is committed under the same root. -/
theorem checkout_snapshot_iff_spared :
    ∃ fuel c, materialize (linked "a") (store "a") fuel (firstId "a") [workDir] checkoutFs =
        (some (.ok ()), c) ∧
      ∃ n d s', DiskWorkspace.diff (linked "a") dirWalk none n c.fs ⟨[workDir], some (firstId "a")⟩
          (store "a") = (.ok (some d), s') ∧ d.isEmpty = true ∧
        ∃ n' id ws s'', DiskWorkspace.commit (linked "a") dirWalk none n' c.fs
            ⟨[workDir], some (firstId "a")⟩ s' "x" "again" 1 = (.ok (some id), ws, s'') ∧
          ∃ new, s''.get (linked "a") id = .ok (some (.snapshot new)) ∧
            new.root = (first "a").root := by
  obtain ⟨hportable, hunder⟩ := @portable_tracked "a" (by simp)
  have hblobs : ∀ (path : String) id, (tracked "a")[path]? = some id →
      ∃ data, blobData (linked "a") (store "a") id = some data := by
    intro path id hid
    rcases mem_tracked hid with ⟨-, rfl⟩ | ⟨-, rfl⟩
    · exact ⟨_, held_a.blobs.2⟩
    · exact ⟨_, held_a.blobs.1⟩
  have hkeeps : (store "a").Faithful (linked "a") {.snapshot (second "a")} :=
    held_a.faithful.mono (by simp [objects])
  obtain ⟨⟨fuel, c, hmat⟩, hall⟩ := checkout_snapshot_iff (W := dirWalk) (fun data => ⟨_, rfl⟩)
    hportable hunder hblobs held_a.ready held_a.build (.refl _ _)
    (held_a.get (by simp [objects])) rfl held_a.put hkeeps checkoutFs_empty
  have hc := (materialize_unique hmat (held_a.checkout (n := aFile) rfl (by decide))).2
  have hexact : dirWalk.Exact c.fs := by
    rw [hc]
    exact dirWalk_exact (by simp [shelf])
  exact ⟨fuel, c, hmat,
    (hall fuel c hmat hexact (dirWalk_answers _)).mpr ⟨spared_a, held_a.blobIds⟩⟩

open Tracked in
/-- **A tracked file is dropped** from the checkout of a snapshot whose ignore file names it. -/
theorem checkout_drops_tracked :
    (∀ path ∈ tracked "b", PortablePath path) ∧
      (∀ p ∈ tracked "b", ∀ q ∈ tracked "b", ¬ Under p q) ∧
      buildTree (linked "b") (store "b") (tracked "b") none =
        (.ok (first "b").root, store "b") ∧
      (store "b").get (linked "b") (firstId "b") = .ok (some (.snapshot (first "b"))) ∧
      dirAt [workDir] checkoutFs = some FileTree.emptyDir ∧
      ∃ c, materialize (linked "b") (store "b") 1 (firstId "b") [workDir] checkoutFs =
          (some (.ok ()), c) ∧ dirWalk.Exact c.fs ∧
        ∃ d s', DiskWorkspace.diff (linked "b") dirWalk none 1 c.fs
            ⟨[workDir], some (firstId "b")⟩ (store "b") = (.ok (some d), s') ∧
          d.removed = ["b"] := by
  obtain ⟨hportable, hunder⟩ := @portable_tracked "b" (by simp)
  have hrun : ((DiskWorkspace.diff (linked "b") dirWalk none 1 (checkedOut bFile)
      ⟨[workDir], some (firstId "b")⟩ (store "b")).1.map (Option.map PathDiff.removed)) =
        .ok (some ["b"]) := by decide +kernel
  refine ⟨hportable, hunder, held_b.build, held_b.get (by simp [objects]), checkoutFs_empty, _,
    held_b.checkout (n := bFile) rfl (by decide), dirWalk_exact (by simp [shelf]), ?_⟩
  cases hdiff : (DiskWorkspace.diff (linked "b") dirWalk none 1 (checkedOut bFile)
      ⟨[workDir], some (firstId "b")⟩ (store "b")).1 with
  | error e =>
      rw [hdiff] at hrun
      cases hrun
  | ok o =>
      rw [hdiff] at hrun
      obtain ⟨d, rfl, hremoved⟩ := Option.map_eq_some_iff.mp (Except.ok.inj hrun)
      exact ⟨d, _, eq_mk_of_fst hdiff, hremoved⟩

end Bole
