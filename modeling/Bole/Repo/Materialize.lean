import Bole.Lib.Posix
import Bole.Repo.Ephemeral

/-!
Checking a snapshot out into a directory: `src/repo/materialize.rs`.

The names of tree entries are joined onto the path as they are.

* `treeFiles`: the files of a tree in the order in which they are written;
* `writeTree_wrote`: while every path has proper segments, all files stay below the destination
  and are those of the tree;
* `takes_tree`: `snapshot_paths` sees the same files;
* `materialize_faithful_iff`: a checkout that succeeds is faithful exactly when the paths have
  proper segments and the last of several entries of one path is the one that counts.
-/

namespace Bole

open Posix Collect

/-! ### The checkout -/

/-- An error of the file system. -/
def faultError : Posix.Fault → Error
  | .notFound => .io .notFound
  | .notADirectory => .io .notADirectory
  | .isADirectory => .io .isADirectory
  | .alreadyExists => .io .alreadyExists
  | .invalidInput => .io .other

/-- A file system, with the locations of the files that a checkout has written. -/
structure Checkout where
  fs : Fs Bytes
  written : List (List FileName)

/-- The loop of `write_tree` over the entries of a tree; `sub` writes the trees inside. -/
def writeEntries (L : Linked) (s : ObjectStore)
    (sub : ObjectId → RawPath → Checkout → Option (Result Unit) × Checkout) (base : RawPath) :
    List (String × TreeEntry) → Checkout → Option (Result Unit) × Checkout
  | [], c => (some (.ok ()), c)
  | (name, entry) :: rest, c =>
      match entry.kind with
      | .blob =>
          match s.get L entry.id with
          | .error e => (some (.error e), c)
          | .ok (some (.blob data)) =>
              match writeFile (join base name.toList) data c.fs with
              | .error e => (some (.error (faultError e)), c)
              | .ok (l, fs) => writeEntries L s sub base rest ⟨fs, c.written ++ [l]⟩
          | .ok (some _) => (some (.error (.storage (entry.id.toHex ++ " is not a blob"))), c)
          | .ok none => (some (.error (.storage ("blob not found: " ++ entry.id.toHex))), c)
      | .tree =>
          match createDirAll (join base name.toList) c.fs with
          | (.error e, fs) => (some (.error (faultError e)), { c with fs := fs })
          | (.ok (), fs) =>
              match sub entry.id (join base name.toList) { c with fs := fs } with
              | (some (.ok ()), c) => writeEntries L s sub base rest c
              | r => r

/-- `write_tree`, down to the given depth; `none` means that the tree is deeper. -/
def writeTree (L : Linked) (s : ObjectStore) :
    ℕ → ObjectId → RawPath → Checkout → Option (Result Unit) × Checkout
  | 0, _, _, c => (none, c)
  | fuel + 1, treeId, base, c =>
      match s.get L treeId with
      | .error e => (some (.error e), c)
      | .ok (some (.tree t)) => writeEntries L s (writeTree L s fuel) base t.entries.toList c
      | .ok (some _) => (some (.error (.storage (treeId.toHex ++ " is not a tree"))), c)
      | .ok none => (some (.error (.storage ("tree not found: " ++ treeId.toHex))), c)

/-- `materialize`, into the directory at a location. -/
def materialize (L : Linked) (s : ObjectStore) (fuel : ℕ) (snapshotId : ObjectId)
    (dest : List FileName) (fs : Fs Bytes) : Option (Result Unit) × Checkout :=
  match createDirAll (dest.map FileName.chars) fs with
  | (.error e, fs) => (some (.error (faultError e)), ⟨fs, []⟩)
  | (.ok (), fs) =>
      match s.get L snapshotId with
      | .error e => (some (.error e), ⟨fs, []⟩)
      | .ok (some (.snapshot snap)) =>
          writeTree L s fuel snap.root (dest.map FileName.chars) ⟨fs, []⟩
      | .ok (some _) =>
          (some (.error (.storage (snapshotId.toHex ++ " is not a snapshot"))), ⟨fs, []⟩)
      | .ok none =>
          (some (.error (.storage ("snapshot not found: " ++ snapshotId.toHex))), ⟨fs, []⟩)

/-! ### The files of a snapshot -/

/-- The files of an entry. -/
def entryFiles (sub : ObjectId → String → List (String × ObjectId)) (pfx : String)
    (e : String × TreeEntry) : List (String × ObjectId) :=
  match e.2.kind with
  | .blob => [(joinPath pfx e.1, e.2.id)]
  | .tree => sub e.2.id (joinPath pfx e.1)

/-- The files of a tree with their paths, in the order of the entries. -/
def treeFiles (L : Linked) (s : ObjectStore) : ℕ → ObjectId → String → List (String × ObjectId)
  | 0, _, _ => []
  | fuel + 1, treeId, pfx =>
      match s.getTree L treeId with
      | .ok (some t) => t.entries.toList.flatMap (entryFiles (treeFiles L s fuel) pfx)
      | _ => []

/-- The files of a snapshot. -/
def snapshotFiles (L : Linked) (s : ObjectStore) (fuel : ℕ) (snapshotId : ObjectId) :
    List (String × ObjectId) :=
  match s.get L snapshotId with
  | .ok (some (.snapshot snap)) => treeFiles L s fuel snap.root ""
  | _ => []

/-- The bytes of a blob. -/
def blobData (L : Linked) (s : ObjectStore) (id : ObjectId) : Option Bytes :=
  match s.get L id with
  | .ok (some (.blob data)) => some data
  | _ => none

/-- The segments of a path are neither empty nor made of dots. -/
def CleanPath (path : String) : Prop := ∀ seg ∈ path.toList.splitOn '/', IsProper seg

instance (path : String) : Decidable (CleanPath path) := inferInstanceAs (Decidable (∀ _ ∈ _, _))

/-- The path of a file below the destination. -/
def relPath (names : List FileName) : String :=
  String.ofList (['/'].intercalate (names.map FileName.chars))

/-- No file outside the destination is written. -/
def StaysInside (dest : List FileName) (fs : Fs Bytes) (c : Checkout) : Prop :=
  (∀ q ∈ c.written, dest <+: q) ∧
    ∀ q, ¬ dest <+: q → FileTree.lookup q c.fs = FileTree.lookup q fs

/-- The files below the destination are exactly the given paths, each with the bytes of its
blob. -/
structure Mirrors (L : Linked) (s : ObjectStore) (dest : List FileName) (fs : Fs Bytes)
    (paths : BTreeMap String ObjectId) : Prop where
  files : ∀ p, p ∈ paths ↔
    ∃ names data, names ≠ [] ∧ relPath names = p ∧ FileTree.lookup (dest ++ names) fs = some data
  contents : ∀ names data, names ≠ [] → FileTree.lookup (dest ++ names) fs = some data →
    (paths[relPath names]?).bind (blobData L s) = some data

/-! ### Paths -/

variable {L : Linked} {s : ObjectStore} {dest : List FileName} {fs fs' : Fs Bytes}
  {c c' : Checkout}

lemma splitOn_relPath {names : List FileName} (hne : names ≠ []) :
    (relPath names).toList.splitOn '/' = names.map FileName.chars := by
  rw [relPath, String.toList_ofList]
  refine List.splitOn_intercalate '/' (fun l hl => ?_) (by simpa using hne)
  obtain ⟨n, -, rfl⟩ := List.mem_map.mp hl
  exact n.valid.2.2.2.1

lemma relPath_of_splitOn {names : List FileName} {p : String}
    (h : names.map FileName.chars = p.toList.splitOn '/') : relPath names = p := by
  rw [relPath, h, List.intercalate_splitOn, String.ofList_toList]

lemma chars_injective : Function.Injective FileName.chars := by
  rintro ⟨a, _⟩ ⟨b, _⟩ rfl
  rfl

lemma relPath_injective {names names' : List FileName} (hne : names ≠ []) (hne' : names' ≠ [])
    (h : relPath names = relPath names') : names = names' := by
  have hsplit := splitOn_relPath hne
  rw [h, splitOn_relPath hne'] at hsplit
  exact (List.map_injective_iff.mpr chars_injective hsplit).symm

/-- The path of a file has proper segments. -/
lemma cleanPath_relPath {names : List FileName} (hne : names ≠ []) : CleanPath (relPath names) := by
  rw [CleanPath, splitOn_relPath hne]
  intro seg hseg
  obtain ⟨n, -, rfl⟩ := List.mem_map.mp hseg
  exact ⟨n.valid.1, n.valid.2.1, n.valid.2.2.1⟩

lemma not_cleanPath_empty : ¬ CleanPath "" := by decide

lemma splitOn_of_head {name : List Char} (h : name.head? = some '/') :
    ∃ rest, name.splitOn '/' = [] :: rest := by
  cases name with
  | nil => cases h
  | cons c rest =>
      obtain rfl : c = '/' := by simpa using h
      exact ⟨rest.splitOn '/', List.splitOn_append_cons_self [] rest⟩

/-- A path of the file system is where the path of the snapshot says, as long as that one has
proper segments; empty names at the root leave empty segments behind. -/
def Tracks (dest : List FileName) (base : RawPath) (pfx : String) : Prop :=
  ∃ k, (pfx = "" ∧ base = dest.map FileName.chars ++ List.replicate k []) ∨
    (pfx ≠ "" ∧ (CleanPath pfx → base =
      dest.map FileName.chars ++ (List.replicate k [] ++ pfx.toList.splitOn '/')))

lemma tracks_root (dest : List FileName) : Tracks dest (dest.map FileName.chars) "" :=
  ⟨0, Or.inl ⟨rfl, by simp⟩⟩

/-- Joining a name on both sides. -/
lemma Tracks.join {base : RawPath} {pfx : String} (h : Tracks dest base pfx) (name : String) :
    Tracks dest (join base name.toList) (joinPath pfx name) := by
  obtain ⟨k, ⟨rfl, rfl⟩ | ⟨hne, hbase⟩⟩ := h
  · rw [joinPath_empty]
    by_cases hname : name = ""
    · subst hname
      refine ⟨k + 1, Or.inl ⟨rfl, ?_⟩⟩
      rw [List.replicate_succ', ← List.append_assoc]
      rfl
    · refine ⟨k, Or.inr ⟨hname, fun hclean => ?_⟩⟩
      rw [Posix.join, if_neg, List.append_assoc]
      intro hhead
      obtain ⟨rest, hrest⟩ := splitOn_of_head hhead
      exact (hclean [] (by simp [hrest])).1 rfl
  · have hne' : joinPath pfx name ≠ "" := by
      rw [joinPath_of_ne hne]
      intro h
      have := congrArg String.toList h
      simp at this
    refine ⟨k, Or.inr ⟨hne', fun hclean => ?_⟩⟩
    rw [CleanPath, splitOn_joinPath hne] at hclean
    have hpfx : CleanPath pfx := fun seg hseg => hclean seg (List.mem_append_left _ hseg)
    rw [Posix.join, if_neg, hbase hpfx, splitOn_joinPath hne]
    · simp only [List.append_assoc]
    · intro hhead
      obtain ⟨rest, hrest⟩ := splitOn_of_head hhead
      exact (hclean [] (by simp [hrest])).1 rfl

/-- A file is written where its path says. -/
lemma Tracks.writeFile {base : RawPath} {pfx name : String} {data : Bytes} {l : List FileName}
    (h : Tracks dest base pfx) (hclean : CleanPath (joinPath pfx name))
    (hw : writeFile (Posix.join base name.toList) data fs = .ok (l, fs')) :
    ∃ names : List FileName, names ≠ [] ∧ relPath names = joinPath pfx name ∧
      l = dest ++ names ∧ ∀ q, FileTree.lookup q fs' =
        if q = dest ++ names then some data else FileTree.lookup q fs := by
  obtain ⟨cs, hcs, rfl, hlookup⟩ := lookup_writeFile hw
  obtain ⟨k, ⟨hempty, -⟩ | ⟨-, hbase⟩⟩ := h.join name
  · rw [hempty] at hclean
    exact absurd hclean not_cleanPath_empty
  · rw [hbase hclean] at hcs
    obtain ⟨names, hnames, hlocate⟩ := location_of_clean hclean hcs
    refine ⟨names, ?_, relPath_of_splitOn hnames, hlocate, fun q => by rw [hlookup, hlocate]⟩
    rintro rfl
    exact List.splitOn_ne_nil _ _ hnames.symm

/-! ### What a checkout writes -/

/-- The files below the destination are those of a map, and where it has none the files that
were there before. -/
def FilesAre (L : Linked) (s : ObjectStore) (dest : List FileName) (before fs : Fs Bytes)
    (m : BTreeMap String ObjectId) : Prop :=
  ∀ names, names ≠ [] → FileTree.lookup (dest ++ names) fs =
    (m[relPath names]?).elim (FileTree.lookup (dest ++ names) before) (blobData L s)

/-- A location is that of one of the files. -/
def IsFileOf (dest : List FileName) (files : List (String × ObjectId)) (q : List FileName) :
    Prop :=
  ∃ e ∈ files, ∃ names, names ≠ [] ∧ relPath names = e.1 ∧ q = dest ++ names

/-- What writing the given files one after another does. -/
structure Writes (L : Linked) (s : ObjectStore) (dest : List FileName)
    (files : List (String × ObjectId)) (c : Checkout) (result : Option (Result Unit))
    (c' : Checkout) : Prop where
  outside : ∀ q, ¬ dest <+: q → FileTree.lookup q c'.fs = FileTree.lookup q c.fs
  log : ∃ added, c'.written = c.written ++ added ∧ ∀ q ∈ added, IsFileOf dest files q
  all : result = some (.ok ()) →
    ∀ e ∈ files, ∃ names, names ≠ [] ∧ relPath names = e.1 ∧ dest ++ names ∈ c'.written
  files : result = some (.ok ()) → ∀ before m, FilesAre L s dest before c.fs m →
    FilesAre L s dest before c'.fs (insertAll (fun _ => true) files m)

/-- They are written as long as their paths have proper segments. -/
def Wrote (L : Linked) (s : ObjectStore) (dest : List FileName) (files : List (String × ObjectId))
    (c : Checkout) (result : Option (Result Unit)) (c' : Checkout) : Prop :=
  (∀ e ∈ files, CleanPath e.1) → Writes L s dest files c result c'

lemma insertAll_append {keep : String → Bool} {files files' : List (String × ObjectId)}
    {m : BTreeMap String ObjectId} :
    insertAll keep (files ++ files') m = insertAll keep files' (insertAll keep files m) :=
  List.foldl_append

lemma IsFileOf.mono {files files' : List (String × ObjectId)} {q : List FileName}
    (h : IsFileOf dest files q) (hsub : files ⊆ files') : IsFileOf dest files' q := by
  obtain ⟨e, he, hnames⟩ := h
  exact ⟨e, hsub he, hnames⟩

/-- A failure writes nothing more. -/
lemma Wrote.failed (files : List (String × ObjectId)) (e : Error) :
    Wrote L s dest files c (some (.error e)) c :=
  fun _ => ⟨fun _ _ => rfl, ⟨[], by simp, by simp⟩, nofun, nofun⟩

lemma Wrote.append {files files' : List (String × ObjectId)} {c'' : Checkout}
    {result : Option (Result Unit)} (h : Wrote L s dest files c (some (.ok ())) c')
    (h' : Wrote L s dest files' c' result c'') :
    Wrote L s dest (files ++ files') c result c'' := by
  intro hclean
  have hw := h fun e he => hclean e (List.mem_append_left _ he)
  have hw' := h' fun e he => hclean e (List.mem_append_right _ he)
  obtain ⟨added, hlog, hadded⟩ := hw.log
  obtain ⟨added', hlog', hadded'⟩ := hw'.log
  refine ⟨fun q hq => (hw'.outside q hq).trans (hw.outside q hq), ⟨added ++ added', ?_, ?_⟩,
    fun hok e he => ?_, fun hok before m hm => ?_⟩
  · rw [hlog', hlog, List.append_assoc]
  · intro q hq
    rcases List.mem_append.mp hq with hq | hq
    · exact (hadded q hq).mono (List.subset_append_left _ _)
    · exact (hadded' q hq).mono (List.subset_append_right _ _)
  · rcases List.mem_append.mp he with he | he
    · obtain ⟨names, hne, hrel, hmem⟩ := hw.all rfl e he
      exact ⟨names, hne, hrel, by rw [hlog']; exact List.mem_append_left _ hmem⟩
    · exact hw'.all hok e he
  · rw [insertAll_append]
    exact hw'.files hok _ _ (hw.files rfl _ m hm)

/-- Files that are not reached do not matter after a failure. -/
lemma Wrote.weaken {files : List (String × ObjectId)} (files' : List (String × ObjectId))
    {result : Option (Result Unit)} (hfail : result ≠ some (.ok ()))
    (h : Wrote L s dest files c result c') : Wrote L s dest (files ++ files') c result c' := by
  intro hclean
  have hw := h fun e he => hclean e (List.mem_append_left _ he)
  obtain ⟨added, hlog, hadded⟩ := hw.log
  exact ⟨hw.outside, ⟨added, hlog, fun q hq => (hadded q hq).mono (List.subset_append_left _ _)⟩,
    fun hok => absurd hok hfail, fun hok => absurd hok hfail⟩

/-- Making directories writes no file. -/
lemma Wrote.of_lookup {files : List (String × ObjectId)} {c'' : Checkout}
    {result : Option (Result Unit)} (heq : ∀ q, FileTree.lookup q fs' = FileTree.lookup q c.fs)
    (h : Wrote L s dest files { c with fs := fs' } result c'') :
    Wrote L s dest files c result c'' := by
  intro hclean
  have hw := h hclean
  refine ⟨fun q hq => (hw.outside q hq).trans (heq q), hw.log, hw.all, fun hok before m hm => ?_⟩
  exact hw.files hok before m fun names hne => (heq _).trans (hm names hne)

/-- One file. -/
lemma wrote_file {base : RawPath} {pfx name : String} {id : ObjectId} {data : Bytes}
    {l : List FileName} (htracks : Tracks dest base pfx) (hblob : blobData L s id = some data)
    (hw : writeFile (Posix.join base name.toList) data c.fs = .ok (l, fs')) :
    Wrote L s dest [(joinPath pfx name, id)] c (some (.ok ())) ⟨fs', c.written ++ [l]⟩ := by
  intro hclean
  have hproper : CleanPath (joinPath pfx name) :=
    hclean (joinPath pfx name, id) List.mem_cons_self
  obtain ⟨written, hne, hrel, rfl, hlookup⟩ := htracks.writeFile hproper hw
  refine ⟨fun q hq => ?_, ⟨[dest ++ written], rfl, fun q hq => ?_⟩, fun _ e he => ?_,
    fun _ before m hm names hnames => ?_⟩
  · show FileTree.lookup q fs' = _
    rw [hlookup, if_neg]
    rintro rfl
    exact hq (List.prefix_append _ _)
  · exact ⟨_, List.mem_cons_self, written, hne, hrel, List.mem_singleton.mp hq⟩
  · rw [List.mem_singleton.mp he]
    exact ⟨written, hne, hrel, List.mem_append_right _ List.mem_cons_self⟩
  · show FileTree.lookup _ fs' =
      ((m.insert (joinPath pfx name) id)[relPath names]?).elim _ _
    rw [hlookup, ← hrel, Std.ExtTreeMap.getElem?_insert]
    by_cases heq : names = written
    · simp [heq, hblob]
    · have hpath : ¬ compare (relPath written) (relPath names) = .eq := by
        rw [Std.LawfulEqOrd.compare_eq_iff_eq]
        exact fun h => heq (relPath_injective hne hnames h).symm
      rw [if_neg (by simpa using heq), if_neg hpath, hm names hnames]

section Spec

variable {files : ObjectId → String → List (String × ObjectId)}
  {sub : ObjectId → RawPath → Checkout → Option (Result Unit) × Checkout}
  {base : RawPath} {pfx : String}

lemma writeEntries_wrote
    (hsub : ∀ id base pfx c, Tracks dest base pfx →
      Wrote L s dest (files id pfx) c (sub id base c).1 (sub id base c).2)
    (htracks : Tracks dest base pfx) (entries : List (String × TreeEntry)) (c : Checkout) :
    Wrote L s dest (entries.flatMap (entryFiles files pfx)) c
      (writeEntries L s sub base entries c).1 (writeEntries L s sub base entries c).2 := by
  induction entries generalizing c with
  | nil =>
      intro _
      exact ⟨fun _ _ => rfl, ⟨[], by simp [writeEntries], by simp⟩, by simp, fun _ _ m hm => hm⟩
  | cons e rest ih =>
      obtain ⟨name, id, kind⟩ := e
      rw [List.flatMap_cons]
      cases kind with
      | blob =>
          cases hg : s.get L id with
          | error err => simpa [writeEntries, hg] using .failed _ err
          | ok o =>
              cases o with
              | none => simpa [writeEntries, hg] using .failed _ _
              | some obj =>
                  cases obj with
                  | blob data =>
                      have hblob : blobData L s id = some data := by simp [blobData, hg]
                      cases hw : writeFile (Posix.join base name.toList) data c.fs with
                      | error err => simpa [writeEntries, hg, hw] using .failed _ _
                      | ok r =>
                          have hone : Wrote L s dest (entryFiles files pfx (name, ⟨id, .blob⟩))
                              c (some (.ok ())) ⟨r.2, c.written ++ [r.1]⟩ :=
                            wrote_file htracks hblob hw
                          simpa only [writeEntries, hg, hw] using hone.append (ih _)
                  | _ => simpa [writeEntries, hg] using .failed _ _
      | tree =>
          have hdirs := lookup_createDirAll (Posix.join base name.toList) c.fs
          cases hd : createDirAll (Posix.join base name.toList) c.fs with
          | mk made fs₁ =>
              rw [hd] at hdirs
              cases made with
              | error err =>
                  simp only [writeEntries, hd]
                  exact Wrote.of_lookup hdirs (.failed _ _)
              | ok u =>
                  have hinner : Wrote L s dest (entryFiles files pfx (name, ⟨id, .tree⟩))
                      { c with fs := fs₁ }
                      (sub id (Posix.join base name.toList) { c with fs := fs₁ }).1
                      (sub id (Posix.join base name.toList) { c with fs := fs₁ }).2 :=
                    hsub id _ _ _ (htracks.join name)
                  cases hs : sub id (Posix.join base name.toList) { c with fs := fs₁ } with
                  | mk result c₂ =>
                      rw [hs] at hinner
                      by_cases hok : result = some (.ok ())
                      · subst hok
                        simpa only [writeEntries, hd, hs] using
                          Wrote.of_lookup hdirs (hinner.append (ih c₂))
                      · have hstop : writeEntries L s sub base ((name, ⟨id, .tree⟩) :: rest) c =
                            (result, c₂) := by
                          simp only [writeEntries, hd, hs]
                          split
                          · next heq => exact absurd (Prod.mk.inj heq).1 hok
                          · rfl
                        rw [hstop]
                        exact Wrote.of_lookup hdirs (hinner.weaken _ hok)

/-- **What `write_tree` writes** are the files of the tree. -/
lemma writeTree_wrote (fuel : ℕ) (id : ObjectId) (htracks : Tracks dest base pfx) (c : Checkout) :
    Wrote L s dest (treeFiles L s fuel id pfx) c (writeTree L s fuel id base c).1
      (writeTree L s fuel id base c).2 := by
  induction fuel generalizing id base pfx c with
  | zero =>
      exact fun _ => ⟨fun _ _ => rfl, ⟨[], by simp [writeTree], by simp⟩, nofun, nofun⟩
  | succ fuel ih =>
      cases hg : s.get L id with
      | error err => simpa [writeTree, hg] using .failed _ err
      | ok o =>
          cases o with
          | none => simpa [writeTree, hg] using .failed _ _
          | some obj =>
              cases obj with
              | tree t =>
                  have hentries := writeEntries_wrote (fun id base pfx c h => ih id h c) htracks
                    t.entries.toList c
                  simpa only [writeTree, treeFiles, hg, getTree_eq_some.mpr hg] using hentries
              | _ => simpa [writeTree, hg] using .failed _ _

end Spec

/-! ### Checkouts that succeed -/

/-- Every tree and every blob of a tree can be read, down to the given depth. -/
def Opens (L : Linked) (s : ObjectStore) : ℕ → ObjectId → Prop
  | 0, _ => False
  | fuel + 1, id => ∃ t, s.getTree L id = .ok (some t) ∧ ∀ e ∈ t.entries.toList,
      match e.2.kind with
      | .blob => ∃ data, blobData L s e.2.id = some data
      | .tree => Opens L s fuel e.2.id

lemma writeEntries_opens {readable : ObjectId → Prop} {base : RawPath}
    {sub : ObjectId → RawPath → Checkout → Option (Result Unit) × Checkout}
    (hsub : ∀ id base c c', sub id base c = (some (.ok ()), c') → readable id)
    {entries : List (String × TreeEntry)} {c c' : Checkout}
    (h : writeEntries L s sub base entries c = (some (.ok ()), c')) :
    ∀ e ∈ entries, match e.2.kind with
      | .blob => ∃ data, blobData L s e.2.id = some data
      | .tree => readable e.2.id := by
  induction entries generalizing c with
  | nil => simp
  | cons e rest ih =>
      obtain ⟨name, id, kind⟩ := e
      rw [List.forall_mem_cons]
      cases kind with
      | blob =>
          simp only [writeEntries] at h
          split at h
          · cases h
          · next data hg =>
              split at h
              · cases h
              · exact ⟨⟨data, by simp [blobData, hg]⟩, ih h⟩
          · cases h
          · cases h
      | tree =>
          simp only [writeEntries] at h
          split at h
          · cases h
          · next fs₁ hd =>
              split at h
              · next fs₂ hs => exact ⟨hsub _ _ _ _ hs, ih h⟩
              · next r hr => exact absurd h (hr _)

/-- A checkout that succeeds has read the whole tree. -/
lemma writeTree_opens {fuel : ℕ} {id : ObjectId} {base : RawPath}
    (h : writeTree L s fuel id base c = (some (.ok ()), c')) : Opens L s fuel id := by
  induction fuel generalizing id base c c' with
  | zero => cases h
  | succ fuel ih =>
      rw [writeTree] at h
      split at h
      · cases h
      · next t hg =>
          exact ⟨t, getTree_eq_some.mpr hg, writeEntries_opens (fun _ _ _ _ h => ih h) h⟩
      · cases h
      · cases h

/-- The blobs of a tree that can be read. -/
lemma Opens.blob {fuel : ℕ} {id : ObjectId} {pfx : String} (h : Opens L s fuel id)
    {e : String × ObjectId} (he : e ∈ treeFiles L s fuel id pfx) :
    ∃ data, blobData L s e.2 = some data := by
  induction fuel generalizing id pfx with
  | zero => exact h.elim
  | succ fuel ih =>
      obtain ⟨t, hg, hentries⟩ := h
      simp only [treeFiles, hg] at he
      obtain ⟨⟨name, cid, kind⟩, hx, hmem⟩ := List.mem_flatMap.mp he
      have hread := hentries _ hx
      cases kind with
      | blob =>
          obtain rfl := List.mem_singleton.mp hmem
          exact hread
      | tree => exact ih hread hmem

/-- The walk of `snapshot_paths` takes what is below the items on top of its stack. -/
def Takes (L : Linked) (s : ObjectStore) (items : List (ObjectId × String))
    (files : List (String × ObjectId)) : Prop :=
  ∃ k, ∀ n rest out, collect (openTree L s) (fun _ => true) (n + k) (items ++ rest) out =
    collect (openTree L s) (fun _ => true) n rest (insertAll (fun _ => true) files out)

lemma takes_nil : Takes L s [] [] := ⟨0, fun _ _ _ => rfl⟩

lemma Takes.cons {item : ObjectId × String} {items : List (ObjectId × String)}
    {files files' : List (String × ObjectId)} (h : Takes L s [item] files)
    (h' : Takes L s items files') : Takes L s (item :: items) (files ++ files') := by
  obtain ⟨k, hk⟩ := h
  obtain ⟨k', hk'⟩ := h'
  refine ⟨k' + k, fun n rest out => ?_⟩
  rw [← Nat.add_assoc, ← List.singleton_append, List.append_assoc, hk, hk', insertAll_append]

/-- One turn of the walk. -/
lemma Takes.open {id : ObjectId} {pfx : String} {t : Tree} {files : List (String × ObjectId)}
    (hg : s.getTree L id = .ok (some t)) (h : Takes L s (t.subtrees pfx).reverse files) :
    Takes L s [(id, pfx)] (t.files pfx ++ files) := by
  obtain ⟨k, hk⟩ := h
  refine ⟨k + 1, fun n rest out => ?_⟩
  have hopen : openTree L s (id, pfx) = .ok (t.files pfx, t.subtrees pfx) :=
    openTree_eq_ok.mpr ⟨t, hg, rfl⟩
  rw [← Nat.add_assoc, List.singleton_append, collect]
  simp only [hopen]
  rw [hk, insertAll_append]

lemma takes_list (F : ObjectId × String → List (String × ObjectId))
    (items : List (ObjectId × String))
    (h : ∀ x ∈ items, ∃ files, Takes L s [x] files ∧ ∀ e, e ∈ files ↔ e ∈ F x) :
    ∃ files, Takes L s items files ∧ ∀ e, e ∈ files ↔ ∃ x ∈ items, e ∈ F x := by
  induction items with
  | nil => exact ⟨[], takes_nil, by simp⟩
  | cons x items ih =>
      obtain ⟨files, hx, hmem⟩ := h x List.mem_cons_self
      obtain ⟨files', hrest, hmem'⟩ := ih fun y hy => h y (List.mem_cons_of_mem _ hy)
      refine ⟨files ++ files', hx.cons hrest, fun e => ?_⟩
      rw [List.mem_append, hmem, hmem']
      simp

/-- The entries of a tree are files and trees. -/
lemma mem_flatMap_entryFiles {t : Tree} {pfx : String} {e : String × ObjectId}
    {F : ObjectId → String → List (String × ObjectId)} :
    e ∈ t.entries.toList.flatMap (entryFiles F pfx) ↔
      e ∈ t.files pfx ∨ ∃ x ∈ t.subtrees pfx, e ∈ F x.1 x.2 := by
  simp only [List.mem_flatMap, Tree.files, Tree.subtrees, List.mem_filterMap]
  constructor
  · rintro ⟨⟨name, id, kind⟩, hx, he⟩
    cases kind with
    | blob => exact Or.inl ⟨_, hx, by simpa [entryFiles, eq_comm] using he⟩
    | tree => exact Or.inr ⟨_, ⟨_, hx, rfl⟩, he⟩
  · rintro (⟨⟨name, id, kind⟩, hx, he⟩ | ⟨x, ⟨⟨name, id, kind⟩, hx, hsub⟩, he⟩)
    · cases kind with
      | blob => exact ⟨_, hx, by simpa [entryFiles, eq_comm] using he⟩
      | tree => cases he
    · cases kind with
      | blob => cases hsub
      | tree =>
          obtain rfl := Option.some.inj hsub
          exact ⟨_, hx, he⟩

/-- **`snapshot_paths` sees the files of the tree**, in an order of its own. -/
lemma takes_tree {fuel : ℕ} {id : ObjectId} (h : Opens L s fuel id) (pfx : String) :
    ∃ files, Takes L s [(id, pfx)] files ∧ ∀ e, e ∈ files ↔ e ∈ treeFiles L s fuel id pfx := by
  induction fuel generalizing id pfx with
  | zero => exact h.elim
  | succ fuel ih =>
      obtain ⟨t, hg, hentries⟩ := h
      have hsubs : ∀ x ∈ (t.subtrees pfx).reverse, ∃ files, Takes L s [x] files ∧
          ∀ e, e ∈ files ↔ e ∈ treeFiles L s fuel x.1 x.2 := by
        rintro ⟨cid, q⟩ hx
        obtain ⟨⟨name, tid, kind⟩, he, hsub⟩ := List.mem_filterMap.mp (List.mem_reverse.mp hx)
        cases kind with
        | blob => cases hsub
        | tree =>
            obtain ⟨rfl, rfl⟩ := Prod.mk.inj (Option.some.inj hsub)
            exact ih (hentries _ he) _
      obtain ⟨files, htakes, hmem⟩ :=
        takes_list (fun x => treeFiles L s fuel x.1 x.2) (t.subtrees pfx).reverse hsubs
      refine ⟨_, htakes.open hg, fun e => ?_⟩
      simp only [treeFiles, hg, mem_flatMap_entryFiles, List.mem_append, hmem, List.mem_reverse]

/-- The paths of a snapshot that a checkout has read. -/
lemma snapshotPaths_of_opens {fuel : ℕ} {snapshotId : ObjectId} {snap : Snapshot}
    (hsnap : s.get L snapshotId = .ok (some (.snapshot snap))) (h : Opens L s fuel snap.root) :
    ∃ n paths, snapshotPaths L s n snapshotId = .ok (some paths) ∧
      (∀ p, p ∈ paths ↔ ∃ id, (p, id) ∈ snapshotFiles L s fuel snapshotId) ∧
      ∀ p id, paths[p]? = some id → (p, id) ∈ snapshotFiles L s fuel snapshotId := by
  obtain ⟨files, ⟨k, hk⟩, hmem⟩ := takes_tree h ""
  have hfiles : snapshotFiles L s fuel snapshotId = treeFiles L s fuel snap.root "" := by
    rw [snapshotFiles, hsnap]
  refine ⟨k, insertAll (fun _ => true) files ∅, ?_, fun p => ?_, fun p id hp => ?_⟩
  · have hcollect := hk 0 [] ∅
    rw [Nat.zero_add, List.append_nil] at hcollect
    rw [snapshotPaths, hsnap]
    simp only [walkTree, hcollect, collect]
  · rw [mem_insertAll, hfiles]
    simp [hmem]
  · rw [hfiles, ← hmem]
    exact (getElem?_insertAll hp).resolve_left (by simp)

/-! ### Faithful checkouts -/

/-- The paths of the files of a snapshot have proper segments. -/
def CheckoutClean (L : Linked) (s : ObjectStore) (fuel : ℕ) (snapshotId : ObjectId) : Prop :=
  ∀ e ∈ snapshotFiles L s fuel snapshotId, CleanPath e.1

/-- Of the entries with one path, the last in the order of the tree has the bytes of the one that
counts. -/
def LastCounts (L : Linked) (s : ObjectStore) (fuel : ℕ) (snapshotId : ObjectId)
    (paths : BTreeMap String ObjectId) : Prop :=
  ∀ p : String, ((insertAll (fun _ => true) (snapshotFiles L s fuel snapshotId) ∅)[p]?).bind
    (blobData L s) = (paths[p]?).bind (blobData L s)

variable {fuel : ℕ} {snapshotId : ObjectId} {paths : BTreeMap String ObjectId}

/-- It does when no two entries have one path and different blobs. -/
lemma lastCounts_of_distinct
    (hkeys : ∀ p, p ∈ paths ↔ ∃ id, (p, id) ∈ snapshotFiles L s fuel snapshotId)
    (hvalues : ∀ p id, paths[p]? = some id → (p, id) ∈ snapshotFiles L s fuel snapshotId)
    (hdistinct : ∀ p id id', (p, id) ∈ snapshotFiles L s fuel snapshotId →
      (p, id') ∈ snapshotFiles L s fuel snapshotId → id = id') :
    LastCounts L s fuel snapshotId paths := by
  intro p
  cases hlast : (insertAll (fun _ => true) (snapshotFiles L s fuel snapshotId) ∅)[p]? with
  | none =>
      have hp : p ∉ paths := by
        rw [hkeys]
        rintro ⟨id, hid⟩
        have hmem : p ∈ insertAll (fun _ => true) (snapshotFiles L s fuel snapshotId)
            (∅ : BTreeMap String ObjectId) := mem_insertAll.mpr (Or.inr ⟨rfl, id, hid⟩)
        rw [Std.ExtTreeMap.mem_iff_isSome_getElem?, hlast] at hmem
        cases hmem
      rw [Std.ExtTreeMap.getElem?_eq_none hp]
  | some id =>
      have hid := (getElem?_insertAll hlast).resolve_left (by simp)
      have hp : p ∈ paths := (hkeys p).mpr ⟨id, hid⟩
      obtain ⟨id', hid'⟩ :=
        Option.isSome_iff_exists.mp (Std.ExtTreeMap.mem_iff_isSome_getElem?.mp hp)
      rw [hid', hdistinct p id id' hid (hvalues p id' hid')]

/-- What `materialize` writes are the files of the snapshot. -/
lemma materialize_wrote {result : Option (Result Unit)}
    (h : materialize L s fuel snapshotId dest fs = (result, c)) :
    Wrote L s dest (snapshotFiles L s fuel snapshotId) ⟨fs, []⟩ result c := by
  suffices hall : Wrote L s dest (snapshotFiles L s fuel snapshotId) ⟨fs, []⟩
      (materialize L s fuel snapshotId dest fs).1 (materialize L s fuel snapshotId dest fs).2 by
    rwa [h] at hall
  have hdirs := lookup_createDirAll (dest.map FileName.chars) fs
  rw [materialize]
  split
  · next e fs₁ hd =>
      rw [hd] at hdirs
      exact Wrote.of_lookup hdirs (.failed _ _)
  · next fs₁ hd =>
      rw [hd] at hdirs
      refine Wrote.of_lookup hdirs ?_
      split
      · exact .failed _ _
      · next snap hsnap =>
          simpa only [snapshotFiles, hsnap] using
            writeTree_wrote fuel snap.root (tracks_root dest) ⟨fs₁, []⟩
      · exact .failed _ _
      · exact .failed _ _

/-- A checkout that succeeds has found the snapshot and read its tree. -/
lemma materialize_opens (h : materialize L s fuel snapshotId dest fs = (some (.ok ()), c)) :
    ∃ snap, s.get L snapshotId = .ok (some (.snapshot snap)) ∧ Opens L s fuel snap.root := by
  rw [materialize] at h
  split at h
  · cases h
  · split at h
    · cases h
    · next snap hsnap => exact ⟨snap, hsnap, writeTree_opens h⟩
    · cases h
    · cases h

/-- Before anything is written the files are those that were there. -/
lemma filesAre_empty (fs : Fs Bytes) : FilesAre L s dest fs fs ∅ := by
  intro names _
  simp

/-- What a checkout has written lies below its destination. -/
lemma staysInside_of_clean {result : Option (Result Unit)}
    (h : materialize L s fuel snapshotId dest fs = (result, c))
    (hclean : CheckoutClean L s fuel snapshotId) : StaysInside dest fs c := by
  have hw := materialize_wrote h hclean
  obtain ⟨added, hlog, hadded⟩ := hw.log
  refine ⟨fun q hq => ?_, hw.outside⟩
  rw [hlog, List.nil_append] at hq
  obtain ⟨-, -, names, -, -, rfl⟩ := hadded q hq
  exact List.prefix_append _ _

/-- A checkout whose paths have proper segments mirrors the paths if the last entries count. -/
lemma mirrors_of_clean {last : BTreeMap String ObjectId}
    (hfiles : ∀ names, names ≠ [] →
      FileTree.lookup (dest ++ names) fs' = (last[relPath names]?).bind (blobData L s))
    (hnames : ∀ p ∈ paths, ∃ names, names ≠ [] ∧ relPath names = p)
    (hblobs : ∀ (p : String) id, paths[p]? = some id → ∃ data, blobData L s id = some data)
    (hlast : ∀ p : String, (last[p]?).bind (blobData L s) = (paths[p]?).bind (blobData L s)) :
    Mirrors L s dest fs' paths := by
  have hlookup : ∀ names, names ≠ [] →
      FileTree.lookup (dest ++ names) fs' = (paths[relPath names]?).bind (blobData L s) :=
    fun names hne => by rw [hfiles names hne, hlast]
  refine ⟨fun p => ⟨fun hp => ?_, ?_⟩, fun names data hne hdata => by
    rw [← hlookup names hne, hdata]⟩
  · obtain ⟨names, hne, rfl⟩ := hnames p hp
    obtain ⟨id, hid⟩ :=
      Option.isSome_iff_exists.mp (Std.ExtTreeMap.mem_iff_isSome_getElem?.mp hp)
    obtain ⟨data, hdata⟩ := hblobs _ id hid
    exact ⟨names, data, hne, rfl, by rw [hlookup names hne, hid, Option.bind_some, hdata]⟩
  · rintro ⟨names, data, hne, rfl, hdata⟩
    rw [hlookup names hne] at hdata
    obtain ⟨id, hid, -⟩ := Option.bind_eq_some_iff.mp hdata
    rw [Std.ExtTreeMap.mem_iff_isSome_getElem?, hid]
    rfl

/-- A checkout that mirrors the paths has written the entries that count. -/
lemma last_of_mirrors {last : BTreeMap String ObjectId}
    (hfiles : ∀ names, names ≠ [] →
      FileTree.lookup (dest ++ names) fs' = (last[relPath names]?).bind (blobData L s))
    (hkeys : ∀ p, p ∈ last ↔ p ∈ paths) (h : Mirrors L s dest fs' paths) (p : String) :
    (last[p]?).bind (blobData L s) = (paths[p]?).bind (blobData L s) := by
  by_cases hp : p ∈ paths
  · obtain ⟨names, data, hne, rfl, hdata⟩ := (h.files p).mp hp
    rw [h.contents names data hne hdata, ← hfiles names hne, hdata]
  · rw [Std.ExtTreeMap.getElem?_eq_none hp,
      Std.ExtTreeMap.getElem?_eq_none fun h => hp ((hkeys p).mp h)]

/-- The files of an empty directory after a checkout. -/
lemma lookup_of_checkout (hempty : dirAt dest fs = some FileTree.emptyDir)
    (h : materialize L s fuel snapshotId dest fs = (some (.ok ()), c))
    (hclean : CheckoutClean L s fuel snapshotId) {names : List FileName} (hne : names ≠ []) :
    FileTree.lookup (dest ++ names) c.fs =
      ((insertAll (fun _ => true) (snapshotFiles L s fuel snapshotId) ∅)[relPath names]?).bind
        (blobData L s) := by
  rw [(materialize_wrote h hclean).files rfl fs ∅ (filesAre_empty fs) names hne,
    lookup_of_empty hempty hne]
  cases (insertAll (fun _ => true) (snapshotFiles L s fuel snapshotId) ∅)[relPath names]? <;> rfl

/-- **Checkouts.**  No file outside the destination is written if the paths of the snapshot's
files have proper segments.  A checkout that succeeds stays inside and mirrors
`snapshot_paths` exactly when they do, and the last entry of each path is the one that counts. -/
theorem materialize_faithful_iff {result : Result Unit}
    (hempty : dirAt dest fs = some FileTree.emptyDir)
    (h : materialize L s fuel snapshotId dest fs = (some result, c)) :
    (CheckoutClean L s fuel snapshotId → StaysInside dest fs c) ∧
      (result = .ok () → ∃ n paths, snapshotPaths L s n snapshotId = .ok (some paths) ∧
        (StaysInside dest fs c ∧ Mirrors L s dest c.fs paths ↔
          CheckoutClean L s fuel snapshotId ∧ LastCounts L s fuel snapshotId paths)) := by
  refine ⟨staysInside_of_clean h, ?_⟩
  rintro rfl
  obtain ⟨snap, hsnap, hopens⟩ := materialize_opens h
  obtain ⟨n, paths, hpaths, hkeys, hvalues⟩ := snapshotPaths_of_opens hsnap hopens
  have hlastKeys : ∀ p, p ∈ insertAll (fun _ => true) (snapshotFiles L s fuel snapshotId)
      (∅ : BTreeMap String ObjectId) ↔ p ∈ paths := by
    intro p
    rw [mem_insertAll, hkeys]
    simp
  have hblobs : ∀ (p : String) id, paths[p]? = some id → ∃ data, blobData L s id = some data := by
    intro p id hid
    have hmem := hvalues p id hid
    rw [snapshotFiles, hsnap] at hmem
    exact hopens.blob hmem
  refine ⟨n, paths, hpaths, fun ⟨_, hmirrors⟩ => ?_, fun ⟨hclean, hlast⟩ => ?_⟩
  · have hclean : CheckoutClean L s fuel snapshotId := by
      intro e he
      obtain ⟨names, data, hne, hrel, -⟩ := (hmirrors.files e.1).mp ((hkeys e.1).mpr ⟨e.2, he⟩)
      rw [← hrel]
      exact cleanPath_relPath hne
    exact ⟨hclean, last_of_mirrors (fun names hne => lookup_of_checkout hempty h hclean hne)
      hlastKeys hmirrors⟩
  · refine ⟨staysInside_of_clean h hclean,
      mirrors_of_clean (fun names hne => lookup_of_checkout hempty h hclean hne) (fun p hp => ?_)
        hblobs hlast⟩
    obtain ⟨id, hid⟩ := (hkeys p).mp hp
    obtain ⟨names, hne, hrel, -⟩ := (materialize_wrote h hclean).all rfl _ hid
    exact ⟨names, hne, hrel⟩

/-! ### Two checkouts -/

/-- A tree with a file in a directory, a tree with a file whose name climbs out, and a snapshot
of each. -/
def checkoutObjects : List Object :=
  let file : Object := .blob (ascii "data")
  let dir : Object := .tree ⟨(∅ : BTreeMap String TreeEntry).insert "x" ⟨file.refId, .blob⟩⟩
  let plain : Object := .tree ⟨(∅ : BTreeMap String TreeEntry).insert "src" ⟨dir.refId, .tree⟩⟩
  let climbing : Object :=
    .tree ⟨(∅ : BTreeMap String TreeEntry).insert "../evil" ⟨file.refId, .blob⟩⟩
  [file, dir, plain, climbing, .snapshot ⟨plain.refId, [], "", 0, ""⟩,
    .snapshot ⟨climbing.refId, [], "", 0, ""⟩]

/-- The crates with a codec for these objects. -/
def checkoutLinked : Linked := .over checkoutObjects

def checkoutStore : ObjectStore := .holding checkoutLinked checkoutObjects

def plainSnapshot : ObjectId := (checkoutObjects.getD 4 (.blob [])).refId

def climbingSnapshot : ObjectId := (checkoutObjects.getD 5 (.blob [])).refId

def workDir : FileName := ⟨['w', 'o', 'r', 'k'], by decide⟩

def evilFile : FileName := ⟨['e', 'v', 'i', 'l'], by decide⟩

/-- A file system with an empty directory and nothing else. -/
def checkoutFs : Fs Bytes := fun n => if n = workDir then some (.dir FileTree.emptyDir) else none

lemma checkoutFs_empty : dirAt [workDir] checkoutFs = some FileTree.emptyDir := by
  simp [dirAt, checkoutFs]

/-- **A checkout that climbs out.**  A file named `../evil` is written beside the
destination. -/
theorem checkout_escapes :
    dirAt [workDir] checkoutFs = some FileTree.emptyDir ∧
      (materialize checkoutLinked checkoutStore 2 climbingSnapshot [workDir] checkoutFs).1 =
        some (.ok ()) ∧
      ¬ StaysInside [workDir] checkoutFs
        (materialize checkoutLinked checkoutStore 2 climbingSnapshot [workDir] checkoutFs).2 := by
  refine ⟨checkoutFs_empty, by decide +kernel, fun h => ?_⟩
  have hwritten : [evilFile] ∈ (materialize checkoutLinked checkoutStore 2 climbingSnapshot
      [workDir] checkoutFs).2.written := by decide +kernel
  exact absurd (h.1 _ hwritten) (by decide)

lemma eq_mk_of_fst {α β : Type} {x : α × β} {a : α} (h : x.1 = a) : x = (a, x.2) := by
  cases x
  simpa using h

/-- The other snapshot is checked out faithfully. -/
theorem materialize_faithful_nested :
    ∃ n paths, snapshotPaths checkoutLinked checkoutStore n plainSnapshot = .ok (some paths) ∧
      StaysInside [workDir] checkoutFs
        (materialize checkoutLinked checkoutStore 3 plainSnapshot [workDir] checkoutFs).2 ∧
      Mirrors checkoutLinked checkoutStore [workDir]
        (materialize checkoutLinked checkoutStore 3 plainSnapshot [workDir] checkoutFs).2.fs
        paths := by
  have hok := eq_mk_of_fst (x := materialize checkoutLinked checkoutStore 3 plainSnapshot [workDir]
    checkoutFs) (a := some (.ok ())) (by decide +kernel)
  have hclean : CheckoutClean checkoutLinked checkoutStore 3 plainSnapshot := by
    rw [CheckoutClean]
    decide +kernel
  have hdistinct : ∀ e ∈ snapshotFiles checkoutLinked checkoutStore 3 plainSnapshot,
      ∀ e' ∈ snapshotFiles checkoutLinked checkoutStore 3 plainSnapshot,
        e.1 = e'.1 → e.2 = e'.2 := by decide +kernel
  obtain ⟨n, paths, hpaths, hiff⟩ := (materialize_faithful_iff checkoutFs_empty hok).2 rfl
  obtain ⟨snap, hsnap, hopens⟩ := materialize_opens hok
  obtain ⟨n', paths', hpaths', hkeys, hvalues⟩ := snapshotPaths_of_opens hsnap hopens
  obtain rfl := snapshotPaths_unique hpaths hpaths'
  exact ⟨n, paths, hpaths, hiff.mpr ⟨hclean, lastCounts_of_distinct hkeys hvalues
    fun p id id' hid hid' => hdistinct _ hid _ hid' rfl⟩⟩

end Bole
