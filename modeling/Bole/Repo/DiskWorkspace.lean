import Bole.Repo.Materialize
import Bole.Repo.Nested

/-!
A workspace on disk: the walk of its directory and `commit`, from `DiskWorkspace` of
`src/repo/ephemeral.rs`.

The order in which a directory is read and what `.boleignore` excludes are parameters.

* `collectLoop_spec`: the walk writes blobs of the files it picks up, and flattens the directory;
* `emits_openDir`, `getElem?_collected`: what it collects are the files that are picked up;
* `namesApart_of_no_backslash`: where no name has a backslash, no two of them are confused;
* `commit_files`: **a commit that succeeds holds exactly the files that are picked up**.
-/

namespace Bole

open Posix Collect

/-! ### The walk -/

/-- `REPO_DIR`: the name of the store directory and of a pointer file. -/
def repoDirName : FileName := ⟨['.', 'b', 'o', 'l', 'e'], by decide⟩

/-- `IGNORE_FILE`. -/
def ignoreFileName : FileName := ⟨".boleignore".toList, by decide⟩

/-- What has a name in the directory at a location. -/
def entryAt (l : List FileName) (n : FileName) (fs : Fs Bytes) :
    Option (FileTree.Node FileName Bytes) :=
  (dirAt l fs).bind (· n)

/-- `read_dir`, and the matcher that is built from the bytes of an ignore file, for paths below
the root of a work tree and whether they are directories. -/
structure DirWalk where
  readDir : Fs Bytes → List FileName → Result (List FileName)
  matched : Option Bytes → List FileName → Bool → Bool

/-- A directory that can be read has the names that are read, in whatever order. -/
def DirWalk.Exact (W : DirWalk) (fs : Fs Bytes) : Prop :=
  ∀ l names, W.readDir fs l = .ok names →
    (dirAt l fs).isSome ∧ ∀ n, n ∈ names ↔ (entryAt l n fs).isSome

/-- `DiskWorkspace`. -/
structure DiskWorkspace where
  root : List FileName
  base : Option ObjectId

/-- The path under which a file is collected: a backslash counts as a slash. -/
def collectedName (names : List FileName) : String :=
  String.ofList ((relPath names).toList.map fun c => if c = '\\' then '/' else c)

/-- What the walk takes from the names of one directory. -/
structure Taken where
  stack : List (List FileName)
  out : BTreeMap String ObjectId

/-- The turn of the walk for one directory: its directories are pushed, its files stored. -/
def collectEntries (L : Linked) (mtime : Option ℕ) (ignore : List FileName → Bool → Bool)
    (node : FileName → Option (FileTree.Node FileName Bytes)) (rel : List FileName) :
    List FileName → ObjectStore → Taken → Result Taken × ObjectStore
  | [], s, taken => (.ok taken, s)
  | n :: rest, s, taken =>
      match node n with
      | none => collectEntries L mtime ignore node rel rest s taken
      | some (.dir _) =>
          if n = repoDirName || ignore (rel ++ [n]) true then
            collectEntries L mtime ignore node rel rest s taken
          else
            collectEntries L mtime ignore node rel rest s
              { taken with stack := (rel ++ [n]) :: taken.stack }
      | some (.file data) =>
          if n = repoDirName || ignore (rel ++ [n]) false then
            collectEntries L mtime ignore node rel rest s taken
          else
            match s.put L (.blob data) mtime with
            | (.error e, s) => (.error e, s)
            | (.ok id, s) =>
                collectEntries L mtime ignore node rel rest s
                  { taken with out := taken.out.insert (collectedName (rel ++ [n])) id }

/-- The loop of `collect`; `none` means that the fuel ran out. -/
def collectLoop (L : Linked) (W : DirWalk) (mtime : Option ℕ)
    (ignore : List FileName → Bool → Bool) (fs : Fs Bytes) (root : List FileName) :
    ℕ → ObjectStore → Taken → Result (Option (BTreeMap String ObjectId)) × ObjectStore
  | _, s, ⟨[], out⟩ => (.ok (some out), s)
  | 0, s, ⟨_ :: _, _⟩ => (.ok none, s)
  | fuel + 1, s, ⟨rel :: stack, out⟩ =>
      match W.readDir fs (root ++ rel) with
      | .error e => (.error e, s)
      | .ok names =>
          match collectEntries L mtime ignore (entryAt (root ++ rel) · fs) rel names s ⟨stack, out⟩
            with
          | (.error e, s) => (.error e, s)
          | (.ok taken, s) => collectLoop L W mtime ignore fs root fuel s taken

namespace DiskWorkspace

/-- `ignore_matcher`. -/
def ignoreMatcher (W : DirWalk) (fs : Fs Bytes) (ws : DiskWorkspace) :
    List FileName → Bool → Bool :=
  W.matched (FileTree.lookup (ws.root ++ [ignoreFileName]) fs)

/-- `collect`. -/
def collect (L : Linked) (W : DirWalk) (mtime : Option ℕ) (fuel : ℕ) (fs : Fs Bytes)
    (ws : DiskWorkspace) (s : ObjectStore) :
    Result (Option (BTreeMap String ObjectId)) × ObjectStore :=
  collectLoop L W mtime (ws.ignoreMatcher W fs) fs ws.root fuel s ⟨[[]], ∅⟩

/-- `commit`; the workspace comes back with its new base. -/
def commit (L : Linked) (W : DirWalk) (mtime : Option ℕ) (fuel : ℕ) (fs : Fs Bytes)
    (ws : DiskWorkspace) (s : ObjectStore) (author message : String) (createdAt : ℕ) :
    Result (Option ObjectId) × DiskWorkspace × ObjectStore :=
  match ws.collect L W mtime fuel fs s with
  | (.error e, s) => (.error e, ws, s)
  | (.ok none, s) => (.ok none, ws, s)
  | (.ok (some files), s) =>
      match buildTree L s files mtime with
      | (.error e, s) => (.error e, ws, s)
      | (.ok root, s) =>
          match s.put L (.snapshot ⟨root, ws.base.toList, author, createdAt, message⟩) mtime with
          | (.error e, s) => (.error e, ws, s)
          | (.ok id, s) => (.ok (some id), { ws with base := some id }, s)

end DiskWorkspace

/-! ### What the walk picks up -/

/-- The walk comes to a directory: nothing on the way is `.bole` or ignored. -/
def Entered (ignore : List FileName → Bool → Bool) (rel : List FileName) : Prop :=
  repoDirName ∉ rel ∧ ∀ pfx ∈ rel.inits, pfx = [] ∨ ignore pfx true = false

/-- The walk picks up a file below the root. -/
def PickedUp (ignore : List FileName → Bool → Bool) (fs : Fs Bytes) (root names : List FileName)
    (data : Bytes) : Prop :=
  ∃ rel n, names = rel ++ [n] ∧ Entered ignore rel ∧ n ≠ repoDirName ∧
    ignore names false = false ∧ entryAt (root ++ rel) n fs = some (.file data)

/-- The bytes of a blob; none when the codec refuses it. -/
def Linked.blobId (L : Linked) (data : Bytes) : ObjectId :=
  match L.codec.serialize (.blob data) with
  | .ok b => L.fromContent b
  | .error _ => L.fromContent []

/-- The files of one directory that are collected. -/
def pickedFiles (L : Linked) (ignore : List FileName → Bool → Bool)
    (node : FileName → Option (FileTree.Node FileName Bytes)) (rel names : List FileName) :
    List (String × ObjectId) :=
  names.filterMap fun n =>
    match node n with
    | some (.file data) =>
        if n = repoDirName || ignore (rel ++ [n]) false then none
        else some (collectedName (rel ++ [n]), L.blobId data)
    | _ => none

/-- The directories of one directory that are pushed. -/
def pushedDirs (ignore : List FileName → Bool → Bool)
    (node : FileName → Option (FileTree.Node FileName Bytes)) (rel names : List FileName) :
    List (List FileName) :=
  names.filterMap fun n =>
    match node n with
    | some (.dir _) =>
        if n = repoDirName || ignore (rel ++ [n]) true then none else some (rel ++ [n])
    | _ => none

/-- One turn of the walk, without the store. -/
def openDir (L : Linked) (W : DirWalk) (ignore : List FileName → Bool → Bool) (fs : Fs Bytes)
    (root rel : List FileName) : Result (List (String × ObjectId) × List (List FileName)) :=
  match W.readDir fs (root ++ rel) with
  | .error e => .error e
  | .ok names =>
      .ok (pickedFiles L ignore (entryAt (root ++ rel) · fs) rel names,
        pushedDirs ignore (entryAt (root ++ rel) · fs) rel names)

variable {L : Linked} {W : DirWalk} {mtime : Option ℕ} {ignore : List FileName → Bool → Bool}
  {fs : Fs Bytes} {root rel names : List FileName} {s s' : ObjectStore}

lemma entered_nil : Entered ignore [] := by simp [Entered]

lemma entered_append {n : FileName} : Entered ignore (rel ++ [n]) ↔
    Entered ignore rel ∧ n ≠ repoDirName ∧ ignore (rel ++ [n]) true = false := by
  simp only [Entered, List.mem_append, List.mem_singleton, List.mem_inits, not_or]
  constructor
  · rintro ⟨⟨hrel, hn⟩, hpfx⟩
    refine ⟨⟨hrel, fun pfx h => hpfx pfx (h.trans (List.prefix_append _ _))⟩, Ne.symm hn, ?_⟩
    exact (hpfx _ (List.prefix_refl _)).resolve_left (by simp)
  · rintro ⟨⟨hrel, hpfx⟩, hn, hignore⟩
    refine ⟨⟨hrel, Ne.symm hn⟩, fun pfx h => ?_⟩
    rcases List.prefix_concat_iff.mp h with rfl | h
    · exact Or.inr hignore
    · exact hpfx pfx h

/-- What the codec writes as the blob of a file that is picked up. -/
def IsPickedBlob (L : Linked) (ignore : List FileName → Bool → Bool) (fs : Fs Bytes)
    (root : List FileName) (b : Bytes) : Prop :=
  ∃ names data, PickedUp ignore fs root names data ∧ L.codec.serialize (.blob data) = .ok b

lemma blobId_of_put {data : Bytes} {id : ObjectId} (h : (s.put L (.blob data) mtime).1 = .ok id) :
    id = L.blobId data := by
  obtain ⟨b, hb, rfl⟩ := ObjectStore.put_eq_ok h
  rw [Linked.blobId, hb]

/-- **The turn of the walk for one directory** writes blobs of files that are picked up, and takes
what `openDir` says. -/
lemma collectEntries_spec (hrel : Entered ignore rel) :
    ∀ (names : List FileName) (s : ObjectStore) (taken : Taken) {r : Result Taken}
      {s' : ObjectStore},
      collectEntries L mtime ignore (entryAt (root ++ rel) · fs) rel names s taken = (r, s') →
      s.Written L (IsPickedBlob L ignore fs root) s' ∧
        ∀ taken', r = .ok taken' →
          taken' = ⟨(pushedDirs ignore (entryAt (root ++ rel) · fs) rel names).reverse ++
              taken.stack,
            insertAll (fun _ => true) (pickedFiles L ignore (entryAt (root ++ rel) · fs) rel names)
              taken.out⟩
  | [], s, taken, r, s', h => by
      cases h
      exact ⟨.refl s, fun taken' h => (Except.ok.inj h).symm⟩
  | n :: rest, s, taken, r, s', h => by
      rw [collectEntries] at h
      rw [pushedDirs, pickedFiles, List.filterMap_cons, List.filterMap_cons]
      cases hn : entryAt (root ++ rel) n fs with
      | none =>
          simp only [hn] at h
          exact collectEntries_spec hrel rest s taken h
      | some node =>
          cases node with
          | dir d =>
              simp only [hn] at h ⊢
              split_ifs at h ⊢ with hskip
              · exact collectEntries_spec hrel rest s taken h
              · obtain ⟨hwritten, hok⟩ := collectEntries_spec hrel rest s _ h
                refine ⟨hwritten, fun taken' htaken => ?_⟩
                rw [hok taken' htaken]
                simp only [List.reverse_cons, List.append_assoc, List.singleton_append]
                rfl
          | file data =>
              simp only [hn] at h ⊢
              split_ifs at h ⊢ with hskip
              · exact collectEntries_spec hrel rest s taken h
              · simp only [Bool.or_eq_true, decide_eq_true_eq, not_or, Bool.not_eq_true] at hskip
                have hpicked : PickedUp ignore fs root (rel ++ [n]) data :=
                  ⟨rel, n, rfl, hrel, hskip.1, hskip.2, hn⟩
                have hput : s.Written L (IsPickedBlob L ignore fs root)
                    (s.put L (.blob data) mtime).2 :=
                  (ObjectStore.Written.refl s).put (fun b hb => ⟨_, data, hpicked, hb⟩) mtime
                split at h
                · next e s₁ heq =>
                    cases h
                    rw [heq] at hput
                    exact ⟨hput, fun _ hok => by cases hok⟩
                · next id s₁ heq =>
                    rw [heq] at hput
                    obtain ⟨hwritten, hok⟩ := collectEntries_spec hrel rest s₁ _ h
                    refine ⟨hput.trans hwritten, fun taken' htaken => ?_⟩
                    rw [hok taken' htaken, blobId_of_put (congrArg Prod.fst heq)]
                    rfl

lemma entered_of_pushed (hrel : Entered ignore rel) {node} {sub : List FileName}
    (h : sub ∈ pushedDirs ignore node rel names) : Entered ignore sub := by
  obtain ⟨n, -, h⟩ := List.mem_filterMap.mp h
  split at h
  · split_ifs at h with hskip
    cases h
    simp only [Bool.or_eq_true, decide_eq_true_eq, not_or, Bool.not_eq_true] at hskip
    exact entered_append.mpr ⟨hrel, hskip⟩
  · cases h

/-- **The walk writes blobs of the files it picks up**, and flattens the directory. -/
theorem collectLoop_spec {fuel : ℕ} {taken : Taken}
    {r : Result (Option (BTreeMap String ObjectId))}
    (hstack : ∀ rel ∈ taken.stack, Entered ignore rel)
    (h : collectLoop L W mtime ignore fs root fuel s taken = (r, s')) :
    s.Written L (IsPickedBlob L ignore fs root) s' ∧
      ∀ files, r = .ok (some files) →
        collect (openDir L W ignore fs root) (fun _ => true) fuel taken.stack taken.out =
          .ok (some files) := by
  induction fuel generalizing s taken with
  | zero =>
      obtain ⟨stack, out⟩ := taken
      cases stack with
      | nil =>
          cases h
          exact ⟨.refl _, fun files h => h⟩
      | cons rel stack =>
          cases h
          exact ⟨.refl _, fun _ hok => by cases hok⟩
  | succ fuel ih =>
      obtain ⟨stack, out⟩ := taken
      cases stack with
      | nil =>
          cases h
          exact ⟨.refl _, fun files h => h⟩
      | cons rel stack =>
          have hrel := hstack rel List.mem_cons_self
          rw [collectLoop] at h
          dsimp only
          rw [collect, openDir]
          split at h
          · cases h
            exact ⟨.refl _, fun _ hok => by cases hok⟩
          · next names hnames =>
              split at h
              · next e s₁ heq =>
                  cases h
                  exact ⟨(collectEntries_spec hrel names s _ heq).1, fun _ hok => by cases hok⟩
              · next taken' s₁ heq =>
                  obtain ⟨hwritten, htaken⟩ := collectEntries_spec hrel names s _ heq
                  obtain rfl := htaken taken' rfl
                  have hsubs : ∀ sub ∈ (pushedDirs ignore (entryAt (root ++ rel) · fs) rel
                      names).reverse ++ stack, Entered ignore sub := by
                    intro sub hsub
                    rcases List.mem_append.mp hsub with hsub | hsub
                    · exact entered_of_pushed hrel (List.mem_reverse.mp hsub)
                    · exact hstack sub (List.mem_cons_of_mem _ hsub)
                  obtain ⟨hrest, hcollect⟩ := ih hsubs h
                  exact ⟨hwritten.trans hrest, hcollect⟩

/-! ### What is collected -/

/-- A directory that is there is an entry of the one above it. -/
lemma entryAt_of_dirAt {l : List FileName} {n : FileName} (h : (dirAt (l ++ [n]) fs).isSome) :
    ∃ d, entryAt l n fs = some (.dir d) := by
  obtain ⟨d, hd⟩ := Option.isSome_iff_exists.mp h
  obtain ⟨e, he, hd⟩ := dirAt_append.mp hd
  rw [entryAt, he, Option.bind_some]
  simp only [dirAt] at hd
  cases hn : e n with
  | none => simp [hn] at hd
  | some node =>
      cases node with
      | file data => simp [hn] at hd
      | dir d => exact ⟨d, rfl⟩

/-- An entry is in a directory. -/
lemma dirAt_of_entryAt {l : List FileName} {n : FileName} {node : FileTree.Node FileName Bytes}
    (h : entryAt l n fs = some node) : (dirAt l fs).isSome := by
  rw [entryAt] at h
  obtain ⟨d, hd, -⟩ := Option.bind_eq_some_iff.mp h
  exact Option.isSome_iff_exists.mpr ⟨d, hd⟩

lemma mem_pickedFiles {node} {k : String} {v : ObjectId} :
    (k, v) ∈ pickedFiles L ignore node rel names ↔ ∃ n ∈ names, ∃ data,
      node n = some (.file data) ∧ n ≠ repoDirName ∧ ignore (rel ++ [n]) false = false ∧
        k = collectedName (rel ++ [n]) ∧ v = L.blobId data := by
  simp only [pickedFiles, List.mem_filterMap]
  refine exists_congr fun n => and_congr_right fun _ => ?_
  cases hn : node n with
  | none => simp
  | some x =>
      cases x with
      | dir d => simp
      | file data =>
          simp only [Option.some.injEq, FileTree.Node.file.injEq, exists_eq_left']
          by_cases hskip : n = repoDirName ∨ ignore (rel ++ [n]) false = true
          · rw [if_pos (by simpa using hskip)]
            refine iff_of_false (by simp) ?_
            rintro ⟨hne, hignore, -⟩
            rcases hskip with h | h
            · exact hne h
            · rw [hignore] at h
              cases h
          · rw [if_neg (by simpa using hskip)]
            simp only [not_or, Bool.not_eq_true] at hskip
            simp only [Option.some.injEq, Prod.mk.injEq, hskip, ne_eq, not_false_eq_true, true_and]
            exact ⟨fun h => ⟨h.1.symm, h.2.symm⟩, fun h => ⟨h.1.symm, h.2.symm⟩⟩

/-- What the walk visits, it descends into. -/
lemma entered_of_visits (h : Visits (openDir L W ignore fs root) [[]] rel) :
    Entered ignore rel := by
  induction h with
  | root h =>
      rw [List.mem_singleton.mp h]
      exact entered_nil
  | @inner x y r _ hr hy ih =>
      rw [openDir] at hr
      split at hr
      · cases hr
      · cases hr
        exact entered_of_pushed ih hy

/-- What the walk descends into is visited, if all that is visited can be read. -/
lemma visits_of_entered (hexact : W.Exact fs)
    (hopens : ∀ x, Visits (openDir L W ignore fs root) [[]] x →
      ∃ r, openDir L W ignore fs root x = .ok r)
    (hrel : Entered ignore rel) (hdir : (dirAt (root ++ rel) fs).isSome) :
    Visits (openDir L W ignore fs root) [[]] rel := by
  induction rel using List.reverseRecOn with
  | nil => exact .root List.mem_cons_self
  | append_singleton rel n ih =>
      obtain ⟨habove, hn, hignore⟩ := entered_append.mp hrel
      rw [← List.append_assoc] at hdir
      obtain ⟨d, hd⟩ := entryAt_of_dirAt hdir
      have hvisits := ih habove (dirAt_of_entryAt hd)
      obtain ⟨r, hr⟩ := hopens rel hvisits
      refine hvisits.inner hr ?_
      rw [openDir] at hr
      split at hr
      · cases hr
      · next names hnames =>
          cases hr
          refine List.mem_filterMap.mpr ⟨n, ((hexact _ _ hnames).2 n).mpr (by simp [hd]), ?_⟩
          simp [hd, hn, hignore]

/-- **What the walk collects** are the files that are picked up. -/
theorem emits_openDir (hexact : W.Exact fs)
    (hopens : ∀ x, Visits (openDir L W ignore fs root) [[]] x →
      ∃ r, openDir L W ignore fs root x = .ok r) {k : String} {v : ObjectId} :
    Emits (openDir L W ignore fs root) [] k v ↔
      ∃ names data, PickedUp ignore fs root names data ∧ k = collectedName names ∧
        v = L.blobId data := by
  constructor
  · rintro ⟨rel, r, hvisits, hr, hmem⟩
    rw [openDir] at hr
    split at hr
    · cases hr
    · cases hr
      obtain ⟨n, -, data, hn, hne, hignore, hk, hv⟩ := mem_pickedFiles.mp hmem
      exact ⟨rel ++ [n], data, ⟨rel, n, rfl, entered_of_visits hvisits, hne, hignore, hn⟩, hk, hv⟩
  · rintro ⟨names, data, ⟨rel, n, rfl, hrel, hne, hignore, hn⟩, rfl, rfl⟩
    have hvisits := visits_of_entered hexact hopens hrel (dirAt_of_entryAt hn)
    obtain ⟨r, hr⟩ := hopens rel hvisits
    refine ⟨rel, r, hvisits, hr, ?_⟩
    rw [openDir] at hr
    split at hr
    · cases hr
    · next names hnames =>
        cases hr
        exact mem_pickedFiles.mpr
          ⟨n, ((hexact _ _ hnames).2 n).mpr (by simp [hn]), data, hn, hne, hignore, rfl, rfl⟩

/-! ### Names that are told apart -/

/-- The directory holds a blob under a path. -/
def HoldsFile (L : Linked) (ignore : List FileName → Bool → Bool) (fs : Fs Bytes)
    (root : List FileName) (path : String) (id : ObjectId) : Prop :=
  ∃ names data, PickedUp ignore fs root names data ∧ path = collectedName names ∧
    id = L.blobId data

/-- No two files that are picked up are collected under one path, or under a path and one below
it. -/
structure NamesApart (ignore : List FileName → Bool → Bool) (fs : Fs Bytes)
    (root : List FileName) : Prop where
  injective : ∀ names data names' data', PickedUp ignore fs root names data →
    PickedUp ignore fs root names' data' → collectedName names = collectedName names' →
    names = names'
  nests : Nests {path | ∃ names data, PickedUp ignore fs root names data ∧
    path = collectedName names}

lemma PickedUp.ne_nil {data : Bytes} (h : PickedUp ignore fs root names data) : names ≠ [] := by
  obtain ⟨rel, n, rfl, -⟩ := h
  simp

lemma PickedUp.unique {data data' : Bytes} (h : PickedUp ignore fs root names data)
    (h' : PickedUp ignore fs root names data') : data = data' := by
  obtain ⟨rel, n, rfl, -, -, -, hn⟩ := h
  obtain ⟨rel', n', heq, -, -, -, hn'⟩ := h'
  obtain ⟨rfl, hsingle⟩ := List.append_inj' heq rfl
  obtain rfl := List.singleton_inj.mp hsingle
  rw [hn] at hn'
  cases hn'
  rfl

/-- A path holds one blob. -/
lemma NamesApart.held_unique (h : NamesApart ignore fs root) {path : String} {id id' : ObjectId}
    (hid : HoldsFile L ignore fs root path id) (hid' : HoldsFile L ignore fs root path id') :
    id = id' := by
  obtain ⟨names, data, hpicked, rfl, rfl⟩ := hid
  obtain ⟨names', data', hpicked', heq, rfl⟩ := hid'
  obtain rfl := h.injective _ _ _ _ hpicked hpicked' heq
  rw [hpicked.unique hpicked']

/-- **What the walk collects** of a directory whose files are told apart. -/
lemma getElem?_collected {fuel : ℕ} {m : BTreeMap String ObjectId} (hexact : W.Exact fs)
    (hapart : NamesApart ignore fs root)
    (hm : collect (openDir L W ignore fs root) (fun _ => true) fuel [[]] ∅ = .ok (some m))
    {path : String} {id : ObjectId} :
    m[path]? = some id ↔ HoldsFile L ignore fs root path id := by
  have hopens := fun x => collect_visits (x := x) hm
  rw [getElem?_collect hm, emits_openDir hexact hopens]
  · rfl
  · intro k v w hv hw
    rw [emits_openDir hexact hopens] at hv hw
    exact hapart.held_unique hv hw

/-- The characters of a path are slashes and those of its names. -/
lemma mem_relPath {c : Char} (h : c ∈ (relPath names).toList) :
    c = '/' ∨ ∃ n ∈ names, c ∈ n.chars := by
  rw [relPath, String.toList_ofList] at h
  induction names with
  | nil => simp at h
  | cons n rest ih =>
      cases rest with
      | nil =>
          rw [List.map_singleton, List.intercalate_singleton] at h
          exact Or.inr ⟨n, List.mem_cons_self, h⟩
      | cons m rest =>
          rw [List.map_cons, List.map_cons, List.intercalate_cons_cons, List.mem_append,
            List.mem_append, List.mem_singleton] at h
          rcases h with (h | h) | h
          · exact Or.inr ⟨n, List.mem_cons_self, h⟩
          · exact Or.inl h
          · rcases ih h with h | ⟨k, hk, h⟩
            · exact Or.inl h
            · exact Or.inr ⟨k, List.mem_cons_of_mem _ hk, h⟩

/-- A path without a backslash is collected as it is. -/
lemma collectedName_eq (h : '\\' ∉ (relPath names).toList) :
    collectedName names = relPath names := by
  have hkeep : ∀ c ∈ (relPath names).toList, (if c = '\\' then '/' else c) = c := by
    intro c hc
    refine if_neg ?_
    rintro rfl
    exact h hc
  rw [collectedName, List.map_congr_left hkeep, List.map_id'', String.ofList_toList]
  exact fun _ => rfl

lemma collectedName_of_names (h : ∀ n ∈ names, '\\' ∉ n.chars) :
    collectedName names = relPath names := by
  refine collectedName_eq fun hc => ?_
  rcases mem_relPath hc with h' | ⟨n, hn, h'⟩
  · cases h'
  · exact h n hn h'

lemma collectedName_of_no_slash (h : '/' ∉ (collectedName names).toList) :
    collectedName names = relPath names := by
  refine collectedName_eq fun hc => h ?_
  rw [collectedName, String.toList_ofList]
  exact List.mem_map.mpr ⟨'\\', hc, rfl⟩

/-- A file has nothing below it. -/
lemma PickedUp.not_below {names' : List FileName} {data data' : Bytes}
    (h : PickedUp ignore fs root names data) (h' : PickedUp ignore fs root names' data')
    (hpre : names <+: names') : names = names' := by
  obtain ⟨rel, n, rfl, -, -, -, hn⟩ := h
  obtain ⟨rel', n', rfl, -, -, -, hn'⟩ := h'
  rcases List.prefix_concat_iff.mp hpre with heq | hpre
  · exact heq
  · -- the file would be a directory on the way to the other one
    obtain ⟨rest, rfl⟩ := hpre
    exfalso
    have hassoc : root ++ (rel ++ [n] ++ rest) = root ++ rel ++ [n] ++ rest := by simp
    rw [hassoc] at hn'
    obtain ⟨d, hd⟩ := Option.isSome_iff_exists.mp (dirAt_of_entryAt hn')
    obtain ⟨e, he, -⟩ := dirAt_append.mp hd
    obtain ⟨e', he'⟩ := entryAt_of_dirAt (Option.isSome_iff_exists.mpr ⟨e, he⟩)
    rw [hn] at he'
    cases he'

/-- **Where no name has a backslash**, no two files are confused. -/
lemma namesApart_of_no_backslash
    (h : ∀ names data, PickedUp ignore fs root names data → ∀ n ∈ names, '\\' ∉ n.chars) :
    NamesApart ignore fs root where
  injective names data names' data' hn hn' heq := by
    rw [collectedName_of_names (h _ _ hn), collectedName_of_names (h _ _ hn')] at heq
    exact relPath_injective hn.ne_nil hn'.ne_nil heq
  nests := by
    have hsegs : ∀ names data, PickedUp ignore fs root names data →
        pathSegments (collectedName names) = (names.map FileName.chars).map String.ofList := by
      intro names data hn
      rw [collectedName_of_names (h _ _ hn), pathSegments, splitOn_relPath hn.ne_nil]
    rintro q ⟨names, data, hn, rfl⟩
    constructor
    · rw [under_iff, hsegs _ _ hn]
      rintro ⟨hpre, -⟩
      have hempty : pathSegments "" = [""] := by decide
      rw [hempty] at hpre
      obtain ⟨n, rest, rfl⟩ := List.exists_cons_of_ne_nil hn.ne_nil
      rw [List.map_cons, List.map_cons, List.cons_prefix_cons] at hpre
      refine n.valid.1 ?_
      simpa using (congrArg String.toList hpre.1).symm
    · rintro p ⟨names', data', hn', rfl⟩
      rw [under_iff, hsegs _ _ hn, hsegs _ _ hn']
      rintro ⟨hpre, hne⟩
      have hinj : Function.Injective fun n : FileName => String.ofList n.chars :=
        toList_ofList_injective.comp chars_injective
      rw [List.map_map, List.map_map] at hpre hne
      have hpre' : names' <+: names := (List.prefix_map_iff_of_injective hinj).mp hpre
      exact hne (by rw [hn'.not_below hn hpre'])

/-! ### Commits -/

namespace DiskWorkspace

variable {ws ws' : DiskWorkspace} {fuel createdAt : ℕ} {author message : String}

/-- The objects that a commit may write: the blobs of what is picked up, the trees of what is
collected, and the snapshot. -/
def CommitObjects (L : Linked) (W : DirWalk) (fs : Fs Bytes) (ws : DiskWorkspace)
    (author message : String) (createdAt : ℕ) : Set Object :=
  {o | (∃ names data, PickedUp (ws.ignoreMatcher W fs) fs ws.root names data ∧ o = .blob data) ∨
    ∃ fuel files, Collect.collect (openDir L W (ws.ignoreMatcher W fs) fs ws.root) (fun _ => true)
        fuel [[]] ∅ = .ok (some files) ∧
      ((∃ t ∈ (dirNode files).trees L, o = .tree t) ∨
        o = .snapshot ⟨L.treeId ((dirNode files).tree L), ws.base.toList, author, createdAt,
          message⟩)}

/-- What `collect` writes and returns. -/
lemma collect_spec (author message : String) (createdAt : ℕ)
    {r : Result (Option (BTreeMap String ObjectId))}
    (h : ws.collect L W mtime fuel fs s = (r, s')) :
    s.Written L (fun b => ∃ o ∈ ws.CommitObjects L W fs author message createdAt,
        L.codec.serialize o = .ok b) s' ∧
      ∀ files, r = .ok (some files) →
        Collect.collect (openDir L W (ws.ignoreMatcher W fs) fs ws.root) (fun _ => true) fuel [[]]
          ∅ = .ok (some files) := by
  have hroot : ∀ rel ∈ (⟨[[]], ∅⟩ : Taken).stack, Entered (ws.ignoreMatcher W fs) rel := by
    intro rel hrel
    rw [List.mem_singleton.mp hrel]
    exact entered_nil
  obtain ⟨hwritten, hok⟩ := collectLoop_spec hroot h
  refine ⟨hwritten.mono ?_, hok⟩
  rintro b ⟨names, data, hpicked, hb⟩
  exact ⟨_, Or.inl ⟨names, data, hpicked, rfl⟩, hb⟩

/-- The trees of what is collected, and the snapshot, are among the objects of the commit. -/
lemma trees_written (author message : String) (createdAt : ℕ) (mtime : Option ℕ)
    {files : BTreeMap String ObjectId}
    (hfiles : Collect.collect (openDir L W (ws.ignoreMatcher W fs) fs ws.root) (fun _ => true) fuel
      [[]] ∅ = .ok (some files)) :
    s.Written L (fun b => ∃ o ∈ ws.CommitObjects L W fs author message createdAt,
      L.codec.serialize o = .ok b) (buildTree L s files mtime).2 := by
  refine (storeDir_stores s (dirNode files)).2.written.mono ?_
  rintro b ⟨t, ht, hb⟩
  exact ⟨_, Or.inr ⟨fuel, files, hfiles, Or.inl ⟨t, ht, rfl⟩⟩, hb⟩

/-- **A commit writes its objects** and nothing else. -/
theorem commit_written :
    s.Written L (fun b => ∃ o ∈ ws.CommitObjects L W fs author message createdAt,
      L.codec.serialize o = .ok b)
      (ws.commit L W mtime fuel fs s author message createdAt).2.2 := by
  rw [commit]
  split
  · next e s₁ heq => exact (collect_spec author message createdAt heq).1
  · next s₁ heq => exact (collect_spec author message createdAt heq).1
  · next files s₁ heq =>
      obtain ⟨hwritten, hok⟩ := collect_spec author message createdAt heq
      have htrees := hwritten.trans
        (trees_written author message createdAt mtime (hok files rfl))
      have hroot : ∀ id, (buildTree L s₁ files mtime).1 = .ok id →
          id = L.treeId ((dirNode files).tree L) := (storeDir_stores s₁ (dirNode files)).1
      split
      · next e s₂ hbuild =>
          rw [hbuild] at htrees
          exact htrees
      · next root s₂ hbuild =>
          rw [hbuild] at htrees
          obtain rfl := hroot root (congrArg Prod.fst hbuild)
          have hwhole : ∀ b, L.codec.serialize (.snapshot ⟨L.treeId ((dirNode files).tree L),
              ws.base.toList, author, createdAt, message⟩) = .ok b →
                ∃ o ∈ ws.CommitObjects L W fs author message createdAt,
                  L.codec.serialize o = .ok b :=
            fun b hb => ⟨_, Or.inr ⟨fuel, files, hok files rfl, Or.inr rfl⟩, hb⟩
          have hput := htrees.put hwhole mtime
          split
          · next e s₃ hsnap =>
              rw [hsnap] at hput
              exact hput
          · next id s₃ hsnap =>
              rw [hsnap] at hput
              exact hput

/-- **A commit that succeeds holds exactly the files that are picked up**, if no two of them are
confused. -/
theorem commit_files {id : ObjectId} (hexact : W.Exact fs)
    (hfaithful : s.Faithful L (ws.CommitObjects L W fs author message createdAt))
    (hapart : NamesApart (ws.ignoreMatcher W fs) fs ws.root)
    (h : ws.commit L W mtime fuel fs s author message createdAt = (.ok (some id), ws', s')) :
    ∃ n files, snapshotPaths L s' n id = .ok (some files) ∧
      ∀ path v, files[path]? = some v ↔
        HoldsFile L (ws.ignoreMatcher W fs) fs ws.root path v := by
  have hall : (ws.commit L W mtime fuel fs s author message createdAt).2.2.Faithful L
      (ws.CommitObjects L W fs author message createdAt) := hfaithful.written commit_written
  rw [h] at hall
  rw [commit] at h
  split at h
  · cases h
  · cases h
  · next files s₁ heq =>
      obtain ⟨-, hok⟩ := collect_spec author message createdAt heq
      have hcollect := hok files rfl
      split at h
      · cases h
      · next root s₂ hbuild =>
          rw [buildTree] at hbuild
          obtain ⟨hroot, hstores⟩ := storeDir_stores s₁ (dirNode files)
          rw [hbuild] at hroot hstores
          obtain rfl := hroot root rfl
          split at h
          · cases h
          · next id' s₃ hsnap =>
              cases h
              -- everything is there in the end, and reads back
              have hstep : s₂.Written L (fun _ => True) s' := by
                have hput : s₂.Written L (fun _ => True) (s₂.put L (.snapshot
                    ⟨L.treeId ((dirNode files).tree L), ws.base.toList, author, createdAt,
                      message⟩) mtime).2 :=
                  (ObjectStore.Written.refl s₂).put (fun _ _ => trivial) mtime
                rwa [hsnap] at hput
              have hreads : ∀ t ∈ (dirNode files).trees L,
                  s'.get L (L.treeId t) = .ok (some (.tree t)) := by
                intro t ht
                obtain ⟨b, hb, hexists⟩ := hstores.whole ⟨_, rfl⟩ t ht
                rw [Linked.treeId, Linked.treeBytes, hb]
                exact ObjectStore.object_eq_some.mp (hall.get
                  (Or.inr ⟨fuel, files, hcollect, Or.inl ⟨t, ht, rfl⟩⟩) hb
                  (hstep.exists_ hexists))
              have hget : s'.get L id = .ok (some (.snapshot
                  ⟨L.treeId ((dirNode files).tree L), ws.base.toList, author, createdAt,
                    message⟩)) := by
                have hexists := ObjectStore.exists_put (congrArg Prod.fst hsnap)
                obtain ⟨b, hb, rfl⟩ := ObjectStore.put_eq_ok (congrArg Prod.fst hsnap)
                rw [hsnap] at hexists
                exact ObjectStore.object_eq_some.mp
                  (hall.get (Or.inr ⟨fuel, files, hcollect, Or.inr rfl⟩) hb hexists)
              have hemits : ∀ path v, files[path]? = some v ↔
                  HoldsFile L (ws.ignoreMatcher W fs) fs ws.root path v := fun path v =>
                getElem?_collected hexact hapart hcollect
              have hnests : Nests {p | p ∈ files} := by
                have hmem : {p | p ∈ files} = {path | ∃ names data,
                    PickedUp (ws.ignoreMatcher W fs) fs ws.root names data ∧
                      path = collectedName names} := by
                  ext path
                  rw [Set.mem_ofPred_eq, Set.mem_ofPred_eq, Std.ExtTreeMap.mem_iff_isSome_getElem?,
                    Option.isSome_iff_exists]
                  simp only [hemits, HoldsFile]
                  constructor
                  · rintro ⟨v, names, data, hp, hname, -⟩
                    exact ⟨names, data, hp, hname⟩
                  · rintro ⟨names, data, hp, hname⟩
                    exact ⟨_, names, data, hp, hname, rfl⟩
                rw [hmem]
                exact hapart.nests
              obtain ⟨n, hwalk⟩ := (walkTree_built hreads).mpr hnests
              refine ⟨n, files, ?_, hemits⟩
              rw [snapshotPaths, hget]
              exact hwalk

end DiskWorkspace

end Bole
