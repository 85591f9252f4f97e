import Bole.Lib.Posix
import Bole.Repo.Ephemeral

/-!
Whether a flat map survives `build_tree` and `snapshot_paths` (`src/repo/ephemeral.rs`).

A directory is described by its files and its directories at each list of segments.  In a
stored tree a directory takes the place of a file of the same name, and the walk joins the
names without the empty ones in front.

* `fileAt_dirNode`, `hasDir_dirNode`: the nested directories of a flat map;
* `storeDir_ready`: storing them writes the trees of `DirNode.trees`, and they can be read;
* `storeDir_stores`: a call that succeeds has written them;
* `emits_tree`: what the walk shows of them;
* `walkTree_built`: the walk gives the map back exactly if no path begins with a slash and
  none is a directory of another.
-/

namespace Bole

open Collect

/-! ### Directories by segments -/

namespace DirNode

/-- The file at a list of segments. -/
def fileAt : List String → DirNode → Option ObjectId
  | [], _ => none
  | [name], .node files _ => files[name]?
  | head :: rest, .node _ dirs =>
      match dirs.lookup head with
      | none => none
      | some d => fileAt rest d

/-- Whether there is a directory at a list of segments. -/
def hasDir : List String → DirNode → Bool
  | [], _ => true
  | head :: rest, .node _ dirs =>
      match dirs.lookup head with
      | none => false
      | some d => hasDir rest d

/-- The names of the directories are in order, here and inside. -/
inductive Ordered : DirNode → Prop where
  | node {files : BTreeMap String ObjectId} {dirs : List (String × DirNode)} :
      dirs.Pairwise (fun a b => compare a.1 b.1 = .lt) → (∀ d ∈ dirs, Ordered d.2) →
      Ordered (.node files dirs)

lemma insert_cons_cons (id : ObjectId) (head next : String) (rest : List String)
    (files : BTreeMap String ObjectId) (dirs : List (String × DirNode)) :
    (node files dirs).insert id (head :: next :: rest) =
      node files (updateDir head (insert id (next :: rest)) dirs) := rfl

lemma fileAt_cons_cons (head next : String) (rest : List String)
    (files : BTreeMap String ObjectId) (dirs : List (String × DirNode)) :
    fileAt (head :: next :: rest) (node files dirs) =
      (dirs.lookup head).bind (fileAt (next :: rest)) := by
  rw [fileAt]
  · cases dirs.lookup head <;> rfl
  · simp

lemma hasDir_cons (head : String) (rest : List String) (files : BTreeMap String ObjectId)
    (dirs : List (String × DirNode)) :
    hasDir (head :: rest) (node files dirs) = true ↔
      ∃ d, dirs.lookup head = some d ∧ hasDir rest d = true := by
  rw [hasDir]
  cases dirs.lookup head <;> simp

lemma ordered_empty : Ordered empty := .node .nil (by simp)

variable {files : BTreeMap String ObjectId} {dirs : List (String × DirNode)} {id : ObjectId}

lemma mem_of_lookup {name : String} {d : DirNode} (h : dirs.lookup name = some d) :
    (name, d) ∈ dirs := by
  obtain ⟨l₁, l₂, rfl, -⟩ := List.lookup_eq_some_iff.mp h
  simp

/-- The directories after `updateDir`. -/
lemma mem_updateDir {name : String} {f : DirNode → DirNode} {d : String × DirNode} :
    ∀ {dirs : List (String × DirNode)}, d ∈ updateDir name f dirs →
      d ∈ dirs ∨ d.1 = name ∧ (d.2 = f empty ∨ ∃ e ∈ dirs, d.2 = f e.2)
  | [], h => by
      rw [updateDir, List.mem_singleton] at h
      simp [h]
  | (k, c) :: rest, h => by
      rw [updateDir] at h
      split at h
      · rcases List.mem_cons.mp h with rfl | h
        · exact Or.inr ⟨rfl, Or.inl rfl⟩
        · exact Or.inl h
      · next heq =>
          rcases List.mem_cons.mp h with rfl | h
          · exact Or.inr ⟨(Std.LawfulEqOrd.eq_of_compare heq).symm, Or.inr ⟨(k, c), by simp, rfl⟩⟩
          · exact Or.inl (List.mem_cons_of_mem _ h)
      · rcases List.mem_cons.mp h with rfl | h
        · exact Or.inl List.mem_cons_self
        · rcases mem_updateDir h with h | ⟨hname, h | ⟨e, he, h⟩⟩
          · exact Or.inl (List.mem_cons_of_mem _ h)
          · exact Or.inr ⟨hname, Or.inl h⟩
          · exact Or.inr ⟨hname, Or.inr ⟨e, List.mem_cons_of_mem _ he, h⟩⟩

/-- `updateDir` keeps the names in order. -/
lemma updateDir_ordered {name : String} {f : DirNode → DirNode} :
    ∀ {dirs : List (String × DirNode)}, dirs.Pairwise (fun a b => compare a.1 b.1 = .lt) →
      (updateDir name f dirs).Pairwise (fun a b => compare a.1 b.1 = .lt)
  | [], _ => by simp [updateDir]
  | (k, d) :: rest, h => by
      obtain ⟨hk, hrest⟩ := List.pairwise_cons.mp h
      rw [updateDir]
      split
      · next hlt =>
          refine List.pairwise_cons.mpr ⟨fun b hb => ?_, h⟩
          rcases List.mem_cons.mp hb with rfl | hb
          · exact hlt
          · exact Std.TransCmp.lt_trans hlt (hk b hb)
      · exact List.pairwise_cons.mpr ⟨hk, hrest⟩
      · next hgt =>
          refine List.pairwise_cons.mpr ⟨fun b hb => ?_, updateDir_ordered hrest⟩
          rcases mem_updateDir hb with hb | ⟨hb, -⟩
          · exact hk b hb
          · rw [hb]
            exact Std.OrientedCmp.gt_iff_lt.mp hgt

/-- **What `updateDir` changes**: the directory of the name, which is created if need be. -/
lemma lookup_updateDir {name k : String} {f : DirNode → DirNode} :
    ∀ {dirs : List (String × DirNode)}, dirs.Pairwise (fun a b => compare a.1 b.1 = .lt) →
      (updateDir name f dirs).lookup k =
        if k = name then some (f ((dirs.lookup name).getD empty)) else dirs.lookup k
  | [], _ => by
      by_cases hk : k = name
      · simp [updateDir, hk]
      · simp [updateDir, List.lookup, beq_eq_false_iff_ne.mpr hk, hk]
  | (m, d) :: rest, h => by
      obtain ⟨hm, hrest⟩ := List.pairwise_cons.mp h
      rw [updateDir]
      split
      · next hlt =>
          -- a new name, in front of all others
          have hnone : ((m, d) :: rest).lookup name = none := by
            refine List.lookup_eq_none_iff.mpr fun e he => ?_
            have hne : compare name e.1 = .lt := by
              rcases List.mem_cons.mp he with rfl | he
              · exact hlt
              · exact Std.TransCmp.lt_trans hlt (hm e he)
            simp only [bne_iff_ne, ne_eq]
            rintro rfl
            simp at hne
          by_cases hk : k = name
          · simp [hk, hnone]
          · simp [List.lookup, beq_eq_false_iff_ne.mpr hk, hk]
      · next heq =>
          obtain rfl := Std.LawfulEqOrd.eq_of_compare heq
          by_cases hk : k = name
          · simp [hk]
          · simp [List.lookup, beq_eq_false_iff_ne.mpr hk, hk]
      · next hgt =>
          have hne : name ≠ m := by
            rintro rfl
            simp at hgt
          rw [List.lookup_cons, List.lookup_cons, List.lookup_cons, lookup_updateDir hrest,
            beq_eq_false_iff_ne.mpr hne]
          by_cases hk : k = m
          · simp [hk, Ne.symm hne]
          · simp [beq_eq_false_iff_ne.mpr hk]

/-- `insert` keeps the names in order. -/
lemma insert_ordered (id : ObjectId) : ∀ (path : List String) {n : DirNode}, n.Ordered →
    (n.insert id path).Ordered
  | [], .node files dirs, h => h
  | [name], .node files dirs, .node hp hd => .node hp hd
  | head :: next :: rest, .node files dirs, .node hp hd => by
      refine .node (updateDir_ordered hp) fun d hmem => ?_
      rcases mem_updateDir hmem with h | ⟨-, h | ⟨e, he, h⟩⟩
      · exact hd d h
      · rw [h]
        exact insert_ordered id (next :: rest) ordered_empty
      · rw [h]
        exact insert_ordered id (next :: rest) (hd e he)

/-- The directory that `insert` goes on in. -/
lemma ordered_getD (h : ∀ d ∈ dirs, Ordered d.2) (name : String) :
    ((dirs.lookup name).getD empty).Ordered := by
  cases hl : dirs.lookup name with
  | none => exact ordered_empty
  | some d => exact h _ (mem_of_lookup hl)

@[simp] lemma fileAt_empty : ∀ path : List String, fileAt path empty = none
  | [] => rfl
  | [_] => by simp [fileAt, empty]
  | _ :: _ :: _ => rfl

@[simp] lemma hasDir_empty (path : List String) : hasDir path empty = true ↔ path = [] := by
  cases path with
  | nil => simp [hasDir]
  | cons head rest => simp [empty, hasDir_cons]

/-- **`insert` adds the file** at its segments and changes no other. -/
lemma fileAt_insert : ∀ {path : List String} {n : DirNode}, n.Ordered → path ≠ [] →
    ∀ q, fileAt q (n.insert id path) = if q = path then some id else fileAt q n
  | [name], .node files dirs, _, _, q => by
      match q with
      | [] => simp [fileAt]
      | [k] =>
          simp only [insert, fileAt, Std.ExtTreeMap.getElem?_insert,
            Std.LawfulEqOrd.compare_eq_iff_eq, List.cons.injEq, and_true]
          simp only [eq_comm]
      | k :: l :: q => simp [insert, fileAt]
  | head :: next :: rest, .node files dirs, .node hp hd, _, q => by
      match q with
      | [] => simp [fileAt]
      | [k] => simp [insert, fileAt]
      | k :: l :: q =>
          rw [insert_cons_cons, fileAt_cons_cons, fileAt_cons_cons, lookup_updateDir hp]
          by_cases hk : k = head
          · subst hk
            rw [if_pos rfl, Option.bind_some, fileAt_insert (ordered_getD hd k) (by simp)]
            cases dirs.lookup k with
            | none => simp
            | some d => simp
          · rw [if_neg hk, if_neg (by simp [hk])]

/-- **`insert` adds the directories** in front of the file and no other. -/
lemma hasDir_insert : ∀ {path : List String} {n : DirNode}, n.Ordered → path ≠ [] →
    ∀ q, hasDir q (n.insert id path) = true ↔ hasDir q n = true ∨ q <+: path ∧ q ≠ path
  | [name], .node files dirs, _, _, q => by
      match q with
      | [] => simp [hasDir]
      | k :: q =>
          have hnil : (k :: q <+: [name] ∧ k :: q ≠ [name]) ↔ False := by
            rw [List.cons_prefix_cons, List.prefix_nil]
            simp
          rw [insert, hasDir_cons, hasDir_cons, hnil, or_false]
  | head :: next :: rest, .node files dirs, .node hp hd, _, q => by
      match q with
      | [] => simp [hasDir]
      | k :: q =>
          rw [insert_cons_cons, hasDir_cons, hasDir_cons, lookup_updateDir hp,
            List.cons_prefix_cons]
          by_cases hk : k = head
          · subst hk
            simp only [if_pos, Option.some.injEq, exists_eq_left', true_and, ne_eq,
              List.cons.injEq, hasDir_insert (ordered_getD hd k) (List.cons_ne_nil next rest)]
            cases dirs.lookup k with
            | none =>
                simp only [Option.getD_none, hasDir_empty, reduceCtorEq, false_and, exists_false,
                  false_or, or_iff_right_iff_imp]
                rintro rfl
                simp
            | some d => simp
          · simp [hk]

end DirNode

/-! ### Paths and segments -/

/-- The path lies below the other one, in the text of the two. -/
def Under (dir path : String) : Prop := ∃ rest, path = dir ++ "/" ++ rest

instance (dir path : String) : Decidable (Under dir path) :=
  decidable_of_iff ((dir ++ "/").toList <+: path.toList) (by
    rw [Under]
    constructor
    · rintro ⟨rest, h⟩
      exact ⟨String.ofList rest, String.toList_injective (by simpa using h.symm)⟩
    · rintro ⟨rest, rfl⟩
      exact ⟨rest.toList, by simp⟩)

lemma toList_ofList_injective : Function.Injective String.ofList := fun a b h => by
  simpa using congrArg String.toList h

lemma pathSegments_ne_nil (p : String) : pathSegments p ≠ [] := by
  simp [pathSegments, List.splitOn_ne_nil]

lemma pathSegments_injective : Function.Injective pathSegments := by
  intro p q h
  have hsplit := List.map_injective_iff.mpr toList_ofList_injective h
  have hjoin := congrArg ['/'].intercalate hsplit
  rw [List.intercalate_splitOn, List.intercalate_splitOn] at hjoin
  exact String.toList_injective hjoin

lemma pathSegments_append (dir rest : String) :
    pathSegments (dir ++ "/" ++ rest) = pathSegments dir ++ pathSegments rest := by
  have hlist : (dir ++ "/" ++ rest).toList = dir.toList ++ '/' :: rest.toList := by simp
  rw [pathSegments, hlist, List.splitOn_append_cons_self, List.map_append]
  rfl

/-- A segment has no slash in it. -/
lemma slash_notMem {p seg : String} (h : seg ∈ pathSegments p) : '/' ∉ seg.toList := by
  obtain ⟨chars, hchars, rfl⟩ := List.mem_map.mp h
  rw [String.toList_ofList]
  exact Words.notMem_of_mem_splitOn hchars

/-- A name without a slash is a single segment. -/
lemma pathSegments_name {name : String} (h : '/' ∉ name.toList) : pathSegments name = [name] := by
  rw [pathSegments, List.splitOn_eq_singleton h]
  simp

/-- Names without slashes are the segments of a path. -/
lemma exists_pathSegments {segs : List String} (hne : segs ≠ [])
    (h : ∀ seg ∈ segs, '/' ∉ seg.toList) : ∃ p, pathSegments p = segs := by
  refine ⟨String.ofList (['/'].intercalate (segs.map String.toList)), ?_⟩
  rw [pathSegments, String.toList_ofList, List.splitOn_intercalate '/' _ (by simpa using hne)]
  · simp [Function.comp_def]
  · intro l hl
    obtain ⟨seg, hseg, rfl⟩ := List.mem_map.mp hl
    exact h seg hseg

/-- A path below another one has more segments. -/
lemma under_iff {dir path : String} :
    Under dir path ↔
      pathSegments dir <+: pathSegments path ∧ pathSegments dir ≠ pathSegments path := by
  constructor
  · rintro ⟨rest, rfl⟩
    rw [pathSegments_append]
    refine ⟨List.prefix_append _ _, fun h => pathSegments_ne_nil rest ?_⟩
    simpa using h
  · rintro ⟨⟨segs, hsegs⟩, hne⟩
    have hnil : segs ≠ [] := by
      rintro rfl
      rw [List.append_nil] at hsegs
      exact hne hsegs
    obtain ⟨rest, rfl⟩ := exists_pathSegments hnil fun seg hseg =>
      slash_notMem (p := path) (hsegs ▸ List.mem_append_right _ hseg)
    exact ⟨rest, pathSegments_injective (by rw [pathSegments_append, hsegs])⟩

/-- The path the walk gives to a list of names. -/
def joinAll (pfx : String) (names : List String) : String := names.foldl joinPath pfx

/-- Behind a name that is not empty nothing is lost. -/
lemma pathSegments_joinAll {names : List String} (hnames : ∀ name ∈ names, '/' ∉ name.toList) :
    ∀ {pfx : String}, pfx ≠ "" → pathSegments (joinAll pfx names) = pathSegments pfx ++ names := by
  induction names with
  | nil => simp [joinAll]
  | cons name rest ih =>
      intro pfx hpfx
      have hstep : joinAll pfx (name :: rest) = joinAll (pfx ++ "/" ++ name) rest := by
        rw [joinAll, List.foldl_cons, joinPath_of_ne hpfx]
        rfl
      have hne : pfx ++ "/" ++ name ≠ "" := by
        intro h
        simpa using congrArg String.toList h
      rw [hstep, ih (fun n hn => hnames n (List.mem_cons_of_mem _ hn)) hne, pathSegments_append,
        pathSegments_name (hnames name List.mem_cons_self), List.append_assoc]
      rfl

/-- **The walk finds a path again** unless it begins with a slash. -/
lemma joinAll_pathSegments {p : String} (h : ¬ Under "" p) : joinAll "" (pathSegments p) = p := by
  have hslash := fun seg (hseg : seg ∈ pathSegments p) => slash_notMem hseg
  have hunder := mt under_iff.mpr h
  rw [show pathSegments "" = [""] from rfl] at hunder
  cases hsegs : pathSegments p with
  | nil => exact absurd hsegs (pathSegments_ne_nil p)
  | cons seg rest =>
      rw [hsegs] at hslash hunder
      by_cases hseg : seg = ""
      · subst hseg
        have hrest : rest = [] := by
          by_contra hne
          exact hunder ⟨by simp, by simpa using Ne.symm hne⟩
        subst hrest
        exact pathSegments_injective (by rw [hsegs]; rfl)
      · refine pathSegments_injective ?_
        have hfirst : joinAll "" (seg :: rest) = joinAll seg rest := rfl
        rw [hfirst, pathSegments_joinAll (fun n hn => hslash n (List.mem_cons_of_mem _ hn)) hseg,
          pathSegments_name (hslash seg List.mem_cons_self), hsegs]
        rfl

/-- **The walk gives no path** that begins with a slash. -/
lemma not_under_joinAll {names : List String} (hnames : ∀ name ∈ names, '/' ∉ name.toList) :
    ¬ Under "" (joinAll "" names) := by
  induction names with
  | nil => decide
  | cons name rest ih =>
      have hfirst : joinAll "" (name :: rest) = joinAll name rest := rfl
      by_cases hname : name = ""
      · rw [hfirst, hname]
        exact ih fun n hn => hnames n (List.mem_cons_of_mem _ hn)
      · rw [hfirst, under_iff,
          pathSegments_joinAll (fun n hn => hnames n (List.mem_cons_of_mem _ hn)) hname,
          pathSegments_name (hnames name List.mem_cons_self)]
        rintro ⟨hpre, -⟩
        rw [show pathSegments "" = [""] from rfl, List.singleton_append,
          List.cons_prefix_cons] at hpre
        exact hname hpre.1.symm

/-! ### The directories of a flat map -/

section Fold

variable {n : DirNode} {l : List (String × ObjectId)} {files : BTreeMap String ObjectId}

lemma ordered_foldl (h : n.Ordered) :
    (l.foldl (fun root f => root.insert f.2 (pathSegments f.1)) n).Ordered := by
  induction l generalizing n with
  | nil => exact h
  | cons e rest ih => exact ih (DirNode.insert_ordered _ _ h)

lemma fileAt_foldl (h : n.Ordered) (hl : l.Pairwise fun a b => a.1 ≠ b.1) {q : List String}
    {id : ObjectId} :
    DirNode.fileAt q (l.foldl (fun root f => root.insert f.2 (pathSegments f.1)) n) = some id ↔
      (∃ e ∈ l, pathSegments e.1 = q ∧ e.2 = id) ∨
        (∀ e ∈ l, pathSegments e.1 ≠ q) ∧ n.fileAt q = some id := by
  induction l generalizing n with
  | nil => simp
  | cons e rest ih =>
      obtain ⟨he, hrest⟩ := List.pairwise_cons.mp hl
      rw [List.foldl_cons, ih (DirNode.insert_ordered _ _ h) hrest,
        DirNode.fileAt_insert h (pathSegments_ne_nil _)]
      simp only [List.mem_cons, exists_eq_or_imp, forall_eq_or_imp]
      by_cases hq : q = pathSegments e.1
      · -- no later path has these segments
        have hlater : ∀ e' ∈ rest, pathSegments e'.1 ≠ q := fun e' he' heq =>
          he e' he' (pathSegments_injective (heq.trans hq)).symm
        rw [if_pos hq]
        constructor
        · rintro (⟨e', he', heq, -⟩ | ⟨-, hid⟩)
          · exact absurd heq (hlater e' he')
          · exact Or.inl (Or.inl ⟨hq.symm, Option.some.inj hid⟩)
        · rintro ((⟨-, rfl⟩ | ⟨e', he', heq, -⟩) | ⟨⟨hne, -⟩, -⟩)
          · exact Or.inr ⟨hlater, rfl⟩
          · exact absurd heq (hlater e' he')
          · exact absurd hq.symm hne
      · rw [if_neg hq]
        have hq' : pathSegments e.1 ≠ q := Ne.symm hq
        simp [hq']

lemma hasDir_foldl (h : n.Ordered) {q : List String} :
    DirNode.hasDir q (l.foldl (fun root f => root.insert f.2 (pathSegments f.1)) n) = true ↔
      n.hasDir q = true ∨ ∃ e ∈ l, q <+: pathSegments e.1 ∧ q ≠ pathSegments e.1 := by
  induction l generalizing n with
  | nil => simp
  | cons e rest ih =>
      rw [List.foldl_cons, ih (DirNode.insert_ordered _ _ h),
        DirNode.hasDir_insert h (pathSegments_ne_nil _), or_assoc]
      simp only [List.mem_cons, exists_eq_or_imp]

lemma ordered_dirNode (files : BTreeMap String ObjectId) : (dirNode files).Ordered :=
  ordered_foldl DirNode.ordered_empty

/-- **The files** of the nested directories are those of the map. -/
lemma fileAt_dirNode {q : List String} {id : ObjectId} :
    (dirNode files).fileAt q = some id ↔ ∃ p, pathSegments p = q ∧ files[p]? = some id := by
  have hl : files.toList.Pairwise fun a b => a.1 ≠ b.1 := by
    refine Std.ExtTreeMap.distinct_keys_toList.imp fun h heq => h ?_
    rw [heq, Std.ReflOrd.compare_self]
  rw [dirNode, fileAt_foldl DirNode.ordered_empty hl]
  simp only [DirNode.fileAt_empty, reduceCtorEq, and_false, or_false, Prod.exists,
    Std.ExtTreeMap.mem_toList_iff_getElem?_eq_some]
  constructor
  · rintro ⟨p, id', hp, hq, rfl⟩
    exact ⟨p, hq, hp⟩
  · rintro ⟨p, hq, hp⟩
    exact ⟨p, id, hp, hq, rfl⟩

/-- **The directories** are what the paths of the map lie below. -/
lemma hasDir_dirNode {p : String} : (dirNode files).hasDir (pathSegments p) = true ↔
    ∃ q ∈ files, Under p q := by
  rw [dirNode, hasDir_foldl DirNode.ordered_empty, DirNode.hasDir_empty]
  simp only [pathSegments_ne_nil, false_or, Prod.exists,
    Std.ExtTreeMap.mem_toList_iff_getElem?_eq_some, ← under_iff]
  constructor
  · rintro ⟨q, id, hq, hu⟩
    exact ⟨q, Std.ExtTreeMap.mem_iff_isSome_getElem?.mpr (by simp [hq]), hu⟩
  · rintro ⟨q, hq, hu⟩
    obtain ⟨id, hid⟩ := Option.isSome_iff_exists.mp (Std.ExtTreeMap.mem_iff_isSome_getElem?.mp hq)
    exact ⟨q, id, hid, hu⟩

end Fold

/-! ### The trees of a directory -/

/-- The bytes of a tree; none when the codec refuses it. -/
def Linked.treeBytes (L : Linked) (t : Tree) : Bytes :=
  match L.codec.serialize (.tree t) with
  | .ok b => b
  | .error _ => []

/-- The id of a tree. -/
def Linked.treeId (L : Linked) (t : Tree) : ObjectId := L.fromContent (L.treeBytes t)

mutual

/-- The tree a directory is stored as. -/
def DirNode.tree (L : Linked) : DirNode → Tree
  | .node files dirs => ⟨DirNode.dirEntries L dirs (blobEntries files)⟩

/-- Its entries, from those of the files on. -/
def DirNode.dirEntries (L : Linked) :
    List (String × DirNode) → BTreeMap String TreeEntry → BTreeMap String TreeEntry
  | [], entries => entries
  | (name, child) :: rest, entries =>
      DirNode.dirEntries L rest (entries.insert name ⟨L.treeId (child.tree L), .tree⟩)

end

mutual

/-- The trees that are stored for a directory: its own and those of the directories inside. -/
def DirNode.trees (L : Linked) : DirNode → List Tree
  | .node files dirs => (DirNode.node files dirs).tree L :: DirNode.treesIn L dirs

def DirNode.treesIn (L : Linked) : List (String × DirNode) → List Tree
  | [] => []
  | (_, child) :: rest => child.trees L ++ DirNode.treesIn L rest

end

/-- The given trees can be stored and read back: the codec writes them, and the store answers
for them and is faithful to them. -/
structure ObjectStore.Ready (L : Linked) (trees : List Tree) (s : ObjectStore) : Prop where
  encodes : ∀ t ∈ trees, L.codec.serialize (.tree t) = .ok (L.treeBytes t)
  faithful : s.Faithful L {o | ∃ t ∈ trees, o = .tree t}
  answers : ∀ t ∈ trees, ∃ found, s.exists_ (L.treeId t) = .ok found

variable {L : Linked} {mtime : Option ℕ}

namespace ObjectStore

variable {s : ObjectStore} {trees : List Tree}

/-- **Storing one of the trees** succeeds, and leaves the store ready for the others. -/
lemma Ready.put (h : s.Ready L trees) {t : Tree} (ht : t ∈ trees) (mtime : Option ℕ) :
    (s.put L (.tree t) mtime).1 = .ok (L.treeId t) ∧ (s.put L (.tree t) mtime).2.Ready L trees ∧
      (s.put L (.tree t) mtime).2.get L (L.treeId t) = .ok (some (.tree t)) := by
  have hput : s.put L (.tree t) mtime = s.putRaw L (L.treeBytes t) mtime := by
    rw [ObjectStore.put, h.encodes t ht]
  have hok : (s.put L (.tree t) mtime).1 = .ok (L.treeId t) := by
    rw [hput]
    obtain ⟨found, hfound⟩ := h.answers t ht
    cases found with
    | false => exact (putRaw_backend mtime hfound).1
    | true =>
        rw [putRaw_found mtime hfound]
        rfl
  obtain ⟨hfaithful, hread⟩ := h.faithful.put ⟨t, ht, rfl⟩ hok
  refine ⟨hok, ⟨h.encodes, hfaithful, fun u hu => ?_⟩, hread⟩
  rw [hput] at hok ⊢
  rcases putRaw_cases hok with hnew | ⟨-, hsame⟩
  · rw [exists_putRaw mtime hnew]
    split_ifs
    · exact ⟨true, rfl⟩
    · exact h.answers u hu
  · rw [hsame]
    exact h.answers u hu

end ObjectStore

mutual

/-- **Storing a directory** whose trees can be stored: it succeeds with the id of its tree, and
all its trees read back. -/
theorem storeDir_ready {trees : List Tree} {s : ObjectStore} (h : s.Ready L trees) :
    ∀ n : DirNode, (∀ t ∈ n.trees L, t ∈ trees) →
      ∃ s', storeDir L mtime s n = (.ok (L.treeId (n.tree L)), s') ∧ s'.Ready L trees ∧
        ∀ t ∈ n.trees L, s'.get L (L.treeId t) = .ok (some (.tree t))
  | .node files dirs, hsub => by
      rw [DirNode.trees] at hsub
      obtain ⟨s₁, hstore, hready, hreads⟩ := storeDirs_ready h dirs (blobEntries files)
        fun t ht => hsub t (List.mem_cons_of_mem _ ht)
      obtain ⟨hok, hready', hread⟩ := hready.put (hsub _ List.mem_cons_self) mtime
      refine ⟨_, ?_, hready', fun t ht => ?_⟩
      · rw [storeDir, hstore]
        exact Prod.ext hok rfl
      · rw [DirNode.trees] at ht
        rcases List.mem_cons.mp ht with rfl | ht
        · exact hread
        · have hwritten : s₁.Written L (fun _ => True)
              (s₁.put L (.tree ((DirNode.node files dirs).tree L)) mtime).2 :=
            (ObjectStore.Written.refl s₁).put (fun _ _ => trivial) mtime
          have hgrows := hwritten.grows
          exact ObjectStore.object_eq_some.mp
            (hgrows _ _ (ObjectStore.object_eq_some.mpr (hreads t ht)))

theorem storeDirs_ready {trees : List Tree} {s : ObjectStore} (h : s.Ready L trees) :
    ∀ (dirs : List (String × DirNode)) (entries : BTreeMap String TreeEntry),
      (∀ t ∈ DirNode.treesIn L dirs, t ∈ trees) →
      ∃ s', storeDirs L mtime s dirs entries = (.ok (DirNode.dirEntries L dirs entries), s') ∧
        s'.Ready L trees ∧
        ∀ t ∈ DirNode.treesIn L dirs, s'.get L (L.treeId t) = .ok (some (.tree t))
  | [], entries, _ => ⟨s, rfl, h, by simp [DirNode.treesIn]⟩
  | (name, child) :: rest, entries, hsub => by
      rw [DirNode.treesIn] at hsub
      obtain ⟨s₁, hstore, hready, hreads⟩ := storeDir_ready h child
        fun t ht => hsub t (List.mem_append_left _ ht)
      obtain ⟨s₂, hstores, hready', hreads'⟩ := storeDirs_ready hready rest
        (entries.insert name ⟨L.treeId (child.tree L), .tree⟩)
        fun t ht => hsub t (List.mem_append_right _ ht)
      have hwritten : s₁.Written L (IsTreeBytes L) s₂ := by
        obtain rfl : _ = s₂ := congrArg Prod.snd hstores
        exact storeDirs_written s₁ rest _
      have hgrows := hwritten.grows
      refine ⟨s₂, ?_, hready', fun t ht => ?_⟩
      · rw [storeDirs, hstore]
        exact hstores
      · rw [DirNode.treesIn] at ht
        rcases List.mem_append.mp ht with ht | ht
        · exact ObjectStore.object_eq_some.mp
            (hgrows _ _ (ObjectStore.object_eq_some.mpr (hreads t ht)))
        · exact hreads' t ht

end

/-- What storing directories does: it writes some of the given trees, and all of them if it
succeeds. -/
structure ObjectStore.Stores (L : Linked) (trees : List Tree) (s s' : ObjectStore)
    (done : Prop) : Prop where
  written : s.Written L (fun b => ∃ t ∈ trees, L.codec.serialize (.tree t) = .ok b) s'
  whole : done → ∀ t ∈ trees, ∃ b, L.codec.serialize (.tree t) = .ok b ∧
    s'.exists_ (L.fromContent b) = .ok true

lemma ObjectStore.Stores.fail {trees trees' : List Tree} {s s' : ObjectStore} {done done' : Prop}
    (h : s.Stores L trees s' done) (hsub : ∀ t ∈ trees, t ∈ trees') (hnot : ¬ done') :
    s.Stores L trees' s' done' where
  written := h.written.mono fun _ ⟨t, ht, hb⟩ => ⟨t, hsub t ht, hb⟩
  whole hdone := absurd hdone hnot

mutual

/-- **What storing a directory does**: its trees are written, and it succeeds with the id of its
own. -/
theorem storeDir_stores (s : ObjectStore) :
    ∀ n : DirNode, (∀ id, (storeDir L mtime s n).1 = .ok id → id = L.treeId (n.tree L)) ∧
      s.Stores L (n.trees L) (storeDir L mtime s n).2 (∃ id, (storeDir L mtime s n).1 = .ok id)
  | .node files dirs => by
      obtain ⟨hentries, hinside⟩ := storeDirs_stores s dirs (blobEntries files)
      rw [storeDir, DirNode.trees]
      split
      · next e s' heq =>
          rw [heq] at hinside
          exact ⟨by simp, hinside.fail (fun t ht => List.mem_cons_of_mem _ ht) (by simp)⟩
      · next entries s' heq =>
          rw [heq] at hentries hinside
          obtain rfl := hentries entries rfl
          set own := (DirNode.node files dirs).tree L with hown
          have hput : s.Written L
              (fun b => ∃ t ∈ own :: DirNode.treesIn L dirs, L.codec.serialize (.tree t) = .ok b)
              (s'.put L (.tree own) mtime).2 := by
            refine ObjectStore.Written.put (fun b hb => ⟨own, List.mem_cons_self, hb⟩) mtime ?_
            exact hinside.written.mono fun b ⟨t, ht, hb⟩ => ⟨t, List.mem_cons_of_mem _ ht, hb⟩
          refine ⟨fun id hid => ?_, hput, ?_⟩
          · obtain ⟨b, hb, rfl⟩ := ObjectStore.put_eq_ok hid
            rw [Linked.treeId, Linked.treeBytes, hown, DirNode.tree, hb]
          · rintro ⟨id, hid⟩ t ht
            obtain ⟨b, hb, rfl⟩ := ObjectStore.put_eq_ok hid
            rcases List.mem_cons.mp ht with rfl | ht
            · exact ⟨b, hb, ObjectStore.exists_put hid⟩
            · obtain ⟨b', hb', hexists⟩ := hinside.whole ⟨_, rfl⟩ t ht
              have hstep : s'.Written L (fun _ => True)
                  (s'.put L (.tree own) mtime).2 :=
                (ObjectStore.Written.refl s').put (fun _ _ => trivial) mtime
              exact ⟨b', hb', hstep.exists_ hexists⟩

theorem storeDirs_stores (s : ObjectStore) :
    ∀ (dirs : List (String × DirNode)) (entries : BTreeMap String TreeEntry),
      (∀ out, (storeDirs L mtime s dirs entries).1 = .ok out →
        out = DirNode.dirEntries L dirs entries) ∧
      s.Stores L (DirNode.treesIn L dirs) (storeDirs L mtime s dirs entries).2
        (∃ out, (storeDirs L mtime s dirs entries).1 = .ok out)
  | [], entries => by
      rw [storeDirs, DirNode.treesIn, DirNode.dirEntries]
      exact ⟨fun out h => (Except.ok.inj h).symm, .refl s, by simp⟩
  | (name, child) :: rest, entries => by
      obtain ⟨hid, hchild⟩ := storeDir_stores s child
      rw [storeDirs, DirNode.treesIn, DirNode.dirEntries]
      split
      · next e s₁ heq =>
          rw [heq] at hchild
          exact ⟨by simp, hchild.fail (fun t ht => List.mem_append_left _ ht) (by simp)⟩
      · next id s₁ heq =>
          rw [heq] at hid hchild
          obtain rfl := hid id rfl
          obtain ⟨hout, hrest⟩ := storeDirs_stores s₁ rest
            (entries.insert name ⟨L.treeId (child.tree L), .tree⟩)
          refine ⟨hout, ?_, fun hdone t ht => ?_⟩
          · refine (hchild.written.mono ?_).trans (hrest.written.mono ?_)
            · rintro b ⟨t, ht, hb⟩
              exact ⟨t, List.mem_append_left _ ht, hb⟩
            · rintro b ⟨t, ht, hb⟩
              exact ⟨t, List.mem_append_right _ ht, hb⟩
          · rcases List.mem_append.mp ht with ht | ht
            · obtain ⟨b, hb, hexists⟩ := hchild.whole ⟨_, rfl⟩ t ht
              exact ⟨b, hb, hrest.written.exists_ hexists⟩
            · exact hrest.whole hdone t ht

end

/-! ### Walking the trees -/

section Walk

variable {s : ObjectStore} {files : BTreeMap String ObjectId} {dirs : List (String × DirNode)}

lemma mem_treeFiles {t : Tree} {pfx path : String} {id : ObjectId} :
    (path, id) ∈ t.files pfx ↔
      ∃ name, t.entries[name]? = some ⟨id, .blob⟩ ∧ path = joinPath pfx name := by
  simp only [Tree.files, List.mem_filterMap, Prod.exists,
    Std.ExtTreeMap.mem_toList_iff_getElem?_eq_some]
  constructor
  · rintro ⟨name, ⟨id', kind⟩, hname, h⟩
    cases kind with
    | blob =>
        cases h
        exact ⟨name, hname, rfl⟩
    | tree => cases h
  · rintro ⟨name, hname, rfl⟩
    exact ⟨name, _, hname, rfl⟩

lemma mem_subtrees {t : Tree} {pfx path : String} {id : ObjectId} :
    (id, path) ∈ t.subtrees pfx ↔
      ∃ name, t.entries[name]? = some ⟨id, .tree⟩ ∧ path = joinPath pfx name := by
  simp only [Tree.subtrees, List.mem_filterMap, Prod.exists,
    Std.ExtTreeMap.mem_toList_iff_getElem?_eq_some]
  constructor
  · rintro ⟨name, ⟨id', kind⟩, hname, h⟩
    cases kind with
    | blob => cases h
    | tree =>
        cases h
        exact ⟨name, hname, rfl⟩
  · rintro ⟨name, hname, rfl⟩
    exact ⟨name, _, hname, rfl⟩

/-- **The entries of a stored directory**: those of its directories, and those of the files
whose name is not taken by one. -/
lemma getElem?_dirEntries {name : String} :
    ∀ {dirs : List (String × DirNode)} (entries : BTreeMap String TreeEntry),
      dirs.Pairwise (fun a b => compare a.1 b.1 = .lt) →
      (DirNode.dirEntries L dirs entries)[name]? =
        match dirs.lookup name with
        | some d => some ⟨L.treeId (d.tree L), .tree⟩
        | none => entries[name]?
  | [], entries, _ => rfl
  | (k, child) :: rest, entries, h => by
      obtain ⟨hk, hrest⟩ := List.pairwise_cons.mp h
      rw [DirNode.dirEntries, getElem?_dirEntries _ hrest, List.lookup_cons]
      by_cases hname : name = k
      · subst hname
        have hnone : rest.lookup name = none := by
          refine List.lookup_eq_none_iff.mpr fun e he => ?_
          simp only [bne_iff_ne, ne_eq]
          rintro rfl
          simpa using hk e he
        simp [hnone]
      · rw [beq_eq_false_iff_ne.mpr hname]
        cases rest.lookup name with
        | some d => rfl
        | none => simp [Std.ExtTreeMap.getElem?_insert, Ne.symm hname]

lemma blob_entry {name : String} {id : ObjectId}
    (hp : dirs.Pairwise (fun a b => compare a.1 b.1 = .lt)) :
    ((DirNode.node files dirs).tree L).entries[name]? = some ⟨id, .blob⟩ ↔
      dirs.lookup name = none ∧ files[name]? = some id := by
  rw [DirNode.tree, getElem?_dirEntries _ hp]
  cases dirs.lookup name with
  | some d => simp
  | none => simp [blobEntries]

lemma tree_entry {name : String} {id : ObjectId}
    (hp : dirs.Pairwise (fun a b => compare a.1 b.1 = .lt)) :
    ((DirNode.node files dirs).tree L).entries[name]? = some ⟨id, .tree⟩ ↔
      ∃ d, dirs.lookup name = some d ∧ id = L.treeId (d.tree L) := by
  rw [DirNode.tree, getElem?_dirEntries _ hp]
  cases dirs.lookup name with
  | some d => simp [eq_comm]
  | none => simp [blobEntries]

lemma mem_treesIn {d : String × DirNode} {t : Tree} (hd : d ∈ dirs) (ht : t ∈ d.2.trees L) :
    t ∈ DirNode.treesIn L dirs := by
  induction dirs with
  | nil => cases hd
  | cons e rest ih =>
      obtain ⟨name, child⟩ := e
      rw [DirNode.treesIn]
      rcases List.mem_cons.mp hd with rfl | hd
      · exact List.mem_append_left _ ht
      · exact List.mem_append_right _ (ih hd)

/-- The first turn of the walk at a directory whose trees can be read. -/
lemma openTree_tree (hreads : ∀ t ∈ (DirNode.node files dirs).trees L,
      s.get L (L.treeId t) = .ok (some (.tree t))) (pfx : String) :
    openTree L s (L.treeId ((DirNode.node files dirs).tree L), pfx) =
      .ok (((DirNode.node files dirs).tree L).files pfx,
        ((DirNode.node files dirs).tree L).subtrees pfx) := by
  refine openTree_eq_ok.mpr ⟨_, getTree_eq_some.mpr (hreads _ ?_), rfl⟩
  rw [DirNode.trees]
  exact List.mem_cons_self

lemma reads_inside (hreads : ∀ t ∈ (DirNode.node files dirs).trees L,
      s.get L (L.treeId t) = .ok (some (.tree t))) {d : String × DirNode} (hd : d ∈ dirs) :
    ∀ t ∈ d.2.trees L, s.get L (L.treeId t) = .ok (some (.tree t)) := by
  intro t ht
  refine hreads t ?_
  rw [DirNode.trees]
  exact List.mem_cons_of_mem _ (mem_treesIn hd ht)

/-- The walk of a stored directory ends. -/
lemma opens_tree {n : DirNode} (hn : n.Ordered)
    (hreads : ∀ t ∈ n.trees L, s.get L (L.treeId t) = .ok (some (.tree t))) (pfx : String) :
    OpensWhole (openTree L s) (L.treeId (n.tree L), pfx) := by
  induction hn generalizing pfx with
  | @node files dirs hp _ ih =>
      refine .intro (openTree_tree hreads pfx) fun y hy => ?_
      obtain ⟨name, hname, hpath⟩ := mem_subtrees.mp hy
      obtain ⟨d, hd, hid⟩ := (tree_entry hp).mp hname
      have hmem := DirNode.mem_of_lookup hd
      rw [show y = (L.treeId (d.tree L), y.2) from Prod.ext hid rfl]
      exact ih (name, d) hmem (reads_inside hreads hmem) y.2

/-- **What the walk shows** of a stored directory: its files, as far as no directory has taken
their place. -/
lemma emits_tree {n : DirNode} (hn : n.Ordered)
    (hreads : ∀ t ∈ n.trees L, s.get L (L.treeId t) = .ok (some (.tree t))) {pfx path : String}
    {id : ObjectId} :
    Emits (openTree L s) (L.treeId (n.tree L), pfx) path id ↔
      ∃ names, n.fileAt names = some id ∧ n.hasDir names = false ∧ path = joinAll pfx names := by
  induction hn generalizing pfx with
  | @node files dirs hp _ ih =>
      rw [emits_iff (openTree_tree hreads pfx)]
      constructor
      · rintro (hfile | ⟨y, hy, hemits⟩)
        · obtain ⟨name, hname, rfl⟩ := mem_treeFiles.mp hfile
          obtain ⟨hnone, hfile⟩ := (blob_entry hp).mp hname
          exact ⟨[name], hfile, by simp [DirNode.hasDir, hnone], rfl⟩
        · obtain ⟨name, hname, hpath⟩ := mem_subtrees.mp hy
          obtain ⟨d, hd, hid⟩ := (tree_entry hp).mp hname
          have hmem := DirNode.mem_of_lookup hd
          rw [show y = (L.treeId (d.tree L), joinPath pfx name) from Prod.ext hid hpath] at hemits
          obtain ⟨names, hfile, hdir, rfl⟩ :=
            (ih (name, d) hmem (reads_inside hreads hmem)).mp hemits
          cases names with
          | nil => cases hfile
          | cons next rest =>
              refine ⟨name :: next :: rest, ?_, ?_, rfl⟩
              · rw [DirNode.fileAt_cons_cons, hd]
                exact hfile
              · rw [DirNode.hasDir, hd]
                exact hdir
      · rintro ⟨names, hfile, hdir, rfl⟩
        match names with
        | [] => cases hfile
        | [name] =>
            refine Or.inl (mem_treeFiles.mpr ⟨name, (blob_entry hp).mpr ⟨?_, hfile⟩, rfl⟩)
            cases hl : dirs.lookup name with
            | none => rfl
            | some d => simp [DirNode.hasDir, hl] at hdir
        | name :: next :: rest =>
            rw [DirNode.fileAt_cons_cons] at hfile
            obtain ⟨d, hd, hfile⟩ := Option.bind_eq_some_iff.mp hfile
            rw [DirNode.hasDir, hd] at hdir
            have hmem := DirNode.mem_of_lookup hd
            refine Or.inr ⟨(L.treeId (d.tree L), joinPath pfx name),
              mem_subtrees.mpr ⟨name, (tree_entry hp).mpr ⟨d, hd, rfl⟩, rfl⟩, ?_⟩
            exact (ih (name, d) hmem (reads_inside hreads hmem)).mpr
              ⟨next :: rest, hfile, hdir, rfl⟩

end Walk

/-! ### Round trips -/

/-- No path begins with a slash, and none lies below another one. -/
def Nests (paths : Set String) : Prop :=
  ∀ q ∈ paths, ¬ Under "" q ∧ ∀ p ∈ paths, ¬ Under p q

section RoundTrip

variable {s : ObjectStore} {files : BTreeMap String ObjectId}

/-- What the walk shows of the stored directories of a map. -/
lemma emits_dirNode (hreads : ∀ t ∈ (dirNode files).trees L,
      s.get L (L.treeId t) = .ok (some (.tree t))) {path : String} {id : ObjectId} :
    Emits (openTree L s) (L.treeId ((dirNode files).tree L), "") path id ↔
      ∃ p, files[p]? = some id ∧ (∀ q ∈ files, ¬ Under p q) ∧
        path = joinAll "" (pathSegments p) := by
  rw [emits_tree (ordered_dirNode files) hreads]
  constructor
  · rintro ⟨names, hfile, hdir, rfl⟩
    obtain ⟨p, rfl, hp⟩ := fileAt_dirNode.mp hfile
    refine ⟨p, hp, fun q hq hu => ?_, rfl⟩
    rw [hasDir_dirNode.mpr ⟨q, hq, hu⟩] at hdir
    cases hdir
  · rintro ⟨p, hp, hq, rfl⟩
    refine ⟨pathSegments p, fileAt_dirNode.mpr ⟨p, rfl, hp⟩, ?_, rfl⟩
    rw [← Bool.not_eq_true, hasDir_dirNode]
    rintro ⟨q, hmem, hu⟩
    exact hq q hmem hu

/-- The walk shows the map if its paths nest. -/
lemma emits_nests (hreads : ∀ t ∈ (dirNode files).trees L,
      s.get L (L.treeId t) = .ok (some (.tree t))) (hnests : Nests {p | p ∈ files})
    {path : String} {id : ObjectId} :
    Emits (openTree L s) (L.treeId ((dirNode files).tree L), "") path id ↔
      files[path]? = some id := by
  rw [emits_dirNode hreads]
  have hmem : ∀ p, files[p]? = some id → p ∈ files := fun p hp =>
    Std.ExtTreeMap.mem_iff_isSome_getElem?.mpr (by simp [hp])
  constructor
  · rintro ⟨p, hp, -, rfl⟩
    rwa [joinAll_pathSegments (hnests p (hmem p hp)).1]
  · intro hp
    exact ⟨path, hp, fun q hq => (hnests q hq).2 path (hmem path hp),
      (joinAll_pathSegments (hnests path (hmem path hp)).1).symm⟩

/-- **The walk gives the map back** exactly if its paths nest. -/
theorem walkTree_built (hreads : ∀ t ∈ (dirNode files).trees L,
      s.get L (L.treeId t) = .ok (some (.tree t))) :
    (∃ fuel, walkTree L s fuel (L.treeId ((dirNode files).tree L)) "" ∅ = .ok (some files)) ↔
      Nests {p | p ∈ files} := by
  constructor
  · rintro ⟨fuel, h⟩
    rw [walkTree] at h
    have hfrom : ∀ p ∈ files, ∃ p' ∈ files, (∀ q ∈ files, ¬ Under p' q) ∧
        p = joinAll "" (pathSegments p') := by
      intro p hp
      obtain ⟨id, hid⟩ := Option.isSome_iff_exists.mp (Std.ExtTreeMap.mem_iff_isSome_getElem?.mp hp)
      rcases emits_of_collect h hid with hempty | ⟨x, hx, hemits⟩
      · simp at hempty
      · rw [List.mem_singleton.mp hx] at hemits
        obtain ⟨p', hp', hbelow, heq⟩ := (emits_dirNode hreads).mp hemits
        exact ⟨p', Std.ExtTreeMap.mem_iff_isSome_getElem?.mpr (by simp [hp']), hbelow, heq⟩
    have hslash : ∀ q ∈ files, ¬ Under "" q := by
      intro q hq
      obtain ⟨q', -, -, rfl⟩ := hfrom q hq
      exact not_under_joinAll fun seg => slash_notMem
    refine fun q hq => ⟨hslash q hq, fun p hp hu => ?_⟩
    obtain ⟨p', hp', hbelow, heq⟩ := hfrom p hp
    rw [joinAll_pathSegments (hslash p' hp')] at heq
    exact hbelow q hq (heq ▸ hu)
  · intro hnests
    have hemits : ∀ (path : String) (id : ObjectId),
        Emits (openTree L s) (L.treeId ((dirNode files).tree L), "") path id ↔
          files[path]? = some id := fun path id => emits_nests hreads hnests
    have hopens : ∀ x ∈ [(L.treeId ((dirNode files).tree L), "")], OpensWhole (openTree L s) x := by
      intro x hx
      rw [List.mem_singleton.mp hx]
      exact opens_tree (ordered_dirNode files) hreads ""
    obtain ⟨fuel, m, hm⟩ := collect_opens (fun _ => true) hopens ∅
    refine ⟨fuel, ?_⟩
    rw [walkTree, hm]
    refine congrArg (fun m => Except.ok (some m)) (Std.ExtTreeMap.ext_getElem? fun path => ?_)
    refine Option.ext fun id => ?_
    rw [getElem?_collect hm, hemits]
    intro k v w hv hw
    rw [hemits] at hv hw
    exact Option.some.inj (hv.symm.trans hw)

/-- **A built tree is flattened to its map** exactly if the paths nest.  Building it succeeds where
its trees can be stored; the paths are those of any snapshot with its root, in any store that has
grown from there. -/
theorem snapshotPaths_built (hready : s.Ready L ((dirNode files).trees L)) (mtime : Option ℕ) :
    ∃ root s', buildTree L s files mtime = (.ok root, s') ∧
      root = L.treeId ((dirNode files).tree L) ∧
      ∀ t snapshotId snap, s'.Grows L t → t.get L snapshotId = .ok (some (.snapshot snap)) →
        snap.root = root →
        ((∃ fuel, snapshotPaths L t fuel snapshotId = .ok (some files)) ↔
          Nests {p | p ∈ files}) := by
  obtain ⟨s', hstore, -, hreads⟩ : ∃ s', storeDir L mtime s (dirNode files) = _ ∧ _ :=
    storeDir_ready hready _ fun _ => id
  refine ⟨_, s', hstore, rfl, fun t snapshotId snap hgrows hsnap hroot => ?_⟩
  have hreads' : ∀ u ∈ (dirNode files).trees L, t.get L (L.treeId u) = .ok (some (.tree u)) :=
    fun u hu => ObjectStore.object_eq_some.mp
      (hgrows _ _ (ObjectStore.object_eq_some.mpr (hreads u hu)))
  rw [← walkTree_built hreads']
  refine exists_congr fun fuel => ?_
  rw [snapshotPaths, hsnap]
  dsimp only
  rw [hroot]

end RoundTrip

end Bole
