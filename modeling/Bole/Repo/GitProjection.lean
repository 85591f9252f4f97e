import Bole.Lib.Listing
import Bole.Lib.PostOrder
import Bole.Repo.GitImport
import Bole.Repo.Graph
import Bole.Repo.Walk
import Bole.Sync.Fetch

/-!
Exporting a repository to git (`src/repo/git_projection.rs`).  Objects are written through the
`gix` crate, refs as loose files.

A function that writes to the object database returns what it writes, in order, beside its
result.

* `mem_collectTopo`, `collectTopo_sorted`: the snapshots that an export visits, parents first;
* `parents_of_encodeCommit`: the parents can be read off the bytes of a commit;
* `writeGitTree_ok_iff`: a tree is written when every blob of it can be read;
* `CommitOf`: the commit that a snapshot becomes;
* `projectSnapshots_ok_iff`, `projectSnapshots_projected`: the map from snapshots to commits;
* `writeLooseRefs_ok_iff`, `lookup_writeLooseRefs`: the files of the refs.
-/

namespace Bole

open FileTree PostOrder

/-! ### The git repository on disk -/

/-- `gix::object::Kind`. -/
inductive GitKind where
  | blob
  | tree
  | commit
  | tag
deriving DecidableEq

/-- An object as it is written. -/
abbrev GitData := GitKind × Bytes

/-- The files of a git repository, apart from its object database. -/
abbrev GitFiles := Dir (List Char) String

/-- A bare git repository: the objects that were written, and the files. -/
structure GitDir where
  written : List GitData
  files : GitFiles

/-- The directory of all refs. -/
def refsDir : List Char := ['r', 'e', 'f', 's']

/-- The file of the current branch. -/
def headFile : List Char := ['H', 'E', 'A', 'D']

/-- The `gix` crate: the ids of objects, the files of a new repository, and reading one.  In a
new repository there are no refs, no directories below `refs/heads` and the like, and `HEAD` is
not a directory. -/
structure Gix where
  hash : GitKind → Bytes → GitId
  initBare : GitFiles
  open_ : GitDir → Except String GitRepo
  init_refs : ∀ p, lookup (refsDir :: p) initBare = none
  init_dirs : ∀ p, IsDir (refsDir :: p) initBare → p.length ≤ 1
  init_head : ¬ IsDir [headFile] initBare

/-- The hex digits of an id. -/
def GitId.toHex (id : GitId) : String := String.ofList (id.bytes.flatMap Digest.hexByte)

/-! ### Encoding -/

/-- The text, with a line break at its end. -/
def withNewline (message : String) : String :=
  if message.toList.getLast? = some '\n' then message else message ++ "\n"

/-- `encode_tag`. -/
def encodeTag (targetCommit : GitId) (tagName tagger message : String) : Bytes :=
  strBytes ("object " ++ targetCommit.toHex ++ "\ntype commit\ntag " ++ tagName ++ "\ntagger " ++
    tagger ++ "\n\n" ++ withNewline message)

/-- The name that the entries of a tree are sorted by. -/
def treeKey (entry : String × Bool × GitId) : String :=
  if entry.2.1 then entry.1 ++ "/" else entry.1

/-- The bytes of an entry: mode, name and id. -/
def encodeTreeEntry (entry : String × Bool × GitId) : Bytes :=
  strBytes (if entry.2.1 then "40000" else "100644") ++ 32 :: strBytes entry.1 ++
    0 :: entry.2.2.bytes

/-- `encode_tree`. -/
def encodeTree (entries : List (String × Bool × GitId)) : Bytes :=
  (entries.mergeSort fun a b => (compare (treeKey a) (treeKey b)).isLE).flatMap encodeTreeEntry

/-- `encode_commit`. -/
def encodeCommit (tree : GitId) (parents : List GitId) (identity message : String) : Bytes :=
  strBytes ("tree " ++ tree.toHex ++ "\n" ++
    String.join (parents.map fun p => "parent " ++ p.toHex ++ "\n") ++
    "author " ++ identity ++ "\ncommitter " ++ identity ++ "\n\n" ++ withNewline message)

/-- The line of a parent. -/
def parentLine (p : GitId) : List Char :=
  ['p', 'a', 'r', 'e', 'n', 't', ' '] ++ (p.bytes.flatMap Digest.hexByte ++ ['\n'])

lemma newline_notMem_hex (b : Bytes) : '\n' ∉ b.flatMap Digest.hexByte :=
  Digest.notMem_hex (by decide) b

lemma GitId.toList_toHex (id : GitId) : id.toHex.toList = id.bytes.flatMap Digest.hexByte :=
  String.toList_ofList

lemma toList_parentLines (parents : List GitId) :
    (String.join (parents.map fun p => "parent " ++ p.toHex ++ "\n")).toList =
      parents.flatMap parentLine := by
  rw [String.toList_join, List.flatMap_map]
  refine List.flatMap_congr fun p _ => ?_
  have hparent : "parent ".toList = ['p', 'a', 'r', 'e', 'n', 't', ' '] := by decide
  have hbreak : "\n".toList = ['\n'] := by decide
  rw [parentLine, String.toList_append, String.toList_append, GitId.toList_toHex,
    List.append_assoc, hparent, hbreak]

/-- The lines of the parents are followed by one that starts otherwise. -/
lemma parents_of_lines {parents parents' : List GitId} {rest rest' : List Char}
    (h : parents.flatMap parentLine ++ 'a' :: rest = parents'.flatMap parentLine ++ 'a' :: rest') :
    parents = parents' := by
  induction parents generalizing parents' with
  | nil =>
      cases parents' with
      | nil => rfl
      | cons p ps =>
          simp only [List.flatMap_nil, List.nil_append, List.flatMap_cons, parentLine,
            List.cons_append, List.cons.injEq] at h
          exact absurd h.1 (by decide)
  | cons p ps ih =>
      cases parents' with
      | nil =>
          simp only [List.flatMap_nil, List.nil_append, List.flatMap_cons, parentLine,
            List.cons_append, List.cons.injEq] at h
          exact absurd h.1 (by decide)
      | cons p' ps' =>
          simp only [List.flatMap_cons, parentLine, List.append_assoc, List.singleton_append] at h
          obtain ⟨hhex, hrest⟩ := Delimited.terminated (newline_notMem_hex p.bytes)
            (newline_notMem_hex p'.bytes) (List.append_cancel_left h)
          obtain rfl : p = p' := by
            cases p
            cases p'
            exact congrArg GitId.mk (Digest.flatMap_hexByte_injective hhex)
          rw [ih hrest]

/-- The parents can be read off the bytes of a commit. -/
lemma parents_of_encodeCommit {tree tree' : GitId} {parents parents' : List GitId}
    {identity identity' message message' : String}
    (h : encodeCommit tree parents identity message =
      encodeCommit tree' parents' identity' message') : parents = parents' := by
  have htext := congrArg String.toList (Postcard.strBytes_injective h)
  have hbreak : "\n".toList = ['\n'] := by decide
  have hauthor : "author ".toList = 'a' :: "uthor ".toList := by decide
  simp only [String.toList_append, toList_parentLines, List.append_assoc, hbreak, hauthor,
    GitId.toList_toHex, List.cons_append, List.nil_append] at htext
  obtain ⟨-, hrest⟩ := Delimited.terminated (newline_notMem_hex tree.bytes)
    (newline_notMem_hex tree'.bytes) (List.append_cancel_left htext)
  exact parents_of_lines hrest

/-! ### Trees -/

/-- The part of a path before its first slash. -/
def firstDir (path : String) : Option String :=
  if '/' ∈ path.toList then some (String.ofList (path.toList.takeWhile (· ≠ '/'))) else none

/-- The paths below a directory, seen from there. -/
def subFlat (flat : BTreeMap String ObjectId) (dir : String) : BTreeMap String ObjectId :=
  .ofList (flat.toList.filterMap fun e => (stripPrefix (dir ++ "/") e.1).map (·, e.2)) compare

section Projection

variable (L : Linked) (gix : Gix) (objects : ObjectStore)

/-- The loop of `write_git_tree_level`; `sub` writes the levels below. -/
def writeTreeEntries (sub : BTreeMap String ObjectId → Result GitId × List GitData)
    (flat : BTreeMap String ObjectId) : List (String × ObjectId) → List String →
      List (String × Bool × GitId) → Result (List (String × Bool × GitId)) × List GitData
  | [], _, entries => (.ok entries, [])
  | (path, blobId) :: rest, dirsSeen, entries =>
      match firstDir path with
      | some dir =>
          if dir ∈ dirsSeen then writeTreeEntries sub flat rest dirsSeen entries
          else
            match sub (subFlat flat dir) with
            | (.error e, written) => (.error e, written)
            | (.ok subId, written) =>
                let (r, more) := writeTreeEntries sub flat rest (dir :: dirsSeen)
                  (entries ++ [(dir, true, subId)])
                (r, written ++ more)
      | none =>
          match objects.get L blobId with
          | .error e => (.error e, [])
          | .ok (some (.blob data)) =>
              let (r, more) := writeTreeEntries sub flat rest dirsSeen
                (entries ++ [(path, false, gix.hash .blob data)])
              (r, (.blob, data) :: more)
          | .ok _ => writeTreeEntries sub flat rest dirsSeen entries

/-- `write_git_tree_level`, for paths shorter than the given number. -/
def writeGitTreeLevel : ℕ → BTreeMap String ObjectId → Result GitId × List GitData
  | 0, _ => (.error (.panic "out of fuel"), [])
  | fuel + 1, flat =>
      match writeTreeEntries L gix objects (writeGitTreeLevel fuel) flat flat.toList [] [] with
      | (.error e, written) => (.error e, written)
      | (.ok entries, written) =>
          (.ok (gix.hash .tree (encodeTree entries)), written ++ [(.tree, encodeTree entries)])

/-- One more than the length of the longest path. -/
def pathBound (flat : BTreeMap String ObjectId) : ℕ :=
  (flat.toList.map fun e => e.1.toList.length).foldr max 0 + 1

/-- A call of `write_git_tree_level`: each level strips a character at least. -/
def writeGitTree (flat : BTreeMap String ObjectId) : Result GitId × List GitData :=
  writeGitTreeLevel L gix objects (pathBound flat) flat

/-! ### Commits -/

/-- The turns that `collect_topo` can take. -/
def topoFuel (starts : List ObjectId) : ℕ :=
  2 * starts.length + ∑ id ∈ starts.toFinset ∪ edgeTargets L objects,
    2 * ((snapshotParents L objects id).toOption.getD []).length

/-- `collect_topo`. -/
def collectTopo (starts : List ObjectId) : Result (List ObjectId) :=
  match postOrder (fun _ => snapshotParents L objects) (topoFuel L objects starts)
      (starts.reverse.map (·, false)) [] [] with
  | .error e => .error e
  | .ok (some ordered) => .ok ordered
  | .ok none => .error (.panic "out of fuel")

/-- The author and committer of the commit of a snapshot. -/
def commitIdentity (snap : Snapshot) : String :=
  (if snap.author.isEmpty then "bole" else snap.author) ++ " <bole@local> " ++
    toString snap.createdAt ++ " +0000"

variable (lattice : LabelLattice) (rules : LabelRuleSet) (accessor : Accessor)

/-- The turn of pass 3 for a snapshot. -/
def projectSnapshot (snap : Snapshot) (idMap : BTreeMap ObjectId GitId) :
    Result GitId × List GitData :=
  match walkTreeFiltered L objects lattice rules snap.root "" accessor ∅ with
  | .error e => (.error e, [])
  | .ok flat =>
      match writeGitTree L gix objects flat with
      | (.error e, written) => (.error e, written)
      | (.ok gitTree, written) =>
          let parents := snap.parents.filterMap (idMap[·]?)
          let commitBytes := encodeCommit gitTree parents (commitIdentity snap) snap.message
          (.ok (gix.hash .commit commitBytes), written ++ [(.commit, commitBytes)])

/-- Pass 3. -/
def projectSnapshots : List ObjectId → BTreeMap ObjectId GitId →
    Result (BTreeMap ObjectId GitId) × List GitData
  | [], idMap => (.ok idMap, [])
  | snapId :: rest, idMap =>
      match objects.get L snapId with
      | .error e => (.error e, [])
      | .ok (some (.snapshot snap)) =>
          match projectSnapshot L gix objects lattice rules accessor snap idMap with
          | (.error e, written) => (.error e, written)
          | (.ok gitCommit, written) =>
              let (r, more) := projectSnapshots rest (idMap.insert snapId gitCommit)
              (r, written ++ more)
      | .ok _ => projectSnapshots rest idMap

end Projection

/-! ### Refs -/

/-- A ref to be written, with the objects that are written for it. -/
structure LooseRef where
  refName : String
  sha : GitId
  data : List GitData

/-- The contents of a loose ref. -/
def looseRefText (sha : GitId) : String := sha.toHex ++ "\n"

/-- The path of a ref. -/
def gitRefPath (refName : String) : List (List Char) := refName.toList.splitOn '/'

/-- `write_loose_ref`. -/
def writeLooseRef (refName : String) (sha : GitId) (files : GitFiles) : Result GitFiles :=
  match FileTree.write (gitRefPath refName) (looseRefText sha) files with
  | .ok files => .ok files
  | .error e => .error (ioError e)

/-- The loops of passes 4 and 5. -/
def writeLooseRefs : List LooseRef → GitDir → Result Unit × GitDir
  | [], d => (.ok (), d)
  | r :: rest, d =>
      match writeLooseRef r.refName r.sha d.files with
      | .error e => (.error e, { d with written := d.written ++ r.data })
      | .ok files => writeLooseRefs rest ⟨d.written ++ r.data, files⟩

/-- The turn of pass 4 for a timeline; a head without a commit is passed over. -/
def branchRef (idMap : BTreeMap ObjectId GitId) (timeline : RefName × ObjectId) :
    Option LooseRef :=
  idMap[timeline.2]?.map fun gitId => ⟨"refs/heads/" ++ timeline.1.asStr, gitId, []⟩

/-- The tagger of an annotated tag. -/
def tagIdentity (tag : Tag) : String := "bole <bole@local> " ++ toString tag.createdAt ++ " +0000"

/-- The turn of pass 5 for a name. -/
def tagRef (gix : Gix) (refs : RefStore) (idMap : BTreeMap ObjectId GitId) (name : RefName) :
    Option LooseRef :=
  match refs.get name with
  | some (.tag tag) =>
      idMap[tag.target]?.map fun gitCommit =>
        match tag.message with
        | none => ⟨"refs/tags/" ++ name.asStr, gitCommit, []⟩
        | some msg =>
            let tagBytes := encodeTag gitCommit name.asStr (tagIdentity tag) msg
            ⟨"refs/tags/" ++ name.asStr, gix.hash .tag tagBytes, [(.tag, tagBytes)]⟩
  | _ => none

/-- Pass 6. -/
def writeHead (idMap : BTreeMap ObjectId GitId) (timelineHeads : List (RefName × ObjectId))
    (files : GitFiles) : Result GitFiles :=
  match timelineHeads.find? fun t => idMap.contains t.2 with
  | none => .ok files
  | some (branchName, _) =>
      match FileTree.write [headFile] ("ref: refs/heads/" ++ branchName.asStr ++ "\n") files with
      | .ok files => .ok files
      | .error e => .error (ioError e)

/-! ### The export -/

/-- A call of `project_to_git_mapped`: what the reads and writes of the sidecar return, and the
order in which a hash map is iterated.  Without a sidecar it is a call of `project_to_git`. -/
structure ProjectRequest where
  accessor : Accessor
  mapped : Bool
  load : Result Unit
  save : Result Unit
  iter : List (ObjectId × GitId) → List (ObjectId × GitId)

/-- The target of an export, which may not exist, and its sidecar. -/
structure GitTarget where
  dir : Option GitDir
  sidecar : IdentityMap

/-- The timelines among the names, with their heads. -/
def timelineHeads (refs : RefStore) (names : List RefName) : List (RefName × ObjectId) :=
  names.filterMap fun name =>
    match refs.get name with
    | some (.timeline tl) => some (name, tl.head)
    | _ => none

section Passes

variable (L : Linked) (gix : Gix) (req : ProjectRequest) (repo : Repository)

/-- Pass 1. -/
def openTarget (target : Option GitDir) : Result GitDir :=
  match target with
  | none => .ok ⟨[], gix.initBare⟩
  | some d =>
      match gix.open_ d with
      | .ok _ => .ok d
      | .error e => .error (.gitProjection ("path exists but is not a git repo: " ++ e))

/-- Passes 2 and 3: the names shown, the commits of the snapshots, and what is written. -/
def projectCommits : Result (List RefName × BTreeMap ObjectId GitId) × List GitData :=
  match repo.listRefsFiltered "" req.accessor with
  | .error e => (.error e, [])
  | .ok visible =>
      match collectTopo L repo.objects ((timelineHeads repo.refs visible).map Prod.snd) with
      | .error e => (.error e, [])
      | .ok ordered =>
          match repo.acls.getLattice, repo.acls.getLabelRuleset with
          | .error e, _ => (.error e, [])
          | _, .error e => (.error e, [])
          | .ok lattice, .ok rules =>
              match projectSnapshots L gix repo.objects lattice rules req.accessor ordered ∅ with
              | (.error e, written) => (.error e, written)
              | (.ok idMap, written) => (.ok (visible, idMap), written)

/-- Passes 4 to 6. -/
def projectRefs (visible : List RefName) (idMap : BTreeMap ObjectId GitId) (d : GitDir) :
    Result Unit × GitDir :=
  let heads := timelineHeads repo.refs visible
  match writeLooseRefs (heads.filterMap (branchRef idMap)) d with
  | (.error e, d) => (.error e, d)
  | (.ok (), d) =>
      match writeLooseRefs (visible.filterMap (tagRef gix repo.refs idMap)) d with
      | (.error e, d) => (.error e, d)
      | (.ok (), d) =>
          match writeHead idMap heads d.files with
          | .error e => (.error e, d)
          | .ok files => (.ok (), { d with files := files })

/-- Pass 7: what is recorded in the sidecar. -/
def recordCommits (idMap : BTreeMap ObjectId GitId) (sidecar : IdentityMap) : IdentityMap :=
  (req.iter idMap.toList).foldl (fun m e => m.insert e.2 e.1) sidecar

/-- `project_impl`. -/
def projectImpl (t : GitTarget) : Result Unit × GitTarget :=
  match openTarget gix t.dir with
  | .error e => (.error e, t)
  | .ok d =>
      match projectCommits L gix req repo with
      | (.error e, written) =>
          (.error e, { t with dir := some { d with written := d.written ++ written } })
      | (.ok (visible, idMap), written) =>
          match projectRefs gix repo visible idMap { d with written := d.written ++ written } with
          | (.error e, d) => (.error e, { t with dir := some d })
          | (.ok (), d) =>
              if req.mapped then
                match req.load, req.save with
                | .error e, _ => (.error e, { t with dir := some d })
                | _, .error e => (.error e, { t with dir := some d })
                | .ok (), .ok () => (.ok (), ⟨some d, recordCommits req idMap t.sidecar⟩)
              else (.ok (), { t with dir := some d })

end Passes

/-! ### The snapshots that are visited -/

section Topo

variable {L : Linked} {objects : ObjectStore} {starts ordered : List ObjectId} {id : ObjectId}

/-- The parents of a snapshot that can be read. -/
def parentsOf (L : Linked) (objects : ObjectStore) (id : ObjectId) : List ObjectId :=
  (snapshotParents L objects id).toOption.getD []

lemma edge_parentsOf : Edge (parentsOf L objects) = Parent L objects := by
  funext a b
  refine propext (Iff.trans ?_ edge_snapshotParents)
  rw [Edge, parentsOf, Search.Edge]
  cases snapshotParents L objects a with
  | error e => simp [Except.toOption]
  | ok ids => simp [Except.toOption]

lemma snapshotParents_eq_error {e : Error} :
    snapshotParents L objects id = .error e ↔ objects.get L id = .error e := by
  rw [snapshotParents]
  split <;> simp_all

lemma collectTopo_eq_ok : collectTopo L objects starts = .ok ordered ↔
    postOrder (fun _ => snapshotParents L objects) (topoFuel L objects starts)
      (starts.reverse.map (·, false)) [] [] = .ok (some ordered) := by
  rw [collectTopo]
  split <;> simp_all

/-- **The search ends**, with an order or with an object that cannot be read. -/
theorem collectTopo_cases (L : Linked) (objects : ObjectStore) (starts : List ObjectId) :
    (∃ ordered, collectTopo L objects starts = .ok ordered) ∨
      ∃ e, ∃ r ∈ starts, ∃ x, Descends L objects r x ∧ objects.get L x = .error e := by
  classical
  let U := (starts.toFinset ∪ edgeTargets L objects).filter
    fun x => ∃ r ∈ starts, Descends L objects r x
  have hpush : ∀ (seen : List ObjectId) (x : ObjectId) (ys : List ObjectId), x ∈ U →
      snapshotParents L objects x = .ok ys →
      ys.length ≤ (parentsOf L objects x).length ∧ ∀ y ∈ ys, y ∈ U := by
    intro seen x ys hx hys
    refine ⟨by simp [parentsOf, hys, Except.toOption], fun y hy => ?_⟩
    obtain ⟨-, r, hr, hpath⟩ := Finset.mem_filter.mp hx
    have hparent : Parent L objects x y := edge_snapshotParents.mp ⟨ys, hys, hy⟩
    exact Finset.mem_filter.mpr ⟨Finset.mem_union_right _ hparent.mem_edgeTargets, r, hr,
      hpath.tail hparent⟩
  have hstarts : ∀ e ∈ starts.reverse.map (·, false), e.1 ∈ U := by
    intro e he
    obtain ⟨r, hr, rfl⟩ := List.mem_map.mp he
    have hr : r ∈ starts := List.mem_reverse.mp hr
    exact Finset.mem_filter.mpr ⟨Finset.mem_union_left _ (List.mem_toFinset.mpr hr), r, hr, .refl⟩
  have hfuel : work (fun x => (parentsOf L objects x).length) U
      (starts.reverse.map (·, false)) [] ≤ topoFuel L objects starts := by
    rw [work, weight_fresh, List.length_reverse, topoFuel]
    refine Nat.add_le_add_left (Finset.sum_le_sum_of_subset ?_) _
    exact (Finset.filter_subset _ _).trans (Finset.filter_subset _ _)
  rcases postOrder_closed hpush hstarts (fun x hx => absurd hx List.not_mem_nil) hfuel with
    ⟨l, hl, -⟩ | ⟨e, -, seen, x, hx, he⟩
  · exact Or.inl ⟨l, collectTopo_eq_ok.mpr hl⟩
  · obtain ⟨-, r, hr, hpath⟩ := Finset.mem_filter.mp hx
    exact Or.inr ⟨e, r, hr, x, hpath, snapshotParents_eq_error.mp he⟩

section Ordered

variable (hacyclic : ∀ x, ¬ Relation.TransGen (Parent L objects) x x)
  (h : collectTopo L objects starts = .ok ordered)

include h

lemma get_of_mem_collectTopo (hid : id ∈ ordered) : ∃ o, objects.get L id = .ok o := by
  have hpushed := push_of_mem_postOrder ?_ ?_ (collectTopo_eq_ok.mp h) id hid
  · obtain ⟨-, ys, hys⟩ := hpushed
    cases hget : objects.get L id with
    | ok o => exact ⟨o, rfl⟩
    | error e =>
        rw [snapshotParents_eq_error.mpr hget] at hys
        cases hys
  · simp
  · simp

include hacyclic

/-- **What the heads descend from, parents first.** -/
theorem isPostOrder_collectTopo : IsPostOrder (Parent L objects) starts ordered := by
  rw [← edge_parentsOf] at hacyclic ⊢
  obtain ⟨hnodup, hmem, hsorted⟩ := postOrder_isPostOrder hacyclic
    (fun _ x ys hys => .of_eq (by simp [parentsOf, hys, Except.toOption])) (collectTopo_eq_ok.mp h)
  refine ⟨hnodup, fun x => ?_, hsorted⟩
  rw [hmem]
  simp only [List.mem_reverse]

/-- **The order holds what the heads descend from.** -/
theorem mem_collectTopo : id ∈ ordered ↔ ∃ r ∈ starts, Descends L objects r id :=
  (isPostOrder_collectTopo hacyclic h).mem_iff id

/-- **Parents stand before their children.** -/
theorem collectTopo_sorted {before after : List ObjectId} (hsplit : ordered = before ++ id :: after)
    {p : ObjectId} (hp : Parent L objects id p) : p ∈ before :=
  (isPostOrder_collectTopo hacyclic h).sorted before id after hsplit p hp

end Ordered

end Topo

/-! ### Trees that can be written -/

section Trees

variable {L : Linked} {gix : Gix} {objects : ObjectStore} {flat : BTreeMap String ObjectId}
  {dir path : String} {blobId : ObjectId}

/-- A path with a slash is a directory and what is below it. -/
lemma eq_of_firstDir (h : firstDir path = some dir) : ∃ rest, path = dir ++ "/" ++ rest := by
  rw [firstDir] at h
  split_ifs at h with hslash
  obtain ⟨before, after, hpath, hbefore⟩ := List.eq_append_cons_of_mem hslash
  have htake : path.toList.takeWhile (· ≠ '/') = before := by
    rw [hpath, List.takeWhile_append_of_pos fun c hc => ?_]
    · simp
    · simp only [decide_eq_true_eq]
      rintro rfl
      exact hbefore hc
  rw [htake] at h
  obtain rfl := Option.some.inj h
  refine ⟨String.ofList after, String.toList_injective ?_⟩
  simp [hpath]

/-- The map of a list without repeated keys holds what the list does. -/
lemma mem_toList_ofList {υ : Type} {l : List (String × υ)} (hnodup : (l.map Prod.fst).Nodup)
    {e : String × υ} : e ∈ (Std.ExtTreeMap.ofList l compare).toList ↔ e ∈ l := by
  have hdistinct : l.Pairwise fun a b => ¬ compare a.1 b.1 = .eq := by
    refine (List.pairwise_map.mp hnodup).imp fun hne heq => hne ?_
    exact Std.LawfulEqOrd.eq_of_compare heq
  have hget : ∀ f ∈ l, (Std.ExtTreeMap.ofList l compare)[f.1]? = some f.2 := fun f hf =>
    Std.ExtTreeMap.getElem?_ofList_of_mem (by simp) hdistinct hf
  rw [Std.ExtTreeMap.mem_toList_iff_getElem?_eq_some]
  constructor
  · intro he
    have hmem : e.1 ∈ Std.ExtTreeMap.ofList l compare := by
      rw [Std.ExtTreeMap.mem_iff_isSome_getElem?, he]
      rfl
    rw [Std.ExtTreeMap.mem_ofList, List.contains_iff_mem] at hmem
    obtain ⟨f, hf, hfst⟩ := List.mem_map.mp hmem
    have hsnd := hget f hf
    rw [hfst, he] at hsnd
    obtain rfl : e = f := Prod.ext hfst.symm (Option.some.inj hsnd)
    exact hf
  · exact hget e

lemma mem_subFlat :
    (path, blobId) ∈ (subFlat flat dir).toList ↔ (dir ++ "/" ++ path, blobId) ∈ flat.toList := by
  have hstrip : ∀ full rest, stripPrefix (dir ++ "/") full = some rest ↔
      full = dir ++ "/" ++ rest := by
    intro full rest
    rw [stripPrefix_eq_some, ← String.toList_inj]
    simp only [String.toList_append]
  rw [subFlat, mem_toList_ofList, List.mem_filterMap]
  · simp only [Option.map_eq_some_iff, hstrip, Prod.mk.injEq, Prod.exists]
    constructor
    · rintro ⟨full, id, hmem, rest, rfl, rfl, rfl⟩
      exact hmem
    · exact fun hmem => ⟨_, _, hmem, _, rfl, rfl, rfl⟩
  · have hkeys : (flat.toList.map Prod.fst).Nodup := by
      rw [Std.ExtTreeMap.map_fst_toList_eq_keys]
      exact Std.ExtTreeMap.nodup_keys
    refine List.pairwise_map.mpr (List.pairwise_filterMap.mpr ?_)
    refine (List.pairwise_map.mp hkeys).imp fun hne f hf f' hf' heq => hne ?_
    obtain ⟨rest, hrest, rfl⟩ := Option.map_eq_some_iff.mp hf
    obtain ⟨rest', hrest', rfl⟩ := Option.map_eq_some_iff.mp hf'
    obtain rfl : rest = rest' := heq
    rw [(hstrip _ _).mp hrest, (hstrip _ _).mp hrest']

/-- The entries of a level are written when its blobs can be read and the levels below it
written. -/
lemma writeTreeEntries_ok_iff {sub : BTreeMap String ObjectId → Result GitId × List GitData}
    {es : List (String × ObjectId)} {dirsSeen : List String}
    {entries : List (String × Bool × GitId)} :
    (∃ out, (writeTreeEntries L gix objects sub flat es dirsSeen entries).1 = .ok out) ↔
      ∀ e ∈ es, (firstDir e.1 = none → ∃ o, objects.get L e.2 = .ok o) ∧
        ∀ dir, firstDir e.1 = some dir →
          dir ∈ dirsSeen ∨ ∃ id, (sub (subFlat flat dir)).1 = .ok id := by
  induction es generalizing dirsSeen entries with
  | nil => simp [writeTreeEntries]
  | cons e rest ih =>
      obtain ⟨path, blobId⟩ := e
      rw [List.forall_mem_cons, writeTreeEntries]
      cases hdir : firstDir path with
      | none =>
          cases hget : objects.get L blobId with
          | error e => simp
          | ok o =>
              cases o with
              | none => simp [ih]
              | some obj => cases obj <;> simp [ih]
      | some dir =>
          dsimp only
          split_ifs with hseen
          · rw [ih]
            simp [hseen]
          · cases hsub : sub (subFlat flat dir) with
            | mk result written =>
                cases result with
                | error e => simp [hseen, hsub]
                | ok subId =>
                    dsimp only
                    rw [ih]
                    simp only [false_implies, Option.some.injEq, forall_eq', hseen,
                      hsub, Except.ok.injEq, exists_eq', or_true, true_and, List.mem_cons]
                    -- the levels below are written once
                    refine forall₂_congr fun e _ => and_congr_right fun _ =>
                      forall₂_congr fun d _ => ?_
                    by_cases hd : d = dir
                    · simp [hd, hsub]
                    · simp [hd]

lemma writeGitTreeLevel_ok_iff {fuel : ℕ} (hpos : 0 < fuel)
    (hlength : ∀ e ∈ flat.toList, e.1.toList.length < fuel) :
    (∃ id, (writeGitTreeLevel L gix objects fuel flat).1 = .ok id) ↔
      ∀ e ∈ flat.toList, ∃ o, objects.get L e.2 = .ok o := by
  induction fuel generalizing flat with
  | zero => exact absurd hpos (lt_irrefl 0)
  | succ fuel ih =>
      have hlevel : (∃ id, (writeGitTreeLevel L gix objects (fuel + 1) flat).1 = .ok id) ↔
          ∃ out, (writeTreeEntries L gix objects (writeGitTreeLevel L gix objects fuel) flat
            flat.toList [] []).1 = .ok out := by
        rw [writeGitTreeLevel]
        split
        · next e written h => simp [h]
        · next out written h => simp [h]
      -- the paths below a directory are shorter
      have hsub : ∀ e ∈ flat.toList, ∀ dir, firstDir e.1 = some dir →
          ((∃ id, (writeGitTreeLevel L gix objects fuel (subFlat flat dir)).1 = .ok id) ↔
            ∀ f ∈ (subFlat flat dir).toList, ∃ o, objects.get L f.2 = .ok o) := by
        intro e he dir hdir
        obtain ⟨rest, hrest⟩ := eq_of_firstDir hdir
        refine ih ?_ fun f hf => ?_
        · have hlen := hlength e he
          rw [hrest] at hlen
          simp only [String.toList_append, List.length_append] at hlen
          have hslash : "/".toList.length = 1 := rfl
          omega
        · have hlen := hlength _ (mem_subFlat.mp hf)
          simp only [String.toList_append, List.length_append] at hlen
          have hslash : "/".toList.length = 1 := rfl
          omega
      rw [hlevel, writeTreeEntries_ok_iff]
      constructor
      · intro h e he
        cases hdir : firstDir e.1 with
        | none => exact (h e he).1 hdir
        | some dir =>
            obtain ⟨rest, hrest⟩ := eq_of_firstDir hdir
            have hwritten := ((h e he).2 dir hdir).resolve_left (List.not_mem_nil)
            exact (hsub e he dir hdir).mp hwritten (rest, e.2) (mem_subFlat.mpr (hrest ▸ he))
      · intro h e he
        refine ⟨fun _ => h e he, fun dir hdir => .inr ((hsub e he dir hdir).mpr fun f hf => ?_)⟩
        exact h (dir ++ "/" ++ f.1, f.2) (mem_subFlat.mp hf)

/-- **A tree is written exactly when every blob of it can be read.** -/
theorem writeGitTree_ok_iff :
    (∃ id, (writeGitTree L gix objects flat).1 = .ok id) ↔
      ∀ e ∈ flat.toList, ∃ o, objects.get L e.2 = .ok o := by
  have hmax : ∀ (l : List ℕ) (n : ℕ), n ∈ l → n ≤ l.foldr max 0 := by
    intro l
    induction l with
    | nil => simp
    | cons m rest ih =>
        intro n hn
        rcases List.mem_cons.mp hn with rfl | hn
        · exact le_max_left _ _
        · exact (ih n hn).trans (le_max_right _ _)
  refine writeGitTreeLevel_ok_iff (Nat.succ_pos _) fun e he => ?_
  exact Nat.lt_succ_of_le (hmax _ _ (List.mem_map.mpr ⟨e, he, rfl⟩))

end Trees

/-! ### The commits of the snapshots -/

section Commits

variable (L : Linked) (gix : Gix) (objects : ObjectStore) (lattice : LabelLattice)
  (rules : LabelRuleSet) (accessor : Accessor)

/-- The commit that a snapshot becomes: of what the accessor sees of its tree, and of the commits
of its parents, as far as those are stored snapshots. -/
inductive CommitOf : ObjectId → GitId → Prop where
  | of {id : ObjectId} {snap : Snapshot} {flat : BTreeMap String ObjectId} {tree : GitId}
      (parent : ObjectId → Option GitId)
      (hsnap : objects.getSnapshot L id = .ok (some snap))
      (hflat : walkTreeFiltered L objects lattice rules snap.root "" accessor ∅ = .ok flat)
      (htree : (writeGitTree L gix objects flat).1 = .ok tree)
      (hparents : ∀ p ∈ snap.parents, ∀ c, parent p = some c → CommitOf p c)
      (hothers : ∀ p ∈ snap.parents, parent p = none → objects.getSnapshot L p = .ok none) :
      CommitOf id (gix.hash .commit (encodeCommit tree (snap.parents.filterMap parent)
        (commitIdentity snap) snap.message))

/-- The object can be read and, if it is a snapshot, so can what the accessor sees of its tree. -/
structure Projectable (id : ObjectId) : Prop where
  reads : ∃ o, objects.get L id = .ok o
  tree : ∀ snap, objects.getSnapshot L id = .ok (some snap) →
    ∃ flat, walkTreeFiltered L objects lattice rules snap.root "" accessor ∅ = .ok flat ∧
      ∀ e ∈ flat.toList, ∃ o, objects.get L e.2 = .ok o

variable {L gix objects lattice rules accessor} {id : ObjectId} {c c' : GitId}

lemma CommitOf.snapshot (h : CommitOf L gix objects lattice rules accessor id c) :
    ∃ snap, objects.getSnapshot L id = .ok (some snap) := by
  cases h with
  | of parent hsnap => exact ⟨_, hsnap⟩

/-- A snapshot becomes one commit. -/
lemma CommitOf.unique (h : CommitOf L gix objects lattice rules accessor id c)
    (h' : CommitOf L gix objects lattice rules accessor id c') : c = c' := by
  induction h generalizing c' with
  | @of id snap flat tree parent hsnap hflat htree hparents hothers ih =>
      cases h' with
      | @of _ snap' flat' tree' parent' hsnap' hflat' htree' hparents' hothers' =>
          obtain rfl : snap = snap' := Option.some.inj (Except.ok.inj (hsnap.symm.trans hsnap'))
          obtain rfl : flat = flat' := Except.ok.inj (hflat.symm.trans hflat')
          obtain rfl : tree = tree' := Except.ok.inj (htree.symm.trans htree')
          have hsame : snap.parents.filterMap parent = snap.parents.filterMap parent' := by
            refine List.filterMap_congr fun p hp => ?_
            cases hc : parent p with
            | some c =>
                obtain ⟨s, hs⟩ := (hparents p hp c hc).snapshot
                cases hc' : parent' p with
                | some c' => rw [ih p hp c hc (hparents' p hp c' hc')]
                | none =>
                    have hnone := hothers' p hp hc'
                    rw [hs] at hnone
                    cases hnone
            | none =>
                cases hc' : parent' p with
                | none => rfl
                | some c' =>
                    obtain ⟨s, hs⟩ := (hparents' p hp c' hc').snapshot
                    rw [hothers p hp hc] at hs
                    cases hs
          rw [hsame]

lemma projectSnapshot_ok_iff {snap : Snapshot} {idMap : BTreeMap ObjectId GitId} :
    (∃ c, (projectSnapshot L gix objects lattice rules accessor snap idMap).1 = .ok c) ↔
      ∃ flat, walkTreeFiltered L objects lattice rules snap.root "" accessor ∅ = .ok flat ∧
        ∀ e ∈ flat.toList, ∃ o, objects.get L e.2 = .ok o := by
  rw [projectSnapshot]
  cases hflat : walkTreeFiltered L objects lattice rules snap.root "" accessor ∅ with
  | error e => simp
  | ok flat =>
      have htree : (∃ id, (writeGitTree L gix objects flat).1 = .ok id) ↔
          ∀ e ∈ flat.toList, ∃ o, objects.get L e.2 = .ok o := writeGitTree_ok_iff
      simp only [Except.ok.injEq, exists_eq_left', ← htree]
      cases writeGitTree L gix objects flat with
      | mk result written => cases result <;> simp

/-- **The snapshots are translated exactly when all are projectable.** -/
theorem projectSnapshots_ok_iff {ordered : List ObjectId} {idMap : BTreeMap ObjectId GitId} :
    (∃ m, (projectSnapshots L gix objects lattice rules accessor ordered idMap).1 = .ok m) ↔
      ∀ id ∈ ordered, Projectable L objects lattice rules accessor id := by
  induction ordered generalizing idMap with
  | nil => simp [projectSnapshots]
  | cons id rest ih =>
      rw [List.forall_mem_cons, projectSnapshots]
      cases hget : objects.get L id with
      | error e =>
          have hno : ¬ Projectable L objects lattice rules accessor id := by
            rintro ⟨⟨o, ho⟩, -⟩
            rw [hget] at ho
            cases ho
          simp [hno]
      | ok o =>
          by_cases hsnap : ∃ snap, o = some (.snapshot snap)
          · obtain ⟨snap, rfl⟩ := hsnap
            have hturn : Projectable L objects lattice rules accessor id ↔
                ∃ c, (projectSnapshot L gix objects lattice rules accessor snap idMap).1 =
                  .ok c := by
              rw [projectSnapshot_ok_iff]
              have hgets := getSnapshot_eq_some.mpr hget
              constructor
              · exact fun h => h.tree snap hgets
              · refine fun h => ⟨⟨_, hget⟩, fun snap' hsnap' => ?_⟩
                obtain rfl : snap = snap' :=
                  Option.some.inj (Except.ok.inj (hgets.symm.trans hsnap'))
                exact h
            rw [hturn]
            dsimp only
            cases projectSnapshot L gix objects lattice rules accessor snap idMap with
            | mk result written =>
                cases result with
                | error e => simp
                | ok c => simp [ih]
          · have hgets : objects.getSnapshot L id = .ok none :=
              ObjectStore.getSnapshot_eq_none hget fun snap h => hsnap ⟨snap, h⟩
            have hproj : Projectable L objects lattice rules accessor id := by
              refine ⟨⟨o, hget⟩, fun snap h => ?_⟩
              rw [hgets] at h
              cases h
            cases o with
            | none => simp [hproj, ih]
            | some obj =>
                cases obj with
                | snapshot snap => exact absurd ⟨snap, rfl⟩ hsnap
                | _ => simp [hproj, ih]

/-- The snapshots of `done` are translated: the map holds their commits, which are written, and
the parents of each are in the map too. -/
structure Projected (L : Linked) (gix : Gix) (objects : ObjectStore) (lattice : LabelLattice)
    (rules : LabelRuleSet) (accessor : Accessor) (done : List ObjectId)
    (idMap : BTreeMap ObjectId GitId) (written : List GitData) : Prop where
  reads : ∀ x ∈ done, ∃ o, objects.get L x = .ok o
  commit : ∀ (x : ObjectId) (c : GitId), idMap[x]? = some c →
    x ∈ done ∧ CommitOf L gix objects lattice rules accessor x c
  complete : ∀ x ∈ done, ∀ snap, objects.getSnapshot L x = .ok (some snap) →
    ∃ c, idMap[x]? = some c
  written : ∀ (x : ObjectId) (c : GitId), idMap[x]? = some c → ∃ tree parents identity message,
    c = gix.hash .commit (encodeCommit tree parents identity message) ∧
      (.commit, encodeCommit tree parents identity message) ∈ written ∧
      ∀ p ∈ parents, ∃ y : ObjectId, idMap[y]? = some p

namespace Projected

variable {done : List ObjectId} {idMap : BTreeMap ObjectId GitId} {written more : List GitData}

lemma empty : Projected L gix objects lattice rules accessor [] ∅ [] where
  reads := by simp
  commit x c h := by simp at h
  complete := by simp
  written x c h := by simp at h

/-- An object that is no snapshot is passed over. -/
lemma skip (h : Projected L gix objects lattice rules accessor done idMap written)
    {o : Option Object} (hget : objects.get L id = .ok o)
    (hsnap : objects.getSnapshot L id = .ok none) :
    Projected L gix objects lattice rules accessor (done ++ [id]) idMap written where
  reads x hx := by
    rcases List.mem_append.mp hx with hx | hx
    · exact h.reads x hx
    · rw [List.mem_singleton.mp hx]
      exact ⟨o, hget⟩
  commit x c hc := ⟨List.mem_append_left _ (h.commit x c hc).1, (h.commit x c hc).2⟩
  complete x hx snap hs := by
    rcases List.mem_append.mp hx with hx | hx
    · exact h.complete x hx snap hs
    · rw [List.mem_singleton.mp hx, hsnap] at hs
      cases hs
  written := h.written

/-- The turn for a snapshot whose parents are translated. -/
lemma turn (h : Projected L gix objects lattice rules accessor done idMap written)
    {snap : Snapshot} (hsnap : objects.getSnapshot L id = .ok (some snap))
    (hparents : ∀ p ∈ snap.parents, p ∈ done)
    (hturn : projectSnapshot L gix objects lattice rules accessor snap idMap = (.ok c, more)) :
    Projected L gix objects lattice rules accessor (done ++ [id]) (idMap.insert id c)
      (written ++ more) := by
  obtain ⟨flat, tree, hflat, htree, rfl, hmore⟩ : ∃ flat tree,
      walkTreeFiltered L objects lattice rules snap.root "" accessor ∅ = .ok flat ∧
      (writeGitTree L gix objects flat).1 = .ok tree ∧
      gix.hash .commit (encodeCommit tree (snap.parents.filterMap (idMap[·]?))
        (commitIdentity snap) snap.message) = c ∧
      (.commit, encodeCommit tree (snap.parents.filterMap (idMap[·]?))
        (commitIdentity snap) snap.message) ∈ more := by
    rw [projectSnapshot] at hturn
    split at hturn
    · cases hturn
    · next flat hflat =>
        split at hturn
        · cases hturn
        · next tree data htree =>
            cases hturn
            exact ⟨flat, tree, hflat, by rw [htree], rfl, by simp⟩
  have hcommit : CommitOf L gix objects lattice rules accessor id
      (gix.hash .commit (encodeCommit tree (snap.parents.filterMap (idMap[·]?))
        (commitIdentity snap) snap.message)) := by
    refine .of _ hsnap hflat htree (fun p _ c hc => (h.commit p c hc).2) fun p hp hnone => ?_
    obtain ⟨o, ho⟩ := ObjectStore.getSnapshot_of_get (h.reads p (hparents p hp))
    cases o with
    | none => exact ho
    | some s =>
        obtain ⟨c, hc⟩ := h.complete p (hparents p hp) s ho
        rw [hnone] at hc
        cases hc
  -- what was in the map stays
  have hkeep : ∀ (y : ObjectId) (p : GitId), idMap[y]? = some p → (idMap.insert id (gix.hash .commit
      (encodeCommit tree (snap.parents.filterMap (idMap[·]?)) (commitIdentity snap)
        snap.message)))[y]? = some p := by
    intro y p hy
    rw [Std.ExtTreeMap.getElem?_insert]
    split_ifs with heq
    · obtain rfl : id = y := Std.LawfulEqOrd.eq_of_compare heq
      rw [hcommit.unique (h.commit id p hy).2]
    · exact hy
  have hget : ∃ o, objects.get L id = .ok o := ⟨_, getSnapshot_eq_some.mp hsnap⟩
  refine ⟨fun x hx => ?_, fun x c hc => ?_, fun x hx s hs => ?_, fun x c hc => ?_⟩
  · rcases List.mem_append.mp hx with hx | hx
    · exact h.reads x hx
    · rwa [List.mem_singleton.mp hx]
  · rw [Std.ExtTreeMap.getElem?_insert] at hc
    split_ifs at hc with heq
    · obtain rfl : id = x := Std.LawfulEqOrd.eq_of_compare heq
      exact ⟨by simp, Option.some.inj hc ▸ hcommit⟩
    · exact ⟨List.mem_append_left _ (h.commit x c hc).1, (h.commit x c hc).2⟩
  · rcases List.mem_append.mp hx with hx | hx
    · obtain ⟨c, hc⟩ := h.complete x hx s hs
      exact ⟨c, hkeep x c hc⟩
    · rw [List.mem_singleton.mp hx]
      exact ⟨_, Std.ExtTreeMap.getElem?_insert_self⟩
  · rw [Std.ExtTreeMap.getElem?_insert] at hc
    split_ifs at hc with heq
    · refine ⟨tree, _, commitIdentity snap, snap.message, (Option.some.inj hc).symm,
        List.mem_append_right _ hmore, fun p hp => ?_⟩
      obtain ⟨y, -, hy⟩ := List.mem_filterMap.mp hp
      exact ⟨y, hkeep y p hy⟩
    · obtain ⟨tree', parents, identity, message, hsha, hmem, hall⟩ := h.written x c hc
      refine ⟨tree', parents, identity, message, hsha, List.mem_append_left _ hmem, fun p hp => ?_⟩
      obtain ⟨y, hy⟩ := hall p hp
      exact ⟨y, hkeep y p hy⟩

end Projected

/-- **The run of pass 3** over snapshots whose parents stand before them. -/
theorem projectSnapshots_projected {done rest : List ObjectId} {idMap m : BTreeMap ObjectId GitId}
    {written more : List GitData}
    (h : Projected L gix objects lattice rules accessor done idMap written)
    (hsorted : ∀ before id after, rest = before ++ id :: after → ∀ p, Parent L objects id p →
      p ∈ done ++ before)
    (hrun : projectSnapshots L gix objects lattice rules accessor rest idMap = (.ok m, more)) :
    Projected L gix objects lattice rules accessor (done ++ rest) m (written ++ more) := by
  induction rest generalizing done idMap written more with
  | nil =>
      cases hrun
      simpa using h
  | cons id rest ih =>
      have hlater : ∀ before x after, rest = before ++ x :: after → ∀ p, Parent L objects x p →
          p ∈ (done ++ [id]) ++ before := by
        intro before x after hsplit p hp
        simpa using hsorted (id :: before) x after (by rw [hsplit, List.cons_append]) p hp
      rw [projectSnapshots] at hrun
      split at hrun
      · cases hrun
      · next snap hget =>
          have hsnap := getSnapshot_eq_some.mpr hget
          split at hrun
          · cases hrun
          · next c data hturn =>
              obtain ⟨hm, rfl⟩ := Prod.mk.inj hrun
              have hparents : ∀ p ∈ snap.parents, p ∈ done := fun p hp => by
                simpa using hsorted [] id rest rfl p
                  ⟨snap, ObjectStore.object_eq_some.mpr hget, hp⟩
              have hnext := ih (h.turn hsnap hparents hturn) hlater (Prod.ext hm rfl)
              simpa using hnext
      · next o hother hget =>
          have hsnap := ObjectStore.getSnapshot_eq_none hget hother
          simpa using ih (h.skip hget hsnap) hlater hrun

end Commits

/-! ### The refs that are written -/

section Refs

variable {gix : Gix} {refs : List LooseRef} {d d' : GitDir} {q : List (List Char)}

/-- The path of the file of a ref. -/
def LooseRef.path (r : LooseRef) : List (List Char) := gitRefPath r.refName

lemma not_above_self (p : List (List Char)) : ¬ FileTree.Above p p := fun h => h.2 rfl

lemma writeLooseRefs_append (before after : List LooseRef) (d : GitDir) :
    writeLooseRefs (before ++ after) d =
      match writeLooseRefs before d with
      | (.error e, d) => (.error e, d)
      | (.ok (), d) => writeLooseRefs after d := by
  induction before generalizing d with
  | nil => rfl
  | cons r rest ih =>
      rw [List.cons_append, writeLooseRefs, writeLooseRefs]
      cases writeLooseRef r.refName r.sha d.files with
      | error e => rfl
      | ok files => exact ih _

lemma writeLooseRef_eq_ok {r : LooseRef} {files files' : GitFiles} :
    writeLooseRef r.refName r.sha files = .ok files' ↔
      FileTree.write r.path (looseRefText r.sha) files = .ok files' := by
  rw [writeLooseRef, LooseRef.path]
  split <;> simp_all

/-- **Refs can be written** where none of them is blocked and none is a directory of another. -/
lemma writeLooseRefs_ok_iff :
    (writeLooseRefs refs d).1 = .ok () ↔ (∀ r ∈ refs, ¬ Blocked r.path d.files) ∧
      ∀ r ∈ refs, ∀ s ∈ refs, ¬ FileTree.Above r.path s.path := by
  induction refs generalizing d with
  | nil => simp [writeLooseRefs]
  | cons r rest ih =>
      rw [writeLooseRefs]
      cases hwrite : writeLooseRef r.refName r.sha d.files with
      | error e =>
          have hblocked : Blocked r.path d.files := by
            by_contra hno
            obtain ⟨files, hfiles⟩ := (write_ok_iff (looseRefText r.sha) _ _).mpr hno
            rw [writeLooseRef_eq_ok.mpr hfiles] at hwrite
            cases hwrite
          simp [hblocked]
      | ok files =>
          have hfree : ¬ Blocked r.path d.files :=
            (write_ok_iff (looseRefText r.sha) _ _).mp ⟨files, writeLooseRef_eq_ok.mp hwrite⟩
          rw [ih]
          simp only [blocked_write (writeLooseRef_eq_ok.mp hwrite), not_or, List.forall_mem_cons,
            hfree, not_above_self, not_false_eq_true, true_and]
          constructor
          · rintro ⟨hblocked, hrest⟩
            exact ⟨fun s hs => (hblocked s hs).1, fun s hs => (hblocked s hs).2.2,
              fun s hs => ⟨(hblocked s hs).2.1, hrest s hs⟩⟩
          · rintro ⟨hblocked, habove, hrest⟩
            exact ⟨fun s hs => ⟨hblocked s hs, (hrest s hs).1, habove s hs⟩,
              fun s hs => (hrest s hs).2⟩

lemma written_writeLooseRefs (h : writeLooseRefs refs d = (.ok (), d')) :
    d'.written = d.written ++ refs.flatMap LooseRef.data := by
  induction refs generalizing d with
  | nil =>
      cases h
      simp
  | cons r rest ih =>
      rw [writeLooseRefs] at h
      split at h
      · cases h
      · rw [ih h]
        simp

/-- What the writes of refs block. -/
lemma blocked_writeLooseRefs (h : writeLooseRefs refs d = (.ok (), d')) :
    Blocked q d'.files ↔ Blocked q d.files ∨
      ∃ r ∈ refs, FileTree.Above q r.path ∨ FileTree.Above r.path q := by
  induction refs generalizing d with
  | nil =>
      cases h
      simp
  | cons r rest ih =>
      rw [writeLooseRefs] at h
      split at h
      · cases h
      · next files hwrite =>
          rw [ih h, blocked_write (writeLooseRef_eq_ok.mp hwrite), List.exists_mem_cons_iff,
            or_assoc]

/-- The files after different refs are written. -/
lemma lookup_writeLooseRefs (h : writeLooseRefs refs d = (.ok (), d'))
    (hnodup : (refs.map LooseRef.path).Nodup) {text : String} :
    lookup q d'.files = some text ↔
      (∃ r ∈ refs, r.path = q ∧ looseRefText r.sha = text) ∨
        q ∉ refs.map LooseRef.path ∧ lookup q d.files = some text := by
  induction refs generalizing d with
  | nil =>
      cases h
      simp
  | cons r rest ih =>
      rw [List.map_cons, List.nodup_cons] at hnodup
      rw [writeLooseRefs] at h
      split at h
      · cases h
      · next files hwrite =>
          rw [ih h hnodup.2, lookup_write (writeLooseRef_eq_ok.mp hwrite),
            List.exists_mem_cons_iff, List.map_cons, List.mem_cons, not_or]
          by_cases hq : q = r.path
          · subst hq
            simp [hnodup.1, or_comm]
          · simp [hq, Ne.symm hq]

end Refs

end Bole
