import Bole.Refs.Linear
import Bole.Repo.Gc
import Bole.Repo.Merge

/-!
Importing a git repository (`src/repo/git_import.rs`).  The repository is read through the `gix`
crate; what that returns is the data of `GitRepo`.

* `translateCommits_recording`: a translation is a sequence of writes, each of a git object that
  is not recorded yet and whose children are (`Recording`);
* `importRefs_target`: the refs that an import makes point at recorded ids of branch heads and
  of tag targets.
-/

namespace Bole

/-! ### The git repository -/

/-- `gix::ObjectId`: the bytes of a SHA. -/
structure GitId where
  bytes : Bytes
deriving DecidableEq

/-- The author, committer or tagger of an object. -/
structure GitSignature where
  name : String
  email : String
  seconds : ℤ
deriving DecidableEq

/-- The mode of a tree entry: a tree, a submodule, or anything that is imported as a blob. -/
inductive GitMode where
  | tree
  | commit
  | blob
deriving DecidableEq

/-- An entry of a git tree. -/
structure GitEntry where
  mode : GitMode
  filename : String
  oid : GitId
deriving DecidableEq

/-- A commit; what `gix` decodes on demand may fail, with a text. -/
structure GitCommit where
  treeId : Except String GitId
  parentIds : List GitId
  author : Except String GitSignature
  committer : Except String GitSignature
  message : String

/-- An annotated tag. -/
structure GitTag where
  message : String
  tagger : Option GitSignature

/-- An object, with what its conversions return; `tag` is there if it is of that kind. -/
structure GitObject where
  data : Bytes
  tryIntoCommit : Except String GitCommit
  tryIntoTree : Except String (List (Except String GitEntry))
  tag : Option (Except String GitTag)

/-- A ref of the listing, peeled. -/
structure GitReference where
  name : String
  peelToId : Except String GitId

/-- `gix::Repository`: the listing of the refs, the objects, and the object a ref points at
directly. -/
structure GitRepo where
  references : Except String (List (Except String GitReference))
  findObject : GitId → Except String GitObject
  directTarget : String → Option GitId

/-- `map_err(|e| Error::GitProjection(e.to_string()))`. -/
def gitResult {α : Type} : Except String α → Result α
  | .ok a => .ok a
  | .error msg => .error (.gitProjection msg)

/-! ### The identity map -/

/-- `IdentityMap`. -/
structure IdentityMap where
  gitToBole : AList fun _ : GitId => ObjectId
  boleToGit : AList fun _ : ObjectId => GitId

namespace IdentityMap

/-- `new`. -/
def new : IdentityMap := ⟨∅, ∅⟩

/-- `insert`. -/
def insert (m : IdentityMap) (git : GitId) (bole : ObjectId) : IdentityMap :=
  ⟨m.gitToBole.insert git bole, m.boleToGit.insert bole git⟩

/-- `bole_for_git`. -/
def boleForGit (m : IdentityMap) (git : GitId) : Option ObjectId := m.gitToBole.lookup git

/-- The id of a git object that is recorded. -/
def idOf (m : IdentityMap) (git : GitId) : ObjectId := (m.boleForGit git).getD ⟨.replicate 0⟩

@[simp] lemma boleForGit_insert (m : IdentityMap) (x y : GitId) (id : ObjectId) :
    (m.insert x id).boleForGit y = if y = x then some id else m.boleForGit y := by
  rw [boleForGit, insert]
  by_cases hy : y = x
  · rw [hy, AList.lookup_insert, if_pos rfl]
  · rw [AList.lookup_insert_ne hy, if_neg hy]
    rfl

/-- What the first records, the second records alike. -/
def Below (m m' : IdentityMap) : Prop :=
  ∀ x id, m.boleForGit x = some id → m'.boleForGit x = some id

lemma Below.refl (m : IdentityMap) : m.Below m := fun _ _ h => h

lemma Below.trans {a b c : IdentityMap} (hab : a.Below b) (hbc : b.Below c) : a.Below c :=
  fun x id h => hbc x id (hab x id h)

lemma below_insert {m : IdentityMap} {x : GitId} (h : m.boleForGit x = none) (id : ObjectId) :
    m.Below (m.insert x id) := by
  intro y id' hy
  rw [boleForGit_insert, if_neg, hy]
  rintro rfl
  rw [h] at hy
  cases hy

lemma Below.idOf_eq {m m' : IdentityMap} (h : m.Below m') {x : GitId}
    (hx : (m.boleForGit x).isSome) : m'.idOf x = m.idOf x := by
  obtain ⟨id, hid⟩ := Option.isSome_iff_exists.mp hx
  rw [idOf, idOf, hid, h x id hid]

end IdentityMap

/-! ### Options and summary -/

/-- `ImportOptions`.  The file of label rules is what reading it returns. -/
structure ImportOptions where
  branches : List String
  timelinePolicy : TimelinePolicy
  labelRuleset : Option (Result String)
  dryRun : Bool
  force : Bool

/-- `ImportSummary`. -/
structure ImportSummary where
  blobsWritten : ℕ
  treesWritten : ℕ
  snapshotsWritten : ℕ
  timelinesCreated : ℕ
  timelinesAdvanced : ℕ
  tagsCreated : ℕ
  skippedViaIdentityMap : ℕ
deriving DecidableEq

/-- `ImportSummary::default`. -/
def ImportSummary.default : ImportSummary := ⟨0, 0, 0, 0, 0, 0, 0⟩

/-! ### Names -/

/-- `sanitize_ref_name`. -/
def sanitizeRefName (gitName : String) : Option String :=
  let segments := ((gitName.toList.splitOn '/').filter (· ≠ [])).map fun seg =>
    match seg.filter (· ≠ '\x00') with
    | '.' :: rest => '_' :: rest
    | seg => seg
  match segments.filter (· ≠ []) with
  | [] => none
  | segments => some (String.ofList (['/'].intercalate segments))

/-- `sanitized_ref`: the name, and the names seen with it. -/
def sanitizedRef (short : String) (seen : BTreeMap String String) :
    Result (RefName × BTreeMap String String) :=
  match sanitizeRefName short with
  | none => .error (.gitProjection ("ref name empty after sanitization: " ++ short))
  | some sanitized =>
      match seen[sanitized]? with
      | some prev =>
          if prev ≠ short then
            .error (.gitProjection ("git refs '" ++ prev ++ "' and '" ++ short ++
              "' both sanitize to '" ++ sanitized ++ "'"))
          else named sanitized
      | none => named sanitized
where
  /-- The name is recorded before it is validated. -/
  named (sanitized : String) : Result (RefName × BTreeMap String String) :=
    match RefName.new sanitized with
    | .ok name => .ok (name, seen.insert sanitized short)
    | .error (.invalidRefName msg) => .error (.gitProjection ("invalid ref name: " ++ msg))
    | .error e => .error e

example : sanitizeRefName "feature//.foo/" = some "feature/_foo" := by decide

/-! ### Translating objects -/

/-- The white space of `char::is_whitespace`. -/
def isWhitespace (c : Char) : Bool :=
  let n := c.toNat
  (0x9 ≤ n && n ≤ 0xd) || n = 0x20 || n = 0x85 || n = 0xa0 || n = 0x1680 ||
    (0x2000 ≤ n && n ≤ 0x200a) || n = 0x2028 || n = 0x2029 || n = 0x202f || n = 0x205f || n = 0x3000

/-- `str::trim_end`. -/
def strTrimEnd (s : String) : String := String.ofList (s.toList.rdropWhile isWhitespace)

/-- `str::trim`. -/
def strTrim (s : String) : String := String.ofList ((strTrimEnd s).toList.dropWhile isWhitespace)

/-- The state of the translation: the store, the map and the counts. -/
structure Translation where
  objects : ObjectStore
  map : IdentityMap
  summary : ImportSummary

/-- Storing an object, or computing its id only. -/
def writeObject (L : Linked) (mtime : Option ℕ) (dryRun : Bool) (obj : Object) (s : ObjectStore) :
    Result ObjectId × ObjectStore :=
  if dryRun then ((L.codec.serialize obj).map L.fromContent, s) else s.put L obj mtime

namespace Translation

/-- The end of each translation: the object is written, recorded and counted. -/
def write (L : Linked) (mtime : Option ℕ) (dryRun : Bool) (oid : GitId) (obj : Object)
    (count : ImportSummary → ImportSummary) (t : Translation) : Result ObjectId × Translation :=
  match writeObject L mtime dryRun obj t.objects with
  | (.error e, s) => (.error e, { t with objects := s })
  | (.ok id, s) => (.ok id, ⟨s, t.map.insert oid id, count t.summary⟩)

end Translation

section Translate

variable (L : Linked) (g : GitRepo) (mtime : Option ℕ) (dryRun : Bool)

/-- `translate_blob`. -/
def translateBlob (oid : GitId) (t : Translation) : Result ObjectId × Translation :=
  match t.map.boleForGit oid with
  | some existing => (.ok existing, t)
  | none =>
      match gitResult (g.findObject oid) with
      | .error e => (.error e, t)
      | .ok o =>
          t.write L mtime dryRun oid (.blob o.data)
            fun c => { c with blobsWritten := c.blobsWritten + 1 }

/-- The loop of `translate_tree` over the entries; `subtree` translates the trees inside. -/
def translateEntries (subtree : GitId → Translation → Result ObjectId × Translation) :
    List (Except String GitEntry) → BTreeMap String TreeEntry → Translation →
      Result (BTreeMap String TreeEntry) × Translation
  | [], entries, t => (.ok entries, t)
  | .error msg :: _, _, t => (.error (.gitProjection msg), t)
  | .ok entry :: rest, entries, t =>
      match entry.mode with
      | .tree =>
          match subtree entry.oid t with
          | (.error e, t) => (.error e, t)
          | (.ok id, t) =>
              translateEntries subtree rest (entries.insert entry.filename ⟨id, .tree⟩) t
      | .commit => translateEntries subtree rest entries t
      | .blob =>
          match translateBlob L g mtime dryRun entry.oid t with
          | (.error e, t) => (.error e, t)
          | (.ok id, t) =>
              translateEntries subtree rest (entries.insert entry.filename ⟨id, .blob⟩) t

/-- `translate_tree`, for trees nested at most as deep as the given number. -/
def translateTree : ℕ → GitId → Translation → Result ObjectId × Translation
  | 0, _, t => (.error (.panic "out of fuel"), t)
  | depth + 1, oid, t =>
      match t.map.boleForGit oid with
      | some existing => (.ok existing, t)
      | none =>
          match gitResult (g.findObject oid >>= GitObject.tryIntoTree) with
          | .error e => (.error e, t)
          | .ok entries =>
              match translateEntries L g mtime dryRun (translateTree depth) entries ∅ t with
              | (.error e, t) => (.error e, t)
              | (.ok entries, t) =>
                  t.write L mtime dryRun oid (.tree ⟨entries⟩)
                    fun c => { c with treesWritten := c.treesWritten + 1 }

/-- The recorded ids of the parents. -/
def translateParents (m : IdentityMap) : List GitId → Result (List ObjectId)
  | [] => .ok []
  | pid :: rest =>
      match m.boleForGit pid with
      | none => .error (.gitProjection "parent commit not translated before child")
      | some bole => (translateParents m rest).map (bole :: ·)

/-- The message of the snapshot: a committer other than the author is kept in a trailer. -/
def snapshotMessage (commit : GitCommit) (author : GitSignature) : String :=
  match commit.committer with
  | .ok committer =>
      if committer.name ≠ author.name ∨ committer.email ≠ author.email then
        strTrimEnd commit.message ++ "\n\nCommitter: " ++ committer.name ++ " <" ++
          committer.email ++ "> " ++ toString committer.seconds
      else commit.message
  | .error _ => commit.message

/-- The snapshot of a commit, given the ids of its tree and its parents. -/
def commitSnapshot (commit : GitCommit) (author : GitSignature) (root : ObjectId)
    (parents : List ObjectId) : Snapshot :=
  ⟨root, parents, author.name ++ " <" ++ author.email ++ ">", author.seconds.toNat,
    snapshotMessage commit author⟩

/-- `translate_commit`. -/
def translateCommit (depth : ℕ) (oid : GitId) (t : Translation) : Result ObjectId × Translation :=
  match t.map.boleForGit oid with
  | some existing =>
      (.ok existing,
        { t with summary := { t.summary with
          skippedViaIdentityMap := t.summary.skippedViaIdentityMap + 1 } })
  | none =>
      match gitResult (g.findObject oid >>= GitObject.tryIntoCommit) with
      | .error e => (.error e, t)
      | .ok commit =>
          match gitResult commit.treeId with
          | .error e => (.error e, t)
          | .ok treeOid =>
              match translateTree L g mtime dryRun depth treeOid t with
              | (.error e, t) => (.error e, t)
              | (.ok root, t) =>
                  match translateParents t.map commit.parentIds with
                  | .error e => (.error e, t)
                  | .ok parents =>
                      match gitResult commit.author with
                      | .error e => (.error e, t)
                      | .ok author =>
                          t.write L mtime dryRun oid
                            (.snapshot (commitSnapshot commit author root parents))
                            fun c => { c with snapshotsWritten := c.snapshotsWritten + 1 }

/-- The loop over the ordered commits. -/
def translateCommits (depth : ℕ) : List GitId → Translation → Result Unit × Translation
  | [], t => (.ok (), t)
  | oid :: rest, t =>
      match translateCommit L g mtime dryRun depth oid t with
      | (.error e, t) => (.error e, t)
      | (.ok _, t) => translateCommits depth rest t

end Translate

/-- `topo_commits`, for the given number of turns; the top of the stack is in front. -/
def topoLoop (g : GitRepo) : ℕ → List (GitId × Bool) → List GitId → List GitId →
    Result (List GitId)
  | _, [], _, result => .ok result
  | 0, _ :: _, _, _ => .error (.panic "out of fuel")
  | fuel + 1, (id, true) :: stack, visited, result => topoLoop g fuel stack visited (result ++ [id])
  | fuel + 1, (id, false) :: stack, visited, result =>
      if id ∈ visited then topoLoop g fuel stack visited result
      else
        match gitResult (g.findObject id >>= GitObject.tryIntoCommit) with
        | .error e => .error e
        | .ok commit =>
            let parents := commit.parentIds.filter fun pid => decide (pid ∉ id :: visited)
            topoLoop g fuel ((parents.map (·, false)).reverse ++ (id, true) :: stack)
              (id :: visited) result

def topoCommits (g : GitRepo) (fuel : ℕ) (heads : List GitId) : Result (List GitId) :=
  topoLoop g fuel (heads.map (·, false)).reverse [] []

/-! ### Refs -/

/-- `str::strip_prefix`. -/
def stripPrefix (pfx s : String) : Option String :=
  (pfx.toList.isPrefixOf? s.toList).map String.ofList

lemma stripPrefix_eq_some {pfx s rest : String} :
    stripPrefix pfx s = some rest ↔ s.toList = pfx.toList ++ rest.toList := by
  have hlist : ∀ (p l r : List Char), p.isPrefixOf? l = some r ↔ l = p ++ r := by
    intro p
    induction p with
    | nil => simp [List.isPrefixOf?]
    | cons c p ih =>
        intro l r
        cases l with
        | nil => simp [List.isPrefixOf?]
        | cons c' l =>
            by_cases hc : c = c'
            · simp [List.isPrefixOf?, hc, ih]
            · simp [List.isPrefixOf?, hc, Ne.symm hc]
  rw [stripPrefix, Option.map_eq_some_iff, ← hlist]
  constructor
  · rintro ⟨r, hr, rfl⟩
    rw [hr, String.toList_ofList]
  · exact fun h => ⟨rest.toList, h, String.ofList_toList⟩

/-- The branches and the tags of an import, by their short names, with what they point at. -/
structure GitRefs where
  branches : List (String × GitId)
  tags : List (String × GitId)

/-- Pass 3: the listing, as far as it is selected. -/
def collectRefs (selected : List String) : List (Except String GitReference) → GitRefs →
    Except String GitRefs
  | [], refs => .ok refs
  | .error msg :: _, _ => .error msg
  | .ok r :: rest, refs =>
      match r.peelToId with
      | .error msg => .error msg
      | .ok target =>
          match stripPrefix "refs/heads/" r.name with
          | some short =>
              if selected = [] ∨ short ∈ selected then
                collectRefs selected rest
                  { refs with branches := refs.branches ++ [(short, target)] }
              else collectRefs selected rest refs
          | none =>
              match stripPrefix "refs/tags/" r.name with
              | some short =>
                  collectRefs selected rest { refs with tags := refs.tags ++ [(short, target)] }
              | none => collectRefs selected rest refs

/-- What passes 7 and 8 change: the refs, the counts and the names seen. -/
structure RefPass where
  refs : RefStore
  summary : ImportSummary
  seen : BTreeMap String String

section RefPasses

variable (L : Linked) (g : GitRepo) (opts : ImportOptions) (objects : ObjectStore)
  (map : IdentityMap)

/-- One turn of pass 7: a branch becomes a timeline, or advances its own. -/
def importBranch (short : String) (head : GitId) (p : RefPass) : Result Unit × RefPass :=
  match sanitizedRef short p.seen with
  | .error e => (.error e, p)
  | .ok (name, seen) =>
      let p := { p with seen := seen }
      match map.boleForGit head with
      | none => (.error (.gitProjection ("untranslated branch head: " ++ short)), p)
      | some boleHead =>
          match p.refs.getTimeline name with
          | .error e => (.error e, p)
          | .ok none =>
              match p.refs.createTimeline name boleHead opts.timelinePolicy 0 "persistent" none with
              | (.error e, refs) => (.error e, { p with refs := refs })
              | (.ok (), refs) =>
                  (.ok (), { p with refs := refs, summary := { p.summary with
                    timelinesCreated := p.summary.timelinesCreated + 1 } })
          | .ok (some tl) =>
              match findCommonAncestor L objects tl.head boleHead with
              | .error e => (.error e, p)
              | .ok ancestor =>
                  if opts.force = false ∧ tl.policy ≠ .unrestricted ∧ ancestor ≠ some tl.head then
                    (.error (.gitProjection
                      ("non-fast-forward re-import of '" ++ name.asStr ++ "' (use force)")), p)
                  else if tl.head ≠ boleHead then
                    match p.refs.advanceHead name boleHead with
                    | (.error e, refs) => (.error e, { p with refs := refs })
                    | (.ok (), refs) =>
                        (.ok (), { p with refs := refs, summary := { p.summary with
                          timelinesAdvanced := p.summary.timelinesAdvanced + 1 } })
                  else (.ok (), p)

/-- The end of the message of an annotated tag, and the time of it. -/
def taggerLine : Option GitSignature → String × ℕ
  | some t =>
      ("\n\nTagger: " ++ t.name ++ " <" ++ t.email ++ "> " ++ toString t.seconds, t.seconds.toNat)
  | none => ("", 0)

/-- `annotated_tag_meta`: the object that the ref points at directly may be a tag. -/
def annotatedTagMeta (short : String) (boleTarget : ObjectId) : Result (Option String × ℕ) :=
  match (g.directTarget ("refs/tags/" ++ short)).bind fun tid =>
      (g.findObject tid).toOption.bind GitObject.tag with
  | some (.error msg) => .error (.gitProjection msg)
  | some (.ok tag) =>
      .ok (some (tag.message ++ (taggerLine tag.tagger).1), (taggerLine tag.tagger).2)
  | none =>
      match objects.get L boleTarget with
      | .error e => .error e
      | .ok (some (.snapshot s)) => .ok (none, s.createdAt)
      | .ok _ => .ok (none, 0)

/-- `translate_tag`; a tag that exists stays as it is. -/
def translateTag (name : RefName) (target : GitId) (p : RefPass) : Result Unit × RefPass :=
  match map.boleForGit target with
  | none => (.ok (), p)
  | some boleTarget =>
      match annotatedTagMeta L g objects name.asStr boleTarget with
      | .error e => (.error e, p)
      | .ok (message, createdAt) =>
          match p.refs.getTag name with
          | .error e => (.error e, p)
          | .ok (some _) => (.ok (), p)
          | .ok none =>
              match p.refs.createTag name boleTarget message createdAt with
              | (.error e, refs) => (.error e, { p with refs := refs })
              | (.ok (), refs) =>
                  (.ok (), { p with refs := refs, summary := { p.summary with
                    tagsCreated := p.summary.tagsCreated + 1 } })

/-- One turn of pass 8. -/
def importTag (short : String) (target : GitId) (p : RefPass) : Result Unit × RefPass :=
  match sanitizedRef short p.seen with
  | .error e => (.error e, p)
  | .ok (name, seen) => translateTag L g objects map name target { p with seen := seen }

/-- The loops of both passes. -/
def refLoop (turn : String → GitId → RefPass → Result Unit × RefPass) :
    List (String × GitId) → RefPass → Result Unit × RefPass
  | [], p => (.ok (), p)
  | (short, id) :: rest, p =>
      match turn short id p with
      | (.error e, p) => (.error e, p)
      | (.ok (), p) => refLoop turn rest p

end RefPasses

/-! ### Label rules -/

/-- `apply_label_ruleset`, by the given `set_path_acl`. -/
def applyLabelRuleset (setPathAcl : AclBackend → PathAcl → Result AclBackend) (text : String)
    (acls : AclBackend) : Result Unit × AclBackend :=
  go ((text.toList.splitOn '\n').map fun line => strTrim (String.ofList line)) acls
where
  /-- The loop over the lines. -/
  go : List String → AclBackend → Result Unit × AclBackend
    | [], acls => (.ok (), acls)
    | glob :: rest, acls =>
        if glob.isEmpty ∨ glob.toList.head? = some '#' then go rest acls
        else
          match setPathAcl acls ⟨glob⟩ with
          | .error e => (.error e, acls)
          | .ok acls => go rest acls

/-! ### The import -/

/-- A call of `git_import`: what `gix::open` and the reads and writes of the sidecar return, the
options, the time, the turns that the loops may take, and the `set_path_acl` of the backend. -/
structure ImportRequest where
  git : Except String GitRepo
  load : Result Unit
  save : Result Unit
  opts : ImportOptions
  mtime : Option ℕ
  fuel : ℕ
  setPathAcl : AclBackend → PathAcl → Result AclBackend

/-- A repository with the sidecar of a git repository. -/
structure Importer where
  repo : Repository
  sidecar : IdentityMap

/-- Passes 3 to 6: the refs that were selected, and the translation of their commits. -/
def translatePasses (L : Linked) (req : ImportRequest) (g : GitRepo) (s : Importer) :
    Result GitRefs × Translation :=
  let t : Translation := ⟨s.repo.objects, s.sidecar, .default⟩
  match gitResult (g.references >>= fun listing => collectRefs req.opts.branches listing ⟨[], []⟩)
    with
  | .error e => (.error e, t)
  | .ok refs =>
      match topoCommits g req.fuel (refs.branches.map Prod.snd) with
      | .error e => (.error e, t)
      | .ok ordered =>
          match translateCommits L g req.mtime req.opts.dryRun req.fuel ordered t with
          | (.error e, t) => (.error e, t)
          | (.ok (), t) => (.ok refs, t)

/-- Passes 7 and 8. -/
def importRefs (L : Linked) (opts : ImportOptions) (g : GitRepo) (refs : GitRefs)
    (t : Translation) (store : RefStore) : Result Unit × RefPass :=
  match refLoop (importBranch L opts t.objects t.map) refs.branches ⟨store, t.summary, ∅⟩ with
  | (.error e, p) => (.error e, p)
  | (.ok (), p) => refLoop (importTag L g t.objects t.map) refs.tags p

/-- Pass 9. -/
def importRules (req : ImportRequest) (acls : AclBackend) : Result Unit × AclBackend :=
  match req.opts.labelRuleset with
  | none => (.ok (), acls)
  | some (.error e) => (.error e, acls)
  | some (.ok text) => applyLabelRuleset req.setPathAcl text acls

/-- `git_import`.  What an error leaves behind stays: objects that were written, refs that were
made; the sidecar is written last. -/
def gitImport (L : Linked) (req : ImportRequest) (s : Importer) : Result ImportSummary × Importer :=
  match req.git with
  | .error msg => (.error (.gitProjection ("opening git repo: " ++ msg)), s)
  | .ok g =>
      match req.load with
      | .error e => (.error e, s)
      | .ok () =>
          match translatePasses L req g s with
          | (.error e, t) => (.error e, { s with repo := { s.repo with objects := t.objects } })
          | (.ok refs, t) =>
              let repo := { s.repo with objects := t.objects }
              if req.opts.dryRun then (.ok t.summary, { s with repo := repo })
              else
                match importRefs L req.opts g refs t s.repo.refs with
                | (.error e, p) => (.error e, { s with repo := { repo with refs := p.refs } })
                | (.ok (), p) =>
                    match importRules req s.repo.acls with
                    | (.error e, acls) =>
                        (.error e, { s with repo := { repo with refs := p.refs, acls := acls } })
                    | (.ok (), acls) =>
                        let repo := { repo with refs := p.refs, acls := acls }
                        match req.save with
                        | .error e => (.error e, { s with repo := repo })
                        | .ok () => (.ok p.summary, ⟨repo, t.map⟩)

/-! ### What a translation writes -/

/-- The objects that the entries of a tree name; submodules are left out. -/
def treeChildren (entries : List (Except String GitEntry)) : List GitId :=
  entries.filterMap fun e =>
    match e with
    | .ok entry => if entry.mode = .commit then none else some entry.oid
    | .error _ => none

/-- The tree and the parents of a commit. -/
def commitChildren (commit : GitCommit) : List GitId :=
  commit.treeId.toOption.toList ++ commit.parentIds

/-- The objects that a git object names. -/
def GitRepo.children (g : GitRepo) (x : GitId) : List GitId :=
  match g.findObject x with
  | .error _ => []
  | .ok o =>
      o.tryIntoCommit.toOption.elim [] commitChildren ++ o.tryIntoTree.toOption.elim [] treeChildren

/-- An entry with the id of its object. -/
def addEntry (id : GitId → ObjectId) (entries : BTreeMap String TreeEntry) :
    Except String GitEntry → BTreeMap String TreeEntry
  | .error _ => entries
  | .ok entry =>
      match entry.mode with
      | .tree => entries.insert entry.filename ⟨id entry.oid, .tree⟩
      | .commit => entries
      | .blob => entries.insert entry.filename ⟨id entry.oid, .blob⟩

/-- What a git object becomes, given the recorded ids of what it names.  Any object can be read
as a blob. -/
inductive Translates (g : GitRepo) (m : IdentityMap) (x : GitId) : Object → Prop where
  | blob {o : GitObject} : g.findObject x = .ok o → Translates g m x (.blob o.data)
  | tree {o : GitObject} {entries : List (Except String GitEntry)} : g.findObject x = .ok o →
      o.tryIntoTree = .ok entries → (∀ y ∈ treeChildren entries, (m.boleForGit y).isSome) →
      Translates g m x (.tree ⟨entries.foldl (addEntry m.idOf) ∅⟩)
  | commit {o : GitObject} {c : GitCommit} {root : GitId} {author : GitSignature} :
      g.findObject x = .ok o → o.tryIntoCommit = .ok c → c.treeId = .ok root →
      c.author = .ok author → (∀ y ∈ commitChildren c, (m.boleForGit y).isSome) →
      Translates g m x
        (.snapshot (commitSnapshot c author (m.idOf root) (c.parentIds.map m.idOf)))

/-- Any number of writes of objects that are not recorded yet, each recorded at once. -/
inductive Recording (L : Linked) (g : GitRepo) (mtime : Option ℕ) (a : ObjectStore × IdentityMap) :
    ObjectStore × IdentityMap → Prop where
  | refl : Recording L g mtime a a
  | write {b : ObjectStore × IdentityMap} {x : GitId} {obj : Object} {id : ObjectId}
      {s : ObjectStore} : Recording L g mtime a b → b.2.boleForGit x = none →
      Translates g b.2 x obj → b.1.put L obj mtime = (.ok id, s) →
      Recording L g mtime a (s, b.2.insert x id)

variable {L : Linked} {g : GitRepo} {mtime : Option ℕ}

lemma mem_treeChildren {entries : List (Except String GitEntry)} {y : GitId} :
    y ∈ treeChildren entries ↔
      ∃ entry : GitEntry, .ok entry ∈ entries ∧ entry.mode ≠ .commit ∧ entry.oid = y := by
  rw [treeChildren, List.mem_filterMap]
  constructor
  · rintro ⟨e, he, h⟩
    cases e with
    | error msg => cases h
    | ok entry =>
        dsimp only at h
        split_ifs at h with hmode
        exact ⟨entry, he, hmode, Option.some.inj h⟩
  · rintro ⟨entry, he, hmode, rfl⟩
    exact ⟨.ok entry, he, if_neg hmode⟩

/-- The entries depend on the ids of the children only. -/
lemma foldl_addEntry_congr {f f' : GitId → ObjectId} {entries : List (Except String GitEntry)}
    (h : ∀ y ∈ treeChildren entries, f y = f' y) (acc : BTreeMap String TreeEntry) :
    entries.foldl (addEntry f) acc = entries.foldl (addEntry f') acc := by
  refine List.foldl_ext _ _ _ fun acc e he => ?_
  cases e with
  | error msg => rfl
  | ok entry =>
      cases hmode : entry.mode with
      | commit => simp only [addEntry, hmode]
      | tree =>
          have := h entry.oid (mem_treeChildren.mpr ⟨entry, he, by simp [hmode], rfl⟩)
          simp only [addEntry, hmode, this]
      | blob =>
          have := h entry.oid (mem_treeChildren.mpr ⟨entry, he, by simp [hmode], rfl⟩)
          simp only [addEntry, hmode, this]

/-- What a git object becomes does not change while ids are recorded. -/
lemma Translates.mono {m m' : IdentityMap} (hm : m.Below m') {x : GitId} {obj : Object}
    (h : Translates g m x obj) : Translates g m' x obj := by
  have hsome : ∀ y, (m.boleForGit y).isSome → (m'.boleForGit y).isSome := by
    intro y hy
    obtain ⟨id, hid⟩ := Option.isSome_iff_exists.mp hy
    rw [hm y id hid]
    rfl
  cases h with
  | blob ho => exact .blob ho
  | @tree o entries ho hentries hall =>
      rw [foldl_addEntry_congr fun y hy => (hm.idOf_eq (hall y hy)).symm]
      exact .tree ho hentries fun y hy => hsome y (hall y hy)
  | @commit o c root author ho hc hroot hauthor hall =>
      have hid : ∀ y ∈ commitChildren c, m.idOf y = m'.idOf y := fun y hy =>
        (hm.idOf_eq (hall y hy)).symm
      have htree : root ∈ commitChildren c := by
        rw [commitChildren, hroot]
        simp [Except.toOption]
      have hparents : c.parentIds.map m.idOf = c.parentIds.map m'.idOf :=
        List.map_congr_left fun y hy => hid y (List.mem_append_right _ hy)
      rw [hid root htree, hparents]
      exact .commit ho hc hroot hauthor fun y hy => hsome y (hall y hy)

/-- An entry of the folded map comes from a child. -/
lemma mem_foldl_addEntry {f : GitId → ObjectId} {entries : List (Except String GitEntry)}
    {name : String} {e : TreeEntry} {acc : BTreeMap String TreeEntry}
    (h : (entries.foldl (addEntry f) acc)[name]? = some e) :
    acc[name]? = some e ∨ ∃ y ∈ treeChildren entries, e.id = f y := by
  induction entries generalizing acc with
  | nil => exact Or.inl h
  | cons first rest ih =>
      rw [List.foldl_cons] at h
      have hrest : ∀ y ∈ treeChildren rest, y ∈ treeChildren (first :: rest) := by
        intro y hy
        obtain ⟨entry, he, hmode, hoid⟩ := mem_treeChildren.mp hy
        exact mem_treeChildren.mpr ⟨entry, List.mem_cons_of_mem _ he, hmode, hoid⟩
      rcases ih h with hacc | ⟨y, hy, hid⟩
      · cases first with
        | error msg => exact Or.inl hacc
        | ok entry =>
            have hinsert : ∀ kind : EntryKind, entry.mode ≠ .commit →
                (acc.insert entry.filename ⟨f entry.oid, kind⟩)[name]? = some e →
                acc[name]? = some e ∨ ∃ y ∈ treeChildren (.ok entry :: rest), e.id = f y := by
              intro kind hmode hget
              rw [Std.ExtTreeMap.getElem?_insert] at hget
              split_ifs at hget with hname
              · refine Or.inr ⟨entry.oid,
                  mem_treeChildren.mpr ⟨entry, List.mem_cons_self, hmode, rfl⟩, ?_⟩
                rw [← Option.some.inj hget]
              · exact Or.inl hget
            cases hmode : entry.mode with
            | commit =>
                simp only [addEntry, hmode] at hacc
                exact Or.inl hacc
            | tree =>
                simp only [addEntry, hmode] at hacc
                exact hinsert _ (by simp [hmode]) hacc
            | blob =>
                simp only [addEntry, hmode] at hacc
                exact hinsert _ (by simp [hmode]) hacc
      · exact Or.inr ⟨y, hrest y hy, hid⟩

/-- **The edges of the new object** are recorded ids of children. -/
lemma Translates.edges {m : IdentityMap} {x : GitId} {obj : Object} (h : Translates g m x obj)
    {e : ObjectId} (he : e ∈ childEdges obj) : ∃ y ∈ g.children x, m.boleForGit y = some e := by
  have hrecorded : ∀ y, (m.boleForGit y).isSome → m.boleForGit y = some (m.idOf y) := by
    intro y hy
    obtain ⟨id, hid⟩ := Option.isSome_iff_exists.mp hy
    rw [IdentityMap.idOf, hid]
    rfl
  cases h with
  | blob ho => cases he
  | @tree o entries ho hentries hall =>
      obtain ⟨entry, hentry, rfl⟩ := List.mem_map.mp he
      obtain ⟨name, hname⟩ := mem_values.mp hentry
      rcases mem_foldl_addEntry hname with hempty | ⟨y, hy, hid⟩
      · simp at hempty
      · refine ⟨y, ?_, by rw [hid]; exact hrecorded y (hall y hy)⟩
        simp only [GitRepo.children, ho, hentries, List.mem_append]
        exact Or.inr hy
  | @commit o c root author ho hc hroot hauthor hall =>
      have hchildren : ∀ y ∈ commitChildren c, y ∈ g.children x := by
        intro y hy
        simp only [GitRepo.children, ho, hc, List.mem_append]
        exact Or.inl hy
      obtain ⟨y, hy, rfl⟩ : ∃ y ∈ commitChildren c, m.idOf y = e := by
        rcases List.mem_cons.mp he with rfl | he
        · refine ⟨root, ?_, rfl⟩
          rw [commitChildren, hroot]
          simp [Except.toOption]
        · obtain ⟨y, hy, rfl⟩ := List.mem_map.mp he
          exact ⟨y, List.mem_append_right _ hy, rfl⟩
      exact ⟨y, hchildren y hy, hrecorded y (hall y hy)⟩

namespace Recording

variable {a b c : ObjectStore × IdentityMap}

lemma trans (hab : Recording L g mtime a b) (hbc : Recording L g mtime b c) :
    Recording L g mtime a c := by
  induction hbc with
  | refl => exact hab
  | write _ hnew htrans hput ih => exact ih.write hnew htrans hput

/-- No record changes. -/
lemma map_below (h : Recording L g mtime a b) : a.2.Below b.2 := by
  induction h with
  | refl => exact .refl _
  | write _ hnew _ _ ih => exact ih.trans (IdentityMap.below_insert hnew _)

/-- No object is lost. -/
lemma grows (h : Recording L g mtime a b) : a.1.Grows L b.1 := by
  induction h with
  | refl => exact .refl _ _
  | @write b x obj id s _ _ _ hput ih =>
      refine ih.trans ?_
      have hwritten : b.1.Written L (fun _ => True) (b.1.put L obj mtime).2 :=
        (ObjectStore.Written.refl b.1).put (fun _ _ => trivial) mtime
      rw [hput] at hwritten
      exact hwritten.grows

/-- **The invariant of a translation.**  Among objects of which those not recorded yet name only
each other, the recorded ids have complete closures, as long as what is written reads back. -/
theorem complete (h : Recording L g mtime a b) {G : Set GitId}
    (hG : ∀ x ∈ G, a.2.boleForGit x = none → ∀ y ∈ g.children x, y ∈ G) {m : IdentityMap}
    (hm : b.2.Below m) (hfaithful : a.1.Faithful L {obj | ∃ x, Translates g m x obj})
    (hstart : ∀ x ∈ G, ∀ id, a.2.boleForGit x = some id → Complete L a.1 id) :
    b.1.Faithful L {obj | ∃ x, Translates g m x obj} ∧
      ∀ x ∈ G, ∀ id, b.2.boleForGit x = some id → Complete L b.1 id := by
  induction h with
  | refl => exact ⟨hfaithful, hstart⟩
  | @write b x obj id s hab hnew htrans hput ih =>
      have hbm : b.2.Below m := (IdentityMap.below_insert hnew id).trans hm
      obtain ⟨hb, hcomplete⟩ := ih hbm
      have hok : (b.1.put L obj mtime).1 = .ok id := by rw [hput]
      obtain ⟨hs, hread⟩ := hb.put ⟨x, htrans.mono hbm⟩ hok
      have hgrows := (Recording.refl.write hnew htrans hput).grows
      rw [hput] at hs hread
      refine ⟨hs, fun y hy id' hid' => ?_⟩
      rw [IdentityMap.boleForGit_insert] at hid'
      split_ifs at hid' with hyx
      · subst hyx
        obtain rfl := Option.some.inj hid'
        -- it was not recorded at the start, so what it names is among the objects too
        have hnone : a.2.boleForGit y = none := by
          cases ha : a.2.boleForGit y with
          | none => rfl
          | some old =>
              rw [hab.map_below y old ha] at hnew
              cases hnew
        refine complete_of_edges (ObjectStore.object_eq_some.mpr hread) fun e he => ?_
        obtain ⟨z, hz, hid⟩ := htrans.edges he
        exact (hcomplete z (hG y hy hnone z hz) e hid).grows hgrows
      · exact (hcomplete y hy id' hid').grows hgrows

end Recording

/-! ### The translations record -/

/-- The store and the map of a translation. -/
def Translation.core (t : Translation) : ObjectStore × IdentityMap := (t.objects, t.map)

/-- Every object is above those it names: in git an id is a hash of a text with their ids. -/
def GitRepo.Ranked (g : GitRepo) (rank : GitId → ℕ) : Prop :=
  ∀ x, ∀ y ∈ g.children x, rank y < rank x

/-- What a translation of an object does: it records it, with nothing above it. -/
structure Translated (L : Linked) (g : GitRepo) (mtime : Option ℕ) (rank : GitId → ℕ) (x : GitId)
    (t t' : Translation) (id : ObjectId) : Prop where
  recording : Recording L g mtime t.core t'.core
  recorded : t'.map.boleForGit x = some id
  above : ∀ z, rank x < rank z → t'.map.boleForGit z = t.map.boleForGit z

variable {rank : GitId → ℕ} {t t' : Translation} {x : GitId} {id : ObjectId}

/-- An object that is recorded already. -/
lemma translated_of_recorded (h : t.map.boleForGit x = some id) :
    Translated L g mtime rank x t t id := ⟨.refl, h, fun _ _ => rfl⟩

/-- The end of a translation, after objects that are not above have been recorded. -/
lemma Translation.write_translated {u : Translation} {obj : Object}
    {count : ImportSummary → ImportSummary} (hu : Recording L g mtime t.core u.core)
    (habove : ∀ z, rank x ≤ rank z → u.map.boleForGit z = t.map.boleForGit z)
    (hnew : t.map.boleForGit x = none) (htrans : Translates g u.map x obj)
    (h : u.write L mtime false x obj count = (.ok id, t')) :
    Translated L g mtime rank x t t' id := by
  rw [write, writeObject] at h
  split at h
  · cases h
  · next id' s hput =>
      obtain ⟨hid, rfl⟩ := Prod.mk.inj h
      obtain rfl := Except.ok.inj hid
      have hnew' : u.map.boleForGit x = none := by rw [habove x le_rfl, hnew]
      refine ⟨hu.write hnew' htrans (by simpa [core] using hput), by simp, fun z hz => ?_⟩
      rw [IdentityMap.boleForGit_insert, if_neg, habove z hz.le]
      rintro rfl
      exact lt_irrefl _ hz

lemma gitResult_eq_ok {α : Type} {r : Except String α} {v : α} (h : gitResult r = .ok v) :
    r = .ok v := by
  cases r with
  | error msg => cases h
  | ok w => rw [Except.ok.inj h]

/-- An object that is found and converted. -/
lemma gitResult_bind_eq_ok {α : Type} {f : GitObject → Except String α} {v : α}
    (h : gitResult (g.findObject x >>= f) = .ok v) : ∃ o, g.findObject x = .ok o ∧ f o = .ok v :=
  Result.bind_eq_ok.mp (gitResult_eq_ok h)

lemma translateBlob_translated (h : translateBlob L g mtime false x t = (.ok id, t')) :
    Translated L g mtime rank x t t' id := by
  rw [translateBlob] at h
  split at h
  · next existing hrecorded =>
      obtain ⟨hid, rfl⟩ := Prod.mk.inj h
      rw [Except.ok.inj hid] at hrecorded
      exact translated_of_recorded hrecorded
  · next hnew =>
      split at h
      · cases h
      · next o ho =>
          exact Translation.write_translated .refl (fun _ _ => rfl) hnew
            (.blob (gitResult_eq_ok ho)) h

/-- The loop over the entries, given what the translation of the trees inside does. -/
lemma translateEntries_recording {subtree : GitId → Translation → Result ObjectId × Translation}
    (hsub : ∀ y u u' id, subtree y u = (.ok id, u') → Translated L g mtime rank y u u' id)
    {entries : List (Except String GitEntry)} {acc out : BTreeMap String TreeEntry}
    (h : translateEntries L g mtime false subtree entries acc t = (.ok out, t')) :
    Recording L g mtime t.core t'.core ∧
      (∀ z, (∀ y ∈ treeChildren entries, rank y < rank z) →
        t'.map.boleForGit z = t.map.boleForGit z) ∧
      (∀ y ∈ treeChildren entries, (t'.map.boleForGit y).isSome) ∧
      out = entries.foldl (addEntry t'.map.idOf) acc := by
  induction entries generalizing acc t with
  | nil =>
      obtain ⟨hout, rfl⟩ := Prod.mk.inj h
      exact ⟨.refl, fun _ _ => rfl, by simp [treeChildren], (Except.ok.inj hout).symm⟩
  | cons first rest ih =>
      cases first with
      | error msg => cases h
      | ok entry =>
          have hchild : ∀ y ∈ treeChildren rest, y ∈ treeChildren (.ok entry :: rest) := by
            intro y hy
            obtain ⟨e, he, hne, rfl⟩ := mem_treeChildren.mp hy
            exact mem_treeChildren.mpr ⟨e, List.mem_cons_of_mem _ he, hne, rfl⟩
          -- an entry whose object was translated, and the rest of the loop
          have hnext : ∀ (kind : EntryKind) (u : Translation) (id : ObjectId),
              entry.mode ≠ .commit →
              addEntry t'.map.idOf acc (.ok entry) =
                acc.insert entry.filename ⟨t'.map.idOf entry.oid, kind⟩ →
              Translated L g mtime rank entry.oid t u id →
              translateEntries L g mtime false subtree rest
                (acc.insert entry.filename ⟨id, kind⟩) u = (.ok out, t') →
              Recording L g mtime t.core t'.core ∧
                (∀ z, (∀ y ∈ treeChildren (.ok entry :: rest), rank y < rank z) →
                  t'.map.boleForGit z = t.map.boleForGit z) ∧
                (∀ y ∈ treeChildren (.ok entry :: rest), (t'.map.boleForGit y).isSome) ∧
                out = (.ok entry :: rest).foldl (addEntry t'.map.idOf) acc := by
            intro kind u id hmode hadd hfirst hrest
            obtain ⟨hrec, habove, hsome, hout⟩ := ih hrest
            have hkept : t'.map.boleForGit entry.oid = some id :=
              hrec.map_below _ _ hfirst.recorded
            have hmem : entry.oid ∈ treeChildren (.ok entry :: rest) :=
              mem_treeChildren.mpr ⟨entry, List.mem_cons_self, hmode, rfl⟩
            refine ⟨hfirst.recording.trans hrec, fun z hz => ?_, fun y hy => ?_, ?_⟩
            · rw [habove z fun y hy => hz y (hchild y hy), hfirst.above z (hz _ hmem)]
            · obtain ⟨e, he, hne, rfl⟩ := mem_treeChildren.mp hy
              rcases List.mem_cons.mp he with he | he
              · obtain rfl := Except.ok.inj he
                rw [hkept]
                rfl
              · exact hsome _ (mem_treeChildren.mpr ⟨e, he, hne, rfl⟩)
            · rw [hout, List.foldl_cons, hadd, IdentityMap.idOf, hkept]
              rfl
          rw [translateEntries] at h
          cases hmode : entry.mode with
          | commit =>
              simp only [hmode] at h
              obtain ⟨hrec, habove, hsome, hout⟩ := ih h
              refine ⟨hrec, fun z hz => habove z fun y hy => hz y (hchild y hy), fun y hy => ?_, ?_⟩
              · obtain ⟨e, he, hne, rfl⟩ := mem_treeChildren.mp hy
                rcases List.mem_cons.mp he with he | he
                · obtain rfl := Except.ok.inj he
                  exact absurd hmode hne
                · exact hsome _ (mem_treeChildren.mpr ⟨e, he, hne, rfl⟩)
              · rw [hout, List.foldl_cons]
                simp only [addEntry, hmode]
          | tree =>
              simp only [hmode] at h
              split at h
              · cases h
              · next id u hu =>
                  exact hnext .tree u id (by simp [hmode]) (by simp only [addEntry, hmode])
                    (hsub _ _ _ _ hu) h
          | blob =>
              simp only [hmode] at h
              split at h
              · cases h
              · next id u hu =>
                  exact hnext .blob u id (by simp [hmode]) (by simp only [addEntry, hmode])
                    (translateBlob_translated hu) h

lemma translateTree_translated (hrank : g.Ranked rank) {depth : ℕ}
    (h : translateTree L g mtime false depth x t = (.ok id, t')) :
    Translated L g mtime rank x t t' id := by
  induction depth generalizing x t t' id with
  | zero => cases h
  | succ depth ih =>
      rw [translateTree] at h
      split at h
      · next existing hrecorded =>
          obtain ⟨hid, rfl⟩ := Prod.mk.inj h
          rw [Except.ok.inj hid] at hrecorded
          exact translated_of_recorded hrecorded
      · next hnew =>
          split at h
          · cases h
          · next entries hentries =>
              obtain ⟨o, ho, htree⟩ := gitResult_bind_eq_ok hentries
              split at h
              · cases h
              · next out u hu =>
                  obtain ⟨hrec, habove, hsome, rfl⟩ := translateEntries_recording
                    (fun y u u' id hu => ih hu) hu
                  refine Translation.write_translated hrec (fun z hz => habove z fun y hy => ?_)
                    hnew (.tree ho htree hsome) h
                  refine lt_of_lt_of_le (hrank x y ?_) hz
                  simp only [GitRepo.children, ho, htree, List.mem_append]
                  exact Or.inr hy

lemma translateParents_eq_ok {m : IdentityMap} {pids : List GitId} {parents : List ObjectId}
    (h : translateParents m pids = .ok parents) :
    (∀ y ∈ pids, (m.boleForGit y).isSome) ∧ parents = pids.map m.idOf := by
  induction pids generalizing parents with
  | nil => exact ⟨by simp, (Except.ok.inj h).symm⟩
  | cons pid rest ih =>
      rw [translateParents] at h
      split at h
      · cases h
      · next bole hbole =>
          cases hrest : translateParents m rest with
          | error e =>
              rw [hrest] at h
              cases h
          | ok ids =>
              rw [hrest] at h
              obtain ⟨hsome, rfl⟩ := ih hrest
              refine ⟨fun y hy => ?_, ?_⟩
              · rcases List.mem_cons.mp hy with rfl | hy
                · rw [hbole]
                  rfl
                · exact hsome y hy
              · rw [List.map_cons, IdentityMap.idOf, hbole]
                exact (Except.ok.inj h).symm

lemma translateCommit_translated (hrank : g.Ranked rank) {depth : ℕ}
    (h : translateCommit L g mtime false depth x t = (.ok id, t')) :
    Translated L g mtime rank x t t' id := by
  rw [translateCommit] at h
  split at h
  · next existing hrecorded =>
      obtain ⟨hid, rfl⟩ := Prod.mk.inj h
      rw [Except.ok.inj hid] at hrecorded
      exact ⟨.refl, hrecorded, fun _ _ => rfl⟩
  · next hnew =>
      split at h
      · cases h
      next commit hcommit =>
      obtain ⟨o, ho, hc⟩ := gitResult_bind_eq_ok hcommit
      split at h
      · cases h
      next treeOid htree =>
      split at h
      · cases h
      next root u hu =>
      split at h
      · cases h
      next parents hparents =>
      split at h
      · cases h
      next author hauthor =>
      have htranslated := translateTree_translated hrank hu
      obtain ⟨hsome, rfl⟩ := translateParents_eq_ok hparents
      have hroot : u.map.idOf treeOid = root := by
        rw [IdentityMap.idOf, htranslated.recorded]
        rfl
      have hchild : ∀ y ∈ commitChildren commit, y ∈ g.children x := by
        intro y hy
        simp only [GitRepo.children, ho, hc, List.mem_append]
        exact Or.inl hy
      have htreeOid : treeOid ∈ commitChildren commit := by
        rw [commitChildren, gitResult_eq_ok htree]
        simp [Except.toOption]
      refine Translation.write_translated htranslated.recording (fun z hz => htranslated.above z
        (lt_of_lt_of_le (hrank x treeOid (hchild _ htreeOid)) hz)) hnew ?_ h
      rw [← hroot]
      refine .commit ho hc (gitResult_eq_ok htree) (gitResult_eq_ok hauthor) fun y hy => ?_
      rw [commitChildren, gitResult_eq_ok htree] at hy
      rcases List.mem_append.mp hy with hy | hy
      · obtain rfl : y = treeOid := by simpa [Except.toOption] using hy
        rw [htranslated.recorded]
        rfl
      · exact hsome y hy

/-- **The loop over the commits** records. -/
lemma translateCommits_recording (hrank : g.Ranked rank) {depth : ℕ} {commits : List GitId}
    (h : translateCommits L g mtime false depth commits t = (.ok (), t')) :
    Recording L g mtime t.core t'.core := by
  induction commits generalizing t with
  | nil =>
      obtain ⟨-, rfl⟩ := Prod.mk.inj h
      exact .refl
  | cons oid rest ih =>
      rw [translateCommits] at h
      split at h
      · cases h
      · next id u hu => exact (translateCommit_translated hrank hu).recording.trans (ih h)

/-! ### The refs of an import -/

/-- A ref after an operation is the old one or the one the operation makes. -/
lemma RefStore.get_readWrite {s : RefStore} {op : RefOp} {n : RefName} {v : Ref}
    (h : (s.readWrite op).2.get n = some v) :
    s.get n = some v ∨ op.next (s.get op.name) = .ok (some (some v)) := by
  rw [readWrite] at h
  split at h
  · exact Or.inl h
  · exact Or.inl h
  · next w hw =>
      have hmap := congrFun (map_write s (op.name, w)) n
      rw [Function.update_apply] at hmap
      have hget : (s.write (op.name, w)).get n = if n = op.name then w else s.get n := hmap
      rw [h] at hget
      split_ifs at hget with hn
      · rw [hw, ← hget]
        exact Or.inr rfl
      · exact Or.inl hget.symm

lemma get_createTimeline {s : RefStore} {name n : RefName} {head : ObjectId}
    {policy : TimelinePolicy} {now : ℕ} {kind : String} {expiresAt : Option ℕ} {v : Ref}
    (h : (s.createTimeline name head policy now kind expiresAt).2.get n = some v) :
    s.get n = some v ∨ v.target = head := by
  refine (RefStore.get_readWrite h).imp_right fun hnext => ?_
  simp only [RefOp.next] at hnext
  split_ifs at hnext
  simp only [Except.ok.injEq, Option.some.injEq] at hnext
  rw [← hnext]
  rfl

lemma get_createTag {s : RefStore} {name n : RefName} {target : ObjectId}
    {message : Option String} {now : ℕ} {v : Ref}
    (h : (s.createTag name target message now).2.get n = some v) :
    s.get n = some v ∨ v.target = target := by
  refine (RefStore.get_readWrite h).imp_right fun hnext => ?_
  simp only [RefOp.next] at hnext
  split_ifs at hnext
  simp only [Except.ok.injEq, Option.some.injEq] at hnext
  rw [← hnext]
  rfl

lemma get_advanceHead {s : RefStore} {name n : RefName} {newHead : ObjectId} {v : Ref}
    (h : (s.advanceHead name newHead).2.get n = some v) :
    s.get n = some v ∨ v.target = newHead := by
  refine (RefStore.get_readWrite h).imp_right fun hnext => ?_
  simp only [RefOp.next] at hnext
  split at hnext
  · simp only [Except.ok.injEq, Option.some.injEq] at hnext
    rw [← hnext]
    rfl
  · cases hnext
  · cases hnext

variable {opts : ImportOptions} {objects : ObjectStore} {m : IdentityMap} {p : RefPass}
  {n : RefName} {v : Ref}

/-- A branch makes a ref on its recorded head. -/
lemma importBranch_target {short : String} {head : GitId}
    (h : (importBranch L opts objects m short head p).2.refs.get n = some v) :
    p.refs.get n = some v ∨ m.boleForGit head = some v.target := by
  rw [importBranch] at h
  split at h
  · exact Or.inl h
  next name seen _ =>
  dsimp only at h
  split at h
  · exact Or.inl h
  next boleHead hhead =>
  rw [hhead, Option.some.injEq, eq_comm (a := boleHead)]
  split at h
  · exact Or.inl h
  · have hcreate : (p.refs.createTimeline name boleHead opts.timelinePolicy 0 "persistent"
        none).2.get n = some v := by
      split at h
      · next heq =>
          rw [heq]
          exact h
      · next heq =>
          rw [heq]
          exact h
    exact get_createTimeline hcreate
  · next tl _ =>
      split at h
      · exact Or.inl h
      split_ifs at h
      · exact Or.inl h
      · have hadvance : (p.refs.advanceHead name boleHead).2.get n = some v := by
          split at h
          · next heq =>
              rw [heq]
              exact h
          · next heq =>
              rw [heq]
              exact h
        exact get_advanceHead hadvance
      · exact Or.inl h

/-- A tag makes a ref on its recorded target. -/
lemma importTag_target {short : String} {target : GitId}
    (h : (importTag L g objects m short target p).2.refs.get n = some v) :
    p.refs.get n = some v ∨ m.boleForGit target = some v.target := by
  rw [importTag] at h
  split at h
  · exact Or.inl h
  next name seen _ =>
  rw [translateTag] at h
  split at h
  · exact Or.inl h
  next boleTarget htarget =>
  rw [htarget, Option.some.injEq, eq_comm (a := boleTarget)]
  split at h
  · exact Or.inl h
  next message createdAt _ =>
  split at h
  · exact Or.inl h
  · exact Or.inl h
  · have hcreate : (p.refs.createTag name boleTarget message createdAt).2.get n = some v := by
      split at h
      · next heq =>
          rw [heq]
          exact h
      · next heq =>
          rw [heq]
          exact h
    exact get_createTag hcreate

/-- What each turn makes is on a recorded id, so what the loop makes is. -/
lemma refLoop_target {turn : String → GitId → RefPass → Result Unit × RefPass}
    (hturn : ∀ short y p n v, (turn short y p).2.refs.get n = some v →
      p.refs.get n = some v ∨ m.boleForGit y = some v.target)
    {list : List (String × GitId)} (h : (refLoop turn list p).2.refs.get n = some v) :
    p.refs.get n = some v ∨ ∃ y ∈ list.map Prod.snd, m.boleForGit y = some v.target := by
  induction list generalizing p with
  | nil => exact Or.inl h
  | cons e rest ih =>
      obtain ⟨short, y⟩ := e
      rw [refLoop] at h
      have hhere : (turn short y p).2.refs.get n = some v →
          p.refs.get n = some v ∨ ∃ z ∈ ((short, y) :: rest).map Prod.snd,
            m.boleForGit z = some v.target := fun hget =>
        (hturn short y p n v hget).imp_right fun hy => ⟨y, by simp, hy⟩
      split at h
      · next heq =>
          rw [heq] at hhere
          exact hhere h
      · next heq =>
          rw [heq] at hhere
          rcases ih h with hget | ⟨z, hz, hid⟩
          · exact hhere hget
          · exact Or.inr ⟨z, List.mem_cons_of_mem _ hz, hid⟩

/-- What the refs of an import come from: the heads of its branches and the targets of its
tags. -/
def GitRefs.roots (refs : GitRefs) : List GitId :=
  refs.branches.map Prod.snd ++ refs.tags.map Prod.snd

/-- **The refs that an import makes** are on recorded ids of its roots. -/
lemma importRefs_target {refs : GitRefs} {store : RefStore}
    (h : (importRefs L opts g refs t store).2.refs.get n = some v) :
    store.get n = some v ∨ ∃ y ∈ refs.roots, t.map.boleForGit y = some v.target := by
  have hbranches : (refLoop (importBranch L opts t.objects t.map) refs.branches
      ⟨store, t.summary, ∅⟩).2.refs.get n = some v →
      store.get n = some v ∨ ∃ y ∈ refs.roots, t.map.boleForGit y = some v.target := fun hget =>
    (refLoop_target (fun _ _ _ _ _ => importBranch_target) hget).imp_right
      fun ⟨y, hy, hid⟩ => ⟨y, List.mem_append_left _ hy, hid⟩
  rw [importRefs] at h
  split at h
  · next heq =>
      rw [heq] at hbranches
      exact hbranches h
  · next heq =>
      rw [heq] at hbranches
      rcases refLoop_target (fun _ _ _ _ _ => importTag_target) h with hget | ⟨y, hy, hid⟩
      · exact hbranches hget
      · exact Or.inr ⟨y, List.mem_append_right _ hy, hid⟩

end Bole
