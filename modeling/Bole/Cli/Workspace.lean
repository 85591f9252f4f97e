import Bole.Refs.Linear
import Bole.Repo.Access
import Bole.Repo.DiskWorkspace

/-!
Opening a workspace for an actor: `open` and `add` of `bole-cli/src/commands/workspace.rs`, with
the actor registry of `bole-cli/src/actor.rs` and the references of `bole-cli/src/resolve.rs`.

Both commands bind the actor and then check out the head of the timeline with `materialize`,
which knows of no actor.

* `run_written`: what a command writes is what a checkout of the head writes;
* `written_subset`, `sameTree_of_agree`: where every path of the head is readable, the work tree
  shows nothing else;
* `workspace_confined`: and only there.
-/

namespace Bole

open Posix Collect

/-! ### Actors -/

/-- `ActorDef`: the globs and capabilities of its path and timeline roles. -/
structure ActorDef where
  pathRoles : List (String × Capability)
  timelineRoles : List (String × Capability)

/-- `to_accessor`. -/
def ActorDef.toAccessor (a : ActorDef) : Accessor :=
  a.timelineRoles.foldl (fun acc r => acc.withTimelineRole r.1 r.2)
    (a.pathRoles.foldl (fun acc r => acc.withPathRole r.1 r.2) .new)

/-- `full_access`. -/
def fullAccess : Accessor :=
  (((Accessor.new.withPathRole "**" .read).withPathRole "**" .write).withTimelineRole "**"
    .read).withTimelineRole "**" .write

/-! ### The context of the commands -/

/-- `CliState`. -/
structure CliState where
  currentTimeline : Option String
  currentActor : Option String
deriving DecidableEq

/-- `RepoContext`, with the file system and with the JSON files of the store as values: the
actors, the binding of this work tree, the registry of linked work trees and their bindings. -/
structure RepoContext where
  repo : Repository
  fs : Fs Bytes
  repoDir : List FileName
  workDir : List FileName
  actors : BTreeMap String ActorDef
  state : CliState
  worktrees : BTreeMap String (List FileName)
  bindings : BTreeMap String CliState

/-- `actor::get`. -/
def RepoContext.getActor (ctx : RepoContext) (name : String) : Except String ActorDef :=
  match ctx.actors[name]? with
  | some a => .ok a
  | none => .error ("no such actor: " ++ name)

/-- `actor::bind`. -/
def RepoContext.bindActor (ctx : RepoContext) (name : String) : Except String RepoContext :=
  if ctx.actors.contains name then
    .ok { ctx with state := { ctx.state with currentActor := some name } }
  else .error ("no such actor: " ++ name)

/-- The accessor of an actor, as `effective_accessor` builds it; without one there is full
access. -/
def RepoContext.accessorFor (ctx : RepoContext) : Option String → Except String Accessor
  | none => .ok fullAccess
  | some name =>
      match ctx.getActor name with
      | .ok a => .ok { a.toAccessor with actor := some name }
      | .error _ => .error ("bound actor '" ++ name ++ "' is not in the registry")

/-! ### References -/

/-- `hex_nibble`. -/
def hexNibble (c : Char) : Option ℕ :=
  if '0' ≤ c ∧ c ≤ '9' then some (c.toNat - '0'.toNat)
  else if 'a' ≤ c ∧ c ≤ 'f' then some (c.toNat - 'a'.toNat + 10)
  else none

/-- The bytes of pairs of hex digits. -/
def hexBytes : List Char → Option Bytes
  | [] => some []
  | [_] => none
  | hi :: lo :: rest =>
      match hexNibble hi, hexNibble lo, hexBytes rest with
      | some h, some l, some bytes => some (UInt8.ofNat (16 * h + l) :: bytes)
      | _, _, _ => none

/-- `ObjectId::from_str`. -/
def ObjectId.fromStr (s : String) : Option ObjectId :=
  match hexBytes s.toList with
  | some bytes => if h : bytes.length = 32 then some ⟨⟨bytes, h⟩⟩ else none
  | none => none

/-- `ref_name`. -/
def cliRefName (s : String) : Except String RefName :=
  match RefName.new s with
  | .ok n => .ok n
  | .error _ => .error ("invalid ref name '" ++ s ++ "': invalid ref name: " ++
      (refNameError s).getD "")

/-- `timeline_head`. -/
def RepoContext.timelineHead (ctx : RepoContext) (name : String) : Except String ObjectId := do
  let n ← cliRefName name
  match ctx.repo.refs.getTimeline n with
  | .error _ => .error ("reading timeline '" ++ name ++ "'")
  | .ok (some t) => .ok t.head
  | .ok none => .error ("no such timeline: " ++ name)

/-- `tag_target`. -/
def RepoContext.tagTarget (ctx : RepoContext) (name : String) : Except String ObjectId := do
  let n ← cliRefName name
  match ctx.repo.refs.getTag n with
  | .error _ => .error ("reading tag '" ++ name ++ "'")
  | .ok (some t) => .ok t.target
  | .ok none => .error ("no such tag: " ++ name)

/-- `is_ascii_hexdigit`. -/
def isHexDigit (c : Char) : Bool :=
  ('0' ≤ c ∧ c ≤ '9') ∨ ('a' ≤ c ∧ c ≤ 'f') ∨ ('A' ≤ c ∧ c ≤ 'F')

/-- `resolve::snapshot`. -/
def RepoContext.resolveSnapshot (ctx : RepoContext) (spec : String) : Except String ObjectId :=
  match spec.toList with
  | ['@'] =>
      match ctx.state.currentTimeline with
      | some name => ctx.timelineHead name
      | none =>
          .error "no timeline is bound; use `bole workspace open <timeline>` or name one explicitly"
  | '@' :: 't' :: 'a' :: 'g' :: ':' :: tag => ctx.tagTarget (String.ofList tag)
  | '@' :: name => ctx.timelineHead (String.ofList name)
  | chars =>
      if chars.length = 64 ∧ chars.all isHexDigit then
        match ObjectId.fromStr spec with
        | some id => .ok id
        | none =>
            .error ("invalid object id '" ++ spec ++ "': expected 64 lowercase hex characters")
      else do
        let n ← cliRefName spec
        match ctx.repo.refs.get n with
        | some r => .ok r.target
        | none => .error ("no such ref: " ++ spec)

/-! ### The commands -/

/-- What a command returns, the context it leaves, and the files its checkout has written. -/
structure Opened where
  result : Option (Except String Unit)
  ctx : RepoContext
  written : List (List FileName)

/-- A command that fails before its checkout. -/
def Opened.failed (ctx : RepoContext) (msg : String) : Opened := ⟨some (.error msg), ctx, []⟩

/-- The end of both commands: the checkout of a head, and `done` if it succeeds. -/
def RepoContext.checkout (L : Linked) (fuel : ℕ) (ctx : RepoContext) (head : ObjectId)
    (dest : List FileName) (context : String) (done : RepoContext → RepoContext) : Opened :=
  match materialize L ctx.repo.objects fuel head dest ctx.fs with
  | (none, c) => ⟨none, { ctx with fs := c.fs }, c.written⟩
  | (some (.error _), c) => ⟨some (.error context), { ctx with fs := c.fs }, c.written⟩
  | (some (.ok ()), c) => ⟨some (.ok ()), done { ctx with fs := c.fs }, c.written⟩

/-- The timeline that `--create` makes. -/
def RepoContext.createFrom (ctx : RepoContext) (timeline : String) (source : Option String)
    (now : ℕ) : Except String RepoContext := do
  match source with
  | none => .error "--create requires --from <snapshot>"
  | some source =>
      let head ← ctx.resolveSnapshot source
      let n ← cliRefName timeline
      match ctx.repo.refs.createTimeline n head .unrestricted now "persistent" none with
      | (.error _, _) => .error ("creating timeline '" ++ timeline ++ "'")
      | (.ok (), refs) => .ok { ctx with repo := { ctx.repo with refs := refs } }

/-- `open`. -/
def RepoContext.openWorkspace (L : Linked) (fuel : ℕ) (ctx : RepoContext) (timeline : String)
    (create : Bool) (source actor : Option String) (now : ℕ) : Opened :=
  match (match actor with | some name => ctx.bindActor name | none => .ok ctx) with
  | .error msg => .failed ctx msg
  | .ok ctx =>
      match (if create then ctx.createFrom timeline source now else .ok ctx) with
      | .error msg => .failed ctx msg
      | .ok ctx =>
          match ctx.timelineHead timeline with
          | .error msg => .failed ctx msg
          | .ok head =>
              ctx.checkout L fuel head ctx.workDir "materialising timeline head into work tree"
                fun ctx => { ctx with
                  state := { ctx.state with currentTimeline := some timeline } }

/-- The character that `allocate_id` keeps or replaces. -/
def idChar (c : Char) : Char :=
  if c.isAlphanum || c = '-' || c = '_' then c else '-'

/-- `allocate_id`: one of the first numbers is free. -/
def RepoContext.allocateId (ctx : RepoContext) (path : List FileName) : String :=
  let base := String.ofList (((path.getLast?).elim ("worktree".toList) FileName.chars).map idChar)
  if ctx.worktrees.contains base then
    (((List.range (ctx.worktrees.size + 1)).map fun n => base ++ "-" ++ toString (n + 2)).find?
      fun id => !ctx.worktrees.contains id).getD base
  else base

/-- `display` of a location. -/
def displayPath (l : List FileName) : String := "/" ++ relPath l

/-- Whether something has the path. -/
def pathExists (l : List FileName) (n : FileName) (fs : Fs Bytes) : Bool :=
  ((dirAt l fs).bind (· n)).isSome

/-- `add`, for a directory at a location; `json` writes the pointer file. -/
def RepoContext.addWorkspace (L : Linked) (json : List FileName → String → Bytes) (fuel : ℕ)
    (ctx : RepoContext) (path : List FileName) (timeline : String) (actor : Option String) :
    Opened :=
  match ctx.timelineHead timeline with
  | .error msg => .failed ctx msg
  | .ok head =>
      match (match actor with | some name => (ctx.getActor name).map some | none => .ok none) with
      | .error msg => .failed ctx msg
      | .ok _ =>
          if pathExists path repoDirName ctx.fs then
            .failed ctx (displayPath (path ++ [repoDirName]) ++ " already exists")
          else
            match createDirAll (path.map FileName.chars) ctx.fs with
            | (.error _, fs) => .failed { ctx with fs := fs } ("creating " ++ displayPath path)
            | (.ok (), fs) =>
                let id := ctx.allocateId path
                let ctx := { ctx with
                  fs := fs, bindings := ctx.bindings.insert id ⟨some timeline, actor⟩ }
                match writeFile ((path ++ [repoDirName]).map FileName.chars)
                    (json ctx.repoDir id) ctx.fs with
                | .error _ => .failed ctx ("writing " ++ displayPath (path ++ [repoDirName]))
                | .ok (_, fs) =>
                    RepoContext.checkout L fuel
                      { ctx with fs := fs, worktrees := ctx.worktrees.insert id path } head path
                      "materialising timeline head into new worktree" fun ctx => ctx

/-- A call of one of the two commands. -/
inductive WorkspaceCommand where
  | openAs (timeline : String) (create : Bool) (source actor : Option String) (now : ℕ)
  | add (path : List FileName) (timeline : String) (actor : Option String)

namespace WorkspaceCommand

/-- The timeline of a command. -/
def timeline : WorkspaceCommand → String
  | openAs timeline _ _ _ _ => timeline
  | add _ timeline _ => timeline

/-- The actor of a command. -/
def actor : WorkspaceCommand → Option String
  | openAs _ _ _ actor _ => actor
  | add _ _ actor => actor

/-- The work tree a command writes into. -/
def workTree (ctx : RepoContext) : WorkspaceCommand → List FileName
  | openAs _ _ _ _ _ => ctx.workDir
  | add path _ _ => path

/-- The command. -/
def run (L : Linked) (json : List FileName → String → Bytes) (fuel : ℕ) (ctx : RepoContext) :
    WorkspaceCommand → Opened
  | openAs timeline create source actor now =>
      ctx.openWorkspace L fuel timeline create source actor now
  | add path timeline actor => ctx.addWorkspace L json fuel path timeline actor

/-- The file system that the checkout of a command finds. -/
def prepared (json : List FileName → String → Bytes) (ctx : RepoContext) :
    WorkspaceCommand → Fs Bytes
  | openAs _ _ _ _ _ => ctx.fs
  | add path _ _ =>
      match writeFile ((path ++ [repoDirName]).map FileName.chars)
          (json ctx.repoDir (ctx.allocateId path)) (createDirAll (path.map FileName.chars) ctx.fs).2
        with
      | .ok (_, fs) => fs
      | .error _ => ctx.fs

end WorkspaceCommand

/-! ### What the commands write -/

variable {L : Linked} {json : List FileName → String → Bytes} {fuel : ℕ} {ctx : RepoContext}

/-- What a command has done once it has come to its checkout. -/
structure ChecksOut (L : Linked) (fuel : ℕ) (repo : Repository) (timeline : String)
    (dest : List FileName) (fs : Fs Bytes) (o : Opened) : Prop where
  objects_eq : o.ctx.repo.objects = repo.objects
  acls_eq : o.ctx.repo.acls = repo.acls
  exists_checkout : ∃ head r c, o.ctx.timelineHead timeline = .ok head ∧
    materialize L repo.objects fuel head dest fs = (r, c) ∧ o.written = c.written ∧
    o.ctx.fs = c.fs ∧ (o.result = some (.ok ()) → r = some (.ok ()))

lemma ChecksOut.congr {repo repo' : Repository} {timeline : String} {dest : List FileName}
    {fs : Fs Bytes} {o : Opened} (hobjects : repo.objects = repo'.objects)
    (hacls : repo.acls = repo'.acls) (h : ChecksOut L fuel repo timeline dest fs o) :
    ChecksOut L fuel repo' timeline dest fs o := by
  obtain ⟨ho, ha, hc⟩ := h
  rw [hobjects] at ho hc
  rw [hacls] at ha
  exact ⟨ho, ha, hc⟩

/-- The end of both commands. -/
lemma checksOut_checkout (ctx : RepoContext) {head : ObjectId} {dest : List FileName}
    {timeline context : String} {done : RepoContext → RepoContext}
    (hhead : ctx.timelineHead timeline = .ok head)
    (hdone : ∀ c, (done c).repo = c.repo ∧ (done c).fs = c.fs) :
    ChecksOut L fuel ctx.repo timeline dest ctx.fs
      (ctx.checkout L fuel head dest context done) := by
  have hsame : ∀ c c' : RepoContext, c.repo = c'.repo →
      c.timelineHead timeline = c'.timelineHead timeline := by
    intro c c' h
    simp only [RepoContext.timelineHead, h]
  rw [RepoContext.checkout]
  split
  · next c hm => exact ⟨rfl, rfl, head, _, c, hhead, hm, rfl, rfl, nofun⟩
  · next e c hm => exact ⟨rfl, rfl, head, _, c, hhead, hm, rfl, rfl, nofun⟩
  · next c hm =>
      obtain ⟨hrepo, hfs⟩ := hdone { ctx with fs := c.fs }
      refine ⟨congrArg Repository.objects hrepo, congrArg Repository.acls hrepo, head, _, c, ?_, hm,
        rfl, hfs, fun _ => rfl⟩
      exact (hsame _ ctx hrepo).trans hhead

lemma createFrom_eq_ok {ctx' : RepoContext} {timeline : String} {source : Option String} {now : ℕ}
    (h : ctx.createFrom timeline source now = .ok ctx') :
    ctx'.repo.objects = ctx.repo.objects ∧ ctx'.repo.acls = ctx.repo.acls ∧ ctx'.fs = ctx.fs ∧
      ctx'.workDir = ctx.workDir := by
  unfold RepoContext.createFrom at h
  split at h
  · cases h
  · obtain ⟨head, -, h⟩ := Result.bind_eq_ok.mp h
    obtain ⟨n, -, h⟩ := Result.bind_eq_ok.mp h
    split at h
    · cases h
    · cases h
      exact ⟨rfl, rfl, rfl, rfl⟩

/-- Binding an actor changes the binding. -/
lemma bindActor_eq_ok {ctx' : RepoContext} {actor : Option String}
    (h : (match actor with | some name => ctx.bindActor name | none => .ok ctx) = .ok ctx') :
    ctx'.repo = ctx.repo ∧ ctx'.fs = ctx.fs ∧ ctx'.workDir = ctx.workDir := by
  cases actor with
  | none =>
      cases h
      exact ⟨rfl, rfl, rfl⟩
  | some name =>
      simp only [RepoContext.bindActor] at h
      split_ifs at h
      cases h
      exact ⟨rfl, rfl, rfl⟩

lemma openWorkspace_written {timeline : String} {create : Bool} {source actor : Option String}
    {now : ℕ} {o : Opened}
    (h : ctx.openWorkspace L fuel timeline create source actor now = o) :
    (∃ msg, o.result = some (.error msg) ∧ o.written = []) ∨
      ChecksOut L fuel ctx.repo timeline ctx.workDir ctx.fs o := by
  unfold RepoContext.openWorkspace at h
  split at h
  · subst h
    exact Or.inl ⟨_, rfl, rfl⟩
  · next ctx₁ hbind =>
      obtain ⟨hrepo, hfs, hdir⟩ := bindActor_eq_ok hbind
      split at h
      · subst h
        exact Or.inl ⟨_, rfl, rfl⟩
      · next ctx₂ hcreate =>
          obtain ⟨hobjects, hacls, hfs', hdir'⟩ : ctx₂.repo.objects = ctx₁.repo.objects ∧
              ctx₂.repo.acls = ctx₁.repo.acls ∧ ctx₂.fs = ctx₁.fs ∧
                ctx₂.workDir = ctx₁.workDir := by
            split_ifs at hcreate
            · exact createFrom_eq_ok hcreate
            · cases hcreate
              exact ⟨rfl, rfl, rfl, rfl⟩
          split at h
          · subst h
            exact Or.inl ⟨_, rfl, rfl⟩
          · next head hhead =>
              subst h
              rw [← hfs, ← hdir, ← hfs', ← hdir', ← hrepo]
              refine Or.inr (ChecksOut.congr hobjects hacls ?_)
              exact checksOut_checkout ctx₂ hhead fun c => ⟨rfl, rfl⟩

lemma addWorkspace_written {path : List FileName} {timeline : String} {actor : Option String}
    {o : Opened} (h : ctx.addWorkspace L json fuel path timeline actor = o) :
    (∃ msg, o.result = some (.error msg) ∧ o.written = []) ∨
      ChecksOut L fuel ctx.repo timeline path
        ((WorkspaceCommand.add path timeline actor).prepared json ctx) o := by
  unfold RepoContext.addWorkspace at h
  split at h
  · subst h
    exact Or.inl ⟨_, rfl, rfl⟩
  · next head hhead =>
      split at h
      · subst h
        exact Or.inl ⟨_, rfl, rfl⟩
      · split_ifs at h
        · subst h
          exact Or.inl ⟨_, rfl, rfl⟩
        · split at h
          · subst h
            exact Or.inl ⟨_, rfl, rfl⟩
          · next fs hd =>
              dsimp only at h
              split at h
              · subst h
                exact Or.inl ⟨_, rfl, rfl⟩
              · next l fs' hw =>
                  subst h
                  have hprepared : (WorkspaceCommand.add path timeline actor).prepared json ctx =
                      fs' := by
                    simp only [WorkspaceCommand.prepared, hd, hw]
                  rw [hprepared]
                  exact Or.inr (checksOut_checkout { ctx with
                    fs := fs'
                    bindings := ctx.bindings.insert (ctx.allocateId path) ⟨some timeline, actor⟩
                    worktrees := ctx.worktrees.insert (ctx.allocateId path) path }
                    hhead fun c => ⟨rfl, rfl⟩)

/-- **What a command writes** is what a checkout of the timeline's head writes, if it gets so
far. -/
lemma run_written {cmd : WorkspaceCommand} {o : Opened} (h : cmd.run L json fuel ctx = o) :
    (∃ msg, o.result = some (.error msg) ∧ o.written = []) ∨
      ChecksOut L fuel ctx.repo cmd.timeline (cmd.workTree ctx) (cmd.prepared json ctx)
        o := by
  cases cmd with
  | openAs timeline create source actor now => exact openWorkspace_written h
  | add path timeline actor => exact addWorkspace_written h

/-! ### Confinement -/

/-- The files a command writes into its work tree are among the paths the actor is shown. -/
def Confined (dest : List FileName) (written : List (List FileName)) (view : FilteredSnapshot) :
    Prop :=
  ∀ names, names ≠ [] → dest ++ names ∈ written → relPath names ∈ view.visiblePaths

/-- Two repositories agree on the paths the actor is shown, and on their bytes. -/
def AgreeOn (L : Linked) (s s' : ObjectStore) (view view' : FilteredSnapshot) : Prop :=
  ∀ p : String, (view.visiblePaths[p]?).map (blobData L s) =
    (view'.visiblePaths[p]?).map (blobData L s')

/-- Two work trees have the same files. -/
def SameTree (dest : List FileName) (fs fs' : Fs Bytes) : Prop :=
  ∀ names, names ≠ [] →
    FileTree.lookup (dest ++ names) fs = FileTree.lookup (dest ++ names) fs'

/-- Every file of a snapshot has a path that the accessor is shown. -/
def AllVisible (L : Linked) (r : Repository) (fuel : ℕ) (head : ObjectId) (accessor : Accessor) :
    Prop :=
  ∀ lattice rules, r.acls.getLattice = .ok lattice → r.acls.getLabelRuleset = .ok rules →
    ∀ e ∈ snapshotFiles L r.objects fuel head, visible lattice rules accessor e.1 = true

/-- A head whose checkout is faithful and holds nothing that the accessor is not shown. -/
structure Readable (L : Linked) (r : Repository) (fuel : ℕ) (head : ObjectId)
    (accessor : Accessor) : Prop where
  clean : CheckoutClean L r.objects fuel head
  last : ∀ n paths, snapshotPaths L r.objects n head = .ok (some paths) →
    LastCounts L r.objects fuel head paths
  visible : AllVisible L r fuel head accessor

lemma Readable.congr {r r' : Repository} {head : ObjectId} {accessor : Accessor}
    (h : Readable L r fuel head accessor) (hobjects : r'.objects = r.objects)
    (hacls : r'.acls = r.acls) : Readable L r' fuel head accessor := by
  obtain ⟨hclean, hlast, hvisible⟩ := h
  refine ⟨by rwa [hobjects], by rwa [hobjects], ?_⟩
  rwa [AllVisible, hobjects, hacls]

section Confinement

variable {r r' : Repository} {head head' : ObjectId} {accessor : Accessor}
  {view view' : FilteredSnapshot} {dest : List FileName} {fs : Fs Bytes} {c c' : Checkout}
  {result : Option (Result Unit)}

/-- The files of a tree are below its root. -/
lemma showsPath_of_mem_treeFiles {s : ObjectStore} {root id : ObjectId} {pfx : String}
    (hbelow : Below L s root "" id pfx) {e : String × ObjectId}
    (he : e ∈ treeFiles L s fuel id pfx) : ShowsPath L s root "" e.1 := by
  induction fuel generalizing id pfx with
  | zero => cases he
  | succ fuel ih =>
      rw [treeFiles] at he
      split at he
      · next t hg =>
          rcases mem_flatMap_entryFiles.mp he with he | ⟨x, hx, he⟩
          · exact ⟨id, pfx, t, e.2, hbelow, hg, he⟩
          · exact ih (hbelow.sub hg hx) he
      · cases he

/-- A command writes nothing that the actor is not shown, if there is nothing else. -/
lemma written_subset (hm : materialize L r.objects fuel head dest fs = (result, c))
    (hclean : CheckoutClean L r.objects fuel head) (hvisible : AllVisible L r fuel head accessor)
    (hview : r.getSnapshotFiltered L head accessor = .ok (some view)) :
    Confined dest c.written view := by
  obtain ⟨snap, lattice, rules, hsnap, hl, hr, hwalk⟩ := getSnapshotFiltered_eq_some hview
  intro names hne hwritten
  obtain ⟨added, hlog, hadded⟩ := (materialize_wrote hm hclean).log
  rw [hlog, List.nil_append] at hwritten
  obtain ⟨e, he, names', -, hrel, heq⟩ := hadded _ hwritten
  obtain rfl := List.append_cancel_left heq
  have hshow : e ∈ treeFiles L r.objects fuel snap.root "" := by
    rwa [snapshotFiles, hsnap] at he
  rw [hrel, mem_walkTreeFiltered hwalk]
  exact ⟨hvisible lattice rules hl hr e he, showsPath_of_mem_treeFiles .root hshow⟩

/-- A checkout that succeeds and writes nothing that the actor is not shown has nothing else. -/
lemma allVisible_of_confined
    (hm : materialize L r.objects fuel head dest fs = (some (.ok ()), c))
    (hclean : CheckoutClean L r.objects fuel head)
    (hview : r.getSnapshotFiltered L head accessor = .ok (some view))
    (h : Confined dest c.written view) : AllVisible L r fuel head accessor := by
  obtain ⟨snap, lattice, rules, hsnap, hl, hr, hwalk⟩ := getSnapshotFiltered_eq_some hview
  intro lattice' rules' hl' hr' e he
  obtain rfl : lattice = lattice' := Except.ok.inj (hl.symm.trans hl')
  obtain rfl : rules = rules' := Except.ok.inj (hr.symm.trans hr')
  obtain ⟨names, hne, hrel, hmem⟩ := (materialize_wrote hm hclean).all rfl e he
  have hshown := h names hne hmem
  rw [hrel, mem_walkTreeFiltered hwalk] at hshown
  exact hshown.1

/-- The work tree of a readable head is what the actor is shown, over what was there. -/
lemma lookup_of_readable (hm : materialize L r.objects fuel head dest fs = (some (.ok ()), c))
    (hread : Readable L r fuel head accessor)
    (hview : r.getSnapshotFiltered L head accessor = .ok (some view)) {names : List FileName}
    (hne : names ≠ []) :
    FileTree.lookup (dest ++ names) c.fs =
      ((view.visiblePaths[relPath names]?).map (blobData L r.objects)).elim
        (FileTree.lookup (dest ++ names) fs) id := by
  obtain ⟨snap, lattice, rules, hsnap, hl, hr, hwalk⟩ := getSnapshotFiltered_eq_some hview
  obtain ⟨snap', hsnap', hopens⟩ := materialize_opens hm
  obtain rfl : snap = snap' := by simpa [hsnap] using hsnap'
  obtain ⟨n, paths, hpaths, hkeys, -⟩ := snapshotPaths_of_opens hsnap hopens
  -- nothing is filtered out
  have hfull : walkTree L r.objects n snap.root "" ∅ = .ok (some paths) := by
    rwa [snapshotPaths, hsnap] at hpaths
  have hall : view.visiblePaths = paths := by
    rw [walkTreeFiltered_eq hfull hwalk]
    refine Std.ExtTreeMap.ext_getElem? fun p => ?_
    rw [getElem?_restrict]
    by_cases hp : p ∈ paths
    · obtain ⟨id, hid⟩ := (hkeys p).mp hp
      rw [if_pos (hread.visible lattice rules hl hr _ hid)]
    · rw [Std.ExtTreeMap.getElem?_eq_none hp, ite_self]
  rw [(materialize_wrote hm hread.clean).files rfl fs ∅ (filesAre_empty fs) names hne, hall]
  have hlast := hread.last n paths hpaths (relPath names)
  have hmem : relPath names ∈ insertAll (fun _ => true) (snapshotFiles L r.objects fuel head)
      (∅ : BTreeMap String ObjectId) ↔ relPath names ∈ paths := by
    rw [mem_insertAll, hkeys]
    simp
  rw [Std.ExtTreeMap.mem_iff_isSome_getElem?, Std.ExtTreeMap.mem_iff_isSome_getElem?] at hmem
  cases hx : (insertAll (fun _ => true) (snapshotFiles L r.objects fuel head) ∅)[relPath names]?
    with
  | none =>
      cases hy : paths[relPath names]? with
      | none => rfl
      | some y => simp [hx, hy] at hmem
  | some x =>
      cases hy : paths[relPath names]? with
      | none => simp [hx, hy] at hmem
      | some y => simpa [hx, hy] using hlast

/-- A head is readable if a checkout of it succeeds, no two of its files have the same path, and
all are shown. -/
lemma readable_of_checkout
    (hm : materialize L r.objects fuel head dest fs = (some (.ok ()), c))
    (hclean : CheckoutClean L r.objects fuel head)
    (hdistinct : ∀ e ∈ snapshotFiles L r.objects fuel head,
      ∀ e' ∈ snapshotFiles L r.objects fuel head, e.1 = e'.1 → e.2 = e'.2)
    (hvisible : AllVisible L r fuel head accessor) : Readable L r fuel head accessor := by
  refine ⟨hclean, fun n paths hpaths => ?_, hvisible⟩
  obtain ⟨snap, hsnap, hopens⟩ := materialize_opens hm
  obtain ⟨n', paths', hpaths', hkeys, hvalues⟩ := snapshotPaths_of_opens hsnap hopens
  obtain rfl := snapshotPaths_unique hpaths hpaths'
  exact lastCounts_of_distinct hkeys hvalues fun p id id' hid hid' => hdistinct _ hid _ hid' rfl

/-- Work trees of readable heads that agree on what the actor is shown are the same. -/
lemma sameTree_of_agree (hm : materialize L r.objects fuel head dest fs = (some (.ok ()), c))
    (hm' : materialize L r'.objects fuel head' dest fs = (some (.ok ()), c'))
    (hread : Readable L r fuel head accessor) (hread' : Readable L r' fuel head' accessor)
    (hview : r.getSnapshotFiltered L head accessor = .ok (some view))
    (hview' : r'.getSnapshotFiltered L head' accessor = .ok (some view'))
    (hagree : AgreeOn L r.objects r'.objects view view') : SameTree dest c.fs c'.fs := by
  intro names hne
  rw [lookup_of_readable hm hread hview hne, lookup_of_readable hm' hread' hview' hne, hagree]

end Confinement

/-- **A workspace opened for an actor.**  Where every path of the head is one that the actor is
shown, a command writes only such paths, and two repositories that agree on them give the same
work tree.  A command that succeeds on a head whose paths have proper segments writes only such
paths if there are no others. -/
theorem workspace_confined {cmd : WorkspaceCommand} {repo' : Repository} {accessor : Accessor}
    {o o' : Opened} {head head' : ObjectId} {view view' : FilteredSnapshot}
    (h : cmd.run L json fuel ctx = o) (h' : cmd.run L json fuel { ctx with repo := repo' } = o')
    (hhead : o.ctx.timelineHead cmd.timeline = .ok head)
    (hhead' : o'.ctx.timelineHead cmd.timeline = .ok head')
    (hview : o.ctx.repo.getSnapshotFiltered L head accessor = .ok (some view))
    (hview' : o'.ctx.repo.getSnapshotFiltered L head' accessor = .ok (some view')) :
    (Readable L o.ctx.repo fuel head accessor → Readable L o'.ctx.repo fuel head' accessor →
      Confined (cmd.workTree ctx) o.written view ∧ Confined (cmd.workTree ctx) o'.written view' ∧
        (o.result = some (.ok ()) → o'.result = some (.ok ()) →
          AgreeOn L o.ctx.repo.objects o'.ctx.repo.objects view view' →
          SameTree (cmd.workTree ctx) o.ctx.fs o'.ctx.fs)) ∧
      (o.result = some (.ok ()) → CheckoutClean L o.ctx.repo.objects fuel head →
        Confined (cmd.workTree ctx) o.written view →
        AllVisible L o.ctx.repo fuel head accessor) := by
  have hsame : ∀ dest view, Confined dest [] view := fun dest view names _ h => by cases h
  have htree : cmd.workTree { ctx with repo := repo' } = cmd.workTree ctx := by cases cmd <;> rfl
  have hprepared : cmd.prepared json { ctx with repo := repo' } = cmd.prepared json ctx := by
    cases cmd <;> rfl
  have hrun := run_written h
  have hrun' := run_written h'
  rw [htree, hprepared] at hrun'
  refine ⟨fun hread hread' => ⟨?_, ?_, fun hok hok' hagree => ?_⟩, fun hok hclean hconf => ?_⟩
  · rcases hrun with ⟨msg, -, hnil⟩ | ⟨hobjects, -, head₁, r, c, hhead₁, hm, hwritten, -⟩
    · rw [hnil]
      exact hsame _ _
    · obtain rfl : head = head₁ := Except.ok.inj (hhead.symm.trans hhead₁)
      rw [← hobjects] at hm
      rw [hwritten]
      exact written_subset hm hread.clean hread.visible hview
  · rcases hrun' with ⟨msg, -, hnil⟩ | ⟨hobjects, -, head₁, r, c, hhead₁, hm, hwritten, -⟩
    · rw [hnil]
      exact hsame _ _
    · obtain rfl : head' = head₁ := Except.ok.inj (hhead'.symm.trans hhead₁)
      rw [← hobjects] at hm
      rw [hwritten]
      exact written_subset hm hread'.clean hread'.visible hview'
  · rcases hrun with ⟨msg, herr, -⟩ | ⟨hobjects, -, head₁, r, c, hhead₁, hm, -, hfs, hres⟩
    · rw [hok] at herr
      cases herr
    rcases hrun' with ⟨msg, herr, -⟩ | ⟨hobjects', -, head₂, r', c', hhead₂, hm', -, hfs', hres'⟩
    · rw [hok'] at herr
      cases herr
    obtain rfl : head = head₁ := Except.ok.inj (hhead.symm.trans hhead₁)
    obtain rfl : head' = head₂ := Except.ok.inj (hhead'.symm.trans hhead₂)
    rw [← hobjects, hres hok] at hm
    rw [← hobjects', hres' hok'] at hm'
    rw [hfs, hfs']
    exact sameTree_of_agree hm hm' hread hread' hview hview' hagree
  · rcases hrun with ⟨msg, herr, -⟩ | ⟨hobjects, -, head₁, r, c, hhead₁, hm, hwritten, -, hres⟩
    · rw [hok] at herr
      cases herr
    obtain rfl : head = head₁ := Except.ok.inj (hhead.symm.trans hhead₁)
    rw [← hobjects, hres hok] at hm
    rw [hwritten] at hconf
    exact allVisible_of_confined hm hclean hview hconf

/-! ### A guest -/

def guestTimeline : RefName := ⟨"main", RefName.valid_main⟩

/-- A repository whose timeline has a file `src/x`, with the given globs protected. -/
def guestRepo (protectedGlobs : List String) : Repository :=
  { Repository.memory with
    objects := checkoutStore
    acls := .shipped protectedGlobs [] []
    refs := ⟨(∅ : BTreeMap RefName Ref).insert guestTimeline
      (.timeline ⟨plainSnapshot, .unrestricted, 0, "persistent", none⟩)⟩ }

/-- An actor without grants, and an empty work tree. -/
def guestContext (protectedGlobs : List String) : RepoContext where
  repo := guestRepo protectedGlobs
  fs := checkoutFs
  repoDir := [repoDirName]
  workDir := [workDir]
  actors := (∅ : BTreeMap String ActorDef).insert "guest" ⟨[], []⟩
  state := ⟨none, none⟩
  worktrees := ∅
  bindings := ∅

/-- `workspace open main --as guest`. -/
def openAsGuest : WorkspaceCommand := .openAs "main" false none (some "guest") 0

/-- The accessor of the guest. -/
def guestAccessor : Accessor := { Accessor.new with actor := some "guest" }

/-- What the command does. -/
def guestOpened (protectedGlobs : List String) : Opened :=
  openAsGuest.run checkoutLinked (fun _ _ => []) 3 (guestContext protectedGlobs)

def srcDir : FileName := ⟨['s', 'r', 'c'], by decide⟩

def xFile : FileName := ⟨['x'], by decide⟩

/-- What the guest is shown. -/
def guestView (protectedGlobs : List String) : Option FilteredSnapshot :=
  ((guestOpened protectedGlobs).ctx.repo.getSnapshotFiltered checkoutLinked plainSnapshot
    guestAccessor).toOption.bind id

lemma getSnapshotFiltered_of_guestView {protectedGlobs : List String} {view : FilteredSnapshot}
    (h : guestView protectedGlobs = some view) :
    (guestOpened protectedGlobs).ctx.repo.getSnapshotFiltered checkoutLinked plainSnapshot
      guestAccessor = .ok (some view) := by
  rw [guestView] at h
  cases hg : (guestOpened protectedGlobs).ctx.repo.getSnapshotFiltered checkoutLinked plainSnapshot
      guestAccessor with
  | error e => simp [hg, Except.toOption] at h
  | ok v =>
      rw [hg] at h
      exact congrArg Except.ok h

/-- **A protected file in the work tree of a guest.** -/
theorem workspace_leaks :
    (guestContext ["src/**"]).accessorFor openAsGuest.actor = .ok guestAccessor ∧
      (guestOpened ["src/**"]).result = some (.ok ()) ∧
      (guestOpened ["src/**"]).ctx.timelineHead openAsGuest.timeline = .ok plainSnapshot ∧
      ∃ view, (guestOpened ["src/**"]).ctx.repo.getSnapshotFiltered checkoutLinked plainSnapshot
          guestAccessor = .ok (some view) ∧
        ¬ Confined [workDir] (guestOpened ["src/**"]).written view := by
  refine ⟨rfl, by decide +kernel, by decide +kernel, ?_⟩
  have hhidden : (guestView ["src/**"]).map (fun v => v.visiblePaths.contains "src/x") =
      some false := by decide +kernel
  have hwritten : [workDir, srcDir, xFile] ∈ (guestOpened ["src/**"]).written := by decide +kernel
  have hrel : relPath [srcDir, xFile] = "src/x" := by decide +kernel
  obtain ⟨view, hview, hnot⟩ := Option.map_eq_some_iff.mp hhidden
  refine ⟨view, getSnapshotFiltered_of_guestView hview, fun h => ?_⟩
  have hshown := h [srcDir, xFile] (by simp) hwritten
  rw [hrel, ← Std.ExtTreeMap.contains_iff_mem, hnot] at hshown
  cases hshown

lemma guestRepo_eq (protectedGlobs : List String) :
    (guestRepo protectedGlobs).objects = checkoutStore ∧
      (guestRepo protectedGlobs).acls = .shipped protectedGlobs [] [] := by
  simp only [guestRepo, and_self]

lemma guestOpened_eq (protectedGlobs : List String) :
    openAsGuest.run checkoutLinked (fun _ _ => []) 3 (guestContext protectedGlobs) =
      guestOpened protectedGlobs := rfl

lemma guestContext_eq (protectedGlobs : List String) :
    { guestContext protectedGlobs with repo := (guestContext protectedGlobs).repo } =
      guestContext protectedGlobs ∧ openAsGuest.workTree (guestContext protectedGlobs) =
        [workDir] ∧ (guestContext protectedGlobs).repo = guestRepo protectedGlobs := ⟨rfl, rfl, rfl⟩

/-- The head of an unprotected repository is readable for the guest. -/
lemma guest_readable : Readable checkoutLinked (guestRepo []) 3 plainSnapshot guestAccessor := by
  have hdistinct : ∀ e ∈ snapshotFiles checkoutLinked checkoutStore 3 plainSnapshot,
      ∀ e' ∈ snapshotFiles checkoutLinked checkoutStore 3 plainSnapshot,
        e.1 = e'.1 → e.2 = e'.2 := by decide +kernel
  have hvisible : ∀ e ∈ snapshotFiles checkoutLinked checkoutStore 3 plainSnapshot,
      visible .twoPoint (derivedRules [] [] []) guestAccessor e.1 = true := by decide +kernel
  have hclean : CheckoutClean checkoutLinked checkoutStore 3 plainSnapshot := by
    rw [CheckoutClean]
    decide +kernel
  have hok : (materialize checkoutLinked checkoutStore 3 plainSnapshot [workDir] checkoutFs).1 =
      some (.ok ()) := by decide +kernel
  obtain ⟨hobjects, hacls⟩ := guestRepo_eq []
  rw [← hobjects] at hdistinct hvisible hclean hok
  refine readable_of_checkout (eq_mk_of_fst hok) hclean hdistinct ?_
  intro lattice rules hl hr e he
  rw [hacls] at hl hr
  cases hl
  cases hr
  exact hvisible e he

/-- The guest opens the unprotected repository and is shown what it finds. -/
theorem workspace_confined_unprotected :
    ∃ view, (guestOpened []).ctx.repo.getSnapshotFiltered checkoutLinked plainSnapshot
        guestAccessor = .ok (some view) ∧ Confined [workDir] (guestOpened []).written view := by
  have hok : (guestOpened []).result = some (.ok ()) := by decide +kernel
  have hhead : (guestOpened []).ctx.timelineHead openAsGuest.timeline = .ok plainSnapshot := by
    decide +kernel
  have hview : (guestView []).isSome = true := by decide +kernel
  obtain ⟨view, hview⟩ := Option.isSome_iff_exists.mp hview
  have hview := getSnapshotFiltered_of_guestView hview
  have hrun := guestOpened_eq []
  obtain ⟨hctx, hdir, hrepo⟩ := guestContext_eq []
  have hread : Readable checkoutLinked (guestOpened []).ctx.repo 3 plainSnapshot
      guestAccessor := by
    rcases run_written hrun with ⟨msg, herr, -⟩ | ⟨hobjects, hacls, -⟩
    · rw [hok] at herr
      cases herr
    · rw [hrepo] at hobjects hacls
      exact guest_readable.congr hobjects hacls
  have hrun' := hrun
  rw [← hctx] at hrun'
  have hconfined := ((workspace_confined hrun hrun' hhead hhead hview hview).1 hread hread).1
  rw [hdir] at hconfined
  exact ⟨view, hview, hconfined⟩

end Bole
