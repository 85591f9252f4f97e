import Bole.Cli.Workspace
import Bole.Lib.Run

/-!
The registry of linked work trees: `bole-cli/src/worktrees.rs` and `add`, `remove`, `prune` and
`repair` of `bole-cli/src/commands/workspace.rs`, over runs.

An entry is classified by the pointer file that is found at its path.  Pruning an entry deletes
its metadata, and where the pointer names another id, the pointer file.

* `classify_eq_ok`: when an entry is healthy;
* `pruneEntry_gone`, `pruneEntry_kept`: what one turn of `prune` deletes and what it leaves;
* `prune_keeps_iff`: **pruning keeps the healthy entries exactly if no other entry has the path
  of one and no stale entry has its metadata above one**, and so it does in every run that
  registers each path once;
* `prune_breaks`: a work tree that was made anew at its old path loses its pointer.
-/

namespace Bole

open Posix Transition

/-! ### Pointers -/

/-- `Pointer`, with the location that the path of the store leads to. -/
structure Pointer where
  store : List FileName
  id : String
deriving DecidableEq

/-- `Status`. -/
inductive WorktreeStatus where
  | ok
  | missingDirectory
  | missingPointer
  | badPointer (msg : String)
  | wrongId (found : String)
  | wrongStore (found : List FileName)
deriving DecidableEq

namespace WorktreeStatus

/-- `as_str`. -/
def asStr : WorktreeStatus → String
  | ok => "ok"
  | missingDirectory => "missing-directory"
  | missingPointer => "missing-pointer"
  | badPointer _ => "bad-pointer"
  | wrongId _ => "wrong-id"
  | wrongStore _ => "wrong-store"

/-- `is_ok`. -/
def isOk : WorktreeStatus → Bool
  | ok => true
  | _ => false

/-- `is_prunable`. -/
def isPrunable : WorktreeStatus → Bool
  | missingDirectory | missingPointer | badPointer _ | wrongId _ => true
  | _ => false

/-- `is_recoverable`. -/
def isRecoverable : WorktreeStatus → Bool
  | wrongStore _ => true
  | _ => false

end WorktreeStatus

/-- `canonicalize` of a location: without links it is itself, if something is there. -/
def canonicalize (fs : Fs Bytes) (l : List FileName) : Option (List FileName) :=
  if (dirAt l fs).isSome || (FileTree.lookup l fs).isSome then some l else none

/-- `same_path`. -/
def samePath (fs : Fs Bytes) (a b : List FileName) : Bool :=
  match canonicalize fs a, canonicalize fs b with
  | some x, some y => x = y
  | _, _ => a = b

/-- The pointer file of a work tree. -/
def pointerPath (path : List FileName) : List FileName := path ++ [repoDirName]

/-- `classify`; `parse` reads a pointer. -/
def classify (parse : Bytes → Except String Pointer) (fs : Fs Bytes) (repoDir : List FileName)
    (id : String) (path : List FileName) : WorktreeStatus :=
  if (dirAt path fs).isNone then .missingDirectory
  else
    match FileTree.lookup (pointerPath path) fs with
    | none => .missingPointer
    | some bytes =>
        match parse bytes with
        | .error msg => .badPointer msg
        | .ok ptr =>
            if ptr.id ≠ id then .wrongId ptr.id
            else if samePath fs ptr.store repoDir then .ok
            else .wrongStore ptr.store

/-! ### The registry -/

/-- The characters of `validate_id`. -/
def idSafe (c : Char) : Bool := c.isAlphanum || c = '-' || c = '_'

/-- `validate_id`. -/
def validateId (id : String) : Except String Unit :=
  if id.toList.isEmpty || !id.toList.all idSafe then
    .error ("invalid worktree id \"" ++ id ++ "\": must be alphanumeric / '-' / '_'")
  else .ok ()

/-- `worktrees`, the directory of the metadata in the store. -/
def worktreesName : FileName :=
  ⟨['w', 'o', 'r', 'k', 't', 'r', 'e', 'e', 's'], by decide⟩

/-- `registry_path`. -/
def registryPath (repoDir : List FileName) : List FileName :=
  repoDir ++ [⟨"worktrees.json".toList, by decide⟩]

/-- The name of an entry, if it can be one. -/
def idName (id : String) : Option FileName :=
  if h : id.toList ≠ [] ∧ id.toList ≠ ['.'] ∧ id.toList ≠ ['.', '.'] ∧ '/' ∉ id.toList ∧
      '\x00' ∉ id.toList then
    some ⟨id.toList, h⟩
  else none

/-- `meta_dir`, of an id that is a name. -/
def metaDir (repoDir : List FileName) (id : String) : Option (List FileName) :=
  (idName id).map fun n => repoDir ++ [worktreesName, n]

/-- `remove_file`, where a file is. -/
def removeFileAt (p : List FileName) (fs : Fs Bytes) : Fs Bytes :=
  match FileTree.remove p fs with
  | .ok fs' => fs'
  | .error _ => fs

/-- What `prune` tells: the entries that it pruned with their status, and the number of clean
ones. -/
structure PruneReport where
  pruned : List (String × List FileName × String)
  clean : ℕ

namespace RepoContext

/-- `load`, of a registry that can be parsed. -/
def loadRegistry (ctx : RepoContext) : Except String (BTreeMap String (List FileName)) :=
  match ctx.worktrees.keys.mapM validateId with
  | .error _ => .error ("in registry " ++ displayPath (registryPath ctx.repoDir))
  | .ok _ => .ok ctx.worktrees

/-- The status of an entry of the registry. -/
def classify (parse : Bytes → Except String Pointer) (ctx : RepoContext) (id : String)
    (path : List FileName) : WorktreeStatus :=
  Bole.classify parse ctx.fs ctx.repoDir id path

/-- `remove_dir_all` of the metadata of an entry, its binding with it. -/
def removeMeta (ctx : RepoContext) (id : String) : RepoContext :=
  { ctx with
    fs := match metaDir ctx.repoDir id with
      | some dir => FileTree.removeTree dir ctx.fs
      | none => ctx.fs
    bindings := ctx.bindings.erase id }

/-- Removing the pointer file of a work tree, if it is a file. -/
def removePointer (ctx : RepoContext) (path : List FileName) : RepoContext :=
  if (FileTree.lookup (pointerPath path) ctx.fs).isSome then
    { ctx with fs := removeFileAt (pointerPath path) ctx.fs }
  else ctx

/-! ### `prune` -/

/-- What `prune` deletes with an entry: its metadata, and only the pointer file of a work tree that
survives. -/
def dropEntry (status : WorktreeStatus) (id : String) (path : List FileName) (ctx : RepoContext) :
    RepoContext :=
  let ctx := ctx.removeMeta id
  let ctx := match status with
    | .badPointer _ | .wrongId _ => ctx.removePointer path
    | _ => ctx
  { ctx with worktrees := ctx.worktrees.erase id }

/-- One turn of `prune`. -/
def pruneEntry (parse : Bytes → Except String Pointer) (dryRun includeRecoverable : Bool)
    (acc : RepoContext × PruneReport) (id : String) : RepoContext × PruneReport :=
  let (ctx, report) := acc
  match ctx.worktrees[id]? with
  -- an id is taken from the registry once
  | none => acc
  | some path =>
      let status := ctx.classify parse id path
      if !(status.isPrunable || (includeRecoverable && status.isRecoverable)) then
        (ctx, if status.isOk then { report with clean := report.clean + 1 } else report)
      else
        let report := { report with pruned := report.pruned ++ [(id, path, status.asStr)] }
        (if dryRun then ctx else ctx.dropEntry status id path, report)

/-- `prune`. -/
def prune (parse : Bytes → Except String Pointer) (dryRun includeRecoverable : Bool)
    (ctx : RepoContext) : Except String PruneReport × RepoContext :=
  match ctx.loadRegistry with
  | .error msg => (.error msg, ctx)
  | .ok registry =>
      match registry.keys.foldl (pruneEntry parse dryRun includeRecoverable) (ctx, ⟨[], 0⟩) with
      | (ctx, report) => (.ok report, ctx)

/-! ### `remove` -/

/-- `remove`: the first entry with the path. -/
def removeWorktree (ctx : RepoContext) (path : List FileName) : Except String Unit × RepoContext :=
  match ctx.loadRegistry with
  | .error msg => (.error msg, ctx)
  | .ok registry =>
      match registry.toList.find? fun e => e.2 = path with
      | none => (.error ("no linked worktree registered at " ++ displayPath path), ctx)
      | some (id, _) =>
          let ctx := (ctx.removePointer path).removeMeta id
          (.ok (), { ctx with worktrees := ctx.worktrees.erase id })

/-! ### `repair` -/

/-- The pointer that `repair` reads in a directory. -/
def readPointer (parse : Bytes → Except String Pointer) (ctx : RepoContext)
    (path : List FileName) : Except String Pointer :=
  match canonicalize ctx.fs path with
  | none => .error ("resolving " ++ displayPath path)
  | some canon =>
      match FileTree.lookup (pointerPath canon) ctx.fs with
      | none => .error ("reading pointer at " ++ displayPath canon)
      | some bytes =>
          match parse bytes with
          | .error _ => .error "parsing pointer"
          | .ok ptr =>
              if samePath ctx.fs ptr.store ctx.repoDir then .ok ptr
              else .error ("pointer store '" ++ displayPath ptr.store ++
                "' does not match this store")

/-- The loop of `repair_store_moved`. -/
def rewritePointers (parse : Bytes → Except String Pointer) (json : List FileName → String → Bytes)
    (dryRun : Bool) :
    List (String × List FileName) → RepoContext → Except String Unit × RepoContext
  | [], ctx => (.ok (), ctx)
  | (id, path) :: rest, ctx =>
      if (ctx.classify parse id path).isRecoverable && !dryRun then
        match writeFile ((pointerPath path).map FileName.chars) (json ctx.repoDir id) ctx.fs with
        | .error _ => (.error ("rewriting pointer for " ++ id), ctx)
        | .ok (_, fs) => rewritePointers parse json dryRun rest { ctx with fs := fs }
      else rewritePointers parse json dryRun rest ctx

/-- `repair_store_moved`. -/
def repairStoreMoved (parse : Bytes → Except String Pointer)
    (json : List FileName → String → Bytes) (dryRun : Bool) (ctx : RepoContext) :
    Except String Unit × RepoContext :=
  match ctx.loadRegistry with
  | .error msg => (.error msg, ctx)
  | .ok registry => rewritePointers parse json dryRun registry.toList ctx

/-- `repair_moved`. -/
def repairMoved (parse : Bytes → Except String Pointer) (dryRun : Bool) (path : List FileName)
    (id : String) (ctx : RepoContext) : Except String Unit × RepoContext :=
  match ctx.loadRegistry with
  | .error msg => (.error msg, ctx)
  | .ok registry =>
      if !registry.contains id then
        (.error ("no such worktree id '" ++ id ++ "'; did you mean --adopt?"), ctx)
      else
        match ctx.readPointer parse path with
        | .error msg => (.error msg, ctx)
        | .ok ptr =>
            if ptr.id ≠ id then
              (.error ("pointer id '" ++ ptr.id ++ "' does not match '" ++ id ++ "'"), ctx)
            else if dryRun then (.ok (), ctx)
            else (.ok (), { ctx with worktrees := registry.insert id path })

/-- `repair_adopt`. -/
def repairAdopt (parse : Bytes → Except String Pointer) (dryRun : Bool) (path : List FileName)
    (ctx : RepoContext) : Except String Unit × RepoContext :=
  match ctx.readPointer parse path with
  | .error msg => (.error msg, ctx)
  | .ok ptr =>
      match ctx.loadRegistry with
      | .error msg => (.error msg, ctx)
      | .ok registry =>
          match registry[ptr.id]? with
          | some existing =>
              if samePath ctx.fs existing path then (.ok (), ctx)
              else
                (.error ("id '" ++ ptr.id ++ "' is already registered at '" ++
                  displayPath existing ++ "'; use --moved-to to update"), ctx)
          | none =>
              if dryRun then (.ok (), ctx)
              else
                (.ok (), { ctx with
                  worktrees := registry.insert ptr.id path
                  bindings := ctx.bindings.insertIfNew ptr.id ⟨none, none⟩ })

/-- `repair`. -/
def repair (parse : Bytes → Except String Pointer) (json : List FileName → String → Bytes)
    (dryRun : Bool) (movedTo adopt : Option (List FileName)) (id : Option String)
    (ctx : RepoContext) : Except String Unit × RepoContext :=
  match adopt, movedTo, id with
  | some path, _, _ => ctx.repairAdopt parse dryRun path
  | none, some path, some id => ctx.repairMoved parse dryRun path id
  | none, some _, none => (.error "--moved-to requires a worktree id", ctx)
  | none, none, _ => ctx.repairStoreMoved parse json dryRun

/-! ### `add` -/

/-- The checks of `add` before it makes the directory. -/
def addChecks (ctx : RepoContext) (path : List FileName) (timeline : String)
    (actor : Option String) : Except String Unit := do
  let _ ← ctx.timelineHead timeline
  match actor with
  | some name => let _ ← ctx.getActor name
  | none => pure ()
  if pathExists path repoDirName ctx.fs then
    .error (displayPath (pointerPath path) ++ " already exists")
  else .ok ()

/-- `add`: after its checks and the directory, the registry has to be readable. -/
def addWorktree (L : Linked) (json : List FileName → String → Bytes) (fuel : ℕ)
    (ctx : RepoContext) (path : List FileName) (timeline : String) (actor : Option String) :
    Opened :=
  match ctx.loadRegistry with
  | .ok _ => ctx.addWorkspace L json fuel path timeline actor
  | .error msg =>
      match ctx.addChecks path timeline actor with
      | .error msg => .failed ctx msg
      | .ok _ =>
          match createDirAll (path.map FileName.chars) ctx.fs with
          | (.error _, fs) => .failed { ctx with fs := fs } ("creating " ++ displayPath path)
          | (.ok (), fs) => .failed { ctx with fs := fs } msg

end RepoContext

/-! ### Histories -/

/-- A command, or a change of the file system by someone else: a directory that is moved,
deleted or made anew. -/
inductive RegistryOp where
  | add (path : List FileName) (timeline : String) (actor : Option String) (fuel : ℕ)
  | remove (path : List FileName)
  | prune (dryRun includeRecoverable : Bool)
  | repair (dryRun : Bool) (movedTo adopt : Option (List FileName)) (id : Option String)
  | edit (fs : Fs Bytes)

/-- The context that it leaves. -/
def RegistryOp.run (L : Linked) (parse : Bytes → Except String Pointer)
    (json : List FileName → String → Bytes) (ctx : RepoContext) : RegistryOp → RepoContext
  | add path timeline actor fuel => (ctx.addWorktree L json fuel path timeline actor).ctx
  | remove path => (ctx.removeWorktree path).2
  | prune dryRun includeRecoverable => (ctx.prune parse dryRun includeRecoverable).2
  | repair dryRun movedTo adopt id => (ctx.repair parse json dryRun movedTo adopt id).2
  | edit fs => { ctx with fs := fs }

/-- One step of a history. -/
def RegistryStep (L : Linked) (parse : Bytes → Except String Pointer)
    (json : List FileName → String → Bytes) (ctx : RepoContext) (op : RegistryOp)
    (ctx' : RepoContext) : Prop :=
  op.run L parse json ctx = ctx'

/-! ### Entries -/

variable {L : Linked} {parse : Bytes → Except String Pointer}
  {json : List FileName → String → Bytes} {ctx ctx' : RepoContext} {id : String}
  {path : List FileName}

/-- An entry that is classified `Ok`. -/
def Healthy (parse : Bytes → Except String Pointer) (ctx : RepoContext) (id : String)
    (path : List FileName) : Prop :=
  ctx.worktrees[id]? = some path ∧ ctx.classify parse id path = .ok

/-- Every healthy entry is still there after `prune`, with its pointer file, and healthy. -/
def PruneKeeps (parse : Bytes → Except String Pointer) (ctx : RepoContext) : Prop :=
  ∀ dryRun includeRecoverable id path, Healthy parse ctx id path →
    let after := (ctx.prune parse dryRun includeRecoverable).2
    after.worktrees[id]? = some path ∧
      (FileTree.lookup (pointerPath path) after.fs).isSome ∧
      after.classify parse id path = .ok

/-- No other entry has the path of a healthy one, and no other one that is stale has its metadata
above it. -/
def HealthyApart (parse : Bytes → Except String Pointer) (ctx : RepoContext) : Prop :=
  ∀ id path id' path', Healthy parse ctx id path → ctx.worktrees[id']? = some path' → id' ≠ id →
    path' ≠ path ∧ (ctx.classify parse id' path' ≠ .ok →
      ∀ dir, metaDir ctx.repoDir id' = some dir → ¬ dir <+: path)

lemma samePath_iff {fs : Fs Bytes} {a b : List FileName} : samePath fs a b = true ↔ a = b := by
  have hsome : ∀ l x, canonicalize fs l = some x → x = l := by
    intro l x h
    rw [canonicalize] at h
    split_ifs at h
    exact (Option.some.inj h).symm
  rw [samePath]
  split
  · next x y hx hy => rw [decide_eq_true_iff, hsome a x hx, hsome b y hy]
  · exact decide_eq_true_iff

/-- **When an entry is healthy**: its pointer can be read and names it and the store. -/
theorem classify_eq_ok : ctx.classify parse id path = .ok ↔
    ∃ bytes, FileTree.lookup (pointerPath path) ctx.fs = some bytes ∧
      parse bytes = .ok ⟨ctx.repoDir, id⟩ := by
  rw [RepoContext.classify, classify]
  constructor
  · intro h
    split_ifs at h with hdir
    split at h
    · cases h
    · next bytes hbytes =>
        split at h
        · cases h
        · next ptr hptr =>
            split_ifs at h with hid hstore
            refine ⟨bytes, hbytes, hptr.trans ?_⟩
            rw [← samePath_iff.mp hstore, ← not_not.mp hid]
  · rintro ⟨bytes, hbytes, hparse⟩
    have hdir := dirAt_of_lookup (l := path) (n := repoDirName) hbytes
    rw [if_neg (by rwa [Option.isNone_iff_eq_none, ← ne_eq, ← Option.isSome_iff_ne_none])]
    simp [hbytes, hparse, samePath_iff.mpr]

/-! ### What one turn deletes -/

/-- `prune` deletes the pointer file of an entry with the status. -/
def WorktreeStatus.losesPointer : WorktreeStatus → Bool
  | badPointer _ | wrongId _ => true
  | _ => false

/-- The files that go with an entry. -/
def GoesWith (parse : Bytes → Except String Pointer) (ctx : RepoContext) (id : String)
    (path q : List FileName) : Prop :=
  (∃ dir, metaDir ctx.repoDir id = some dir ∧ dir <+: q ∧ q ≠ dir) ∨
    ((ctx.classify parse id path).losesPointer = true ∧ q = pointerPath path)

open Classical in
/-- An entry was pruned: it is gone with its files, and nothing else is. -/
structure Pruned (parse : Bytes → Except String Pointer) (ctx : RepoContext) (id : String)
    (path : List FileName) (ctx' : RepoContext) : Prop where
  repoDir_eq : ctx'.repoDir = ctx.repoDir
  worktrees_eq : ctx'.worktrees = ctx.worktrees.erase id
  lookup_eq : ∀ q, FileTree.lookup q ctx'.fs =
    if GoesWith parse ctx id path q then none else FileTree.lookup q ctx.fs

lemma lookup_removeFileAt {p : List FileName} {fs : Fs Bytes} (q : List FileName)
    (h : (FileTree.lookup p fs).isSome) :
    FileTree.lookup q (removeFileAt p fs) = if q = p then none else FileTree.lookup q fs := by
  have hopen : ¬ FileTree.Blocked p fs := by
    rintro ⟨e, he⟩
    simp [FileTree.lookup, he] at h
  obtain ⟨fs', hfs'⟩ := (FileTree.remove_ok_iff p fs).mpr hopen
  rw [removeFileAt, hfs']
  exact FileTree.lookup_remove hfs' q

lemma lookup_removePointer (ctx : RepoContext) (path q : List FileName) :
    FileTree.lookup q (ctx.removePointer path).fs =
      if q = pointerPath path then none else FileTree.lookup q ctx.fs := by
  rw [RepoContext.removePointer]
  by_cases hfile : (FileTree.lookup (pointerPath path) ctx.fs).isSome
  · rw [if_pos hfile, lookup_removeFileAt q hfile]
  · rw [if_neg hfile]
    split_ifs with heq
    · rw [heq]
      simpa using hfile
    · rfl

open Classical in
lemma lookup_removeMeta (ctx : RepoContext) (id : String) (q : List FileName) :
    FileTree.lookup q (ctx.removeMeta id).fs =
      if ∃ dir, metaDir ctx.repoDir id = some dir ∧ dir <+: q ∧ q ≠ dir then none
      else FileTree.lookup q ctx.fs := by
  rw [RepoContext.removeMeta]
  cases hdir : metaDir ctx.repoDir id with
  | none => simp
  | some dir =>
      have hne : dir ≠ [] := by
        obtain ⟨n, -, rfl⟩ := Option.map_eq_some_iff.mp hdir
        simp
      simp [FileTree.lookup_removeTree hne]

@[simp] lemma removePointer_repoDir : (ctx.removePointer path).repoDir = ctx.repoDir := by
  rw [RepoContext.removePointer]
  split_ifs <;> rfl

@[simp] lemma removePointer_worktrees : (ctx.removePointer path).worktrees = ctx.worktrees := by
  rw [RepoContext.removePointer]
  split_ifs <;> rfl

/-- What is deleted with an entry of any status. -/
lemma dropEntry_eq (status : WorktreeStatus) (id : String) (path : List FileName)
    (ctx : RepoContext) :
    ctx.dropEntry status id path =
      { (if status.losesPointer then (ctx.removeMeta id).removePointer path
          else ctx.removeMeta id) with worktrees := ctx.worktrees.erase id } := by
  cases status <;> simp [RepoContext.dropEntry, WorktreeStatus.losesPointer, RepoContext.removeMeta]

lemma pruned_dropEntry (parse : Bytes → Except String Pointer) (ctx : RepoContext) (id : String)
    (path : List FileName) :
    Pruned parse ctx id path (ctx.dropEntry (ctx.classify parse id path) id path) := by
  have hmeta := lookup_removeMeta ctx id
  have hptr := lookup_removePointer (ctx.removeMeta id) path
  simp only [hmeta] at hptr
  have hdir : (ctx.removeMeta id).repoDir = ctx.repoDir := rfl
  rw [dropEntry_eq]
  cases hlose : (ctx.classify parse id path).losesPointer with
  | false =>
      refine ⟨rfl, rfl, fun q => ?_⟩
      simp only [GoesWith, hlose, Bool.false_eq_true, false_and, or_false, if_false, hmeta]
  | true =>
      refine ⟨?_, rfl, fun q => ?_⟩
      · rw [if_pos rfl]
        exact removePointer_repoDir.trans hdir
      · simp only [GoesWith, hlose, true_and, if_true, hptr]
        by_cases hq : q = pointerPath path
        · rw [if_pos hq, if_pos (Or.inr hq)]
        · simp only [hq, or_false, if_false]

/-- **One turn of `prune`** leaves everything as it is or prunes an entry that is not healthy. -/
theorem pruneEntry_cases (parse : Bytes → Except String Pointer) (dryRun incl : Bool)
    (acc : RepoContext × PruneReport) (id : String) :
    (RepoContext.pruneEntry parse dryRun incl acc id).1 = acc.1 ∨
      ∃ path, acc.1.worktrees[id]? = some path ∧ acc.1.classify parse id path ≠ .ok ∧
        Pruned parse acc.1 id path (RepoContext.pruneEntry parse dryRun incl acc id).1 := by
  obtain ⟨ctx, report⟩ := acc
  rw [RepoContext.pruneEntry]
  dsimp only
  split
  · exact Or.inl rfl
  · next path hpath =>
      split_ifs with hclean hok hdry
      · exact Or.inl rfl
      · exact Or.inl rfl
      · exact Or.inl rfl
      · refine Or.inr ⟨path, hpath, fun hok => ?_, pruned_dropEntry parse ctx id path⟩
        rw [hok] at hclean
        simp [WorktreeStatus.isPrunable, WorktreeStatus.isRecoverable] at hclean

/-- With `--include-recoverable` every entry that is not healthy is pruned at its turn. -/
lemma pruned_pruneEntry {acc : RepoContext × PruneReport} (hpath : acc.1.worktrees[id]? = some path)
    (hstale : acc.1.classify parse id path ≠ .ok) :
    Pruned parse acc.1 id path (RepoContext.pruneEntry parse false true acc id).1 := by
  obtain ⟨ctx, report⟩ := acc
  rw [RepoContext.pruneEntry]
  dsimp only at hpath hstale ⊢
  rw [hpath]
  dsimp only
  rw [if_neg]
  · exact pruned_dropEntry parse ctx id path
  · cases hs : ctx.classify parse id path <;>
      simp_all [WorktreeStatus.isPrunable, WorktreeStatus.isRecoverable]

/-! ### What the loop deletes -/

/-- Files and entries that are deleted, and nothing else that becomes different. -/
structure Shrunk (s t : RepoContext) : Prop where
  repoDir_eq : t.repoDir = s.repoDir
  files : ∀ q, FileTree.lookup q t.fs = none ∨ FileTree.lookup q t.fs = FileTree.lookup q s.fs
  entries : ∀ id : String, t.worktrees[id]? = none ∨ t.worktrees[id]? = s.worktrees[id]?

lemma Shrunk.refl (s : RepoContext) : Shrunk s s :=
  ⟨rfl, fun _ => Or.inr rfl, fun _ => Or.inr rfl⟩

lemma Shrunk.trans {s t u : RepoContext} (h : Shrunk s t) (h' : Shrunk t u) : Shrunk s u := by
  refine ⟨h'.repoDir_eq.trans h.repoDir_eq, fun q => ?_, fun id => ?_⟩
  · rcases h'.files q with hq | hq
    · exact Or.inl hq
    · rw [hq]
      exact h.files q
  · rcases h'.entries id with hid | hid
    · exact Or.inl hid
    · rw [hid]
      exact h.entries id

lemma Pruned.shrunk (h : Pruned parse ctx id path ctx') : Shrunk ctx ctx' := by
  refine ⟨h.repoDir_eq, fun q => ?_, fun id' => ?_⟩
  · rw [h.lookup_eq]
    split_ifs
    · exact Or.inl rfl
    · exact Or.inr rfl
  · rw [h.worktrees_eq, Std.ExtTreeMap.getElem?_erase]
    split_ifs
    · exact Or.inl rfl
    · exact Or.inr rfl

/-- What is healthy after files were deleted was healthy before. -/
lemma Shrunk.classify {s t : RepoContext} (h : Shrunk s t)
    (ht : t.classify parse id path = .ok) : s.classify parse id path = .ok := by
  obtain ⟨bytes, hbytes, hparse⟩ := classify_eq_ok.mp ht
  rcases h.files (pointerPath path) with hq | hq
  · rw [hq] at hbytes
    cases hbytes
  · rw [hq] at hbytes
    rw [h.repoDir_eq] at hparse
    exact classify_eq_ok.mpr ⟨bytes, hbytes, hparse⟩

/-- The loop of `prune`. -/
def pruneLoop (parse : Bytes → Except String Pointer) (dryRun incl : Bool)
    (acc : RepoContext × PruneReport) (ids : List String) : RepoContext × PruneReport :=
  ids.foldl (RepoContext.pruneEntry parse dryRun incl) acc

lemma shrunk_pruneLoop (parse : Bytes → Except String Pointer) (dryRun incl : Bool)
    (ids : List String) (acc : RepoContext × PruneReport) :
    Shrunk acc.1 (pruneLoop parse dryRun incl acc ids).1 := by
  induction ids generalizing acc with
  | nil => exact .refl _
  | cons id ids ih =>
      refine Shrunk.trans ?_ (ih (RepoContext.pruneEntry parse dryRun incl acc id))
      rcases pruneEntry_cases parse dryRun incl acc id with h | ⟨path, -, -, h⟩
      · rw [h]
        exact .refl _
      · exact h.shrunk

/-- An entry stays registered until its turn. -/
lemma pruneLoop_worktrees {dryRun incl : Bool} {ids : List String} (hid : id ∉ ids)
    (acc : RepoContext × PruneReport) :
    (pruneLoop parse dryRun incl acc ids).1.worktrees[id]? = acc.1.worktrees[id]? := by
  induction ids generalizing acc with
  | nil => rfl
  | cons id' ids ih =>
      simp only [List.mem_cons, not_or] at hid
      obtain ⟨hne, hid⟩ := hid
      refine (ih hid (RepoContext.pruneEntry parse dryRun incl acc id')).trans ?_
      rcases pruneEntry_cases parse dryRun incl acc id' with h | ⟨path, -, -, h⟩
      · rw [h]
      · rw [h.worktrees_eq, Std.ExtTreeMap.getElem?_erase, if_neg (by simpa using Ne.symm hne)]

/-- **The loop keeps what is healthy**, if no other entry has its path and no stale one has its
metadata above it. -/
lemma healthy_pruneLoop {s : RepoContext} (hapart : HealthyApart parse s) (dryRun incl : Bool)
    (ids : List String) {acc : RepoContext × PruneReport} (hshrunk : Shrunk s acc.1)
    (hacc : ∀ id path, Healthy parse s id path → Healthy parse acc.1 id path) :
    ∀ id path, Healthy parse s id path →
      Healthy parse (pruneLoop parse dryRun incl acc ids).1 id path := by
  induction ids generalizing acc with
  | nil => exact hacc
  | cons turn ids ih =>
      rcases pruneEntry_cases parse dryRun incl acc turn with h | ⟨path', hturn, hstale, h⟩
      · have hsame : Shrunk s (RepoContext.pruneEntry parse dryRun incl acc turn).1 := by rwa [h]
        exact ih hsame (by rwa [h])
      refine ih (hshrunk.trans h.shrunk) fun id path hs => ?_
      obtain ⟨hid, hok⟩ := hacc id path hs
      have hne : turn ≠ id := by
        rintro rfl
        obtain rfl : path' = path := Option.some.inj (hturn.symm.trans hid)
        exact hstale hok
      have hregistered : s.worktrees[turn]? = some path' := by
        rcases hshrunk.entries turn with he | he
        · rw [he] at hturn
          cases hturn
        · exact he.symm.trans hturn
      have hstale' : s.classify parse turn path' ≠ .ok := by
        intro hturnOk
        exact hstale (hacc turn path' ⟨hregistered, hturnOk⟩).2
      obtain ⟨hpath, hdir⟩ := hapart id path turn path' hs hregistered hne
      refine ⟨?_, ?_⟩
      · rw [h.worktrees_eq, Std.ExtTreeMap.getElem?_erase, if_neg (by simpa using hne)]
        exact hid
      · obtain ⟨bytes, hbytes, hparse⟩ := classify_eq_ok.mp hok
        refine classify_eq_ok.mpr ⟨bytes, ?_, by rw [h.repoDir_eq]; exact hparse⟩
        rw [h.lookup_eq, if_neg]
        · exact hbytes
        -- the pointer file goes with no other entry
        · rintro (⟨dir, hmeta, hbelow, hneq⟩ | ⟨-, heq⟩)
          · rw [hshrunk.repoDir_eq] at hmeta
            rcases List.prefix_concat_iff.mp hbelow with heq | hdirs
            · exact hneq heq.symm
            · exact hdir hstale' dir hmeta hdirs
          · exact hpath (List.append_cancel_right heq).symm

/-! ### When pruning keeps what is healthy -/

/-- A pointer with another id goes with the entry. -/
lemma losesPointer_of_lookup {bytes : Bytes} {ptr : Pointer}
    (hbytes : FileTree.lookup (pointerPath path) ctx.fs = some bytes)
    (hparse : parse bytes = .ok ptr) (hne : ptr.id ≠ id) :
    (ctx.classify parse id path).losesPointer = true := by
  have hdir := dirAt_of_lookup (l := path) (n := repoDirName) hbytes
  rw [RepoContext.classify, classify,
    if_neg (by rwa [Option.isNone_iff_eq_none, ← ne_eq, ← Option.isSome_iff_ne_none])]
  simp [hbytes, hparse, hne, WorktreeStatus.losesPointer]

lemma loadRegistry_eq_ok {registry : BTreeMap String (List FileName)}
    (h : ctx.loadRegistry = .ok registry) : registry = ctx.worktrees := by
  rw [RepoContext.loadRegistry] at h
  split at h
  · cases h
  · exact (Except.ok.inj h).symm

/-- What `prune` leaves, if the registry can be read. -/
lemma prune_eq (dryRun incl : Bool) {registry : BTreeMap String (List FileName)}
    (h : ctx.loadRegistry = .ok registry) :
    (ctx.prune parse dryRun incl).2 =
      (pruneLoop parse dryRun incl (ctx, ⟨[], 0⟩) ctx.worktrees.keys).1 := by
  obtain rfl := loadRegistry_eq_ok h
  rw [RepoContext.prune, h]
  rfl

/-- An entry that shares the path of a healthy one, or has its metadata above it, takes its
pointer file along. -/
lemma pruned_takes_pointer {s t t' : RepoContext} {id' : String} {path' : List FileName}
    (hs : Healthy parse s id path) (hshrunk : Shrunk s t) (h : Pruned parse t id' path' t')
    (hne : id' ≠ id)
    (hnear : path' = path ∨ ∃ dir, metaDir s.repoDir id' = some dir ∧ dir <+: path) :
    FileTree.lookup (pointerPath path) t'.fs = none := by
  obtain ⟨bytes, hbytes, hparse⟩ := classify_eq_ok.mp hs.2
  rw [h.lookup_eq]
  split_ifs with hgoes
  · rfl
  rcases hshrunk.files (pointerPath path) with hq | hq
  · exact hq
  refine absurd ?_ hgoes
  rcases hnear with rfl | ⟨dir, hmeta, hdir⟩
  · rw [hbytes] at hq
    exact Or.inr ⟨losesPointer_of_lookup hq hparse hne.symm, rfl⟩
  · refine Or.inl ⟨dir, hshrunk.repoDir_eq ▸ hmeta, hdir.trans (List.prefix_append _ _), ?_⟩
    intro heq
    have hlength := hdir.length_le
    rw [← heq, pointerPath, List.length_append, List.length_singleton] at hlength
    omega

/-- **When pruning keeps the healthy entries**, whatever it is asked to prune. -/
theorem pruneKeeps_iff : PruneKeeps parse ctx ↔
    ((∃ registry, ctx.loadRegistry = .ok registry) → HealthyApart parse ctx) := by
  constructor
  · rintro hkeeps ⟨registry, hload⟩ id path id' path' hs hid' hne
    obtain ⟨-, hpointer, -⟩ := hkeeps false true id path hs
    rw [prune_eq false true hload] at hpointer
    -- the loop up to the turn of the other entry, its turn, and what is left
    have hmem : id' ∈ ctx.worktrees.keys := by
      rw [Std.ExtTreeMap.mem_keys, Std.ExtTreeMap.mem_iff_isSome_getElem?, hid']
      rfl
    obtain ⟨pre, post, hsplit⟩ := List.append_of_mem hmem
    have hnodup : id' ∉ pre := by
      have hkeys := Std.ExtTreeMap.nodup_keys (t := ctx.worktrees)
      rw [hsplit] at hkeys
      exact fun hpre => List.disjoint_of_nodup_append hkeys hpre List.mem_cons_self
    obtain ⟨acc, hacc⟩ : ∃ acc, acc = pruneLoop parse false true (ctx, ⟨[], 0⟩) pre := ⟨_, rfl⟩
    have hshrunk : Shrunk ctx acc.1 := by
      rw [hacc]
      exact shrunk_pruneLoop parse false true pre (ctx, ⟨[], 0⟩)
    have hturn : acc.1.worktrees[id']? = some path' := by
      rw [hacc, pruneLoop_worktrees hnodup]
      exact hid'
    rw [hsplit, pruneLoop, List.foldl_append, List.foldl_cons] at hpointer
    have hrest := shrunk_pruneLoop parse false true post
      (RepoContext.pruneEntry parse false true acc id')
    have hlost : ¬ (FileTree.lookup (pointerPath path)
        (RepoContext.pruneEntry parse false true acc id').1.fs = none) := by
      intro hnone
      have hlast : FileTree.lookup (pointerPath path) (pruneLoop parse false true
          (RepoContext.pruneEntry parse false true acc id') post).1.fs = none := by
        rcases hrest.files (pointerPath path) with hq | hq
        · exact hq
        · rw [hq, hnone]
      rw [hacc] at hlast
      rw [pruneLoop, pruneLoop] at hlast
      rw [hlast] at hpointer
      cases hpointer
    have hstale : ctx.classify parse id' path' ≠ .ok →
        Pruned parse acc.1 id' path' (RepoContext.pruneEntry parse false true acc id').1 :=
      fun h => pruned_pruneEntry hturn fun hok => h (hshrunk.classify hok)
    refine ⟨?_, fun hbad dir hmeta hdir => ?_⟩
    · rintro rfl
      refine hlost (pruned_takes_pointer hs hshrunk (hstale ?_) hne (Or.inl rfl))
      obtain ⟨bytes, hbytes, hparse⟩ := classify_eq_ok.mp hs.2
      intro hok
      obtain ⟨bytes', hbytes', hparse'⟩ := classify_eq_ok.mp hok
      obtain rfl : bytes = bytes' := Option.some.inj (hbytes.symm.trans hbytes')
      exact hne (congrArg Pointer.id (Except.ok.inj (hparse'.symm.trans hparse)))
    · exact hlost (pruned_takes_pointer hs hshrunk (hstale hbad) hne (Or.inr ⟨dir, hmeta, hdir⟩))
  · intro hapart dryRun incl id path hs
    have hafter : Healthy parse (ctx.prune parse dryRun incl).2 id path := by
      cases hload : ctx.loadRegistry with
      | error msg =>
          rw [RepoContext.prune, hload]
          exact hs
      | ok registry =>
          rw [prune_eq dryRun incl hload]
          exact healthy_pruneLoop (hapart ⟨registry, hload⟩) dryRun incl _ (.refl _)
            (fun _ _ h => h) id path hs
    obtain ⟨bytes, hbytes, -⟩ := classify_eq_ok.mp hafter.2
    exact ⟨hafter.1, by rw [hbytes]; rfl, hafter.2⟩

/-! ### What is registered -/

/-- What a step can register, with the id. -/
def RegistryOp.registers (parse : Bytes → Except String Pointer) (ctx : RepoContext) :
    RegistryOp → Option (String × List FileName)
  | add path _ _ _ => some (ctx.allocateId path, path)
  | repair _ _ (some path) _ => (ctx.readPointer parse path).toOption.map fun ptr => (ptr.id, path)
  | repair _ (some path) none id => id.map fun id => (id, path)
  | _ => none

/-- No other entry has the path, and it is not in the directory of the metadata. -/
structure PathFree (ctx : RepoContext) (id : String) (path : List FileName) : Prop where
  other : ∀ (id' : String) path', ctx.worktrees[id']? = some path' → id' ≠ id → path' ≠ path
  outside : ¬ ctx.repoDir ++ [worktreesName] <+: path

/-- A step registers a path that no other entry has, outside the metadata. -/
def RegistersFree (parse : Bytes → Except String Pointer) (ctx : RepoContext) (op : RegistryOp) :
    Prop :=
  ∀ id path, op.registers parse ctx = some (id, path) → PathFree ctx id path

/-- Each path is registered once, outside the metadata. -/
def PathsApart (ctx : RepoContext) : Prop :=
  ∀ (id : String) path, ctx.worktrees[id]? = some path → PathFree ctx id path

/-- What a step does to the registry: entries go, or one is registered. -/
structure RegistryChange (parse : Bytes → Except String Pointer) (ctx : RepoContext)
    (op : RegistryOp) (ctx' : RepoContext) : Prop where
  repoDir_eq : ctx'.repoDir = ctx.repoDir
  entries : (∀ id : String, ctx'.worktrees[id]? = none ∨ ctx'.worktrees[id]? = ctx.worktrees[id]?) ∨
    ∃ id path, op.registers parse ctx = some (id, path) ∧
      ctx'.worktrees = ctx.worktrees.insert id path

lemma RegistryChange.of_eq {op : RegistryOp} (hdir : ctx'.repoDir = ctx.repoDir)
    (h : ctx'.worktrees = ctx.worktrees) : RegistryChange parse ctx op ctx' :=
  ⟨hdir, Or.inl fun id => Or.inr (by rw [h])⟩

lemma checkout_registry {fuel : ℕ} {head : ObjectId} {dest : List FileName} {context : String} :
    (ctx.checkout L fuel head dest context fun c => c).ctx.worktrees = ctx.worktrees ∧
      (ctx.checkout L fuel head dest context fun c => c).ctx.repoDir = ctx.repoDir := by
  rw [RepoContext.checkout]
  split <;> exact ⟨rfl, rfl⟩

lemma addWorkspace_registry (parse : Bytes → Except String Pointer) (L : Linked)
    (json : List FileName → String → Bytes) (fuel : ℕ) (ctx : RepoContext) (path : List FileName)
    (timeline : String) (actor : Option String) :
    RegistryChange parse ctx (.add path timeline actor fuel)
      (ctx.addWorkspace L json fuel path timeline actor).ctx := by
  unfold RepoContext.addWorkspace
  split
  · exact .of_eq rfl rfl
  · split
    · exact .of_eq rfl rfl
    · split_ifs
      · exact .of_eq rfl rfl
      · split
        · exact .of_eq rfl rfl
        · dsimp only
          split
          · exact .of_eq rfl rfl
          · obtain ⟨hentries, hdir⟩ := checkout_registry (L := L)
            exact ⟨hdir, Or.inr ⟨_, _, rfl, hentries⟩⟩

lemma addWorktree_registry (parse : Bytes → Except String Pointer) (L : Linked)
    (json : List FileName → String → Bytes) (fuel : ℕ) (ctx : RepoContext) (path : List FileName)
    (timeline : String) (actor : Option String) :
    RegistryChange parse ctx (.add path timeline actor fuel)
      (ctx.addWorktree L json fuel path timeline actor).ctx := by
  rw [RepoContext.addWorktree]
  split
  · exact addWorkspace_registry parse L json fuel ctx path timeline actor
  · split
    · exact .of_eq rfl rfl
    · split <;> exact .of_eq rfl rfl

lemma removeWorktree_registry (parse : Bytes → Except String Pointer) (ctx : RepoContext)
    (path : List FileName) :
    RegistryChange parse ctx (.remove path) (ctx.removeWorktree path).2 := by
  rw [RepoContext.removeWorktree]
  split
  · exact .of_eq rfl rfl
  · split
    · exact .of_eq rfl rfl
    · next id _ _ =>
        refine ⟨removePointer_repoDir, Or.inl fun id' => ?_⟩
        dsimp only [RepoContext.removeMeta]
        rw [removePointer_worktrees, Std.ExtTreeMap.getElem?_erase]
        split_ifs
        · exact Or.inl rfl
        · exact Or.inr rfl

lemma prune_registry (parse : Bytes → Except String Pointer) (dryRun incl : Bool)
    (ctx : RepoContext) :
    RegistryChange parse ctx (.prune dryRun incl) (ctx.prune parse dryRun incl).2 := by
  cases hload : ctx.loadRegistry with
  | error msg =>
      rw [RepoContext.prune, hload]
      exact .of_eq rfl rfl
  | ok registry =>
      rw [prune_eq dryRun incl hload]
      have hshrunk := shrunk_pruneLoop parse dryRun incl ctx.worktrees.keys (ctx, ⟨[], 0⟩)
      exact ⟨hshrunk.repoDir_eq, Or.inl hshrunk.entries⟩

lemma rewritePointers_registry (dryRun : Bool) (entries : List (String × List FileName))
    (ctx : RepoContext) :
    (ctx.rewritePointers parse json dryRun entries).2.repoDir = ctx.repoDir ∧
      (ctx.rewritePointers parse json dryRun entries).2.worktrees = ctx.worktrees := by
  induction entries generalizing ctx with
  | nil => exact ⟨rfl, rfl⟩
  | cons e rest ih =>
      rw [RepoContext.rewritePointers]
      split_ifs
      · split
        · exact ⟨rfl, rfl⟩
        · exact ih _
      · exact ih ctx

lemma repairMoved_registry (parse : Bytes → Except String Pointer) (dryRun : Bool)
    (path : List FileName) (id : String) (ctx : RepoContext) :
    RegistryChange parse ctx (.repair dryRun (some path) none (some id))
      (ctx.repairMoved parse dryRun path id).2 := by
  rw [RepoContext.repairMoved]
  split
  · exact .of_eq rfl rfl
  · next registry hload =>
      obtain rfl := loadRegistry_eq_ok hload
      by_cases hcontains : !ctx.worktrees.contains id
      · rw [if_pos hcontains]
        exact .of_eq rfl rfl
      rw [if_neg hcontains]
      split
      · exact .of_eq rfl rfl
      · split_ifs
        · exact .of_eq rfl rfl
        · exact .of_eq rfl rfl
        · exact ⟨rfl, Or.inr ⟨id, path, rfl, rfl⟩⟩

lemma repairAdopt_registry (parse : Bytes → Except String Pointer) (dryRun : Bool)
    (path : List FileName) (movedTo : Option (List FileName)) (id : Option String)
    (ctx : RepoContext) :
    RegistryChange parse ctx (.repair dryRun movedTo (some path) id)
      (ctx.repairAdopt parse dryRun path).2 := by
  rw [RepoContext.repairAdopt]
  split
  · exact .of_eq rfl rfl
  · next ptr hptr =>
      split
      · exact .of_eq rfl rfl
      · next registry hload =>
          obtain rfl := loadRegistry_eq_ok hload
          split
          · split_ifs <;> exact .of_eq rfl rfl
          · split_ifs
            · exact .of_eq rfl rfl
            · refine ⟨rfl, Or.inr ⟨ptr.id, path, ?_, rfl⟩⟩
              rw [RegistryOp.registers, hptr]
              rfl

lemma repair_registry (parse : Bytes → Except String Pointer)
    (json : List FileName → String → Bytes) (dryRun : Bool)
    (movedTo adopt : Option (List FileName)) (id : Option String) (ctx : RepoContext) :
    RegistryChange parse ctx (.repair dryRun movedTo adopt id)
      (ctx.repair parse json dryRun movedTo adopt id).2 := by
  unfold RepoContext.repair
  split
  · exact repairAdopt_registry parse dryRun _ movedTo id ctx
  · exact repairMoved_registry parse dryRun _ _ ctx
  · exact .of_eq rfl rfl
  · rw [RepoContext.repairStoreMoved]
    split
    · exact .of_eq rfl rfl
    · obtain ⟨hdir, hentries⟩ := rewritePointers_registry dryRun _ ctx
      exact .of_eq hdir hentries

/-- **What one step does to the registry.** -/
theorem RegistryStep.change {op : RegistryOp} (h : RegistryStep L parse json ctx op ctx') :
    RegistryChange parse ctx op ctx' := by
  subst h
  cases op with
  | add path timeline actor fuel =>
      exact addWorktree_registry parse L json fuel ctx path timeline actor
  | remove path => exact removeWorktree_registry parse ctx path
  | prune dryRun incl => exact prune_registry parse dryRun incl ctx
  | repair dryRun movedTo adopt id => exact repair_registry parse json dryRun movedTo adopt id ctx
  | edit fs => exact .of_eq rfl rfl

/-- A step that registers a free path keeps the paths apart. -/
lemma PathsApart.step {op : RegistryOp} (h : PathsApart ctx) (hfree : RegistersFree parse ctx op)
    (hchange : RegistryChange parse ctx op ctx') : PathsApart ctx' := by
  obtain ⟨hdir, hentries | ⟨new, newPath, hnew, hentries⟩⟩ := hchange
  · have hold : ∀ (id : String) path, ctx'.worktrees[id]? = some path →
        ctx.worktrees[id]? = some path := by
      intro id path hid
      rcases hentries id with he | he
      · rw [he] at hid
        cases hid
      · exact he.symm.trans hid
    intro id path hid
    obtain ⟨hother, hout⟩ := h id path (hold id path hid)
    exact ⟨fun id' path' hid' => hother id' path' (hold id' path' hid'), by rwa [hdir]⟩
  · obtain ⟨hnewOther, hnewOut⟩ := hfree new newPath hnew
    intro id path hid
    rw [hentries, Std.ExtTreeMap.getElem?_insert] at hid
    refine ⟨fun id' path' hid' hne => ?_, ?_⟩
    · rw [hentries, Std.ExtTreeMap.getElem?_insert] at hid'
      split_ifs at hid hid' with hid₁ hid₂ hid₂
      · exact absurd ((Std.LawfulEqCmp.compare_eq_iff_eq.mp hid₂).symm.trans
          (Std.LawfulEqCmp.compare_eq_iff_eq.mp hid₁)) hne
      · obtain rfl := Option.some.inj hid
        refine hnewOther id' path' hid' fun heq => hid₂ ?_
        rw [heq]
        exact Std.ReflCmp.compare_self
      · obtain rfl := Option.some.inj hid'
        refine (hnewOther id path hid fun heq => hid₁ ?_).symm
        rw [heq]
        exact Std.ReflCmp.compare_self
      · exact (h id path hid).other id' path' hid' hne
    · rw [hdir]
      split_ifs at hid
      · obtain rfl := Option.some.inj hid
        exact hnewOut
      · exact (h id path hid).outside

/-- Where each path is registered once, the healthy entries are apart from the others. -/
lemma PathsApart.healthyApart (h : PathsApart ctx) : HealthyApart parse ctx := by
  intro id path id' path' hs hid' hne
  obtain ⟨hother, hout⟩ := h id path hs.1
  refine ⟨hother id' path' hid' hne, fun _ dir hmeta hdir => hout ?_⟩
  obtain ⟨n, -, rfl⟩ := Option.map_eq_some_iff.mp hmeta
  refine List.IsPrefix.trans ⟨[n], ?_⟩ hdir
  simp

/-- **Pruning and the healthy work trees.**  From an empty registry, after any commands and any
changes of the file system, `prune` keeps every healthy entry exactly if the registry cannot be
read, or no other entry has the path of a healthy one and no stale one has its metadata above it.
It does so after every run whose steps register a path only where no other entry has it, outside
the metadata. -/
theorem prune_keeps_iff {s t : RepoContext} {steps : List (RepoContext × RegistryOp)}
    (hstart : s.worktrees = ∅) (hrun : Run (RegistryStep L parse json) s steps t) :
    (PruneKeeps parse t ↔ ((∃ registry, t.loadRegistry = .ok registry) → HealthyApart parse t)) ∧
      ((∀ x ∈ steps, RegistersFree parse x.1 x.2) → PruneKeeps parse t) := by
  refine ⟨pruneKeeps_iff, fun hfree => pruneKeeps_iff.mpr fun _ => ?_⟩
  have hs : PathsApart s := by
    intro id path hid
    simp [hstart] at hid
  have ht : PathsApart t := hrun.invariant PathsApart (RegistersFree parse)
    (fun _ _ _ hinv hok hstep => hinv.step hok hstep.change) hfree hs
  exact ht.healthyApart

/-! ### A work tree that is made anew -/

/-- The text of a pointer file, of names that JSON leaves as they are. -/
def pointerJson (store : List FileName) (id : String) : Bytes :=
  ascii ("\x7b\n  \"store\": \"" ++ displayPath store ++ "\",\n  \"id\": \"" ++ id ++ "\"\n\x7d")

/-- Reading it back, for the ids `side` and `side-2`. -/
def parsePointer (bytes : Bytes) : Except String Pointer :=
  if bytes = pointerJson [repoDirName] "side" then .ok ⟨[repoDirName], "side"⟩
  else if bytes = pointerJson [repoDirName] "side-2" then .ok ⟨[repoDirName], "side-2"⟩
  else .error "expected value"

def sideDir : FileName := ⟨['s', 'i', 'd', 'e'], by decide⟩

/-- A repository with a store and a work tree, and no linked work trees. -/
def linkedContext : RepoContext :=
  { guestContext [] with
    fs := fun n => if n = repoDirName ∨ n = workDir then some (.dir FileTree.emptyDir) else none }

/-- `workspace add side --timeline main`. -/
def addSide : RegistryOp := .add [sideDir] "main" none 3

/-- The context with the linked work tree. -/
def sideContext : RepoContext := addSide.run checkoutLinked parsePointer pointerJson linkedContext

/-- The directory is deleted. -/
def deletedFs : Fs Bytes := FileTree.removeTree [sideDir] sideContext.fs

/-- The context with the work tree made anew: two entries have its path. -/
def againContext : RepoContext :=
  addSide.run checkoutLinked parsePointer pointerJson { sideContext with fs := deletedFs }

/-- What the steps leave, and what pruning leaves of that. -/
lemma againContext_leaves :
    againContext.worktrees["side-2"]? = some [sideDir] ∧
      againContext.classify parsePointer "side-2" [sideDir] = .ok ∧
      againContext.classify parsePointer "side" [sideDir] = .wrongId "side-2" ∧
      FileTree.lookup (pointerPath [sideDir])
        (againContext.prune parsePointer false false).2.fs = none := by
  decide +kernel

/-- **The pointer of a healthy work tree is deleted** with the old entry of its path. -/
theorem prune_breaks : ∃ s t steps, s.worktrees = ∅ ∧
    Run (RegistryStep checkoutLinked parsePointer pointerJson) s steps t ∧
      ∃ id path, Healthy parsePointer t id path ∧
        ¬ (FileTree.lookup (pointerPath path) (t.prune parsePointer false false).2.fs).isSome := by
  obtain ⟨hid, hok, -, hlost⟩ := againContext_leaves
  have hrun : Run (RegistryStep checkoutLinked parsePointer pointerJson) linkedContext
      [(linkedContext, addSide), (sideContext, .edit deletedFs),
        ({ sideContext with fs := deletedFs }, addSide)] againContext := by
    refine .cons ?_ (.cons ?_ (.single ?_))
    · rw [RegistryStep, sideContext]
    · rfl
    · rw [RegistryStep, againContext]
  refine ⟨linkedContext, againContext, _, rfl, hrun, "side-2", [sideDir], ⟨hid, hok⟩, ?_⟩
  rw [hlost]
  simp

/-- One work tree at its own path is kept. -/
theorem prune_keeps_side : PruneKeeps parsePointer sideContext ∧
    Healthy parsePointer sideContext "side" [sideDir] := by
  have hrun : Run (RegistryStep checkoutLinked parsePointer pointerJson) linkedContext
      [(linkedContext, addSide)] sideContext := by
    refine .single ?_
    rw [RegistryStep, sideContext]
  have hhealthy : sideContext.worktrees["side"]? = some [sideDir] ∧
      sideContext.classify parsePointer "side" [sideDir] = .ok := by decide +kernel
  refine ⟨(prune_keeps_iff rfl hrun).2 ?_, hhealthy⟩
  rintro x hx id path hregister
  obtain rfl := List.mem_singleton.mp hx
  obtain ⟨-, rfl⟩ := Prod.mk.inj (Option.some.inj hregister)
  refine ⟨fun id' path' h => ?_, by decide +kernel⟩
  simp [linkedContext, guestContext] at h

end Bole
