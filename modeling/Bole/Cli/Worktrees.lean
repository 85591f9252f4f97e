import Bole.Cli.Workspace
import Bole.Lib.Run
import Bole.Repo.Confinement

/-!
Work trees that share a timeline: `create` of `bole-cli/src/commands/snapshot.rs` beside `open`
and `add` of `workspace.rs`, over runs.

A snapshot has the current head of the timeline as its parent, and its content from the
directory.  Nothing keeps the head that a directory was checked out from.

* `Worktrees`: the shared store and file system, and what was edited in each work tree;
* `headFile_created`: after a snapshot the head holds what the work tree holds;
* `created_keeps_iff`: it keeps what the work tree did not touch exactly if that is up to date;
* `no_lost_change`: **in every run of up-to-date snapshots no change is lost**;
* `stale_snapshot_reverts`: a snapshot of an old checkout undoes the other one's change.
-/

namespace Bole

open Posix Collect Transition

/-! ### `snapshot create` -/

/-- The arguments of `snapshot create`, with the default author and the time. -/
structure SnapshotArgs where
  fromWorkspace : Bool
  message : String
  author : Option String
  noAdvance : Bool
  defaultAuthor : String
  now : ℕ

/-- What it reports: the snapshot, the number of its files, and the timeline that was advanced. -/
structure SnapshotReport where
  snapshot : ObjectId
  files : ℕ
  advanced : Option String
deriving DecidableEq

/-- What it returns and the context it leaves; no result means that a walk did not end. -/
structure Created where
  result : Option (Except String SnapshotReport)
  ctx : RepoContext

namespace RepoContext

/-- The head of the timeline that the work tree is bound to. -/
def boundHead (ctx : RepoContext) : Except String (Option ObjectId) :=
  match ctx.state.currentTimeline with
  | some name => (ctx.timelineHead name).map some
  | none => .ok none

/-- The bound timeline is advanced, unless that is opted out of. -/
def advanceBound (L : Linked) (ctx : RepoContext) (id : ObjectId) (noAdvance : Bool) :
    Except String (Option String) × RepoContext :=
  match ctx.state.currentTimeline, noAdvance with
  | some name, false =>
      match cliRefName name with
      | .error msg => (.error msg, ctx)
      | .ok n =>
          match ctx.accessorFor ctx.state.currentActor with
          | .error msg => (.error msg, ctx)
          | .ok accessor =>
              match ctx.repo.advanceTimeline L n id accessor with
              | (.error _, repo) =>
                  (.error ("advancing timeline '" ++ name ++ "'"), { ctx with repo := repo })
              | (.ok (), repo) => (.ok (some name), { ctx with repo := repo })
  | _, _ => (.ok none, ctx)

/-- `create` of `snapshot`. -/
def snapshotCreate (L : Linked) (W : DirWalk) (mtime : Option ℕ) (fuel : ℕ) (ctx : RepoContext)
    (args : SnapshotArgs) : Created :=
  if !args.fromWorkspace then ⟨some (.error "snapshot create requires --from-workspace"), ctx⟩
  else
    match ctx.boundHead with
    | .error msg => ⟨some (.error msg), ctx⟩
    | .ok base =>
        match DiskWorkspace.commit L W mtime fuel ctx.fs ⟨ctx.workDir, base⟩ ctx.repo.objects
            (args.author.getD args.defaultAuthor) args.message args.now with
        | (result, _, objects) =>
            let ctx := { ctx with repo := { ctx.repo with objects := objects } }
            match result with
            | .error _ => ⟨some (.error "storing snapshot"), ctx⟩
            | .ok none => ⟨none, ctx⟩
            | .ok (some id) =>
                match told (snapshotPaths L objects fuel id) with
                | .error msg => ⟨some (.error msg), ctx⟩
                | .ok none => ⟨none, ctx⟩
                | .ok (some blobs) =>
                    -- every blob is read, to see whether it looks like a seed
                    match told (blobs.toList.mapM fun b => objects.get L b.2) with
                    | .error msg => ⟨some (.error msg), ctx⟩
                    | .ok _ =>
                        match ctx.advanceBound L id args.noAdvance with
                        | (.error msg, ctx) => ⟨some (.error msg), ctx⟩
                        | (.ok advanced, ctx) => ⟨some (.ok ⟨id, blobs.size, advanced⟩), ctx⟩

/-! ### Work trees -/

/-- The context of a command that is called in a work tree: the primary one, or a linked one by
its id. -/
def inWorktree (ctx : RepoContext) : Option String → Option RepoContext
  | none => some ctx
  | some id =>
      (ctx.worktrees[id]?).map fun path =>
        { ctx with workDir := path, state := (ctx.bindings[id]?).getD ⟨none, none⟩ }

/-- The context after it, as the primary work tree has it. -/
def leaveWorktree (ctx after : RepoContext) : Option String → RepoContext
  | none => after
  | some id =>
      { after with
        workDir := ctx.workDir
        state := ctx.state
        bindings := after.bindings.insert id after.state }

end RepoContext

/-- The store and the file system as the primary work tree has them, and the paths that were
edited in each work tree since it was last checked out or advanced its timeline. -/
structure Worktrees where
  ctx : RepoContext
  touched : Option String → Set String

/-- What happens: a command in a work tree, an edit of the files, a snapshot of a work tree. -/
inductive WorktreeAction where
  | command (w : Option String) (cmd : WorkspaceCommand) (fuel : ℕ)
  | edit (fs : Fs Bytes)
  | create (w : Option String) (args : SnapshotArgs) (mtime : Option ℕ) (fuel : ℕ)

/-- The paths below a directory that an edit changes. -/
def changedPaths (fs fs' : Fs Bytes) (root : List FileName) : Set String :=
  {path | ∃ names, names ≠ [] ∧ path = collectedName names ∧
    FileTree.lookup (root ++ names) fs ≠ FileTree.lookup (root ++ names) fs'}

/-- The work tree that a command checks out. -/
def WorkspaceCommand.checkedOut (ctx : RepoContext) (w : Option String) :
    WorkspaceCommand → Option String
  | openAs _ _ _ _ _ => w
  | add path _ _ => some (ctx.allocateId path)

open Classical in
/-- One step. -/
inductive WorktreeStep (L : Linked) (W : DirWalk) (json : List FileName → String → Bytes) :
    Worktrees → WorktreeAction → Worktrees → Prop where
  | command {s : Worktrees} {w : Option String} {cmd : WorkspaceCommand} {fuel : ℕ}
      {ctx : RepoContext} {o : Opened} : s.ctx.inWorktree w = some ctx →
      cmd.run L json fuel ctx = o →
      WorktreeStep L W json s (.command w cmd fuel)
        ⟨s.ctx.leaveWorktree o.ctx w, if o.result = some (.ok ()) then
          Function.update s.touched (cmd.checkedOut ctx w) ∅ else s.touched⟩
  | edit {s : Worktrees} {fs : Fs Bytes} :
      WorktreeStep L W json s (.edit fs)
        ⟨{ s.ctx with fs := fs }, fun w => s.touched w ∪
          {path | ∃ ctx, s.ctx.inWorktree w = some ctx ∧
            path ∈ changedPaths s.ctx.fs fs ctx.workDir}⟩
  | create {s : Worktrees} {w : Option String} {args : SnapshotArgs} {mtime : Option ℕ} {fuel : ℕ}
      {ctx : RepoContext} {c : Created} : s.ctx.inWorktree w = some ctx →
      ctx.snapshotCreate L W mtime fuel args = c →
      WorktreeStep L W json s (.create w args mtime fuel)
        ⟨s.ctx.leaveWorktree c.ctx w,
          if ∃ report name, c.result = some (.ok report) ∧ report.advanced = some name then
            Function.update s.touched w ∅ else s.touched⟩

/-! ### What a snapshot does -/

variable {L : Linked} {W : DirWalk} {json : List FileName → String → Bytes}
  {mtime : Option ℕ} {fuel : ℕ} {ctx : RepoContext} {args : SnapshotArgs} {c : Created}

/-- The snapshot would advance the timeline. -/
def Advances (ctx : RepoContext) (args : SnapshotArgs) (n : RefName) : Prop :=
  args.noAdvance = false ∧ ∃ name, ctx.state.currentTimeline = some name ∧ cliRefName name = .ok n

/-- The commit of a snapshot. -/
def RepoContext.committed (L : Linked) (W : DirWalk) (mtime : Option ℕ) (fuel : ℕ)
    (ctx : RepoContext) (args : SnapshotArgs) (base : Option ObjectId) :
    Result (Option ObjectId) × DiskWorkspace × ObjectStore :=
  DiskWorkspace.commit L W mtime fuel ctx.fs ⟨ctx.workDir, base⟩ ctx.repo.objects
    (args.author.getD args.defaultAuthor) args.message args.now

/-- A snapshot has advanced a timeline. -/
structure Advanced (L : Linked) (W : DirWalk) (mtime : Option ℕ) (fuel : ℕ) (ctx : RepoContext)
    (args : SnapshotArgs) (c : Created) (n : RefName) : Prop where
  advances : Advances ctx args n
  head : ∃ T base id ws files, ctx.boundHead = .ok base ∧
    ctx.committed L W mtime fuel args base = (.ok (some id), ws, c.ctx.repo.objects) ∧
    snapshotPaths L c.ctx.repo.objects fuel id = .ok (some files) ∧
    ctx.repo.refs.get n = some (.timeline T) ∧
    c.ctx.repo.refs.get n = some (.timeline { T with head := id })
  others : ∀ k, k ≠ n → c.ctx.repo.refs.get k = ctx.repo.refs.get k

/-- What becomes of the store by a snapshot. -/
def Stored (L : Linked) (W : DirWalk) (mtime : Option ℕ) (fuel : ℕ) (ctx : RepoContext)
    (args : SnapshotArgs) (c : Created) : Prop :=
  c.ctx.repo.objects = ctx.repo.objects ∨ ∃ base, ctx.boundHead = .ok base ∧
    c.ctx.repo.objects = (ctx.committed L W mtime fuel args base).2.2

/-- What `advanceBound` does. -/
lemma advanceBound_cases {id : ObjectId} {noAdvance : Bool}
    {r : Except String (Option String)} {after : RepoContext}
    (h : ctx.advanceBound L id noAdvance = (r, after)) :
    after.repo.objects = ctx.repo.objects ∧
      ((∀ k, after.repo.refs.get k = ctx.repo.refs.get k) ∧ (∀ name, r ≠ .ok (some name)) ∨
        ∃ name n T, noAdvance = false ∧ ctx.state.currentTimeline = some name ∧
          cliRefName name = .ok n ∧ r = .ok (some name) ∧
          ctx.repo.refs.get n = some (.timeline T) ∧
          after.repo.refs.get n = some (.timeline { T with head := id }) ∧
          ∀ k, k ≠ n → after.repo.refs.get k = ctx.repo.refs.get k) := by
  have hnone : (.ok none, ctx) = (r, after) → after.repo.objects = ctx.repo.objects ∧
      (∀ k, after.repo.refs.get k = ctx.repo.refs.get k) ∧ ∀ name, r ≠ .ok (some name) := by
    intro h
    cases h
    exact ⟨rfl, fun _ => rfl, by simp⟩
  unfold RepoContext.advanceBound at h
  cases hname : ctx.state.currentTimeline with
  | none =>
      simp only [hname] at h
      obtain ⟨hobjects, hrefs⟩ := hnone h
      exact ⟨hobjects, Or.inl hrefs⟩
  | some name =>
      cases noAdvance with
      | true =>
          simp only [hname] at h
          obtain ⟨hobjects, hrefs⟩ := hnone h
          exact ⟨hobjects, Or.inl hrefs⟩
      | false =>
          simp only [hname] at h
          split at h
          · cases h
            exact ⟨rfl, Or.inl ⟨fun _ => rfl, nofun⟩⟩
          · next n hn =>
              split at h
              · cases h
                exact ⟨rfl, Or.inl ⟨fun _ => rfl, nofun⟩⟩
              · next accessor _ =>
                  have hkeeps := Repository.advanceTimeline_keeps L ctx.repo accessor ⟨n, id⟩
                  have hget := fun k =>
                    Repository.advanceTimeline_get L ctx.repo accessor ⟨n, id⟩ (n := k)
                  have hhead := Repository.advanceTimeline_head L ctx.repo accessor ⟨n, id⟩
                  split at h
                  · next e repo heq =>
                      cases h
                      simp only [heq] at hkeeps hget
                      exact ⟨hkeeps.1, Or.inl ⟨fun k => hget k nofun, nofun⟩⟩
                  · next repo heq =>
                      cases h
                      simp only [heq] at hkeeps hget hhead
                      obtain ⟨T, hT, hnew⟩ := hhead trivial
                      exact ⟨hkeeps.1, Or.inr ⟨name, n, T, rfl, rfl, hn, rfl, hT, hnew,
                        fun k hk => hget k fun _ => hk⟩⟩

/-- **What a snapshot does**: it writes what the commit writes, and advances the timeline of the
work tree or no timeline. -/
theorem snapshotCreate_cases (h : ctx.snapshotCreate L W mtime fuel args = c) :
    Stored L W mtime fuel ctx args c ∧
      ((∀ k, c.ctx.repo.refs.get k = ctx.repo.refs.get k) ∧
          (∀ report name, c.result = some (.ok report) → report.advanced ≠ some name) ∨
        ∃ n name report, Advanced L W mtime fuel ctx args c n ∧ c.result = some (.ok report) ∧
          report.advanced = some name ∧ cliRefName name = .ok n) := by
  rw [RepoContext.snapshotCreate] at h
  split_ifs at h
  · subst h
    exact ⟨Or.inl rfl, Or.inl ⟨fun _ => rfl, nofun⟩⟩
  · split at h
    · subst h
      exact ⟨Or.inl rfl, Or.inl ⟨fun _ => rfl, nofun⟩⟩
    · next base hbase =>
        split at h
        next result ws objects hcommit =>
          have hstored : objects = (ctx.committed L W mtime fuel args base).2.2 := by
            rw [RepoContext.committed, hcommit]
          dsimp only at h
          split at h
          · subst h
            exact ⟨Or.inr ⟨base, hbase, hstored⟩, Or.inl ⟨fun _ => rfl, nofun⟩⟩
          · subst h
            exact ⟨Or.inr ⟨base, hbase, hstored⟩, Or.inl ⟨fun _ => rfl, nofun⟩⟩
          · next id =>
              split at h
              · subst h
                exact ⟨Or.inr ⟨base, hbase, hstored⟩, Or.inl ⟨fun _ => rfl, nofun⟩⟩
              · subst h
                exact ⟨Or.inr ⟨base, hbase, hstored⟩, Or.inl ⟨fun _ => rfl, nofun⟩⟩
              · next blobs hblobs =>
                  split at h
                  · subst h
                    exact ⟨Or.inr ⟨base, hbase, hstored⟩, Or.inl ⟨fun _ => rfl, nofun⟩⟩
                  · split at h
                    · next msg after hadv =>
                        subst h
                        obtain ⟨hobjects, hrefs | ⟨name, n, T, -, -, -, hr, -⟩⟩ :=
                          advanceBound_cases hadv
                        · exact ⟨Or.inr ⟨base, hbase, hobjects.trans hstored⟩,
                            Or.inl ⟨hrefs.1, nofun⟩⟩
                        · cases hr
                    · next advanced after hadv =>
                        subst h
                        obtain ⟨hobjects, hrefs | ⟨name, n, T, hno, hname, hn, hr, hT, hnew,
                          hothers⟩⟩ := advanceBound_cases hadv
                        · refine ⟨Or.inr ⟨base, hbase, hobjects.trans hstored⟩,
                            Or.inl ⟨hrefs.1, ?_⟩⟩
                          rintro report name hreport hname
                          cases hreport
                          exact hrefs.2 name (congrArg Except.ok hname)
                        · cases hr
                          refine ⟨Or.inr ⟨base, hbase, hobjects.trans hstored⟩,
                            Or.inr ⟨n, name, _, ⟨⟨hno, name, hname, hn⟩, ?_, hothers⟩, rfl, rfl,
                              hn⟩⟩
                          refine ⟨T, base, id, ws, blobs, hbase, ?_, ?_, hT, hnew⟩
                          · rw [RepoContext.committed, hcommit, hobjects]
                          · rw [hobjects]
                            exact told_eq_ok.mp hblobs

/-! ### Files of the head -/

/-- The head of a timeline has a path with a content, or does not have it. -/
def HeadFile (L : Linked) (r : Repository) (n : RefName) (path : String) (v : Option ObjectId) :
    Prop :=
  ∃ T fuel files, r.refs.get n = some (.timeline T) ∧
    snapshotPaths L r.objects fuel T.head = .ok (some files) ∧ files[path]? = v

variable {r r' : Repository} {n : RefName} {path : String} {v v' : Option ObjectId}

lemma HeadFile.unique (h : HeadFile L r n path v) (h' : HeadFile L r n path v') : v = v' := by
  obtain ⟨T, k, files, hT, hfiles, rfl⟩ := h
  obtain ⟨T', k', files', hT', hfiles', rfl⟩ := h'
  rw [hT] at hT'
  cases hT'
  rw [snapshotPaths_unique hfiles hfiles']

/-- A head that stays keeps its files while the store grows. -/
lemma HeadFile.mono (h : HeadFile L r n path v) (hrefs : r'.refs.get n = r.refs.get n)
    (hgrows : r.objects.Grows L r'.objects) : HeadFile L r' n path v := by
  obtain ⟨T, k, files, hT, hfiles, hv⟩ := h
  exact ⟨T, k, files, hrefs.trans hT, snapshotPaths_grows hgrows hfiles, hv⟩

/-- The objects that a snapshot may write. -/
def SnapshotObjects (L : Linked) (W : DirWalk) (ctx : RepoContext) (args : SnapshotArgs) :
    Set Object :=
  {o | ∃ base, ctx.boundHead = .ok base ∧ o ∈ DiskWorkspace.CommitObjects L W ctx.fs
    ⟨ctx.workDir, base⟩ (args.author.getD args.defaultAuthor) args.message args.now}

/-- What the work tree of a command excludes. -/
def RepoContext.matcher (W : DirWalk) (ctx : RepoContext) : List FileName → Bool → Bool :=
  DiskWorkspace.ignoreMatcher W ctx.fs ⟨ctx.workDir, none⟩

/-- The work tree of a command holds a blob under a path. -/
def RepoContext.Holds (L : Linked) (W : DirWalk) (ctx : RepoContext) (path : String)
    (id : ObjectId) : Prop :=
  HoldsFile L (ctx.matcher W) ctx.fs ctx.workDir path id

lemma committed_written (base : Option ObjectId) (hbase : ctx.boundHead = .ok base) :
    ctx.repo.objects.Written L
      (fun b => ∃ o ∈ SnapshotObjects L W ctx args, L.codec.serialize o = .ok b)
      (ctx.committed L W mtime fuel args base).2.2 := by
  refine DiskWorkspace.commit_written.mono ?_
  rintro b ⟨o, ho, hb⟩
  exact ⟨o, ⟨base, hbase, ho⟩, hb⟩

lemma Stored.written (h : Stored L W mtime fuel ctx args c) :
    ctx.repo.objects.Written L
      (fun b => ∃ o ∈ SnapshotObjects L W ctx args, L.codec.serialize o = .ok b)
      c.ctx.repo.objects := by
  rcases h with h | ⟨base, hbase, h⟩
  · rw [h]
    exact .refl _
  · rw [h]
    exact committed_written base hbase

/-- After a snapshot the timeline has a head whose files can be told. -/
lemma Advanced.exists_headFile (h : Advanced L W mtime fuel ctx args c n) (path : String) :
    ∃ v, HeadFile L c.ctx.repo n path v := by
  obtain ⟨T, base, id, ws, files, -, -, hfiles, -, hhead⟩ := h.head
  exact ⟨files[path]?, _, fuel, files, hhead, hfiles, rfl⟩

/-- **After a snapshot the head holds what the work tree holds**, if no two files of it are
confused. -/
theorem headFile_created (h : Advanced L W mtime fuel ctx args c n) (hexact : W.Exact ctx.fs)
    (hfaithful : ctx.repo.objects.Faithful L (SnapshotObjects L W ctx args))
    (hapart : NamesApart (ctx.matcher W) ctx.fs ctx.workDir) :
    HeadFile L c.ctx.repo n path v ↔ ∀ id, v = some id ↔ ctx.Holds L W path id := by
  obtain ⟨T, base, id, ws, files, hbase, hcommit, hfiles, -, hhead⟩ := h.head
  obtain ⟨k, files', hfiles', hholds⟩ := DiskWorkspace.commit_files hexact
    (hfaithful.mono fun o ho => ⟨base, hbase, ho⟩) hapart hcommit
  obtain rfl := snapshotPaths_unique hfiles hfiles'
  have hpath : HeadFile L c.ctx.repo n path files[path]? := ⟨_, fuel, files, hhead, hfiles, rfl⟩
  constructor
  · intro hv id
    rw [hv.unique hpath]
    exact hholds path id
  · intro hv
    have heq : v = files[path]? := by
      ext id
      rw [hv, hholds]
      rfl
    rwa [heq]

/-- The work tree has a path as the head of the timeline has it. -/
def UpToDate (L : Linked) (W : DirWalk) (ctx : RepoContext) (n : RefName) (path : String) : Prop :=
  ∀ v, HeadFile L ctx.repo n path v → ∀ id, v = some id ↔ ctx.Holds L W path id

/-- **A snapshot keeps a path of the head** exactly if the work tree has it as the head does. -/
theorem created_keeps_iff (h : Advanced L W mtime fuel ctx args c n) (hexact : W.Exact ctx.fs)
    (hfaithful : ctx.repo.objects.Faithful L (SnapshotObjects L W ctx args))
    (hapart : NamesApart (ctx.matcher W) ctx.fs ctx.workDir) :
    (∀ v, HeadFile L ctx.repo n path v → HeadFile L c.ctx.repo n path v) ↔
      UpToDate L W ctx n path :=
  forall₂_congr fun _ _ => headFile_created h hexact hfaithful hapart

/-! ### What a command does -/

lemma createTimeline_get {s : RefStore} {k : RefName} {head : ObjectId} {policy : TimelinePolicy}
    {now : ℕ} {kind : String} {expiresAt : Option ℕ} {x : Ref} (hx : s.get n = some x) :
    (s.createTimeline k head policy now kind expiresAt).2.get n = some x := by
  rw [RefStore.createTimeline, RefStore.readWrite]
  cases hk : s.get k with
  | some y => simpa [RefOp.name, RefOp.next, hk] using hx
  | none =>
      have hne : n ≠ k := by
        rintro rfl
        rw [hx] at hk
        cases hk
      simp only [RefOp.name, RefOp.next, hk, Option.isSome_none, Bool.false_eq_true, if_false]
      refine Eq.trans ?_ hx
      show (s.write (k, _)).map n = s.map n
      rw [RefStore.map_write]
      exact Function.update_of_ne hne ..

/-- A command leaves the objects, and the refs that are there. -/
structure Leaves (ctx after : RepoContext) : Prop where
  objects : after.repo.objects = ctx.repo.objects
  refs : ∀ n x, ctx.repo.refs.get n = some x → after.repo.refs.get n = some x

lemma Leaves.of_repo {after : RepoContext} (h : after.repo = ctx.repo) : Leaves ctx after :=
  ⟨congrArg Repository.objects h, fun n x hx => by rwa [h]⟩

lemma Leaves.trans {c₁ c₂ c₃ : RepoContext} (h : Leaves c₁ c₂) (h' : Leaves c₂ c₃) :
    Leaves c₁ c₃ :=
  ⟨h'.objects.trans h.objects, fun n x hx => h'.refs n x (h.refs n x hx)⟩

lemma checkout_repo (ctx : RepoContext) (head : ObjectId) (dest : List FileName) (context : String)
    {done : RepoContext → RepoContext} (hdone : ∀ c, (done c).repo = c.repo) :
    (ctx.checkout L fuel head dest context done).ctx.repo = ctx.repo := by
  rw [RepoContext.checkout]
  split
  · rfl
  · rfl
  · exact hdone _

lemma createFrom_leaves {after : RepoContext} {timeline : String} {source : Option String} {now : ℕ}
    (h : ctx.createFrom timeline source now = .ok after) : Leaves ctx after := by
  unfold RepoContext.createFrom at h
  split at h
  · cases h
  · obtain ⟨head, -, h⟩ := Result.bind_eq_ok.mp h
    obtain ⟨n, -, h⟩ := Result.bind_eq_ok.mp h
    split at h
    · cases h
    · next refs heq =>
        cases h
        refine ⟨rfl, fun k x hx => ?_⟩
        have hget : (ctx.repo.refs.createTimeline n head .unrestricted now "persistent"
            none).2.get k = some x := createTimeline_get hx
        rwa [heq] at hget

/-- **A command moves no timeline** that is there. -/
lemma run_leaves (L : Linked) (json : List FileName → String → Bytes) (fuel : ℕ)
    (cmd : WorkspaceCommand) (ctx : RepoContext) :
    Leaves ctx (cmd.run L json fuel ctx).ctx := by
  cases cmd with
  | openAs timeline create source actor now =>
      rw [WorkspaceCommand.run]
      unfold RepoContext.openWorkspace
      split
      · exact .of_repo rfl
      · next ctx₁ hbind =>
          have hbound := Leaves.of_repo (bindActor_eq_ok hbind).1
          split
          · exact hbound
          · next ctx₂ hcreate =>
              have hcreated : Leaves ctx₁ ctx₂ := by
                split_ifs at hcreate
                · exact createFrom_leaves hcreate
                · cases hcreate
                  exact .of_repo rfl
              have hboth := hbound.trans hcreated
              split
              · exact hboth
              · exact hboth.trans (.of_repo (checkout_repo _ _ _ _ fun _ => rfl))
  | add path timeline actor =>
      rw [WorkspaceCommand.run]
      unfold RepoContext.addWorkspace
      split
      · exact .of_repo rfl
      · split
        · exact .of_repo rfl
        · split_ifs
          · exact .of_repo rfl
          · split
            · exact .of_repo rfl
            · dsimp only
              split
              · exact .of_repo rfl
              · exact .of_repo (checkout_repo _ _ _ _ fun _ => rfl)

/-! ### Runs -/

lemma leaveWorktree_none (ctx after : RepoContext) : ctx.leaveWorktree after none = after := rfl

@[simp] lemma leaveWorktree_repo (ctx after : RepoContext) (w : Option String) :
    (ctx.leaveWorktree after w).repo = after.repo := by
  cases w <;> rfl

lemma inWorktree_none (ctx : RepoContext) : ctx.inWorktree none = some ctx := rfl

lemma inWorktree_same {w : Option String} {c : RepoContext} (h : ctx.inWorktree w = some c) :
    c.repo = ctx.repo ∧ c.fs = ctx.fs := by
  cases w with
  | none =>
      cases h
      exact ⟨rfl, rfl⟩
  | some id =>
      obtain ⟨path, -, rfl⟩ := Option.map_eq_some_iff.mp h
      exact ⟨rfl, rfl⟩

/-- A step is a snapshot of a work tree. -/
def IsSnapshot (x : Worktrees × WorktreeAction) (w : Option String) (args : SnapshotArgs)
    (ctx : RepoContext) : Prop :=
  (∃ mtime fuel, x.2 = .create w args mtime fuel) ∧ x.1.ctx.inWorktree w = some ctx

/-- What is asked of the crates and the system: what a snapshot writes can be told apart, and the
directories are read as they are. -/
def ReadsBack (L : Linked) (W : DirWalk) (objs : Set Object) (x : Worktrees × WorktreeAction) :
    Prop :=
  ∀ w args ctx, IsSnapshot x w args ctx →
    SnapshotObjects L W ctx args ⊆ objs ∧ W.Exact ctx.fs

/-- No work tree that is snapshotted to the timeline has touched the path. -/
def Untouched (n : RefName) (path : String) (x : Worktrees × WorktreeAction) : Prop :=
  ∀ w args ctx, IsSnapshot x w args ctx → Advances ctx args n → path ∉ x.1.touched w

/-- A work tree that is snapshotted to the timeline, and has not touched the path, has it as the
head does. -/
def SnapshotsCurrent (L : Linked) (W : DirWalk) (n : RefName) (path : String)
    (x : Worktrees × WorktreeAction) : Prop :=
  ∀ w args ctx, IsSnapshot x w args ctx → Advances ctx args n → path ∉ x.1.touched w →
    NamesApart (ctx.matcher W) ctx.fs ctx.workDir ∧ UpToDate L W ctx n path

variable {objs : Set Object} {s t : Worktrees} {a : WorktreeAction}

/-- **One step** keeps the path as the head has it. -/
lemma step_headFile (h : WorktreeStep L W json s a t)
    (hfaithful : s.ctx.repo.objects.Faithful L objs) (hhead : HeadFile L s.ctx.repo n path v)
    (hreads : ReadsBack L W objs (s, a)) (huntouched : Untouched n path (s, a))
    (hcurrent : SnapshotsCurrent L W n path (s, a)) :
    t.ctx.repo.objects.Faithful L objs ∧ HeadFile L t.ctx.repo n path v := by
  cases h with
  | @command w cmd fuel ctx o hctx hrun =>
      subst hrun
      have hleaves := run_leaves L json fuel cmd ctx
      have hrepo := (inWorktree_same hctx).1
      rw [leaveWorktree_repo]
      rw [← hrepo] at hfaithful hhead
      refine ⟨by rwa [hleaves.objects], ?_⟩
      obtain ⟨T, k, files, hT, hfiles, hv⟩ := hhead
      exact ⟨T, k, files, hleaves.refs n _ hT, by rwa [hleaves.objects], hv⟩
  | edit => exact ⟨hfaithful, hhead⟩
  | @create w args mtime fuel ctx c hctx hrun =>
      have hsnap : IsSnapshot (s, .create w args mtime fuel) w args ctx :=
        ⟨⟨mtime, fuel, rfl⟩, hctx⟩
      have hrepo := (inWorktree_same hctx).1
      obtain ⟨hobjs, hexact⟩ := hreads w args ctx hsnap
      obtain ⟨hstored, hrefs⟩ := snapshotCreate_cases hrun
      have hwritten := hstored.written
      rw [leaveWorktree_repo]
      rw [← hrepo] at hfaithful hhead
      refine ⟨(hfaithful.written (hwritten.mono fun b ⟨o, ho, hb⟩ => ⟨o, hobjs ho, hb⟩)), ?_⟩
      rcases hrefs with ⟨hsame, -⟩ | ⟨m, name, report, hadvanced, -⟩
      · exact hhead.mono (hsame n) hwritten.grows
      · by_cases hn : n = m
        · subst hn
          have hnot := huntouched w args ctx hsnap hadvanced.advances
          obtain ⟨hapart, hup⟩ := hcurrent w args ctx hsnap hadvanced.advances hnot
          exact (created_keeps_iff hadvanced hexact (hfaithful.mono hobjs) hapart).mpr hup v hhead
        · exact hhead.mono (hadvanced.others n hn) hwritten.grows

/-- **No change is lost** in a run of up-to-date snapshots: once a snapshot of a work tree has
advanced the timeline, a path stays as it is in the head through all snapshots of work trees that
have not touched it. -/
theorem no_lost_change {w : Option String} {report : SnapshotReport} {name : String}
    {s₁ : Worktrees} {steps : List (Worktrees × WorktreeAction)}
    (hctx : s.ctx.inWorktree w = some ctx)
    (hcreate : ctx.snapshotCreate L W mtime fuel args = c)
    (hok : c.result = some (.ok report)) (hadvanced : report.advanced = some name)
    (hname : cliRefName name = .ok n)
    (hstep : WorktreeStep L W json s (.create w args mtime fuel) s₁)
    (hrun : Run (WorktreeStep L W json) s₁ steps t)
    (hfaithful : s₁.ctx.repo.objects.Faithful L objs)
    (hreads : ∀ x ∈ steps, ReadsBack L W objs x)
    (huntouched : ∀ x ∈ steps, Untouched n path x)
    (hcurrent : ∀ x ∈ steps, SnapshotsCurrent L W n path x) :
    ∃ v, HeadFile L s₁.ctx.repo n path v ∧ HeadFile L t.ctx.repo n path v := by
  have hstart : ∃ v, HeadFile L s₁.ctx.repo n path v := by
    cases hstep with
    | @create _ _ _ _ ctx' c' hctx' hcreate' =>
        obtain rfl : ctx = ctx' := Option.some.inj (hctx.symm.trans hctx')
        obtain rfl : c = c' := hcreate.symm.trans hcreate'
        rw [leaveWorktree_repo]
        rcases (snapshotCreate_cases hcreate).2 with
          ⟨-, hnot⟩ | ⟨m, name', report', hadv, hok', hadvanced', hname'⟩
        · exact absurd hadvanced (hnot report name hok)
        · obtain rfl : report = report' := by
            rw [hok] at hok'
            simpa using hok'
          obtain rfl : name = name' := Option.some.inj (hadvanced.symm.trans hadvanced')
          obtain rfl : n = m := Except.ok.inj (hname.symm.trans hname')
          exact hadv.exists_headFile path
  obtain ⟨v, hv⟩ := hstart
  refine ⟨v, hv, ?_⟩
  have hinv := hrun.invariant
    (fun s => s.ctx.repo.objects.Faithful L objs ∧ HeadFile L s.ctx.repo n path v)
    (fun s a => ReadsBack L W objs (s, a) ∧ Untouched n path (s, a) ∧
      SnapshotsCurrent L W n path (s, a))
    (fun s a t hs hok hst => step_headFile hst hs.1 hs.2 hok.1 hok.2.1 hok.2.2)
    (fun x hx => ⟨hreads x hx, huntouched x hx, hcurrent x hx⟩) ⟨hfaithful, hv⟩
  exact hinv.2

/-! ### Two work trees -/

/-- A directory with the given entries. -/
def listedDir (entries : List (FileName × FileTree.Node FileName Bytes)) : Fs Bytes :=
  fun n => entries.lookup n

def fFile : FileName := ⟨['f'], by decide⟩

def gFile : FileName := ⟨['g'], by decide⟩

def copyDir : FileName := ⟨['c', 'o', 'p', 'y'], by decide⟩

/-- A work tree with two files, and with what is named `.bole` in it. -/
def twoFiles (bole : FileTree.Node FileName Bytes) (f g : String) : Fs Bytes :=
  listedDir [(repoDirName, bole), (fFile, .file (ascii f)), (gFile, .file (ascii g))]

/-- The primary work tree and a linked one. -/
def pairFs (f g f' g' : String) : Fs Bytes :=
  listedDir [(workDir, .dir (twoFiles (.dir FileTree.emptyDir) f g)),
    (copyDir, .dir (twoFiles (.file []) f' g'))]

def pairBlob (data : String) : Object := .blob (ascii data)

/-- The files of such a work tree. -/
def pairFiles (f g : String) : BTreeMap String ObjectId :=
  ((∅ : BTreeMap String ObjectId).insert "f" (pairBlob f).refId).insert "g" (pairBlob g).refId

def pairTree (f g : String) : Object := .tree ⟨blobEntries (pairFiles f g)⟩

def pairSnapshot (parents : List ObjectId) (f g : String) : Object :=
  .snapshot ⟨(pairTree f g).refId, parents, "ann", 0, ""⟩

def firstSnapshot : Object := pairSnapshot [] "0" "0"

def secondSnapshot : Object := pairSnapshot [firstSnapshot.refId] "1" "0"

def firstObjects : List Object := [pairBlob "0", pairTree "0" "0", firstSnapshot]

/-- The objects of the runs below. -/
def pairObjects : List Object :=
  firstObjects ++ [pairBlob "1", pairTree "1" "0", secondSnapshot, pairTree "0" "1",
    pairSnapshot [secondSnapshot.refId] "0" "1", pairTree "1" "1",
    pairSnapshot [secondSnapshot.refId] "1" "1"]

def pairLinked : Linked := .over pairObjects

/-- The names in these file systems. -/
def pairNames : List FileName := [workDir, copyDir, repoDirName, fFile, gFile]

/-- Directories are read in the order of these names, and nothing is ignored. -/
def pairWalk : DirWalk where
  readDir fs l :=
    match dirAt l fs with
    | none => .error (.io .notFound)
    | some d => .ok (pairNames.filter fun n => (d n).isSome)
  matched _ _ _ := false

def noJson : List FileName → String → Bytes := fun _ _ => []

/-- A repository whose timeline has two files, with an empty work tree. -/
def pairContext : RepoContext where
  repo := { Repository.memory with
    objects := .holding pairLinked firstObjects
    acls := .shipped [] [] []
    refs := ⟨(∅ : BTreeMap RefName Ref).insert guestTimeline
      (.timeline ⟨firstSnapshot.refId, .fastForwardOnly, 0, "persistent", none⟩)⟩ }
  fs := listedDir [(workDir, .dir (listedDir [(repoDirName, .dir FileTree.emptyDir)]))]
  repoDir := [workDir, repoDirName]
  workDir := [workDir]
  actors := ∅
  state := ⟨none, none⟩
  worktrees := ∅
  bindings := ∅

/-- `snapshot create --from-workspace`. -/
def pairArgs : SnapshotArgs := ⟨true, "", some "ann", false, "", 0⟩

/-- `workspace open main`. -/
def openMain : WorkspaceCommand := .openAs "main" false none none 0

/-- `workspace add copy main`. -/
def addCopy : WorkspaceCommand := .add [copyDir] "main" none

/-- The primary work tree is checked out, and a linked one beside it. -/
def addedContext : RepoContext :=
  (addCopy.run pairLinked noJson 3 (openMain.run pairLinked noJson 3 pairContext).ctx).ctx

/-- The primary work tree changes `f`, and commits. -/
def editedContext : RepoContext := { addedContext with fs := pairFs "1" "0" "0" "0" }

def firstCreated : Created := editedContext.snapshotCreate pairLinked pairWalk none 3 pairArgs

/-- The linked one, as it is bound. -/
def copyOf (ctx : RepoContext) : RepoContext :=
  { ctx with workDir := [copyDir], state := ⟨some "main", none⟩ }

/-- The linked one changes `g`, over an old checkout. -/
def staleContext : RepoContext := { firstCreated.ctx with fs := pairFs "1" "0" "0" "1" }

def staleCreated : Created :=
  (copyOf staleContext).snapshotCreate pairLinked pairWalk none 3 pairArgs

/-- The linked one is opened again. -/
def reopenedContext : RepoContext :=
  firstCreated.ctx.leaveWorktree (openMain.run pairLinked noJson 3 (copyOf firstCreated.ctx)).ctx
    (some "copy")

/-- Then it changes `g`. -/
def freshContext : RepoContext := { reopenedContext with fs := pairFs "1" "0" "1" "1" }

def freshCreated : Created :=
  (copyOf freshContext).snapshotCreate pairLinked pairWalk none 3 pairArgs

section Pair

variable {b : FileTree.Node FileName Bytes} {f g f' g' : String} {fs : Fs Bytes}
  {root names : List FileName} {data : Bytes}

/-- The files that are picked up in a work tree with two files. -/
lemma pickedUp_twoFiles (h : dirAt root fs = some (twoFiles b f g)) :
    PickedUp (fun _ _ => false) fs root names data ↔
      names = [fFile] ∧ data = ascii f ∨ names = [gFile] ∧ data = ascii g := by
  constructor
  · rintro ⟨rel, n, rfl, ⟨hbole, -⟩, hn, -, hfile⟩
    obtain ⟨d, hd, hfile⟩ := Option.bind_eq_some_iff.mp hfile
    obtain ⟨e, he, hd⟩ := dirAt_append.mp hd
    obtain rfl : twoFiles b f g = e := Option.some.inj (h.symm.trans he)
    cases rel with
    | nil =>
        cases hd
        simp only [twoFiles, listedDir, List.lookup_cons] at hfile
        split at hfile
        · next heq => exact absurd (by simpa using heq) hn
        · split at hfile
          · next heq =>
              cases hfile
              exact Or.inl ⟨by simpa using heq, rfl⟩
          · split at hfile
            · next heq =>
                cases hfile
                exact Or.inr ⟨by simpa using heq, rfl⟩
            · cases hfile
    | cons m rest =>
        -- only what is named `.bole` can be a directory
        exfalso
        rw [dirAt] at hd
        have hm : m ≠ repoDirName := fun heq => hbole (heq ▸ List.mem_cons_self)
        simp only [twoFiles, listedDir, List.lookup_cons] at hd
        split at hd
        · next e heq =>
            split at heq
            · next heq' => exact hm (by simpa using heq')
            · split at heq
              · cases heq
              · split at heq <;> cases heq
        · cases hd
  · rintro (⟨rfl, rfl⟩ | ⟨rfl, rfl⟩)
    · refine ⟨[], fFile, rfl, entered_nil, by decide, rfl, ?_⟩
      rw [List.append_nil, entryAt, h]
      rfl
    · refine ⟨[], gFile, rfl, entered_nil, by decide, rfl, ?_⟩
      rw [List.append_nil, entryAt, h]
      rfl

lemma namesApart_twoFiles (h : dirAt root fs = some (twoFiles b f g)) :
    NamesApart (fun _ _ => false) fs root := by
  refine namesApart_of_no_backslash fun names data hpicked => ?_
  rcases (pickedUp_twoFiles h).mp hpicked with ⟨rfl, -⟩ | ⟨rfl, -⟩ <;> decide

/-- The names in a file system, at all its locations, are among the given ones. -/
def NamesIn (U : List FileName) (fs : Fs Bytes) : Prop :=
  ∀ l d, dirAt l fs = some d → ∀ n, (d n).isSome → n ∈ U

lemma namesIn_listedDir {U : List FileName}
    {entries : List (FileName × FileTree.Node FileName Bytes)}
    (h : ∀ x ∈ entries, x.1 ∈ U ∧ ∀ e, x.2 = .dir e → NamesIn U e) :
    NamesIn U (listedDir entries) := by
  intro l d hd n hn
  cases l with
  | nil =>
      cases hd
      obtain ⟨node, hnode⟩ := Option.isSome_iff_exists.mp hn
      obtain ⟨l₁, l₂, heq, -⟩ := List.lookup_eq_some_iff.mp hnode
      exact (h (n, node) (by simp [heq])).1
  | cons m rest =>
      rw [dirAt] at hd
      split at hd
      · next e he =>
          obtain ⟨l₁, l₂, heq, -⟩ := List.lookup_eq_some_iff.mp he
          exact (h (m, .dir e) (by simp [heq])).2 e rfl rest d hd n hn
      · cases hd

lemma exact_of_namesIn (h : NamesIn pairNames fs) : pairWalk.Exact fs := by
  intro l names hread
  cases hd : dirAt l fs with
  | none => simp [pairWalk, hd] at hread
  | some d =>
      simp only [pairWalk, hd, Except.ok.injEq] at hread
      subst hread
      refine ⟨rfl, fun n => ?_⟩
      rw [List.mem_filter, entryAt, hd]
      exact ⟨fun hn => hn.2, fun hn => ⟨h l d hd n hn, hn⟩⟩

lemma exact_pairFs : pairWalk.Exact (pairFs f g f' g') := by
  have hempty : NamesIn pairNames FileTree.emptyDir := by
    intro l d hd n hn
    cases l with
    | nil =>
        cases hd
        cases hn
    | cons m rest => simp [dirAt, FileTree.emptyDir] at hd
  have htwo : ∀ (b : FileTree.Node FileName Bytes) (f g : String),
      (∀ e, b = .dir e → NamesIn pairNames e) → NamesIn pairNames (twoFiles b f g) := by
    intro b f g hb
    refine namesIn_listedDir ?_
    simp only [List.mem_cons, List.not_mem_nil, or_false, forall_eq_or_imp, forall_eq]
    exact ⟨⟨by decide, hb⟩, ⟨by decide, fun e he => by cases he⟩,
      ⟨by decide, fun e he => by cases he⟩⟩
  refine exact_of_namesIn (namesIn_listedDir ?_)
  simp only [List.mem_cons, List.not_mem_nil, or_false, forall_eq_or_imp, forall_eq]
  refine ⟨⟨by decide, fun e he => ?_⟩, ⟨by decide, fun e he => ?_⟩⟩
  · cases he
    exact htwo _ f g fun e he => by cases he; exact hempty
  · cases he
    exact htwo _ f' g' fun e he => by cases he

/-- What a work tree with two files holds. -/
lemma holdsFile_twoFiles (h : dirAt root fs = some (twoFiles b f g)) {path : String}
    {id : ObjectId} :
    HoldsFile pairLinked (fun _ _ => false) fs root path id ↔ (pairFiles f g)[path]? = some id := by
  have hf : collectedName [fFile] = "f" := by decide
  have hg : collectedName [gFile] = "g" := by decide
  rw [pairFiles, Std.ExtTreeMap.getElem?_insert, Std.ExtTreeMap.getElem?_insert]
  simp only [HoldsFile, pickedUp_twoFiles h, Std.LawfulEqOrd.compare_eq_iff_eq]
  constructor
  · rintro ⟨names, data, ⟨rfl, rfl⟩ | ⟨rfl, rfl⟩, rfl, rfl⟩
    · rw [hf]
      rfl
    · rw [hg]
      rfl
  · intro hid
    split_ifs at hid with hpath hpath'
    · cases hid
      exact ⟨[gFile], ascii g, Or.inr ⟨rfl, rfl⟩, by rw [hg, hpath], rfl⟩
    · cases hid
      exact ⟨[fFile], ascii f, Or.inl ⟨rfl, rfl⟩, by rw [hf, hpath'], rfl⟩
    · simp at hid

lemma dirNode_pair (f g : String) : dirNode (pairFiles f g) = .node (pairFiles f g) [] := by
  have hlist : (pairFiles f g).toList = [("f", (pairBlob f).refId), ("g", (pairBlob g).refId)] :=
    rfl
  have hf : pathSegments "f" = ["f"] := by decide
  have hg : pathSegments "g" = ["g"] := by decide
  rw [dirNode, hlist, List.foldl_cons, List.foldl_cons, List.foldl_nil, hf, hg]
  rfl

/-- What a snapshot of such a work tree may write. -/
lemma snapshotObjects_pair {ctx : RepoContext} (base : ObjectId)
    (h : dirAt ctx.workDir ctx.fs = some (twoFiles b f g)) (hexact : pairWalk.Exact ctx.fs)
    (hbase : ctx.boundHead = .ok (some base))
    (hobjs : ∀ o ∈ [pairBlob f, pairBlob g, pairTree f g, pairSnapshot [base] f g],
      o ∈ pairObjects) :
    SnapshotObjects pairLinked pairWalk ctx pairArgs ⊆ {o | o ∈ pairObjects} := by
  rintro o ⟨base', hbase', ⟨names, data, hpicked, rfl⟩ | ⟨fuel, files, hcollect, ho⟩⟩
  · rcases (pickedUp_twoFiles h).mp hpicked with ⟨-, rfl⟩ | ⟨-, rfl⟩
    · exact hobjs (pairBlob f) (by simp)
    · exact hobjs (pairBlob g) (by simp)
  · obtain rfl : some base = base' := Except.ok.inj (hbase.symm.trans hbase')
    change collect (openDir pairLinked pairWalk (fun _ _ => false) ctx.fs ctx.workDir) _ fuel
      [[]] ∅ = .ok (some files) at hcollect
    have hemits : ∀ (path : String) id, Emits (openDir pairLinked pairWalk (fun _ _ => false) ctx.fs
        ctx.workDir) [] path id ↔ (pairFiles f g)[path]? = some id := fun path id => by
      rw [emits_openDir hexact fun x => collect_visits hcollect, ← holdsFile_twoFiles h]
      rfl
    have hfiles : files = pairFiles f g := by
      refine Std.ExtTreeMap.ext_getElem? fun path => Option.ext fun id => ?_
      rw [← hemits]
      refine getElem?_collect hcollect fun k v w hv hw => ?_
      have hv' := (hemits k v).mp hv
      rw [(hemits k w).mp hw] at hv'
      exact (Option.some.inj hv').symm
    subst hfiles
    rw [dirNode_pair] at ho
    rcases ho with ⟨t, ht, rfl⟩ | rfl
    · simp only [DirNode.trees, DirNode.treesIn, List.mem_singleton] at ht
      subst ht
      exact hobjs (pairTree f g) (by simp)
    · exact hobjs (pairSnapshot [base] f g) (by simp)

end Pair

/-! ### A lost change, and one that is kept -/

/-- The store is faithful to the objects of the runs. -/
lemma pair_faithful : addedContext.repo.objects.Faithful pairLinked {o | o ∈ pairObjects} := by
  have hopened := (run_leaves pairLinked noJson 3 openMain pairContext).objects
  have hadded := (run_leaves pairLinked noJson 3 addCopy
    (openMain.run pairLinked noJson 3 pairContext).ctx).objects
  rw [addedContext, hadded, hopened, pairContext]
  exact ObjectStore.faithful_over (by decide +kernel) (by decide +kernel) (by decide +kernel)

lemma eq_of_collectedName {names : List FileName} (hne : names ≠ [])
    (h : "f" = collectedName names) : names = [fFile] := by
  have hslash : '/' ∉ "f".toList := by decide
  have hf : relPath [fFile] = "f" := by decide
  rw [h] at hslash hf
  rw [collectedName_of_no_slash hslash] at hf
  exact relPath_injective hne (by simp) hf.symm

/-- An edit that leaves `f` has not changed it. -/
lemma f_unchanged {fs fs' : Fs Bytes} {root : List FileName}
    (h : FileTree.lookup (root ++ [fFile]) fs = FileTree.lookup (root ++ [fFile]) fs') :
    "f" ∉ changedPaths fs fs' root := by
  rintro ⟨names, hne, hname, hdiff⟩
  obtain rfl := eq_of_collectedName hne hname
  exact hdiff h

lemma inWorktree_copy {ctx : RepoContext} (hpath : ctx.worktrees["copy"]? = some [copyDir])
    (hbinding : ctx.bindings["copy"]? = some ⟨some "main", none⟩) :
    ctx.inWorktree (some "copy") = some (copyOf ctx) := by
  simp [RepoContext.inWorktree, hpath, hbinding, copyOf]

/-! The steps that can be taken. -/

lemma exists_command {s : Worktrees} {w : Option String} {ctx : RepoContext}
    (cmd : WorkspaceCommand) (h : s.ctx.inWorktree w = some ctx) :
    ∃ t, WorktreeStep pairLinked pairWalk noJson s (.command w cmd 3) t ∧
      t.ctx = s.ctx.leaveWorktree (cmd.run pairLinked noJson 3 ctx).ctx w ∧
      ∀ w', t.touched w' ⊆ s.touched w' := by
  refine ⟨_, .command h rfl, rfl, fun w' => ?_⟩
  dsimp only
  split_ifs
  · rw [Function.update_apply]
    split_ifs
    · exact Set.empty_subset _
    · exact subset_rfl
  · exact subset_rfl

lemma exists_edit (s : Worktrees) (fs : Fs Bytes) :
    ∃ t, WorktreeStep pairLinked pairWalk noJson s (.edit fs) t ∧ t.ctx = { s.ctx with fs := fs } ∧
      ∀ w ctx, s.ctx.inWorktree w = some ctx → "f" ∉ s.touched w →
        FileTree.lookup (ctx.workDir ++ [fFile]) s.ctx.fs =
          FileTree.lookup (ctx.workDir ++ [fFile]) fs → "f" ∉ t.touched w := by
  refine ⟨_, .edit, rfl, fun w ctx hctx hnot hsame hmem => ?_⟩
  rcases hmem with hmem | ⟨ctx', hctx', hmem⟩
  · exact hnot hmem
  · obtain rfl : ctx = ctx' := Option.some.inj (hctx.symm.trans hctx')
    exact f_unchanged hsame hmem

lemma exists_create {s : Worktrees} {w : Option String} {ctx : RepoContext}
    (h : s.ctx.inWorktree w = some ctx) :
    ∃ t, WorktreeStep pairLinked pairWalk noJson s (.create w pairArgs none 3) t ∧
      t.ctx = s.ctx.leaveWorktree (ctx.snapshotCreate pairLinked pairWalk none 3 pairArgs).ctx w ∧
      ∀ w', t.touched w' ⊆ s.touched w' := by
  refine ⟨_, .create h rfl, rfl, fun w' => ?_⟩
  dsimp only
  split_ifs
  · rw [Function.update_apply]
    split_ifs
    · exact Set.empty_subset _
    · exact subset_rfl
  · exact subset_rfl

/-- What checking both work trees out leaves behind. -/
lemma addedContext_leaves :
    addedContext.worktrees["copy"]? = some [copyDir] ∧
      addedContext.bindings["copy"]? = some ⟨some "main", none⟩ ∧
      FileTree.lookup [copyDir, fFile] addedContext.fs =
        FileTree.lookup [copyDir, fFile] (pairFs "1" "0" "0" "0") ∧
      editedContext.workDir = [workDir] ∧
      editedContext.boundHead = .ok (some firstSnapshot.refId) ∧
      cliRefName "main" = .ok guestTimeline := by
  decide +kernel

lemma pair_main : cliRefName "main" = .ok guestTimeline := addedContext_leaves.2.2.2.2.2

/-- **Both are checked out**, the primary work tree changes `f` and its snapshot advances the
timeline. -/
lemma pair_first : ∃ pre s s₁,
    Run (WorktreeStep pairLinked pairWalk noJson) ⟨pairContext, fun _ => ∅⟩ pre s ∧
      s.ctx = editedContext ∧
      WorktreeStep pairLinked pairWalk noJson s (.create none pairArgs none 3) s₁ ∧
      s₁.ctx = firstCreated.ctx ∧ "f" ∉ s₁.touched (some "copy") := by
  obtain ⟨hpath, hbinding, hsame, -⟩ := addedContext_leaves
  have hcopy : addedContext.inWorktree (some "copy") = some (copyOf addedContext) :=
    inWorktree_copy hpath hbinding
  obtain ⟨a, hopen, ha, hta⟩ := exists_command (s := ⟨pairContext, fun _ => ∅⟩) (w := none)
    openMain rfl
  obtain ⟨b, hadd, hb, htb⟩ := exists_command (s := a) (w := none) addCopy rfl
  rw [leaveWorktree_none] at ha hb
  rw [ha] at hb
  change b.ctx = addedContext at hb
  obtain ⟨s, hedit, hs, hts⟩ := exists_edit b (pairFs "1" "0" "0" "0")
  rw [hb] at hs hts
  change s.ctx = editedContext at hs
  obtain ⟨s₁, hcreate, hs₁, hts₁⟩ := exists_create (s := s) (w := none) rfl
  rw [leaveWorktree_none, hs] at hs₁
  refine ⟨_, s, s₁, .cons hopen (.cons hadd (.single hedit)), hs, hcreate, hs₁, fun hf => ?_⟩
  exact hts _ _ hcopy (fun hf => (hta _ (htb _ hf)).elim) hsame (hts₁ _ hf)

/-- The first snapshot may write the objects of the runs. -/
lemma edited_objects :
    SnapshotObjects pairLinked pairWalk editedContext pairArgs ⊆ {o | o ∈ pairObjects} := by
  obtain ⟨-, -, -, hdir, hbase, -⟩ := addedContext_leaves
  refine snapshotObjects_pair (b := .dir FileTree.emptyDir) (f := "1") (g := "0")
    firstSnapshot.refId ?_ exact_pairFs hbase ?_
  · rw [hdir]
    rfl
  · simp [pairObjects, firstObjects, secondSnapshot]

/-- The store stays faithful. -/
lemma firstCreated_faithful :
    firstCreated.ctx.repo.objects.Faithful pairLinked {o | o ∈ pairObjects} := by
  have hstored : Stored pairLinked pairWalk none 3 editedContext pairArgs firstCreated :=
    (snapshotCreate_cases rfl).1
  have hsame : editedContext.repo = addedContext.repo := by rw [editedContext]
  refine ObjectStore.Faithful.written (s := editedContext.repo.objects) ?_ ?_
  · rw [hsame]
    exact pair_faithful
  exact hstored.written.mono fun b ⟨o, ho, hb⟩ => ⟨o, edited_objects ho, hb⟩

/-- What the head has under a path, for the given number of turns of the walk. -/
def headPath (L : Linked) (fuel : ℕ) (r : Repository) (n : RefName) (path : String) :
    Option (Option ObjectId) :=
  match r.refs.get n with
  | some (.timeline T) =>
      match snapshotPaths L r.objects fuel T.head with
      | .ok (some files) => some files[path]?
      | _ => none
  | _ => none

lemma headFile_of_headPath {L : Linked} (fuel : ℕ) {r : Repository} {n : RefName} {path : String}
    {v : Option ObjectId} (h : headPath L fuel r n path = some v) : HeadFile L r n path v := by
  rw [headPath] at h
  split at h
  · next T hT =>
      split at h
      · next files hfiles => exact ⟨T, fuel, files, hT, hfiles, Option.some.inj h⟩
      · cases h
  · cases h

/-- What the first snapshot leaves behind, and the stale one after it. -/
lemma firstCreated_leaves :
    firstCreated.result = some (.ok ⟨secondSnapshot.refId, 2, some "main"⟩) ∧
      firstCreated.ctx.worktrees["copy"]? = some [copyDir] ∧
      firstCreated.ctx.bindings["copy"]? = some ⟨some "main", none⟩ ∧
      FileTree.lookup [copyDir, fFile] firstCreated.ctx.fs =
        FileTree.lookup [copyDir, fFile] (pairFs "1" "0" "0" "1") ∧
      headPath pairLinked 3 firstCreated.ctx.repo guestTimeline "f" =
        some (some (pairBlob "1").refId) ∧
      (copyOf staleContext).boundHead = .ok (some secondSnapshot.refId) ∧
      headPath pairLinked 3 staleCreated.ctx.repo guestTimeline "f" =
        some (some (pairBlob "0").refId) := by
  decide +kernel

lemma firstCreated_copy :
    firstCreated.ctx.inWorktree (some "copy") = some (copyOf firstCreated.ctx) :=
  inWorktree_copy firstCreated_leaves.2.1 firstCreated_leaves.2.2.1

lemma staleContext_copy : staleContext.inWorktree (some "copy") = some (copyOf staleContext) := by
  obtain ⟨-, hpath, hbinding, -⟩ := firstCreated_leaves
  refine inWorktree_copy ?_ ?_
  · simpa only [staleContext] using hpath
  · simpa only [staleContext] using hbinding

/-- What the linked work tree has once it is opened again. -/
lemma reopenedContext_leaves : reopenedContext.worktrees["copy"]? = some [copyDir] ∧
    reopenedContext.bindings["copy"]? = some ⟨some "main", none⟩ ∧
    FileTree.lookup [copyDir, fFile] reopenedContext.fs =
      FileTree.lookup [copyDir, fFile] (pairFs "1" "0" "1" "1") ∧
    headPath pairLinked 3 (copyOf freshContext).repo guestTimeline "f" =
      some (some (pairBlob "1").refId) ∧
    (copyOf freshContext).boundHead = .ok (some secondSnapshot.refId) ∧
    freshCreated.result = some (.ok
      ⟨(pairSnapshot [secondSnapshot.refId] "1" "1").refId, 2, some "main"⟩) ∧
    (pairFiles "1" "1")["f"]? = some (pairBlob "1").refId := by
  decide +kernel

lemma reopenedContext_copy :
    reopenedContext.inWorktree (some "copy") = some (copyOf reopenedContext) :=
  inWorktree_copy reopenedContext_leaves.1 reopenedContext_leaves.2.1

lemma freshContext_copy : freshContext.inWorktree (some "copy") = some (copyOf freshContext) := by
  obtain ⟨hpath, hbinding, -⟩ := reopenedContext_leaves
  refine inWorktree_copy ?_ ?_
  · simpa only [freshContext] using hpath
  · simpa only [freshContext] using hbinding

lemma not_isSnapshot_edit {s : Worktrees} {fs : Fs Bytes} {w : Option String} {args : SnapshotArgs}
    {ctx : RepoContext} : ¬ IsSnapshot (s, .edit fs) w args ctx := by
  rintro ⟨⟨m, k, h⟩, -⟩
  cases h

lemma not_isSnapshot_command {s : Worktrees} {w w' : Option String} {cmd : WorkspaceCommand}
    {k : ℕ} {args : SnapshotArgs} {ctx : RepoContext} :
    ¬ IsSnapshot (s, .command w cmd k) w' args ctx := by
  rintro ⟨⟨m, k', h⟩, -⟩
  cases h

lemma isSnapshot_copy {s : Worktrees} {c : RepoContext} {w : Option String} {args : SnapshotArgs}
    {ctx : RepoContext} (hcopy : s.ctx.inWorktree (some "copy") = some c)
    (h : IsSnapshot (s, .create (some "copy") pairArgs none 3) w args ctx) :
    w = some "copy" ∧ args = pairArgs ∧ ctx = c := by
  obtain ⟨⟨m, k, h⟩, hctx⟩ := h
  cases h
  exact ⟨rfl, rfl, Option.some.inj (hctx.symm.trans hcopy)⟩

/-- **A change is lost**: the linked work tree has not touched `f`, and its snapshot puts the old
`f` back. -/
theorem stale_snapshot_reverts : ∃ pre s s₁ steps t,
    Run (WorktreeStep pairLinked pairWalk noJson) ⟨pairContext, fun _ => ∅⟩ pre s ∧
      (∃ report, (s.ctx.snapshotCreate pairLinked pairWalk none 3 pairArgs).result =
        some (.ok report) ∧ report.advanced = some "main") ∧
      WorktreeStep pairLinked pairWalk noJson s (.create none pairArgs none 3) s₁ ∧
      Run (WorktreeStep pairLinked pairWalk noJson) s₁ steps t ∧
      s₁.ctx.repo.objects.Faithful pairLinked {o | o ∈ pairObjects} ∧
      (∀ x ∈ steps, ReadsBack pairLinked pairWalk {o | o ∈ pairObjects} x) ∧
      (∀ x ∈ steps, Untouched guestTimeline "f" x) ∧
      HeadFile pairLinked s₁.ctx.repo guestTimeline "f" (some (pairBlob "1").refId) ∧
      HeadFile pairLinked t.ctx.repo guestTimeline "f" (some (pairBlob "0").refId) := by
  obtain ⟨pre, s, s₁, hpre, hs, hfirst, hs₁, hf⟩ := pair_first
  obtain ⟨hresult, -, -, hsame, hhead, hbase, hstale⟩ := firstCreated_leaves
  obtain ⟨s₂, hedit, hs₂, hts₂⟩ := exists_edit s₁ (pairFs "1" "0" "0" "1")
  rw [hs₁] at hs₂ hts₂
  change s₂.ctx = staleContext at hs₂
  have hf₂ := hts₂ _ _ firstCreated_copy hf hsame
  have hcopy : s₂.ctx.inWorktree (some "copy") = some (copyOf staleContext) := by
    rw [hs₂]
    exact staleContext_copy
  obtain ⟨t, hcreate, ht, -⟩ := exists_create hcopy
  refine ⟨pre, s, s₁, _, t, hpre, ?_, hfirst, .cons hedit (.single hcreate), ?_, ?_, ?_, ?_, ?_⟩
  · rw [hs]
    exact ⟨_, hresult, rfl⟩
  · rw [hs₁]
    exact firstCreated_faithful
  · simp only [List.mem_cons, List.not_mem_nil, or_false, forall_eq_or_imp, forall_eq]
    refine ⟨fun w args ctx h => (not_isSnapshot_edit h).elim, fun w args ctx h => ?_⟩
    obtain ⟨rfl, rfl, rfl⟩ := isSnapshot_copy hcopy h
    refine ⟨?_, exact_pairFs⟩
    exact snapshotObjects_pair (b := .file []) (f := "0") (g := "1")
      secondSnapshot.refId rfl exact_pairFs hbase
      (by simp [pairObjects, firstObjects])
  · simp only [List.mem_cons, List.not_mem_nil, or_false, forall_eq_or_imp, forall_eq]
    refine ⟨fun w args ctx h => (not_isSnapshot_edit h).elim, fun w args ctx h _ => ?_⟩
    obtain ⟨rfl, rfl, rfl⟩ := isSnapshot_copy hcopy h
    exact hf₂
  · rw [hs₁]
    exact headFile_of_headPath 3 hhead
  · rw [ht, leaveWorktree_repo]
    rw [staleCreated] at hstale
    exact headFile_of_headPath 3 hstale

/-- Opened again, the linked work tree has the new `f`, and its snapshot keeps it. -/
theorem no_lost_change_reopened : ∃ pre s s₁ steps t,
    Run (WorktreeStep pairLinked pairWalk noJson) ⟨pairContext, fun _ => ∅⟩ pre s ∧
      WorktreeStep pairLinked pairWalk noJson s (.create none pairArgs none 3) s₁ ∧
      Run (WorktreeStep pairLinked pairWalk noJson) s₁ steps t ∧
      t.ctx.repo = freshCreated.ctx.repo ∧
      (∃ report, freshCreated.result = some (.ok report) ∧ report.advanced = some "main") ∧
      ∃ v, HeadFile pairLinked s₁.ctx.repo guestTimeline "f" v ∧
        HeadFile pairLinked t.ctx.repo guestTimeline "f" v := by
  obtain ⟨pre, s, s₁, hpre, hs, hfirst, hs₁, hf⟩ := pair_first
  obtain ⟨hresult, -⟩ := firstCreated_leaves
  obtain ⟨-, -, hsame, hhead₁, hbase, hfresh, hfile⟩ := reopenedContext_leaves
  have hcopy₁ := firstCreated_copy
  rw [← hs₁] at hcopy₁
  obtain ⟨s₂, hopen, hs₂, hts₂⟩ := exists_command openMain hcopy₁
  rw [hs₁] at hs₂
  change s₂.ctx = reopenedContext at hs₂
  obtain ⟨s₃, hedit, hs₃, hts₃⟩ := exists_edit s₂ (pairFs "1" "0" "1" "1")
  rw [hs₂] at hs₃ hts₃
  change s₃.ctx = freshContext at hs₃
  have hf₃ := hts₃ _ _ reopenedContext_copy (fun h => hf (hts₂ _ h)) hsame
  have hcopy₃ : s₃.ctx.inWorktree (some "copy") = some (copyOf freshContext) := by
    rw [hs₃]
    exact freshContext_copy
  obtain ⟨t, hcreate, ht, -⟩ := exists_create hcopy₃
  have hrun := Run.cons hopen (.cons hedit (.single hcreate))
  refine ⟨pre, s, s₁, _, t, hpre, hfirst, hrun, ?_, ⟨_, hfresh, rfl⟩, ?_⟩
  · rw [ht, leaveWorktree_repo, freshCreated]
  have hctx : s.ctx.inWorktree none = some editedContext := by
    rw [hs, inWorktree_none]
  have hfaithful : s₁.ctx.repo.objects.Faithful pairLinked {o | o ∈ pairObjects} := by
    rw [hs₁]
    exact firstCreated_faithful
  refine no_lost_change hctx rfl hresult rfl pair_main hfirst hrun hfaithful ?_ ?_ ?_
  · simp only [List.mem_cons, List.not_mem_nil, or_false, forall_eq_or_imp, forall_eq]
    refine ⟨fun w args ctx h => (not_isSnapshot_command h).elim,
      fun w args ctx h => (not_isSnapshot_edit h).elim, fun w args ctx h => ?_⟩
    obtain ⟨rfl, rfl, rfl⟩ := isSnapshot_copy hcopy₃ h
    refine ⟨?_, exact_pairFs⟩
    exact snapshotObjects_pair (b := .file []) (f := "1") (g := "1")
      secondSnapshot.refId rfl exact_pairFs hbase
      (by simp [pairObjects, firstObjects])
  · simp only [List.mem_cons, List.not_mem_nil, or_false, forall_eq_or_imp, forall_eq]
    refine ⟨fun w args ctx h => (not_isSnapshot_command h).elim,
      fun w args ctx h => (not_isSnapshot_edit h).elim, fun w args ctx h _ => ?_⟩
    obtain ⟨rfl, rfl, rfl⟩ := isSnapshot_copy hcopy₃ h
    exact hf₃
  · simp only [List.mem_cons, List.not_mem_nil, or_false, forall_eq_or_imp, forall_eq]
    refine ⟨fun w args ctx h => (not_isSnapshot_command h).elim,
      fun w args ctx h => (not_isSnapshot_edit h).elim, fun w args ctx h _ _ => ?_⟩
    obtain ⟨rfl, rfl, rfl⟩ := isSnapshot_copy hcopy₃ h
    have htwo : dirAt (copyOf freshContext).workDir (copyOf freshContext).fs =
        some (twoFiles (.file []) "1" "1") := rfl
    refine ⟨namesApart_twoFiles htwo, fun v hv id => ?_⟩
    have hhead : HeadFile pairLinked (copyOf freshContext).repo guestTimeline "f"
        (some (pairBlob "1").refId) := headFile_of_headPath 3 hhead₁
    rw [hv.unique hhead, ← hfile]
    exact (holdsFile_twoFiles htwo).symm

end Bole
