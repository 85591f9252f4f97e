import Bole.Lib.Talk
import Bole.Sync.Fetch

/-!
The sync sessions over a connection: `serve`, `serve_fetch`, `serve_push`, `client_fetch` and
`client_push` of `src/sync/session.rs`.

The other end of the connection is a peer that says what it likes.

* `fetchSession_keeps`: serving a fetch changes nothing.
-/

namespace Bole

open Talk

/-- A party of a sync session, working on a repository. -/
abbrev SyncSession := Session Repository Message Error

namespace Repository

open Talk.Session

/-! ### Serving -/

/-- Sends an error and stops with another. -/
def refuse (text : String) (e : Error) : SyncSession Unit := do
  send (.error text)
  fail e

/-- `serve_fetch`, over a connection. -/
def fetchSession (L : Linked) (accessor : Accessor) : SyncSession Unit := do
  let refs ← ask fun r => r.advertise accessor
  send (.welcome refs)
  match ← recv with
  | .haveWant want have_ => do
      let pack ← ask fun r => r.servePack L refs want have_
      send (.pack pack)
      send .done
  | _ => fail (.storage "protocol: expected HaveWant")

/-- The objects of a pack land. -/
def land (L : Linked) (mtime : Option ℕ) (objects : List (ObjectId × Bytes)) (r : Repository) :
    Result Unit × Repository :=
  ((ObjectStore.land L mtime objects r.objects).1,
    { r with objects := (ObjectStore.land L mtime objects r.objects).2 })

/-- `serve_push`. -/
def pushSession (L : Linked) (mtime : Option ℕ) (accessor : Accessor) : SyncSession Unit := do
  let refs ← ask fun r => r.advertise accessor
  send (.welcome refs)
  match ← recv with
  | .pack pack => do
      let decoded ← ask fun _ => decodePack L.toCrates pack
      match ← recv with
      | .refUpdate ops =>
          if !accessor.hasWriteCapability then
            send (.refStatus (ops.map fun op => ⟨op.name, .denied "no write capability"⟩))
          else do
            act (land L mtime decoded)
            let results ← act fun r => r.applyPushOps L accessor ops
            send (.refStatus results)
      | _ => fail (.storage "protocol: expected RefUpdate")
  | _ => fail (.storage "protocol: expected Pack")

/-- `serve`. -/
def serve (L : Linked) (mtime : Option ℕ) (accessor : Accessor) : SyncSession Unit := do
  match ← recv with
  | .hello .fetch _ => fetchSession L accessor
  | .hello .clone _ => fetchSession L accessor
  | .hello .push _ => pushSession L mtime accessor
  | _ => refuse "expected Hello" (.storage "protocol: expected Hello")

/-! ### Fetching -/

/-- `tracking_ref`. -/
def trackingRef (remote : String) (name : RefName) : Result RefName :=
  match RefName.new ("refs/remotes/" ++ remote ++ "/" ++ name.asStr) with
  | .ok n => .ok n
  | .error _ => .error (.storage ("bad tracking ref name: invalid ref name: " ++
      (refNameError ("refs/remotes/" ++ remote ++ "/" ++ name.asStr)).getD ""))

/-- The tracking refs of adverts. -/
def trackingRefs (remote : String) : List RefAdvert → Result (List (RefName × ObjectId))
  | [] => .ok []
  | ad :: rest => do
      let name ← trackingRef remote ad.name
      let tracked ← trackingRefs remote rest
      .ok ((name, ad.target) :: tracked)

/-- The transaction that sets the tracking refs. -/
def track (remote : String) (refs : List RefAdvert) (r : Repository) :
    Result (List (RefName × ObjectId)) × Repository :=
  match trackingRefs remote refs with
  | .error e => (.error e, r)
  | .ok tracked =>
      match r.refs.commit (tracked.map fun t => .set t.1 (.tag ⟨t.2, 0, none⟩)) with
      | (.error e, refs) => (.error e, { r with refs := refs })
      | (.ok (), refs) => (.ok tracked, { r with refs := refs })

/-- `client_fetch`. -/
def clientFetch (L : Linked) (mtime : Option ℕ) (remote : String) :
    SyncSession (List (RefName × ObjectId)) := do
  send (.hello .fetch)
  match ← recv with
  | .welcome refs _ _ => do
      let have_ ← ask fun r => .ok r.objects.list
      send (.haveWant (refs.map RefAdvert.target) have_)
      match ← recv with
      | .pack pack => do
          let _ ← recv
          let decoded ← ask fun _ => decodePack L.toCrates pack
          act (land L mtime decoded)
          act (track remote refs)
      | _ => fail (.storage "protocol: expected Pack")
  | .error e => fail (.storage e)
  | _ => fail (.storage "protocol: expected Welcome")

/-! ### Pushing -/

/-- The operations of `client_push`; a timeline that is not there is left out. -/
def pushOps (r : Repository) (remote : String) : List RefName → Result (List RefUpdateOp)
  | [] => .ok []
  | name :: rest => do
      match ← r.refs.getTimeline name with
      | none => pushOps r remote rest
      | some tl => do
          let tracking ← trackingRef remote name
          let seen ← r.refs.getTag tracking
          let ops ← pushOps r remote rest
          .ok (⟨name, seen.map Tag.target, tl.head⟩ :: ops)

/-- The pack of `client_push`, for a server that has the given objects. -/
def pushPack (L : Linked) (r : Repository) (ops : List RefUpdateOp) (have_ : List ObjectId) :
    Result Bytes := do
  let missing ← missingClosure L r.objects (ops.map RefUpdateOp.newHead) have_.toFinset
  r.buildPack L missing

/-- The tracking refs of the operations that are reported as done. -/
def pushedRefs (remote : String) (ops : List RefUpdateOp) :
    List RefStatusEntry → Result (List RefOp)
  | [] => .ok []
  | entry :: rest =>
      if entry.status = .ok then
        match ops.find? fun op => decide (op.name = entry.name) with
        | some op => do
            let name ← trackingRef remote entry.name
            let sets ← pushedRefs remote ops rest
            .ok (.set name (.tag ⟨op.newHead, 0, none⟩) :: sets)
        | none => pushedRefs remote ops rest
      else pushedRefs remote ops rest

/-- The transaction that sets them. -/
def trackPushed (remote : String) (ops : List RefUpdateOp) (results : List RefStatusEntry)
    (r : Repository) : Result Unit × Repository :=
  match pushedRefs remote ops results with
  | .error e => (.error e, r)
  | .ok sets => ((r.refs.commit sets).1, { r with refs := (r.refs.commit sets).2 })

/-- `client_push`. -/
def clientPush (L : Linked) (remote : String) (timelines : List RefName) :
    SyncSession (List RefStatusEntry) := do
  send (.hello .push)
  match ← recv with
  | .welcome refs _ _ => do
      let ops ← ask fun r => r.pushOps remote timelines
      let pack ← ask fun r => r.pushPack L ops (refs.map RefAdvert.target)
      send (.pack pack)
      send (.refUpdate ops)
      match ← recv with
      | .refStatus results => do
          act (trackPushed remote ops results)
          pure results
      | .error e => fail (.storage e)
      | _ => fail (.storage "protocol: expected RefStatus")
  | .error e => fail (.storage e)
  | _ => fail (.storage "protocol: expected Welcome")

/-! ### What the sessions change -/

variable {L : Linked} {r : Repository} {mtime : Option ℕ} {accessor : Accessor}

lemma refuse_keeps (I : Repository → Prop) (text : String) (e : Error) :
    Keeps I (refuse text e) := .bind (.send _) fun _ => .fail e

/-- Serving a fetch changes nothing. -/
lemma fetchSession_keeps (I : Repository → Prop) : Keeps I (fetchSession L accessor) := by
  refine .bind (.ask _) fun refs => .bind (.send _) fun _ => .bind .recv fun m => ?_
  split
  · exact .bind (.ask _) fun pack => .bind (.send _) fun _ => .send _
  · exact .fail _

end Repository

end Bole
