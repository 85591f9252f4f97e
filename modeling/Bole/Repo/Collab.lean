import Bole.Postcard
import Bole.Repo.Basic

/-!
Publication of collaboration objects: `publish_profile` of `src/repo/collab.rs` and `publish_repo`
of `src/repo/reporecord.rs`, with the signatures of `src/collab/object.rs` and
`src/reporecord.rs`.

* `get_publishProfile`: a profile is published under the fingerprint of its key and changes no
  other ref;
* `get_publishRepo`: so is a repo record, under its owner's.
-/

namespace Bole

/-! ### Keys and signatures -/

/-- `fingerprint`. -/
def fingerprint (C : Crates) (key : Digest) : String := (C.blake3 key.bytes).hex

/-- `COLLAB_PUBLIC_PREFIX`. -/
def collabPublicPrefix : String := "refs/collab/public/"

/-- `COLLAB_REMOTES_PREFIX`. -/
def collabRemotesPrefix : String := "refs/collab/remotes/"

/-- `COLLAB_RELAYS_PREFIX`. -/
def collabRelaysPrefix : String := "refs/collab/relays/"

/-- `profile_message`. -/
def profileMessage (p : Profile) : Bytes :=
  ascii "bole-collab-profile-v1" ++ [0] ++ Postcard.profileMsg p

/-- `verify_profile`. -/
def verifyProfile (L : Linked) (p : Profile) : Bool :=
  decide (p.sig.length = 64) && L.ed25519Verify p.key (profileMessage p) p.sig

/-- `edge_message`. -/
def edgeMessage (e : TrustEdge) : Bytes :=
  ascii "bole-collab-edge-v1" ++ [0] ++ Postcard.edgeMsg e

/-- `verify_edge`. -/
def verifyEdge (L : Linked) (e : TrustEdge) : Bool :=
  decide (e.sig.length = 64) && L.ed25519Verify e.fromKey (edgeMessage e) e.sig

/-- `repo_message`. -/
def repoMessage (r : RepoRecord) : Bytes :=
  ascii "bole-repo-record-v1" ++ [0] ++ Postcard.repoMsg r

/-- `verify_repo`. -/
def verifyRepo (L : Linked) (r : RepoRecord) : Bool :=
  decide (r.sig.length = 64) && L.ed25519Verify r.owner (repoMessage r) r.sig

/-- The name of the tag at the profile of a key. -/
def profileRef (C : Crates) (key : Digest) : String :=
  collabPublicPrefix ++ "profile/" ++ fingerprint C key

/-- `kind_seg`. -/
def kindSeg : TrustKind → String
  | .vouch => "vouch"
  | .follow => "follow"
  | .review => "review"

/-- The name of the tag at a trust edge. -/
def edgeRef (C : Crates) (e : TrustEdge) : String :=
  collabPublicPrefix ++ "edge/" ++ fingerprint C e.fromKey ++ "/" ++ kindSeg e.kind ++ "/" ++
    fingerprint C e.toKey

/-- `repo_ref`. -/
def repoRef (C : Crates) (owner : Digest) (name : String) : String :=
  collabPublicPrefix ++ "repo/" ++ fingerprint C owner ++ "/" ++ name

/-! ### Publication -/

namespace Repository

/-- The end of both publications: the object is written, and a tag set at it. -/
def publishTag (L : Linked) (r : Repository) (obj : Object) (name : Result RefName)
    (mtime : Option ℕ) : Result ObjectId × Repository :=
  match r.objects.put L obj mtime with
  | (.error e, objects) => (.error e, { r with objects := objects })
  | (.ok id, objects) =>
      match name with
      | .error e => (.error e, { r with objects := objects })
      | .ok name =>
          match r.refs.commit [.set name (.tag ⟨id, 0, none⟩)] with
          | (.error e, refs) => (.error e, { r with objects := objects, refs := refs })
          | (.ok (), refs) => (.ok id, { r with objects := objects, refs := refs })

/-- `profile`. -/
def profile (L : Linked) (r : Repository) (key : Digest) : Result (Option Profile) := do
  let name ← RefName.new (profileRef L.toCrates key)
  match ← r.refs.getTag name with
  | none => .ok none
  | some t =>
      match ← r.objects.get L t.target with
      | some (.collab (.profile p)) => .ok (some p)
      | _ => .ok none

/-- `publish_profile`. -/
def publishProfile (L : Linked) (r : Repository) (p : Profile) (mtime : Option ℕ) :
    Result ObjectId × Repository :=
  if !verifyProfile L p then
    (.error (.policyViolation "profile signature does not verify"), r)
  else
    match r.profile L p.key with
    | .error e => (.error e, r)
    | .ok cur =>
        if cur.any fun cur => decide (p.seq ≤ cur.seq) then
          (.error (.policyViolation "profile seq must be greater than the current profile's"), r)
        else
          r.publishTag L (.collab (.profile p)) (RefName.new (profileRef L.toCrates p.key)) mtime

/-- The edge that a tag points at. -/
def edgeAt (L : Linked) (r : Repository) (name : RefName) : Result (Option TrustEdge) := do
  match ← r.refs.getTag name with
  | none => .ok none
  | some t =>
      match ← r.objects.get L t.target with
      | some (.collab (.trustEdge cur)) => .ok (some cur)
      | _ => .ok none

/-- The loop of `public_edges`. -/
def edgesAt (L : Linked) (r : Repository) : List RefName → Result (List TrustEdge)
  | [] => .ok []
  | name :: rest => do
      match ← r.edgeAt L name with
      | some e => do
          let out ← edgesAt L r rest
          .ok (e :: out)
      | none => edgesAt L r rest

/-- `public_edges`. -/
def publicEdges (L : Linked) (r : Repository) : Result (List TrustEdge) :=
  r.edgesAt L (r.refs.list (collabPublicPrefix ++ "edge/"))

/-- `publish_edge`. -/
def publishEdge (L : Linked) (r : Repository) (e : TrustEdge) (mtime : Option ℕ) :
    Result ObjectId × Repository :=
  if !verifyEdge L e then
    (.error (.policyViolation "trust edge signature does not verify"), r)
  else
    match RefName.new (edgeRef L.toCrates e) with
    | .error err => (.error err, r)
    | .ok name =>
        match r.edgeAt L name with
        | .error err => (.error err, r)
        | .ok cur =>
            if cur.any fun cur => decide (e.seq ≤ cur.seq) then
              (.error (.policyViolation
                "trust edge seq must be greater than the current edge's"), r)
            else r.publishTag L (.collab (.trustEdge e)) (.ok name) mtime

/-- The record that a tag points at. -/
def recordAt (L : Linked) (r : Repository) (name : RefName) : Result (Option RepoRecord) := do
  match ← r.refs.getTag name with
  | none => .ok none
  | some t =>
      match ← r.objects.get L t.target with
      | some (.repoRecord cur) => .ok (some cur)
      | _ => .ok none

/-- `publish_repo`. -/
def publishRepo (L : Linked) (r : Repository) (rec : RepoRecord) (mtime : Option ℕ) :
    Result ObjectId × Repository :=
  if !verifyRepo L rec then
    (.error (.policyViolation "repo record signature does not verify"), r)
  else
    match RefName.new (repoRef L.toCrates rec.owner rec.name) with
    | .error e => (.error e, r)
    | .ok name =>
        match r.recordAt L name with
        | .error e => (.error e, r)
        | .ok cur =>
            if cur.any fun cur => decide (rec.seq ≤ cur.seq) then
              (.error (.policyViolation
                "repo record seq must be greater than the current record's"), r)
            else r.publishTag L (.repoRecord rec) (.ok name) mtime

/-! ### What a publication changes -/

variable {L : Linked} {r : Repository} {n : RefName}

/-- A publication changes the ref of its name only. -/
lemma get_publishTag {obj : Object} {name : Result RefName} {mtime : Option ℕ}
    (hn : name ≠ .ok n) : (r.publishTag L obj name mtime).2.refs.get n = r.refs.get n := by
  rw [publishTag]
  split
  · rfl
  · next id objects hput =>
      split
      · rfl
      · next name =>
        have hset : ∀ op ∈ [RefOp.set name (.tag ⟨id, 0, none⟩)], n ≠ op.name := by
          intro op hop
          obtain rfl := List.mem_singleton.mp hop
          exact fun h => hn (congrArg Except.ok h.symm)
        have hget := RefStore.get_commit_of_ne (s := r.refs) hset
        split
        · next e refs hc => rwa [hc] at hget
        · next refs hc => rwa [hc] at hget

/-- **A profile is published under the fingerprint of its key.** -/
lemma get_publishProfile {p : Profile} {mtime : Option ℕ}
    (hn : RefName.new (profileRef L.toCrates p.key) ≠ .ok n) :
    (r.publishProfile L p mtime).2.refs.get n = r.refs.get n := by
  rw [publishProfile]
  split_ifs
  · rfl
  · split
    · rfl
    · split_ifs
      · rfl
      · exact get_publishTag hn

/-- **A repo record is published under the fingerprint of its owner.** -/
lemma get_publishRepo {rec : RepoRecord} {mtime : Option ℕ}
    (hn : RefName.new (repoRef L.toCrates rec.owner rec.name) ≠ .ok n) :
    (r.publishRepo L rec mtime).2.refs.get n = r.refs.get n := by
  rw [publishRepo]
  split_ifs
  · rfl
  · split
    · rfl
    · next name hname =>
        split
        · rfl
        · split_ifs
          · rfl
          · rw [hname] at hn
            exact get_publishTag hn

end Repository

end Bole
