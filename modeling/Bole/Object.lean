import Bole.Acl.Accessor

/-!
The objects of the store (`src/object/`, `src/acl/policy_object.rs`, the data of
`src/acl/attestation.rs`, `src/pr.rs`, `src/board.rs`, `src/collab/object.rs` and
`src/reporecord.rs`) and the codec that turns them into bytes (`src/codec.rs`).
-/

namespace Bole

/-! ### Trees, snapshots and overlays -/

/-- `EntryKind`. -/
inductive EntryKind where
  | blob
  | tree
deriving DecidableEq, Repr

/-- `TreeEntry`. -/
structure TreeEntry where
  id : ObjectId
  kind : EntryKind
deriving DecidableEq

/-- `Tree`. -/
structure Tree where
  entries : BTreeMap String TreeEntry

/-- `Snapshot`. -/
structure Snapshot where
  root : ObjectId
  parents : List ObjectId
  author : String
  createdAt : ℕ
  message : String
deriving DecidableEq

/-- `EnvValue`. -/
inductive EnvValue where
  | plain (value : String)
  | secret (id : ObjectId)
deriving DecidableEq

/-- `EnvOverlay`. -/
structure EnvOverlay where
  entries : BTreeMap String EnvValue

/-! ### Secrets -/

/-- `[u8; 12]`. -/
structure Nonce where
  bytes : Bytes
  length_eq : bytes.length = 12
deriving DecidableEq

/-- `Secret`. -/
structure Secret where
  nonce : Nonce
  ciphertext : Bytes
deriving DecidableEq

/-- `WrappedKey`. -/
structure WrappedKey where
  keyRef : String
  bytes : Bytes
deriving DecidableEq

/-- `SecretAad`. -/
structure SecretAad where
  version : UInt8
  label : Option Label
deriving DecidableEq

/-- `SecretV2`. -/
structure SecretV2 where
  wrappedDk : WrappedKey
  nonce : Nonce
  ciphertext : Bytes
  aad : SecretAad
deriving DecidableEq

/-- `MultiRecipientSecret`. -/
structure MultiRecipientSecret where
  recipients : List WrappedKey
  nonce : Nonce
  ciphertext : Bytes
  aad : SecretAad
deriving DecidableEq

/-! ### Policy -/

/-- `HookSpec`. -/
structure HookSpec where
  kind : String
  pattern : String
  params : BTreeMap String ℕ

/-- `PolicyRoot`. -/
structure PolicyRoot where
  lattice : ObjectId
  rules : ObjectId
  parent : Option ObjectId
  hooks : List HookSpec

/-- `ClearanceGrant`. -/
structure ClearanceGrant where
  actor : String
  clearances : ClearanceSet
  signature : Option Bytes
deriving DecidableEq

/-- `Approver`. -/
structure Approver where
  keyId : String
  publicKey : Digest
deriving DecidableEq

/-- `ApproverRegistry`. -/
structure ApproverRegistry where
  approvers : List Approver
deriving DecidableEq

/-- `Attestation`. -/
structure Attestation where
  target : String
  head : ObjectId
  approverKeyId : String
  sig : Bytes
deriving DecidableEq

/-- `PolicyObject`. -/
inductive PolicyObject where
  | lattice (l : LabelLattice)
  | ruleSet (r : LabelRuleSet)
  | grant (g : ClearanceGrant)
  | root (r : PolicyRoot)
  | approvers (a : ApproverRegistry)
  | attestation (a : Attestation)

/-! ### Change proposals and boards -/

/-- `ChangeProposal`. -/
structure ChangeProposal where
  author : Digest
  source : String
  target : String
  title : String
  createdAt : ℕ
  sig : Bytes
deriving DecidableEq

/-- `ReviewComment`. -/
structure ReviewComment where
  author : Digest
  proposal : ObjectId
  body : String
  resolves : Bool
  createdAt : ℕ
  sig : Bytes
deriving DecidableEq

/-- `Post`. -/
structure Post where
  author : Digest
  board : String
  body : String
  parent : Option ObjectId
  createdAt : ℕ
  sig : Bytes
deriving DecidableEq

/-! ### Collaboration -/

/-- `Profile`. -/
structure Profile where
  key : Digest
  displayName : String
  bio : String
  endpoints : List String
  dnsAliases : List String
  seq : ℕ
  sig : Bytes
deriving DecidableEq

/-- `TrustKind`. -/
inductive TrustKind where
  | vouch
  | follow
  | review
deriving DecidableEq

/-- `TrustEdge`. -/
structure TrustEdge where
  fromKey : Digest
  toKey : Digest
  kind : TrustKind
  petname : Option String
  seq : ℕ
  sig : Bytes
deriving DecidableEq

/-- `CollabObject`. -/
inductive CollabObject where
  | profile (p : Profile)
  | trustEdge (e : TrustEdge)
deriving DecidableEq

/-- `RepoRecord`. -/
structure RepoRecord where
  owner : Digest
  name : String
  description : String
  seq : ℕ
  sig : Bytes
deriving DecidableEq

/-! ### Objects -/

/-- `Object`. -/
inductive Object where
  | blob (data : Bytes)
  | tree (t : Tree)
  | snapshot (s : Snapshot)
  | secret (s : Secret)
  | envOverlay (o : EnvOverlay)
  | policy (p : PolicyObject)
  | secretV2 (s : SecretV2)
  | multiRecipientSecret (s : MultiRecipientSecret)
  | collab (c : CollabObject)
  | changeProposal (p : ChangeProposal)
  | reviewComment (c : ReviewComment)
  | post (p : Post)
  | repoRecord (r : RepoRecord)

/-- The number of a variant. -/
def Object.variant : Object → ℕ
  | .blob _ => 0
  | .tree _ => 1
  | .snapshot _ => 2
  | .secret _ => 3
  | .envOverlay _ => 4
  | .policy _ => 5
  | .secretV2 _ => 6
  | .multiRecipientSecret _ => 7
  | .collab _ => 8
  | .changeProposal _ => 9
  | .reviewComment _ => 10
  | .post _ => 11
  | .repoRecord _ => 12

/-- The functions of `src/codec.rs`, which are those of the `postcard` crate. -/
structure Codec where
  serialize : Object → Result Bytes
  deserialize : Bytes → Result Object

/-- What is read from the bytes of an object has its variant: postcard writes the number of the
variant in front. -/
def Codec.KeepsVariant (c : Codec) : Prop :=
  ∀ obj b obj', c.serialize obj = .ok b → c.deserialize b = .ok obj' → obj'.variant = obj.variant

/-- The third-party code a repository is linked against: hash and compression, the codec, and
the Ed25519 verification of a message under a public key. -/
structure Linked extends Crates where
  codec : Codec
  ed25519Verify : Digest → Bytes → Bytes → Bool

end Bole
