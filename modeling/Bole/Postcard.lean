import Bole.Lib.Delimited
import Bole.Reference
import Bole.Store.ObjectStore

/-!
The bytes the `postcard` crate writes for an object: variant numbers, lengths and integers as
varints, strings and byte strings with their length, fixed arrays bare, fields in order.

The messages that are signed are encoded so.  Of the objects the model does not depend on this
encoding; results shown on a concrete repository name its objects by it.

* `str_delimited`, `seq_delimited`, `option_delimited`: values of Rust's own sizes can be read off
  the front of what follows them.
-/

namespace Bole

namespace Postcard

/-- A sequence: its length and its elements. -/
def seq {α : Type} (f : α → Bytes) (l : List α) : Bytes := writeVarint l.length ++ l.flatMap f

/-- A byte string. -/
def bytes (b : Bytes) : Bytes := writeVarint b.length ++ b

/-- A string. -/
def str (s : String) : Bytes := bytes (strBytes s)

/-- An optional value. -/
def option {α : Type} (f : α → Bytes) : Option α → Bytes
  | none => [0]
  | some a => 1 :: f a

/-- A map: its length and its entries in order. -/
def map {υ : Type} (f : υ → Bytes) (m : BTreeMap String υ) : Bytes :=
  seq (fun e => str e.1 ++ f e.2) m.toList

def objectId (id : ObjectId) : Bytes := id.asBytes

def treeEntry (e : TreeEntry) : Bytes :=
  objectId e.id ++ match e.kind with
    | .blob => [0]
    | .tree => [1]

def snapshot (s : Snapshot) : Bytes :=
  objectId s.root ++ seq objectId s.parents ++ str s.author ++ writeVarint s.createdAt ++
    str s.message

def envValue : EnvValue → Bytes
  | .plain v => 0 :: str v
  | .secret id => 1 :: objectId id

def label (l : Label) : Bytes := str l.name

def cover (c : Cover) : Bytes := label c.lower ++ label c.higher

def lattice (l : LabelLattice) : Bytes := seq label l.labels.toList ++ seq cover l.cover.toList

def wrappedKey (w : WrappedKey) : Bytes := str w.keyRef ++ bytes w.bytes

def secretAad (a : SecretAad) : Bytes := a.version :: option label a.label

def secret (s : Secret) : Bytes := s.nonce.bytes ++ bytes s.ciphertext

def secretV2 (s : SecretV2) : Bytes :=
  wrappedKey s.wrappedDk ++ s.nonce.bytes ++ bytes s.ciphertext ++ secretAad s.aad

def multiRecipientSecret (s : MultiRecipientSecret) : Bytes :=
  seq wrappedKey s.recipients ++ s.nonce.bytes ++ bytes s.ciphertext ++ secretAad s.aad

def kind : ResourceKind → UInt8
  | .path => 0
  | .timeline => 1
  | .secret => 2

def rule (r : LabelRule) : Bytes := kind r.kind :: (str r.glob ++ label r.label)

def clearance (c : Clearance) : Bytes :=
  label c.ceiling ++ [c.cap.bits] ++ option (fun s => kind s.kind :: str s.glob) c.scope

def clearanceSet (c : ClearanceSet) : Bytes :=
  seq clearance c.clearances ++ [if c.confined then 1 else 0]

def hookSpec (h : HookSpec) : Bytes := str h.kind ++ str h.pattern ++ map writeVarint h.params

def policy : PolicyObject → Bytes
  | .lattice l => 0 :: lattice l
  | .ruleSet r => 1 :: seq rule r.rules
  | .grant g => 2 :: (str g.actor ++ clearanceSet g.clearances ++ option bytes g.signature)
  | .root r => 3 :: (objectId r.lattice ++ objectId r.rules ++ option objectId r.parent ++
      seq hookSpec r.hooks)
  | .approvers a => 4 :: seq (fun p => str p.keyId ++ p.publicKey.bytes) a.approvers
  | .attestation a => 5 :: (str a.target ++ objectId a.head ++ str a.approverKeyId ++ bytes a.sig)

/-- The fields of a change proposal that its signature covers. -/
def proposalMsg (p : ChangeProposal) : Bytes :=
  p.author.bytes ++ str p.source ++ str p.target ++ str p.title ++ writeVarint p.createdAt

def changeProposal (p : ChangeProposal) : Bytes := proposalMsg p ++ bytes p.sig

def reviewComment (c : ReviewComment) : Bytes :=
  c.author.bytes ++ objectId c.proposal ++ str c.body ++ [if c.resolves then 1 else 0] ++
    writeVarint c.createdAt ++ bytes c.sig

def post (p : Post) : Bytes :=
  p.author.bytes ++ str p.board ++ str p.body ++ option objectId p.parent ++
    writeVarint p.createdAt ++ bytes p.sig

/-- The fields of a profile that its signature covers. -/
def profileMsg (p : Profile) : Bytes :=
  p.key.bytes ++ str p.displayName ++ str p.bio ++ seq str p.endpoints ++ seq str p.dnsAliases ++
    writeVarint p.seq

def trustKind : TrustKind → UInt8
  | .vouch => 0
  | .follow => 1
  | .review => 2

/-- The fields of a trust edge that its signature covers. -/
def edgeMsg (e : TrustEdge) : Bytes :=
  e.fromKey.bytes ++ e.toKey.bytes ++ [trustKind e.kind] ++ option str e.petname ++
    writeVarint e.seq

def trustEdge (e : TrustEdge) : Bytes := edgeMsg e ++ bytes e.sig

def collab : CollabObject → Bytes
  | .profile p => 0 :: (profileMsg p ++ bytes p.sig)
  | .trustEdge e => 1 :: trustEdge e

/-- The fields of a repo record that its signature covers. -/
def repoMsg (r : RepoRecord) : Bytes :=
  r.owner.bytes ++ str r.name ++ str r.description ++ writeVarint r.seq

/-- `postcard::to_allocvec` on an object. -/
def object : Object → Bytes
  | .blob data => 0 :: bytes data
  | .tree t => 1 :: map treeEntry t.entries
  | .snapshot s => 2 :: snapshot s
  | .secret s => 3 :: secret s
  | .envOverlay o => 4 :: map envValue o.entries
  | .policy p => 5 :: policy p
  | .secretV2 s => 6 :: secretV2 s
  | .multiRecipientSecret s => 7 :: multiRecipientSecret s
  | .collab c => 8 :: collab c
  | .changeProposal p => 9 :: changeProposal p
  | .reviewComment c => 10 :: reviewComment c
  | .post p => 11 :: post p
  | .repoRecord r => 12 :: (repoMsg r ++ bytes r.sig)

/-! ### Reading off the front -/

open Delimited

/-- A number of 64 bits. -/
lemma varint_delimited : On (· < 2 ^ 64) writeVarint := by
  intro a b ha hb x y heq
  have hread : ∀ (v : ℕ) (post : Bytes), v < 2 ^ 64 →
      readVarint (writeVarint v ++ post) 0 = .ok (v, 0 + (writeVarint v).length) :=
    fun v post hv => readVarint_writeVarint hv rfl
  have hvalue := hread a x ha
  rw [heq, hread b y hb] at hvalue
  obtain rfl : b = a := (Prod.mk.inj (Except.ok.inj hvalue)).1
  exact ⟨rfl, List.append_cancel_left heq⟩

lemma bytes_delimited : On (fun b : Bytes => b.length < 2 ^ 64) bytes :=
  counted_self varint_delimited

lemma strBytes_injective : Function.Injective strBytes := by
  intro s t h
  have hst := isPrefix_of_utf8 (a := s.toList) (b := t.toList) ⟨[], by simpa [strBytes] using h⟩
  have hts := isPrefix_of_utf8 (a := t.toList) (b := s.toList)
    ⟨[], by simpa [strBytes] using h.symm⟩
  exact String.toList_injective (hst.eq_of_length (le_antisymm hst.length_le hts.length_le))

/-- A string whose length is a `usize`. -/
def FitsStr (s : String) : Prop := (strBytes s).length < 2 ^ 64

lemma str_delimited : On FitsStr str := bytes_delimited.comp strBytes_injective

lemma seq_delimited {α : Type} {P : α → Prop} {f : α → Bytes} (h : On P f) :
    On (fun l : List α => l.length < 2 ^ 64 ∧ ∀ a ∈ l, P a) (seq f) :=
  varint_delimited.counted h

lemma option_delimited {α : Type} {P : α → Prop} {f : α → Bytes} (h : On P f) :
    On (fun v : Option α => ∀ a ∈ v, P a) (option f) := by
  intro v w hv hw x y heq
  cases v with
  | none =>
      cases w with
      | none => exact ⟨rfl, (List.cons.inj heq).2⟩
      | some b => simp [option] at heq
  | some a =>
      cases w with
      | none => simp [option] at heq
      | some b =>
          obtain ⟨rfl, hxy⟩ := h (hv a rfl) (hw b rfl) (List.cons.inj heq).2
          exact ⟨rfl, hxy⟩

lemma digest_delimited : On (fun _ => True) Digest.bytes :=
  .of_length (fun d _ => d.length_eq) fun _ _ _ _ h => Digest.ext' h

lemma objectId_delimited : On (fun _ => True) objectId :=
  .of_length (fun id _ => id.length_asBytes) fun _ _ _ _ h => ObjectId.asBytes_injective h

end Postcard

/-- Postcard on the given objects: they are read back from the bytes they are written to. -/
def Codec.over (objects : List Object) : Codec where
  serialize o := .ok (Postcard.object o)
  deserialize b :=
    match objects.find? fun o => decide (Postcard.object o = b) with
    | some o => .ok o
    | none => .error (.codec "Hit the end of buffer, expected more data")

/-- Such a codec keeps the variant, which is the first byte. -/
lemma Codec.over_keepsVariant (objects : List Object) : (Codec.over objects).KeepsVariant := by
  have hhead : ∀ o : Object, (Postcard.object o).head? = some (UInt8.ofNat o.variant) := by
    intro o
    cases o <;> rfl
  have hinj : ∀ o o' : Object, UInt8.ofNat o.variant = UInt8.ofNat o'.variant →
      o.variant = o'.variant := by
    intro o o' h
    have hlt : ∀ o : Object, o.variant < 13 := by
      intro o
      cases o <;> simp [Object.variant]
    have hnat := congrArg UInt8.toNat h
    have h1 := hlt o
    have h2 := hlt o'
    simp only [UInt8.toNat_ofNat'] at hnat
    omega
  intro obj b obj' hs hd
  obtain rfl : Postcard.object obj = b := Except.ok.inj hs
  simp only [Codec.over] at hd
  split at hd
  · next o ho =>
      cases hd
      have heq : Postcard.object obj' = Postcard.object obj := by
        simpa using List.find?_some ho
      have := congrArg List.head? heq
      rw [hhead, hhead] at this
      exact hinj _ _ (Option.some.inj this)
  · cases hd

/-- The reference crates with postcard on the given objects; no signature verifies. -/
def Linked.over (objects : List Object) : Linked where
  toCrates := Crates.reference
  codec := .over objects
  ed25519Verify _ _ _ := false

/-- The id of an object. -/
def Object.refId (o : Object) : ObjectId := Crates.reference.fromContent (Postcard.object o)

/-- Such a codec reads back only the given objects. -/
lemma Codec.mem_of_over {objects : List Object} {b : Bytes} {o : Object}
    (h : (Codec.over objects).deserialize b = .ok o) : o ∈ objects := by
  simp only [Codec.over] at h
  split at h
  · next o' ho =>
      cases h
      exact List.mem_of_find?_eq_some ho
  · cases h

/-- It reads back each of them, if their bytes are different. -/
lemma Codec.over_reads {objects : List Object} (hnodup : (objects.map Postcard.object).Nodup)
    {o : Object} (ho : o ∈ objects) :
    (Codec.over objects).deserialize (Postcard.object o) = .ok o := by
  simp only [Codec.over]
  cases hfind : objects.find? fun o' => decide (Postcard.object o' = Postcard.object o) with
  | none =>
      have := List.find?_eq_none.mp hfind o ho
      simp at this
  | some o' =>
      have hbytes : Postcard.object o' = Postcard.object o := by simpa using List.find?_some hfind
      rw [List.inj_on_of_nodup_map hnodup (List.mem_of_find?_eq_some hfind) ho hbytes]

/-- Postcard on the given objects, as it reads from a buffer: `from_bytes` does not look at the
bytes behind the value. -/
def Codec.front (objects : List Object) : Codec where
  serialize o := .ok (Postcard.object o)
  deserialize b :=
    match objects.find? fun o => (Postcard.object o).isPrefixOf b with
    | some o => .ok o
    | none => .error (.codec "Hit the end of buffer, expected more data")

/-- The reference crates with such a postcard. -/
def Linked.front (objects : List Object) : Linked where
  toCrates := Crates.reference
  codec := .front objects
  ed25519Verify _ _ _ := false

lemma Codec.mem_of_front {objects : List Object} {b : Bytes} {o : Object}
    (h : (Codec.front objects).deserialize b = .ok o) : o ∈ objects := by
  simp only [Codec.front] at h
  split at h
  · next o' ho =>
      cases h
      exact List.mem_of_find?_eq_some ho
  · cases h

/-- It reads back an object of which no other one is the beginning. -/
lemma Codec.front_reads {objects : List Object} {o : Object} (ho : o ∈ objects)
    (hfirst : ∀ o' ∈ objects, (Postcard.object o').isPrefixOf (Postcard.object o) = true → o' = o) :
    (Codec.front objects).deserialize (Postcard.object o) = .ok o := by
  simp only [Codec.front]
  cases hfind : objects.find? fun o' => (Postcard.object o').isPrefixOf (Postcard.object o) with
  | none =>
      have := List.find?_eq_none.mp hfind o ho
      simp at this
  | some o' =>
      have hpre := List.find?_some hfind
      rw [hfirst o' (List.mem_of_find?_eq_some hfind) hpre]

namespace ObjectStore

lemma mem_of_object_over {objects : List Object} {s : ObjectStore} {id : ObjectId} {o : Object}
    (h : s.object (.over objects) id = some o) : o ∈ objects := by
  obtain ⟨data, -, hd⟩ := get_eq_some.mp (object_eq_some.mp h)
  exact Codec.mem_of_over hd

/-- A store is faithful to the objects of its codec, if their ids are different and it has no
other bytes under them. -/
lemma faithful_over {objects : List Object} {s : ObjectStore}
    (hbytes : (objects.map Postcard.object).Nodup) (hids : (objects.map Object.refId).Nodup)
    (hheld : ∀ o ∈ objects, s.exists_ o.refId = .ok true →
      s.getRaw (.over objects) o.refId = .ok (some (Postcard.object o))) :
    s.Faithful (.over objects) {o | o ∈ objects} where
  decodes o ho b hb := by
    obtain rfl : Postcard.object o = b := Except.ok.inj hb
    exact Codec.over_reads hbytes ho
  distinct o ho o' ho' b b' hb hb' h := by
    obtain rfl : Postcard.object o = b := Except.ok.inj hb
    obtain rfl : Postcard.object o' = b' := Except.ok.inj hb'
    rw [List.inj_on_of_nodup_map hids ho ho' h]
  held o ho b hb h := by
    obtain rfl : Postcard.object o = b := Except.ok.inj hb
    exact hheld o ho h

/-- The in-memory store after the given objects are written. -/
def holding (L : Linked) (objects : List Object) : ObjectStore :=
  objects.foldl (fun s o => (s.putRaw L (Postcard.object o) none).2) ⟨.memory ∅⟩

lemma holding_wf (L : Linked) (objects : List Object) : (holding L objects).WF L := by
  have hput : ∀ s : ObjectStore, s.WF L →
      (objects.foldl (fun s o => (s.putRaw L (Postcard.object o) none).2) s).WF L := by
    induction objects with
    | nil => exact fun _ hs => hs
    | cons o rest ih => exact fun s hs => ih _ (putRaw_keeps hs _ _).1
  exact hput _ (memory_wf L)

/-- It stays in memory. -/
lemma holding_memory (L : Linked) (objects : List Object) :
    ∃ m, (holding L objects).backend = .memory m := by
  have hput : ∀ s : ObjectStore, (∃ m, s.backend = .memory m) →
      ∃ m, (objects.foldl (fun s o => (s.putRaw L (Postcard.object o) none).2) s).backend =
        .memory m := by
    induction objects with
    | nil => exact fun _ hs => hs
    | cons o rest ih =>
        rintro ⟨backend⟩ ⟨m, rfl⟩
        refine ih _ ?_
        simp only [putRaw, StorageBackend.exists_, StorageBackend.put]
        cases m.contains (L.fromContent (Postcard.object o)) with
        | true => exact ⟨m, rfl⟩
        | false => exact ⟨_, rfl⟩
  exact hput _ ⟨∅, rfl⟩

/-- It can be read where what it lists can. -/
lemma holding_reads {L : Linked} {objects : List Object}
    (h : ∀ id ∈ (holding L objects).list,
      ((holding L objects).get L id).map (fun _ => ()) = .ok ()) (id : ObjectId) :
    ∃ o, (holding L objects).get L id = .ok o := by
  obtain ⟨m, hm⟩ := holding_memory L objects
  cases hraw : (holding L objects).getRaw L id with
  | error e => simp [getRaw, hm, StorageBackend.get] at hraw
  | ok o =>
      cases o with
      | none => exact ⟨none, get_of_getRaw_none hraw⟩
      | some data =>
          have hid := h id (listed_of_getRaw hraw)
          cases hget : (holding L objects).get L id with
          | error e => simp [hget, Except.map] at hid
          | ok obj => exact ⟨obj, rfl⟩

lemma holding_rewriteSafe (L : Linked) (objects : List Object) (keep : Finset ObjectId) :
    (holding L objects).RewriteSafe L keep := by
  obtain ⟨m, hm⟩ := holding_memory L objects
  exact rewriteSafe_of_memory hm keep

end ObjectStore

end Bole
