import Bole.Crypto.KeyProvider
import Bole.Postcard

/-!
Envelope secrets (`src/object/secret.rs`): a data key encrypts the value, and master keys wrap the
data key.

* `MultiRecipientSecret.encryptFor`, `decrypt`, `grant` and `revoke`;
* `SecretOp`: these operations on a secret, one after another;
* `Sealed`: the value is encrypted under the data key, and every wrap is one of the data key;
* `decrypt_iff`: a chain opens such a secret exactly when it holds the master key of a wrap;
* `access_controlled`: **so it is after any operations**.
-/

namespace Bole

namespace SecretAad

/-- `SecretAad::v2`. -/
def v2 (label : Option Label) : SecretAad := ⟨2, label⟩

/-- `to_bytes`. -/
def toBytes (aad : SecretAad) : Bytes := Postcard.secretAad aad

end SecretAad

namespace MultiRecipientSecret

variable {κ : Type}

/-- What `encrypt_for` draws at random: the data key, the nonce of the value, and a nonce for each
wrap. -/
structure Draws where
  dk : Digest
  nonce : Nonce
  wraps : ℕ → Nonce

/-- The loop over the recipients. -/
def wrapFor (draws : Draws) (recipients : List (KeyProvider κ)) (aad : Bytes) :
    Result (List WrappedKey) :=
  recipients.zipIdx.mapM fun p => p.1.wrapDk (draws.wraps p.2) draws.dk aad

/-- `encrypt_for`. -/
def encryptFor (A : Aead) (draws : Draws) (plaintext : Bytes) (recipients : List (KeyProvider κ))
    (aad : SecretAad) : Result MultiRecipientSecret :=
  if recipients = [] then
    .error (.codec "a multi-recipient secret needs at least one recipient")
  else
    match A.encrypt draws.dk draws.nonce aad.toBytes plaintext with
    | none => .error (.codec "value encryption failed")
    | some ciphertext => do
        let wraps ← wrapFor draws recipients aad.toBytes
        .ok ⟨wraps, draws.nonce, ciphertext, aad⟩

/-- The loop over the recipients that looks for a wrap the chain opens. -/
def unwrapAny (s : MultiRecipientSecret) (chain : ProviderChain κ) : Option Digest :=
  s.recipients.findSome? fun w => (chain.unwrap w s.aad.toBytes).toOption

/-- `decrypt`. -/
def decrypt (A : Aead) (s : MultiRecipientSecret) (chain : ProviderChain κ) : Result Bytes :=
  match s.unwrapAny chain with
  | none => .error .decryptionFailed
  | some dk =>
      match A.decrypt dk s.nonce.bytes s.aad.toBytes s.ciphertext with
      | none => .error .decryptionFailed
      | some plaintext => .ok plaintext

/-- `grant`; the wrap draws a nonce. -/
def grant (s : MultiRecipientSecret) (chain : ProviderChain κ) (recipient : KeyProvider κ)
    (nonce : Nonce) : Result Unit × MultiRecipientSecret :=
  match s.unwrapAny chain with
  | none => (.error .decryptionFailed, s)
  | some dk =>
      match recipient.wrapDk nonce dk s.aad.toBytes with
      | .error e => (.error e, s)
      | .ok wrap =>
          if s.recipients.any fun w => w.keyRef = wrap.keyRef then (.ok (), s)
          else (.ok (), { s with recipients := s.recipients ++ [wrap] })

/-- `revoke`. -/
def revoke (s : MultiRecipientSecret) (keyRef : String) : Result Bool × MultiRecipientSecret :=
  let matching := s.recipients.countP fun w => w.keyRef = keyRef
  if matching = 0 then (.ok false, s)
  else if s.recipients.length ≤ matching then
    (.error (.codec "cannot revoke the last recipient of a secret"), s)
  else (.ok true, { s with recipients := s.recipients.filter fun w => w.keyRef ≠ keyRef })

end MultiRecipientSecret

/-! ### Operations one after another -/

/-- The operations on a multi-recipient secret. -/
inductive SecretOp (κ : Type) where
  | encryptFor (draws : MultiRecipientSecret.Draws) (plaintext : Bytes)
      (recipients : List (KeyProvider κ)) (aad : SecretAad)
  | grant (chain : ProviderChain κ) (recipient : KeyProvider κ) (nonce : Nonce)
  | revoke (keyRef : String)

/-- A secret, beside the plaintext and the data key that it was made of. -/
structure Held where
  secret : MultiRecipientSecret
  plaintext : Bytes
  dk : Digest

namespace SecretOp

variable {κ : Type}

/-- What an operation returns, and the secret after it; `encrypt_for` makes another secret. -/
def apply (A : Aead) (held : Held) : SecretOp κ → Result Unit × Held
  | encryptFor draws plaintext recipients aad =>
      match MultiRecipientSecret.encryptFor A draws plaintext recipients aad with
      | .error e => (.error e, held)
      | .ok secret => (.ok (), ⟨secret, plaintext, draws.dk⟩)
  | grant chain recipient nonce =>
      let (result, secret) := held.secret.grant chain recipient nonce
      (result, { held with secret := secret })
  | revoke keyRef =>
      let (result, secret) := held.secret.revoke keyRef
      (result.map fun _ => (), { held with secret := secret })

/-- A run of operations. -/
def run (A : Aead) (ops : List (SecretOp κ)) (held : Held) : Held :=
  ops.foldl (fun held op => (op.apply A held).2) held

/-- The providers of an operation are in use. -/
def Uses (inUse : Set (KeyProvider κ)) : SecretOp κ → Prop
  | encryptFor _ _ recipients _ => ∀ p ∈ recipients, p ∈ inUse
  | grant chain recipient _ => (∀ p ∈ chain.providers, p ∈ inUse) ∧ recipient ∈ inUse
  | revoke _ => True

end SecretOp

/-! ### The invariant -/

/-- A wrap of a data key was made under a master key. -/
def MadeUnder {κ : Type} (inUse : Set (KeyProvider κ)) (dk : Digest) (aad : SecretAad)
    (w : WrappedKey) (master : κ) : Prop :=
  ∃ p ∈ inUse, p.master = master ∧ ∃ nonce, p.wrapDk nonce dk aad.toBytes = .ok w

/-- The value is encrypted under the data key, and somebody can read it: there is a wrap, and every
wrap is one of the data key. -/
structure Sealed {κ : Type} (A : Aead) (inUse : Set (KeyProvider κ)) (held : Held) : Prop where
  value : A.encrypt held.dk held.secret.nonce held.secret.aad.toBytes held.plaintext =
    some held.secret.ciphertext
  recipients : held.secret.recipients ≠ []
  wraps : ∀ w ∈ held.secret.recipients, ∃ master, MadeUnder inUse held.dk held.secret.aad w master

/-- What no grant and no revocation changes. -/
structure SameValue (held held' : Held) : Prop where
  plaintext : held'.plaintext = held.plaintext
  nonce : held'.secret.nonce = held.secret.nonce
  ciphertext : held'.secret.ciphertext = held.secret.ciphertext
  aad : held'.secret.aad = held.secret.aad

section Sealed

variable {κ : Type} {A : Aead} {inUse : Set (KeyProvider κ)} {held : Held}
  {chain : ProviderChain κ} {w : WrappedKey} {dk : Digest} {aad : SecretAad}

/-- A wrap was made under one master key. -/
lemma MadeUnder.unique (ideal : IdealWrapping inUse) {m m' : κ} (h : MadeUnder inUse dk aad w m)
    (h' : MadeUnder inUse dk aad w m') : m = m' := by
  obtain ⟨p, hp, rfl, nonce, hw⟩ := h
  obtain ⟨p', hp', rfl, nonce', hw'⟩ := h'
  by_contra hne
  obtain ⟨e, he⟩ := ideal.closed p' hp' p hp hne _ _ _ _ hw'
  rw [ideal.opens p hp p hp rfl _ _ _ _ hw] at he
  cases he

/-- A chain opens a wrap exactly when it holds the master key that the wrap was made under. -/
lemma MadeUnder.unwrap_iff (ideal : IdealWrapping inUse) (hin : ∀ q ∈ chain.providers, q ∈ inUse)
    {m : κ} (h : MadeUnder inUse dk aad w m) {dk' : Digest} :
    chain.unwrap w aad.toBytes = .ok dk' ↔
      dk' = dk ∧ ∃ q ∈ chain.providers, MadeUnder inUse dk aad w q.master := by
  obtain ⟨p, hp, rfl, nonce, hw⟩ := h
  have hmade : MadeUnder inUse dk aad w p.master := ⟨p, hp, rfl, nonce, hw⟩
  have hiff : (∃ q ∈ chain.providers, MadeUnder inUse dk aad w q.master) ↔
      ∃ q ∈ chain.providers, q.master = p.master :=
    exists_congr fun q => and_congr_right fun _ =>
      ⟨fun h => h.unique ideal hmade, fun h => h ▸ hmade⟩
  rw [ProviderChain.unwrap_iff ideal hp hw hin, hiff]
  split_ifs with hholds
  · rw [Except.ok.injEq, eq_comm, and_iff_left hholds]
  · simp [hholds]

/-- What a chain recovers from the wraps is the data key. -/
lemma Sealed.unwrapAny_iff (h : Sealed A inUse held) (ideal : IdealWrapping inUse)
    (hin : ∀ q ∈ chain.providers, q ∈ inUse) {dk' : Digest} :
    held.secret.unwrapAny chain = some dk' ↔ dk' = held.dk ∧
      ∃ q ∈ chain.providers, ∃ w ∈ held.secret.recipients,
        MadeUnder inUse held.dk held.secret.aad w q.master := by
  have hwrap : ∀ w ∈ held.secret.recipients, ∀ dk',
      (chain.unwrap w held.secret.aad.toBytes).toOption = some dk' ↔ dk' = held.dk ∧
        ∃ q ∈ chain.providers, MadeUnder inUse held.dk held.secret.aad w q.master := by
    intro w hw dk'
    obtain ⟨m, hm⟩ := h.wraps w hw
    rw [← hm.unwrap_iff ideal hin]
    cases chain.unwrap w held.secret.aad.toBytes <;> simp [Except.toOption]
  rw [MultiRecipientSecret.unwrapAny]
  constructor
  · intro hsome
    obtain ⟨w, hw, hdk⟩ := List.exists_of_findSome?_eq_some hsome
    obtain ⟨rfl, q, hq, hmade⟩ := (hwrap w hw dk').mp hdk
    exact ⟨rfl, q, hq, w, hw, hmade⟩
  · rintro ⟨rfl, q, hq, w, hw, hmade⟩
    have hopen := (hwrap w hw held.dk).mpr ⟨rfl, q, hq, hmade⟩
    cases hfind : held.secret.recipients.findSome? fun w =>
        (chain.unwrap w held.secret.aad.toBytes).toOption with
    | none =>
        rw [List.findSome?_eq_none_iff] at hfind
        rw [hfind w hw] at hopen
        cases hopen
    | some dk' =>
        obtain ⟨w', hw', hdk'⟩ := List.exists_of_findSome?_eq_some hfind
        rw [((hwrap w' hw' dk').mp hdk').1]

/-- **Who can read a secret**: whoever holds the master key of a wrap. -/
theorem Sealed.decrypt_iff (h : Sealed A inUse held) (ideal : IdealWrapping inUse)
    (hopens : ∀ key nonce aad msg c, A.encrypt key nonce aad msg = some c →
      A.decrypt key nonce.bytes aad c = some msg)
    (hin : ∀ q ∈ chain.providers, q ∈ inUse) :
    held.secret.decrypt A chain = .ok held.plaintext ↔
      ∃ q ∈ chain.providers, ∃ w ∈ held.secret.recipients,
        MadeUnder inUse held.dk held.secret.aad w q.master := by
  rw [MultiRecipientSecret.decrypt]
  cases hany : held.secret.unwrapAny chain with
  | none =>
      refine iff_of_false (by simp) fun hholds => ?_
      rw [(h.unwrapAny_iff ideal hin).mpr ⟨rfl, hholds⟩] at hany
      cases hany
  | some dk' =>
      obtain ⟨rfl, hholds⟩ := (h.unwrapAny_iff ideal hin).mp hany
      refine iff_of_true ?_ hholds
      dsimp only
      rw [hopens _ _ _ _ _ h.value]

/-- A new secret is sealed. -/
lemma sealed_encryptFor {draws : MultiRecipientSecret.Draws} {plaintext : Bytes}
    {recipients : List (KeyProvider κ)} (hin : ∀ p ∈ recipients, p ∈ inUse)
    {secret : MultiRecipientSecret}
    (h : MultiRecipientSecret.encryptFor A draws plaintext recipients aad = .ok secret) :
    Sealed A inUse ⟨secret, plaintext, draws.dk⟩ := by
  rw [MultiRecipientSecret.encryptFor] at h
  split_ifs at h with hnil
  split at h
  · cases h
  · next ciphertext hvalue =>
      obtain ⟨wraps, hwraps, h⟩ := Result.bind_eq_ok.mp h
      cases h
      refine ⟨hvalue, ?_, fun w hw => ?_⟩
      · rintro rfl
        have hlength := (Result.forall₂_mapM hwraps).length_eq
        rw [List.length_zipIdx] at hlength
        exact hnil (List.eq_nil_of_length_eq_zero hlength)
      · obtain ⟨⟨p, i⟩, hp, hwrap⟩ := Result.mem_mapM hwraps hw
        obtain ⟨hi, hmem⟩ := List.mem_zipIdx' hp
        exact ⟨p.master, p, hin p (hmem ▸ List.getElem_mem hi), rfl, draws.wraps i, hwrap⟩

/-- **A grant** adds at most one wrap, of the data key and for the recipient; the rest of the secret
is left. -/
lemma Sealed.grant (h : Sealed A inUse held) (ideal : IdealWrapping inUse)
    (hin : ∀ q ∈ chain.providers, q ∈ inUse) {recipient : KeyProvider κ} (hr : recipient ∈ inUse)
    (nonce : Nonce) :
    Sealed A inUse { held with secret := (held.secret.grant chain recipient nonce).2 } ∧
      SameValue held { held with secret := (held.secret.grant chain recipient nonce).2 } ∧
      ∀ e, (held.secret.grant chain recipient nonce).1 = .error e →
        (held.secret.grant chain recipient nonce).2 = held.secret := by
  have hsame : Sealed A inUse held ∧ SameValue held held := ⟨h, rfl, rfl, rfl, rfl⟩
  rw [MultiRecipientSecret.grant]
  cases hany : held.secret.unwrapAny chain with
  | none => exact ⟨hsame.1, hsame.2, fun _ _ => rfl⟩
  | some dk' =>
      obtain ⟨rfl, -⟩ := (h.unwrapAny_iff ideal hin).mp hany
      dsimp only
      cases hwrap : recipient.wrapDk nonce held.dk held.secret.aad.toBytes with
      | error e => exact ⟨hsame.1, hsame.2, fun _ _ => rfl⟩
      | ok wrap =>
          dsimp only
          split_ifs
          · exact ⟨hsame.1, hsame.2, fun _ _ => rfl⟩
          · refine ⟨⟨h.value, by simp, fun w hw => ?_⟩, ⟨rfl, rfl, rfl, rfl⟩, by simp⟩
            rcases List.mem_append.mp hw with hw | hw
            · exact h.wraps w hw
            · rw [List.mem_singleton.mp hw]
              exact ⟨recipient.master, recipient, hr, rfl, nonce, hwrap⟩

/-- **A revocation** drops the wraps of a key ref, unless these are all; the rest of the secret is
left. -/
lemma Sealed.revoke (h : Sealed A inUse held) (keyRef : String) :
    Sealed A inUse { held with secret := (held.secret.revoke keyRef).2 } ∧
      SameValue held { held with secret := (held.secret.revoke keyRef).2 } ∧
      ∀ e, (held.secret.revoke keyRef).1 = .error e →
        (held.secret.revoke keyRef).2 = held.secret := by
  have hsame : Sealed A inUse held ∧ SameValue held held := ⟨h, rfl, rfl, rfl, rfl⟩
  rw [MultiRecipientSecret.revoke]
  split_ifs with hnone hlast
  · exact ⟨hsame.1, hsame.2, fun _ _ => rfl⟩
  · exact ⟨hsame.1, hsame.2, fun _ _ => rfl⟩
  · refine ⟨⟨h.value, fun hnil => hlast ?_, fun w hw => h.wraps w (List.mem_of_mem_filter hw)⟩,
      ⟨rfl, rfl, rfl, rfl⟩, by simp⟩
    -- the wraps that stay and those that go are all there are
    have hstay : held.secret.recipients.filter (fun w => w.keyRef ≠ keyRef) = [] := hnil
    rw [List.filter_eq_nil_iff] at hstay
    refine (List.countP_eq_length.mpr fun w hw => ?_).ge
    simpa using hstay w hw

/-- **One operation** keeps a secret sealed; a grant and a revocation keep its value; and one that
fails changes nothing. -/
lemma Sealed.apply (h : Sealed A inUse held) (ideal : IdealWrapping inUse) {op : SecretOp κ}
    (huses : op.Uses inUse) :
    Sealed A inUse (op.apply A held).2 ∧
      ((∀ draws plaintext recipients aad, op ≠ .encryptFor draws plaintext recipients aad) →
        SameValue held (op.apply A held).2) ∧
      ∀ e, (op.apply A held).1 = .error e → (op.apply A held).2 = held := by
  cases op with
  | encryptFor draws plaintext recipients aad =>
      refine ⟨?_, fun hne => absurd rfl (hne draws plaintext recipients aad), ?_⟩
      · rw [SecretOp.apply]
        split
        · exact h
        · next secret hsecret => exact sealed_encryptFor huses hsecret
      · rw [SecretOp.apply]
        split
        · exact fun _ _ => rfl
        · intro e he
          cases he
  | grant chain recipient nonce =>
      obtain ⟨hsealed, hvalue, herror⟩ := h.grant ideal huses.1 huses.2 nonce
      exact ⟨hsealed, fun _ => hvalue, fun e he => congrArg (Held.mk · _ _) (herror e he)⟩
  | revoke keyRef =>
      obtain ⟨hsealed, hvalue, herror⟩ := h.revoke keyRef
      refine ⟨hsealed, fun _ => hvalue, fun e he => ?_⟩
      cases hresult : (held.secret.revoke keyRef).1 with
      | ok removed => simp [SecretOp.apply, hresult, Except.map] at he
      | error e' => exact congrArg (Held.mk · _ _) (herror e' hresult)

/-- Operations one after another keep a secret sealed. -/
lemma Sealed.run (h : Sealed A inUse held) (ideal : IdealWrapping inUse) {ops : List (SecretOp κ)}
    (huses : ∀ op ∈ ops, op.Uses inUse) : Sealed A inUse (SecretOp.run A ops held) := by
  induction ops generalizing held with
  | nil => exact h
  | cons op ops ih =>
      obtain ⟨hop, hops⟩ := List.forall_mem_cons.mp huses
      exact ih (h.apply ideal hop).1 hops

end Sealed

/-- **Access control of a shared secret**, over any operations after it was made.  There is always
a recipient; a chain opens the secret to its plaintext exactly when it holds the master key of a
current wrap; grants and revocations leave the value; and an operation that fails leaves the
secret. -/
theorem access_controlled {κ : Type} {A : Aead} {inUse : Set (KeyProvider κ)} {keys : Set Digest}
    (cipher : IdealAead A keys) (ideal : IdealWrapping inUse)
    {draws : MultiRecipientSecret.Draws} {plaintext : Bytes} {recipients : List (KeyProvider κ)}
    {aad : SecretAad} {secret : MultiRecipientSecret} (hfirst : ∀ p ∈ recipients, p ∈ inUse)
    (hsecret : MultiRecipientSecret.encryptFor A draws plaintext recipients aad = .ok secret)
    {ops : List (SecretOp κ)} (huses : ∀ op ∈ ops, op.Uses inUse) :
    let held := SecretOp.run A ops ⟨secret, plaintext, draws.dk⟩
    held.secret.recipients ≠ [] ∧
      (∀ chain : ProviderChain κ, (∀ q ∈ chain.providers, q ∈ inUse) →
        (held.secret.decrypt A chain = .ok held.plaintext ↔
          ∃ q ∈ chain.providers, ∃ w ∈ held.secret.recipients,
            MadeUnder inUse held.dk held.secret.aad w q.master)) ∧
      ∀ op : SecretOp κ, op.Uses inUse →
        ((∀ draws plaintext recipients aad, op ≠ .encryptFor draws plaintext recipients aad) →
          SameValue held (op.apply A held).2) ∧
        ∀ e, (op.apply A held).1 = .error e → (op.apply A held).2 = held := by
  have hsealed := (sealed_encryptFor hfirst hsecret).run ideal huses
  exact ⟨hsealed.recipients, fun chain hin => hsealed.decrypt_iff ideal cipher.opens hin,
    fun op hop => (hsealed.apply ideal hop).2⟩

/-! ### Alice shares a secret with Bob -/

/-- A cipher that appends a tag of 16 bytes, which tells its key. -/
def tagAead : Aead where
  encrypt key _ _ msg := some (msg ++ key.bytes.take 16)
  decrypt key _ _ c :=
    if c.drop (c.length - 16) = key.bytes.take 16 then some (c.take (c.length - 16)) else none

/-- The master keys of Alice and Bob. -/
def sharedKeys : Set Digest := {.replicate 1, .replicate 2}

lemma tagAead_opens (key : Digest) (nonce : Nonce) (aad msg c : Bytes)
    (h : tagAead.encrypt key nonce aad msg = some c) :
    tagAead.decrypt key nonce.bytes aad c = some msg := by
  obtain rfl := Option.some.inj h
  have hlength : (msg ++ key.bytes.take 16).length - 16 = msg.length := by
    rw [List.length_append, List.length_take, key.length_eq]
    omega
  simp only [tagAead, hlength, List.drop_left', List.take_left', if_true]

lemma tagAead_ideal_of {keys : Set Digest} (htags : ∀ key ∈ keys, ∀ key' ∈ keys, key' ≠ key →
    key.bytes.take 16 ≠ key'.bytes.take 16) : IdealAead tagAead keys := by
  have hlength : ∀ (key : Digest) (msg : Bytes),
      (msg ++ key.bytes.take 16).length - 16 = msg.length := by
    intro key msg
    rw [List.length_append, List.length_take, key.length_eq]
    omega
  refine ⟨tagAead_opens, fun key hkey key' hkey' hne nonce aad msg c hc => ?_⟩
  obtain rfl := Option.some.inj hc
  simp only [tagAead, hlength, List.drop_left', if_neg (htags key hkey key' hkey' hne)]

lemma tagAead_ideal : IdealAead tagAead sharedKeys := by
  refine tagAead_ideal_of fun key hkey key' hkey' hne => ?_
  rcases hkey with rfl | rfl <;> rcases hkey' with rfl | rfl
  · exact absurd rfl hne
  · decide
  · decide
  · exact absurd rfl hne

def alice : KeyProvider Digest := localProvider tagAead .reference (.replicate 1) "actor:alice"

def bob : KeyProvider Digest := localProvider tagAead .reference (.replicate 2) "actor:bob"

def sharedDraws : MultiRecipientSecret.Draws :=
  ⟨.replicate 7, ⟨.replicate 12 3, rfl⟩, fun _ => ⟨.replicate 12 4, rfl⟩⟩

/-- Alice grants Bob access, and gives up her own. -/
def sharedOps : List (SecretOp Digest) :=
  [.grant ⟨[alice], []⟩ bob ⟨.replicate 12 5, rfl⟩, .revoke alice.activeKeyRef]

/-- Who can read the secret after these operations. -/
theorem access_controlled_shared :
    ∃ secret, MultiRecipientSecret.encryptFor tagAead sharedDraws (ascii "v") [alice] (.v2 none) =
        .ok secret ∧
      ∀ chain : ProviderChain Digest,
        (∀ q ∈ chain.providers, q ∈ localProviders tagAead .reference sharedKeys) →
        let held := SecretOp.run tagAead sharedOps ⟨secret, ascii "v", sharedDraws.dk⟩
        held.secret.decrypt tagAead chain = .ok held.plaintext ↔
          ∃ q ∈ chain.providers, ∃ w ∈ held.secret.recipients,
            MadeUnder (localProviders tagAead .reference sharedKeys) held.dk held.secret.aad w
              q.master := by
  have halice : alice ∈ localProviders tagAead .reference sharedKeys :=
    ⟨_, .inl rfl, "actor:alice", rfl⟩
  have hbob : bob ∈ localProviders tagAead .reference sharedKeys :=
    ⟨_, .inr rfl, "actor:bob", rfl⟩
  have hops : ∀ op ∈ sharedOps, op.Uses (localProviders tagAead .reference sharedKeys) := by
    intro op hop
    rcases List.mem_pair.mp hop with rfl | rfl
    · exact ⟨by simpa using halice, hbob⟩
    · trivial
  have hfirst : ∀ p ∈ [alice], p ∈ localProviders tagAead .reference sharedKeys := by
    simpa using halice
  obtain ⟨secret, hsecret⟩ : ∃ secret, MultiRecipientSecret.encryptFor tagAead sharedDraws
      (ascii "v") [alice] (.v2 none) = .ok secret := ⟨_, rfl⟩
  exact ⟨secret, hsecret, (access_controlled tagAead_ideal (localProvider_ideal tagAead_ideal)
    hfirst hsecret hops).2.1⟩

end Bole
