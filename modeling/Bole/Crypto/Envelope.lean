import Bole.Crypto.Secret

/-!
Secrets with one reader (`src/object/secret.rs`): the value under a raw key, and the value under a
data key that one master key wraps.

A rotation of the master key wraps the data key again and leaves the value.
-/

namespace Bole

/-- `decrypt` of a secret under a raw key, which binds no associated data. -/
def Secret.decrypt (A : Aead) (s : Secret) (key : Digest) : Result Bytes :=
  match A.decrypt key s.nonce.bytes [] s.ciphertext with
  | none => .error .decryptionFailed
  | some plaintext => .ok plaintext

namespace SecretV2

variable {κ : Type}

/-- `encrypt_envelope`. -/
def encryptEnvelope (A : Aead) (draws : MultiRecipientSecret.Draws) (plaintext : Bytes)
    (provider : KeyProvider κ) (aad : SecretAad) : Result SecretV2 :=
  match A.encrypt draws.dk draws.nonce aad.toBytes plaintext with
  | none => .error (.codec "value encryption failed")
  | some ciphertext => do
      let wrappedDk ← provider.wrapDk (draws.wraps 0) draws.dk aad.toBytes
      .ok ⟨wrappedDk, draws.nonce, ciphertext, aad⟩

/-- `decrypt`. -/
def decrypt (A : Aead) (s : SecretV2) (chain : ProviderChain κ) : Result Bytes := do
  let dk ← chain.unwrap s.wrappedDk s.aad.toBytes
  match A.decrypt dk s.nonce.bytes s.aad.toBytes s.ciphertext with
  | none => .error .decryptionFailed
  | some plaintext => .ok plaintext

/-- `rewrap`; the wrap draws a nonce. -/
def rewrap (s : SecretV2) (old : ProviderChain κ) (new : KeyProvider κ) (nonce : Nonce) :
    Result SecretV2 := do
  let dk ← old.unwrap s.wrappedDk s.aad.toBytes
  let wrappedDk ← new.wrapDk nonce dk s.aad.toBytes
  .ok { s with wrappedDk := wrappedDk }

/-- A rotation of the master key leaves all but the wrap. -/
lemma rewrap_value {s s' : SecretV2} {old : ProviderChain κ} {new : KeyProvider κ} {nonce : Nonce}
    (h : s.rewrap old new nonce = .ok s') :
    s'.nonce = s.nonce ∧ s'.ciphertext = s.ciphertext ∧ s'.aad = s.aad := by
  obtain ⟨dk, -, h⟩ := Result.bind_eq_ok.mp h
  obtain ⟨wrappedDk, -, h⟩ := Result.bind_eq_ok.mp h
  cases h
  exact ⟨rfl, rfl, rfl⟩

end SecretV2

end Bole
