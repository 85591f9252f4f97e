import Bole.Object

/-!
Master keys and the wrapping of data keys (`src/crypto/key_provider.rs`, `src/crypto/kms.rs`).

A provider is the authority for one master key.  What it draws at random is an argument here.

* `Aead`: the cipher, as a parameter; `IdealAead`: that a ciphertext opens under its own key only;
* `KeyProvider`: the providers, of a local master key (`localProvider`) or of a KMS (`kmsProvider`);
* `IdealWrapping`: a wrap opens with the providers of its own master key only;
  `localProvider_ideal`: so it is for local keys and an ideal cipher;
* `unwrap_iff`: a chain opens a wrap exactly when it holds its master key.
-/

namespace Bole

/-- `ChaCha20Poly1305`: `encrypt` and `decrypt` of a payload with associated data. -/
structure Aead where
  encrypt : Digest → Nonce → Bytes → Bytes → Option Bytes
  decrypt : Digest → Bytes → Bytes → Bytes → Option Bytes

/-- A ciphertext gives back what was encrypted under its own key, and nothing under another one of
the keys in use. -/
structure IdealAead (A : Aead) (keys : Set Digest) : Prop where
  opens : ∀ key nonce aad msg c, A.encrypt key nonce aad msg = some c →
    A.decrypt key nonce.bytes aad c = some msg
  closed : ∀ key ∈ keys, ∀ key' ∈ keys, key' ≠ key → ∀ nonce aad msg c,
    A.encrypt key nonce aad msg = some c → A.decrypt key' nonce.bytes aad c = none

/-! ### Providers -/

/-- `KeyProvider`, for the master key `master`.  A wrap draws a nonce. -/
structure KeyProvider (κ : Type) where
  master : κ
  activeKeyRef : String
  wrapDk : Nonce → Digest → Bytes → Result WrappedKey
  unwrapDk : WrappedKey → Bytes → Result Digest

/-- `try_into` of the bytes of a data key. -/
def dataKey (bytes : Bytes) : Result Digest :=
  if h : bytes.length = 32 then .ok ⟨bytes, h⟩ else .error .decryptionFailed

lemma dataKey_bytes (dk : Digest) : dataKey dk.bytes = .ok dk := by
  rw [dataKey, dif_pos dk.length_eq]

/-- `hex8`. -/
def hex8 (d : Digest) : String := String.ofList ((d.bytes.take 8).flatMap Digest.hexByte)

/-- `LocalKeyProvider::new`. -/
def localProvider (A : Aead) (C : Crates) (mk : Digest) (refPrefix : String) :
    KeyProvider Digest where
  master := mk
  activeKeyRef := refPrefix ++ ":" ++ hex8 (C.blake3 mk.bytes)
  wrapDk nonce dk aad :=
    match A.encrypt mk nonce aad dk.bytes with
    | none => .error (.codec "dk wrap failed")
    | some ct => .ok ⟨refPrefix ++ ":" ++ hex8 (C.blake3 mk.bytes), nonce.bytes ++ ct⟩
  unwrapDk wrapped aad :=
    if wrapped.bytes.length < 12 then .error .decryptionFailed
    else
      match A.decrypt mk (wrapped.bytes.take 12) aad (wrapped.bytes.drop 12) with
      | none => .error .decryptionFailed
      | some dk => dataKey dk

/-- `KmsClient`. -/
structure KmsClient (κ : Type) where
  master : κ
  keyRef : String
  encrypt : Nonce → Bytes → Bytes → Result Bytes
  decrypt : Bytes → Bytes → Result Bytes

/-- `KmsKeyProvider`. -/
def kmsProvider {κ : Type} (client : KmsClient κ) : KeyProvider κ where
  master := client.master
  activeKeyRef := client.keyRef
  wrapDk nonce dk aad :=
    match client.encrypt nonce dk.bytes aad with
    | .error e => .error e
    | .ok bytes => .ok ⟨client.keyRef, bytes⟩
  unwrapDk wrapped aad :=
    match client.decrypt wrapped.bytes aad with
    | .error e => .error e
    | .ok dk => dataKey dk

/-! ### Ideal wrapping -/

/-- Of the providers in use, those of the master key of a wrap open it and no others do. -/
structure IdealWrapping {κ : Type} (inUse : Set (KeyProvider κ)) : Prop where
  opens : ∀ p ∈ inUse, ∀ q ∈ inUse, q.master = p.master → ∀ nonce dk aad w,
    p.wrapDk nonce dk aad = .ok w → q.unwrapDk w aad = .ok dk
  closed : ∀ p ∈ inUse, ∀ q ∈ inUse, q.master ≠ p.master → ∀ nonce dk aad w,
    p.wrapDk nonce dk aad = .ok w → ∃ e, q.unwrapDk w aad = .error e

/-- The providers of local master keys. -/
def localProviders (A : Aead) (C : Crates) (keys : Set Digest) : Set (KeyProvider Digest) :=
  {p | ∃ mk ∈ keys, ∃ refPrefix, p = localProvider A C mk refPrefix}

/-- **Local providers wrap ideally**, if their cipher is ideal. -/
lemma localProvider_ideal {A : Aead} {C : Crates} {keys : Set Digest} (ideal : IdealAead A keys) :
    IdealWrapping (localProviders A C keys) := by
  -- a wrap is the nonce and the ciphertext, and they are taken apart again
  have hunwrap : ∀ mk mk' refPrefix refPrefix' nonce dk aad w,
      (localProvider A C mk refPrefix).wrapDk nonce dk aad = .ok w →
      ∃ ct, A.encrypt mk nonce aad dk.bytes = some ct ∧
        (localProvider A C mk' refPrefix').unwrapDk w aad =
          match A.decrypt mk' nonce.bytes aad ct with
          | none => .error .decryptionFailed
          | some dk => dataKey dk := by
    intro mk mk' refPrefix refPrefix' nonce dk aad w hw
    simp only [localProvider] at hw ⊢
    cases hct : A.encrypt mk nonce aad dk.bytes with
    | none => simp [hct] at hw
    | some ct =>
        simp only [hct, Except.ok.injEq] at hw
        subst hw
        refine ⟨ct, rfl, ?_⟩
        rw [if_neg (by simp [nonce.length_eq]), List.take_left' nonce.length_eq,
          List.drop_left' nonce.length_eq]
  constructor
  · rintro _ ⟨mk, -, refPrefix, rfl⟩ _ ⟨mk', -, refPrefix', rfl⟩ hmaster nonce dk aad w hw
    obtain ⟨ct, hct, hunwrap⟩ := hunwrap mk mk' refPrefix refPrefix' nonce dk aad w hw
    obtain rfl : mk' = mk := hmaster
    rw [hunwrap, ideal.opens _ _ _ _ _ hct]
    exact dataKey_bytes dk
  · rintro _ ⟨mk, hmk, refPrefix, rfl⟩ _ ⟨mk', hmk', refPrefix', rfl⟩ hmaster nonce dk aad w hw
    obtain ⟨ct, hct, hunwrap⟩ := hunwrap mk mk' refPrefix refPrefix' nonce dk aad w hw
    rw [hunwrap, ideal.closed mk hmk mk' hmk' hmaster _ _ _ _ hct]
    exact ⟨_, rfl⟩

/-! ### Chains -/

/-- `ProviderChain`. -/
structure ProviderChain (κ : Type) where
  providers : List (KeyProvider κ)
  legacyKeys : List Digest

namespace ProviderChain

variable {κ : Type}

/-- `active`. -/
def active (chain : ProviderChain κ) : Result (KeyProvider κ) :=
  match chain.providers.head? with
  | some p => .ok p
  | none => .error (.codec "no key provider configured")

/-- The first provider that opens a wrap. -/
def firstUnwrap (providers : List (KeyProvider κ)) (wrapped : WrappedKey) (aad : Bytes) :
    Option Digest :=
  providers.findSome? fun p => (p.unwrapDk wrapped aad).toOption

/-- `unwrap`. -/
def unwrap (chain : ProviderChain κ) (wrapped : WrappedKey) (aad : Bytes) : Result Digest :=
  match firstUnwrap (chain.providers.filter fun p => p.activeKeyRef = wrapped.keyRef) wrapped aad
    with
  | some dk => .ok dk
  | none =>
      match firstUnwrap chain.providers wrapped aad with
      | some dk => .ok dk
      | none => .error .decryptionFailed

variable {inUse : Set (KeyProvider κ)} {p : KeyProvider κ} {nonce : Nonce} {dk dk' : Digest}
  {aad : Bytes} {w : WrappedKey}

open Classical in
/-- What providers in use make of a wrap of `dk`: they open it to `dk`, or not at all. -/
lemma firstUnwrap_of_wrap (ideal : IdealWrapping inUse) (hp : p ∈ inUse)
    (hw : p.wrapDk nonce dk aad = .ok w) {providers : List (KeyProvider κ)}
    (hin : ∀ q ∈ providers, q ∈ inUse) :
    firstUnwrap providers w aad =
      if ∃ q ∈ providers, q.master = p.master then some dk else none := by
  induction providers with
  | nil => simp [firstUnwrap]
  | cons q rest ih =>
      obtain ⟨hq, hrest⟩ := List.forall_mem_cons.mp hin
      rw [firstUnwrap, List.findSome?_cons]
      by_cases hmaster : q.master = p.master
      · rw [ideal.opens p hp q hq hmaster _ _ _ _ hw, if_pos ⟨q, List.mem_cons_self, hmaster⟩]
        rfl
      · obtain ⟨e, he⟩ := ideal.closed p hp q hq hmaster _ _ _ _ hw
        rw [he]
        simpa [hmaster, firstUnwrap, Except.toOption] using ih hrest

open Classical in
/-- **A chain opens a wrap** exactly when it holds its master key, whatever key ref the wrap
carries; and then to the data key that was wrapped. -/
lemma unwrap_iff (ideal : IdealWrapping inUse) (hp : p ∈ inUse)
    (hw : p.wrapDk nonce dk aad = .ok w) {chain : ProviderChain κ}
    (hin : ∀ q ∈ chain.providers, q ∈ inUse) :
    chain.unwrap w aad =
      if ∃ q ∈ chain.providers, q.master = p.master then .ok dk
      else .error .decryptionFailed := by
  have hactive : ∀ q ∈ chain.providers.filter fun p => p.activeKeyRef = w.keyRef, q ∈ inUse :=
    fun q hq => hin q (List.mem_of_mem_filter hq)
  have hfiltered := firstUnwrap_of_wrap ideal hp hw hactive
  rw [unwrap, hfiltered, firstUnwrap_of_wrap ideal hp hw hin]
  by_cases hholds : ∃ q ∈ chain.providers, q.master = p.master
  · rw [if_pos hholds, if_pos hholds]
    split_ifs <;> rfl
  · have hnone : ¬ ∃ q ∈ chain.providers.filter fun p => p.activeKeyRef = w.keyRef,
        q.master = p.master := fun ⟨q, hq, hm⟩ => hholds ⟨q, List.mem_of_mem_filter hq, hm⟩
    rw [if_neg hnone, if_neg hholds, if_neg hholds]

end ProviderChain

end Bole
