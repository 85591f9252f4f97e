import Mathlib

/-!
Identifiers, errors and the crates the code is linked against (`src/object/id.rs`,
`src/error.rs`).

* `Digest`, `ObjectId`: the 32-byte content addresses, with the byte order the code sorts
  them by and the lowercase hex form it names files by (`Digest.hex_injective`);
* `Error`, `Result`: the error type of the library; a panic is kept apart as `Error.panic`;
* `Zstd`, `Crates`: the third-party functions the code calls, as parameters of the model.
-/

namespace Bole

/-- `Vec<u8>`, `Bytes` and `&[u8]`. -/
abbrev Bytes := List UInt8

/-- `BTreeMap` and, where the iteration order is never looked at, `HashMap`. -/
abbrev BTreeMap (κ υ : Type) [Ord κ] := Std.ExtTreeMap κ υ

/-- `BTreeSet`. -/
abbrev BTreeSet (κ : Type) [Ord κ] := Std.ExtTreeSet κ

/-! ### Digests and object ids -/

/-- `[u8; 32]`. -/
structure Digest where
  bytes : Bytes
  length_eq : bytes.length = 32
deriving DecidableEq

namespace Digest

lemma ext' {a b : Digest} (h : a.bytes = b.bytes) : a = b := by
  cases a
  cases b
  simpa using h

/-- The array with one repeated byte, `[b; 32]`. -/
def replicate (b : UInt8) : Digest := ⟨List.replicate 32 b, by simp⟩

instance : Inhabited Digest := ⟨replicate 0⟩

instance : Ord Digest := ⟨compareOn Digest.bytes⟩

instance : Std.TransOrd Digest :=
  inferInstanceAs (Std.TransCmp (compareOn Digest.bytes))

instance : Std.LawfulEqOrd Digest where
  compare_self := Std.ReflOrd.compare_self (α := Bytes)
  eq_of_compare h := ext' (Std.LawfulEqOrd.eq_of_compare (α := Bytes) h)

/-- One lowercase hex digit. -/
def hexDigit (n : ℕ) : Char :=
  if n < 10 then Char.ofNat (48 + n) else Char.ofNat (87 + n)

/-- `{:02x}` on one byte. -/
def hexByte (b : UInt8) : List Char := [hexDigit (b.toNat / 16), hexDigit (b.toNat % 16)]

/-- `hex32`, and `Display` of an object id: 64 lowercase hex characters. -/
def hex (d : Digest) : String := String.ofList (d.bytes.flatMap hexByte)

lemma hexDigit_injOn : ∀ m < 16, ∀ n < 16, hexDigit m = hexDigit n → m = n := by
  decide

lemma hexByte_injective : Function.Injective hexByte := by
  intro a b h
  simp only [hexByte, List.cons.injEq, and_true] at h
  have ha := a.toNat_lt
  have hb := b.toNat_lt
  have h1 := hexDigit_injOn _ (by omega) _ (by omega) h.1
  have h2 := hexDigit_injOn _ (by omega) _ (by omega) h.2
  exact UInt8.toNat_inj.mp (by omega)

lemma flatMap_hexByte_injective :
    Function.Injective (List.flatMap hexByte : Bytes → List Char) := by
  intro a
  induction a with
  | nil =>
      intro b h
      cases b with
      | nil => rfl
      | cons y ys => simp [hexByte] at h
  | cons x xs ih =>
      intro b h
      cases b with
      | nil => simp [hexByte] at h
      | cons y ys =>
          simp only [List.flatMap_cons] at h
          obtain ⟨h1, h2⟩ := List.append_inj h (by simp [hexByte])
          rw [hexByte_injective h1, ih h2]

/-- No character but a digit is in a hex text. -/
lemma notMem_hex {c : Char} (hdigit : ∀ n < 16, hexDigit n ≠ c) (bytes : Bytes) :
    c ∉ bytes.flatMap hexByte := by
  intro h
  obtain ⟨b, -, hb⟩ := List.mem_flatMap.mp h
  have hlt := b.toNat_lt
  simp only [hexByte, List.mem_cons, List.not_mem_nil, or_false] at hb
  rcases hb with hb | hb
  · exact hdigit _ (by omega) hb.symm
  · exact hdigit _ (by omega) hb.symm

/-- Different digests have different hex names. -/
lemma hex_injective : Function.Injective hex := fun _ _ h =>
  ext' (flatMap_hexByte_injective (String.ofList_injective h))

end Digest

/-- A content address. -/
structure ObjectId where
  digest : Digest
deriving DecidableEq, Inhabited

namespace ObjectId

/-- `as_bytes`. -/
def asBytes (id : ObjectId) : Bytes := id.digest.bytes

@[simp] lemma length_asBytes (id : ObjectId) : id.asBytes.length = 32 := id.digest.length_eq

lemma asBytes_injective : Function.Injective asBytes := by
  rintro ⟨a⟩ ⟨b⟩ h
  exact congrArg mk (Digest.ext' h)

/-- `Display`. -/
def toHex (id : ObjectId) : String := id.digest.hex

lemma toHex_injective : Function.Injective toHex := fun _ _ h =>
  congrArg mk (Digest.hex_injective h)

instance : Ord ObjectId := ⟨compareOn ObjectId.digest⟩

instance : Std.TransOrd ObjectId :=
  inferInstanceAs (Std.TransCmp (compareOn ObjectId.digest))

instance : Std.LawfulEqOrd ObjectId where
  compare_self := Std.ReflOrd.compare_self (α := Digest)
  eq_of_compare h := congrArg mk (Std.LawfulEqOrd.eq_of_compare (α := Digest) h)

end ObjectId

/-! ### Errors -/

/-- The `std::io::ErrorKind`s the code meets. -/
inductive IoErrorKind where
  | notFound
  | notADirectory
  | isADirectory
  | alreadyExists
  | unexpectedEof
  | other
deriving DecidableEq, Repr

/-- The error type of the library.  `panic` is no value of it: it stands for a call that does
not return because the thread panics. -/
inductive Error where
  | codec (msg : String)
  | storage (msg : String)
  | io (kind : IoErrorKind)
  | invalidRefName (msg : String)
  | wrongRefKind (msg : String)
  | accessDenied (msg : String)
  | decryptionFailed
  | secretNotUtf8
  | gitProjection (msg : String)
  | policyViolation (msg : String)
  | approvalRequired (reason : String) (needed : ℕ)
  | transactionConflict (msg : String)
  | panic (msg : String)
deriving DecidableEq, Repr

/-- `crate::error::Result`. -/
abbrev Result (α : Type) := Except Error α

/-- A sequence of two fallible steps succeeds when both do. -/
lemma Result.bind_eq_ok {ε α β : Type} {x : Except ε α} {f : α → Except ε β} {b : β} :
    (x >>= f) = .ok b ↔ ∃ a, x = .ok a ∧ f a = .ok b := by
  cases x with
  | error e => simp [bind, Except.bind]
  | ok a => simp [bind, Except.bind]

lemma exists_of_isOk {α : Type} {x : Result α} (h : x.toOption.isSome = true) :
    ∃ a, x = .ok a := by
  cases x with
  | error e => simp [Except.toOption] at h
  | ok a => exact ⟨a, rfl⟩

/-- A loop whose turns all succeed returns what they return. -/
lemma Result.mapM_eq_ok {α β : Type} {f : α → Result β} {g : α → β} {l : List α}
    (h : ∀ a ∈ l, f a = .ok (g a)) : l.mapM f = .ok (l.map g) := by
  induction l with
  | nil => rfl
  | cons a l ih =>
      rw [List.mapM_cons, h a (by simp), ih fun b hb => h b (by simp [hb])]
      rfl

/-- What a loop returns whose turns all succeed. -/
lemma Result.forall₂_mapM {α β : Type} {f : α → Result β} {l : List α} {r : List β}
    (h : l.mapM f = .ok r) : List.Forall₂ (fun a b => f a = .ok b) l r := by
  induction l generalizing r with
  | nil =>
      obtain rfl : [] = r := Except.ok.inj h
      exact .nil
  | cons a l ih =>
      rw [List.mapM_cons, Result.bind_eq_ok] at h
      obtain ⟨b, hb, h⟩ := h
      obtain ⟨bs, hbs, h⟩ := Result.bind_eq_ok.mp h
      obtain rfl : b :: bs = r := Except.ok.inj h
      exact .cons hb (ih hbs)

/-- Each value that a loop returns is that of one of its turns. -/
lemma Result.mem_mapM {α β : Type} {f : α → Result β} {l : List α} {r : List β}
    (h : l.mapM f = .ok r) {b : β} (hb : b ∈ r) : ∃ a ∈ l, f a = .ok b := by
  have hturns := Result.forall₂_mapM h
  clear h
  induction hturns with
  | nil => cases hb
  | @cons a b' l r hab _ ih =>
      rcases List.mem_cons.mp hb with rfl | hb
      · exact ⟨a, List.mem_cons_self, hab⟩
      · obtain ⟨a', ha', hab'⟩ := ih hb
        exact ⟨a', List.mem_cons_of_mem _ ha', hab'⟩

/-- The bytes of an ASCII literal, `b"..."`. -/
def ascii (s : String) : Bytes := s.toList.map fun c => UInt8.ofNat c.toNat

/-! ### Third-party crates -/

/-- The `zstd` crate: `encode_all` at level 3, `decode_all`, and the streaming decoder read
through `take(max_out + 1)`.  The laws are what its documentation promises: both decoders
give back what was encoded, and the frame overhead is bounded. -/
structure Zstd where
  encodeAll : Bytes → Bytes
  decodeAll : Bytes → Option Bytes
  decodeTake : Bytes → ℕ → Option Bytes
  decodeAll_encodeAll : ∀ x, decodeAll (encodeAll x) = some x
  decodeTake_encodeAll : ∀ x m, decodeTake (encodeAll x) m = some (x.take m)
  length_encodeAll_le : ∀ x, (encodeAll x).length ≤ 2 * x.length + 1024

/-- The hash and compression crates.  Nothing is assumed of `blake3` here: a result that
needs it to be free of collisions names the inputs it compares. -/
structure Crates where
  blake3 : Bytes → Digest
  zstd : Zstd

/-- `ObjectId::from_content`. -/
def Crates.fromContent (C : Crates) (data : Bytes) : ObjectId := ⟨C.blake3 data⟩

end Bole
