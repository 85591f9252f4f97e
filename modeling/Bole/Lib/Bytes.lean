import Mathlib.Data.List.Basic
import Mathlib.Tactic

/-!
Fixed-width little-endian numbers and fixed-width tables inside byte strings.

* `leBytes`, `ofLeBytes`: the low `w` bytes of a number and back (`ofLeBytes_leBytes`);
* `slice`: the bytes of a half-open range, with its behaviour on concatenations;
* `slice_flatMap`: the `i`-th row of a table whose rows all have the same width.
-/

namespace ByteString

/-! ### Little-endian numbers -/

/-- The low `w` bytes of `n`, least significant first. -/
def leBytes : ℕ → ℕ → List UInt8
  | 0, _ => []
  | w + 1, n => UInt8.ofNat (n % 256) :: leBytes w (n / 256)

/-- The number a little-endian byte string stands for. -/
def ofLeBytes : List UInt8 → ℕ
  | [] => 0
  | b :: bs => b.toNat + 256 * ofLeBytes bs

@[simp] lemma length_leBytes (w n : ℕ) : (leBytes w n).length = w := by
  induction w generalizing n with
  | zero => rfl
  | succ w ih => simp [leBytes, ih]

lemma ofLeBytes_leBytes_mod (w n : ℕ) : ofLeBytes (leBytes w n) = n % 256 ^ w := by
  induction w generalizing n with
  | zero => simp [leBytes, ofLeBytes, Nat.mod_one]
  | succ w ih =>
      have hb : (UInt8.ofNat (n % 256)).toNat = n % 256 := by simp
      rw [leBytes, ofLeBytes, ih, hb, pow_succ', Nat.mod_mul]

/-- A number that fits its width is read back. -/
lemma ofLeBytes_leBytes {w n : ℕ} (h : n < 256 ^ w) : ofLeBytes (leBytes w n) = n := by
  rw [ofLeBytes_leBytes_mod, Nat.mod_eq_of_lt h]

/-- A byte string is the number it stands for at its width. -/
lemma leBytes_ofLeBytes (bs : List UInt8) : leBytes bs.length (ofLeBytes bs) = bs := by
  induction bs with
  | nil => rfl
  | cons b bs ih =>
      have hb := b.toNat_lt
      have hmod : (b.toNat + 256 * ofLeBytes bs) % 256 = b.toNat := by omega
      have hdiv : (b.toNat + 256 * ofLeBytes bs) / 256 = ofLeBytes bs := by omega
      rw [List.length_cons, leBytes, ofLeBytes, hmod, hdiv, ih, UInt8.ofNat_toNat]

lemma ofLeBytes_lt (bs : List UInt8) : ofLeBytes bs < 256 ^ bs.length := by
  induction bs with
  | nil => simp [ofLeBytes]
  | cons b bs ih =>
      have hb := b.toNat_lt
      rw [ofLeBytes, List.length_cons, pow_succ']
      omega

/-! ### Ranges -/

variable {α β : Type*}

/-- The elements of the half-open range `[i, i + n)`. -/
def slice (l : List α) (i n : ℕ) : List α := (l.drop i).take n

/-- A range that lies in the second part of a concatenation. -/
lemma slice_append_right (l₁ l₂ : List α) (i n : ℕ) :
    slice (l₁ ++ l₂) (l₁.length + i) n = slice l₂ i n := by
  simp [slice, List.drop_append, List.drop_eq_nil_of_le]

/-- A range that lies in the first part of a concatenation. -/
lemma slice_append_left {l₁ : List α} (l₂ : List α) {i n : ℕ} (h : i + n ≤ l₁.length) :
    slice (l₁ ++ l₂) i n = slice l₁ i n := by
  rw [slice, slice, List.drop_append_of_le_length (by omega),
    List.take_append_of_le_length (by simp; omega)]

@[simp] lemma slice_zero_length (l : List α) : slice l 0 l.length = l := by
  simp [slice]

/-- The first of two parts. -/
lemma slice_first {l₁ l₂ : List α} {n : ℕ} (hn : n = l₁.length) :
    slice (l₁ ++ l₂) 0 n = l₁ := by
  subst hn
  rw [slice_append_left _ (by omega), slice_zero_length]

/-- The middle of three parts. -/
lemma slice_middle (l₁ l₂ l₃ : List α) {i n : ℕ} (hi : i = l₁.length) (hn : n = l₂.length) :
    slice (l₁ ++ (l₂ ++ l₃)) i n = l₂ := by
  subst hi hn
  rw [← Nat.add_zero l₁.length, slice_append_right, slice_append_left _ (by omega),
    slice_zero_length]

/-- The `i`-th row of a table whose rows all have width `w`. -/
lemma slice_flatMap {f : α → List β} {w : ℕ} (hf : ∀ a, (f a).length = w) :
    ∀ {l : List α} {i : ℕ} {a : α}, l[i]? = some a → slice (l.flatMap f) (i * w) w = f a
  | [], _, _, h => by simp at h
  | x :: xs, 0, a, h => by
      have hxa : x = a := by simpa using h
      subst hxa
      rw [List.flatMap_cons, Nat.zero_mul, slice_append_left _ (by simp [hf]), ← hf x,
        slice_zero_length]
  | x :: xs, i + 1, a, h => by
      have hi : (i + 1) * w = (f x).length + i * w := by rw [hf]; ring
      rw [List.flatMap_cons, hi, slice_append_right]
      exact slice_flatMap hf (by simpa using h)

lemma length_flatMap_const {f : α → List β} {w : ℕ} (hf : ∀ a, (f a).length = w) (l : List α) :
    (l.flatMap f).length = l.length * w := by
  induction l with
  | nil => simp
  | cons x xs ih => simp [List.flatMap_cons, hf, ih]; ring

end ByteString
