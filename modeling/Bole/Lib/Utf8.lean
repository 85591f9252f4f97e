import Mathlib.Data.Char
import Mathlib.Data.List.Lex
import Mathlib.Tactic

/-!
UTF-8.

* `encode_lt`: encodings compare, byte by byte, as the texts do;
* `mem_encode_iff`: the ASCII characters of a text are the ASCII bytes of its encoding;
* `asciiChars_encode`: an ASCII text is read back;
* `lossy_encode`: lossy decoding reads every text back.
-/

namespace Utf8

/-- The encoding of a text. -/
def encode (s : List Char) : List UInt8 := s.flatMap String.utf8EncodeChar

@[simp] lemma encode_nil : encode [] = [] := rfl

@[simp] lemma encode_cons (c : Char) (s : List Char) :
    encode (c :: s) = String.utf8EncodeChar c ++ encode s := List.flatMap_cons

@[simp] lemma encode_append (s t : List Char) : encode (s ++ t) = encode s ++ encode t :=
  List.flatMap_append

/-! ### Bytes of numbers -/

lemma ofNat_lt_ofNat {a b : ℕ} (hb : b < 256) (h : a < b) : UInt8.ofNat a < UInt8.ofNat b := by
  rw [UInt8.lt_iff_toNat_lt, UInt8.toNat_ofNat', UInt8.toNat_ofNat',
    Nat.mod_eq_of_lt (h.trans hb), Nat.mod_eq_of_lt hb]
  exact h

lemma ofNat_inj {a b : ℕ} (ha : a < 256) (hb : b < 256) :
    UInt8.ofNat a = UInt8.ofNat b ↔ a = b := by
  refine ⟨fun h => ?_, congrArg _⟩
  have hnat := congrArg UInt8.toNat h
  rwa [UInt8.toNat_ofNat', UInt8.toNat_ofNat', Nat.mod_eq_of_lt ha, Nat.mod_eq_of_lt hb] at hnat

/-! ### The order -/

lemma toNat_lt_of_lt {c d : Char} (h : c < d) : c.val.toNat < d.val.toNat :=
  UInt32.lt_iff_toNat_lt.mp h

/-- The encodings of two characters differ in a byte, and there they compare as the characters. -/
lemma utf8EncodeChar_lt {c d : Char} (h : c < d) (x y : List UInt8) :
    String.utf8EncodeChar c ++ x < String.utf8EncodeChar d ++ y := by
  have hlt := toNat_lt_of_lt h
  have hmax : d.val.toNat < 0x110000 := by
    have := d.valid
    simp only [UInt32.isValidChar, Nat.isValidChar] at this
    omega
  generalize hn : c.val.toNat = n at hlt
  generalize hm : d.val.toNat = m at hlt hmax
  simp only [String.utf8EncodeChar, hn, hm]
  -- a longer encoding has a greater first byte
  split_ifs <;> simp only [List.cons_append, List.nil_append, List.cons_lt_cons_iff] <;>
    first
      | exact .inl (ofNat_lt_ofNat (by omega) (by omega))
      | skip
  -- those of one length compare digit by digit
  · have hdigits : n / 64 < m / 64 ∨ n / 64 = m / 64 ∧ n % 64 < m % 64 := by omega
    rcases hdigits with h1 | ⟨h1, h2⟩
    · exact .inl (ofNat_lt_ofNat (by omega) (by omega))
    · exact .inr ⟨by rw [h1], .inl (ofNat_lt_ofNat (by omega) (by omega))⟩
  · have hdigits : n / 4096 < m / 4096 ∨ n / 4096 = m / 4096 ∧
        (n / 64 % 64 < m / 64 % 64 ∨ n / 64 % 64 = m / 64 % 64 ∧ n % 64 < m % 64) := by omega
    rcases hdigits with h1 | ⟨h1, h2 | ⟨h2, h3⟩⟩
    · exact .inl (ofNat_lt_ofNat (by omega) (by omega))
    · exact .inr ⟨by rw [h1], .inl (ofNat_lt_ofNat (by omega) (by omega))⟩
    · exact .inr ⟨by rw [h1], .inr ⟨by rw [h2], .inl (ofNat_lt_ofNat (by omega) (by omega))⟩⟩
  · have hdigits : n / 262144 < m / 262144 ∨ n / 262144 = m / 262144 ∧
        (n / 4096 % 64 < m / 4096 % 64 ∨ n / 4096 % 64 = m / 4096 % 64 ∧
          (n / 64 % 64 < m / 64 % 64 ∨ n / 64 % 64 = m / 64 % 64 ∧ n % 64 < m % 64)) := by omega
    rcases hdigits with h1 | ⟨h1, h2 | ⟨h2, h3 | ⟨h3, h4⟩⟩⟩
    · exact .inl (ofNat_lt_ofNat (by omega) (by omega))
    · exact .inr ⟨by rw [h1], .inl (ofNat_lt_ofNat (by omega) (by omega))⟩
    · exact .inr ⟨by rw [h1], .inr ⟨by rw [h2], .inl (ofNat_lt_ofNat (by omega) (by omega))⟩⟩
    · exact .inr ⟨by rw [h1], .inr ⟨by rw [h2], .inr ⟨by rw [h3],
        .inl (ofNat_lt_ofNat (by omega) (by omega))⟩⟩⟩

/-- **Encodings compare as the texts do.** -/
theorem encode_lt {s t : List Char} (h : s < t) : encode s < encode t := by
  induction s generalizing t with
  | nil =>
      obtain ⟨d, t, rfl⟩ : ∃ d t', t = d :: t' := List.exists_cons_of_ne_nil fun ht =>
        List.not_lt_nil _ (ht ▸ h)
      obtain ⟨b, bs, hb⟩ := List.exists_cons_of_ne_nil (@String.utf8EncodeChar_ne_nil d)
      rw [encode_nil, encode_cons, hb]
      exact List.nil_lt_cons _ _
  | cons c s ih =>
      cases t with
      | nil => exact absurd h (List.not_lt_nil _)
      | cons d t =>
          rw [encode_cons, encode_cons]
          rcases List.cons_lt_cons_iff.mp h with hcd | ⟨rfl, hst⟩
          · exact utf8EncodeChar_lt hcd _ _
          · exact List.append_left_lt (ih hst)

/-! ### ASCII -/

/-- An ASCII byte is in the encoding of a character only if it is that character. -/
lemma mem_utf8EncodeChar_iff {c : Char} {a : ℕ} (ha : a < 128) :
    UInt8.ofNat a ∈ String.utf8EncodeChar c ↔ c.val.toNat = a := by
  rw [String.utf8EncodeChar]
  split_ifs with h1 h2 h3
  · rw [List.mem_singleton, ofNat_inj (by omega) (by omega)]
    exact eq_comm
  · simp only [List.mem_cons, List.not_mem_nil, or_false]
    rw [ofNat_inj (by omega) (by omega), ofNat_inj (by omega) (by omega)]
    omega
  · simp only [List.mem_cons, List.not_mem_nil, or_false]
    rw [ofNat_inj (by omega) (by omega), ofNat_inj (by omega) (by omega),
      ofNat_inj (by omega) (by omega)]
    omega
  · simp only [List.mem_cons, List.not_mem_nil, or_false]
    rw [ofNat_inj (by omega) (by omega), ofNat_inj (by omega) (by omega),
      ofNat_inj (by omega) (by omega), ofNat_inj (by omega) (by omega)]
    omega

/-- **The ASCII characters of a text are the ASCII bytes of its encoding.** -/
theorem mem_encode_iff {s : List Char} {a : Char} (ha : a.val.toNat < 128) :
    UInt8.ofNat a.val.toNat ∈ encode s ↔ a ∈ s := by
  rw [encode, List.mem_flatMap]
  constructor
  · rintro ⟨c, hc, hmem⟩
    have hca : c = a := Char.ext (UInt32.toNat_inj.mp ((mem_utf8EncodeChar_iff ha).mp hmem))
    exact hca ▸ hc
  · exact fun h => ⟨a, h, (mem_utf8EncodeChar_iff ha).mpr rfl⟩

/-- The text of ASCII bytes. -/
def asciiChars (bytes : List UInt8) : List Char := bytes.map fun b => Char.ofNat b.toNat

/-- An ASCII text is read back, one character for each byte. -/
lemma asciiChars_encode {s : List Char} (h : ∀ c ∈ s, c.val.toNat < 128) :
    asciiChars (encode s) = s := by
  induction s with
  | nil => rfl
  | cons c s ih =>
      obtain ⟨hc, hs⟩ := List.forall_mem_cons.mp h
      have hbyte : String.utf8EncodeChar c = [UInt8.ofNat c.val.toNat] := by
        rw [String.utf8EncodeChar, if_pos (by omega)]
      have hval : (UInt8.ofNat c.val.toNat).toNat = c.toNat := by
        rw [UInt8.toNat_ofNat', Nat.mod_eq_of_lt (by omega)]
        rfl
      rw [encode_cons, hbyte, asciiChars, List.singleton_append, List.map_cons, hval,
        Char.ofNat_toNat]
      exact congrArg (c :: ·) (ih hs)

/-! ### Lossy decoding -/

/-- What is written for bytes that are no character. -/
def replacement : Char := '\uFFFD'

/-- The value of the byte at an index, or of one that continues nothing. -/
def byteAt (l : List UInt8) (i : ℕ) : ℕ := (l[i]?.map UInt8.toNat).getD 0

/-- A byte that continues a character. -/
def IsCont (n : ℕ) : Prop := 0x80 ≤ n ∧ n ≤ 0xbf

/-- A second byte of a character of three or four bytes that is neither overlong, nor a surrogate,
nor too large. -/
def IsSecond (first n : ℕ) : Prop :=
  (if first = 0xe0 then 0xa0 else if first = 0xf0 then 0x90 else 0x80) ≤ n ∧
    n ≤ if first = 0xed then 0x9f else if first = 0xf4 then 0x8f else 0xbf

instance (n : ℕ) : Decidable (IsCont n) := inferInstanceAs (Decidable (_ ∧ _))

instance (first n : ℕ) : Decidable (IsSecond first n) := inferInstanceAs (Decidable (_ ∧ _))

/-- The character at the front, if there is one, and the bytes it takes; otherwise the longest
beginning of a character, or one byte. -/
def front (l : List UInt8) : Option Char × ℕ :=
  let a := byteAt l 0
  let b := byteAt l 1
  let c := byteAt l 2
  let d := byteAt l 3
  if a < 0x80 then (some (Char.ofNat a), 1)
  else if 0xc2 ≤ a ∧ a ≤ 0xdf then
    if IsCont b then (some (Char.ofNat ((a - 0xc0) * 64 + (b - 0x80))), 2) else (none, 1)
  else if 0xe0 ≤ a ∧ a ≤ 0xef then
    if ¬ IsSecond a b then (none, 1)
    else if IsCont c then
      (some (Char.ofNat ((a - 0xe0) * 4096 + (b - 0x80) * 64 + (c - 0x80))), 3)
    else (none, 2)
  else if 0xf0 ≤ a ∧ a ≤ 0xf4 then
    if ¬ IsSecond a b then (none, 1)
    else if ¬ IsCont c then (none, 2)
    else if IsCont d then
      (some (Char.ofNat ((a - 0xf0) * 262144 + (b - 0x80) * 4096 + (c - 0x80) * 64 + (d - 0x80))),
        4)
    else (none, 3)
  else (none, 1)

/-- So many characters at most. -/
def lossyLoop : ℕ → List UInt8 → List Char
  | _, [] => []
  | 0, _ :: _ => []
  | fuel + 1, b :: l =>
      (front (b :: l)).1.getD replacement :: lossyLoop fuel ((b :: l).drop (front (b :: l)).2)

/-- The text of any bytes: every longest beginning of a character that is not completed is
replaced. -/
def lossy (l : List UInt8) : List Char := lossyLoop l.length l

lemma toNat_ofNat {n : ℕ} (h : n < 256) : (UInt8.ofNat n).toNat = n := by
  rw [UInt8.toNat_ofNat', Nat.mod_eq_of_lt h]

/-- **A character is read back** from the front of any bytes. -/
lemma front_encode (c : Char) (rest : List UInt8) :
    front (String.utf8EncodeChar c ++ rest) = (some c, (String.utf8EncodeChar c).length) := by
  have hchar : Char.ofNat c.val.toNat = c := Char.ofNat_toNat c
  have hvalid := c.valid
  simp only [UInt32.isValidChar, Nat.isValidChar] at hvalid
  generalize hn : c.val.toNat = n at hchar hvalid
  simp only [String.utf8EncodeChar, hn]
  split_ifs with h1 h2 h3 <;> simp only [List.cons_append, List.nil_append]
  · have ha : byteAt (UInt8.ofNat n :: rest) 0 = n := toNat_ofNat (by omega)
    rw [front]
    simp only [ha]
    rw [if_pos (by omega), hchar]
    rfl
  · generalize hl : UInt8.ofNat (n / 64 % 32 + 192) :: UInt8.ofNat (n % 64 + 128) :: rest = l
    have ha : byteAt l 0 = n / 64 % 32 + 192 := by
      rw [← hl]
      exact toNat_ofNat (by omega)
    have hb : byteAt l 1 = n % 64 + 128 := by
      rw [← hl]
      exact toNat_ofNat (by omega)
    have hsum : (n / 64 % 32 + 192 - 0xc0) * 64 + (n % 64 + 128 - 0x80) = n := by omega
    rw [front]
    simp only [ha, hb, hsum, hchar]
    rw [if_neg (by omega), if_pos (by omega), if_pos (by rw [IsCont]; omega)]
    rfl
  · generalize hl : UInt8.ofNat (n / 4096 % 16 + 224) :: UInt8.ofNat (n / 64 % 64 + 128) ::
      UInt8.ofNat (n % 64 + 128) :: rest = l
    have ha : byteAt l 0 = n / 4096 % 16 + 224 := by
      rw [← hl]
      exact toNat_ofNat (by omega)
    have hb : byteAt l 1 = n / 64 % 64 + 128 := by
      rw [← hl]
      exact toNat_ofNat (by omega)
    have hc : byteAt l 2 = n % 64 + 128 := by
      rw [← hl]
      exact toNat_ofNat (by omega)
    have hsum : (n / 4096 % 16 + 224 - 0xe0) * 4096 + (n / 64 % 64 + 128 - 0x80) * 64 +
        (n % 64 + 128 - 0x80) = n := by omega
    have hsecond : IsSecond (n / 4096 % 16 + 224) (n / 64 % 64 + 128) := by
      rw [IsSecond]
      split_ifs <;> omega
    rw [front]
    simp only [ha, hb, hc, hsum, hchar]
    rw [if_neg (by omega), if_neg (by omega), if_pos (by omega), if_neg (not_not.mpr hsecond),
      if_pos (by rw [IsCont]; omega)]
    rfl
  · generalize hl : UInt8.ofNat (n / 262144 % 8 + 240) :: UInt8.ofNat (n / 4096 % 64 + 128) ::
      UInt8.ofNat (n / 64 % 64 + 128) :: UInt8.ofNat (n % 64 + 128) :: rest = l
    have ha : byteAt l 0 = n / 262144 % 8 + 240 := by
      rw [← hl]
      exact toNat_ofNat (by omega)
    have hb : byteAt l 1 = n / 4096 % 64 + 128 := by
      rw [← hl]
      exact toNat_ofNat (by omega)
    have hc : byteAt l 2 = n / 64 % 64 + 128 := by
      rw [← hl]
      exact toNat_ofNat (by omega)
    have hd : byteAt l 3 = n % 64 + 128 := by
      rw [← hl]
      exact toNat_ofNat (by omega)
    have hsum : (n / 262144 % 8 + 240 - 0xf0) * 262144 + (n / 4096 % 64 + 128 - 0x80) * 4096 +
        (n / 64 % 64 + 128 - 0x80) * 64 + (n % 64 + 128 - 0x80) = n := by omega
    have hsecond : IsSecond (n / 262144 % 8 + 240) (n / 4096 % 64 + 128) := by
      rw [IsSecond]
      split_ifs <;> omega
    rw [front]
    simp only [ha, hb, hc, hd, hsum, hchar]
    rw [if_neg (by omega), if_neg (by omega), if_neg (by omega), if_pos (by omega),
      if_neg (not_not.mpr hsecond), if_neg (not_not.mpr (by rw [IsCont]; omega)),
      if_pos (by rw [IsCont]; omega)]
    rfl

lemma lossyLoop_encode {s : List Char} {fuel : ℕ} (h : s.length ≤ fuel) :
    lossyLoop fuel (encode s) = s := by
  induction s generalizing fuel with
  | nil => rw [encode_nil, lossyLoop]
  | cons c s ih =>
      cases fuel with
      | zero => simp at h
      | succ fuel =>
          have hfront := front_encode c (encode s)
          obtain ⟨b, bs, hb⟩ := List.exists_cons_of_ne_nil (@String.utf8EncodeChar_ne_nil c)
          rw [hb, List.cons_append] at hfront
          rw [encode_cons, hb, List.cons_append, lossyLoop, hfront]
          dsimp only
          rw [Option.getD_some, List.length_cons, List.drop_succ_cons, List.drop_left,
            ih (by simpa using h)]

lemma length_le_encode (s : List Char) : s.length ≤ (encode s).length := by
  induction s with
  | nil => exact Nat.zero_le _
  | cons c s ih =>
      have hpos := List.length_pos_of_ne_nil (@String.utf8EncodeChar_ne_nil c)
      rw [encode_cons, List.length_append, List.length_cons]
      omega

/-- **Lossy decoding reads every text back.** -/
theorem lossy_encode (s : List Char) : lossy (encode s) = s :=
  lossyLoop_encode (length_le_encode s)

end Utf8
