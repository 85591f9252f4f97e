import Bole.Basic
import Bole.Lib.Bytes
import Bole.Lib.Leb128

/-!
The varints of the pack format (`write_varint` and `read_varint` of `src/store/pack.rs`).

* `readVarint_eq_ok`: what is read is an encoding of at most ten bytes, as the low 64 bits of its
  value;
* `readVarint_writeVarint`: a varint is read back wherever it stands;
* `readVarint_exact_iff`: reading is exact unless a tenth byte has more than the one bit that is
  left for it.
-/

namespace Bole

open ByteString Leb128

/-- The loop of `write_varint`; a `u64` has at most ten groups of seven bits. -/
def writeVarintLoop : ℕ → ℕ → Bytes
  | 0, _ => []
  | fuel + 1, v =>
      if v / 128 = 0 then [UInt8.ofNat (v % 128)]
      else UInt8.ofNat (v % 128 + 128) :: writeVarintLoop fuel (v / 128)

/-- `write_varint`. -/
def writeVarint (v : ℕ) : Bytes := writeVarintLoop 10 v

/-- The loop of `read_varint`; it stops by itself before the shift reaches `64`. -/
def readVarintLoop (data : Bytes) : ℕ → ℕ → ℕ → ℕ → Result (ℕ × ℕ)
  | 0, _, _, _ => .error (.storage "pack: varint overflow")
  | fuel + 1, pos, result, shift =>
      match data[pos]? with
      | none => .error (.storage "pack: varint truncated")
      | some byte =>
          let result := result ||| ((byte.toNat % 128) <<< shift % 2 ^ 64)
          if byte.toNat < 128 then .ok (result, pos + 1)
          else if 64 ≤ shift + 7 then .error (.storage "pack: varint overflow")
          else readVarintLoop data fuel (pos + 1) result (shift + 7)

/-- `read_varint`: the value and the position after it. -/
def readVarint (data : Bytes) (pos : ℕ) : Result (ℕ × ℕ) := readVarintLoop data 10 pos 0 0

/-! ### What is written -/

lemma toNat_ofNat_of_lt {n : ℕ} (h : n < 256) : (UInt8.ofNat n).toNat = n := by
  simp [Nat.mod_eq_of_lt h]

lemma length_writeVarintLoop_le (fuel v : ℕ) : (writeVarintLoop fuel v).length ≤ fuel := by
  induction fuel generalizing v with
  | zero => simp [writeVarintLoop]
  | succ fuel ih =>
      rw [writeVarintLoop]
      split_ifs
      · simp
      · simpa using ih (v / 128)

/-- The groups of a number are an encoding of it. -/
lemma writeVarintLoop_spec {fuel v : ℕ} (hv : v < 128 ^ (fuel + 1)) :
    IsEncoding (writeVarintLoop (fuel + 1) v) ∧ value (writeVarintLoop (fuel + 1) v) = v := by
  induction fuel generalizing v with
  | zero =>
      have hlt : v < 128 := by simpa using hv
      have hb : (UInt8.ofNat v).toNat = v := toNat_ofNat_of_lt (by omega)
      rw [writeVarintLoop, if_pos (by omega), Nat.mod_eq_of_lt hlt]
      refine ⟨.last (by omega), ?_⟩
      rw [value_cons, value_nil, hb]
      omega
  | succ fuel ih =>
      rw [writeVarintLoop]
      split_ifs with hlast
      · have hb : (UInt8.ofNat (v % 128)).toNat = v % 128 := toNat_ofNat_of_lt (by omega)
        refine ⟨.last (by omega), ?_⟩
        rw [value_cons, value_nil, hb]
        omega
      · have hb : (UInt8.ofNat (v % 128 + 128)).toNat = v % 128 + 128 :=
          toNat_ofNat_of_lt (by omega)
        have hdiv : v / 128 < 128 ^ (fuel + 1) := by
          rw [pow_succ'] at hv
          exact Nat.div_lt_of_lt_mul hv
        obtain ⟨henc, hvalue⟩ := ih hdiv
        refine ⟨.next (by omega) henc, ?_⟩
        rw [value_cons, hvalue, hb]
        omega

/-- **What is written** for a number of 64 bits is an encoding of it. -/
lemma writeVarint_spec {v : ℕ} (hv : v < 2 ^ 64) :
    IsEncoding (writeVarint v) ∧ value (writeVarint v) = v :=
  writeVarintLoop_spec (by omega)

/-! ### What is read -/

/-- Adding the next group of bits: what leaves the word is lost. -/
lemma or_shiftLeft_mod {r x shift : ℕ} (hr : r < 2 ^ shift) (hshift : shift ≤ 64) :
    r ||| (x <<< shift % 2 ^ 64) = (r + 2 ^ shift * x) % 2 ^ 64 := by
  have hword : (2 : ℕ) ^ 64 = 2 ^ shift * 2 ^ (64 - shift) := by
    rw [← pow_add, Nat.add_sub_cancel' hshift]
  have hlow : (r + 2 ^ shift * x) % 2 ^ shift = r := by
    rw [Nat.add_mul_mod_self_left, Nat.mod_eq_of_lt hr]
  have hhigh : (r + 2 ^ shift * x) / 2 ^ shift = x := by
    rw [Nat.add_mul_div_left _ _ (by positivity), Nat.div_eq_of_lt hr, Nat.zero_add]
  calc r ||| (x <<< shift % 2 ^ 64)
      = r ||| 2 ^ shift * (x % 2 ^ (64 - shift)) := by
        rw [Nat.shiftLeft_eq, Nat.mul_comm, hword, Nat.mul_mod_mul_left]
    _ = r + 2 ^ shift * (x % 2 ^ (64 - shift)) := by
        rw [Nat.lor_comm, ← Nat.two_pow_add_eq_or_of_lt hr, Nat.add_comm]
    _ = (r + 2 ^ shift * x) % 2 ^ 64 := by rw [hword, Nat.mod_mul, hlow, hhigh]

/-- After `i` groups the loop holds the low `7 * i` bits, and the rest of the encoding is ahead. -/
lemma readVarintLoop_eq_ok {data : Bytes} {fuel pos result shift v p : ℕ}
    (hshift : shift + 7 * fuel = 70) (hresult : result < 2 ^ shift) :
    readVarintLoop data fuel pos result shift = .ok (v, p) ↔
      ∃ bs, IsEncoding bs ∧ bs <+: data.drop pos ∧ bs.length ≤ fuel ∧
        v = (result + 2 ^ shift * value bs) % 2 ^ 64 ∧ p = pos + bs.length := by
  induction fuel generalizing pos result shift with
  | zero =>
      rw [readVarintLoop]
      refine iff_of_false (by simp) ?_
      rintro ⟨bs, hbs, -, hlen, -⟩
      have := hbs.length_pos
      omega
  | succ fuel ih =>
      rw [readVarintLoop]
      cases hbyte : data[pos]? with
      | none =>
          refine iff_of_false (by simp) ?_
          rintro ⟨bs, hbs, hpre, -⟩
          rw [List.drop_eq_nil_of_le (List.getElem?_eq_none_iff.mp hbyte)] at hpre
          have := hbs.length_pos
          simp [List.prefix_nil.mp hpre] at this
      | some byte =>
          obtain ⟨hpos, hget⟩ := List.getElem?_eq_some_iff.mp hbyte
          have hbits : byte.toNat % 128 < 2 ^ 7 := Nat.mod_lt _ (by positivity)
          rw [List.drop_eq_getElem_cons hpos, hget, exists_prefix_cons]
          dsimp only
          rw [or_shiftLeft_mod hresult (by omega)]
          split_ifs with hlast hover
          · simp [eq_comm]
          · refine iff_of_false (by simp) ?_
            rintro ⟨bs, hbs, -, hlen, -⟩
            have hpos := hbs.length_pos
            rw [List.length_cons] at hlen
            omega
          · have hnext : result + 2 ^ shift * (byte.toNat % 128) < 2 ^ (shift + 7) := by
              calc result + 2 ^ shift * (byte.toNat % 128)
                  < 2 ^ shift + 2 ^ shift * (byte.toNat % 128) := by omega
                _ = 2 ^ shift * (byte.toNat % 128 + 1) := by ring
                _ ≤ 2 ^ shift * 2 ^ 7 := Nat.mul_le_mul_left _ hbits
                _ = 2 ^ (shift + 7) := (pow_add _ _ _).symm
            have hword : result + 2 ^ shift * (byte.toNat % 128) < 2 ^ 64 :=
              lt_of_lt_of_le hnext (Nat.pow_le_pow_right (by omega) (by omega))
            rw [Nat.mod_eq_of_lt hword, ih (by omega) hnext]
            refine exists_congr fun bs => and_congr_right fun _ => and_congr_right fun _ => ?_
            have hvalue : result + 2 ^ shift * (byte.toNat % 128) + 2 ^ (shift + 7) * value bs =
                result + 2 ^ shift * value (byte :: bs) := by
              rw [value_cons, pow_add]
              ring
            rw [hvalue, List.length_cons, Nat.add_right_comm, ← Nat.add_assoc,
              Nat.add_le_add_iff_right]

/-- **What is read** is an encoding of at most ten bytes, as the low 64 bits of its value. -/
lemma readVarint_eq_ok {data : Bytes} {pos v p : ℕ} :
    readVarint data pos = .ok (v, p) ↔
      ∃ bs, IsEncoding bs ∧ bs <+: data.drop pos ∧ bs.length ≤ 10 ∧
        v = value bs % 2 ^ 64 ∧ p = pos + bs.length := by
  rw [readVarint, readVarintLoop_eq_ok (by omega) (by omega)]
  simp only [pow_zero, one_mul, Nat.zero_add]

/-- A varint that is read ends within the data. -/
lemma readVarint_bounds {data : Bytes} {pos v p : ℕ} (h : readVarint data pos = .ok (v, p)) :
    pos < p ∧ p ≤ data.length := by
  obtain ⟨bs, hbs, hpre, -, -, rfl⟩ := readVarint_eq_ok.mp h
  have hpos := hbs.length_pos
  have hle := hpre.length_le
  rw [List.length_drop] at hle
  omega

/-- A varint holds a number of 64 bits. -/
lemma readVarint_lt {data : Bytes} {pos v p : ℕ} (h : readVarint data pos = .ok (v, p)) :
    v < 2 ^ 64 := by
  obtain ⟨bs, -, -, -, rfl, -⟩ := readVarint_eq_ok.mp h
  exact Nat.mod_lt _ (by positivity)

/-- A varint is read in the same way wherever its bytes stand. -/
lemma readVarint_move {data data' : Bytes} {pos pos' v p : ℕ}
    (h : readVarint data pos = .ok (v, p)) (hsame : slice data pos (p - pos) <+: data'.drop pos') :
    readVarint data' pos' = .ok (v, pos' + (p - pos)) := by
  obtain ⟨bs, hbs, hpre, hlen, hv, rfl⟩ := readVarint_eq_ok.mp h
  rw [Nat.add_sub_cancel_left, slice, ← List.prefix_iff_eq_take.mp hpre] at hsame
  exact readVarint_eq_ok.mpr ⟨bs, hbs, hsame, hlen, hv, by omega⟩

/-- A varint is read back wherever it stands. -/
lemma readVarint_writeVarint {data post : Bytes} {pos v : ℕ} (hv : v < 2 ^ 64)
    (hd : data.drop pos = writeVarint v ++ post) :
    readVarint data pos = .ok (v, pos + (writeVarint v).length) := by
  obtain ⟨henc, hvalue⟩ := writeVarint_spec hv
  refine readVarint_eq_ok.mpr ⟨writeVarint v, henc, ?_, length_writeVarintLoop_le 10 v, ?_, rfl⟩
  · rw [hd]
    exact List.prefix_append _ _
  · rw [hvalue, Nat.mod_eq_of_lt hv]

/-! ### Exactness -/

/-- What is read at a position is the value of the encoding there, and one of more than 64 bits is
refused. -/
structure ReadsExactly (data : Bytes) (pos : ℕ) : Prop where
  exact : ∀ v p, readVarint data pos = .ok (v, p) →
    IsEncoding (slice data pos (p - pos)) ∧ v = value (slice data pos (p - pos))
  refuses : ∀ bs, IsEncoding bs → bs <+: data.drop pos → 2 ^ 64 ≤ value bs →
    ∃ e, readVarint data pos = .error e

/-- At a position stand nine bytes with the high bit and a last byte of more than one bit. -/
def TenthTooWide (data : Bytes) (pos : ℕ) : Prop :=
  ∃ front last, front ++ [last] <+: data.drop pos ∧ front.length = 9 ∧
    (∀ b ∈ front, 128 ≤ b.toNat) ∧ 2 ≤ last.toNat ∧ last.toNat < 128

/-- Ten bytes hold 70 bits; of an encoding that short only a tenth byte can leave the word. -/
lemma word_le_value_iff {bs : Bytes} (hbs : IsEncoding bs) (hlen : bs.length ≤ 10) :
    2 ^ 64 ≤ value bs ↔
      ∃ front last, bs = front ++ [last] ∧ front.length = 9 ∧ 2 ≤ last.toNat := by
  constructor
  · intro hle
    obtain ⟨front, last, rfl, -, hlast⟩ := hbs.exists_concat
    rw [List.length_append, List.length_singleton] at hlen
    have hfront : front.length = 9 := by
      by_contra hne
      have hlt := value_lt (front ++ [last])
      rw [List.length_append, List.length_singleton] at hlt
      have hpow : 128 ^ (front.length + 1) ≤ 128 ^ 9 :=
        Nat.pow_le_pow_right (by omega) (by omega)
      omega
    have hlt := value_concat_lt_iff front last 2
    rw [hfront, Nat.mod_eq_of_lt hlast] at hlt
    exact ⟨front, last, rfl, hfront, by omega⟩
  · rintro ⟨front, last, rfl, hfront, hlast⟩
    have hbit := (isEncoding_concat.mp hbs).2
    have hlt := value_concat_lt_iff front last 2
    rw [hfront, Nat.mod_eq_of_lt hbit] at hlt
    omega

/-- The tenth byte is too wide when an encoding that is short enough to be read leaves the word. -/
lemma tenthTooWide_iff {data : Bytes} {pos : ℕ} : TenthTooWide data pos ↔
    ∃ bs, IsEncoding bs ∧ bs <+: data.drop pos ∧ bs.length ≤ 10 ∧ 2 ^ 64 ≤ value bs := by
  constructor
  · rintro ⟨front, last, hpre, hfront, hhigh, hlast, hend⟩
    have henc : IsEncoding (front ++ [last]) := isEncoding_concat.mpr ⟨hhigh, hend⟩
    have hlen : (front ++ [last]).length ≤ 10 := by simp [hfront]
    exact ⟨_, henc, hpre, hlen, (word_le_value_iff henc hlen).mpr ⟨front, last, rfl, hfront, hlast⟩⟩
  · rintro ⟨bs, henc, hpre, hlen, hle⟩
    obtain ⟨front, last, rfl, hfront, hlast⟩ := (word_le_value_iff henc hlen).mp hle
    obtain ⟨hhigh, hend⟩ := isEncoding_concat.mp henc
    exact ⟨front, last, hpre, hfront, hhigh, hlast, hend⟩

lemma readsExactly_iff {data : Bytes} {pos : ℕ} :
    ReadsExactly data pos ↔ ¬ TenthTooWide data pos := by
  rw [tenthTooWide_iff]
  constructor
  · rintro h ⟨bs, henc, hpre, hlen, hle⟩
    have hread := readVarint_eq_ok.mpr ⟨bs, henc, hpre, hlen, rfl, rfl⟩
    obtain ⟨e, he⟩ := h.refuses bs henc hpre hle
    rw [hread] at he
    cases he
  · intro hnot
    refine ⟨fun v p hread => ?_, fun bs henc hpre hle => ?_⟩
    · obtain ⟨bs, henc, hpre, hlen, rfl, rfl⟩ := readVarint_eq_ok.mp hread
      have hlt : value bs < 2 ^ 64 := by
        by_contra hle
        exact hnot ⟨bs, henc, hpre, hlen, by omega⟩
      rw [Nat.add_sub_cancel_left, slice, ← List.prefix_iff_eq_take.mp hpre]
      exact ⟨henc, Nat.mod_eq_of_lt hlt⟩
    · cases hread : readVarint data pos with
      | error e => exact ⟨e, rfl⟩
      | ok r =>
          obtain ⟨cs, hcs, hpre', hlen, -, -⟩ := readVarint_eq_ok.mp hread
          obtain rfl := henc.eq_of_prefixes hcs hpre hpre'
          exact absurd ⟨bs, henc, hpre, hlen, hle⟩ hnot

/-- **Reading is exact** at every position but one where the tenth byte of an encoding is too wide,
and what is written for a number of 64 bits is read as that number, wherever it stands. -/
theorem readVarint_exact_iff (data front rest : Bytes) (pos : ℕ) (v : UInt64) :
    (ReadsExactly data pos ↔ ¬ TenthTooWide data pos) ∧
      readVarint (front ++ (writeVarint v.toNat ++ rest)) front.length =
        .ok (v.toNat, front.length + (writeVarint v.toNat).length) := by
  refine ⟨readsExactly_iff, ?_⟩
  exact readVarint_writeVarint v.toNat_lt List.drop_left

/-- The number `2 ^ 64` in ten bytes. -/
def wideVarint : Bytes := [0x80, 0x80, 0x80, 0x80, 0x80, 0x80, 0x80, 0x80, 0x80, 0x02]

/-- **A number of 65 bits is read as zero.** -/
theorem readVarint_loses_bits :
    readVarint wideVarint 0 = .ok (0, 10) ∧ value wideVarint = 2 ^ 64 ∧
      ¬ ReadsExactly wideVarint 0 := by
  have hread : readVarint wideVarint 0 = .ok (0, 10) := by decide +kernel
  have hvalue : value wideVarint = 2 ^ 64 := by decide +kernel
  refine ⟨hread, hvalue, fun h => ?_⟩
  obtain ⟨-, hzero⟩ := h.exact 0 10 hread
  have hall : slice wideVarint 0 10 = wideVarint := slice_zero_length wideVarint
  rw [Nat.sub_zero, hall, hvalue] at hzero
  cases hzero

end Bole
