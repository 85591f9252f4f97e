import Mathlib.Data.Nat.Digits.Defs
import Mathlib.Tactic

/-!
Numbers written in groups of seven bits, lowest group first, every byte but the last with its high
bit set.

* `value`: the number that a byte string stands for in base 128, however large;
* `value_concat_lt_iff`: its last byte decides how large it is;
* `exists_prefix_cons`: an encoding that comes first, by the first byte;
* `IsEncoding.eq_of_prefix`: no encoding is the beginning of another.
-/

namespace Leb128

/-! ### Values -/

/-- The low seven bits of the bytes as the digits of a number. -/
def value (bs : List UInt8) : ℕ := Nat.ofDigits 128 (bs.map fun b => b.toNat % 128)

@[simp] lemma value_nil : value [] = 0 := rfl

@[simp] lemma value_cons (b : UInt8) (bs : List UInt8) :
    value (b :: bs) = b.toNat % 128 + 128 * value bs := by
  rw [value, List.map_cons, Nat.ofDigits_cons, value]

lemma value_concat (bs : List UInt8) (b : UInt8) :
    value (bs ++ [b]) = value bs + 128 ^ bs.length * (b.toNat % 128) := by
  rw [value, List.map_append, Nat.ofDigits_append, List.length_map, ← value]
  simp

lemma value_lt (bs : List UInt8) : value bs < 128 ^ bs.length := by
  have hdigit : ∀ d ∈ bs.map (fun b => b.toNat % 128), d < 128 := by
    intro d hd
    obtain ⟨b, -, rfl⟩ := List.mem_map.mp hd
    exact Nat.mod_lt _ (by omega)
  simpa [value] using Nat.ofDigits_lt_base_pow_length (by omega) hdigit

/-- The last byte decides whether a value is below a multiple of its weight. -/
lemma value_concat_lt_iff (bs : List UInt8) (b : UInt8) (k : ℕ) :
    value (bs ++ [b]) < 128 ^ bs.length * k ↔ b.toNat % 128 < k := by
  have hlt := value_lt bs
  rw [value_concat]
  constructor
  · intro h
    exact Nat.lt_of_mul_lt_mul_left (lt_of_le_of_lt (Nat.le_add_left _ _) h)
  · intro h
    calc value bs + 128 ^ bs.length * (b.toNat % 128)
        < 128 ^ bs.length + 128 ^ bs.length * (b.toNat % 128) := by omega
      _ = 128 ^ bs.length * (b.toNat % 128 + 1) := by ring
      _ ≤ 128 ^ bs.length * k := Nat.mul_le_mul_left _ h

/-! ### Encodings -/

/-- The high bit says that another byte follows. -/
inductive IsEncoding : List UInt8 → Prop
  | last {b : UInt8} (hb : b.toNat < 128) : IsEncoding [b]
  | next {b : UInt8} {bs : List UInt8} (hb : 128 ≤ b.toNat) (hbs : IsEncoding bs) :
      IsEncoding (b :: bs)

variable {bs cs l : List UInt8} {b : UInt8}

lemma IsEncoding.length_pos (h : IsEncoding bs) : 0 < bs.length := by
  cases h <;> simp

lemma isEncoding_concat : IsEncoding (bs ++ [b]) ↔ (∀ c ∈ bs, 128 ≤ c.toNat) ∧ b.toNat < 128 := by
  induction bs with
  | nil =>
      constructor
      · intro h
        cases h with
        | last hb => exact ⟨by simp, hb⟩
        | next _ hbs => cases hbs
      · exact fun h => .last h.2
  | cons c bs ih =>
      rw [List.cons_append, List.forall_mem_cons, and_assoc, ← ih]
      constructor
      · intro h
        cases hcs : bs ++ [b] with
        | nil => simp at hcs
        | cons d ds =>
            rw [hcs] at h
            cases h with
            | next hc hbs => exact ⟨hc, hbs⟩
      · exact fun h => .next h.1 h.2

lemma IsEncoding.exists_concat (h : IsEncoding bs) :
    ∃ front last, bs = front ++ [last] ∧ (∀ c ∈ front, 128 ≤ c.toNat) ∧ last.toNat < 128 := by
  have hne : bs ≠ [] := List.ne_nil_of_length_pos h.length_pos
  rw [← List.dropLast_concat_getLast hne, isEncoding_concat] at h
  exact ⟨_, _, (List.dropLast_concat_getLast hne).symm, h⟩

/-- **An encoding that comes first**, by the first byte. -/
lemma exists_prefix_cons {P : List UInt8 → Prop} :
    (∃ bs, IsEncoding bs ∧ bs <+: b :: l ∧ P bs) ↔
      if b.toNat < 128 then P [b] else ∃ bs, IsEncoding bs ∧ bs <+: l ∧ P (b :: bs) := by
  split_ifs with hb
  · constructor
    · rintro ⟨bs, hbs, hpre, hP⟩
      cases hbs with
      | last _ =>
          obtain ⟨rfl, -⟩ := List.cons_prefix_cons.mp hpre
          exact hP
      | next hc _ =>
          obtain ⟨rfl, -⟩ := List.cons_prefix_cons.mp hpre
          omega
    · exact fun hP => ⟨[b], .last hb, by simp, hP⟩
  · constructor
    · rintro ⟨bs, hbs, hpre, hP⟩
      cases hbs with
      | last hc =>
          obtain ⟨rfl, -⟩ := List.cons_prefix_cons.mp hpre
          exact absurd hc hb
      | next _ hbs =>
          obtain ⟨rfl, hrest⟩ := List.cons_prefix_cons.mp hpre
          exact ⟨_, hbs, hrest, hP⟩
    · rintro ⟨bs, hbs, hpre, hP⟩
      exact ⟨b :: bs, .next (by omega) hbs, List.cons_prefix_cons.mpr ⟨rfl, hpre⟩, hP⟩

/-- **No encoding is the beginning of another.** -/
theorem IsEncoding.eq_of_prefix (hbs : IsEncoding bs) (hcs : IsEncoding cs) (h : bs <+: cs) :
    bs = cs := by
  induction hbs generalizing cs with
  | last hb =>
      cases hcs with
      | last _ => rw [(List.cons_prefix_cons.mp h).1]
      | next hc _ =>
          obtain ⟨rfl, -⟩ := List.cons_prefix_cons.mp h
          omega
  | next hb hbs ih =>
      cases hcs with
      | last hc =>
          obtain ⟨rfl, -⟩ := List.cons_prefix_cons.mp h
          omega
      | next _ hcs =>
          obtain ⟨rfl, hpre⟩ := List.cons_prefix_cons.mp h
          rw [ih hcs hpre]

/-- At most one encoding comes first. -/
lemma IsEncoding.eq_of_prefixes (hbs : IsEncoding bs) (hcs : IsEncoding cs) (h : bs <+: l)
    (h' : cs <+: l) : bs = cs := by
  rcases List.prefix_or_prefix_of_prefix h h' with hpre | hpre
  · exact hbs.eq_of_prefix hcs hpre
  · exact (hcs.eq_of_prefix hbs hpre).symm

end Leb128
