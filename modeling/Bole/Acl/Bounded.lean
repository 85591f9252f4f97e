import Bole.Acl.Lattice
import Mathlib.Order.Lattice
import Mathlib.Order.BoundedOrder.Basic

/-!
A lattice that passed `validate` is a bounded lattice (`src/acl/lattice.rs`).

* `validate_eq_ok`: what the checks of `validate` say once they all pass;
* `ValidLattice.Level`: the labels of a validated lattice, ordered by domination; `join`, `meet`,
  `bottom` and `top` make it a `Lattice` and a `BoundedOrder`;
* `validate_laws`: the laws of the source's operations on every validated lattice.
-/

namespace Bole

namespace LabelLattice

variable {l : LabelLattice} {a b c : Label}

/-- A predicate that exactly one element meets is met by the element the search finds. -/
lemma find?_of_countP {α : Type*} {p : α → Bool} {xs : List α} (h : xs.countP p = 1) :
    ∃ x, xs.find? p = some x ∧ x ∈ xs ∧ p x = true := by
  obtain ⟨y, hy, hp⟩ := List.countP_pos_iff.mp (show 0 < xs.countP p by omega)
  cases hf : xs.find? p with
  | none => exact absurd hp (List.find?_eq_none.mp hf y hy)
  | some x => exact ⟨x, rfl, List.mem_of_find?_eq_some hf, List.find?_some hf⟩

lemma mem_upperBounds :
    c ∈ l.upperBounds a b ↔ c ∈ l.labels ∧ l.dominates c a = true ∧ l.dominates c b = true := by
  simp [upperBounds]

lemma mem_lowerBounds :
    c ∈ l.lowerBounds a b ↔ c ∈ l.labels ∧ l.dominates a c = true ∧ l.dominates b c = true := by
  simp [lowerBounds]

lemma mem_pairs : (a, b) ∈ l.pairs ↔ a ∈ l.labels ∧ b ∈ l.labels := by
  simp [pairs]

/-- What the checks of `validate` say once they all pass. -/
structure Checked (l : LabelLattice) : Prop where
  acyclic : ∀ a ∈ l.labels, ∀ b ∈ l.labels,
    l.dominates a b = true → l.dominates b a = true → a = b
  oneBottom : l.bottoms = 1
  oneTop : l.tops = 1
  oneJoin : ∀ a ∈ l.labels, ∀ b ∈ l.labels,
    (l.upperBounds a b).countP (fun x => (l.upperBounds a b).all fun y => l.dominates y x) = 1
  oneMeet : ∀ a ∈ l.labels, ∀ b ∈ l.labels,
    (l.lowerBounds a b).countP (fun x => (l.lowerBounds a b).all fun y => l.dominates x y) = 1

lemma pairError_eq_none (h : l.pairError (a, b) = none) :
    (l.upperBounds a b).countP (fun x => (l.upperBounds a b).all fun y => l.dominates y x) = 1 ∧
      (l.lowerBounds a b).countP
        (fun x => (l.lowerBounds a b).all fun y => l.dominates x y) = 1 := by
  rw [pairError] at h
  split_ifs at h with hjoin hmeet
  exact ⟨not_not.mp hjoin, not_not.mp hmeet⟩

lemma validate_eq_ok (h : l.validate = .ok ()) : l.Checked := by
  rw [validate] at h
  split_ifs at h with hempty hcover hbottom htop
  · split at h <;> cases h
  · split at h <;> cases h
  split at h
  · cases h
  rename_i hcycle
  cases hpairs : l.pairs.findSome? l.pairError with
  | some e =>
      rw [hpairs] at h
      cases h
  | none =>
      have hpair : ∀ a ∈ l.labels, ∀ b ∈ l.labels, l.pairError (a, b) = none := by
        intro a ha b hb
        exact List.findSome?_eq_none_iff.mp hpairs _ (mem_pairs.mpr ⟨ha, hb⟩)
      refine ⟨?_, not_not.mp hbottom, not_not.mp htop, ?_, ?_⟩
      · intro a ha b hb hab hba
        have hno := List.find?_eq_none.mp hcycle _ (mem_pairs.mpr ⟨ha, hb⟩)
        by_contra hne
        exact hno (by simp [hne, hab, hba])
      · exact fun a ha b hb => (pairError_eq_none (hpair a ha b hb)).1
      · exact fun a ha b hb => (pairError_eq_none (hpair a ha b hb)).2

/-! ### The four operations on a checked lattice -/

namespace Checked

/-- `bottom` is a label below every label. -/
lemma bottom_spec (h : l.Checked) :
    l.bottom ∈ l.labels ∧ ∀ x ∈ l.labels, l.dominates x l.bottom = true := by
  obtain ⟨x, hfind, hmem, hall⟩ := find?_of_countP h.oneBottom
  rw [bottom, hfind, Option.getD_some]
  exact ⟨by simpa using hmem, by simpa using hall⟩

/-- `top` is a label above every label. -/
lemma top_spec (h : l.Checked) :
    l.top ∈ l.labels ∧ ∀ x ∈ l.labels, l.dominates l.top x = true := by
  obtain ⟨x, hfind, hmem, hall⟩ := find?_of_countP h.oneTop
  rw [top, hfind, Option.getD_some]
  exact ⟨by simpa using hmem, by simpa using hall⟩

/-- `join` is an upper bound that every upper bound dominates. -/
lemma join_spec (h : l.Checked) (ha : a ∈ l.labels) (hb : b ∈ l.labels) :
    l.join a b ∈ l.upperBounds a b ∧
      ∀ x ∈ l.upperBounds a b, l.dominates x (l.join a b) = true := by
  obtain ⟨x, hfind, hmem, hall⟩ := find?_of_countP (h.oneJoin a ha b hb)
  rw [join, hfind, Option.getD_some]
  exact ⟨hmem, List.all_eq_true.mp hall⟩

/-- `meet` is a lower bound that dominates every lower bound. -/
lemma meet_spec (h : l.Checked) (ha : a ∈ l.labels) (hb : b ∈ l.labels) :
    l.meet a b ∈ l.lowerBounds a b ∧
      ∀ x ∈ l.lowerBounds a b, l.dominates (l.meet a b) x = true := by
  obtain ⟨x, hfind, hmem, hall⟩ := find?_of_countP (h.oneMeet a ha b hb)
  rw [meet, hfind, Option.getD_some]
  exact ⟨hmem, List.all_eq_true.mp hall⟩

end Checked

end LabelLattice

/-! ### The lattice of the labels -/

/-- A lattice that passed `validate`. -/
structure ValidLattice extends LabelLattice where
  valid : toLabelLattice.validate = .ok ()

namespace ValidLattice

lemma checked (v : ValidLattice) : v.toLabelLattice.Checked :=
  LabelLattice.validate_eq_ok v.valid

/-- The labels of a validated lattice. -/
def Level (v : ValidLattice) : Type := { a : Label // a ∈ v.labels }

variable {v : ValidLattice}

/-- A label is below the labels that dominate it. -/
instance : PartialOrder v.Level where
  le a b := v.dominates b.1 a.1 = true
  le_refl a := LabelLattice.dominates_refl _ a.1
  le_trans _ _ _ hab hbc := LabelLattice.dominates_trans hbc hab
  le_antisymm a b hab hba := Subtype.ext (v.checked.acyclic a.1 a.2 b.1 b.2 hba hab)

/-- `join` and `meet` on the labels. -/
instance : Lattice v.Level where
  sup a b := ⟨v.join a.1 b.1, (LabelLattice.mem_upperBounds.mp
    (v.checked.join_spec a.2 b.2).1).1⟩
  le_sup_left a b := (LabelLattice.mem_upperBounds.mp (v.checked.join_spec a.2 b.2).1).2.1
  le_sup_right a b := (LabelLattice.mem_upperBounds.mp (v.checked.join_spec a.2 b.2).1).2.2
  sup_le a b c hac hbc := (v.checked.join_spec a.2 b.2).2 c.1
    (LabelLattice.mem_upperBounds.mpr ⟨c.2, hac, hbc⟩)
  inf a b := ⟨v.meet a.1 b.1, (LabelLattice.mem_lowerBounds.mp
    (v.checked.meet_spec a.2 b.2).1).1⟩
  inf_le_left a b := (LabelLattice.mem_lowerBounds.mp (v.checked.meet_spec a.2 b.2).1).2.1
  inf_le_right a b := (LabelLattice.mem_lowerBounds.mp (v.checked.meet_spec a.2 b.2).1).2.2
  le_inf a b c hab hac := (v.checked.meet_spec b.2 c.2).2 a.1
    (LabelLattice.mem_lowerBounds.mpr ⟨a.2, hab, hac⟩)

instance : BoundedOrder v.Level where
  bot := ⟨v.bottom, v.checked.bottom_spec.1⟩
  bot_le a := v.checked.bottom_spec.2 a.1 a.2
  top := ⟨v.top, v.checked.top_spec.1⟩
  le_top a := v.checked.top_spec.2 a.1 a.2

end ValidLattice

namespace LabelLattice

/-- `x` is the least label above `a` and `b`. -/
structure IsJoin (l : LabelLattice) (a b x : Label) : Prop where
  mem : x ∈ l.labels
  left : l.dominates x a = true
  right : l.dominates x b = true
  least : ∀ y ∈ l.labels, l.dominates y a = true → l.dominates y b = true →
    l.dominates y x = true

/-- `x` is the greatest label below `a` and `b`. -/
structure IsMeet (l : LabelLattice) (a b x : Label) : Prop where
  mem : x ∈ l.labels
  left : l.dominates a x = true
  right : l.dominates b x = true
  greatest : ∀ y ∈ l.labels, l.dominates a y = true → l.dominates b y = true →
    l.dominates x y = true

/-- **A validated lattice is a bounded lattice.**  Domination is a partial order on the labels,
`bottom` and `top` are its bounds, `join` and `meet` are the least upper and the greatest lower
bound of every pair, and so both are commutative, associative, idempotent and absorptive. -/
theorem validate_laws {l : LabelLattice} (h : l.validate = .ok ()) :
    ((∀ a ∈ l.labels, l.dominates a a = true) ∧
      (∀ a ∈ l.labels, ∀ b ∈ l.labels, ∀ c ∈ l.labels,
        l.dominates a b = true → l.dominates b c = true → l.dominates a c = true) ∧
      (∀ a ∈ l.labels, ∀ b ∈ l.labels,
        l.dominates a b = true → l.dominates b a = true → a = b)) ∧
    (l.bottom ∈ l.labels ∧ ∀ a ∈ l.labels, l.dominates a l.bottom = true) ∧
    (l.top ∈ l.labels ∧ ∀ a ∈ l.labels, l.dominates l.top a = true) ∧
    (∀ a ∈ l.labels, ∀ b ∈ l.labels, l.IsJoin a b (l.join a b) ∧ l.IsMeet a b (l.meet a b)) ∧
    (∀ a ∈ l.labels, ∀ b ∈ l.labels,
      l.join a b = l.join b a ∧ l.meet a b = l.meet b a) ∧
    (∀ a ∈ l.labels, ∀ b ∈ l.labels, ∀ c ∈ l.labels,
      l.join (l.join a b) c = l.join a (l.join b c) ∧
      l.meet (l.meet a b) c = l.meet a (l.meet b c)) ∧
    (∀ a ∈ l.labels, l.join a a = a ∧ l.meet a a = a) ∧
    ∀ a ∈ l.labels, ∀ b ∈ l.labels,
      l.join a (l.meet a b) = a ∧ l.meet a (l.join a b) = a := by
  let v : ValidLattice := ⟨l, h⟩
  refine ⟨⟨?_, ?_, ?_⟩, v.checked.bottom_spec, v.checked.top_spec, ?_, ?_, ?_, ?_, ?_⟩
  · exact fun a _ => dominates_refl l a
  · exact fun a _ b _ c _ hab hbc => dominates_trans hab hbc
  · exact v.checked.acyclic
  · intro a ha b hb
    let x : v.Level := ⟨a, ha⟩
    let y : v.Level := ⟨b, hb⟩
    constructor
    · refine ⟨(x ⊔ y).2, le_sup_left (a := x) (b := y), le_sup_right (a := x) (b := y), ?_⟩
      intro z hz hza hzb
      let w : v.Level := ⟨z, hz⟩
      exact sup_le (show x ≤ w from hza) (show y ≤ w from hzb)
    · refine ⟨(x ⊓ y).2, inf_le_left (a := x) (b := y), inf_le_right (a := x) (b := y), ?_⟩
      intro z hz hza hzb
      let w : v.Level := ⟨z, hz⟩
      exact le_inf (show w ≤ x from hza) (show w ≤ y from hzb)
  · intro a ha b hb
    let x : v.Level := ⟨a, ha⟩
    let y : v.Level := ⟨b, hb⟩
    exact ⟨congrArg Subtype.val (sup_comm x y), congrArg Subtype.val (inf_comm x y)⟩
  · intro a ha b hb c hc
    let x : v.Level := ⟨a, ha⟩
    let y : v.Level := ⟨b, hb⟩
    let z : v.Level := ⟨c, hc⟩
    exact ⟨congrArg Subtype.val (sup_assoc x y z), congrArg Subtype.val (inf_assoc x y z)⟩
  · intro a ha
    let x : v.Level := ⟨a, ha⟩
    exact ⟨congrArg Subtype.val (sup_idem x), congrArg Subtype.val (inf_idem x)⟩
  · intro a ha b hb
    let x : v.Level := ⟨a, ha⟩
    let y : v.Level := ⟨b, hb⟩
    exact ⟨congrArg Subtype.val (sup_inf_self (a := x) (b := y)),
      congrArg Subtype.val (inf_sup_self (a := x) (b := y))⟩

/-- The diamond of two incomparable labels between a bottom and a top. -/
def diamond : LabelLattice :=
  new [⟨"bottom"⟩, ⟨"a"⟩, ⟨"b"⟩, ⟨"top"⟩]
    [⟨⟨"bottom"⟩, ⟨"a"⟩⟩, ⟨⟨"bottom"⟩, ⟨"b"⟩⟩, ⟨⟨"a"⟩, ⟨"top"⟩⟩, ⟨⟨"b"⟩, ⟨"top"⟩⟩]

lemma diamond_validate : diamond.validate = .ok () := by decide +kernel

/-- The diamond passes `validate`, and the laws give its joins. -/
theorem validate_laws_diamond :
    diamond.validate = .ok () ∧
      ∀ a ∈ diamond.labels, ∀ b ∈ diamond.labels,
        diamond.IsJoin a b (diamond.join a b) ∧ diamond.IsMeet a b (diamond.meet a b) :=
  ⟨diamond_validate, (validate_laws diamond_validate).2.2.2.1⟩

end LabelLattice

end Bole
