import Mathlib.Data.List.Basic
import Mathlib.Tactic

/-!
Encodings that say themselves where they end.

Such a code can be read off the front of whatever follows it, so that codes can be put one behind
the other without anything in between.

* `On.counted`: elements behind their number;
* `terminated`: a word up to a letter that is not in it.
-/

namespace Delimited

variable {α β γ : Type*}

/-- The values in `P` can be read off the front. -/
def On (P : α → Prop) (f : α → List β) : Prop :=
  ∀ ⦃a b : α⦄, P a → P b → ∀ ⦃x y : List β⦄, f a ++ x = f b ++ y → a = b ∧ x = y

variable {P : α → Prop} {f : α → List β}

lemma On.inj (h : On P f) {a b : α} (ha : P a) (hb : P b) (heq : f a = f b) : a = b :=
  (h ha hb (x := []) (y := []) (by rw [heq])).1

/-- Codes of one length. -/
lemma On.of_length {n : ℕ} (hlen : ∀ a, P a → (f a).length = n)
    (hinj : ∀ a b, P a → P b → f a = f b → a = b) : On P f := by
  intro a b ha hb x y heq
  obtain ⟨hcode, hrest⟩ := List.append_inj heq ((hlen a ha).trans (hlen b hb).symm)
  exact ⟨hinj a b ha hb hcode, hrest⟩

/-- Codes of what the values stand for. -/
lemma On.comp (h : On P f) {g : γ → α} (hg : Function.Injective g) :
    On (fun c => P (g c)) (fun c => f (g c)) := by
  intro a b ha hb x y heq
  obtain ⟨hab, hxy⟩ := h ha hb heq
  exact ⟨hg hab, hxy⟩

/-- Equally many elements. -/
lemma On.flatMap_cancel (h : On P f) {l m : List α} (hl : ∀ a ∈ l, P a) (hm : ∀ a ∈ m, P a)
    (hlen : l.length = m.length) {x y : List β} (heq : l.flatMap f ++ x = m.flatMap f ++ y) :
    l = m ∧ x = y := by
  induction l generalizing m with
  | nil =>
      obtain rfl : m = [] := List.length_eq_zero_iff.mp hlen.symm
      exact ⟨rfl, heq⟩
  | cons a l ih =>
      obtain ⟨b, m, rfl⟩ : ∃ b m', m = b :: m' := by
        cases m with
        | nil => cases hlen
        | cons b m' => exact ⟨b, m', rfl⟩
      rw [List.flatMap_cons, List.flatMap_cons, List.append_assoc, List.append_assoc] at heq
      obtain ⟨rfl, hrest⟩ := h (hl a List.mem_cons_self) (hm b List.mem_cons_self) heq
      obtain ⟨rfl, hxy⟩ := ih (fun c hc => hl c (List.mem_cons_of_mem _ hc))
        (fun c hc => hm c (List.mem_cons_of_mem _ hc)) (Nat.succ.inj hlen) hrest
      exact ⟨rfl, hxy⟩

/-- **Elements behind their number.** -/
lemma On.counted {Q : ℕ → Prop} {count : ℕ → List β} (hcount : On Q count) (h : On P f) :
    On (fun l : List α => Q l.length ∧ ∀ a ∈ l, P a)
      (fun l => count l.length ++ l.flatMap f) := by
  intro l m hl hm x y heq
  simp only [List.append_assoc] at heq
  obtain ⟨hlen, hrest⟩ := hcount hl.1 hm.1 heq
  exact h.flatMap_cancel hl.2 hm.2 hlen hrest

/-- Letters behind their number. -/
lemma counted_self {Q : ℕ → Prop} {count : ℕ → List β} (hcount : On Q count) :
    On (fun l : List β => Q l.length) (fun l => count l.length ++ l) := by
  intro l m hl hm x y heq
  simp only [List.append_assoc] at heq
  obtain ⟨hlen, hrest⟩ := hcount hl hm heq
  exact List.append_inj hrest hlen

/-- **A word up to a letter that is not in it.** -/
lemma terminated {z : β} {l m x y : List β} (hl : z ∉ l) (hm : z ∉ m)
    (heq : l ++ z :: x = m ++ z :: y) : l = m ∧ x = y := by
  induction l generalizing m with
  | nil =>
      cases m with
      | nil => exact ⟨rfl, (List.cons.inj heq).2⟩
      | cons b m => exact absurd (List.cons.inj heq).1 fun h => hm (by simp [h])
  | cons a l ih =>
      cases m with
      | nil => exact absurd (List.cons.inj heq).1 fun h => hl (by simp [h])
      | cons b m =>
          obtain ⟨rfl, hrest⟩ := List.cons.inj heq
          obtain ⟨rfl, hxy⟩ := ih (fun h => hl (List.mem_cons_of_mem _ h))
            (fun h => hm (List.mem_cons_of_mem _ h)) hrest
          exact ⟨rfl, hxy⟩

end Delimited
