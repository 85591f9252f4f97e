import Mathlib.Data.List.Basic
import Mathlib.Tactic

/-!
Reading a word off the front of a list, up to a letter that ends it, and words behind the last
such letter.

* `upTo_eq_some`: the word, the letter and the rest are the list;
* `upTo_append`: a word without the letter is read back;
* `notMem_of_mem_splitOn`, `mem_intercalate`: the words of a list hold no letter that ends one, and
  hold every other letter;
* `append_last`: what is before the last such letter, and the word behind it;
* `prefix_last_iff`: beginnings that end in such a letter.
-/

namespace Words

variable {α : Type*} [DecidableEq α]

/-- The word before the first `z`, and what is behind that `z`. -/
def upTo (z : α) : List α → Option (List α × List α)
  | [] => none
  | a :: l => if a = z then some ([], l) else (upTo z l).map fun p => (a :: p.1, p.2)

variable {z : α} {l word rest : List α}

lemma upTo_eq_some : upTo z l = some (word, rest) ↔ l = word ++ z :: rest ∧ z ∉ word := by
  induction l generalizing word with
  | nil => simp [upTo]
  | cons a l ih =>
      rw [upTo]
      split_ifs with ha
      · subst ha
        cases word with
        | nil => simp
        | cons b word => simp +contextual [eq_comm]
      · cases word with
        | nil => simp [ha]
        | cons b word =>
            simp only [Option.map_eq_some_iff, Prod.mk.injEq, List.cons.injEq, Prod.exists,
              List.cons_append, List.mem_cons, not_or]
            constructor
            · rintro ⟨w, r, hup, ⟨rfl, rfl⟩, rfl⟩
              obtain ⟨hl, hw⟩ := ih.mp hup
              exact ⟨⟨rfl, hl⟩, Ne.symm ha, hw⟩
            · rintro ⟨⟨rfl, hl⟩, -, hw⟩
              exact ⟨word, rest, ih.mpr ⟨hl, hw⟩, ⟨rfl, rfl⟩, rfl⟩

lemma upTo_append (h : z ∉ word) : upTo z (word ++ z :: rest) = some (word, rest) :=
  upTo_eq_some.mpr ⟨rfl, h⟩

lemma notMem_of_mem_splitOn (h : word ∈ l.splitOn z) : z ∉ word := by
  induction l generalizing word with
  | nil =>
      obtain rfl : word = [] := by simpa using h
      exact List.not_mem_nil
  | cons a l ih =>
      rw [List.splitOn_cons_eq_if_modifyHead] at h
      split_ifs at h with ha
      · rcases List.mem_cons.mp h with rfl | h
        · exact List.not_mem_nil
        · exact ih h
      · obtain ⟨first, rest, hsplit⟩ := List.exists_cons_of_ne_nil (List.splitOn_ne_nil z l)
        rw [hsplit, List.modifyHead_cons] at h
        rcases List.mem_cons.mp h with rfl | h
        · have hfirst : z ∉ first := ih (hsplit ▸ List.mem_cons_self)
          rw [List.mem_cons, not_or]
          exact ⟨fun hza => ha (beq_iff_eq.mpr hza.symm), hfirst⟩
        · exact ih (hsplit ▸ List.mem_cons_of_mem _ h)

omit [DecidableEq α] in
/-- A letter of joined words stands in one of them. -/
lemma mem_intercalate {a : α} (ha : a ≠ z) {words : List (List α)}
    (h : a ∈ [z].intercalate words) : ∃ w ∈ words, a ∈ w := by
  induction words with
  | nil => simp at h
  | cons x rest ih =>
      cases rest with
      | nil => exact ⟨x, List.mem_cons_self, by simpa using h⟩
      | cons y rest =>
          rw [List.intercalate_cons_cons, List.mem_append, List.mem_append,
            List.mem_singleton] at h
          rcases h with (h | h) | h
          · exact ⟨x, List.mem_cons_self, h⟩
          · exact absurd h ha
          · obtain ⟨w, hw, hmem⟩ := ih h
            exact ⟨w, List.mem_cons_of_mem _ hw, hmem⟩

omit [DecidableEq α] in
/-- A letter of a word stands among the joined words. -/
lemma mem_intercalate_of_mem {a : α} {words : List (List α)} (hword : word ∈ words)
    (ha : a ∈ word) : a ∈ [z].intercalate words := by
  induction words with
  | nil => cases hword
  | cons x rest ih =>
      cases rest with
      | nil =>
          obtain rfl : word = x := by simpa using hword
          simpa using ha
      | cons y rest =>
          rw [List.intercalate_cons_cons, List.mem_append, List.mem_append]
          rcases List.mem_cons.mp hword with rfl | hword
          · exact .inl (.inl ha)
          · exact .inr (ih hword)

omit [DecidableEq α] in
/-- What two lists have in common up to their last letters of this kind. -/
lemma append_last {a b s t : List α} (hs : z ∉ s) (ht : z ∉ t) (h : a ++ z :: s = b ++ z :: t) :
    a = b ∧ s = t := by
  rcases List.append_eq_append_iff.mp h with ⟨c, rfl, hc⟩ | ⟨c, rfl, hc⟩
  · cases c with
    | nil => exact ⟨by simp, (List.cons.inj hc).2⟩
    | cons d c =>
        obtain ⟨rfl, rfl⟩ := List.cons.inj hc
        simp at hs
  · cases c with
    | nil => exact ⟨by simp, (List.cons.inj hc).2.symm⟩
    | cons d c =>
        obtain ⟨rfl, rfl⟩ := List.cons.inj hc
        simp at ht

omit [DecidableEq α] in
/-- **A beginning that ends in the letter** ends at the last one or before. -/
lemma prefix_last_iff {a b s : List α} (hs : z ∉ s) :
    a ++ [z] <+: b ++ z :: s ↔ b = a ∨ a ++ [z] <+: b := by
  constructor
  · rintro ⟨t, ht⟩
    rw [List.append_assoc, List.singleton_append] at ht
    rcases List.append_eq_append_iff.mp ht with ⟨c, rfl, hc⟩ | ⟨c, rfl, hc⟩
    · cases c with
      | nil => exact .inl (by simp)
      | cons d c =>
          obtain ⟨rfl, -⟩ := List.cons.inj hc
          exact .inr ⟨c, by simp⟩
    · cases c with
      | nil => exact .inl (by simp)
      | cons d c =>
          obtain ⟨rfl, rfl⟩ := List.cons.inj hc
          simp at hs
  · rintro (rfl | h)
    · exact ⟨s, by simp⟩
    · exact h.trans (List.prefix_append ..)

end Words
