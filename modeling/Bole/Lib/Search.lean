import Mathlib.Data.Finset.Card
import Mathlib.Logic.Relation
import Mathlib.Tactic

/-!
Target search on a graph given by a fallible successor function, over arbitrary node types:
the loop that pops a node, returns as soon as one of its successors is the target, and pushes
each successor the first time it is met.

* `Edge`: the edges the search can follow;
* `search_true`: an answer `true` names a path of at least one edge to the target;
* `search_false`: an answer `false` excludes such a path;
* `search_ne_none`: fuel that covers the stack and every node ever pushed is enough;
* `search_fuel_mono`: a search that has ended ends with more fuel in the same way;
* `search_error`: a search that fails has come to a node without successors to read.
-/

namespace Search

variable {α ε : Type*}

/-- `b` is a successor of `a`. -/
def Edge (succ : α → Except ε (List α)) (a b : α) : Prop :=
  ∃ ys, succ a = .ok ys ∧ b ∈ ys

variable [DecidableEq α]

/-- The inner loop over the successors of one node: the target ends the search, a successor
met for the first time is pushed. -/
@[grind] def expand (target : α) : List α → List α → Finset α → Option (List α × Finset α)
  | [], stack, seen => some (stack, seen)
  | y :: ys, stack, seen =>
      if y = target then none
      else if y ∈ seen then expand target ys stack seen
      else expand target ys (y :: stack) (insert y seen)

/-- The outer loop; `none` means that the fuel ran out. -/
@[grind] def search (succ : α → Except ε (List α)) (target : α) :
    ℕ → List α → Finset α → Except ε (Option Bool)
  | _, [], _ => .ok (some false)
  | 0, _ :: _, _ => .ok none
  | fuel + 1, x :: stack, seen =>
      match succ x with
      | .error e => .error e
      | .ok ys =>
          match expand target ys stack seen with
          | none => .ok (some true)
          | some (stack', seen') => search succ target fuel stack' seen'

variable {succ : α → Except ε (List α)} {target : α}

lemma expand_eq_none {ys stack : List α} {seen : Finset α} :
    expand target ys stack seen = none ↔ target ∈ ys := by
  induction ys generalizing stack seen with
  | nil => simp [expand]
  | cons y ys ih =>
      rw [expand]
      by_cases hy : y = target
      · simp [hy]
      · rw [if_neg hy]
        split_ifs <;> simp [ih, Ne.symm hy]

/-- What the inner loop leaves: the old stack and the successors met for the first time. -/
lemma expand_some {ys stack stack' : List α} {seen seen' : Finset α}
    (h : expand target ys stack seen = some (stack', seen')) :
    (∀ x, x ∈ seen' ↔ x ∈ seen ∨ x ∈ ys) ∧
      (∀ x, x ∈ stack' ↔ x ∈ stack ∨ (x ∈ ys ∧ x ∉ seen)) ∧
      stack'.length + seen.card = stack.length + seen'.card := by
  induction ys generalizing stack seen with
  | nil =>
      simp only [expand, Option.some.injEq, Prod.mk.injEq] at h
      obtain ⟨rfl, rfl⟩ := h
      simp
  | cons y ys ih =>
      rw [expand] at h
      split_ifs at h with hy hs
      · obtain ⟨h1, h2, h3⟩ := ih h
        refine ⟨fun x => ?_, fun x => ?_, h3⟩
        · rw [h1, List.mem_cons]
          constructor
          · rintro (h | h) <;> simp [h]
          · rintro (h | rfl | h)
            · exact Or.inl h
            · exact Or.inl hs
            · exact Or.inr h
        · rw [h2, List.mem_cons]
          constructor
          · rintro (h | h)
            · exact Or.inl h
            · exact Or.inr ⟨Or.inr h.1, h.2⟩
          · rintro (h | ⟨rfl | h, hn⟩)
            · exact Or.inl h
            · exact absurd hs hn
            · exact Or.inr ⟨h, hn⟩
      · obtain ⟨h1, h2, h3⟩ := ih h
        refine ⟨fun x => ?_, fun x => ?_, ?_⟩
        · rw [h1, Finset.mem_insert, List.mem_cons]
          tauto
        · rw [h2, List.mem_cons, List.mem_cons, Finset.mem_insert]
          constructor
          · rintro ((rfl | h) | ⟨h, hn⟩)
            · exact Or.inr ⟨Or.inl rfl, hs⟩
            · exact Or.inl h
            · exact Or.inr ⟨Or.inr h, fun hm => hn (Or.inr hm)⟩
          · rintro (h | ⟨rfl | h, hn⟩)
            · exact Or.inl (Or.inr h)
            · exact Or.inl (Or.inl rfl)
            · by_cases hxy : x = y
              · exact Or.inl (Or.inl hxy)
              · exact Or.inr ⟨h, by simp [hxy, hn]⟩
        · rw [Finset.card_insert_of_notMem hs, List.length_cons] at h3
          omega

/-- **An answer `true` names a path**: from some node of the stack, by at least one edge. -/
theorem search_true {fuel : ℕ} {stack : List α} {seen : Finset α}
    (h : search succ target fuel stack seen = .ok (some true)) :
    ∃ x ∈ stack, Relation.TransGen (Edge succ) x target := by
  induction fuel generalizing stack seen with
  | zero => cases stack <;> simp [search] at h
  | succ n ih =>
      cases stack with
      | nil => simp [search] at h
      | cons x stack =>
          rw [search] at h
          cases hx : succ x with
          | error e => simp [hx] at h
          | ok ys =>
              simp only [hx] at h
              cases he : expand target ys stack seen with
              | none =>
                  exact ⟨x, by simp, .single ⟨ys, hx, expand_eq_none.mp he⟩⟩
              | some p =>
                  obtain ⟨stack', seen'⟩ := p
                  simp only [he] at h
                  obtain ⟨z, hz, hpath⟩ := ih h
                  rcases ((expand_some he).2.1 z).mp hz with hz | ⟨hz, _⟩
                  · exact ⟨z, by simp [hz], hpath⟩
                  · exact ⟨x, by simp, .head ⟨ys, hx, hz⟩ hpath⟩

/-- What holds between two turns: every marked node is on the stack or has all its
successors marked and none of them is the target. -/
def Closed (succ : α → Except ε (List α)) (target : α) (stack : List α) (seen : Finset α) :
    Prop :=
  ∀ x, x ∈ seen → x ∉ stack → ∀ y, Edge succ x y → y ≠ target ∧ y ∈ seen

/-- **An answer `false` excludes a path** from the initial stack. -/
theorem search_false {fuel : ℕ} {stack : List α} {seen : Finset α}
    (hclosed : Closed succ target stack seen)
    (h : search succ target fuel stack seen = .ok (some false)) :
    ∀ x, x ∈ stack ∨ x ∈ seen → ¬ Relation.TransGen (Edge succ) x target := by
  induction fuel generalizing stack seen with
  | zero =>
      cases stack with
      | nil => exact no_path_of_closed hclosed
      | cons x stack => simp [search] at h
  | succ n ih =>
      cases stack with
      | nil => exact no_path_of_closed hclosed
      | cons x stack =>
          rw [search] at h
          cases hx : succ x with
          | error e => simp [hx] at h
          | ok ys =>
              simp only [hx] at h
              cases he : expand target ys stack seen with
              | none => simp [he] at h
              | some p =>
                  obtain ⟨stack', seen'⟩ := p
                  simp only [he] at h
                  obtain ⟨hseen, hstack, -⟩ := expand_some he
                  have hnt : target ∉ ys := fun hm => by
                    rw [expand_eq_none.mpr hm] at he
                    cases he
                  -- the popped node has all its successors marked
                  have hstep : ∀ y, Edge succ x y → y ≠ target ∧ y ∈ seen' := by
                    rintro y ⟨zs, hzs, hy⟩
                    rw [hx] at hzs
                    cases hzs
                    exact ⟨fun he => hnt (he ▸ hy), (hseen y).mpr (Or.inr hy)⟩
                  have hclosed' : Closed succ target stack' seen' := by
                    intro z hz hzs y hy
                    by_cases hzx : z = x
                    · subst hzx
                      exact hstep y hy
                    · have hz' : z ∈ seen := by
                        rcases (hseen z).mp hz with hz' | hz'
                        · exact hz'
                        · by_contra hn
                          exact hzs ((hstack z).mpr (Or.inr ⟨hz', hn⟩))
                      have hzst : z ∉ x :: stack := fun hm => by
                        rcases List.mem_cons.mp hm with hm | hm
                        · exact hzx hm
                        · exact hzs ((hstack z).mpr (Or.inl hm))
                      obtain ⟨h1, h2⟩ := hclosed z hz' hzst y hy
                      exact ⟨h1, (hseen y).mpr (Or.inl h2)⟩
                  have hrec := ih hclosed' h
                  intro z hz
                  rcases hz with hz | hz
                  · rcases List.mem_cons.mp hz with rfl | hz
                    · intro hpath
                      obtain ⟨y, hy, hrest⟩ := Relation.TransGen.head'_iff.mp hpath
                      obtain ⟨hne, hmem⟩ := hstep y hy
                      rcases Relation.reflTransGen_iff_eq_or_transGen.mp hrest with heq | hr
                      · exact hne heq.symm
                      · exact hrec y (Or.inr hmem) hr
                    · exact hrec z (Or.inl ((hstack z).mpr (Or.inl hz)))
                  · exact hrec z (Or.inr ((hseen z).mpr (Or.inl hz)))
where
  /-- With an empty stack the marked nodes are closed and avoid the target. -/
  no_path_of_closed {seen : Finset α} (hclosed : Closed succ target [] seen) :
      ∀ x, x ∈ ([] : List α) ∨ x ∈ seen → ¬ Relation.TransGen (Edge succ) x target := by
    intro x hx hpath
    replace hx : x ∈ seen := by simpa using hx
    have hall : ∀ y, Relation.TransGen (Edge succ) x y → y ≠ target ∧ y ∈ seen := by
      intro y hy
      induction hy with
      | single h => exact hclosed x hx (by simp) _ h
      | tail _ h ih => exact hclosed _ ih.2 (by simp) _ h
    exact (hall target hpath).1 rfl

omit [DecidableEq α] in
/-- The initial state of a search: nothing is marked. -/
lemma closed_empty (stack : List α) : Closed succ target stack ∅ := by
  intro x hx
  simp at hx

/-- **Enough fuel**: one turn for each node of the stack and for each node of `U`, the
successors that can ever be pushed. -/
theorem search_ne_none {U : Finset α} (hU : ∀ x y, Edge succ x y → y ∈ U) {fuel : ℕ}
    {stack : List α} {seen : Finset α} (hseen : seen ⊆ U)
    (hfuel : stack.length + (U.card - seen.card) ≤ fuel) :
    search succ target fuel stack seen ≠ .ok none := by
  induction fuel generalizing stack seen with
  | zero =>
      cases stack with
      | nil => simp [search]
      | cons x stack => simp at hfuel
  | succ n ih =>
      cases stack with
      | nil => simp [search]
      | cons x stack =>
          rw [search]
          cases hx : succ x with
          | error e => simp
          | ok ys =>
              dsimp only
              cases he : expand target ys stack seen with
              | none => simp
              | some p =>
                  obtain ⟨stack', seen'⟩ := p
                  obtain ⟨hmem, -, hlen⟩ := expand_some he
                  have hsub : seen' ⊆ U := by
                    intro y hy
                    rcases (hmem y).mp hy with hy | hy
                    · exact hseen hy
                    · exact hU x y ⟨ys, hx, hy⟩
                  have hcard := Finset.card_le_card hsub
                  have hcard' := Finset.card_le_card hseen
                  dsimp only
                  refine ih hsub ?_
                  simp only [List.length_cons] at hfuel
                  omega

/-- **More fuel changes nothing** once the search has ended. -/
theorem search_fuel_mono {fuel fuel' : ℕ} (hle : fuel ≤ fuel') {stack : List α} {seen : Finset α}
    (hne : search succ target fuel stack seen ≠ .ok none) :
    search succ target fuel' stack seen = search succ target fuel stack seen := by
  induction fuel generalizing fuel' stack seen with
  | zero =>
      cases stack with
      | nil => cases fuel' <;> rfl
      | cons x stack => exact absurd rfl hne
  | succ n ih =>
      obtain ⟨m, rfl⟩ : ∃ m, fuel' = m + 1 := ⟨fuel' - 1, by omega⟩
      cases stack with
      | nil => rfl
      | cons x stack =>
          rw [search] at hne ⊢
          rw [search]
          cases hx : succ x with
          | error e => rfl
          | ok ys =>
              simp only [hx] at hne ⊢
              cases he : expand target ys stack seen with
              | none => rfl
              | some p =>
                  simp only [he] at hne ⊢
                  exact ih (by omega) hne

/-- **A search fails only where it comes to**: at a node reached from the stack. -/
theorem search_error {fuel : ℕ} {stack : List α} {seen : Finset α} {e : ε}
    (h : search succ target fuel stack seen = .error e) :
    ∃ x ∈ stack, ∃ y, Relation.ReflTransGen (Edge succ) x y ∧ succ y = .error e := by
  induction fuel generalizing stack seen with
  | zero => cases stack <;> simp [search] at h
  | succ n ih =>
      cases stack with
      | nil => simp [search] at h
      | cons x stack =>
          rw [search] at h
          cases hx : succ x with
          | error e' =>
              simp only [hx] at h
              cases h
              exact ⟨x, by simp, x, .refl, hx⟩
          | ok ys =>
              simp only [hx] at h
              cases he : expand target ys stack seen with
              | none => simp [he] at h
              | some p =>
                  obtain ⟨stack', seen'⟩ := p
                  simp only [he] at h
                  obtain ⟨z, hz, y, hpath, hy⟩ := ih h
                  rcases ((expand_some he).2.1 z).mp hz with hz | ⟨hz, _⟩
                  · exact ⟨z, by simp [hz], y, hpath, hy⟩
                  · exact ⟨x, by simp, y, .head ⟨ys, hx, hz⟩ hpath, hy⟩

end Search
