import Mathlib.Data.Finset.Card
import Mathlib.Algebra.BigOperators.Group.Finset.Basic
import Mathlib.Algebra.Order.BigOperators.Group.Finset
import Mathlib.Logic.Relation
import Mathlib.Tactic

/-!
Worklist traversals of a graph given by a successor function, over arbitrary node types.

* `Reach`: the nodes reached from a list of roots along a successor function, without
  entering a skipped node;
* `traverse`: the loop `while let Some(x) = stack.pop()` that marks a node when it is popped,
  visits it once, pushes what the visit returns and may leave early;
* `traverse_reach`: a traversal that empties its stack has marked exactly the reached nodes,
  and its output is what the visits of these nodes emit;
* `traverse_nodup`: it puts nothing out twice, if no two nodes emit the same;
* `traverse_exit`: a traversal that leaves early does so at a reached node;
* `traverse_ne_none`: fuel that covers the stack and every edge is enough;
* `traverse_congr`: two visits that agree on the reached nodes give the same traversal;
* `traverse_mapError`: visits that leave with other results give a traversal that does so too.
-/

namespace Traverse

variable {α β ρ : Type*}

/-! ### Reached nodes -/

/-- `x` is reached from `roots` along `succ` through nodes that `skip` does not refuse. -/
inductive Reach (skip : α → Bool) (succ : α → List α) (roots : List α) : α → Prop where
  | root {x : α} : x ∈ roots → skip x = false → Reach skip succ roots x
  | step {x y : α} : Reach skip succ roots x → y ∈ succ x → skip y = false →
      Reach skip succ roots y

variable {skip : α → Bool} {succ succ' : α → List α} {roots : List α}

lemma Reach.not_skip {x : α} (h : Reach skip succ roots x) : skip x = false := by
  cases h with
  | root _ hs => exact hs
  | step _ _ hs => exact hs

/-- A set that holds the roots and is closed under `succ`, both up to skipped nodes, holds
every reached node. -/
lemma Reach.mem_of_closed {S : α → Prop}
    (hroot : ∀ x ∈ roots, skip x = false → S x)
    (hstep : ∀ x, S x → ∀ y ∈ succ x, skip y = false → S y) {x : α}
    (h : Reach skip succ roots x) : S x := by
  induction h with
  | root hx hs => exact hroot _ hx hs
  | step _ hy hs ih => exact hstep _ ih _ hy hs

/-- More successors on the reached nodes, fewer skipped ones and more roots reach more. -/
lemma Reach.mono {skip' : α → Bool} {roots' : List α}
    (hskip : ∀ x, skip x = false → skip' x = false)
    (hroots : ∀ x ∈ roots, x ∈ roots')
    (hsucc : ∀ x, Reach skip succ roots x → ∀ y ∈ succ x, y ∈ succ' x) {x : α}
    (h : Reach skip succ roots x) : Reach skip' succ' roots' x := by
  induction h with
  | root hx hs => exact .root (hroots _ hx) (hskip _ hs)
  | step hx hy hs ih => exact .step ih (hsucc _ hx _ hy) (hskip _ hs)

/-! ### The loop -/

/-- One traversal.  `visit x` returns the nodes to push and the outputs to append, or leaves
the loop with a result of type `ρ`.  `none` means that the fuel ran out. -/
def traverse [DecidableEq α] (skip : α → Bool) (visit : α → Except ρ (List α × List β)) :
    ℕ → List α → Finset α → List β → Except ρ (Option (Finset α × List β))
  | _, [], seen, out => .ok (some (seen, out))
  | 0, _ :: _, _, _ => .ok none
  | fuel + 1, x :: stack, seen, out =>
      if skip x || decide (x ∈ seen) then traverse skip visit fuel stack seen out
      else
        match visit x with
        | .error r => .error r
        | .ok (pushed, emitted) =>
            traverse skip visit fuel (pushed.reverse ++ stack) (insert x seen)
              (out ++ emitted)

/-- The nodes a visit pushes; a visit that leaves the loop pushes nothing. -/
def pushes (visit : α → Except ρ (List α × List β)) (x : α) : List α :=
  match visit x with
  | .error _ => []
  | .ok (pushed, _) => pushed

/-- The outputs a visit emits. -/
def emits (visit : α → Except ρ (List α × List β)) (x : α) : List β :=
  match visit x with
  | .error _ => []
  | .ok (_, emitted) => emitted

variable {visit : α → Except ρ (List α × List β)}

@[simp] lemma pushes_of_ok {x : α} {p : List α} {e : List β} (h : visit x = .ok (p, e)) :
    pushes visit x = p := by
  simp [pushes, h]

@[simp] lemma emits_of_ok {x : α} {p : List α} {e : List β} (h : visit x = .ok (p, e)) :
    emits visit x = e := by
  simp [emits, h]

/-- What holds between two turns of the loop: marked nodes are reached and were visited, the
stack holds only reached or skipped nodes, every successor of a marked node is marked,
skipped or still on the stack, and the output is what the marked nodes emitted. -/
structure Inv (skip : α → Bool) (visit : α → Except ρ (List α × List β)) (roots : List α)
    (stack : List α) (seen : Finset α) (out : List β) : Prop where
  seen_reach : ∀ x ∈ seen, Reach skip (pushes visit) roots x
  seen_visited : ∀ x ∈ seen, ∃ r, visit x = .ok r
  stack_reach : ∀ x ∈ stack, skip x = false → Reach skip (pushes visit) roots x
  roots_covered : ∀ x ∈ roots, skip x = false → x ∈ seen ∨ x ∈ stack
  succ_covered : ∀ x ∈ seen, ∀ y ∈ pushes visit x, skip y = false → y ∈ seen ∨ y ∈ stack
  out_iff : ∀ b, b ∈ out ↔ ∃ x ∈ seen, b ∈ emits visit x

lemma Inv.init (roots : List α) : Inv skip visit roots roots ∅ [] where
  seen_reach := by simp
  seen_visited := by simp
  stack_reach := fun _ hx hs => .root hx hs
  roots_covered := fun _ hx _ => Or.inr hx
  succ_covered := by simp
  out_iff := by simp

/-- A popped node that is skipped or already marked leaves the invariant. -/
lemma Inv.pop_skip {x : α} {stack : List α} {seen : Finset α} {out : List β}
    (h : Inv skip visit roots (x :: stack) seen out) (hx : skip x = true ∨ x ∈ seen) :
    Inv skip visit roots stack seen out where
  seen_reach := h.seen_reach
  seen_visited := h.seen_visited
  stack_reach := fun y hy => h.stack_reach y (List.mem_cons_of_mem _ hy)
  roots_covered := fun y hy hs => by
    rcases h.roots_covered y hy hs with hm | hm
    · exact Or.inl hm
    · rcases List.mem_cons.mp hm with rfl | hm
      · exact Or.inl (hx.resolve_left (by simp [hs]))
      · exact Or.inr hm
  succ_covered := fun z hz y hy hs => by
    rcases h.succ_covered z hz y hy hs with hm | hm
    · exact Or.inl hm
    · rcases List.mem_cons.mp hm with rfl | hm
      · exact Or.inl (hx.resolve_left (by simp [hs]))
      · exact Or.inr hm
  out_iff := h.out_iff

variable [DecidableEq α]

/-- A popped fresh node is marked and its successors are pushed. -/
lemma Inv.pop_visit {x : α} {stack : List α} {seen : Finset α} {out : List β}
    {pushed : List α} {emitted : List β}
    (h : Inv skip visit roots (x :: stack) seen out) (hs : skip x = false)
    (hv : visit x = .ok (pushed, emitted)) :
    Inv skip visit roots (pushed.reverse ++ stack) (insert x seen) (out ++ emitted) where
  seen_reach := fun y hy => by
    rcases Finset.mem_insert.mp hy with rfl | hy
    · exact h.stack_reach y (by simp) hs
    · exact h.seen_reach y hy
  seen_visited := fun y hy => by
    rcases Finset.mem_insert.mp hy with rfl | hy
    · exact ⟨_, hv⟩
    · exact h.seen_visited y hy
  stack_reach := fun y hy hys => by
    rcases List.mem_append.mp hy with hy | hy
    · have hxr := h.stack_reach x (by simp) hs
      exact .step hxr (by simpa [pushes_of_ok hv] using hy) hys
    · exact h.stack_reach y (by simp [hy]) hys
  roots_covered := fun y hy hys => by
    rcases h.roots_covered y hy hys with hm | hm
    · exact Or.inl (Finset.mem_insert_of_mem hm)
    · rcases List.mem_cons.mp hm with rfl | hm
      · exact Or.inl (Finset.mem_insert_self _ _)
      · exact Or.inr (by simp [hm])
  succ_covered := fun z hz y hy hys => by
    rcases Finset.mem_insert.mp hz with rfl | hz
    · rw [pushes_of_ok hv] at hy
      exact Or.inr (by simp [hy])
    · rcases h.succ_covered z hz y hy hys with hm | hm
      · exact Or.inl (Finset.mem_insert_of_mem hm)
      · rcases List.mem_cons.mp hm with rfl | hm
        · exact Or.inl (Finset.mem_insert_self _ _)
        · exact Or.inr (by simp [hm])
  out_iff := fun b => by
    simp only [List.mem_append, h.out_iff b, Finset.mem_insert, exists_eq_or_imp,
      emits_of_ok hv]
    exact or_comm

/-- The invariant at the end of a traversal that empties its stack. -/
lemma traverse_inv : ∀ (fuel : ℕ) (stack : List α) (seen : Finset α) (out : List β)
    {seen' : Finset α} {out' : List β},
    Inv skip visit roots stack seen out →
    traverse skip visit fuel stack seen out = .ok (some (seen', out')) →
    Inv skip visit roots [] seen' out'
  | fuel, [], seen, out, seen', out', h, he => by
      have h2 : seen = seen' ∧ out = out' := by cases fuel <;> simpa [traverse] using he
      rw [← h2.1, ← h2.2]
      exact h
  | 0, _ :: _, _, _, _, _, _, he => by simp [traverse] at he
  | fuel + 1, x :: stack, seen, out, seen', out', h, he => by
      rw [traverse] at he
      split_ifs at he with hc
      · have hx : skip x = true ∨ x ∈ seen := by simpa using hc
        exact traverse_inv fuel stack seen out (h.pop_skip hx) he
      · have hx : skip x = false ∧ x ∉ seen := by simpa using hc
        cases hv : visit x with
        | error r => simp [hv] at he
        | ok r =>
            obtain ⟨pushed, emitted⟩ := r
            rw [hv] at he
            exact traverse_inv fuel _ _ _ (h.pop_visit hx.1 hv) he

/-- **A finished traversal marks exactly the reached nodes**, has visited each of them, and
outputs what their visits emit. -/
theorem traverse_reach {fuel : ℕ} {seen : Finset α} {out : List β}
    (h : traverse skip visit fuel roots ∅ [] = .ok (some (seen, out))) :
    (∀ x, x ∈ seen ↔ Reach skip (pushes visit) roots x) ∧
      (∀ x ∈ seen, ∃ r, visit x = .ok r) ∧
      ∀ b, b ∈ out ↔ ∃ x ∈ seen, b ∈ emits visit x := by
  have hinv := traverse_inv fuel roots ∅ [] (Inv.init roots) h
  refine ⟨fun x => ⟨hinv.seen_reach x, fun hx => ?_⟩, hinv.seen_visited, hinv.out_iff⟩
  refine hx.mem_of_closed (S := (· ∈ seen)) (fun y hy hs => ?_) (fun z hz y hy hs => ?_)
  · simpa using hinv.roots_covered y hy hs
  · simpa using hinv.succ_covered z hz y hy hs

/-- What has been put out is put out once, and by a marked node. -/
lemma traverse_nodup_aux (hone : ∀ x, (emits visit x).Nodup)
    (hapart : ∀ x y b, b ∈ emits visit x → b ∈ emits visit y → x = y) :
    ∀ (fuel : ℕ) (stack : List α) (seen : Finset α) (out : List β) {seen' : Finset α}
      {out' : List β}, out.Nodup → (∀ b ∈ out, ∃ x ∈ seen, b ∈ emits visit x) →
      traverse skip visit fuel stack seen out = .ok (some (seen', out')) → out'.Nodup
  | fuel, [], _, _, _, _, hnodup, _, he => by
      cases fuel <;> simp [traverse] at he <;> exact he.2 ▸ hnodup
  | 0, _ :: _, _, _, _, _, _, _, he => by simp [traverse] at he
  | fuel + 1, x :: stack, seen, out, seen', out', hnodup, hfrom, he => by
      rw [traverse] at he
      split_ifs at he with hc
      · exact traverse_nodup_aux hone hapart fuel stack seen out hnodup hfrom he
      · have hx : skip x = false ∧ x ∉ seen := by simpa using hc
        cases hv : visit x with
        | error r => simp [hv] at he
        | ok r =>
            obtain ⟨pushed, emitted⟩ := r
            rw [hv] at he
            have hemits : emits visit x = emitted := emits_of_ok hv
            refine traverse_nodup_aux hone hapart fuel _ _ _ ?_ (fun b hb => ?_) he
            · refine List.nodup_append.mpr ⟨hnodup, hemits ▸ hone x, fun b hb b' hb' heq => ?_⟩
              subst heq
              obtain ⟨y, hy, hby⟩ := hfrom b hb
              exact hx.2 (hapart y x b hby (hemits ▸ hb') ▸ hy)
            · rcases List.mem_append.mp hb with hb | hb
              · obtain ⟨y, hy, hby⟩ := hfrom b hb
                exact ⟨y, Finset.mem_insert_of_mem hy, hby⟩
              · exact ⟨x, Finset.mem_insert_self x seen, hemits ▸ hb⟩

/-- **Nothing is put out twice**, if no two nodes emit the same. -/
theorem traverse_nodup (hone : ∀ x, (emits visit x).Nodup)
    (hapart : ∀ x y b, b ∈ emits visit x → b ∈ emits visit y → x = y) {fuel : ℕ}
    {seen : Finset α} {out : List β}
    (h : traverse skip visit fuel roots ∅ [] = .ok (some (seen, out))) : out.Nodup :=
  traverse_nodup_aux hone hapart fuel roots ∅ [] List.nodup_nil (by simp) h

/-- A traversal that leaves early does so at a node the invariant holds reached. -/
lemma traverse_exit_aux : ∀ (fuel : ℕ) (stack : List α) (seen : Finset α) (out : List β)
    {r : ρ}, Inv skip visit roots stack seen out →
    traverse skip visit fuel stack seen out = .error r →
    ∃ x, Reach skip (pushes visit) roots x ∧ visit x = .error r
  | fuel, [], _, _, _, _, he => by cases fuel <;> simp [traverse] at he
  | 0, _ :: _, _, _, _, _, he => by simp [traverse] at he
  | fuel + 1, x :: stack, seen, out, r, h, he => by
      rw [traverse] at he
      split_ifs at he with hc
      · have hx : skip x = true ∨ x ∈ seen := by simpa using hc
        exact traverse_exit_aux fuel stack seen out (h.pop_skip hx) he
      · have hx : skip x = false ∧ x ∉ seen := by simpa using hc
        cases hv : visit x with
        | error r' =>
            rw [hv] at he
            have hr : r' = r := by simpa using he
            exact ⟨x, h.stack_reach x (by simp) hx.1, by rw [hv, hr]⟩
        | ok p =>
            obtain ⟨pushed, emitted⟩ := p
            rw [hv] at he
            exact traverse_exit_aux fuel _ _ _ (h.pop_visit hx.1 hv) he

/-- **An early exit happens at a reached node.** -/
theorem traverse_exit {fuel : ℕ} {r : ρ}
    (h : traverse skip visit fuel roots ∅ [] = .error r) :
    ∃ x, Reach skip (pushes visit) roots x ∧ visit x = .error r :=
  traverse_exit_aux fuel roots ∅ [] (Inv.init roots) h

/-! ### Fuel -/

/-- The work left: the stack and the edges out of the nodes of `U` not yet marked. -/
def work (visit : α → Except ρ (List α × List β)) (U : Finset α) (stack : List α)
    (seen : Finset α) : ℕ :=
  stack.length + ∑ x ∈ U \ seen, (pushes visit x).length

lemma work_pop_visit {U : Finset α} {x : α} (stack : List α)
    (hU : ∀ x, x ∉ U → pushes visit x = []) {seen : Finset α} {pushed : List α} {emitted : List β}
    (hx : x ∉ seen) (hv : visit x = .ok (pushed, emitted)) :
    work visit U (pushed.reverse ++ stack) (insert x seen) + 1
      = work visit U (x :: stack) seen := by
  have hp : pushes visit x = pushed := pushes_of_ok hv
  simp only [work, List.length_append, List.length_reverse, List.length_cons]
  by_cases hxU : x ∈ U
  · have hsplit : U \ seen = insert x (U \ insert x seen) := by
      ext y
      simp only [Finset.mem_sdiff, Finset.mem_insert]
      constructor
      · intro hy
        by_cases hyx : y = x
        · exact Or.inl hyx
        · exact Or.inr ⟨hy.1, by simp [hyx, hy.2]⟩
      · rintro (rfl | hy)
        · exact ⟨hxU, hx⟩
        · exact ⟨hy.1, fun hm => hy.2 (Or.inr hm)⟩
    rw [hsplit, Finset.sum_insert (by simp), hp]
    omega
  · have hnil : pushed = [] := by rw [← hp]; exact hU x hxU
    have hsame : U \ insert x seen = U \ seen := by
      ext y
      simp only [Finset.mem_sdiff, Finset.mem_insert, not_or]
      exact ⟨fun h => ⟨h.1, h.2.2⟩, fun h => ⟨h.1, fun he => hxU (he ▸ h.1), h.2⟩⟩
    rw [hsame, hnil]
    simp
    omega

lemma traverse_ne_none_aux {U : Finset α} (hU : ∀ x, x ∉ U → pushes visit x = []) :
    ∀ (fuel : ℕ) (stack : List α) (seen : Finset α) (out : List β),
      work visit U stack seen ≤ fuel →
      traverse skip visit fuel stack seen out ≠ .ok none
  | fuel, [], _, _, _ => by cases fuel <;> simp [traverse]
  | 0, _ :: _, _, _, h => by simp [work] at h
  | fuel + 1, x :: stack, seen, out, h => by
      rw [traverse]
      split_ifs with hc
      · refine traverse_ne_none_aux hU fuel stack seen out ?_
        simp only [work, List.length_cons] at h ⊢
        omega
      · have hx : skip x = false ∧ x ∉ seen := by simpa using hc
        cases hv : visit x with
        | error r => simp
        | ok p =>
            obtain ⟨pushed, emitted⟩ := p
            have hw := work_pop_visit stack hU hx.2 hv
            exact traverse_ne_none_aux hU fuel _ _ _ (by omega)

/-- **Enough fuel**: one turn for each root and for each edge out of `U`, the nodes that
push anything. -/
theorem traverse_ne_none {U : Finset α} (hU : ∀ x, x ∉ U → pushes visit x = []) {fuel : ℕ}
    (hfuel : roots.length + ∑ x ∈ U, (pushes visit x).length ≤ fuel) :
    traverse skip visit fuel roots ∅ [] ≠ .ok none :=
  traverse_ne_none_aux hU fuel roots ∅ [] (by simpa [work] using hfuel)

/-! ### Two traversals -/

/-- More fuel than enough changes nothing. -/
lemma traverse_fuel_mono {fuel fuel' : ℕ} (hle : fuel ≤ fuel') :
    ∀ (stack : List α) (seen : Finset α) (out : List β),
      traverse skip visit fuel stack seen out ≠ .ok none →
      traverse skip visit fuel' stack seen out = traverse skip visit fuel stack seen out := by
  induction fuel generalizing fuel' with
  | zero =>
      intro stack seen out hne
      cases stack with
      | nil => cases fuel' <;> simp [traverse]
      | cons x stack => exact absurd rfl hne
  | succ n ih =>
      intro stack seen out hne
      obtain ⟨m, rfl⟩ : ∃ m, fuel' = m + 1 := ⟨fuel' - 1, by omega⟩
      cases stack with
      | nil => simp [traverse]
      | cons x stack =>
          rw [traverse] at hne ⊢
          rw [traverse]
          split_ifs at hne ⊢ with hc
          · exact ih (by omega) _ _ _ hne
          · cases hv : visit x with
            | error r => rfl
            | ok p =>
                simp only [hv] at hne ⊢
                exact ih (by omega) _ _ _ hne

/-- **Two visits that agree on the nodes reached by the first traverse alike.** -/
theorem traverse_congr {visit' : α → Except ρ (List α × List β)} {fuel fuel' : ℕ}
    (hagree : ∀ x, Reach skip (pushes visit) roots x → visit x = visit' x)
    (hne : traverse skip visit fuel roots ∅ [] ≠ .ok none)
    (hne' : traverse skip visit' fuel' roots ∅ [] ≠ .ok none) :
    traverse skip visit fuel roots ∅ [] = traverse skip visit' fuel' roots ∅ [] := by
  have key : ∀ (n : ℕ) (stack : List α) (seen : Finset α) (out : List β),
      Inv skip visit roots stack seen out →
      traverse skip visit n stack seen out = traverse skip visit' n stack seen out := by
    intro n
    induction n with
    | zero => intro stack seen out _; cases stack <;> simp [traverse]
    | succ n ih =>
        intro stack seen out hinv
        cases stack with
        | nil => simp [traverse]
        | cons x stack =>
            rw [traverse, traverse]
            split_ifs with hc
            · have hx : skip x = true ∨ x ∈ seen := by simpa using hc
              exact ih _ _ _ (hinv.pop_skip hx)
            · have hx : skip x = false ∧ x ∉ seen := by simpa using hc
              rw [← hagree x (hinv.stack_reach x (by simp) hx.1)]
              cases hv : visit x with
              | error r => rfl
              | ok p =>
                  obtain ⟨pushed, emitted⟩ := p
                  exact ih _ _ _ (hinv.pop_visit hx.1 hv)
  -- compare both at the larger of the two fuels
  have h1 := traverse_fuel_mono (le_max_left fuel fuel') roots ∅ [] hne
  have h2 := traverse_fuel_mono (le_max_right fuel fuel') roots ∅ [] hne'
  rw [← h1, ← h2]
  exact key _ _ _ _ (Inv.init roots)

/-- **Renaming the results** with which the visits leave renames that of the traversal. -/
theorem traverse_mapError {ρ' : Type*} (f : ρ → ρ') {visit' : α → Except ρ' (List α × List β)}
    (h : ∀ x, visit' x = (visit x).mapError f) (fuel : ℕ) (stack : List α) (seen : Finset α)
    (out : List β) :
    traverse skip visit' fuel stack seen out =
      (traverse skip visit fuel stack seen out).mapError f := by
  induction fuel generalizing stack seen out with
  | zero => cases stack <;> rfl
  | succ fuel ih =>
      cases stack with
      | nil => rfl
      | cons x stack =>
          rw [traverse, traverse]
          split_ifs
          · exact ih _ _ _
          · rw [h x]
            cases visit x with
            | error r => rfl
            | ok p => exact ih _ _ _

end Traverse
