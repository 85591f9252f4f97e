import Mathlib.Algebra.BigOperators.Group.Finset.Basic
import Mathlib.Algebra.Order.BigOperators.Group.Finset
import Mathlib.Logic.Relation
import Mathlib.Tactic

/-!
Depth-first post-order with an explicit stack, over arbitrary node types: the loop that pops a
node, pushes it back to be finished with its successors above it, and appends it to the result
when it comes up again.

* `postOrder_closed`: on a finite set that the pushes do not leave, enough fuel ends the loop,
  in that set or with the error of one of its nodes;
* `postOrder_isPostOrder`: without cycles, the result holds the reached nodes, each once, and the
  successors of a node stand before it.

A push may leave out successors that were seen before (`Pushes`).
-/

namespace PostOrder

variable {α ε : Type*}

/-- The loop.  A node on the stack with `true` is to be finished; `push` is what a node that is
seen for the first time pushes, given the nodes seen.  `none` means that the fuel ran out. -/
def postOrder [DecidableEq α] (push : List α → α → Except ε (List α)) :
    ℕ → List (α × Bool) → List α → List α → Except ε (Option (List α))
  | _, [], _, out => .ok (some out)
  | 0, _ :: _, _, _ => .ok none
  | fuel + 1, (x, true) :: stack, seen, out => postOrder push fuel stack seen (out ++ [x])
  | fuel + 1, (x, false) :: stack, seen, out =>
      if x ∈ seen then postOrder push fuel stack seen out
      else
        match push (x :: seen) x with
        | .error e => .error e
        | .ok ys => postOrder push fuel (ys.map (·, false) ++ (x, true) :: stack) (x :: seen) out

/-! ### Fuel -/

/-- The turns that the entries of a stack take by themselves. -/
def weight (stack : List (α × Bool)) : ℕ := (stack.map fun e => if e.2 then 1 else 2).sum

lemma weight_fresh (xs : List α) : weight (xs.map (·, false)) = 2 * xs.length := by
  simp [weight, Function.comp_def, mul_comm]

section Fuel

variable [DecidableEq α]

/-- The turns that are left, when a node pushes at most `deg` many. -/
def work (deg : α → ℕ) (U : Finset α) (stack : List (α × Bool)) (seen : List α) : ℕ :=
  weight stack + ∑ x ∈ U.filter (· ∉ seen), 2 * deg x

/-- Visiting a node uses up a turn and what it may push. -/
lemma work_visit {deg : α → ℕ} {U : Finset α} {x : α} {ys : List α} {stack : List (α × Bool)}
    {seen : List α} (hx : x ∈ U) (hnew : x ∉ seen) (hys : ys.length ≤ deg x) :
    work deg U (ys.map (·, false) ++ (x, true) :: stack) (x :: seen) + 1 ≤
      work deg U ((x, false) :: stack) seen := by
  have hsplit : U.filter (· ∉ seen) = insert x (U.filter (· ∉ x :: seen)) := by
    ext y
    simp only [Finset.mem_filter, Finset.mem_insert, List.mem_cons, not_or]
    constructor
    · rintro ⟨hy, hseen⟩
      exact (eq_or_ne y x).imp_right fun hne => ⟨hy, hne, hseen⟩
    · rintro (rfl | ⟨hy, -, hseen⟩)
      · exact ⟨hx, hnew⟩
      · exact ⟨hy, hseen⟩
  have hsum : ∑ y ∈ U.filter (· ∉ seen), 2 * deg y =
      2 * deg x + ∑ y ∈ U.filter (· ∉ x :: seen), 2 * deg y := by
    rw [hsplit, Finset.sum_insert (by simp)]
  have hweight : weight (ys.map (·, false) ++ (x, true) :: stack) =
      2 * ys.length + (1 + weight stack) := by
    rw [← weight_fresh ys]
    simp [weight]
  have hold : weight ((x, false) :: stack) = 2 + weight stack := by simp [weight]
  rw [work, work, hsum, hweight, hold]
  omega

/-- **On a finite set that the pushes do not leave** the loop ends. -/
theorem postOrder_closed {push : List α → α → Except ε (List α)} {deg : α → ℕ} {U : Finset α}
    (hpush : ∀ seen x ys, x ∈ U → push seen x = .ok ys → ys.length ≤ deg x ∧ ∀ y ∈ ys, y ∈ U)
    {fuel : ℕ} {stack : List (α × Bool)} {seen out : List α} (hstack : ∀ e ∈ stack, e.1 ∈ U)
    (hout : ∀ x ∈ out, x ∈ U) (hfuel : work deg U stack seen ≤ fuel) :
    (∃ l, postOrder push fuel stack seen out = .ok (some l) ∧ ∀ x ∈ l, x ∈ U) ∨
      ∃ e, postOrder push fuel stack seen out = .error e ∧
        ∃ seen, ∃ x ∈ U, push seen x = .error e := by
  induction fuel generalizing stack seen out with
  | zero =>
      cases stack with
      | nil => exact Or.inl ⟨out, by simp [postOrder], hout⟩
      | cons e stack =>
          have hpos : 1 ≤ weight (e :: stack) := by
            simp only [weight, List.map_cons, List.sum_cons]
            split_ifs <;> omega
          rw [work] at hfuel
          omega
  | succ fuel ih =>
      cases stack with
      | nil => exact Or.inl ⟨out, by simp [postOrder], hout⟩
      | cons e stack =>
          obtain ⟨x, finishing⟩ := e
          have hx : x ∈ U := hstack _ List.mem_cons_self
          have hrest : ∀ e ∈ stack, e.1 ∈ U := fun e he => hstack e (List.mem_cons_of_mem _ he)
          have hpop : work deg U stack seen ≤ fuel := by
            have : weight stack + 1 ≤ weight ((x, finishing) :: stack) := by
              simp only [weight, List.map_cons, List.sum_cons]
              split_ifs <;> omega
            rw [work] at hfuel ⊢
            omega
          cases finishing with
          | true =>
              rw [postOrder]
              refine ih hrest (fun y hy => ?_) hpop
              rcases List.mem_append.mp hy with hy | hy
              · exact hout y hy
              · rwa [List.mem_singleton.mp hy]
          | false =>
              rw [postOrder]
              by_cases hseen : x ∈ seen
              · rw [if_pos hseen]
                exact ih hrest hout hpop
              · rw [if_neg hseen]
                cases hp : push (x :: seen) x with
                | error e => exact Or.inr ⟨e, rfl, _, x, hx, hp⟩
                | ok ys =>
                    obtain ⟨hlen, hys⟩ := hpush _ x ys hx hp
                    have hvisit : work deg U (ys.map (·, false) ++ (x, true) :: stack) (x :: seen) ≤
                        fuel := Nat.le_of_succ_le_succ ((work_visit hx hseen hlen).trans hfuel)
                    refine ih (fun e he => ?_) hout hvisit
                    rcases List.mem_append.mp he with he | he
                    · obtain ⟨y, hy, rfl⟩ := List.mem_map.mp he
                      exact hys y hy
                    · rcases List.mem_cons.mp he with rfl | he
                      · exact hx
                      · exact hrest e he

end Fuel

/-! ### Fixed successors -/

/-- The edge relation of a successor function. -/
def Edge (succ : α → List α) (x y : α) : Prop := y ∈ succ x

/-- A node that a path leads to from one of the roots. -/
def Reached (succ : α → List α) (roots : List α) (x : α) : Prop :=
  ∃ r ∈ roots, Relation.ReflTransGen (Edge succ) r x

/-- The nodes of a list are reached from the roots, each once, and the successors of a node stand
before it. -/
structure IsPostOrder (r : α → α → Prop) (roots l : List α) : Prop where
  nodup : l.Nodup
  mem_iff : ∀ x, x ∈ l ↔ ∃ root ∈ roots, Relation.ReflTransGen r root x
  sorted : ∀ before x after, l = before ++ x :: after → ∀ y, r x y → y ∈ before

/-- Only successors are pushed, and all that were not seen. -/
structure Pushes (succ : α → List α) (seen : List α) (x : α) (ys : List α) : Prop where
  edge : ∀ y ∈ ys, y ∈ succ x
  all : ∀ y ∈ succ x, y ∈ ys ∨ y ∈ seen

lemma Pushes.of_eq {succ : α → List α} {seen ys : List α} {x : α} (h : ys = succ x) :
    Pushes succ seen x ys :=
  ⟨fun _ hy => h ▸ hy, fun _ hy => Or.inl (h.symm ▸ hy)⟩

/-- What holds between two turns, on a graph without cycles. -/
structure Inv (succ : α → List α) (roots : List α) (stack : List (α × Bool)) (seen out : List α) :
    Prop where
  stack_reached : ∀ e ∈ stack, Reached succ roots e.1
  seen_reached : ∀ x ∈ seen, Reached succ roots x
  out_seen : ∀ x ∈ out, x ∈ seen
  open_seen : ∀ x, (x, true) ∈ stack → x ∈ seen ∧ x ∉ out
  covered : ∀ x ∈ seen, x ∈ out ∨ (x, true) ∈ stack
  roots_covered : ∀ x ∈ roots, x ∈ seen ∨ (x, false) ∈ stack
  -- what lies above a node that is to be finished was reached from it
  above : stack.Pairwise fun e f => f.2 = true → Relation.TransGen (Edge succ) f.1 e.1
  -- and its successors are finished or lie above it
  pending : ∀ above x below, stack = above ++ (x, true) :: below →
    ∀ y ∈ succ x, y ∈ out ∨ y ∈ above.map Prod.fst
  sorted : ∀ before x after, out = before ++ x :: after → ∀ y ∈ succ x, y ∈ before
  nodup : out.Nodup

variable {succ : α → List α} {roots : List α} {stack : List (α × Bool)} {seen out : List α} {x : α}

lemma Inv.init : Inv succ roots (roots.map (·, false)) [] [] where
  stack_reached e he := by
    obtain ⟨r, hr, rfl⟩ := List.mem_map.mp he
    exact ⟨r, hr, .refl⟩
  seen_reached := by simp
  out_seen := by simp
  open_seen := by simp
  covered := by simp
  roots_covered x hx := Or.inr (List.mem_map.mpr ⟨x, hx, rfl⟩)
  above := List.pairwise_map.mpr (List.pairwise_of_forall (by simp))
  pending above x below h := by
    have hmem : (x, true) ∈ roots.map (·, false) := by simp [h]
    simp at hmem
  sorted := by simp
  nodup := List.nodup_nil

/-- A node comes up again to be finished. -/
lemma Inv.finish (hacyclic : ∀ x, ¬ Relation.TransGen (Edge succ) x x)
    (h : Inv succ roots ((x, true) :: stack) seen out) :
    Inv succ roots stack seen (out ++ [x]) where
  stack_reached e he := h.stack_reached e (List.mem_cons_of_mem _ he)
  seen_reached := h.seen_reached
  out_seen y hy := by
    rcases List.mem_append.mp hy with hy | hy
    · exact h.out_seen y hy
    · rw [List.mem_singleton.mp hy]
      exact (h.open_seen x List.mem_cons_self).1
  open_seen y hy := by
    obtain ⟨hseen, hout⟩ := h.open_seen y (List.mem_cons_of_mem _ hy)
    have hne : y ≠ x := by
      rintro rfl
      exact hacyclic y ((List.pairwise_cons.mp h.above).1 _ hy rfl)
    exact ⟨hseen, by simp [hout, hne]⟩
  covered y hy := by
    rcases h.covered y hy with hout | hstack
    · exact Or.inl (List.mem_append_left _ hout)
    · rcases List.mem_cons.mp hstack with heq | hstack
      · exact Or.inl (by simp [(Prod.mk.inj heq).1])
      · exact Or.inr hstack
  roots_covered y hy := by
    refine (h.roots_covered y hy).imp_right fun hstack => ?_
    simpa using hstack
  above := (List.pairwise_cons.mp h.above).2
  pending above z below heq y hy := by
    have hold := h.pending ((x, true) :: above) z below (by rw [heq, List.cons_append]) y hy
    simp only [List.map_cons, List.mem_cons] at hold
    rcases hold with hout | rfl | habove
    · exact Or.inl (List.mem_append_left _ hout)
    · exact Or.inl (by simp)
    · exact Or.inr habove
  sorted before z after heq y hy := by
    rcases List.eq_nil_or_concat after with rfl | ⟨after', w, rfl⟩
    · obtain ⟨rfl, hz⟩ := List.append_inj' heq rfl
      obtain rfl : x = z := by simpa using hz
      simpa using h.pending [] x stack rfl y hy
    · have hsplit : out ++ [x] = (before ++ z :: after') ++ [w] := by simpa using heq
      obtain ⟨hout, -⟩ := List.append_inj' hsplit rfl
      exact h.sorted before z after' hout y hy
  nodup := by
    rw [List.nodup_append]
    refine ⟨h.nodup, by simp, fun y hy z hz => ?_⟩
    rw [List.mem_singleton.mp hz]
    rintro rfl
    exact (h.open_seen y List.mem_cons_self).2 hy

/-- A node that was seen comes up again; it is finished, as it would be its own descendant
otherwise. -/
lemma Inv.discard (hacyclic : ∀ x, ¬ Relation.TransGen (Edge succ) x x)
    (h : Inv succ roots ((x, false) :: stack) seen out) (hx : x ∈ seen) :
    Inv succ roots stack seen out where
  stack_reached e he := h.stack_reached e (List.mem_cons_of_mem _ he)
  seen_reached := h.seen_reached
  out_seen := h.out_seen
  open_seen y hy := h.open_seen y (List.mem_cons_of_mem _ hy)
  covered y hy := (h.covered y hy).imp_right fun hstack => by simpa using hstack
  roots_covered y hy := by
    rcases h.roots_covered y hy with hseen | hstack
    · exact Or.inl hseen
    · rcases List.mem_cons.mp hstack with heq | hstack
      · exact Or.inl ((Prod.mk.inj heq).1 ▸ hx)
      · exact Or.inr hstack
  above := (List.pairwise_cons.mp h.above).2
  pending above z below heq y hy := by
    have hout : x ∈ out := by
      refine (h.covered x hx).resolve_right fun hstack => ?_
      have hmem : (x, true) ∈ stack := by simpa using hstack
      exact hacyclic x ((List.pairwise_cons.mp h.above).1 _ hmem rfl)
    have hold := h.pending ((x, false) :: above) z below (by rw [heq, List.cons_append]) y hy
    simp only [List.map_cons, List.mem_cons] at hold
    rcases hold with hyout | rfl | habove
    · exact Or.inl hyout
    · exact Or.inl hout
    · exact Or.inr habove
  sorted := h.sorted
  nodup := h.nodup

/-- Where the first node that is to be finished stands after a visit. -/
lemma split_visit {ys : List α} {above below : List (α × Bool)} {z : α}
    (h : ys.map (·, false) ++ (x, true) :: stack = above ++ (z, true) :: below) :
    (above = ys.map (·, false) ∧ z = x) ∨
      ∃ above', above = ys.map (·, false) ++ (x, true) :: above' ∧
        stack = above' ++ (z, true) :: below := by
  rcases List.append_eq_append_iff.mp h with ⟨mid, habove, hrest⟩ | ⟨mid, hys, hrest⟩
  · cases mid with
    | nil =>
        simp only [List.append_nil, List.nil_append, List.cons.injEq, Prod.mk.injEq] at habove hrest
        exact Or.inl ⟨habove, hrest.1.1.symm⟩
    | cons e above' =>
        simp only [List.cons_append, List.cons.injEq] at hrest
        obtain ⟨rfl, hrest⟩ := hrest
        exact Or.inr ⟨above', habove, hrest⟩
  · cases mid with
    | nil =>
        simp only [List.append_nil, List.nil_append, List.cons.injEq, Prod.mk.injEq] at hys hrest
        exact Or.inl ⟨hys.symm, hrest.1.1⟩
    | cons e mid =>
        -- the node to be finished would be among those that were just pushed
        obtain ⟨rfl, -⟩ := List.cons.inj hrest
        have hmem : (z, true) ∈ ys.map (·, false) := by simp [hys]
        simp at hmem

/-- A node is seen for the first time.  A successor that is not pushed was seen, so it is finished:
it would lie below the node otherwise, on a cycle. -/
lemma Inv.visit (hacyclic : ∀ x, ¬ Relation.TransGen (Edge succ) x x)
    (h : Inv succ roots ((x, false) :: stack) seen out) (hx : x ∉ seen) {ys : List α}
    (hys : Pushes succ (x :: seen) x ys) :
    Inv succ roots (ys.map (·, false) ++ (x, true) :: stack) (x :: seen) out where
  stack_reached e he := by
    obtain ⟨r, hr, hpath⟩ := h.stack_reached _ List.mem_cons_self
    rcases List.mem_append.mp he with he | he
    · obtain ⟨y, hy, rfl⟩ := List.mem_map.mp he
      exact ⟨r, hr, hpath.tail (hys.edge y hy)⟩
    · rcases List.mem_cons.mp he with rfl | he
      · exact ⟨r, hr, hpath⟩
      · exact h.stack_reached e (List.mem_cons_of_mem _ he)
  seen_reached y hy := by
    rcases List.mem_cons.mp hy with rfl | hy
    · exact h.stack_reached _ List.mem_cons_self
    · exact h.seen_reached y hy
  out_seen y hy := List.mem_cons_of_mem _ (h.out_seen y hy)
  open_seen y hy := by
    have hcases : y = x ∨ (y, true) ∈ stack := by simpa using hy
    rcases hcases with rfl | hstack
    · exact ⟨List.mem_cons_self, fun hout => hx (h.out_seen _ hout)⟩
    · obtain ⟨hseen, hout⟩ := h.open_seen y (List.mem_cons_of_mem _ hstack)
      exact ⟨List.mem_cons_of_mem _ hseen, hout⟩
  covered y hy := by
    rcases List.mem_cons.mp hy with rfl | hy
    · exact Or.inr (by simp)
    · refine (h.covered y hy).imp_right fun hstack => ?_
      have : (y, true) ∈ stack := by simpa using hstack
      simp [this]
  roots_covered y hy := by
    rcases h.roots_covered y hy with hseen | hstack
    · exact Or.inl (List.mem_cons_of_mem _ hseen)
    · rcases List.mem_cons.mp hstack with heq | hstack
      · exact Or.inl (by simp [(Prod.mk.inj heq).1])
      · exact Or.inr (by simp [hstack])
  above := by
    obtain ⟨hfirst, hrest⟩ := List.pairwise_cons.mp h.above
    refine List.pairwise_append.mpr ⟨List.pairwise_map.mpr (List.pairwise_of_forall (by simp)),
      List.pairwise_cons.mpr ⟨hfirst, hrest⟩, ?_⟩
    rintro e he f hf hopen
    obtain ⟨y, hy, rfl⟩ := List.mem_map.mp he
    rcases List.mem_cons.mp hf with rfl | hf
    · exact .single (hys.edge y hy)
    · exact (hfirst f hf hopen).tail (hys.edge y hy)
  pending above z below heq y hy := by
    rcases split_visit heq with ⟨rfl, rfl⟩ | ⟨above', rfl, hstack⟩
    · rcases hys.all y hy with hpushed | hseen
      · exact Or.inr (by simp [Function.comp_def, hpushed])
      · refine Or.inl ?_
        rcases List.mem_cons.mp hseen with rfl | hseen
        · exact absurd (.single hy) (hacyclic y)
        · refine (h.covered y hseen).resolve_right fun hstack => ?_
          have hmem : (y, true) ∈ stack := by simpa using hstack
          exact hacyclic y (((List.pairwise_cons.mp h.above).1 _ hmem rfl).tail hy)
    · have hold := h.pending ((x, false) :: above') z below (by rw [hstack, List.cons_append]) y hy
      refine hold.imp_right fun habove => ?_
      simp only [List.map_cons, List.mem_cons] at habove
      simp only [List.map_append, List.map_cons, List.mem_append, List.mem_cons]
      exact Or.inr habove
  sorted := h.sorted
  nodup := h.nodup

variable [DecidableEq α] {push : List α → α → Except ε (List α)}

/-- What holds at the start holds at the end. -/
lemma postOrder_inv (hacyclic : ∀ x, ¬ Relation.TransGen (Edge succ) x x)
    (hsucc : ∀ seen x ys, push seen x = .ok ys → Pushes succ seen x ys) {fuel : ℕ} {l : List α}
    (h : Inv succ roots stack seen out) (hrun : postOrder push fuel stack seen out = .ok (some l)) :
    ∃ seen, Inv succ roots [] seen l := by
  induction fuel generalizing stack seen out with
  | zero =>
      cases stack with
      | nil =>
          simp only [postOrder, Except.ok.injEq, Option.some.injEq] at hrun
          exact ⟨seen, hrun ▸ h⟩
      | cons e stack => simp [postOrder] at hrun
  | succ fuel ih =>
      cases stack with
      | nil =>
          simp only [postOrder, Except.ok.injEq, Option.some.injEq] at hrun
          exact ⟨seen, hrun ▸ h⟩
      | cons e stack =>
          obtain ⟨x, finishing⟩ := e
          cases finishing with
          | true =>
              rw [postOrder] at hrun
              exact ih (h.finish hacyclic) hrun
          | false =>
              rw [postOrder] at hrun
              split_ifs at hrun with hseen
              · exact ih (h.discard hacyclic hseen) hrun
              · split at hrun
                · cases hrun
                · next ys hys => exact ih (h.visit hacyclic hseen (hsucc _ _ _ hys)) hrun

/-- **The result is a post-order** of what the roots reach. -/
theorem postOrder_isPostOrder (hacyclic : ∀ x, ¬ Relation.TransGen (Edge succ) x x)
    (hsucc : ∀ seen x ys, push seen x = .ok ys → Pushes succ seen x ys) {fuel : ℕ} {l : List α}
    (hrun : postOrder push fuel (roots.map (·, false)) [] [] = .ok (some l)) :
    IsPostOrder (Edge succ) roots l := by
  obtain ⟨seen, hinv⟩ := postOrder_inv hacyclic hsucc Inv.init hrun
  have hout : ∀ y ∈ seen, y ∈ l := fun y hy => (hinv.covered y hy).resolve_right (by simp)
  refine ⟨hinv.nodup, fun x => ⟨fun hx => hinv.seen_reached x (hinv.out_seen x hx), ?_⟩,
    hinv.sorted⟩
  rintro ⟨r, hr, hpath⟩
  induction hpath with
  | refl => exact hout r ((hinv.roots_covered r hr).resolve_right (by simp))
  | @tail y z _ hedge ih =>
      obtain ⟨before, after, hl⟩ := List.append_of_mem ih
      have hz := hinv.sorted before y after hl z hedge
      rw [hl]
      exact List.mem_append_left _ hz

/-- A loop that comes to its end has pushed from every node of its result. -/
lemma push_of_mem_postOrder {fuel : ℕ} {l : List α}
    (hopen : ∀ x, (x, true) ∈ stack → ∃ seen ys, push seen x = .ok ys)
    (hout : ∀ x ∈ out, ∃ seen ys, push seen x = .ok ys)
    (hrun : postOrder push fuel stack seen out = .ok (some l)) :
    ∀ x ∈ l, ∃ seen ys, push seen x = .ok ys := by
  induction fuel generalizing stack seen out with
  | zero =>
      cases stack with
      | nil =>
          simp only [postOrder, Except.ok.injEq, Option.some.injEq] at hrun
          exact hrun ▸ hout
      | cons e stack => simp [postOrder] at hrun
  | succ fuel ih =>
      cases stack with
      | nil =>
          simp only [postOrder, Except.ok.injEq, Option.some.injEq] at hrun
          exact hrun ▸ hout
      | cons e stack =>
          obtain ⟨x, finishing⟩ := e
          have hrest : ∀ y, (y, true) ∈ stack → ∃ seen ys, push seen y = .ok ys := fun y hy =>
            hopen y (List.mem_cons_of_mem _ hy)
          cases finishing with
          | true =>
              rw [postOrder] at hrun
              refine ih hrest (fun y hy => ?_) hrun
              rcases List.mem_append.mp hy with hy | hy
              · exact hout y hy
              · rw [List.mem_singleton.mp hy]
                exact hopen x List.mem_cons_self
          | false =>
              rw [postOrder] at hrun
              split_ifs at hrun with hseen
              · exact ih hrest hout hrun
              · split at hrun
                · cases hrun
                · next ys hys =>
                    refine ih (fun y hy => ?_) hout hrun
                    have hcases : y = x ∨ (y, true) ∈ stack := by simpa using hy
                    rcases hcases with rfl | hy
                    · exact ⟨_, ys, hys⟩
                    · exact hrest y hy

end PostOrder
