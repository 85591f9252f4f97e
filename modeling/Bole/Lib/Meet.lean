import Bole.Lib.Search
import Mathlib

/-!
Two breadth-first searches run in turn until they meet, on a graph given by a fallible
successor function over an arbitrary ordered node type.

* `expandFrontier`: one layer of one search;
* `meet`: the loop, which looks for a common node after each layer and stops when neither
  search has found anything new;
* `meet_sound`: a common node is reached from both ends;
* `meet_congr`: two graphs that agree on what the searches come to have the same answer;
* `meet_first`, `meet_none`: the node they meet at, and that there is none;
* `meet_error`: searches that fail have come to a node whose successors cannot be read;
* `meet_ne_none`: one turn for each node that can still be met is enough.
-/

namespace Meet

open Search

variable {α ε : Type*} [Ord α] [Std.TransOrd α] [Std.LawfulEqOrd α]

/-- The successors of one node: one that is met for the first time is marked and queued. -/
def note : List α → List α → Std.ExtTreeSet α → List α × Std.ExtTreeSet α
  | [], frontier, visited => (frontier, visited)
  | y :: ys, frontier, visited =>
      if visited.contains y then note ys frontier visited
      else note ys (frontier ++ [y]) (visited.insert y)

/-- One layer: the old frontier is used up, the new one is what it marks. -/
def expandFrontier (succ : α → Except ε (List α)) :
    List α → List α → Std.ExtTreeSet α → Except ε (List α × Std.ExtTreeSet α)
  | [], next, visited => .ok (next, visited)
  | x :: rest, next, visited =>
      match succ x with
      | .error e => .error e
      | .ok ys => expandFrontier succ rest (note ys next visited).1 (note ys next visited).2

/-- The least node of the first set that is in the second. -/
def common (a b : Std.ExtTreeSet α) : Option α := a.toList.find? fun x => b.contains x

/-- The loop; the outer `none` means that the fuel ran out.  A layer has found something new
exactly when the frontier it leaves is not empty. -/
def meet (succ : α → Except ε (List α)) :
    ℕ → List α → Std.ExtTreeSet α → List α → Std.ExtTreeSet α → Except ε (Option (Option α))
  | 0, _, _, _, _ => .ok none
  | fuel + 1, frontierA, visitedA, frontierB, visitedB =>
      match expandFrontier succ frontierA [] visitedA with
      | .error e => .error e
      | .ok (frontierA, visitedA) =>
          match common visitedA visitedB with
          | some c => .ok (some (some c))
          | none =>
              match expandFrontier succ frontierB [] visitedB with
              | .error e => .error e
              | .ok (frontierB, visitedB) =>
                  match common visitedB visitedA with
                  | some c => .ok (some (some c))
                  | none =>
                      if frontierA.isEmpty && frontierB.isEmpty then .ok (some none)
                      else meet succ fuel frontierA visitedA frontierB visitedB

variable {succ : α → Except ε (List α)}

lemma mem_of_common {a b : Std.ExtTreeSet α} {c : α} (h : common a b = some c) :
    c ∈ a ∧ c ∈ b := by
  rw [common] at h
  have hb : b.contains c = true := by simpa using List.find?_some h
  exact ⟨Std.ExtTreeSet.mem_toList.mp (List.mem_of_find?_eq_some h),
    Std.ExtTreeSet.mem_iff_contains.mpr hb⟩

/-! ### What is marked is reached -/

/-- Every node of a search, queued or marked, satisfies `P`. -/
structure Within (P : α → Prop) (frontier : List α) (visited : Std.ExtTreeSet α) : Prop where
  queued : ∀ x ∈ frontier, P x
  marked : ∀ x ∈ visited, P x

variable {P Q : α → Prop}

lemma Within.note {ys frontier : List α} {visited : Std.ExtTreeSet α} (hys : ∀ y ∈ ys, P y)
    (h : Within P frontier visited) :
    Within P (Meet.note ys frontier visited).1 (Meet.note ys frontier visited).2 := by
  induction ys generalizing frontier visited with
  | nil => exact h
  | cons y ys ih =>
      have hy : P y := hys y (by simp)
      have hys' : ∀ z ∈ ys, P z := fun z hz => hys z (List.mem_cons_of_mem _ hz)
      rw [Meet.note]
      split_ifs
      · exact ih hys' h
      · refine ih hys' ⟨fun x hx => ?_, fun x hx => ?_⟩
        · rcases List.mem_append.mp hx with hx | hx
          · exact h.queued x hx
          · rwa [List.mem_singleton.mp hx]
        · rcases Std.ExtTreeSet.mem_insert.mp hx with hx | hx
          · rwa [← Std.LawfulEqOrd.eq_of_compare hx]
          · exact h.marked x hx

/-- A layer stays within a set that is closed under the edges. -/
lemma Within.expandFrontier (hP : ∀ x y, P x → Edge succ x y → P y) {current next next' : List α}
    {visited visited' : Std.ExtTreeSet α} (hcur : ∀ x ∈ current, P x)
    (h : Within P next visited)
    (he : Meet.expandFrontier succ current next visited = .ok (next', visited')) :
    Within P next' visited' := by
  induction current generalizing next visited with
  | nil =>
      cases he
      exact h
  | cons x rest ih =>
      rw [Meet.expandFrontier] at he
      cases hx : succ x with
      | error e => simp [hx] at he
      | ok ys =>
          simp only [hx] at he
          refine ih (fun z hz => hcur z (List.mem_cons_of_mem _ hz)) (h.note fun y hy => ?_) he
          exact hP x y (hcur x (by simp)) ⟨ys, hx, hy⟩

/-- A layer from the frontier of a search. -/
lemma Within.layer (hP : ∀ x y, P x → Edge succ x y → P y) {frontier frontier' : List α}
    {visited visited' : Std.ExtTreeSet α} (h : Within P frontier visited)
    (he : Meet.expandFrontier succ frontier [] visited = .ok (frontier', visited')) :
    Within P frontier' visited' :=
  Within.expandFrontier hP h.queued ⟨by simp, h.marked⟩ he

/-- **A node the searches meet at is reached from both ends**: it is in every set that is
closed under the edges and holds the first search, and so for the second. -/
theorem meet_sound (hP : ∀ x y, P x → Edge succ x y → P y) (hQ : ∀ x y, Q x → Edge succ x y → Q y)
    {fuel : ℕ} {frontierA frontierB : List α} {visitedA visitedB : Std.ExtTreeSet α} {c : α}
    (hA : Within P frontierA visitedA) (hB : Within Q frontierB visitedB)
    (h : meet succ fuel frontierA visitedA frontierB visitedB = .ok (some (some c))) :
    P c ∧ Q c := by
  induction fuel generalizing frontierA visitedA frontierB visitedB with
  | zero => simp [meet] at h
  | succ fuel ih =>
      rw [meet] at h
      split at h
      · cases h
      next fA vA heA =>
      have hA' := hA.layer hP heA
      split at h
      · next c' hc =>
          cases h
          exact ⟨hA'.marked c (mem_of_common hc).1, hB.marked c (mem_of_common hc).2⟩
      split at h
      · cases h
      next fB vB heB =>
      have hB' := hB.layer hQ heB
      split at h
      · next c' hc =>
          cases h
          exact ⟨hA'.marked c (mem_of_common hc).2, hB'.marked c (mem_of_common hc).1⟩
      split_ifs at h
      · cases h
      · exact ih hA' hB' h

/-! ### The part of the graph that counts -/

omit [Std.LawfulEqOrd α] in
/-- A layer looks at the successors of its nodes only. -/
lemma expandFrontier_congr {succ' : α → Except ε (List α)} {current next : List α}
    {visited : Std.ExtTreeSet α} (h : ∀ x ∈ current, succ x = succ' x) :
    expandFrontier succ current next visited = expandFrontier succ' current next visited := by
  induction current generalizing next visited with
  | nil => rfl
  | cons x rest ih =>
      rw [expandFrontier, expandFrontier, h x (by simp)]
      split
      · rfl
      · exact ih fun y hy => h y (List.mem_cons_of_mem _ hy)

/-- **Graphs that agree on what the searches come to have the same answer**, whatever fuel is
enough for each. -/
theorem meet_congr {succ' : α → Except ε (List α)} (hP : ∀ x y, P x → Edge succ x y → P y)
    (hQ : ∀ x y, Q x → Edge succ x y → Q y) (hsucc : ∀ x, P x ∨ Q x → succ x = succ' x)
    {fuel fuel' : ℕ} {frontierA frontierB : List α} {visitedA visitedB : Std.ExtTreeSet α}
    (hA : Within P frontierA visitedA) (hB : Within Q frontierB visitedB)
    (h : meet succ fuel frontierA visitedA frontierB visitedB ≠ .ok none)
    (h' : meet succ' fuel' frontierA visitedA frontierB visitedB ≠ .ok none) :
    meet succ fuel frontierA visitedA frontierB visitedB =
      meet succ' fuel' frontierA visitedA frontierB visitedB := by
  induction fuel generalizing fuel' frontierA visitedA frontierB visitedB with
  | zero => exact absurd rfl h
  | succ fuel ih =>
      cases fuel' with
      | zero => exact absurd rfl h'
      | succ fuel' =>
          rw [meet] at h ⊢
          rw [meet, ← expandFrontier_congr fun x hx => hsucc x (.inl (hA.queued x hx)),
            ← expandFrontier_congr fun x hx => hsucc x (.inr (hB.queued x hx))] at h' ⊢
          cases heA : expandFrontier succ frontierA [] visitedA with
          | error e => rfl
          | ok p =>
              obtain ⟨fA, vA⟩ := p
              simp only [heA] at h h' ⊢
              cases hcA : common vA visitedB with
              | some c => rfl
              | none =>
                  simp only [hcA] at h h' ⊢
                  cases heB : expandFrontier succ frontierB [] visitedB with
                  | error e => rfl
                  | ok p =>
                      obtain ⟨fB, vB⟩ := p
                      simp only [heB] at h h' ⊢
                      cases hcB : common vB vA with
                      | some c => rfl
                      | none =>
                          simp only [hcB] at h h' ⊢
                          split_ifs at h h' ⊢
                          · rfl
                          · exact ih (hA.layer hP heA) (hB.layer hQ heB) h h'

/-! ### How far the searches have come -/

/-- The nodes at most `k` edges away from `a`. -/
def near {α : Type*} (E : α → α → Prop) (a : α) : ℕ → Set α
  | 0 => {a}
  | k + 1 => {y | y ∈ near E a k ∨ ∃ x ∈ near E a k, E x y}

section Near

variable {E : α → α → Prop} {a b x y : α} {j k : ℕ}

omit [Ord α] [Std.TransOrd α] [Std.LawfulEqOrd α] in
lemma near_mono (h : j ≤ k) : near E a j ⊆ near E a k := by
  induction h with
  | refl => exact subset_rfl
  | step _ ih => exact fun x hx => .inl (ih hx)

omit [Ord α] [Std.TransOrd α] [Std.LawfulEqOrd α] in
/-- **Nearby is what is reached.** -/
lemma exists_mem_near : (∃ k, x ∈ near E a k) ↔ Relation.ReflTransGen E a x := by
  constructor
  · rintro ⟨k, hx⟩
    induction k generalizing x with
    | zero =>
        obtain rfl : x = a := hx
        exact .refl
    | succ k ih =>
        rcases hx with hx | ⟨z, hz, hzx⟩
        · exact ih hx
        · exact (ih hz).tail hzx
  · intro h
    induction h with
    | refl => exact ⟨0, rfl⟩
    | tail _ hzx ih =>
        obtain ⟨k, hz⟩ := ih
        exact ⟨k + 1, .inr ⟨_, hz, hzx⟩⟩

end Near

lemma mem_note {ys frontier : List α} {visited : Std.ExtTreeSet α} {x : α} :
    (x ∈ (note ys frontier visited).2 ↔ x ∈ visited ∨ x ∈ ys) ∧
      (x ∈ (note ys frontier visited).1 ↔ x ∈ frontier ∨ x ∈ ys ∧ x ∉ visited) := by
  induction ys generalizing frontier visited with
  | nil => simp [note]
  | cons y ys ih =>
      rw [note]
      split_ifs with hy
      · have hy' : y ∈ visited := Std.ExtTreeSet.mem_iff_contains.mpr hy
        obtain ⟨hmark, hqueue⟩ := ih
        rw [hmark, hqueue, List.mem_cons]
        by_cases hxy : x = y
        · subst hxy
          simp [hy']
        · simp [hxy]
      · have hy' : y ∉ visited := fun h => hy (Std.ExtTreeSet.mem_iff_contains.mp h)
        obtain ⟨hmark, hqueue⟩ := ih
        rw [hmark, hqueue, List.mem_cons, List.mem_append, List.mem_singleton,
          Std.ExtTreeSet.mem_insert, Std.LawfulEqOrd.compare_eq_iff_eq]
        by_cases hxy : x = y
        · subst hxy
          simp [hy']
        · simp [hxy, Ne.symm hxy]

/-- **What a layer marks and queues.** -/
lemma mem_expandFrontier {current next next' : List α} {visited visited' : Std.ExtTreeSet α}
    (h : expandFrontier succ current next visited = .ok (next', visited')) {x : α} :
    (x ∈ visited' ↔ x ∈ visited ∨ ∃ z ∈ current, Edge succ z x) ∧
      (x ∈ next' ↔ x ∈ next ∨ x ∈ visited' ∧ x ∉ visited) := by
  induction current generalizing next visited with
  | nil =>
      cases h
      simp
  | cons z rest ih =>
      rw [expandFrontier] at h
      cases hz : succ z with
      | error e => simp [hz] at h
      | ok ys =>
          simp only [hz] at h
          obtain ⟨hmark, hqueue⟩ := ih h
          obtain ⟨hmark', hqueue'⟩ := mem_note (x := x)
          have hedge : Edge succ z x ↔ x ∈ ys := by simp [Edge, hz]
          rw [hmark'] at hmark
          rw [hmark', hqueue'] at hqueue
          constructor
          · rw [hmark]
            simp only [List.mem_cons, exists_eq_or_imp, hedge, or_assoc]
          · rw [hqueue, hmark]
            by_cases hv : x ∈ visited <;> by_cases hy : x ∈ ys <;> simp [hv, hy]

/-- A search after `k` layers: it has marked what is at most `k` edges away, and only what it has
queued has successors that are yet to be marked. -/
structure Ball (succ : α → Except ε (List α)) (a : α) (k : ℕ) (frontier : List α)
    (visited : Std.ExtTreeSet α) : Prop where
  marked : ∀ x, x ∈ visited ↔ x ∈ near (Edge succ) a k
  queued : ∀ x ∈ frontier, x ∈ visited
  closed : ∀ x ∈ visited, x ∉ frontier → ∀ y, Edge succ x y → y ∈ visited

namespace Ball

variable {a : α} {k : ℕ} {frontier frontier' : List α} {visited visited' : Std.ExtTreeSet α}

/-- The search begins with its end of the graph. -/
lemma start (a : α) : Ball succ a 0 [a] ((∅ : Std.ExtTreeSet α).insert a) where
  marked x := by
    rw [Std.ExtTreeSet.mem_insert, Std.LawfulEqOrd.compare_eq_iff_eq]
    simp [near, eq_comm]
  queued x hx := by
    rw [Std.ExtTreeSet.mem_insert, Std.LawfulEqOrd.compare_eq_iff_eq]
    exact .inl (List.mem_singleton.mp hx).symm
  closed x hx hnot := by
    rw [Std.ExtTreeSet.mem_insert, Std.LawfulEqOrd.compare_eq_iff_eq] at hx
    simp [eq_comm] at hx hnot
    exact absurd hx hnot

/-- **One layer more.** -/
lemma layer (h : Ball succ a k frontier visited)
    (he : expandFrontier succ frontier [] visited = .ok (frontier', visited')) :
    Ball succ a (k + 1) frontier' visited' where
  marked x := by
    rw [(mem_expandFrontier he).1]
    constructor
    · rintro (hx | ⟨z, hz, hzx⟩)
      · exact .inl ((h.marked x).mp hx)
      · exact .inr ⟨z, (h.marked z).mp (h.queued z hz), hzx⟩
    · rintro (hx | ⟨z, hz, hzx⟩)
      · exact .inl ((h.marked x).mpr hx)
      · by_cases hq : z ∈ frontier
        · exact .inr ⟨z, hq, hzx⟩
        · exact .inl (h.closed z ((h.marked z).mpr hz) hq x hzx)
  queued x hx := by
    rw [(mem_expandFrontier he).2] at hx
    exact (hx.resolve_left List.not_mem_nil).1
  closed x hx hnot y hxy := by
    have hold : x ∈ visited := by
      by_contra hnew
      exact hnot ((mem_expandFrontier he).2.mpr (.inr ⟨hx, hnew⟩))
    rw [(mem_expandFrontier he).1]
    by_cases hq : x ∈ frontier
    · exact .inr ⟨x, hq, hxy⟩
    · exact .inl (h.closed x hold hq y hxy)

omit [Std.LawfulEqOrd α] in
/-- A search with nothing queued has marked all it can reach. -/
lemma complete (h : Ball succ a k [] visited) {j : ℕ} {x : α}
    (hx : x ∈ near (Edge succ) a j) : x ∈ visited := by
  induction j generalizing x with
  | zero => exact (h.marked x).mpr (near_mono (Nat.zero_le k) hx)
  | succ j ih =>
      rcases hx with hx | ⟨z, hz, hzx⟩
      · exact ih hx
      · exact h.closed z (ih hz) List.not_mem_nil x hzx

end Ball

/-! ### Where they meet -/

/-- A least node of a set. -/
def Least (S : Set α) (c : α) : Prop := c ∈ S ∧ ∀ x ∈ S, (compare c x).isLE = true

/-- **The node taken is the least common one.** -/
lemma common_least {u v : Std.ExtTreeSet α} {c : α} (h : common u v = some c) :
    Least {x | x ∈ u ∧ x ∈ v} c := by
  refine ⟨mem_of_common h, fun x hx => ?_⟩
  rw [common, List.find?_eq_some_iff_append] at h
  obtain ⟨-, before, after, hsplit, hbefore⟩ := h
  have hmem : x ∈ before ++ c :: after := by
    rw [← hsplit]
    exact Std.ExtTreeSet.mem_toList.mpr hx.1
  rcases List.mem_append.mp hmem with hin | hin
  · have := hbefore x hin
    rw [Std.ExtTreeSet.mem_iff_contains.mp hx.2] at this
    simp at this
  · rcases List.mem_cons.mp hin with rfl | hin
    · simp
    · have hsorted := Std.ExtTreeSet.ordered_toList (t := u)
      rw [hsplit, List.pairwise_append] at hsorted
      rw [(List.pairwise_cons.mp hsorted.2.1).1 x hin]
      rfl

lemma common_eq_none {u v : Std.ExtTreeSet α} (h : common u v = none) {x : α} (hu : x ∈ u) :
    x ∉ v := by
  intro hv
  have := List.find?_eq_none.mp h x (Std.ExtTreeSet.mem_toList.mpr hu)
  rw [Std.ExtTreeSet.mem_iff_contains.mp hv] at this
  simp at this

/-- Where searches from `a` and from `b` meet that take turns, the one from `a` first: at the
least common node of the first two layers that have one. -/
def FirstMet (E : α → α → Prop) (a b c : α) : Prop :=
  ∃ i, Disjoint (near E a i) (near E b i) ∧
    (Least (near E a (i + 1) ∩ near E b i) c ∨
      Disjoint (near E a (i + 1)) (near E b i) ∧
        Least (near E a (i + 1) ∩ near E b (i + 1)) c)

variable {a b : α} {k fuel : ℕ} {frontierA frontierB : List α}
  {visitedA visitedB : Std.ExtTreeSet α}

omit [Std.LawfulEqOrd α] in
lemma inter_of_marked {j : ℕ} (hA : Ball succ a j frontierA visitedA)
    (hB : Ball succ b k frontierB visitedB) :
    {x | x ∈ visitedA ∧ x ∈ visitedB} = near (Edge succ) a j ∩ near (Edge succ) b k := by
  ext x
  exact and_congr (hA.marked x) (hB.marked x)

lemma disjoint_of_common {j : ℕ} (hA : Ball succ a j frontierA visitedA)
    (hB : Ball succ b k frontierB visitedB) (h : common visitedA visitedB = none) :
    Disjoint (near (Edge succ) a j) (near (Edge succ) b k) := by
  rw [Set.disjoint_left]
  intro x hx hx'
  exact common_eq_none h ((hA.marked x).mpr hx) ((hB.marked x).mpr hx')

/-- **The searches meet at the first common node.** -/
theorem meet_first {c : α} (hA : Ball succ a k frontierA visitedA)
    (hB : Ball succ b k frontierB visitedB)
    (hno : Disjoint (near (Edge succ) a k) (near (Edge succ) b k))
    (h : meet succ fuel frontierA visitedA frontierB visitedB = .ok (some (some c))) :
    FirstMet (Edge succ) a b c := by
  induction fuel generalizing k frontierA visitedA frontierB visitedB with
  | zero => simp [meet] at h
  | succ fuel ih =>
      rw [meet] at h
      split at h
      · cases h
      next fA vA heA =>
      have hA' := hA.layer heA
      split at h
      · next c' hc =>
          cases h
          exact ⟨k, hno, .inl (inter_of_marked hA' hB ▸ common_least hc)⟩
      next hcA =>
      have hnoA := disjoint_of_common hA' hB hcA
      split at h
      · cases h
      next fB vB heB =>
      have hB' := hB.layer heB
      split at h
      · next c' hc =>
          cases h
          refine ⟨k, hno, .inr ⟨hnoA, ?_⟩⟩
          rw [Set.inter_comm, ← inter_of_marked hB' hA']
          exact common_least hc
      next hcB =>
      split_ifs at h
      · cases h
      · exact ih hA' hB' (disjoint_of_common hB' hA' hcB).symm h

/-- **Searches that do not meet** have nothing in common. -/
theorem meet_none (hA : Ball succ a k frontierA visitedA) (hB : Ball succ b k frontierB visitedB)
    (h : meet succ fuel frontierA visitedA frontierB visitedB = .ok (some none)) (i j : ℕ) :
    Disjoint (near (Edge succ) a i) (near (Edge succ) b j) := by
  induction fuel generalizing k frontierA visitedA frontierB visitedB with
  | zero => simp [meet] at h
  | succ fuel ih =>
      rw [meet] at h
      split at h
      · cases h
      next fA vA heA =>
      split at h
      · cases h
      split at h
      · cases h
      next fB vB heB =>
      split at h
      · cases h
      next hcB =>
      split_ifs at h with hempty
      · rw [Bool.and_eq_true, List.isEmpty_iff, List.isEmpty_iff] at hempty
        obtain ⟨rfl, rfl⟩ := hempty
        rw [Set.disjoint_left]
        intro x hx hx'
        exact common_eq_none hcB ((hB.layer heB).complete hx') ((hA.layer heA).complete hx)
      · exact ih (hA.layer heA) (hB.layer heB) h

omit [Std.LawfulEqOrd α] in
lemma expandFrontier_error {current next : List α} {visited : Std.ExtTreeSet α} {e : ε}
    (h : expandFrontier succ current next visited = .error e) :
    ∃ x ∈ current, succ x = .error e := by
  induction current generalizing next visited with
  | nil => cases h
  | cons x rest ih =>
      rw [expandFrontier] at h
      cases hx : succ x with
      | error e' =>
          simp only [hx, Except.error.injEq] at h
          exact ⟨x, by simp, h ▸ hx⟩
      | ok ys =>
          simp only [hx] at h
          obtain ⟨z, hz, he⟩ := ih h
          exact ⟨z, List.mem_cons_of_mem _ hz, he⟩

/-- **Searches that fail** have come to a node whose successors cannot be read. -/
theorem meet_error (hP : ∀ x y, P x → Edge succ x y → P y) (hQ : ∀ x y, Q x → Edge succ x y → Q y)
    {e : ε} (hA : Within P frontierA visitedA) (hB : Within Q frontierB visitedB)
    (h : meet succ fuel frontierA visitedA frontierB visitedB = .error e) :
    ∃ x, (P x ∨ Q x) ∧ succ x = .error e := by
  induction fuel generalizing frontierA visitedA frontierB visitedB with
  | zero => cases h
  | succ fuel ih =>
      rw [meet] at h
      split at h
      · next e' heA =>
          cases h
          obtain ⟨x, hx, he⟩ := expandFrontier_error heA
          exact ⟨x, .inl (hA.queued x hx), he⟩
      next fA vA heA =>
      split at h
      · cases h
      split at h
      · next e' heB =>
          cases h
          obtain ⟨x, hx, he⟩ := expandFrontier_error heB
          exact ⟨x, .inr (hB.queued x hx), he⟩
      next fB vB heB =>
      split at h
      · cases h
      split_ifs at h
      exact ih (hA.layer hP heA) (hB.layer hQ heB) h

/-! ### Which node is met first -/

/-- The nodes that are common after `t` layers, of the two searches in turn. -/
def metBy {α : Type*} (E : α → α → Prop) (a b : α) (t : ℕ) : Set α :=
  near E a ((t + 1) / 2) ∩ near E b (t / 2)

/-- `x` is met before `y`: by a layer after which `y` is not common yet, or by the first one after
which it is and with the smaller place in the order. -/
def MetBefore (E : α → α → Prop) (a b x y : α) : Prop :=
  ∃ t, x ∈ metBy E a b t ∧
    (y ∉ metBy E a b t ∨ compare x y = .lt ∧ ∀ u < t, y ∉ metBy E a b u)

/-- What is reached from both ends. -/
def Common {α : Type*} (E : α → α → Prop) (a b x : α) : Prop :=
  Relation.ReflTransGen E a x ∧ Relation.ReflTransGen E b x

/-- A common node that no other common node leads to. -/
def Lowest {α : Type*} (E : α → α → Prop) (a b c : α) : Prop :=
  Common E a b c ∧ ∀ d, Common E a b d → Relation.ReflTransGen E d c → d = c

/-- Every common node that another common node leads to is met after some node. -/
def LowestFirst (E : α → α → Prop) (a b : α) : Prop :=
  ∀ x y, Common E a b x → Common E a b y → Relation.ReflTransGen E y x → y ≠ x →
    ∃ z, MetBefore E a b z x

section Order

variable {E : α → α → Prop} {a b c x : α} {t u : ℕ}

omit [Ord α] [Std.TransOrd α] [Std.LawfulEqOrd α] in
lemma metBy_mono (h : u ≤ t) : metBy E a b u ⊆ metBy E a b t :=
  Set.inter_subset_inter (near_mono (by omega)) (near_mono (by omega))

omit [Ord α] [Std.TransOrd α] [Std.LawfulEqOrd α] in
/-- **What is common is met by some layer.** -/
lemma exists_mem_metBy : (∃ t, x ∈ metBy E a b t) ↔ Common E a b x := by
  rw [Common, ← exists_mem_near, ← exists_mem_near]
  constructor
  · rintro ⟨t, hA, hB⟩
    exact ⟨⟨_, hA⟩, ⟨_, hB⟩⟩
  · rintro ⟨⟨i, hA⟩, ⟨j, hB⟩⟩
    refine ⟨2 * max i j, near_mono ?_ hA, near_mono ?_ hB⟩
    · have := le_max_left i j
      omega
    · have := le_max_right i j
      omega

omit [Std.TransOrd α] [Std.LawfulEqOrd α] in
/-- The layer that meets a node is the first after which anything is common. -/
lemma FirstMet.layer (h : FirstMet E a b c) :
    ∃ t, metBy E a b t = ∅ ∧ Least (metBy E a b (t + 1)) c := by
  obtain ⟨i, hno, hleast | ⟨hno', hleast⟩⟩ := h
  · refine ⟨2 * i, ?_, ?_⟩
    · have hi : (2 * i + 1) / 2 = i := by omega
      rw [metBy, hi, Nat.mul_div_cancel_left _ two_pos]
      exact hno.inter_eq
    · have hi : (2 * i + 1 + 1) / 2 = i + 1 := by omega
      have hi' : (2 * i + 1) / 2 = i := by omega
      rwa [metBy, hi, hi']
  · refine ⟨2 * i + 1, ?_, ?_⟩
    · have hi : (2 * i + 1 + 1) / 2 = i + 1 := by omega
      have hi' : (2 * i + 1) / 2 = i := by omega
      rw [metBy, hi, hi']
      exact hno'.inter_eq
    · have hi : (2 * i + 1 + 1 + 1) / 2 = i + 1 := by omega
      have hi' : (2 * i + 1 + 1) / 2 = i + 1 := by omega
      rwa [metBy, hi, hi']

omit [Std.TransOrd α] in
/-- What is met first is met before every other common node. -/
lemma FirstMet.metBefore (h : FirstMet E a b c) (hne : x ≠ c) : MetBefore E a b c x := by
  obtain ⟨t, hnone, hc, hleast⟩ := h.layer
  refine ⟨t + 1, hc, ?_⟩
  by_cases hx : x ∈ metBy E a b (t + 1)
  · refine .inr ⟨?_, fun u hu hmem => ?_⟩
    · cases hcmp : compare c x with
      | lt => rfl
      | eq => exact absurd (Std.LawfulEqOrd.eq_of_compare hcmp).symm hne
      | gt =>
          have hle := hleast x hx
          rw [hcmp] at hle
          cases hle
    · have hmem' := metBy_mono (Nat.le_of_lt_succ hu) hmem
      rw [hnone] at hmem'
      exact hmem'
  · exact .inl hx

omit [Std.LawfulEqOrd α] in
/-- Nothing is met before what is met first. -/
lemma FirstMet.not_metBefore (h : FirstMet E a b c) : ¬ MetBefore E a b x c := by
  obtain ⟨t, hnone, hc, hleast⟩ := h.layer
  rintro ⟨u, hx, hlate⟩
  have htu : t + 1 ≤ u := by
    by_contra hlt
    have hmem := metBy_mono (t := t) (by omega) hx
    rw [hnone] at hmem
    exact hmem
  rcases hlate with hlate | ⟨hlt, hlate⟩
  · exact hlate (metBy_mono htu hc)
  · obtain rfl : u = t + 1 := by
      by_contra hne
      exact hlate (t + 1) (by omega) hc
    have hge := Std.OrientedCmp.gt_of_lt hlt
    have hle := hleast x hx
    rw [hge] at hle
    cases hle

/-- **What is met first is lowest** exactly where every node that is not lowest is met later. -/
theorem FirstMet.lowest_iff (h : FirstMet E a b c) : Lowest E a b c ↔ LowestFirst E a b := by
  have hcommon : Common E a b c := by
    obtain ⟨t, -, hc, -⟩ := h.layer
    exact exists_mem_metBy.mp ⟨_, hc⟩
  constructor
  · intro hlow x y _ hy hyx hne
    by_cases hxc : x = c
    · subst hxc
      exact absurd (hlow.2 y hy hyx) hne
    · exact ⟨c, h.metBefore hxc⟩
  · intro hfirst
    refine ⟨hcommon, fun d hd hdc => by_contra fun hne => ?_⟩
    obtain ⟨z, hz⟩ := hfirst c d hcommon hd hdc hne
    exact h.not_metBefore hz

end Order

/-! ### The loop ends -/

/-- The nodes of `U` a search has not marked. -/
def unmarked (U : Finset α) (visited : Std.ExtTreeSet α) : Finset α :=
  U.filter fun x => visited.contains x = false

variable [DecidableEq α] {U : Finset α}

lemma card_unmarked_insert {visited : Std.ExtTreeSet α} {y : α} (hy : y ∈ U)
    (hv : visited.contains y = false) :
    (unmarked U (visited.insert y)).card + 1 = (unmarked U visited).card := by
  have hmem : y ∈ unmarked U visited := Finset.mem_filter.mpr ⟨hy, hv⟩
  have heq : unmarked U (visited.insert y) = (unmarked U visited).erase y := by
    ext x
    simp only [unmarked, Finset.mem_filter, Finset.mem_erase, Std.ExtTreeSet.contains_insert,
      Bool.or_eq_false_iff, beq_eq_false_iff_ne, ne_eq, Std.LawfulEqOrd.compare_eq_iff_eq]
    tauto
  rw [heq, Finset.card_erase_of_mem hmem]
  have := Finset.card_pos.mpr ⟨y, hmem⟩
  omega

/-- What is queued is taken from what was unmarked. -/
lemma note_card {ys frontier : List α} {visited : Std.ExtTreeSet α} (hys : ∀ y ∈ ys, y ∈ U) :
    (unmarked U (note ys frontier visited).2).card + (note ys frontier visited).1.length =
      (unmarked U visited).card + frontier.length := by
  induction ys generalizing frontier visited with
  | nil => rfl
  | cons y ys ih =>
      have hys' : ∀ z ∈ ys, z ∈ U := fun z hz => hys z (List.mem_cons_of_mem _ hz)
      rw [note]
      split_ifs with hv
      · exact ih hys'
      · have hcard := card_unmarked_insert (U := U) (hys y (by simp)) (Bool.eq_false_iff.mpr hv)
        rw [ih hys', List.length_append, List.length_singleton]
        omega

lemma expandFrontier_card (hU : ∀ x y, Edge succ x y → y ∈ U) {current next next' : List α}
    {visited visited' : Std.ExtTreeSet α}
    (he : expandFrontier succ current next visited = .ok (next', visited')) :
    (unmarked U visited').card + next'.length = (unmarked U visited).card + next.length := by
  induction current generalizing next visited with
  | nil =>
      cases he
      rfl
  | cons x rest ih =>
      rw [expandFrontier] at he
      cases hx : succ x with
      | error e => simp [hx] at he
      | ok ys =>
          simp only [hx] at he
          rw [ih he, note_card fun y hy => hU x y ⟨ys, hx, hy⟩]

/-- **Enough fuel**: one turn for each node a search has yet to mark. -/
theorem meet_ne_none (hU : ∀ x y, Edge succ x y → y ∈ U) {fuel : ℕ} {frontierA frontierB : List α}
    {visitedA visitedB : Std.ExtTreeSet α}
    (hfuel : (unmarked U visitedA).card + (unmarked U visitedB).card < fuel) :
    meet succ fuel frontierA visitedA frontierB visitedB ≠ .ok none := by
  induction fuel generalizing frontierA visitedA frontierB visitedB with
  | zero => omega
  | succ fuel ih =>
      rw [meet]
      split
      · simp
      next fA vA heA =>
      split
      · simp
      split
      · simp
      next fB vB heB =>
      split
      · simp
      split_ifs with hempty
      · simp
      have hcA := expandFrontier_card hU heA
      have hcB := expandFrontier_card hU heB
      -- a search that went on has marked something
      have hlen : 0 < fA.length + fB.length := by
        rw [Nat.pos_iff_ne_zero]
        intro h
        simp_all [List.length_eq_zero_iff]
      simp only [List.length_nil] at hcA hcB
      exact ih (by omega)

end Meet
