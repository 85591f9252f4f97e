import Mathlib

/-!
Breadth-first search, over an arbitrary graph of ordered successors and arbitrary labels.

A label says by which way a node was reached.  Labels are compared: a longer way has the greater
label, and of two ways of one length the one that leaves earlier has the smaller.  The search then
meets every node by the least way to it.

* `Labels`: what is asked of labels; `Labels.depth` counts the steps, `Labels.path` keeps them;
* `Front`: what holds of queue and labels between two nodes; `Front.init`, `Front.skip` and
  `Front.expand` are the steps of the search, and `potential` what they use up;
* `Front.least`: a node that is labelled has the least label of any walk to it;
* `Front.complete`: when the queue is empty, every walk within the bound leads to a labelled node;
* `Front.depth_iff`: a search that counts the steps finds the distances within the bound.
-/

namespace Breadth

universe u v

/-! ### Labels -/

/-- Labels of walks, and two ways to compare them: `le` for labels of one node, `lt` for the order
of the queue. -/
structure Labels (α : Type u) (ω : Type v) where
  base : ω
  ext : ω → α → ω
  size : ω → ℕ
  le : ω → ω → Prop
  lt : ω → ω → Prop
  size_base : size base = 0
  size_ext : ∀ w x, size (ext w x) = size w + 1
  size_mono : ∀ {w w'}, le w w' → size w ≤ size w'
  le_refl : ∀ w, le w w
  le_trans : ∀ {w w' w''}, le w w' → le w' w'' → le w w''
  base_le : ∀ w, le base w
  le_ext : ∀ w x, le w (ext w x)
  ext_mono : ∀ {w w'} x, le w w' → le (ext w x) (ext w' x)
  le_of_lt : ∀ {w w'}, lt w w' → le w w'
  lt_of_le_of_lt : ∀ {w w' w''}, le w w' → lt w' w'' → lt w w''
  lt_ext : ∀ w x, lt w (ext w x)
  ext_lt : ∀ {w w'} x y, lt w w' → lt (ext w x) (ext w' y)

variable {α : Type u} {ω : Type v}

/-- The label of a walk. -/
def Labels.label (l : Labels α ω) (p : List α) : ω := p.foldl l.ext l.base

@[simp] lemma Labels.label_nil (l : Labels α ω) : l.label [] = l.base := rfl

@[simp] lemma Labels.label_snoc (l : Labels α ω) (p : List α) (x : α) :
    l.label (p ++ [x]) = l.ext (l.label p) x := by
  simp [label]

lemma Labels.size_label (l : Labels α ω) (p : List α) : l.size (l.label p) = p.length := by
  induction p using List.reverseRecOn with
  | nil => exact l.size_base
  | append_singleton p x ih => rw [l.label_snoc, l.size_ext, ih, List.length_append,
      List.length_singleton]

lemma Labels.label_mono (l : Labels α ω) {p q : List α} (h : p <+: q) :
    l.le (l.label p) (l.label q) := by
  obtain ⟨t, rfl⟩ := h
  induction t using List.reverseRecOn with
  | nil =>
      rw [List.append_nil]
      exact l.le_refl _
  | append_singleton t x ih =>
      rw [← List.append_assoc, l.label_snoc]
      exact l.le_trans ih (l.le_ext _ _)

/-- The number of steps. -/
def Labels.depth (α : Type u) : Labels α ℕ where
  base := 0
  ext n _ := n + 1
  size n := n
  le m n := m ≤ n
  lt m n := m ≤ n
  size_base := rfl
  size_ext _ _ := rfl
  size_mono h := h
  le_refl _ := Nat.le_refl _
  le_trans := Nat.le_trans
  base_le _ := Nat.zero_le _
  le_ext _ _ := Nat.le_succ _
  ext_mono _ h := Nat.succ_le_succ h
  le_of_lt h := h
  lt_of_le_of_lt := Nat.le_trans
  lt_ext _ _ := Nat.le_succ _
  ext_lt _ _ h := Nat.succ_le_succ h

section Path

variable {r : α → α → Prop}

lemma shortlex_trans [IsTrans α r] {p q s : List α} (h : List.Shortlex r p q)
    (h' : List.Shortlex r q s) : List.Shortlex r p s := by
  rw [List.shortlex_def] at h h' ⊢
  rcases h with h | ⟨heq, hlex⟩ <;> rcases h' with h' | ⟨heq', hlex'⟩
  · exact .inl (by omega)
  · exact .inl (by omega)
  · exact .inl (by omega)
  · exact .inr ⟨by omega, List.lex_trans (IsTrans.trans _ _ _) hlex hlex'⟩

/-- Two paths of one length may go on as they like: the first is still the first. -/
lemma lex_append : ∀ {p q : List α} (s t : List α), p.length = q.length → List.Lex r p q →
    List.Lex r (p ++ s) (q ++ t)
  | _, _, s, t, hlen, .cons h => .cons (lex_append s t (by simpa using hlen) h)
  | _, _, _, _, _, .rel h => .rel h

lemma shortlex_snoc {p q : List α} (x y : α) (h : List.Shortlex r p q) :
    List.Shortlex r (p ++ [x]) (q ++ [y]) := by
  rw [List.shortlex_def] at h ⊢
  rcases h with h | ⟨heq, hlex⟩
  · exact .inl (by simpa using h)
  · exact .inr ⟨by simpa using heq, lex_append _ _ heq hlex⟩

/-- The path itself, and of two the shorter, or else the one that leaves to the smaller node. -/
def Labels.path (r : α → α → Prop) [IsTrans α r] : Labels α (List α) where
  base := []
  ext p x := p ++ [x]
  size p := p.length
  le p q := p = q ∨ List.Shortlex r p q
  lt p q := List.Shortlex r p q
  size_base := rfl
  size_ext _ _ := List.length_append
  size_mono h := by
    rcases h with rfl | h
    · exact Nat.le_refl _
    · rcases List.shortlex_def.mp h with h | h
      · exact h.le
      · exact h.1.le
  le_refl _ := .inl rfl
  le_trans h h' := by
    rcases h with rfl | h
    · exact h'
    · rcases h' with rfl | h'
      · exact .inr h
      · exact .inr (shortlex_trans h h')
  base_le p := (List.shortlex_nil_or_eq_nil p).symm.imp_left Eq.symm
  le_ext p x := .inr (.of_length_lt (by simp))
  ext_mono x h := by
    rcases h with rfl | h
    · exact .inl rfl
    · exact .inr (shortlex_snoc x x h)
  le_of_lt h := .inr h
  lt_of_le_of_lt h h' := by
    rcases h with rfl | h
    · exact h'
    · exact shortlex_trans h h'
  lt_ext p x := .of_length_lt (by simp)
  ext_lt x y h := shortlex_snoc x y h

/-- The label of a path is the path. -/
@[simp] lemma Labels.path_label [IsTrans α r] (p : List α) : (Labels.path r).label p = p := by
  induction p using List.reverseRecOn with
  | nil => rfl
  | append_singleton p x ih =>
      rw [Labels.label_snoc, ih]
      rfl

/-- Of two paths that are both least, there is one. -/
lemma Labels.path_antisymm [IsTrans α r] [Std.Asymm r] {p q : List α}
    (h : (Labels.path r).le p q) (h' : (Labels.path r).le q p) : p = q := by
  rcases h with h | h
  · exact h
  · rcases h' with h' | h'
    · exact h'.symm
    · exact absurd h' (Std.Asymm.asymm _ _ h)

end Path

/-! ### Walks -/

/-- A walk from a root, by the nodes behind the root. -/
inductive Walk (succ : α → List α) (root : α) : List α → α → Prop where
  | nil : Walk succ root [] root
  | snoc {p : List α} {x y : α} : Walk succ root p x → y ∈ succ x → Walk succ root (p ++ [y]) y

variable {succ : α → List α} {root : α}

/-- A walk of no length stays at the root. -/
lemma Walk.eq_root {v : α} (h : Walk succ root [] v) : v = root := by
  generalize hp : ([] : List α) = p at h
  cases h with
  | nil => rfl
  | snoc _ _ => simp at hp

/-- The last step of a walk. -/
lemma Walk.snoc_inv {p : List α} {x v : α} (h : Walk succ root (p ++ [x]) v) :
    v = x ∧ ∃ y, Walk succ root p y ∧ x ∈ succ y := by
  generalize hq : p ++ [x] = q at h
  cases h with
  | nil => simp at hq
  | snoc hw hz =>
      obtain ⟨rfl, hxz⟩ := List.append_inj' hq rfl
      obtain rfl := List.singleton_inj.mp hxz
      exact ⟨rfl, _, hw, hz⟩

/-- A walk along fewer edges is one along more. -/
lemma Walk.mono {succ' : α → List α} (h : ∀ x, succ x ⊆ succ' x) {p : List α} {v : α}
    (hw : Walk succ root p v) : Walk succ' root p v := by
  induction hw with
  | nil => exact .nil
  | snoc _ hy ih => exact ih.snoc (h _ hy)

/-- A walk that comes back to its root can be made shorter. -/
lemma Walk.shorter {p : List α} {v : α} (hw : Walk succ root p v) (hmem : root ∈ p) :
    ∃ q, Walk succ root q v ∧ q.length < p.length := by
  induction hw with
  | nil => cases hmem
  | @snoc p x y hw hy ih =>
      by_cases hroot : root = y
      · subst hroot
        exact ⟨[], .nil, by simp⟩
      · have hp : root ∈ p := (List.mem_append.mp hmem).resolve_right (by simpa using hroot)
        obtain ⟨q, hq, hlen⟩ := ih hp
        exact ⟨q ++ [y], hq.snoc hy, by simpa using hlen⟩

/-- A walk is a chain of successors. -/
lemma walk_iff {p : List α} {v : α} : Walk succ root p v ↔
    List.IsChain (fun x y => y ∈ succ x) (root :: p) ∧ (root :: p).getLast? = some v := by
  induction p using List.reverseRecOn generalizing v with
  | nil =>
      constructor
      · intro h
        simp [h.eq_root]
      · rintro ⟨-, h⟩
        obtain rfl : root = v := by simpa using h
        exact .nil
  | append_singleton p x ih =>
      rw [← List.cons_append, List.isChain_append, List.getLast?_concat]
      constructor
      · intro h
        obtain ⟨rfl, y, hw, hy⟩ := h.snoc_inv
        obtain ⟨hchain, hlast⟩ := ih.mp hw
        refine ⟨⟨hchain, List.isChain_singleton _, fun z hz x hx => ?_⟩, rfl⟩
        rw [hlast] at hz
        cases hz
        cases hx
        exact hy
      · rintro ⟨⟨hchain, -, hstep⟩, hv⟩
        obtain rfl : x = v := Option.some.inj hv
        obtain ⟨y, hy⟩ : ∃ y, (root :: p).getLast? = some y :=
          ⟨_, List.getLast?_eq_some_getLast (List.cons_ne_nil _ _)⟩
        exact (ih.mpr ⟨hchain, hy⟩).snoc (hstep y hy x rfl)

/-- The least number of steps from the root. -/
def IsDistance (succ : α → List α) (root v : α) (n : ℕ) : Prop :=
  (∃ p, Walk succ root p v ∧ p.length = n) ∧ ∀ p, Walk succ root p v → n ≤ p.length

/-! ### Between two nodes -/

/-- Successors in the order of their labels. -/
def Ordered (l : Labels α ω) (xs : List α) : Prop :=
  xs.Pairwise fun x y => ∀ w, l.lt (l.ext w x) (l.ext w y)

variable (l : Labels α ω) (succ : α → List α) (root : α) (bound : ℕ)

/-- Successors in increasing order are visited in the order of their paths. -/
lemma ordered_path {r : α → α → Prop} [IsTrans α r] {xs : List α} (h : xs.Pairwise r) :
    Ordered (.path r) xs := by
  refine h.imp fun {x y} hxy p => ?_
  have hlex : List.Shortlex r [x] [y] := .of_lex rfl (.rel hxy)
  exact hlex.append_left p

/-- Any order of successors is an order of their depths. -/
lemma ordered_depth (xs : List α) : Ordered (.depth α) xs :=
  List.pairwise_of_forall fun _ _ _ => Nat.le_refl _

/-- What holds of the queue and the labels. -/
structure Front (Q : List α) (P : α → Option ω) : Prop where
  nodup : Q.Nodup
  start : P root = some l.base
  queued : ∀ u ∈ Q, ∃ w, P u = some w
  walks : ∀ v w, P v = some w → ∃ p, Walk succ root p v ∧ l.label p = w ∧ p.length ≤ bound
  sorted : Q.Pairwise fun a b => ∀ w w', P a = some w → P b = some w' → l.lt w w'
  parents : ∀ v w, P v = some w → v = root ∨
    ∃ w₀, w = l.ext w₀ v ∧ ∀ u ∈ Q, ∀ w', P u = some w' → l.lt w₀ w'
  closed : ∀ z w, P z = some w → z ∉ Q → l.size w < bound →
    ∀ x ∈ succ z, ∃ w', P x = some w' ∧ l.le w' (l.ext w x)

/-- What holds in the middle of a visit: `u` has left the queue, and `todo` are the successors
that have not been looked at. -/
structure Visit (u : α) (w₁ : ω) (todo : List α) (Q : List α) (P : α → Option ω) : Prop where
  nodup : Q.Nodup
  gone : u ∉ Q
  start : P root = some l.base
  here : P u = some w₁
  room : l.size w₁ < bound
  queued : ∀ v ∈ Q, ∃ w, P v = some w
  walks : ∀ v w, P v = some w → ∃ p, Walk succ root p v ∧ l.label p = w ∧ p.length ≤ bound
  sorted : Q.Pairwise fun a b => ∀ w w', P a = some w → P b = some w' → l.lt w w'
  later : ∀ v ∈ Q, ∀ w, P v = some w → l.lt w₁ w
  before : ∀ v ∈ Q, ∀ w, P v = some w → ∀ x ∈ todo, l.lt w (l.ext w₁ x)
  parents : ∀ v w, P v = some w → v = root ∨
    ∃ w₀, w = l.ext w₀ v ∧ l.le w₀ w₁ ∧ ∀ u' ∈ Q, ∀ w', P u' = some w' → l.lt w₀ w'
  ordered : Ordered l todo
  todo_succ : ∀ x ∈ todo, x ∈ succ u
  visited : ∀ x ∈ succ u, x ∈ todo ∨ ∃ w, P x = some w ∧ l.le w (l.ext w₁ x)
  closed : ∀ z w, P z = some w → z ≠ u → z ∉ Q → l.size w < bound →
    ∀ x ∈ succ z, ∃ w', P x = some w' ∧ l.le w' (l.ext w x)

variable {l succ root bound} {Q : List α} {P : α → Option ω} {u : α} {w₁ : ω}

/-- A node at the bound is passed over. -/
lemma Front.skip (h : Front l succ root bound (u :: Q) P) (hu : P u = some w₁)
    (hfull : bound ≤ l.size w₁) : Front l succ root bound Q P where
  nodup := (List.nodup_cons.mp h.nodup).2
  start := h.start
  queued v hv := h.queued v (List.mem_cons_of_mem _ hv)
  walks := h.walks
  sorted := (List.pairwise_cons.mp h.sorted).2
  parents v w hw := (h.parents v w hw).imp_right fun ⟨w₀, hw₀, hlt⟩ =>
    ⟨w₀, hw₀, fun u' hu' => hlt u' (List.mem_cons_of_mem _ hu')⟩
  closed z w hw hz hroom := by
    by_cases hzu : z = u
    · subst hzu
      rw [hu] at hw
      cases hw
      omega
    · exact h.closed z w hw (by simp [hzu, hz]) hroom

/-- A node below the bound leaves the queue, and its successors are to be looked at. -/
lemma Front.visit (h : Front l succ root bound (u :: Q) P) (hu : P u = some w₁)
    (hroom : l.size w₁ < bound) (hord : Ordered l (succ u)) :
    Visit l succ root bound u w₁ (succ u) Q P where
  nodup := (List.nodup_cons.mp h.nodup).2
  gone := (List.nodup_cons.mp h.nodup).1
  start := h.start
  here := hu
  room := hroom
  queued v hv := h.queued v (List.mem_cons_of_mem _ hv)
  walks := h.walks
  sorted := (List.pairwise_cons.mp h.sorted).2
  later v hv w hw := (List.pairwise_cons.mp h.sorted).1 v hv w₁ w hu hw
  before v hv w hw x _ := by
    rcases h.parents v w hw with rfl | ⟨w₀, rfl, hlt⟩
    · obtain rfl : l.base = w := Option.some.inj (h.start.symm.trans hw)
      exact l.lt_of_le_of_lt (l.base_le w₁) (l.lt_ext w₁ x)
    · exact l.ext_lt v x (hlt u List.mem_cons_self w₁ hu)
  parents v w hw := (h.parents v w hw).imp_right fun ⟨w₀, hw₀, hlt⟩ =>
    ⟨w₀, hw₀, l.le_of_lt (hlt u List.mem_cons_self w₁ hu),
      fun u' hu' => hlt u' (List.mem_cons_of_mem _ hu')⟩
  ordered := hord
  todo_succ _ hx := hx
  visited _ hx := .inl hx
  closed z w hw hzu hzQ := h.closed z w hw (by simp [hzu, hzQ])

/-- A successor that has a label keeps it, and it is no worse than the new one. -/
lemma Visit.seen {x : α} {todo : List α} (h : Visit l succ root bound u w₁ (x :: todo) Q P)
    {w : ω} (hx : P x = some w) : Visit l succ root bound u w₁ todo Q P where
  nodup := h.nodup
  gone := h.gone
  start := h.start
  here := h.here
  room := h.room
  queued := h.queued
  walks := h.walks
  sorted := h.sorted
  later := h.later
  before v hv w hw y hy := h.before v hv w hw y (List.mem_cons_of_mem _ hy)
  parents := h.parents
  ordered := (List.pairwise_cons.mp h.ordered).2
  todo_succ y hy := h.todo_succ y (List.mem_cons_of_mem _ hy)
  visited y hy := by
    rcases h.visited y hy with hmem | hdone
    · rcases List.mem_cons.mp hmem with rfl | hmem
      · refine .inr ⟨w, hx, ?_⟩
        rcases h.parents y w hx with rfl | ⟨w₀, rfl, hle, -⟩
        · obtain rfl : l.base = w := Option.some.inj (h.start.symm.trans hx)
          exact l.base_le _
        · exact l.ext_mono y hle
      · exact .inl hmem
    · exact .inr hdone
  closed := h.closed

/-- When all successors have been looked at, the node is done. -/
lemma Visit.finish (h : Visit l succ root bound u w₁ [] Q P) : Front l succ root bound Q P where
  nodup := h.nodup
  start := h.start
  queued := h.queued
  walks := h.walks
  sorted := h.sorted
  parents v w hw := (h.parents v w hw).imp_right fun ⟨w₀, hw₀, _, hlt⟩ => ⟨w₀, hw₀, hlt⟩
  closed z w hw hz hroom x hx := by
    by_cases hzu : z = u
    · subst hzu
      obtain rfl : w₁ = w := Option.some.inj (h.here.symm.trans hw)
      exact (h.visited x hx).resolve_left (by simp)
    · exact h.closed z w hw hzu hz hroom x hx

/-- The nodes in the queue, and those among `U` that may still come into it. -/
def potential (U : List α) (s : List α × (α → Option ω)) : ℕ :=
  s.1.length + U.countP fun x => (s.2 x).isNone

/-- A node that leaves the queue is for good. -/
lemma potential_cons (U : List α) : potential U (u :: Q, P) = potential U (Q, P) + 1 := by
  simp only [potential, List.length_cons]
  omega

/-! ### What the search finds -/

/-- Every walk within the bound has reached a labelled node by its end, or passes the queue. -/
lemma Front.reaches (h : Front l succ root bound Q P) {p : List α} {v : α}
    (hw : Walk succ root p v) (hlen : p.length ≤ bound) :
    (∃ w, P v = some w ∧ v ∉ Q ∧ l.le w (l.label p)) ∨
      ∃ q ∈ Q, ∃ w, P q = some w ∧ l.le w (l.label p) := by
  -- a labelled node is in the queue or it is not
  have hsplit : ∀ {v p w}, P v = some w → l.le w (l.label p) →
      (∃ w, P v = some w ∧ v ∉ Q ∧ l.le w (l.label p)) ∨
        ∃ q ∈ Q, ∃ w, P q = some w ∧ l.le w (l.label p) := by
    intro v p w hv hle
    by_cases hmem : v ∈ Q
    · exact .inr ⟨v, hmem, w, hv, hle⟩
    · exact .inl ⟨w, hv, hmem, hle⟩
  induction hw with
  | nil => exact hsplit h.start (l.le_refl _)
  | @snoc p x y hw hy ih =>
      have hp : p.length < bound := by simpa using hlen
      rcases ih hp.le with ⟨w, hx, hxQ, hle⟩ | ⟨q, hq, w, hw, hle⟩
      · have hsize : l.size w < bound := by
          have hmono := l.size_mono hle
          rw [l.size_label] at hmono
          omega
        obtain ⟨w', hw', hle'⟩ := h.closed x w hx hxQ hsize y hy
        refine hsplit hw' (l.le_trans hle' ?_)
        rw [l.label_snoc]
        exact l.ext_mono y hle
      · exact .inr ⟨q, hq, w, hw, l.le_trans hle (l.label_mono (List.prefix_append ..))⟩

/-- A node that has a label has the least there is. -/
theorem Front.least (h : Front l succ root bound Q P) {v : α} {w : ω} (hv : P v = some w)
    {p : List α} (hw : Walk succ root p v) (hlen : p.length ≤ bound) : l.le w (l.label p) := by
  rcases h.parents v w hv with rfl | ⟨w₀, rfl, hlt⟩
  · obtain rfl : l.base = w := Option.some.inj (h.start.symm.trans hv)
    exact l.base_le _
  · induction p using List.reverseRecOn with
    | nil =>
        obtain rfl := hw.eq_root
        rw [Option.some.inj (hv.symm.trans h.start)]
        exact l.base_le _
    | append_singleton p x _ =>
        obtain ⟨rfl, y, hwy, hy⟩ := hw.snoc_inv
        have hp : p.length < bound := by simpa using hlen
        rw [l.label_snoc]
        rcases h.reaches hwy hp.le with ⟨w, hPy, hyQ, hle⟩ | ⟨q, hq, w, hPq, hle⟩
        · have hsize : l.size w < bound := by
            have hmono := l.size_mono hle
            rw [l.size_label] at hmono
            omega
          obtain ⟨w', hw', hle'⟩ := h.closed y w hPy hyQ hsize v hy
          rw [Option.some.inj (hv.symm.trans hw')]
          exact l.le_trans hle' (l.ext_mono v hle)
        · exact l.ext_mono v (l.le_trans (l.le_of_lt (hlt q hq w hPq)) hle)

/-- When the queue is empty, every node within the bound has a label. -/
theorem Front.complete (h : Front l succ root bound [] P) {v : α} {p : List α}
    (hw : Walk succ root p v) (hlen : p.length ≤ bound) : ∃ w, P v = some w := by
  rcases h.reaches hw hlen with ⟨w, hv, -⟩ | ⟨q, hq, -⟩
  · exact ⟨w, hv⟩
  · cases hq

/-- A search that counts the steps labels a node with its distance. -/
lemma Front.distance {P : α → Option ℕ} (h : Front (.depth α) succ root bound Q P) {v : α} {n : ℕ}
    (hv : P v = some n) : n ≤ bound ∧ IsDistance succ root v n := by
  obtain ⟨p, hp, hlabel, hlen⟩ := h.walks v n hv
  have hsize : p.length = n := by
    rw [← hlabel]
    exact ((Labels.depth α).size_label p).symm
  refine ⟨hsize ▸ hlen, ⟨p, hp, hsize⟩, fun q hq => ?_⟩
  by_cases hfar : q.length ≤ bound
  · have hleast := (Labels.depth α).size_mono (h.least hv hq hfar)
    rw [Labels.size_label] at hleast
    exact hleast
  · omega

/-- **What such a search finds**: every node within the bound, with its distance. -/
theorem Front.depth_iff {P : α → Option ℕ} (h : Front (.depth α) succ root bound [] P) {v : α}
    {n : ℕ} : P v = some n ↔ n ≤ bound ∧ IsDistance succ root v n := by
  constructor
  · exact h.distance
  · rintro ⟨hn, ⟨p, hp, rfl⟩, hleast⟩
    obtain ⟨m, hm⟩ := h.complete hp hn
    obtain ⟨-, ⟨q, hq, rfl⟩, hleast'⟩ := h.distance hm
    rw [hm, Nat.le_antisymm (hleast' p hp) (hleast q hq)]

/-! ### The steps -/

variable [DecidableEq α]

/-- The search begins at the root. -/
lemma Front.init :
    Front l succ root bound [root] (Function.update (fun _ => none) root (some l.base)) where
  nodup := List.nodup_singleton _
  start := Function.update_self ..
  queued v hv := by
    rw [List.mem_singleton.mp hv]
    exact ⟨_, Function.update_self ..⟩
  walks v w hw := by
    by_cases hv : v = root
    · subst hv
      rw [Function.update_self] at hw
      exact ⟨[], .nil, Option.some.inj hw, Nat.zero_le _⟩
    · rw [Function.update_of_ne hv] at hw
      cases hw
  sorted := List.pairwise_singleton _ _
  parents v w hw := by
    by_cases hv : v = root
    · exact .inl hv
    · rw [Function.update_of_ne hv] at hw
      cases hw
  closed z w hw hz := by
    rw [Function.update_of_ne (by simpa using hz)] at hw
    cases hw

/-- A label stays when another node gets one. -/
lemma update_some {x v : α} {w w' : ω} (hx : P x = none) (hv : P v = some w) :
    Function.update P x (some w') v = some w := by
  have hne : v ≠ x := by
    rintro rfl
    rw [hx] at hv
    cases hv
  rw [Function.update_of_ne hne, hv]

/-- The labels after a new one: the new one and the old ones. -/
lemma update_cases {x v : α} {w w' : ω} (h : Function.update P x (some w') v = some w) :
    (v = x ∧ w = w') ∨ (v ≠ x ∧ P v = some w) := by
  by_cases hv : v = x
  · subst hv
    rw [Function.update_self] at h
    exact .inl ⟨rfl, (Option.some.inj h).symm⟩
  · rw [Function.update_of_ne hv] at h
    exact .inr ⟨hv, h⟩

/-- A successor without a label gets one, and the last place in the queue. -/
lemma Visit.new {x : α} {todo : List α} (h : Visit l succ root bound u w₁ (x :: todo) Q P)
    (hx : P x = none) :
    Visit l succ root bound u w₁ todo (Q ++ [x]) (Function.update P x (some (l.ext w₁ x))) := by
  have hxQ : x ∉ Q := by
    intro hmem
    obtain ⟨w, hw⟩ := h.queued x hmem
    rw [hx] at hw
    cases hw
  have hux : u ≠ x := by
    rintro rfl
    have hhere := h.here
    rw [hx] at hhere
    cases hhere
  have hself : Function.update P x (some (l.ext w₁ x)) x = some (l.ext w₁ x) :=
    Function.update_self ..
  -- the labels of the queue, old and new
  have hqueue : ∀ v ∈ Q ++ [x], ∀ w, Function.update P x (some (l.ext w₁ x)) v = some w →
      (v ∈ Q ∧ P v = some w) ∨ (v = x ∧ w = l.ext w₁ x) := by
    intro v hv w hw
    rcases update_cases hw with hnew | ⟨hne, hold⟩
    · exact .inr hnew
    · exact .inl ⟨(List.mem_append.mp hv).resolve_right (by simp [hne]), hold⟩
  refine ⟨?_, ?_, update_some hx h.start, update_some hx h.here, h.room, ?_, ?_, ?_, ?_, ?_, ?_,
    (List.pairwise_cons.mp h.ordered).2, fun y hy => h.todo_succ y (List.mem_cons_of_mem _ hy),
    ?_, ?_⟩
  case refine_1 =>
    exact List.nodup_append.mpr ⟨h.nodup, List.nodup_singleton _, fun a ha b hb hab => hxQ (by
      rwa [← List.mem_singleton.mp hb, ← hab])⟩
  case refine_2 =>
    rw [List.mem_append, List.mem_singleton, not_or]
    exact ⟨h.gone, hux⟩
  case refine_3 =>
    intro v hv
    rcases List.mem_append.mp hv with hv | hv
    · obtain ⟨w, hw⟩ := h.queued v hv
      exact ⟨w, update_some hx hw⟩
    · rw [List.mem_singleton.mp hv]
      exact ⟨_, hself⟩
  case refine_4 =>
    intro v w hw
    rcases update_cases hw with ⟨rfl, rfl⟩ | ⟨-, hold⟩
    · obtain ⟨p, hp, hlabel, -⟩ := h.walks u w₁ h.here
      have hlen : p.length < bound := by
        rw [← l.size_label, hlabel]
        exact h.room
      refine ⟨p ++ [v], .snoc hp (h.todo_succ v List.mem_cons_self), ?_, by simpa using hlen⟩
      rw [l.label_snoc, hlabel]
    · exact h.walks v w hold
  case refine_5 =>
    refine List.pairwise_append.mpr ⟨?_, List.pairwise_singleton _ _, ?_⟩
    · refine h.sorted.imp_of_mem fun {a b} ha hb hlt w w' hw hw' => ?_
      obtain ⟨wa, hwa⟩ := h.queued a ha
      obtain ⟨wb, hwb⟩ := h.queued b hb
      rw [update_some hx hwa] at hw
      rw [update_some hx hwb] at hw'
      exact hlt w w' (hwa.trans hw) (hwb.trans hw')
    · intro a ha b hb w w' hw hw'
      obtain ⟨wa, hwa⟩ := h.queued a ha
      rw [List.mem_singleton.mp hb, hself] at hw'
      rw [update_some hx hwa] at hw
      obtain rfl := Option.some.inj hw
      obtain rfl := Option.some.inj hw'
      exact h.before a ha wa hwa x List.mem_cons_self
  case refine_6 =>
    intro v hv w hw
    rcases hqueue v hv w hw with ⟨hv, hold⟩ | ⟨-, rfl⟩
    · exact h.later v hv w hold
    · exact l.lt_ext w₁ x
  case refine_7 =>
    intro v hv w hw y hy
    rcases hqueue v hv w hw with ⟨hv, hold⟩ | ⟨-, rfl⟩
    · exact h.before v hv w hold y (List.mem_cons_of_mem _ hy)
    · exact (List.pairwise_cons.mp h.ordered).1 y hy w₁
  case refine_8 =>
    intro v w hw
    rcases update_cases hw with ⟨rfl, rfl⟩ | ⟨-, hold⟩
    · refine .inr ⟨w₁, rfl, l.le_refl _, fun v' hv' w' hw' => ?_⟩
      rcases hqueue v' hv' w' hw' with ⟨hv', hold⟩ | ⟨-, rfl⟩
      · exact h.later v' hv' w' hold
      · exact l.lt_ext w₁ _
    · refine (h.parents v w hold).imp_right fun ⟨w₀, hw₀, hle, hlt⟩ =>
        ⟨w₀, hw₀, hle, fun v' hv' w' hw' => ?_⟩
      rcases hqueue v' hv' w' hw' with ⟨hv', hold⟩ | ⟨-, rfl⟩
      · exact hlt v' hv' w' hold
      · exact l.lt_of_le_of_lt hle (l.lt_ext w₁ x)
  case refine_9 =>
    intro y hy
    rcases h.visited y hy with hmem | ⟨w, hw, hle⟩
    · rcases List.mem_cons.mp hmem with rfl | hmem
      · exact .inr ⟨_, hself, l.le_refl _⟩
      · exact .inl hmem
    · exact .inr ⟨w, update_some hx hw, hle⟩
  case refine_10 =>
    intro z w hw hzu hzQ hroom y hy
    rcases update_cases hw with ⟨rfl, -⟩ | ⟨-, hold⟩
    · exact absurd (by simp) hzQ
    · obtain ⟨w', hw', hle⟩ := h.closed z w hold hzu
        (fun hmem => hzQ (List.mem_append_left _ hmem)) hroom y hy
      exact ⟨w', update_some hx hw', hle⟩

/-- The visit of successors: those without a label get one, and their place in the queue. -/
def expand (l : Labels α ω) (w : ω) (xs : List α) (s : List α × (α → Option ω)) :
    List α × (α → Option ω) :=
  xs.foldl (fun s x => if (s.2 x).isSome then s
    else (s.1 ++ [x], Function.update s.2 x (some (l.ext w x)))) s

lemma expand_seen {x : α} {w : ω} (xs : List α) (hx : P x = some w) :
    expand l w₁ (x :: xs) (Q, P) = expand l w₁ xs (Q, P) := by
  simp [expand, hx]

lemma expand_new {x : α} (xs : List α) (hx : P x = none) :
    expand l w₁ (x :: xs) (Q, P) =
      expand l w₁ xs (Q ++ [x], Function.update P x (some (l.ext w₁ x))) := by
  simp [expand, hx]

/-- A visit of all that is left. -/
lemma Visit.expand {xs : List α} (h : Visit l succ root bound u w₁ xs Q P) :
    Front l succ root bound (expand l w₁ xs (Q, P)).1 (Breadth.expand l w₁ xs (Q, P)).2 := by
  induction xs generalizing Q P with
  | nil => exact h.finish
  | cons x xs ih =>
      cases hx : P x with
      | some w =>
          rw [expand_seen xs hx]
          exact ih (h.seen hx)
      | none =>
          rw [expand_new xs hx]
          exact ih (h.new hx)

/-- The step of the search. -/
lemma Front.expand (h : Front l succ root bound (u :: Q) P) (hu : P u = some w₁)
    (hroom : l.size w₁ < bound) (hord : Ordered l (succ u)) :
    Front l succ root bound (expand l w₁ (succ u) (Q, P)).1
      (Breadth.expand l w₁ (succ u) (Q, P)).2 :=
  (h.visit hu hroom hord).expand

/-- Labels are for good. -/
lemma expand_keeps {v : α} {w : ω} (xs : List α) (hv : P v = some w) :
    (expand l w₁ xs (Q, P)).2 v = some w := by
  induction xs generalizing Q P with
  | nil => exact hv
  | cons x xs ih =>
      cases hx : P x with
      | some w' =>
          rw [expand_seen xs hx]
          exact ih hv
      | none =>
          rw [expand_new xs hx]
          exact ih (update_some hx hv)

/-- What was in the queue stays in it. -/
lemma subset_expand (xs : List α) : Q ⊆ (expand l w₁ xs (Q, P)).1 := by
  induction xs generalizing Q P with
  | nil => exact fun _ hv => hv
  | cons x xs ih =>
      cases hx : P x with
      | some w =>
          rw [expand_seen xs hx]
          exact ih
      | none =>
          rw [expand_new xs hx]
          exact fun v hv => ih (List.mem_append_left _ hv)

/-- A label is an old one, or that of a node in the queue. -/
lemma expand_cases {v : α} {w : ω} {xs : List α}
    (h : (expand l w₁ xs (Q, P)).2 v = some w) :
    P v = some w ∨ v ∈ (expand l w₁ xs (Q, P)).1 := by
  induction xs generalizing Q P with
  | nil => exact .inl h
  | cons x xs ih =>
      cases hx : P x with
      | some w' =>
          rw [expand_seen xs hx] at h ⊢
          exact ih h
      | none =>
          rw [expand_new xs hx] at h ⊢
          rcases ih h with hv | hv
          · rcases update_cases hv with ⟨rfl, -⟩ | ⟨-, hold⟩
            · exact .inr (subset_expand xs (by simp))
            · exact .inl hold
          · exact .inr hv

/-- A new label is one candidate less. -/
lemma countP_update (U : List α) {x : α} {w : ω} (hx : P x = none) (hU : x ∈ U) :
    (U.countP fun v => (Function.update P x (some w) v).isNone) + 1 ≤
      U.countP fun v => (P v).isNone := by
  have hmono : ∀ V : List α, (V.countP fun v => (Function.update P x (some w) v).isNone) ≤
      V.countP fun v => (P v).isNone := by
    refine fun V => List.countP_mono_left fun v _ hv => ?_
    cases hPv : P v with
    | none => rfl
    | some w' =>
        rw [update_some hx hPv] at hv
        cases hv
  obtain ⟨V, W, rfl⟩ := List.append_of_mem hU
  simp only [List.countP_append, List.countP_cons, Function.update_self, hx]
  have hV := hmono V
  have hW := hmono W
  simp only [Option.isNone_some, Option.isNone_none, Bool.false_eq_true, if_false, if_true]
  omega

/-- A visit uses up what it puts into the queue. -/
lemma potential_expand (U : List α) {xs : List α} (hU : ∀ x ∈ xs, x ∈ U) :
    potential U (expand l w₁ xs (Q, P)) ≤ potential U (Q, P) := by
  induction xs generalizing Q P with
  | nil => exact Nat.le_refl _
  | cons x xs ih =>
      have hxs : ∀ y ∈ xs, y ∈ U := fun y hy => hU y (List.mem_cons_of_mem _ hy)
      cases hx : P x with
      | some w =>
          rw [expand_seen xs hx]
          exact ih hxs
      | none =>
          rw [expand_new xs hx]
          refine (ih hxs).trans ?_
          have hdrop := countP_update U (w := l.ext w₁ x) hx (hU x List.mem_cons_self)
          simp only [potential, List.length_append, List.length_singleton]
          omega

end Breadth
