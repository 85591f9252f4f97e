import Mathlib.Data.List.Basic
import Mathlib.Tactic

/-!
Rust's `slice::binary_search_by` and `slice::partition_point` on lists, as the standard
library computes them: halve the window by a probe at `base + size / 2`, then decide at the
last remaining index.

* `binarySearchBy_ok`: a hit is an element that compares equal, on any list;
* `binarySearchBy_err`: on a list whose comparisons are ordered, a miss splits the list into
  the elements below and the elements above;
* `partitionPoint_spec`: on a partitioned list, the partition point splits it;
* `exists_between`: on any list, a search that ends before another one was sent down where the
  other one was not; `partitionPoint_mono` and `exists_between_of_found` follow;
* `SliceSearch`: the documented contract, which leaves the results on lists in another order
  open; `unspecified` is a search that finds nothing there.
-/

namespace BinarySearch

variable {α : Type*}

/-- The comparison at index `i`; every probe is in range. -/
def cmpAt (f : α → Ordering) (l : List α) (i : ℕ) : Ordering :=
  match l[i]? with
  | some x => f x
  | none => .lt

/-- The halving loop: `while size > 1`. -/
def halve (f : α → Ordering) (l : List α) : ℕ → ℕ → ℕ → ℕ
  | 0, base, _ => base
  | fuel + 1, base, size =>
      if size ≤ 1 then base
      else
        let half := size / 2
        let mid := base + half
        halve f l fuel (if cmpAt f l mid = .gt then base else mid) (size - half)

/-- `binary_search_by`: `ok i` for a hit at `i`, `error i` for the index to insert at. -/
def binarySearchBy (f : α → Ordering) (l : List α) : Except ℕ ℕ :=
  if l.length = 0 then .error 0
  else
    let base := halve f l l.length 0 l.length
    match cmpAt f l base with
    | .eq => .ok base
    | .lt => .error (base + 1)
    | .gt => .error base

/-- `partition_point`. -/
def partitionPoint (pred : α → Bool) (l : List α) : ℕ :=
  match binarySearchBy (fun x => if pred x then .lt else .gt) l with
  | .ok i => i
  | .error i => i

variable {f : α → Ordering} {l : List α}

lemma cmpAt_of_getElem? {i : ℕ} {x : α} (h : l[i]? = some x) : cmpAt f l i = f x := by
  simp [cmpAt, h]

/-- A hit is an element that compares equal. -/
lemma binarySearchBy_ok {i : ℕ} (h : binarySearchBy f l = .ok i) :
    ∃ x, l[i]? = some x ∧ f x = .eq := by
  rw [binarySearchBy] at h
  split_ifs at h
  dsimp only at h
  split at h
  · next heq =>
      have hi : halve f l l.length 0 l.length = i := by simpa using h
      rw [hi, cmpAt] at heq
      split at heq
      · next x hx => exact ⟨x, hx, heq⟩
      · cases heq
  · cases h
  · cases h

/-- The window of the loop: the elements before `base` and at `base` are not above (unless
`base` is still `0`), those from `base + size` on are above. -/
def Window (f : α → Ordering) (l : List α) (base size : ℕ) : Prop :=
  0 < size ∧ base + size ≤ l.length ∧ (base = 0 ∨ cmpAt f l base ≠ .gt) ∧
    ∀ (j : ℕ) (x : α), l[j]? = some x → base + size ≤ j → f x = .gt

/-- The comparisons along the list never go down. -/
def Ordered (f : α → Ordering) (l : List α) : Prop :=
  ∀ (i j : ℕ) (x y : α), i ≤ j → l[i]? = some x → l[j]? = some y →
    (f x = .gt → f y = .gt) ∧ (f x = .eq → f y ≠ .lt)

lemma Ordered.gt_of_cmpAt (ho : Ordered f l) {mid : ℕ} (hmid : mid < l.length)
    (hgt : cmpAt f l mid = .gt) {j : ℕ} {x : α} (hx : l[j]? = some x) (hj : mid ≤ j) :
    f x = .gt := by
  have hm := List.getElem?_eq_getElem hmid
  exact (ho mid j _ x hj hm hx).1 (by rw [← hgt, cmpAt_of_getElem? hm])

/-- The loop ends on a window of size one. -/
lemma halve_window (ho : Ordered f l) : ∀ (fuel base size : ℕ), size ≤ fuel →
    Window f l base size → Window f l (halve f l fuel base size) 1
  | 0, base, size, hle, hw => absurd hw.1 (by omega)
  | fuel + 1, base, size, hle, hw => by
      obtain ⟨hpos, hlen, hbase, habove⟩ := hw
      rw [halve]
      split_ifs with hs
      · have h1 : size = 1 := by omega
        subst h1
        exact ⟨hpos, hlen, hbase, habove⟩
      · dsimp only
        by_cases hgt : cmpAt f l (base + size / 2) = .gt
        · rw [if_pos hgt]
          refine halve_window ho fuel _ _ (by omega) ⟨by omega, by omega, hbase, ?_⟩
          intro j x hx hj
          exact ho.gt_of_cmpAt (by omega) hgt hx (by omega)
        · rw [if_neg hgt]
          refine halve_window ho fuel _ _ (by omega) ⟨by omega, by omega, Or.inr hgt, ?_⟩
          intro j x hx hj
          exact habove j x hx (by omega)

/-- **A miss splits an ordered list** into the elements below and those above. -/
theorem binarySearchBy_err (ho : Ordered f l) {i : ℕ} (h : binarySearchBy f l = .error i) :
    ∀ (j : ℕ) (x : α), l[j]? = some x → if j < i then f x = .lt else f x = .gt := by
  rw [binarySearchBy] at h
  split_ifs at h with hlen
  · intro j x hx
    rw [List.length_eq_zero_iff.mp hlen] at hx
    simp at hx
  · dsimp only at h
    have hw : Window f l 0 l.length := by
      refine ⟨by omega, by omega, Or.inl rfl, fun j x hx hj => ?_⟩
      have := (List.getElem?_eq_some_iff.mp hx).1
      omega
    obtain ⟨-, hbl, hbase, habove⟩ := halve_window ho l.length 0 l.length le_rfl hw
    set base := halve f l l.length 0 l.length
    have hb := List.getElem?_eq_getElem (show base < l.length by omega)
    split at h
    · cases h
    · next hlt =>
        have hi : i = base + 1 := by simpa using h.symm
        subst hi
        intro j x hx
        split_ifs with hj
        · -- an element before one that is below is itself below
          rw [cmpAt_of_getElem? hb] at hlt
          have ho' := ho j base x _ (by omega) hx hb
          cases hfx : f x with
          | lt => rfl
          | eq => exact absurd hlt (ho'.2 hfx)
          | gt => rw [ho'.1 hfx] at hlt; cases hlt
        · exact habove j x hx (by omega)
    · next hgt =>
        have hi : i = base := by simpa using h.symm
        have h0 : base = 0 := hbase.resolve_right (fun hn => hn hgt)
        intro j x hx
        rw [if_neg (by omega)]
        exact ho.gt_of_cmpAt (by omega) hgt hx (by omega)

/-- The predicate holds of the elements up to some point. -/
def Partitioned (pred : α → Bool) (l : List α) : Prop :=
  ∀ (i j : ℕ) (x y : α), i ≤ j → l[i]? = some x → l[j]? = some y → pred y = true → pred x = true

/-- **The partition point splits a partitioned list.** -/
theorem partitionPoint_spec {pred : α → Bool} (hp : Partitioned pred l) :
    partitionPoint pred l ≤ l.length ∧
      ∀ (j : ℕ) (x : α), l[j]? = some x → (pred x = true ↔ j < partitionPoint pred l) := by
  set g : α → Ordering := fun x => if pred x then .lt else .gt with hg
  have ho : Ordered g l := by
    intro i j x y hij hx hy
    refine ⟨fun hgx => ?_, fun heq => ?_⟩
    · by_contra hgy
      have hpy : pred y = true := by
        by_contra hn
        simp [hg, hn] at hgy
      simp [hg, hp i j x y hij hx hy hpy] at hgx
    · simp only [hg] at heq
      split_ifs at heq
  have hsplit : ∀ i, binarySearchBy g l = .error i → partitionPoint pred l = i := by
    intro i hi
    simp only [partitionPoint]
    rw [hi]
  cases hb : binarySearchBy g l with
  | ok i =>
      obtain ⟨x, -, hx⟩ := binarySearchBy_ok hb
      simp only [hg] at hx
      split_ifs at hx
  | error i =>
      rw [hsplit i hb]
      have herr := binarySearchBy_err ho hb
      refine ⟨?_, fun j x hx => ?_⟩
      · -- otherwise the last element would lie before `i` and beyond the list
        rw [binarySearchBy] at hb
        split_ifs at hb with hlen
        · have : i = 0 := by simpa using hb.symm
          omega
        · dsimp only at hb
          have hw : Window g l 0 l.length := by
            refine ⟨by omega, by omega, Or.inl rfl, fun j x hx hj => ?_⟩
            have := (List.getElem?_eq_some_iff.mp hx).1
            omega
          have hbl := (halve_window ho l.length 0 l.length le_rfl hw).2.1
          split at hb
          · cases hb
          · have : halve g l l.length 0 l.length + 1 = i := by simpa using hb
            omega
          · have : halve g l l.length 0 l.length = i := by simpa using hb
            omega
      · have hj := herr j x hx
        split_ifs at hj with hlt
        · refine ⟨fun _ => hlt, fun _ => ?_⟩
          by_contra hn
          simp [hg, hn] at hj
        · refine ⟨fun hpx => ?_, fun h => absurd h hlt⟩
          simp [hg, hpx] at hj

/-! ### On any list -/

lemma halve_bounds (f : α → Ordering) (l : List α) (fuel base : ℕ) {size : ℕ} (hsize : 0 < size) :
    base ≤ halve f l fuel base size ∧ halve f l fuel base size < base + size := by
  induction fuel generalizing base size with
  | zero => exact ⟨le_rfl, Nat.lt_add_of_pos_right hsize⟩
  | succ fuel ih =>
      rw [halve]
      split_ifs with hs
      · exact ⟨le_rfl, Nat.lt_add_of_pos_right hsize⟩
      · dsimp only
        have hrest : 0 < size - size / 2 := by omega
        split_ifs with hgt
        · obtain ⟨hle, hlt⟩ := ih base hrest
          exact ⟨hle, by omega⟩
        · obtain ⟨hle, hlt⟩ := ih (base + size / 2) hrest
          exact ⟨by omega, by omega⟩

/-- **Two searches part** at an element that is above for the one and not for the other. -/
theorem exists_between {f g : α → Ordering} (fuel base size : ℕ) (hlen : base + size ≤ l.length)
    (h : halve f l fuel base size < halve g l fuel base size) :
    ∃ x ∈ l, f x = .gt ∧ g x ≠ .gt := by
  induction fuel generalizing base size with
  | zero => exact absurd h (lt_irrefl _)
  | succ fuel ih =>
      rw [halve, halve] at h
      split_ifs at h with hs
      · exact absurd h (lt_irrefl _)
      dsimp only at h
      have hmid : base + size / 2 < l.length := by omega
      have hget := List.getElem?_eq_getElem hmid
      rw [cmpAt_of_getElem? hget, cmpAt_of_getElem? hget] at h
      have hrest : 0 < size - size / 2 := by omega
      by_cases hf : f l[base + size / 2] = .gt
      · by_cases hg : g l[base + size / 2] = .gt
        · rw [if_pos hf, if_pos hg] at h
          exact ih _ _ (by omega) h
        · exact ⟨_, List.getElem_mem hmid, hf, hg⟩
      · by_cases hg : g l[base + size / 2] = .gt
        · rw [if_neg hf, if_pos hg] at h
          have hbelow := (halve_bounds f l fuel (base + size / 2) hrest).1
          have habove := (halve_bounds g l fuel base hrest).2
          omega
        · rw [if_neg hf, if_neg hg] at h
          exact ih _ _ (by omega) h

/-- What is found before something else is below it, with an element between them. -/
lemma exists_between_of_found {g : α → Ordering} {i j : ℕ} (hf : binarySearchBy f l = .ok i)
    (hg : binarySearchBy g l = .ok j) (hij : i < j) : ∃ x ∈ l, f x = .gt ∧ g x ≠ .gt := by
  have hbase : ∀ {h : α → Ordering} {k : ℕ}, binarySearchBy h l = .ok k →
      halve h l l.length 0 l.length = k := by
    intro h k hk
    rw [binarySearchBy] at hk
    split_ifs at hk
    dsimp only at hk
    split at hk
    · exact Except.ok.inj hk
    · cases hk
    · cases hk
  refine exists_between l.length 0 l.length (by omega) ?_
  rwa [hbase hf, hbase hg]

/-- The comparison of `partition_point`. -/
def probe (pred : α → Bool) (x : α) : Ordering := if pred x then .lt else .gt

lemma partitionPoint_eq (pred : α → Bool) (hl : l.length ≠ 0) : partitionPoint pred l =
    if cmpAt (probe pred) l (halve (probe pred) l l.length 0 l.length) = .lt then
      halve (probe pred) l l.length 0 l.length + 1
    else halve (probe pred) l l.length 0 l.length := by
  have hsearch : partitionPoint pred l = match binarySearchBy (probe pred) l with
      | .ok i => i
      | .error i => i := rfl
  rw [hsearch, binarySearchBy, if_neg hl]
  dsimp only
  cases cmpAt (probe pred) l (halve (probe pred) l l.length 0 l.length) <;> rfl

lemma partitionPoint_le_length (pred : α → Bool) (l : List α) :
    partitionPoint pred l ≤ l.length := by
  by_cases hl : l.length = 0
  · rw [List.length_eq_zero_iff.mp hl]
    rfl
  · have hbase := (halve_bounds (probe pred) l l.length 0 (Nat.pos_of_ne_zero hl)).2
    rw [partitionPoint_eq pred hl]
    split_ifs <;> omega

/-- **The partition point grows with the predicate**, on any list. -/
lemma partitionPoint_mono {p q : α → Bool} (hpq : ∀ x ∈ l, p x = true → q x = true) :
    partitionPoint p l ≤ partitionPoint q l := by
  by_cases hl : l.length = 0
  · rw [List.length_eq_zero_iff.mp hl]
    rfl
  have hlt := (halve_bounds (probe p) l l.length 0 (Nat.pos_of_ne_zero hl)).2
  have hbase : halve (probe p) l l.length 0 l.length ≤ halve (probe q) l l.length 0 l.length := by
    by_contra hgt
    obtain ⟨x, hx, hqx, hpx⟩ := exists_between l.length 0 l.length (by omega) (not_le.mp hgt)
    rw [probe] at hqx hpx
    split_ifs at hqx hpx with hq hp
    · exact hq (hpq x hx hp)
    · exact hpx rfl
  rw [partitionPoint_eq p hl, partitionPoint_eq q hl]
  rcases Nat.lt_or_eq_of_le hbase with hbase | hbase
  · split_ifs <;> omega
  · rw [← hbase]
    have hget := List.getElem?_eq_getElem (show halve (probe p) l l.length 0 l.length < l.length by
      omega)
    rw [cmpAt_of_getElem? hget, cmpAt_of_getElem? hget, probe, probe]
    by_cases hp : p l[halve (probe p) l l.length 0 l.length] = true
    · rw [if_pos hp, if_pos (hpq _ (List.getElem_mem _) hp)]
    · rw [if_neg hp]
      split_ifs <;> simp_all

/-! ### The documented contract -/

/-- Searches that do what is documented: on a list that is not ordered by the comparison, or not
partitioned by the predicate, the result is unspecified. -/
structure SliceSearch (α : Type*) where
  binarySearchBy : (α → Ordering) → List α → Except ℕ ℕ
  partitionPoint : (α → Bool) → List α → ℕ
  search_ok {f : α → Ordering} {l : List α} {i : ℕ} : Ordered f l →
    binarySearchBy f l = .ok i → ∃ x, l[i]? = some x ∧ f x = .eq
  search_error {f : α → Ordering} {l : List α} {i : ℕ} : Ordered f l →
    binarySearchBy f l = .error i →
      ∀ (j : ℕ) (x : α), l[j]? = some x → if j < i then f x = .lt else f x = .gt
  partition_spec {pred : α → Bool} {l : List α} : Partitioned pred l →
    partitionPoint pred l ≤ l.length ∧
      ∀ (j : ℕ) (x : α), l[j]? = some x → (pred x = true ↔ j < partitionPoint pred l)

namespace SliceSearch

/-- The searches of the standard library. -/
def std (α : Type*) : SliceSearch α where
  binarySearchBy := BinarySearch.binarySearchBy
  partitionPoint := BinarySearch.partitionPoint
  search_ok _ h := binarySearchBy_ok h
  search_error ho h := binarySearchBy_err ho h
  partition_spec := partitionPoint_spec

/-- A partitioned list has one partition point. -/
lemma partitionPoint_eq (S : SliceSearch α) {pred : α → Bool} (h : Partitioned pred l) :
    S.partitionPoint pred l = BinarySearch.partitionPoint pred l := by
  obtain ⟨hle, hsplit⟩ := S.partition_spec h
  obtain ⟨hle', hsplit'⟩ := partitionPoint_spec h
  refine le_antisymm (not_lt.mp fun hlt => ?_) (not_lt.mp fun hlt => ?_)
  · have hget := List.getElem?_eq_getElem (hlt.trans_le hle)
    exact lt_irrefl _ ((hsplit' _ _ hget).mp ((hsplit _ _ hget).mpr hlt))
  · have hget := List.getElem?_eq_getElem (hlt.trans_le hle')
    exact lt_irrefl _ ((hsplit _ _ hget).mp ((hsplit' _ _ hget).mpr hlt))

open Classical in
/-- Searches that give up on the lists the contract leaves open. -/
noncomputable def unspecified (α : Type*) : SliceSearch α where
  binarySearchBy f l := if Ordered f l then BinarySearch.binarySearchBy f l else .error 0
  partitionPoint pred l := if Partitioned pred l then BinarySearch.partitionPoint pred l else 0
  search_ok ho h := by
    rw [if_pos ho] at h
    exact binarySearchBy_ok h
  search_error ho h := by
    rw [if_pos ho] at h
    exact binarySearchBy_err ho h
  partition_spec hp := by
    rw [if_pos hp]
    exact partitionPoint_spec hp

end SliceSearch

end BinarySearch
