import Bole.Store.PackIndex

/-!
Looking ids up in an index that anyone may have written (`PackIndex::parse` and
`PackIndex::lookup` of `src/store/pack.rs`).

The digest of an index file says nothing about the order of its entries, and `parse` does not look
at it.  The search brackets the entries by two partition points and searches between them.

* `lookup_returns`: a lookup never leaves the table, on any table;
* `lookupSafe_of_sorted`, `sorted_of_lookupSafe`: it finds what is listed if the table is sorted,
  and where no id is listed twice only if it is;
* `lookup_safe_iff`: **sorted is what it takes**, for every search that keeps the contract of the
  standard library;
* `lookup_misses`: an index that is accepted and hides one of its ids.
-/

namespace Bole

open ByteString BinarySearch

namespace PackIndex

/-! ### Any search -/

/-- What a lookup makes of the result of a search. -/
def found (range : List PackEntry) : Except ℕ ℕ → Result (Option (ℕ × ℕ))
  | .error _ => .ok none
  | .ok i =>
      match range[i]? with
      | none => .error (.panic "index out of bounds")
      | some e => .ok (some (e.offset, e.len))

/-- `lookup` with the given searches of slices. -/
def lookupBy (S : SliceSearch PackEntry) (idx : PackIndex) (id : ObjectId) :
    Result (Option (ℕ × ℕ)) :=
  let fanoutAt (byte : ℕ) :=
    S.partitionPoint (fun e => decide (e.id.firstByte ≤ byte)) idx.entries
  let first := id.firstByte
  let lo := if first = 0 then 0 else fanoutAt (first - 1)
  let hi := fanoutAt first
  if hi < lo then .error (.panic "slice index starts after its end")
  else if idx.entries.length < hi then .error (.panic "range end index out of range")
  else
    let range := slice idx.entries lo (hi - lo)
    found range (S.binarySearchBy (fun e => compare e.id.asBytes id.asBytes) range)

/-- Every lookup returns, and finds each id that is listed. -/
structure LookupSafe (idx : PackIndex) (look : ObjectId → Result (Option (ℕ × ℕ))) : Prop where
  returns : ∀ id, ∃ r, look id = .ok r
  finds : ∀ id ∈ idx.ids, ∃ off len, look id = .ok (some (off, len))

/-- The entries are ascending by id. -/
def Sorted (idx : PackIndex) : Prop := idx.entries.Pairwise PackEntry.Le

variable {idx : PackIndex} {id : ObjectId}

/-! ### The range -/

/-- The entries between the two partition points. -/
def bracket (idx : PackIndex) (id : ObjectId) : List PackEntry :=
  slice idx.entries (idx.window id).1 ((idx.window id).2 - (idx.window id).1)

lemma getElem?_bracket {j : ℕ} (hlo : (idx.window id).1 ≤ j) (hhi : j < (idx.window id).2) :
    (idx.bracket id)[j - (idx.window id).1]? = idx.entries[j]? := by
  rw [bracket, slice, List.getElem?_take, if_pos (by omega), List.getElem?_drop,
    Nat.add_sub_cancel' hlo]

/-- The fanout grows with the byte, on any table. -/
lemma fanoutAt_mono (idx : PackIndex) {a b : ℕ} (h : a ≤ b) : idx.fanoutAt a ≤ idx.fanoutAt b :=
  partitionPoint_mono fun e _ he => by
    have he' : e.id.firstByte ≤ a := by simpa using he
    exact decide_eq_true (he'.trans h)

lemma window_le (idx : PackIndex) (id : ObjectId) : (idx.window id).1 ≤ (idx.window id).2 := by
  rw [window]
  split_ifs
  · exact Nat.zero_le _
  · exact idx.fanoutAt_mono (Nat.sub_le _ _)

lemma lookup_eq (idx : PackIndex) (id : ObjectId) : idx.lookup id =
    found (idx.bracket id)
      (binarySearchBy (fun e => compare e.id.asBytes id.asBytes) (idx.bracket id)) := by
  have hle := window_le idx id
  simp only [lookup, bracket, window] at hle ⊢
  rw [if_neg (not_lt.mpr hle)]
  rfl

/-- **A lookup never leaves the table**, in whatever order its entries are. -/
theorem lookup_returns (idx : PackIndex) (id : ObjectId) : ∃ r, idx.lookup id = .ok r := by
  rw [lookup_eq]
  cases h : binarySearchBy (fun e => compare e.id.asBytes id.asBytes) (idx.bracket id) with
  | error i => exact ⟨none, rfl⟩
  | ok i =>
      obtain ⟨e, he, -⟩ := binarySearchBy_ok h
      exact ⟨some (e.offset, e.len), by simp only [found, he]⟩

/-- A hit is at an entry within the range. -/
lemma exists_of_lookup {off len : ℕ} (h : idx.lookup id = .ok (some (off, len))) :
    ∃ (j : ℕ) (e : PackEntry), idx.entries[j]? = some e ∧ e.id = id ∧
      (idx.window id).1 ≤ j ∧ j < (idx.window id).2 ∧
      binarySearchBy (fun e => compare e.id.asBytes id.asBytes) (idx.bracket id) =
        .ok (j - (idx.window id).1) := by
  rw [lookup_eq] at h
  cases hb : binarySearchBy (fun e => compare e.id.asBytes id.asBytes) (idx.bracket id) with
  | error i =>
      rw [hb] at h
      cases h
  | ok i =>
      obtain ⟨e, he, heq⟩ := binarySearchBy_ok hb
      have hi : i < (idx.window id).2 - (idx.window id).1 :=
        (List.getElem?_eq_some_iff.mp he).1.trans_le (List.length_take_le _ _)
      refine ⟨i + (idx.window id).1, e, ?_, ?_, Nat.le_add_left _ _, by omega, ?_⟩
      · rw [← he, ← getElem?_bracket (Nat.le_add_left _ i) (by omega), Nat.add_sub_cancel]
      · exact ObjectId.asBytes_injective (Std.LawfulEqOrd.eq_of_compare heq)
      · rw [Nat.add_sub_cancel]

/-! ### Sorted tables -/

lemma lookupSafe_of_sorted (h : idx.Sorted) : LookupSafe idx idx.lookup := by
  refine ⟨idx.lookup_returns, fun id hid => ?_⟩
  have hfound := lookup_of_sorted h id
  rwa [if_pos hid] at hfound

/-- Other searches with the same partition points. -/
lemma lookupBy_eq (S : SliceSearch PackEntry) (id : ObjectId)
    (hpoint : ∀ byte, S.partitionPoint (fun e => decide (e.id.firstByte ≤ byte)) idx.entries =
      idx.fanoutAt byte) : idx.lookupBy S id =
      found (idx.bracket id)
        (S.binarySearchBy (fun e => compare e.id.asBytes id.asBytes) (idx.bracket id)) := by
  have hle := window_le idx id
  have hhi : idx.fanoutAt id.firstByte ≤ idx.entries.length := partitionPoint_le_length _ _
  simp only [lookupBy, hpoint, bracket, window] at hle hhi ⊢
  rw [if_neg (not_lt.mpr hle), if_neg (not_lt.mpr hhi)]

/-- With the searches of the standard library this is `lookup`. -/
lemma lookupBy_std (idx : PackIndex) (id : ObjectId) :
    idx.lookupBy (.std PackEntry) id = idx.lookup id :=
  (lookupBy_eq _ id fun _ => rfl).trans (lookup_eq idx id).symm

/-- A partition point is the same for all where the first bytes are sorted. -/
lemma partitionPoint_firstByte (S : SliceSearch PackEntry) (hs : idx.ByFirstByte) (byte : ℕ) :
    S.partitionPoint (fun e => decide (e.id.firstByte ≤ byte)) idx.entries = idx.fanoutAt byte :=
  S.partitionPoint_eq (partitioned_firstByte hs byte)

/-- **Every search that keeps the contract** finds what a sorted table lists. -/
lemma lookupBy_safe_of_sorted (S : SliceSearch PackEntry) (h : idx.Sorted) :
    LookupSafe idx (idx.lookupBy S) := by
  have hordered := fun id : ObjectId => ordered_of_sorted
    ((h.sublist (List.drop_sublist (idx.window id).1 _)).sublist
      (List.take_sublist ((idx.window id).2 - (idx.window id).1) _)) id
  have hhit : ∀ id i, S.binarySearchBy (fun e => compare e.id.asBytes id.asBytes)
      (idx.bracket id) = .ok i → ∃ e : PackEntry, (idx.bracket id)[i]? = some e :=
    fun id i hi => (S.search_ok (hordered id) hi).imp fun e he => he.1
  refine ⟨fun id => ?_, fun id hid => ?_⟩
  · rw [lookupBy_eq S id (partitionPoint_firstByte S (byFirstByte_of_sorted h))]
    cases hi : S.binarySearchBy (fun e => compare e.id.asBytes id.asBytes) (idx.bracket id) with
    | error i => exact ⟨none, rfl⟩
    | ok i =>
        obtain ⟨e, he⟩ := hhit id i hi
        exact ⟨some (e.offset, e.len), by simp only [found, he]⟩
  · obtain ⟨off, len, hfound⟩ := (lookupSafe_of_sorted h).finds id hid
    obtain ⟨j, e, hj, heq, hlo, hhi, -⟩ := exists_of_lookup hfound
    rw [← getElem?_bracket hlo hhi] at hj
    rw [lookupBy_eq S id (partitionPoint_firstByte S (byFirstByte_of_sorted h))]
    cases hi : S.binarySearchBy (fun e => compare e.id.asBytes id.asBytes) (idx.bracket id) with
    | error i =>
        -- the entry would compare below or above
        have hsplit := S.search_error (hordered id) hi _ _ hj
        rw [heq, Std.ReflOrd.compare_self] at hsplit
        split_ifs at hsplit
    | ok i =>
        obtain ⟨e', he'⟩ := hhit id i hi
        exact ⟨e'.offset, e'.len, by simp only [found, he']⟩

/-! ### Tables that are not sorted -/

lemma le_of_compare_ne_gt {a b : PackEntry} (h : compare a.id.asBytes b.id.asBytes ≠ .gt) :
    a.Le b := by
  rw [PackEntry.Le]
  cases hc : compare a.id.asBytes b.id.asBytes with
  | lt => rfl
  | eq => rfl
  | gt => exact absurd hc h

lemma compare_eq_gt {a b : PackEntry} (h : ¬ a.Le b) :
    compare a.id.asBytes b.id.asBytes = .gt := by
  by_contra hne
  exact h (le_of_compare_ne_gt hne)

/-- Entries in the wrong order have first bytes in the other order. -/
lemma firstByte_of_not_le {a b : PackEntry} (h : ¬ a.Le b) :
    b.id.firstByte ≤ a.id.firstByte :=
  firstByte_mono ((Std.Total.total a b).resolve_left h)

/-- **A table without repeated ids whose ids are all found is sorted.** -/
theorem sorted_of_lookupSafe (hnodup : idx.ids.Nodup) (h : LookupSafe idx idx.lookup) :
    idx.Sorted := by
  -- each entry is found at its own place
  have hplace : ∀ (i : ℕ) (e : PackEntry), idx.entries[i]? = some e →
      (idx.window e.id).1 ≤ i ∧ i < (idx.window e.id).2 ∧
        binarySearchBy (fun x => compare x.id.asBytes e.id.asBytes) (idx.bracket e.id) =
          .ok (i - (idx.window e.id).1) := by
    intro i e hi
    have hid : e.id ∈ idx.ids := List.mem_map.mpr ⟨e, List.mem_of_getElem? hi, rfl⟩
    obtain ⟨off, len, hfound⟩ := h.finds e.id hid
    obtain ⟨j, e', hj, heq, hplaced⟩ := exists_of_lookup hfound
    have hsame : idx.ids[i]? = idx.ids[j]? := by
      rw [ids, List.getElem?_map, List.getElem?_map, hi, hj, Option.map_some, Option.map_some, heq]
    have hlt : i < idx.ids.length := by
      rw [ids, List.length_map]
      exact (List.getElem?_eq_some_iff.mp hi).1
    obtain rfl := (List.getElem?_inj hlt hnodup).mp hsame
    exact hplaced
  refine List.pairwise_iff_getElem.mpr fun j i hj hi hji => ?_
  obtain ⟨hloj, hhij, hsearchj⟩ := hplace j _ (List.getElem?_eq_getElem hj)
  obtain ⟨hloi, hhii, hsearchi⟩ := hplace i _ (List.getElem?_eq_getElem hi)
  generalize idx.entries[j] = a at *
  generalize idx.entries[i] = b at *
  by_contra hnot
  rcases Nat.lt_or_eq_of_le (firstByte_of_not_le hnot) with hbyte | hbyte
  · -- the range of the later entry ends before the range of the earlier one
    have hmono := idx.fanoutAt_mono (Nat.le_sub_one_of_lt hbyte)
    rw [window, if_neg (by omega)] at hloj
    rw [window] at hhii
    dsimp only at hloj hhii
    omega
  · have hwindow : idx.window b.id = idx.window a.id := by rw [window, window, hbyte]
    have hbracket : idx.bracket b.id = idx.bracket a.id := by rw [bracket, bracket, hwindow]
    rw [hbracket, hwindow] at hsearchi
    obtain ⟨x, -, hxa, hxb⟩ := exists_between_of_found hsearchj hsearchi (by omega)
    have hle : a.Le x := by
      rw [PackEntry.Le, Std.OrientedCmp.lt_of_gt hxa]
      rfl
    exact hnot (IsTrans.trans a x b hle (le_of_compare_ne_gt hxb))

/-- **A search that gives up** on what its contract leaves open misses an id of every table that
is not sorted. -/
theorem sorted_of_unspecified (h : LookupSafe idx (idx.lookupBy (.unspecified PackEntry))) :
    idx.Sorted := by
  have hbytes : idx.ByFirstByte := by
    refine List.pairwise_iff_getElem.mpr fun j i hj hi hji => ?_
    by_contra hlt
    have hgetj := List.getElem?_eq_getElem hj
    have hgeti := List.getElem?_eq_getElem hi
    obtain ⟨off, len, hlook⟩ := h.finds idx.entries[i].id
      (List.mem_map.mpr ⟨_, List.getElem_mem hi, rfl⟩)
    -- the upper partition point is unspecified
    have hopen : ¬ Partitioned
        (fun e : PackEntry => decide (e.id.firstByte ≤ idx.entries[i].id.firstByte)) idx.entries :=
      fun hp => hlt (by simpa using hp j i _ _ hji.le hgetj hgeti (by simp))
    have hnil : Ordered (fun e : PackEntry => compare e.id.asBytes idx.entries[i].id.asBytes) [] :=
      fun _ _ _ _ _ hx => by simp at hx
    rw [lookupBy] at hlook
    simp only [SliceSearch.unspecified, if_neg hopen, Nat.zero_sub, slice, List.take_zero,
      if_pos hnil] at hlook
    have hnone : found [] (BinarySearch.binarySearchBy
        (fun e : PackEntry => compare e.id.asBytes idx.entries[i].id.asBytes) []) = .ok none := rfl
    rw [hnone] at hlook
    split_ifs at hlook <;> cases hlook
  refine List.pairwise_iff_getElem.mpr fun j i hj hi hji => ?_
  by_contra hnot
  have hgetj := List.getElem?_eq_getElem hj
  have hgeti := List.getElem?_eq_getElem hi
  have hbyte : idx.entries[j].id.firstByte = idx.entries[i].id.firstByte :=
    le_antisymm (List.pairwise_iff_getElem.mp hbytes j i hj hi hji) (firstByte_of_not_le hnot)
  obtain ⟨-, hwindow⟩ := window_spec hbytes idx.entries[i].id
  obtain ⟨hloj, hhij⟩ := hwindow j _ hgetj hbyte
  obtain ⟨hloi, hhii⟩ := hwindow i _ hgeti rfl
  -- the range is not ordered by the comparison with the later entry
  have hopen : ¬ Ordered (fun e : PackEntry => compare e.id.asBytes idx.entries[i].id.asBytes)
      (idx.bracket idx.entries[i].id) := by
    intro ho
    have hgt : compare idx.entries[i].id.asBytes idx.entries[i].id.asBytes = .gt :=
      (ho _ _ _ _ (by omega) ((getElem?_bracket hloj hhij).trans hgetj)
        ((getElem?_bracket hloi hhii).trans hgeti)).1 (compare_eq_gt hnot)
    rw [Std.ReflOrd.compare_self] at hgt
    cases hgt
  obtain ⟨off, len, hlook⟩ := h.finds idx.entries[i].id
    (List.mem_map.mpr ⟨_, List.getElem_mem hi, rfl⟩)
  rw [lookupBy_eq _ _ (partitionPoint_firstByte _ hbytes)] at hlook
  simp only [SliceSearch.unspecified, if_neg hopen] at hlook
  cases hlook

/-! ### Accepted indexes -/

/-- **Looking up in an accepted index.**  No lookup leaves the table.  If the entries are sorted
every id that is listed is found; where no id is listed twice, only if they are.  Whatever the
searches of slices do on lists that their contract leaves open, sorted is exactly what it takes. -/
theorem lookup_safe_iff (C : Crates) (data : Bytes) : ∀ idx, parse C data = .ok idx →
    (∀ id, ∃ r, idx.lookup id = .ok r) ∧ (idx.Sorted → LookupSafe idx idx.lookup) ∧
      (idx.ids.Nodup → (LookupSafe idx idx.lookup ↔ idx.Sorted)) ∧
      ((∀ S, LookupSafe idx (idx.lookupBy S)) ↔ idx.Sorted) :=
  fun idx _ => ⟨idx.lookup_returns, lookupSafe_of_sorted,
    fun hnodup => ⟨sorted_of_lookupSafe hnodup, lookupSafe_of_sorted⟩,
    fun hall => sorted_of_unspecified (hall _), fun hs S => lookupBy_safe_of_sorted S hs⟩

/-- The ids with the last and the first of the first bytes, as they were entered. -/
def unsortedIndex : PackIndex := ⟨outermost, .replicate 7⟩

/-- The file of these entries is accepted. -/
lemma parse_unsorted :
    parse Crates.reference (unsortedIndex.encode Crates.reference) = .ok unsortedIndex :=
  parse_encode Crates.reference (by decide) (by simp [unsortedIndex, outermost])

/-- **An id that is listed is not found** in an index that is accepted. -/
theorem lookup_misses : ∃ data idx, parse Crates.reference data = .ok idx ∧
    ∃ id ∈ idx.ids, idx.lookup id = .ok none :=
  ⟨_, unsortedIndex, parse_unsorted, ⟨.replicate 255⟩, by decide, by decide⟩

/-- The same entries in order are all found. -/
theorem lookup_safe_outermost : ∃ data idx, parse Crates.reference data = .ok idx ∧
    idx.ids ≠ [] ∧ LookupSafe idx idx.lookup := by
  have hparse : parse Crates.reference ((build outermost (.replicate 7)).encode Crates.reference) =
      .ok (build outermost (.replicate 7)) :=
    parse_encode Crates.reference (by decide) fun e he => by
      have he := mem_build.mp he
      simp only [outermost, List.mem_cons, List.not_mem_nil, or_false] at he
      rcases he with rfl | rfl <;> decide
  obtain ⟨-, hsafe, -⟩ := lookup_safe_iff _ _ _ hparse
  exact ⟨_, _, hparse, by decide, hsafe (build_sorted outermost _)⟩

end PackIndex

end Bole
