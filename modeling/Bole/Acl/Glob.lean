import Bole.Acl.Rules
import Bole.Lib.Glob

/-!
The language of the globs (`src/acl/glob.rs`).

The matcher of the source remembers the pairs of suffixes that failed, by their lengths;
`memoLoop` is that matcher, and `globLoop` the one that remembers nothing.

* `globLoop_iff`: the search decides the language of the pattern;
* `memoLoop_decides`: so does the search with the memo, as long as the memo holds failures only;
* `globMatches_language`: **both give one answer**, which is that of the language over the
  characters.
-/

namespace Bole

open Glob

/-! ### The search with the memo -/

/-- `false_memo`: the lengths of pattern and path where the search has failed. -/
abbrev FalseMemo := Finset (ℕ × ℕ)

/-- A search that uses the memo; `none` means that the turns ran out. -/
abbrev MemoSearch := FalseMemo → Option (Bool × FalseMemo)

namespace MemoSearch

/-- The first search, and the second if the first fails. -/
def orElse (a b : MemoSearch) : MemoSearch := fun memo =>
  match a memo with
  | some (false, memo) => b memo
  | r => r

/-- The loops over the places where the search goes on: they end at the first hit. -/
def firstHit (f : Bytes → MemoSearch) : List Bytes → MemoSearch
  | [] => fun memo => some (false, memo)
  | t :: rest => (f t).orElse (firstHit f rest)

/-- The memo is asked first, and is told of a failure. -/
def remember (key : ℕ × ℕ) (a : MemoSearch) : MemoSearch := fun memo =>
  if key ∈ memo then some (false, memo)
  else
    match a memo with
    | some (false, memo) => some (false, insert key memo)
    | r => r

end MemoSearch

/-- `matches` inside `glob_matches`, for the given number of turns. -/
def memoLoop : ℕ → Bytes → Bytes → MemoSearch
  | 0, _, _ => fun _ => none
  | _ + 1, [], s => MemoSearch.remember (0, s.length) fun memo => some (s.isEmpty, memo)
  | fuel + 1, p :: rest, s =>
      MemoSearch.remember (rest.length + 1, s.length) <|
        if p = 42 ∧ rest.take 2 = [42, 47] then
          (memoLoop fuel (rest.drop 2) s).orElse
            (MemoSearch.firstHit (memoLoop fuel (p :: rest)) (afterSlashes s))
        else if p = 42 ∧ rest.take 1 = [42] then
          (memoLoop fuel (rest.drop 1) s).orElse
            (MemoSearch.firstHit (memoLoop fuel (rest.drop 1)) (afterSlashes s ++ [[]]))
        else if p = 42 then MemoSearch.firstHit (memoLoop fuel rest) (segmentTails s)
        else if s.head? = some p then memoLoop fuel rest s.tail
        else fun memo => some (false, memo)

/-- `glob_matches`, with the memo. -/
def memoGlobMatches (pattern path : String) : Option Bool :=
  let pat := strBytes pattern
  let s := strBytes path
  if pat.length > maxGlobLen ∨ s.length > maxGlobLen then some false
  else (memoLoop (pat.length + s.length + 1) pat s ∅).map Prod.fst

/-! ### One turn of the search -/

section Turn

variable {s t rest pat : Bytes} {p : UInt8}

lemma mem_afterSlashes : t ∈ afterSlashes s ↔ ∃ v, s = v ++ 47 :: t := by
  induction s with
  | nil => simp [afterSlashes]
  | cons c s ih =>
      have hcons : (∃ v, c :: s = v ++ 47 :: t) ↔ (c = 47 ∧ s = t) ∨ ∃ v, s = v ++ 47 :: t := by
        constructor
        · rintro ⟨v, hv⟩
          cases v with
          | nil => exact Or.inl (List.cons_eq_cons.mp hv)
          | cons d v => exact Or.inr ⟨v, (List.cons_eq_cons.mp hv).2⟩
        · rintro (⟨rfl, rfl⟩ | ⟨v, rfl⟩)
          · exact ⟨[], rfl⟩
          · exact ⟨c :: v, rfl⟩
      rw [hcons, ← ih, afterSlashes]
      split_ifs with hc
      · rw [List.mem_cons, eq_comm (a := t), and_iff_right hc]
      · rw [or_iff_right fun h => hc h.1]

lemma mem_segmentTails : t ∈ segmentTails s ↔ ∃ u, s = u ++ t ∧ 47 ∉ u := by
  induction s with
  | nil =>
      constructor
      · intro h
        exact ⟨[], by simpa [segmentTails, eq_comm] using h, by simp⟩
      · rintro ⟨u, hu, -⟩
        simp [segmentTails, (List.append_eq_nil_iff.mp hu.symm).2]
  | cons c s ih =>
      have hcons : (∃ u, c :: s = u ++ t ∧ 47 ∉ u) ↔
          t = c :: s ∨ c ≠ 47 ∧ ∃ u, s = u ++ t ∧ 47 ∉ u := by
        constructor
        · rintro ⟨u, hu, hno⟩
          cases u with
          | nil => exact Or.inl hu.symm
          | cons d u =>
              obtain ⟨rfl, hs⟩ := List.cons_eq_cons.mp hu
              rw [List.mem_cons, not_or] at hno
              exact Or.inr ⟨fun h => hno.1 h.symm, u, hs, hno.2⟩
        · rintro (rfl | ⟨hc, u, rfl, hno⟩)
          · exact ⟨[], rfl, by simp⟩
          · refine ⟨c :: u, rfl, ?_⟩
            rw [List.mem_cons, not_or]
            exact ⟨fun h => hc h.symm, hno⟩
      rw [hcons, ← ih, segmentTails, List.mem_cons]
      split_ifs with hc
      · simp [hc]
      · rw [and_iff_right hc]

/-- `**/`: the rest of the pattern here, or the whole pattern behind a separator. -/
lemma lang_path_turn : Lang 42 47 (42 :: 42 :: 47 :: pat) s ↔
    Lang 42 47 pat s ∨ ∃ t ∈ afterSlashes s, Lang 42 47 (42 :: 42 :: 47 :: pat) t := by
  constructor
  · rw [lang_path]
    rintro ⟨u, t, rfl, rfl | ⟨v, rfl⟩, h⟩
    · exact Or.inl h
    · refine Or.inr ⟨t, mem_afterSlashes.mpr ⟨v, by simp⟩, ?_⟩
      exact lang_path.mpr ⟨[], t, rfl, Or.inl rfl, h⟩
  · rintro (h | ⟨t, ht, h⟩)
    · exact lang_path.mpr ⟨[], s, rfl, Or.inl rfl, h⟩
    · obtain ⟨v, rfl⟩ := mem_afterSlashes.mp ht
      obtain ⟨u, t', rfl, hu, h⟩ := lang_path.mp h
      refine lang_path.mpr ⟨v ++ 47 :: u, t', by simp, Or.inr ?_, h⟩
      rcases hu with rfl | ⟨w, rfl⟩
      · exact ⟨v, rfl⟩
      · exact ⟨v ++ 47 :: w, by simp⟩

/-- Any other `**`: the rest of the pattern here, behind a separator, or at the end. -/
lemma lang_rest_turn (hp : pat.head? ≠ some 47) : Lang 42 47 (42 :: 42 :: pat) s ↔
    Lang 42 47 pat s ∨ ∃ t ∈ afterSlashes s ++ [[]], Lang 42 47 pat t := by
  rw [lang_rest hp]
  constructor
  · rintro ⟨u, t, rfl, rfl | ⟨v, rfl⟩ | rfl, h⟩
    · exact Or.inl h
    · exact Or.inr ⟨t, List.mem_append_left _ (mem_afterSlashes.mpr ⟨v, by simp⟩), h⟩
    · exact Or.inr ⟨[], by simp, h⟩
  · rintro (h | ⟨t, ht, h⟩)
    · exact ⟨[], s, rfl, Or.inl rfl, h⟩
    · rcases List.mem_append.mp ht with ht | ht
      · obtain ⟨v, rfl⟩ := mem_afterSlashes.mp ht
        exact ⟨v ++ [47], t, by simp, Or.inr (Or.inl ⟨v, rfl⟩), h⟩
      · obtain rfl := List.mem_singleton.mp ht
        exact ⟨s, [], by simp, Or.inr (Or.inr rfl), h⟩

/-- `*`: the rest of the pattern within the segment or at its end. -/
lemma lang_segment_turn (hp : pat.head? ≠ some 42) :
    Lang 42 47 (42 :: pat) s ↔ ∃ t ∈ segmentTails s, Lang 42 47 pat t := by
  rw [lang_segment hp]
  constructor
  · rintro ⟨u, t, rfl, hu, h⟩
    exact ⟨t, mem_segmentTails.mpr ⟨u, rfl, hu⟩, h⟩
  · rintro ⟨t, ht, h⟩
    obtain ⟨u, rfl, hu⟩ := mem_segmentTails.mp ht
    exact ⟨u, t, rfl, hu, h⟩

/-- Any other byte stands for itself. -/
lemma lang_letter_turn (hp : p ≠ 42) :
    Lang 42 47 (p :: pat) s ↔ s.head? = some p ∧ Lang 42 47 pat s.tail := by
  rw [lang_letter hp]
  cases s with
  | nil => simp
  | cons c s =>
      simp only [List.cons_eq_cons, List.head?_cons, Option.some.injEq, List.tail_cons]
      constructor
      · rintro ⟨t, ⟨rfl, rfl⟩, h⟩
        exact ⟨rfl, h⟩
      · rintro ⟨rfl, h⟩
        exact ⟨s, ⟨rfl, rfl⟩, h⟩

lemma take_two_iff : rest.take 2 = [42, 47] ↔ ∃ q, rest = 42 :: 47 :: q := by
  constructor
  · intro h
    exact ⟨rest.drop 2, by rw [← List.take_append_drop 2 rest, h]; simp⟩
  · rintro ⟨q, rfl⟩
    rfl

lemma take_one_iff : rest.take 1 = [42] ↔ ∃ q, rest = 42 :: q := by
  constructor
  · intro h
    exact ⟨rest.drop 1, by rw [← List.take_append_drop 1 rest, h]; simp⟩
  · rintro ⟨q, rfl⟩
    rfl

end Turn

/-! ### The search without the memo -/

/-- **The search decides the language**, given more turns than the two lengths. -/
theorem globLoop_iff {fuel : ℕ} {pat s : Bytes} (h : pat.length + s.length < fuel) :
    globLoop fuel pat s = true ↔ Lang 42 47 pat s := by
  induction fuel generalizing pat s with
  | zero => omega
  | succ fuel ih =>
      cases pat with
      | nil => rw [globLoop, lang_nil, List.isEmpty_iff]
      | cons p rest =>
          rw [List.length_cons] at h
          rw [globLoop]
          split_ifs with hpath hrest hstar
          · obtain ⟨rfl, htwo⟩ := hpath
            obtain ⟨q, rfl⟩ := take_two_iff.mp htwo
            simp only [List.length_cons] at h
            rw [lang_path_turn, Bool.or_eq_true, List.any_eq_true]
            refine or_congr (ih (by simp only [List.drop_succ_cons, List.drop_zero]; omega)) ?_
            refine exists_congr fun t => and_congr_right fun ht => ih ?_
            have := length_of_mem_afterSlashes ht
            simp only [List.length_cons]
            omega
          · obtain ⟨rfl, hone⟩ := hrest
            obtain ⟨q, rfl⟩ := take_one_iff.mp hone
            have hq : q.head? ≠ some 47 := by
              intro hq
              obtain ⟨q, rfl⟩ := List.head?_eq_some_iff.mp hq
              exact hpath ⟨rfl, rfl⟩
            simp only [List.length_cons] at h
            rw [lang_rest_turn hq, Bool.or_eq_true, List.any_eq_true]
            refine or_congr (ih (by simp only [List.drop_succ_cons, List.drop_zero]; omega)) ?_
            refine exists_congr fun t => and_congr_right fun ht => ih ?_
            have hlen : t.length ≤ s.length := by
              rcases List.mem_append.mp ht with ht | ht
              · exact (length_of_mem_afterSlashes ht).le
              · rw [List.mem_singleton.mp ht]
                exact Nat.zero_le _
            simp only [List.drop_succ_cons, List.drop_zero]
            omega
          · subst hstar
            have hq : rest.head? ≠ some 42 := by
              intro hq
              obtain ⟨q, rfl⟩ := List.head?_eq_some_iff.mp hq
              exact hrest ⟨rfl, rfl⟩
            rw [lang_segment_turn hq, List.any_eq_true]
            refine exists_congr fun t => and_congr_right fun ht => ih ?_
            have := length_of_mem_segmentTails ht
            omega
          · rw [lang_letter_turn hstar, Bool.and_eq_true, decide_eq_true_iff]
            exact and_congr_right fun _ => ih (by rw [List.length_tail]; omega)

/-! ### The memo -/

section Memo

variable {P S : Bytes}

/-- The memo holds failures only: a suffix of the pattern and one of the path, of the lengths in
it, do not match.  The lengths tell which suffixes these are. -/
def HoldsFailures (P S : Bytes) (memo : FalseMemo) : Prop :=
  ∀ pat s, pat <:+ P → s <:+ S → (pat.length, s.length) ∈ memo → ¬ Lang 42 47 pat s

/-- The search ends with the truth about `Q`, and adds failures only. -/
def MemoSearch.Decides (P S : Bytes) (a : MemoSearch) (Q : Prop) : Prop :=
  ∀ memo, HoldsFailures P S memo → ∃ b memo', a memo = some (b, memo') ∧ (b = true ↔ Q) ∧
    HoldsFailures P S memo'

namespace MemoSearch

variable {a b : MemoSearch} {Q R : Prop}

lemma Decides.congr (h : a.Decides P S Q) (hQ : Q ↔ R) : a.Decides P S R := by
  rwa [← propext hQ]

lemma decides_pure (P S : Bytes) (b : Bool) :
    Decides P S (fun memo => some (b, memo)) (b = true) :=
  fun memo hmemo => ⟨b, memo, rfl, Iff.rfl, hmemo⟩

lemma Decides.orElse (ha : a.Decides P S Q) (hb : b.Decides P S R) :
    (a.orElse b).Decides P S (Q ∨ R) := by
  intro memo hmemo
  obtain ⟨x, memo₁, hrun, hx, hmemo₁⟩ := ha memo hmemo
  cases x with
  | true => exact ⟨true, memo₁, by rw [MemoSearch.orElse, hrun], by simp [hx.mp rfl], hmemo₁⟩
  | false =>
      obtain ⟨y, memo₂, hrun₂, hy, hmemo₂⟩ := hb memo₁ hmemo₁
      have hQ : ¬ Q := fun hQ => Bool.false_ne_true (hx.mpr hQ)
      exact ⟨y, memo₂, by rw [MemoSearch.orElse, hrun, ← hrun₂], hy.trans (or_iff_right hQ).symm,
        hmemo₂⟩

lemma decides_firstHit {f : Bytes → MemoSearch} {F : Bytes → Prop} {ts : List Bytes}
    (h : ∀ t ∈ ts, (f t).Decides P S (F t)) : (firstHit f ts).Decides P S (∃ t ∈ ts, F t) := by
  induction ts with
  | nil => exact (decides_pure P S false).congr (by simp)
  | cons t rest ih =>
      have hrest := ih fun t' ht' => h t' (List.mem_cons_of_mem _ ht')
      exact ((h t List.mem_cons_self).orElse hrest).congr (by simp)

/-- **What is remembered is a failure.** -/
lemma Decides.remember {pat s : Bytes} (hpat : pat <:+ P) (hs : s <:+ S)
    (ha : a.Decides P S (Lang 42 47 pat s)) :
    (remember (pat.length, s.length) a).Decides P S (Lang 42 47 pat s) := by
  intro memo hmemo
  rw [MemoSearch.remember]
  split_ifs with hkey
  · exact ⟨false, memo, rfl, by simp [hmemo pat s hpat hs hkey], hmemo⟩
  · obtain ⟨x, memo₁, hrun, hx, hmemo₁⟩ := ha memo hmemo
    rw [hrun]
    cases x with
    | true => exact ⟨true, memo₁, rfl, hx, hmemo₁⟩
    | false =>
        refine ⟨false, insert (pat.length, s.length) memo₁, rfl, hx, ?_⟩
        intro pat' s' hpat' hs' hmem
        rcases Finset.mem_insert.mp hmem with heq | hmem
        · -- suffixes of the same lengths are the same
          obtain ⟨hlen, hlen'⟩ := Prod.mk.inj heq
          have hp : pat' = pat := (List.suffix_of_suffix_length_le hpat' hpat hlen.le).eq_of_length
            hlen
          have hs : s' = s := (List.suffix_of_suffix_length_le hs' hs hlen'.le).eq_of_length hlen'
          rw [hp, hs]
          exact fun hlang => Bool.false_ne_true (hx.mpr hlang)
        · exact hmemo₁ pat' s' hpat' hs' hmem

end MemoSearch

lemma suffix_of_mem_afterSlashes {s t : Bytes} (h : t ∈ afterSlashes s) : t <:+ s := by
  obtain ⟨v, rfl⟩ := mem_afterSlashes.mp h
  exact ⟨v ++ [47], by simp⟩

lemma suffix_of_mem_segmentTails {s t : Bytes} (h : t ∈ segmentTails s) : t <:+ s := by
  obtain ⟨u, rfl, -⟩ := mem_segmentTails.mp h
  exact ⟨u, rfl⟩

/-- **The search with the memo decides the language**, given more turns than the two lengths. -/
theorem memoLoop_decides {fuel : ℕ} {pat s : Bytes} (hpat : pat <:+ P) (hs : s <:+ S)
    (h : pat.length + s.length < fuel) :
    (memoLoop fuel pat s).Decides P S (Lang 42 47 pat s) := by
  induction fuel generalizing pat s with
  | zero => omega
  | succ fuel ih =>
      cases pat with
      | nil =>
          rw [memoLoop]
          refine MemoSearch.Decides.remember hpat hs ?_
          exact (MemoSearch.decides_pure P S s.isEmpty).congr (by rw [lang_nil, List.isEmpty_iff])
      | cons p rest =>
          have htail : rest <:+ P := (List.suffix_cons p rest).trans hpat
          rw [List.length_cons] at h
          rw [memoLoop]
          refine MemoSearch.Decides.remember hpat hs ?_
          split_ifs with hpath hrest hstar hhead
          · obtain ⟨rfl, htwo⟩ := hpath
            obtain ⟨q, rfl⟩ := take_two_iff.mp htwo
            simp only [List.length_cons] at h
            refine (MemoSearch.Decides.orElse ?_ ?_).congr lang_path_turn.symm
            · exact ih ((List.suffix_append [42, 47] q).trans htail) hs (by simp; omega)
            · refine MemoSearch.decides_firstHit fun t ht => ih hpat
                ((suffix_of_mem_afterSlashes ht).trans hs) ?_
              have := length_of_mem_afterSlashes ht
              simp only [List.length_cons]
              omega
          · obtain ⟨rfl, hone⟩ := hrest
            obtain ⟨q, rfl⟩ := take_one_iff.mp hone
            have hq : q.head? ≠ some 47 := by
              intro hq
              obtain ⟨q, rfl⟩ := List.head?_eq_some_iff.mp hq
              exact hpath ⟨rfl, rfl⟩
            have hsuffix : q <:+ P := (List.suffix_cons 42 q).trans htail
            simp only [List.length_cons] at h
            refine (MemoSearch.Decides.orElse ?_ ?_).congr (lang_rest_turn hq).symm
            · exact ih hsuffix hs (by simp; omega)
            · refine MemoSearch.decides_firstHit fun t ht => ih hsuffix ?_ ?_
              · rcases List.mem_append.mp ht with ht | ht
                · exact (suffix_of_mem_afterSlashes ht).trans hs
                · rw [List.mem_singleton.mp ht]
                  exact List.nil_suffix
              · have hlen : t.length ≤ s.length := by
                  rcases List.mem_append.mp ht with ht | ht
                  · exact (length_of_mem_afterSlashes ht).le
                  · rw [List.mem_singleton.mp ht]
                    exact Nat.zero_le _
                simp only [List.drop_succ_cons, List.drop_zero]
                omega
          · subst hstar
            have hq : rest.head? ≠ some 42 := by
              intro hq
              obtain ⟨q, rfl⟩ := List.head?_eq_some_iff.mp hq
              exact hrest ⟨rfl, rfl⟩
            refine (MemoSearch.decides_firstHit fun t ht => ih htail
              ((suffix_of_mem_segmentTails ht).trans hs) ?_).congr (lang_segment_turn hq).symm
            have := length_of_mem_segmentTails ht
            omega
          · refine (ih htail ((List.tail_suffix s).trans hs) ?_).congr ?_
            · rw [List.length_tail]
              omega
            · rw [lang_letter_turn hstar, and_iff_right hhead]
          · refine (MemoSearch.decides_pure P S false).congr ?_
            rw [lang_letter_turn hstar]
            simp [hhead]

end Memo

/-! ### Characters -/

/-- UTF-8 shows where a character begins. -/
lemma utf8_selfSync : SelfSync String.utf8EncodeChar UInt8.IsUTF8FirstByte where
  code c := by
    obtain ⟨x, xs, hcode⟩ : ∃ x xs, String.utf8EncodeChar c = x :: xs := by
      refine List.exists_cons_of_ne_nil fun hnil => ?_
      have hlen := String.length_utf8EncodeChar c
      rw [hnil, List.length_nil] at hlen
      exact absurd c.utf8Size_pos (by omega)
    refine ⟨x, xs, hcode, ?_, fun y hy hlead => ?_⟩
    · have hpos : 0 < (String.utf8EncodeChar c).length := by simp [hcode]
      have hfirst : (String.utf8EncodeChar c)[0].IsUTF8FirstByte :=
        UInt8.isUTF8FirstByte_getElem_utf8EncodeChar.mpr rfl
      simpa [hcode] using hfirst
    · obtain ⟨i, hi, rfl⟩ := List.mem_iff_getElem.mp hy
      have hlt : i + 1 < (String.utf8EncodeChar c).length := by simpa [hcode] using hi
      have hat : (String.utf8EncodeChar c)[i + 1].IsUTF8FirstByte := by simpa [hcode] using hlead
      have : i + 1 = 0 := UInt8.isUTF8FirstByte_getElem_utf8EncodeChar.mp hat
      omega
  delimited := by
    intro c d _ _ x y heq
    obtain rfl := utf8EncodeChar_append_inj heq
    exact ⟨rfl, List.append_cancel_left heq⟩

/-- The bytes of a path match those of a pattern as the characters do. -/
lemma lang_strBytes {pattern path : String} :
    Lang 42 47 (strBytes pattern) (strBytes path) ↔ Lang '*' '/' pattern.toList path.toList :=
  lang_encode utf8_selfSync (by decide) (by decide)

/-- Within the limit on the lengths. -/
def WithinGlobLimit (pattern path : String) : Prop :=
  (strBytes pattern).length ≤ maxGlobLen ∧ (strBytes path).length ≤ maxGlobLen

/-- A match is one of the language within the limit. -/
lemma globMatches_iff {pattern path : String} : globMatches pattern path = true ↔
    WithinGlobLimit pattern path ∧ Lang '*' '/' pattern.toList path.toList := by
  rw [globMatches, ← lang_strBytes, WithinGlobLimit]
  split_ifs with hlen
  · simp only [false_iff, not_and]
    omega
  · rw [globLoop_iff (Nat.lt_succ_self _)]
    simp only [not_or, not_lt] at hlen
    exact (and_iff_right hlen).symm

/-- **The matcher decides the language of its pattern**, and the memo changes nothing: the search
with the memo ends, with the answer of the search without it. -/
theorem globMatches_language {pattern path : String} (h : WithinGlobLimit pattern path) :
    ∃ b, memoGlobMatches pattern path = some b ∧ globMatches pattern path = b ∧
      (b = true ↔ Lang '*' '/' pattern.toList path.toList) := by
  have hplain : globMatches pattern path = true ↔ Lang '*' '/' pattern.toList path.toList := by
    rw [globMatches_iff, and_iff_right h]
  obtain ⟨b, memo, hrun, hb, -⟩ := memoLoop_decides (List.suffix_refl (strBytes pattern))
    (List.suffix_refl (strBytes path)) (Nat.lt_succ_self _) ∅ (fun _ _ _ _ hmem => by simp at hmem)
  rw [lang_strBytes] at hb
  refine ⟨b, ?_, ?_, hb⟩
  · simp only [memoGlobMatches]
    rw [if_neg (by rw [not_or, not_lt, not_lt]; exact h), hrun]
    rfl
  · rw [Bool.eq_iff_iff, hplain, hb]

/-- A pattern with two wildcards and a name that is not of one byte a character. -/
theorem globMatches_language_nested :
    memoGlobMatches "**/*.é" "a/b/c.é" = some true ∧
      Lang '*' '/' "**/*.é".toList "a/b/c.é".toList := by
  have hrun : memoGlobMatches "**/*.é" "a/b/c.é" = some true := by decide +kernel
  have hlimit : WithinGlobLimit "**/*.é" "a/b/c.é" := by
    unfold WithinGlobLimit
    decide +kernel
  obtain ⟨b, hb, -, hlang⟩ := globMatches_language hlimit
  obtain rfl : true = b := Option.some.inj (hrun.symm.trans hb)
  exact ⟨hrun, hlang.mp rfl⟩

end Bole
