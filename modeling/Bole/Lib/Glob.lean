import Bole.Lib.Delimited

/-!
Globs over an arbitrary alphabet with a wildcard `star` and a separator `sep`.

* `Lang`: the strings that a pattern stands for, with one `lang_` lemma for each way a pattern
  can begin;
* `SelfSync`: an encoding of letters by words in which the beginning of a letter is seen;
* `lang_encode`: such an encoding of pattern and string changes nothing.
-/

namespace Glob

variable {α β : Type*}

/-! ### The language -/

/-- The string belongs to the pattern.  A letter stands for itself, `*` for a string without
separator, `**/` for nothing or for what ends in a separator, and any other `**` for nothing, for
what ends in a separator, or for all that is left. -/
inductive Lang (star sep : α) : List α → List α → Prop where
  | nil : Lang star sep [] []
  | letter {c : α} {p s : List α} : c ≠ star → Lang star sep p s → Lang star sep (c :: p) (c :: s)
  | segment {p u s : List α} : p.head? ≠ some star → sep ∉ u → Lang star sep p s →
      Lang star sep (star :: p) (u ++ s)
  | path {p u s : List α} : (u = [] ∨ ∃ v, u = v ++ [sep]) → Lang star sep p s →
      Lang star sep (star :: star :: sep :: p) (u ++ s)
  | rest {p u s : List α} : p.head? ≠ some sep → (u = [] ∨ (∃ v, u = v ++ [sep]) ∨ s = []) →
      Lang star sep p s → Lang star sep (star :: star :: p) (u ++ s)

variable {star sep c : α} {p s : List α}

@[simp] lemma lang_nil : Lang star sep [] s ↔ s = [] := by
  constructor
  · intro h
    cases h
    rfl
  · rintro rfl
    exact .nil

lemma lang_letter (hc : c ≠ star) :
    Lang star sep (c :: p) s ↔ ∃ t, s = c :: t ∧ Lang star sep p t := by
  constructor
  · intro h
    cases h with
    | letter _ h => exact ⟨_, rfl, h⟩
    | segment => exact absurd rfl hc
    | path => exact absurd rfl hc
    | rest => exact absurd rfl hc
  · rintro ⟨t, rfl, h⟩
    exact .letter hc h

lemma lang_segment (hp : p.head? ≠ some star) :
    Lang star sep (star :: p) s ↔ ∃ u t, s = u ++ t ∧ sep ∉ u ∧ Lang star sep p t := by
  constructor
  · intro h
    cases h with
    | letter hc _ => exact absurd rfl hc
    | segment _ hu h => exact ⟨_, _, rfl, hu, h⟩
    | path => exact absurd rfl hp
    | rest => exact absurd rfl hp
  · rintro ⟨u, t, rfl, hu, h⟩
    exact .segment hp hu h

lemma lang_path : Lang star sep (star :: star :: sep :: p) s ↔
    ∃ u t, s = u ++ t ∧ (u = [] ∨ ∃ v, u = v ++ [sep]) ∧ Lang star sep p t := by
  constructor
  · intro h
    cases h with
    | letter hc _ => exact absurd rfl hc
    | segment hp _ _ => exact absurd rfl hp
    | path hu h => exact ⟨_, _, rfl, hu, h⟩
    | rest hp _ _ => exact absurd rfl hp
  · rintro ⟨u, t, rfl, hu, h⟩
    exact .path hu h

lemma lang_rest (hp : p.head? ≠ some sep) : Lang star sep (star :: star :: p) s ↔
    ∃ u t, s = u ++ t ∧ (u = [] ∨ (∃ v, u = v ++ [sep]) ∨ t = []) ∧ Lang star sep p t := by
  constructor
  · intro h
    cases h with
    | letter hc _ => exact absurd rfl hc
    | segment hp _ _ => exact absurd rfl hp
    | path => exact absurd rfl hp
    | rest _ hu h => exact ⟨_, _, rfl, hu, h⟩
  · rintro ⟨u, t, rfl, hu, h⟩
    exact .rest hp hu h

/-- Letters without a wildcard stand for themselves. -/
lemma lang_letters {lit : List α} (hlit : star ∉ lit) :
    Lang star sep (lit ++ p) s ↔ ∃ t, s = lit ++ t ∧ Lang star sep p t := by
  induction lit generalizing s with
  | nil => simp
  | cons c lit ih =>
      rw [List.mem_cons, not_or] at hlit
      rw [List.cons_append, lang_letter fun h => hlit.1 h.symm]
      constructor
      · rintro ⟨t, rfl, h⟩
        obtain ⟨t', rfl, ht⟩ := (ih hlit.2).mp h
        exact ⟨t', rfl, ht⟩
      · rintro ⟨t, rfl, h⟩
        exact ⟨lit ++ t, rfl, (ih hlit.2).mpr ⟨t, rfl, h⟩⟩

/-- **Induction over the ways a pattern can begin.** -/
@[elab_as_elim]
theorem pattern_induction (star sep : α) {motive : List α → Prop} (nil : motive [])
    (letter : ∀ c p, c ≠ star → motive p → motive (c :: p))
    (segment : ∀ p, p.head? ≠ some star → motive p → motive (star :: p))
    (path : ∀ p, motive p → motive (star :: star :: sep :: p))
    (rest : ∀ p, p.head? ≠ some sep → motive p → motive (star :: star :: p)) (p : List α) :
    motive p := by
  induction hlen : p.length using Nat.strong_induction_on generalizing p with
  | _ n ih =>
    have hrec : ∀ q : List α, q.length < p.length → motive q := fun q hq =>
      ih q.length (hlen ▸ hq) q rfl
    match p with
    | [] => exact nil
    | c :: p =>
        by_cases hc : c = star
        · subst hc
          by_cases hp : p.head? = some c
          · obtain ⟨p, rfl⟩ := List.head?_eq_some_iff.mp hp
            by_cases hq : p.head? = some sep
            · obtain ⟨p, rfl⟩ := List.head?_eq_some_iff.mp hq
              exact path p (hrec p (by simp only [List.length_cons]; omega))
            · exact rest p hq (hrec p (by simp only [List.length_cons]; omega))
          · exact segment p hp (hrec p (by simp))
        · exact letter c p hc (hrec p (by simp))

/-! ### Encodings -/

/-- No code begins another, and a code begins with a `lead` and has no other inside. -/
structure SelfSync (enc : α → List β) (lead : β → Prop) : Prop where
  code : ∀ c, ∃ x xs, enc c = x :: xs ∧ lead x ∧ ∀ y ∈ xs, ¬ lead y
  delimited : Delimited.On (fun _ => True) enc

namespace SelfSync

variable {enc : α → List β} {lead : β → Prop}

/-- Where a lead stands, a letter begins. -/
lemma split_lead (h : SelfSync enc lead) {s : List α} {u t : List β} {x : β} (hx : lead x)
    (hs : s.flatMap enc = u ++ x :: t) :
    ∃ s₁ c s₂, s = s₁ ++ c :: s₂ ∧ u = s₁.flatMap enc ∧ x :: t = (c :: s₂).flatMap enc := by
  induction s generalizing u with
  | nil => simp at hs
  | cons d s ih =>
      obtain ⟨y, ys, hd, hy, hys⟩ := h.code d
      rw [List.flatMap_cons] at hs
      rcases List.append_eq_append_iff.mp hs with ⟨v, hv, hrest⟩ | ⟨v, hv, hrest⟩
      · -- the letter ends before the lead
        obtain ⟨s₁, c, s₂, rfl, rfl, htail⟩ := ih hrest
        exact ⟨d :: s₁, c, s₂, rfl, by rw [hv, List.flatMap_cons], htail⟩
      · cases u with
        | nil => exact ⟨[], d, s, rfl, rfl, by rw [List.flatMap_cons]; exact hs.symm⟩
        | cons z u =>
            -- the lead would stand inside the code of the letter, or right behind it
            cases v with
            | nil =>
                rw [List.nil_append] at hrest
                rw [List.append_nil] at hv
                obtain ⟨s₁, c, s₂, rfl, hnil, htail⟩ := ih (u := []) hrest.symm
                refine ⟨d :: s₁, c, s₂, rfl, ?_, htail⟩
                rw [List.flatMap_cons, ← hnil, List.append_nil, hv]
            | cons w v =>
                obtain ⟨rfl, -⟩ := List.cons_eq_cons.mp hrest
                rw [hd, List.cons_append] at hv
                obtain ⟨-, rfl⟩ := List.cons_eq_cons.mp hv
                exact absurd hx (hys x (by simp))

/-- A letter whose code is a lead alone is the only one with this lead in its code. -/
lemma eq_of_mem (h : SelfSync enc lead) {c d : α} {x : β} (hx : lead x) (hc : enc c = [x])
    (hd : x ∈ enc d) : d = c := by
  obtain ⟨y, ys, hcode, -, hys⟩ := h.code d
  rw [hcode] at hd
  rcases List.mem_cons.mp hd with rfl | hd
  · exact (h.delimited trivial trivial (x := ys) (y := [])
      (by rw [hc, hcode, List.append_nil]; rfl)).1.symm
  · exact absurd hx (hys x hd)

/-- The strings that a separator ends. -/
lemma split_letter (h : SelfSync enc lead) {s : List α} {u t : List β} {c : α} {x : β}
    (hx : lead x) (hc : enc c = [x]) (hs : s.flatMap enc = u ++ x :: t) :
    ∃ s₁ s₂, s = s₁ ++ c :: s₂ ∧ u = s₁.flatMap enc ∧ t = s₂.flatMap enc := by
  obtain ⟨s₁, d, s₂, rfl, rfl, htail⟩ := h.split_lead hx hs
  obtain ⟨y, ys, hcode, -, -⟩ := h.code d
  rw [List.flatMap_cons] at htail
  have hd : d = c := by
    refine h.eq_of_mem hx hc ?_
    rw [hcode, List.cons_append] at htail
    rw [hcode, (List.cons_eq_cons.mp htail).1]
    exact List.mem_cons_self
  subst hd
  rw [hc] at htail
  exact ⟨s₁, s₂, rfl, rfl, (List.cons_eq_cons.mp htail).2⟩

variable {star' sep' : β}

/-- The separators of the code are the code of the separators. -/
lemma mem_flatMap (h : SelfSync enc lead) {c : α} {x : β} (hx : lead x) (hc : enc c = [x])
    {s : List α} : x ∈ s.flatMap enc ↔ c ∈ s := by
  rw [List.mem_flatMap]
  constructor
  · rintro ⟨d, hd, hmem⟩
    rwa [h.eq_of_mem hx hc hmem] at hd
  · intro hmem
    exact ⟨c, hmem, by rw [hc]; exact List.mem_singleton_self x⟩

lemma flatMap_inj (h : SelfSync enc lead) {s t : List α}
    (hst : s.flatMap enc = t.flatMap enc) : s = t := by
  induction s generalizing t with
  | nil =>
      cases t with
      | nil => rfl
      | cons d t =>
          obtain ⟨y, ys, hcode, -, -⟩ := h.code d
          rw [List.flatMap_cons, hcode] at hst
          cases hst
  | cons c s ih =>
      cases t with
      | nil =>
          obtain ⟨y, ys, hcode, -, -⟩ := h.code c
          rw [List.flatMap_cons, hcode] at hst
          cases hst
      | cons d t =>
          obtain ⟨rfl, hrest⟩ := h.delimited trivial trivial hst
          rw [ih hrest]

/-- A pattern that is not empty and begins with no wildcard matches from the beginning of a
letter on. -/
lemma split_literal (h : SelfSync enc lead) {star' sep' : β} {c : α} (hc : star' ∉ enc c)
    {q : List β} {s : List α} {u t : List β} (hs : s.flatMap enc = u ++ t)
    (ht : Lang star' sep' (enc c ++ q) t) :
    ∃ s₁ s₂, s = s₁ ++ s₂ ∧ u = s₁.flatMap enc ∧ t = s₂.flatMap enc := by
  obtain ⟨t', rfl, -⟩ := (lang_letters hc).mp ht
  obtain ⟨x, xs, hcode, hx, -⟩ := h.code c
  rw [hcode, List.cons_append] at hs
  obtain ⟨s₁, d, s₂, rfl, rfl, htail⟩ := h.split_lead hx hs
  exact ⟨s₁, d :: s₂, rfl, rfl, by rw [← htail, hcode, List.cons_append]⟩

end SelfSync

section Encode

variable {enc : α → List β} {lead : β → Prop} {star' sep' : β}

/-- The first letter of a pattern is seen in its code. -/
lemma SelfSync.head?_ne (h : SelfSync enc lead) {c : α} {x : β} (hx : lead x) (hc : enc c = [x])
    {q : List α} (hq : q.head? ≠ some c) : (q.flatMap enc).head? ≠ some x := by
  cases q with
  | nil => simp
  | cons d q =>
      obtain ⟨y, ys, hcode, -, -⟩ := h.code d
      intro hy
      rw [List.flatMap_cons, hcode, List.cons_append, List.head?_cons, Option.some.injEq] at hy
      subst hy
      exact hq (congrArg some (h.eq_of_mem hx hc (by rw [hcode]; exact List.mem_cons_self)))

lemma SelfSync.lead_of_code (h : SelfSync enc lead) {c : α} {x : β} (hc : enc c = [x]) :
    lead x := by
  obtain ⟨y, ys, hcode, hy, -⟩ := h.code c
  rw [hc] at hcode
  rwa [(List.cons_eq_cons.mp hcode).1]

/-- What matches, matches in code. -/
lemma lang_flatMap (h : SelfSync enc lead) (hstar : enc star = [star']) (hsep : enc sep = [sep'])
    (hlang : Lang star sep p s) : Lang star' sep' (p.flatMap enc) (s.flatMap enc) := by
  have hxstar := h.lead_of_code hstar
  have hxsep := h.lead_of_code hsep
  induction hlang with
  | nil => exact .nil
  | @letter c p s hc _ ih =>
      have hmem : star' ∉ enc c := fun hmem => hc (h.eq_of_mem hxstar hstar hmem)
      rw [List.flatMap_cons, List.flatMap_cons]
      exact (lang_letters hmem).mpr ⟨_, rfl, ih⟩
  | @segment p u s hp hu _ ih =>
      rw [List.flatMap_cons, hstar, List.flatMap_append]
      refine .segment (h.head?_ne hxstar hstar hp) ?_ ih
      rwa [h.mem_flatMap hxsep hsep]
  | @path p u s hu _ ih =>
      simp only [List.flatMap_cons, hstar, hsep, List.flatMap_append]
      refine .path (hu.imp (fun h => by rw [h]; rfl) ?_) ih
      rintro ⟨v, rfl⟩
      exact ⟨v.flatMap enc, by simp [hsep]⟩
  | @rest p u s hp hu _ ih =>
      simp only [List.flatMap_cons, hstar, List.flatMap_append]
      refine .rest (h.head?_ne hxsep hsep hp) (hu.imp (fun h => by rw [h]; rfl) ?_) ih
      refine Or.imp ?_ fun h => by rw [h]; rfl
      rintro ⟨v, rfl⟩
      exact ⟨v.flatMap enc, by simp [hsep]⟩

/-- A prefix that ends in the code of a separator is the code of one that ends in a separator. -/
lemma SelfSync.split_sep (h : SelfSync enc lead) (hsep : enc sep = [sep']) {s : List α}
    {v t : List β} (hs : s.flatMap enc = v ++ [sep'] ++ t) :
    ∃ s₁ s₂, s = s₁ ++ [sep] ++ s₂ ∧ t = s₂.flatMap enc := by
  rw [List.append_assoc, List.singleton_append] at hs
  obtain ⟨s₁, s₂, rfl, -, rfl⟩ := h.split_letter (h.lead_of_code hsep) hsep hs
  exact ⟨s₁, s₂, by simp, rfl⟩

/-- What matches in code, matches. -/
lemma lang_of_flatMap (h : SelfSync enc lead) (hstar : enc star = [star'])
    (hsep : enc sep = [sep']) (hlang : Lang star' sep' (p.flatMap enc) (s.flatMap enc)) :
    Lang star sep p s := by
  have hxstar := h.lead_of_code hstar
  have hxsep := h.lead_of_code hsep
  induction p using pattern_induction star sep generalizing s with
  | nil =>
      rw [List.flatMap_nil, lang_nil] at hlang
      rw [lang_nil]
      exact h.flatMap_inj (by rw [hlang]; rfl)
  | letter c p hc ih =>
      have hmem : star' ∉ enc c := fun hmem => hc (h.eq_of_mem hxstar hstar hmem)
      rw [List.flatMap_cons] at hlang
      obtain ⟨t, hs, ht⟩ := (lang_letters hmem).mp hlang
      cases s with
      | nil =>
          obtain ⟨x, xs, hcode, -, -⟩ := h.code c
          rw [hcode] at hs
          cases hs
      | cons d s =>
          obtain ⟨rfl, rfl⟩ := h.delimited trivial trivial hs
          exact .letter hc (ih ht)
  | segment p hp ih =>
      rw [List.flatMap_cons, hstar] at hlang
      obtain ⟨u, t, hs, hu, ht⟩ := (lang_segment (h.head?_ne hxstar hstar hp)).mp hlang
      cases p with
      | nil =>
          obtain rfl := lang_nil.mp ht
          rw [List.append_nil] at hs
          refine (lang_segment hp).mpr ⟨s, [], (List.append_nil s).symm, ?_, .nil⟩
          rwa [← h.mem_flatMap hxsep hsep, hs]
      | cons d q =>
          -- the rest begins with a letter, so it matches from the beginning of one on
          have hmem : star' ∉ enc d := fun hmem =>
            hp (congrArg some (h.eq_of_mem hxstar hstar hmem))
          obtain ⟨s₁, s₂, rfl, rfl, rfl⟩ :=
            h.split_literal hmem hs (by rwa [List.flatMap_cons] at ht)
          refine .segment hp ?_ (ih ht)
          rwa [h.mem_flatMap hxsep hsep] at hu
  | path p ih =>
      simp only [List.flatMap_cons, hstar, hsep] at hlang
      obtain ⟨u, t, hs, hu, ht⟩ := lang_path.mp hlang
      rcases hu with rfl | ⟨v, rfl⟩
      · rw [List.nil_append] at hs
        subst hs
        exact .path (u := []) (.inl rfl) (ih ht)
      · obtain ⟨s₁, s₂, rfl, rfl⟩ := h.split_sep hsep hs
        exact .path (.inr ⟨s₁, rfl⟩) (ih ht)
  | rest p hp ih =>
      simp only [List.flatMap_cons, hstar] at hlang
      obtain ⟨u, t, hs, hu, ht⟩ := (lang_rest (h.head?_ne hxsep hsep hp)).mp hlang
      rcases hu with rfl | ⟨v, rfl⟩ | rfl
      · rw [List.nil_append] at hs
        subst hs
        exact .rest (u := []) hp (.inl rfl) (ih ht)
      · obtain ⟨s₁, s₂, rfl, rfl⟩ := h.split_sep hsep hs
        exact .rest hp (.inr (.inl ⟨s₁, rfl⟩)) (ih ht)
      · rw [← List.append_nil s]
        exact .rest hp (.inr (.inr rfl)) (ih (s := []) ht)

/-- **A pattern and a string may be encoded**: the codes match as the letters do. -/
theorem lang_encode (h : SelfSync enc lead) (hstar : enc star = [star']) (hsep : enc sep = [sep']) :
    Lang star' sep' (p.flatMap enc) (s.flatMap enc) ↔ Lang star sep p s :=
  ⟨lang_of_flatMap h hstar hsep, lang_flatMap h hstar hsep⟩

end Encode

end Glob
