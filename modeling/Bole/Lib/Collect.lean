import Mathlib.Tactic

/-!
Flattening nested directories into one ordered map, over arbitrary items, names and contents:
the loop that pops an item, opens it, inserts the files it holds and pushes the items inside
it.  A file is inserted only if its name passes a test; a later file of the same name replaces
an earlier one.

* `collect_filter`: testing the names on the way is the same as filtering the full result;
* `collect_agree`: two ways of opening items that agree wherever both succeed collect alike;
* `collect_mono`, `collect_add`: opening more items changes no result, and more fuel none;
* `collect_ne_none`: enough fuel, from a weight that covers what is inside each item;
* `collect_visits`, `mem_collect`: what is opened, and which names are in the result;
* `collect_opens`, `emits_iff`: a finite nesting is flattened whole, and what comes out of an
  item is what it holds and what comes out of the items inside it.
-/

namespace Collect

variable {ι ι' ε ε' κ υ : Type} [Ord κ] [Std.TransOrd κ] [Std.LawfulEqOrd κ]

/-- The files of one item, those with a passing name, in order. -/
def insertAll (keep : κ → Bool) (files : List (κ × υ)) (out : Std.ExtTreeMap κ υ) :
    Std.ExtTreeMap κ υ :=
  files.foldl (fun m f => if keep f.1 then m.insert f.1 f.2 else m) out

/-- The loop.  `open_` returns the files and the inner items of an item, each in order; `none`
means that the fuel ran out. -/
def collect (open_ : ι → Except ε (List (κ × υ) × List ι)) (keep : κ → Bool) :
    ℕ → List ι → Std.ExtTreeMap κ υ → Except ε (Option (Std.ExtTreeMap κ υ))
  | _, [], out => .ok (some out)
  | 0, _ :: _, _ => .ok none
  | fuel + 1, x :: stack, out =>
      match open_ x with
      | .error e => .error e
      | .ok (files, inner) =>
          collect open_ keep fuel (inner.reverse ++ stack) (insertAll keep files out)

/-- The entries of a map whose name passes. -/
def restrict (keep : κ → Bool) (m : Std.ExtTreeMap κ υ) : Std.ExtTreeMap κ υ :=
  m.filter fun k _ => keep k

lemma getElem?_restrict (keep : κ → Bool) (m : Std.ExtTreeMap κ υ) (k : κ) :
    (restrict keep m)[k]? = if keep k then m[k]? else none := by
  rw [restrict, Std.ExtTreeMap.getElem?_filter']
  cases hm : m[k]? with
  | none => simp
  | some v =>
      rw [Option.filter_some]

@[simp] lemma restrict_empty (keep : κ → Bool) :
    restrict keep (∅ : Std.ExtTreeMap κ υ) = ∅ := by
  refine Std.ExtTreeMap.ext_getElem? fun k => ?_
  rw [getElem?_restrict]
  simp

lemma insertAll_restrict (keep : κ → Bool) (files : List (κ × υ)) (out : Std.ExtTreeMap κ υ) :
    insertAll keep files (restrict keep out) =
      restrict keep (insertAll (fun _ => true) files out) := by
  induction files generalizing out with
  | nil => rfl
  | cons f rest ih =>
      have hstep : (if keep f.1 then (restrict keep out).insert f.1 f.2 else restrict keep out) =
          restrict keep (out.insert f.1 f.2) := by
        refine Std.ExtTreeMap.ext_getElem? fun k => ?_
        rw [getElem?_restrict, Std.ExtTreeMap.getElem?_insert]
        by_cases hf : keep f.1
        · rw [if_pos hf, Std.ExtTreeMap.getElem?_insert, getElem?_restrict]
          by_cases hk : compare f.1 k = .eq
          · rw [if_pos hk, if_pos hk, ← Std.LawfulEqOrd.eq_of_compare hk, if_pos hf]
          · rw [if_neg hk, if_neg hk]
        · rw [if_neg hf, getElem?_restrict]
          by_cases hk : compare f.1 k = .eq
          · rw [← Std.LawfulEqOrd.eq_of_compare hk, if_neg hf, if_neg hf]
          · rw [if_neg hk]
      have := ih (out.insert f.1 f.2)
      rw [← hstep] at this
      exact this

variable {open_ : ι → Except ε (List (κ × υ) × List ι)}

/-- **Testing the names on the way is filtering the result.** -/
theorem collect_filter (open_ : ι → Except ε (List (κ × υ) × List ι)) (keep : κ → Bool)
    (fuel : ℕ) (stack : List ι) (out : Std.ExtTreeMap κ υ) :
    collect open_ keep fuel stack (restrict keep out) =
      (collect open_ (fun _ => true) fuel stack out).map (Option.map (restrict keep)) := by
  induction fuel generalizing stack out with
  | zero => cases stack <;> rfl
  | succ n ih =>
      cases stack with
      | nil => rfl
      | cons x stack =>
          rw [collect, collect]
          cases open_ x with
          | error e => rfl
          | ok r =>
              obtain ⟨files, inner⟩ := r
              dsimp only
              rw [insertAll_restrict]
              exact ih _ _

omit [Std.LawfulEqOrd κ] in
/-- **Two ways of opening items that agree wherever both succeed collect alike.** -/
theorem collect_agree {open' : ι' → Except ε' (List (κ × υ) × List ι')} (proj : ι → ι')
    (hagree : ∀ x r r', open_ x = .ok r → open' (proj x) = .ok r' →
      r'.1 = r.1 ∧ r'.2 = r.2.map proj) {keep : κ → Bool} {fuel fuel' : ℕ} {stack : List ι}
    {out m m' : Std.ExtTreeMap κ υ} (h : collect open_ keep fuel stack out = .ok (some m))
    (h' : collect open' keep fuel' (stack.map proj) out = .ok (some m')) : m = m' := by
  induction fuel generalizing fuel' stack out with
  | zero =>
      cases stack with
      | nil =>
          cases h
          cases fuel' <;> exact Option.some.inj (Except.ok.inj h')
      | cons x stack => cases h
  | succ n ih =>
      cases stack with
      | nil =>
          cases h
          cases fuel' <;> exact Option.some.inj (Except.ok.inj h')
      | cons x stack =>
          cases fuel' with
          | zero => cases h'
          | succ n' =>
              rw [List.map_cons, collect] at h'
              rw [collect] at h
              cases hx : open_ x with
              | error e => simp [hx] at h
              | ok r =>
                  cases hx' : open' (proj x) with
                  | error e => simp [hx'] at h'
                  | ok r' =>
                      obtain ⟨h1, h2⟩ := hagree x r r' hx hx'
                      simp only [hx] at h
                      simp only [hx', h1, h2, ← List.map_reverse, ← List.map_append] at h'
                      exact ih h h'

omit [Std.LawfulEqOrd κ] in
/-- **Enough fuel**: the weight of an item exceeds that of the items inside it. -/
theorem collect_ne_none (weight : ι → ℕ)
    (hweight : ∀ x r, open_ x = .ok r → (r.2.map weight).sum < weight x) {keep : κ → Bool}
    {fuel : ℕ} {stack : List ι} {out : Std.ExtTreeMap κ υ}
    (hpos : ∀ x, 0 < weight x) (hfuel : (stack.map weight).sum ≤ fuel) :
    collect open_ keep fuel stack out ≠ .ok none := by
  induction fuel generalizing stack out with
  | zero =>
      cases stack with
      | nil => simp [collect]
      | cons x stack =>
          rw [List.map_cons, List.sum_cons] at hfuel
          have := hpos x
          omega
  | succ n ih =>
      cases stack with
      | nil => simp [collect]
      | cons x stack =>
          rw [collect]
          cases hx : open_ x with
          | error e => simp
          | ok r =>
              dsimp only
              refine ih ?_
              have hlt := hweight x r hx
              rw [List.map_cons, List.sum_cons] at hfuel
              rw [List.map_append, List.map_reverse, List.sum_append, List.sum_reverse]
              omega

omit [Std.LawfulEqOrd κ] in
/-- **Opening more items** changes no result. -/
theorem collect_mono {open' : ι → Except ε' (List (κ × υ) × List ι)}
    (hopen : ∀ x r, open_ x = .ok r → open' x = .ok r) {keep : κ → Bool} {fuel : ℕ}
    {stack : List ι} {out m : Std.ExtTreeMap κ υ}
    (h : collect open_ keep fuel stack out = .ok (some m)) :
    collect open' keep fuel stack out = .ok (some m) := by
  induction fuel generalizing stack out with
  | zero =>
      cases stack with
      | nil => exact congrArg Except.ok (Except.ok.inj h)
      | cons x stack => cases h
  | succ n ih =>
      cases stack with
      | nil => exact congrArg Except.ok (Except.ok.inj h)
      | cons x stack =>
          rw [collect] at h ⊢
          cases hx : open_ x with
          | error e => simp [hx] at h
          | ok r =>
              simp only [hx] at h
              rw [hopen x r hx]
              exact ih h

omit [Std.LawfulEqOrd κ] in
/-- More fuel changes no result. -/
theorem collect_add {keep : κ → Bool} {fuel : ℕ} {stack : List ι} {out m : Std.ExtTreeMap κ υ}
    (h : collect open_ keep fuel stack out = .ok (some m)) (k : ℕ) :
    collect open_ keep (fuel + k) stack out = .ok (some m) := by
  induction fuel generalizing stack out with
  | zero =>
      cases stack with
      | nil =>
          rw [collect] at h ⊢
          exact h
      | cons x stack => cases h
  | succ n ih =>
      cases stack with
      | nil =>
          rw [collect] at h ⊢
          exact h
      | cons x stack =>
          rw [Nat.succ_add, collect]
          rw [collect] at h
          cases hx : open_ x with
          | error e => simp [hx] at h
          | ok r =>
              simp only [hx] at h
              exact ih h

/-! ### What is opened -/

/-- The items the loop opens, from the given ones on. -/
inductive Visits (open_ : ι → Except ε (List (κ × υ) × List ι)) (roots : List ι) : ι → Prop where
  | root {x : ι} : x ∈ roots → Visits open_ roots x
  | inner {x y : ι} {r : List (κ × υ) × List ι} :
      Visits open_ roots x → open_ x = .ok r → y ∈ r.2 → Visits open_ roots y

omit [Ord κ] [Std.TransOrd κ] [Std.LawfulEqOrd κ] in
lemma Visits.mono {roots roots' : List ι} (h : ∀ x ∈ roots, Visits open_ roots' x) {x : ι}
    (hx : Visits open_ roots x) : Visits open_ roots' x := by
  induction hx with
  | root hx => exact h _ hx
  | inner _ hr hy ih => exact ih.inner hr hy

omit [Ord κ] [Std.TransOrd κ] [Std.LawfulEqOrd κ] in
/-- Popping an item that opens leaves the same items to open, but for the item itself. -/
lemma visits_pop {x y : ι} {stack : List ι} {r : List (κ × υ) × List ι} (hr : open_ x = .ok r) :
    Visits open_ (x :: stack) y ↔ y = x ∨ Visits open_ (r.2.reverse ++ stack) y := by
  constructor
  · intro hy
    induction hy with
    | root hy =>
        rcases List.mem_cons.mp hy with rfl | hy
        · exact Or.inl rfl
        · exact Or.inr (.root (List.mem_append_right _ hy))
    | inner _ hr' hz ih =>
        rcases ih with rfl | ih
        · obtain rfl : r = _ := Except.ok.inj (hr.symm.trans hr')
          exact Or.inr (.root (List.mem_append_left _ (List.mem_reverse.mpr hz)))
        · exact Or.inr (ih.inner hr' hz)
  · rintro (rfl | hy)
    · exact .root List.mem_cons_self
    · refine hy.mono fun z hz => ?_
      rcases List.mem_append.mp hz with hz | hz
      · exact .inner (.root List.mem_cons_self) hr (List.mem_reverse.mp hz)
      · exact .root (List.mem_cons_of_mem _ hz)

omit [Ord κ] [Std.TransOrd κ] [Std.LawfulEqOrd κ] in
lemma not_visits_nil {x : ι} : ¬ Visits open_ [] x := by
  intro h
  induction h with
  | root h => cases h
  | inner _ _ _ ih => exact ih

omit [Std.LawfulEqOrd κ] in
/-- **A loop that returns has opened** everything it came to. -/
theorem collect_visits {keep : κ → Bool} {fuel : ℕ} {stack : List ι}
    {out m : Std.ExtTreeMap κ υ} (h : collect open_ keep fuel stack out = .ok (some m)) {x : ι}
    (hx : Visits open_ stack x) : ∃ r, open_ x = .ok r := by
  induction fuel generalizing stack out with
  | zero =>
      cases stack with
      | nil => exact absurd hx not_visits_nil
      | cons y stack => cases h
  | succ n ih =>
      cases stack with
      | nil => exact absurd hx not_visits_nil
      | cons y stack =>
          rw [collect] at h
          cases hr : open_ y with
          | error e => simp [hr] at h
          | ok r =>
              simp only [hr] at h
              rcases (visits_pop hr).mp hx with rfl | hx
              · exact ⟨r, hr⟩
              · exact ih h hx

omit [Std.LawfulEqOrd κ] in
/-- **A loop that fails** has come to an item that does not open. -/
theorem collect_error {keep : κ → Bool} {fuel : ℕ} {stack : List ι} {out : Std.ExtTreeMap κ υ}
    {e : ε} (h : collect open_ keep fuel stack out = .error e) :
    ∃ x, Visits open_ stack x ∧ open_ x = .error e := by
  induction fuel generalizing stack out with
  | zero => cases stack <;> cases h
  | succ n ih =>
      cases stack with
      | nil => cases h
      | cons y stack =>
          rw [collect] at h
          cases hr : open_ y with
          | error e' =>
              simp only [hr, Except.error.injEq] at h
              exact ⟨y, .root List.mem_cons_self, h ▸ hr⟩
          | ok r =>
              simp only [hr] at h
              obtain ⟨x, hx, hopen⟩ := ih h
              exact ⟨x, (visits_pop hr).mpr (.inr hx), hopen⟩

lemma mem_insertAll {keep : κ → Bool} {files : List (κ × υ)} {out : Std.ExtTreeMap κ υ} {k : κ} :
    k ∈ insertAll keep files out ↔ k ∈ out ∨ keep k = true ∧ ∃ v, (k, v) ∈ files := by
  induction files generalizing out with
  | nil => simp [insertAll]
  | cons f rest ih =>
      have hstep : k ∈ insertAll keep (f :: rest) out ↔
          k ∈ insertAll keep rest (if keep f.1 then out.insert f.1 f.2 else out) := Iff.rfl
      rw [hstep, ih]
      by_cases hf : keep f.1 = true
      · rw [if_pos hf, Std.ExtTreeMap.mem_insert, Std.LawfulEqOrd.compare_eq_iff_eq]
        constructor
        · rintro ((rfl | h) | ⟨hk, v, hv⟩)
          · exact Or.inr ⟨hf, f.2, List.mem_cons_self⟩
          · exact Or.inl h
          · exact Or.inr ⟨hk, v, List.mem_cons_of_mem _ hv⟩
        · rintro (h | ⟨hk, v, hv⟩)
          · exact Or.inl (Or.inr h)
          · rcases List.mem_cons.mp hv with rfl | hv
            · exact Or.inl (Or.inl rfl)
            · exact Or.inr ⟨hk, v, hv⟩
      · rw [if_neg hf]
        refine or_congr_right (and_congr_right fun hk => exists_congr fun v => ?_)
        refine ⟨List.mem_cons_of_mem _, fun hv => (List.mem_cons.mp hv).resolve_left ?_⟩
        rintro rfl
        exact hf hk

/-- What is in the result was there before or comes from one of the files. -/
lemma getElem?_insertAll {keep : κ → Bool} {files : List (κ × υ)} {out : Std.ExtTreeMap κ υ} {k : κ}
    {v : υ} (h : (insertAll keep files out)[k]? = some v) : out[k]? = some v ∨ (k, v) ∈ files := by
  induction files generalizing out with
  | nil => exact Or.inl h
  | cons f rest ih =>
      have hstep : (insertAll keep rest (if keep f.1 then out.insert f.1 f.2 else out))[k]? =
          some v := h
      rcases ih hstep with hout | hrest
      · split_ifs at hout
        · rw [Std.ExtTreeMap.getElem?_insert] at hout
          split_ifs at hout with hk
          · obtain rfl := Std.LawfulEqOrd.eq_of_compare hk
            obtain rfl := Option.some.inj hout
            exact Or.inr List.mem_cons_self
          · exact Or.inl hout
        · exact Or.inl hout
      · exact Or.inr (List.mem_cons_of_mem _ hrest)

/-- **Which names are in the result**: those of the files of what was opened. -/
theorem mem_collect {keep : κ → Bool} {fuel : ℕ} {stack : List ι} {out m : Std.ExtTreeMap κ υ}
    (h : collect open_ keep fuel stack out = .ok (some m)) {k : κ} :
    k ∈ m ↔ k ∈ out ∨ keep k = true ∧
      ∃ x r v, Visits open_ stack x ∧ open_ x = .ok r ∧ (k, v) ∈ r.1 := by
  induction fuel generalizing stack out with
  | zero =>
      cases stack with
      | nil =>
          cases h
          simp [not_visits_nil]
      | cons y stack => cases h
  | succ n ih =>
      cases stack with
      | nil =>
          cases h
          simp [not_visits_nil]
      | cons y stack =>
          rw [collect] at h
          cases hr : open_ y with
          | error e => simp [hr] at h
          | ok r =>
              simp only [hr] at h
              rw [ih h, mem_insertAll, or_assoc, ← and_or_left]
              refine or_congr_right (and_congr_right fun _ => ?_)
              constructor
              · rintro (⟨v, hv⟩ | ⟨x, r', v, hx, hr', hv⟩)
                · exact ⟨y, r, v, .root List.mem_cons_self, hr, hv⟩
                · exact ⟨x, r', v, (visits_pop hr).mpr (Or.inr hx), hr', hv⟩
              · rintro ⟨x, r', v, hx, hr', hv⟩
                rcases (visits_pop hr).mp hx with rfl | hx
                · obtain rfl : r = r' := Except.ok.inj (hr.symm.trans hr')
                  exact Or.inl ⟨v, hv⟩
                · exact Or.inr ⟨x, r', v, hx, hr', hv⟩

/-! ### Finite nestings -/

/-- An item that opens, with everything inside it. -/
inductive OpensWhole (open_ : ι → Except ε (List (κ × υ) × List ι)) : ι → Prop where
  | intro {x : ι} {r : List (κ × υ) × List ι} : open_ x = .ok r → (∀ y ∈ r.2, OpensWhole open_ y) →
      OpensWhole open_ x

omit [Std.LawfulEqOrd κ] in
/-- An item that opens is passed on the way to the rest of the stack. -/
lemma collect_cons_opens {keep : κ → Bool} {x : ι} (hx : OpensWhole open_ x) {stack : List ι}
    (hstack : ∀ out, ∃ fuel m, collect open_ keep fuel stack out = .ok (some m))
    (out : Std.ExtTreeMap κ υ) :
    ∃ fuel m, collect open_ keep fuel (x :: stack) out = .ok (some m) := by
  induction hx generalizing stack out with
  | @intro x r hr _ ih =>
      have hinner : ∀ inner : List ι, (∀ y ∈ inner, y ∈ r.2) →
          ∀ out, ∃ fuel m, collect open_ keep fuel (inner ++ stack) out = .ok (some m) := by
        intro inner
        induction inner with
        | nil => exact fun _ => hstack
        | cons y rest ihrest =>
            intro hmem
            exact ih y (hmem y List.mem_cons_self)
              (ihrest fun z hz => hmem z (List.mem_cons_of_mem _ hz))
      obtain ⟨fuel, m, hm⟩ := hinner r.2.reverse (fun y => List.mem_reverse.mp)
        (insertAll keep r.1 out)
      refine ⟨fuel + 1, m, ?_⟩
      rw [collect, hr]
      exact hm

omit [Std.LawfulEqOrd κ] in
/-- **What opens whole is flattened**, with enough fuel. -/
theorem collect_opens (keep : κ → Bool) {stack : List ι} (h : ∀ x ∈ stack, OpensWhole open_ x)
    (out : Std.ExtTreeMap κ υ) : ∃ fuel m, collect open_ keep fuel stack out = .ok (some m) := by
  induction stack generalizing out with
  | nil => exact ⟨0, out, rfl⟩
  | cons x stack ih =>
      exact collect_cons_opens (h x List.mem_cons_self)
        (ih fun y hy => h y (List.mem_cons_of_mem _ hy)) out

/-- The file is held by the item or by something inside it. -/
def Emits (open_ : ι → Except ε (List (κ × υ) × List ι)) (x : ι) (k : κ) (v : υ) : Prop :=
  ∃ y r, Visits open_ [x] y ∧ open_ y = .ok r ∧ (k, v) ∈ r.1

omit [Ord κ] [Std.TransOrd κ] [Std.LawfulEqOrd κ] in
/-- What is opened is opened on account of one of the given items. -/
lemma visits_split {roots : List ι} {y : ι} :
    Visits open_ roots y ↔ ∃ x ∈ roots, Visits open_ [x] y := by
  constructor
  · intro h
    induction h with
    | @root x hx => exact ⟨x, hx, .root (by simp)⟩
    | inner _ hr hz ih =>
        obtain ⟨x, hx, hv⟩ := ih
        exact ⟨x, hx, hv.inner hr hz⟩
  · rintro ⟨x, hx, hv⟩
    refine hv.mono fun z hz => ?_
    rw [List.mem_singleton.mp hz]
    exact .root hx

omit [Ord κ] [Std.TransOrd κ] [Std.LawfulEqOrd κ] in
/-- **What comes out of an item** is what it holds and what comes out of the items inside. -/
theorem emits_iff {x : ι} {r : List (κ × υ) × List ι} (hr : open_ x = .ok r) {k : κ} {v : υ} :
    Emits open_ x k v ↔ (k, v) ∈ r.1 ∨ ∃ y ∈ r.2, Emits open_ y k v := by
  constructor
  · rintro ⟨y, r', hv, hr', hmem⟩
    rcases (visits_pop hr).mp hv with rfl | hv
    · obtain rfl : r = r' := Except.ok.inj (hr.symm.trans hr')
      exact Or.inl hmem
    · obtain ⟨z, hz, hv⟩ := visits_split.mp hv
      rw [List.append_nil, List.mem_reverse] at hz
      exact Or.inr ⟨z, hz, y, r', hv, hr', hmem⟩
  · rintro (hmem | ⟨z, hz, y, r', hv, hr', hmem⟩)
    · exact ⟨x, r, .root (by simp), hr, hmem⟩
    · refine ⟨y, r', (visits_pop hr).mpr (Or.inr ?_), hr', hmem⟩
      refine visits_split.mpr ⟨z, ?_, hv⟩
      rw [List.append_nil, List.mem_reverse]
      exact hz

/-- What is in the result was there before or comes out of one of the given items. -/
lemma emits_of_collect {keep : κ → Bool} {fuel : ℕ} {stack : List ι} {out m : Std.ExtTreeMap κ υ}
    (h : collect open_ keep fuel stack out = .ok (some m)) {k : κ} {v : υ}
    (hk : m[k]? = some v) : out[k]? = some v ∨ ∃ x ∈ stack, Emits open_ x k v := by
  induction fuel generalizing stack out with
  | zero =>
      cases stack with
      | nil =>
          cases h
          exact Or.inl hk
      | cons y stack => cases h
  | succ n ih =>
      cases stack with
      | nil =>
          cases h
          exact Or.inl hk
      | cons y stack =>
          rw [collect] at h
          cases hr : open_ y with
          | error e => simp [hr] at h
          | ok r =>
              simp only [hr] at h
              rcases ih h with hout | ⟨x, hx, hemits⟩
              · rcases getElem?_insertAll hout with hout | hmem
                · exact Or.inl hout
                · exact Or.inr ⟨y, by simp, (emits_iff hr).mpr (Or.inl hmem)⟩
              · rcases List.mem_append.mp hx with hx | hx
                · exact Or.inr ⟨y, by simp, (emits_iff hr).mpr
                    (Or.inr ⟨x, List.mem_reverse.mp hx, hemits⟩)⟩
                · exact Or.inr ⟨x, List.mem_cons_of_mem _ hx, hemits⟩

/-- **Where names are not used twice** the result is what comes out. -/
theorem getElem?_collect {fuel : ℕ} {x : ι} {m : Std.ExtTreeMap κ υ}
    (h : collect open_ (fun _ => true) fuel [x] ∅ = .ok (some m))
    (hfun : ∀ k v w, Emits open_ x k v → Emits open_ x k w → v = w) {k : κ} {v : υ} :
    m[k]? = some v ↔ Emits open_ x k v := by
  have hout : ∀ w, m[k]? = some w → Emits open_ x k w := by
    intro w hw
    rcases emits_of_collect h hw with hempty | ⟨y, hy, hemits⟩
    · simp at hempty
    · rwa [← List.mem_singleton.mp hy]
  refine ⟨hout v, fun hemits => ?_⟩
  obtain ⟨y, r, hv, hr, hmem⟩ := hemits
  have hk : k ∈ m := (mem_collect h).mpr (Or.inr ⟨rfl, y, r, v, hv, hr, hmem⟩)
  obtain ⟨w, hw⟩ := Option.isSome_iff_exists.mp (Std.ExtTreeMap.mem_iff_isSome_getElem?.mp hk)
  rw [hw, hfun k w v (hout w hw) ⟨y, r, hv, hr, hmem⟩]

end Collect
