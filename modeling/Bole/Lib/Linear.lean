import Bole.Lib.Interleave

/-!
Interleaved calls that take effect at one of their steps, over arbitrary states, requests and
outcomes.

A call carries its request, and from one of its steps on the outcome it will return.  The calls
are compared with a sequential meaning `perform` of the requests on a view of the system.

* `Serial`: calls performed whole, one after another, with the outcomes they have;
* `Linearized`: the calls that have an outcome, in an order in which they are serial;
* `run_linearized`: the rule for linearization points.  Where each step of a run leaves the view
  and the outcomes alone, or gives the call that takes it the outcome and the view that
  `perform` gives, the calls of every state reached are linearized, in an order that keeps to
  the time at which they were made.
-/

namespace Interleave

open Transition

variable {σ κ ρ ο υ : Type*}

/-- What is compared: the request and the outcome of a call, the sequential meaning of a
request, and the view of a system that it is about. -/
structure Reading (σ κ ρ ο υ : Type*) where
  request : κ → ρ
  outcome : κ → Option ο
  perform : ρ → υ → ο × υ
  view : System σ κ → υ

variable (R : Reading σ κ ρ ο υ)

/-- The calls at the given places, performed whole one after another, return the outcomes that
they have. -/
inductive Serial (calls : List κ) : υ → List ℕ → υ → Prop where
  | nil (v : υ) : Serial calls v [] v
  | cons {v w x : υ} {i : ℕ} {order : List ℕ} {c : κ} {o : ο} :
      calls[i]? = some c → R.outcome c = some o → R.perform (R.request c) v = (o, w) →
      Serial calls w order x → Serial calls v (i :: order) x

/-- The calls that have an outcome, each once, in a serial order. -/
structure Linearized (v : υ) (s : System σ κ) (order : List ℕ) : Prop where
  nodup : order.Nodup
  mem_iff : ∀ i, i ∈ order ↔ ∃ c, s.calls[i]? = some c ∧ (R.outcome c).isSome = true
  serial : Serial R s.calls v order (R.view s)

variable {R} {start : κ → Prop} {step : σ → κ → κ × σ} {env : σ → σ → Prop}
  {s t : System σ κ} {v w x : υ} {order order' : List ℕ} {calls calls' : List κ}
  {steps : List (System σ κ × Action κ)}

lemma Serial.append (h : Serial R calls v order w) (h' : Serial R calls w order' x) :
    Serial R calls v (order ++ order') x := by
  induction h with
  | nil _ => exact h'
  | cons hi ho hp _ ih => exact .cons hi ho hp (ih h')

/-- Calls that keep their requests and outcomes stay serial. -/
lemma Serial.congr (h : Serial R calls v order w)
    (hsame : ∀ i ∈ order, ∀ c, calls[i]? = some c → ∃ c', calls'[i]? = some c' ∧
      R.request c' = R.request c ∧ R.outcome c' = R.outcome c) :
    Serial R calls' v order w := by
  induction h with
  | nil v => exact .nil v
  | cons hi ho hp _ ih =>
      obtain ⟨c', hi', hreq, hout⟩ := hsame _ List.mem_cons_self _ hi
      refine .cons hi' (hout.trans ho) (by rw [hreq, hp]) (ih ?_)
      exact fun j hj => hsame j (List.mem_cons_of_mem _ hj)

/-! ### Linearization points -/

/-- A step that gives no outcome and leaves the view alone. -/
lemma Linearized.silent (h : Linearized R v s order) {i : ℕ} {c c' : κ} {z : σ}
    (hi : s.calls[i]? = some c) (hreq : R.request c' = R.request c)
    (hout : R.outcome c' = R.outcome c) (hview : R.view ⟨z, s.calls.set i c'⟩ = R.view s) :
    Linearized R v ⟨z, s.calls.set i c'⟩ order := by
  have hset : ∀ (j : ℕ) (d : κ), s.calls[j]? = some d → ∃ d', (s.calls.set i c')[j]? = some d' ∧
      R.request d' = R.request d ∧ R.outcome d' = R.outcome d := by
    intro j d hj
    by_cases hij : i = j
    · obtain rfl : c = d := by simpa [← hij, hi] using hj
      exact ⟨c', hij ▸ getElem?_set_of_some hi, hreq, hout⟩
    · exact ⟨d, (List.getElem?_set_ne hij).trans hj, rfl, rfl⟩
  refine ⟨h.nodup, fun j => ?_, ?_⟩
  · rw [h.mem_iff]
    constructor
    · rintro ⟨d, hd, ho⟩
      obtain ⟨d', hd', -, ho'⟩ := hset j d hd
      exact ⟨d', hd', ho' ▸ ho⟩
    · rintro ⟨d', hd', ho'⟩
      by_cases hij : i = j
      · subst hij
        rw [getElem?_set_of_some hi] at hd'
        cases hd'
        exact ⟨c, hi, hout ▸ ho'⟩
      · exact ⟨d', (List.getElem?_set_ne hij).symm.trans hd', ho'⟩
  · rw [hview]
    exact h.serial.congr fun j _ d hd => hset j d hd

/-- A step at which a call takes effect: it comes last in the order. -/
lemma Linearized.effect (h : Linearized R v s order) {i : ℕ} {c c' : κ} {z : σ} {o : ο}
    (hi : s.calls[i]? = some c) (hreq : R.request c' = R.request c) (hnone : R.outcome c = none)
    (hout : R.outcome c' = some o)
    (hperform : R.perform (R.request c) (R.view s) = (o, R.view ⟨z, s.calls.set i c'⟩)) :
    Linearized R v ⟨z, s.calls.set i c'⟩ (order ++ [i]) := by
  have hnew : i ∉ order := by
    rw [h.mem_iff]
    rintro ⟨d, hd, ho⟩
    obtain rfl : c = d := by simpa [hi] using hd
    simp [hnone] at ho
  refine ⟨?_, fun j => ?_, ?_⟩
  · rw [List.nodup_append]
    refine ⟨h.nodup, List.nodup_singleton i, fun a ha b hb => ?_⟩
    rw [List.mem_singleton.mp hb]
    rintro rfl
    exact hnew ha
  · rw [List.mem_append, List.mem_singleton, h.mem_iff]
    by_cases hij : i = j
    · subst hij
      refine ⟨fun _ => ⟨c', getElem?_set_of_some hi, ?_⟩, fun _ => Or.inr rfl⟩
      rw [hout]
      rfl
    · show _ ↔ ∃ d, (s.calls.set i c')[j]? = some d ∧ _
      rw [List.getElem?_set_ne hij]
      simp [Ne.symm hij]
  · refine (h.serial.congr fun j hj d hd => ?_).append
      (.cons (getElem?_set_of_some hi) hout ?_ (.nil _))
    · have hij : i ≠ j := fun hij => hnew (hij ▸ hj)
      exact ⟨d, (List.getElem?_set_ne hij).trans hd, rfl, rfl⟩
    · rw [hreq, hperform]

/-- A call that is made has no outcome yet. -/
lemma Linearized.call (h : Linearized R v s order) {c : κ} (hnone : R.outcome c = none)
    (hview : R.view ⟨s.shared, s.calls ++ [c]⟩ = R.view s) :
    Linearized R v ⟨s.shared, s.calls ++ [c]⟩ order := by
  have hold : ∀ (j : ℕ) (d : κ), s.calls[j]? = some d → (s.calls ++ [c])[j]? = some d := by
    intro j d hj
    exact (List.getElem?_append_left (List.getElem?_eq_some_iff.mp hj).1).trans hj
  refine ⟨h.nodup, fun j => ?_, ?_⟩
  · rw [h.mem_iff]
    constructor
    · rintro ⟨d, hd, ho⟩
      exact ⟨d, hold j d hd, ho⟩
    · rintro ⟨d, hd, ho⟩
      rcases lt_or_ge j s.calls.length with hj | hj
      · exact ⟨d, (List.getElem?_append_left hj).symm.trans hd, ho⟩
      · have hmem : d ∈ [c] := by
          refine List.mem_of_getElem? (i := j - s.calls.length) ?_
          exact (List.getElem?_append_right hj).symm.trans hd
        obtain rfl := List.mem_singleton.mp hmem
        simp [hnone] at ho
  · rw [hview]
    exact h.serial.congr fun j _ d hd => ⟨d, hold j d hd, rfl, rfl⟩

/-- What a step of a call does to the view: nothing, or what its request does. -/
def Point (R : Reading σ κ ρ ο υ) (s : System σ κ) (c c' : κ) (t : System σ κ) : Prop :=
  R.request c' = R.request c ∧
    ((R.outcome c' = R.outcome c ∧ R.view t = R.view s) ∨
      ∃ o, R.outcome c = none ∧ R.outcome c' = some o ∧
        R.perform (R.request c) (R.view s) = (o, R.view t))

/-- Calls that have an outcome before another is made come before it. -/
lemma Linearized.idxOf_lt (h : Linearized R v s order) {i j : ℕ} {c : κ}
    (hi : s.calls[i]? = some c) (hout : (R.outcome c).isSome = true)
    (hj : s.calls.length ≤ j) (rest : List ℕ) :
    (order ++ rest).idxOf i < (order ++ rest).idxOf j := by
  have hmem : i ∈ order := (h.mem_iff i).mpr ⟨c, hi, hout⟩
  have hnew : j ∉ order := by
    rw [h.mem_iff]
    rintro ⟨d, hd, -⟩
    exact absurd (List.getElem?_eq_some_iff.mp hd).1 (by omega)
  rw [List.idxOf_append_of_mem hmem, List.idxOf_append_of_notMem hnew]
  have := List.idxOf_lt_length_iff.mpr hmem
  omega

section Rule

variable (Inv : System σ κ → Prop) (ok : System σ κ → Action κ → Prop)

/-- One thing happens: the order stays, or the call that has taken effect is added to it. -/
lemma Linearized.next (henv : ∀ x y, ¬ env x y)
    (hstart : ∀ s c, start c → Inv s → Inv ⟨s.shared, s.calls ++ [c]⟩ ∧ R.outcome c = none ∧
      R.view ⟨s.shared, s.calls ++ [c]⟩ = R.view s)
    (hstep : ∀ s i c, Inv s → ok s (.step i) → s.calls[i]? = some c →
      Inv ⟨(step s.shared c).2, s.calls.set i (step s.shared c).1⟩ ∧
        Point R s c (step s.shared c).1
          ⟨(step s.shared c).2, s.calls.set i (step s.shared c).1⟩)
    {a : Action κ} (hs : Inv s) (hok : ok s a) (h : Linearized R v s order)
    (hst : Step start step env s a t) : Inv t ∧ ∃ rest, Linearized R v t (order ++ rest) := by
  cases hst with
  | call hc =>
      obtain ⟨hinv, hnone, hview⟩ := hstart s _ hc hs
      exact ⟨hinv, [], by simpa using h.call hnone hview⟩
  | step hi =>
      obtain ⟨hinv, hreq, hpoint⟩ := hstep s _ _ hs hok hi
      refine ⟨hinv, ?_⟩
      rcases hpoint with ⟨hout, hview⟩ | ⟨o, hnone, hout, hperform⟩
      · exact ⟨[], by simpa using h.silent hi hreq hout hview⟩
      · exact ⟨_, h.effect hi hreq hnone hout hperform⟩
  | env he => exact absurd he (henv _ _)

/-- **The rule for linearization points.**  The order is one in which the calls that have an
outcome come before those made later. -/
theorem run_linearized (henv : ∀ x y, ¬ env x y)
    (hstart : ∀ s c, start c → Inv s → Inv ⟨s.shared, s.calls ++ [c]⟩ ∧ R.outcome c = none ∧
      R.view ⟨s.shared, s.calls ++ [c]⟩ = R.view s)
    (hstep : ∀ s i c, Inv s → ok s (.step i) → s.calls[i]? = some c →
      Inv ⟨(step s.shared c).2, s.calls.set i (step s.shared c).1⟩ ∧
        Point R s c (step s.shared c).1
          ⟨(step s.shared c).2, s.calls.set i (step s.shared c).1⟩)
    (hs : Inv s) (h : Linearized R v s order)
    (hrun : Run (Step start step env) s steps t) (hok : ∀ p ∈ steps, ok p.1 p.2) :
    Inv t ∧ ∃ rest, Linearized R v t (order ++ rest) ∧
      ∀ p ∈ steps, ∀ i j c, p.1.calls[i]? = some c → (R.outcome c).isSome = true →
        p.1.calls.length ≤ j → (order ++ rest).idxOf i < (order ++ rest).idxOf j := by
  induction hrun generalizing order with
  | nil s => exact ⟨hs, [], by simpa using h, by simp⟩
  | @cons s u t a steps hfirst _ ih =>
      obtain ⟨hu, added, hlin⟩ :=
        h.next Inv ok henv hstart hstep hs (hok _ List.mem_cons_self) hfirst
      obtain ⟨ht, rest, hrest, hbefore⟩ :=
        ih hu hlin fun p hp => hok p (List.mem_cons_of_mem _ hp)
      rw [List.append_assoc] at hrest hbefore
      refine ⟨ht, added ++ rest, hrest, fun p hp i j c hi hout hj => ?_⟩
      rcases List.mem_cons.mp hp with rfl | hp
      · exact h.idxOf_lt hi hout hj _
      · exact hbefore p hp i j c hi hout hj

end Rule

/-- A system without calls. -/
lemma Linearized.empty (hempty : s.calls = []) : Linearized R (R.view s) s [] :=
  ⟨List.nodup_nil, by simp [hempty], .nil _⟩

/-- When every call has an outcome, the order is one of all the calls. -/
lemma Linearized.perm (h : Linearized R v s order)
    (hall : ∀ c ∈ s.calls, (R.outcome c).isSome = true) :
    order.Perm (List.range s.calls.length) := by
  rw [List.perm_ext_iff_of_nodup h.nodup List.nodup_range]
  intro i
  rw [h.mem_iff, List.mem_range]
  constructor
  · rintro ⟨c, hc, -⟩
    exact (List.getElem?_eq_some_iff.mp hc).1
  · intro hi
    exact ⟨s.calls[i], List.getElem?_eq_getElem hi, hall _ (List.getElem_mem hi)⟩

end Interleave
