import Mathlib.Tactic

/-!
Runs of a labelled transition relation, over arbitrary states and labels.

* `Run`: a finite run, which keeps every step's label with the state it was taken in;
* `Run.splitAt`, `Run.split`: a run at one of its steps;
* `Run.invariant`: what every step allowed by a condition preserves holds at the end of every
  run whose steps all meet the condition;
* `Run.simulates`: a relation that such steps keep to another transition relation carries runs over,
  with their labels.
-/

namespace Transition

variable {σ ι : Type*}

/-- A run from one state to another, with the state and the label of each step. -/
inductive Run (step : σ → ι → σ → Prop) : σ → List (σ × ι) → σ → Prop where
  | nil (s : σ) : Run step s [] s
  | cons {s t u : σ} {i : ι} {steps : List (σ × ι)} :
      step s i t → Run step t steps u → Run step s ((s, i) :: steps) u

variable {step : σ → ι → σ → Prop} {s t u : σ} {steps steps' : List (σ × ι)}

lemma Run.single {i : ι} (h : step s i t) : Run step s [(s, i)] t := .cons h (.nil t)

lemma Run.append (h : Run step s steps t) (h' : Run step t steps' u) :
    Run step s (steps ++ steps') u := by
  induction h with
  | nil _ => exact h'
  | cons hfirst _ ih => exact .cons hfirst (ih h')

/-- A run at one of its steps, with the steps before it and after it. -/
lemma Run.splitAt (h : Run step s steps t) {p : σ × ι} (hp : p ∈ steps) :
    ∃ (pre post : List (σ × ι)) (u : σ), steps = pre ++ p :: post ∧
      Run step s pre p.1 ∧ step p.1 p.2 u ∧ Run step u post t := by
  induction h with
  | nil _ => simp at hp
  | @cons s v t i steps hfirst hrest ih =>
      rcases List.mem_cons.mp hp with rfl | hp
      · exact ⟨[], steps, v, rfl, .nil _, hfirst, hrest⟩
      · obtain ⟨pre, post, u, rfl, hpre, hu, hpost⟩ := ih hp
        exact ⟨_, post, u, rfl, .cons hfirst hpre, hu, hpost⟩

/-- A run at one of its steps: what came before, the step, and what came after. -/
lemma Run.split (h : Run step s steps t) {p : σ × ι} (hp : p ∈ steps) :
    ∃ (pre post : List (σ × ι)) (u : σ),
      Run step s pre p.1 ∧ step p.1 p.2 u ∧ Run step u post t := by
  obtain ⟨pre, post, u, -, hrun⟩ := h.splitAt hp
  exact ⟨pre, post, u, hrun⟩

/-- **The invariant rule**: each allowed step preserves `Inv`, so each allowed run does. -/
theorem Run.invariant (Inv : σ → Prop) (ok : σ → ι → Prop)
    (hstep : ∀ s i t, Inv s → ok s i → step s i t → Inv t) (hrun : Run step s steps t)
    (hok : ∀ p ∈ steps, ok p.1 p.2) (hs : Inv s) : Inv t := by
  induction hrun with
  | nil s => exact hs
  | cons hfirst _ ih =>
      refine ih (fun p hp => hok p (List.mem_cons_of_mem _ hp)) ?_
      exact hstep _ _ _ hs (hok _ List.mem_cons_self) hfirst

/-- **The simulation rule**: where every step allowed by a condition is one of another relation
between related states, so is every run whose steps all meet the condition. -/
theorem Run.simulates {τ : Type*} {step' : τ → ι → τ → Prop} (R : σ → τ → Prop)
    (ok : σ → ι → Prop)
    (hstep : ∀ s i t a, R s a → ok s i → step s i t → ∃ b, step' a i b ∧ R t b)
    (hrun : Run step s steps t) (hok : ∀ p ∈ steps, ok p.1 p.2) {a : τ} (ha : R s a) :
    ∃ steps' b, Run step' a steps' b ∧ steps'.map Prod.snd = steps.map Prod.snd ∧ R t b := by
  induction hrun generalizing a with
  | nil s => exact ⟨[], a, .nil a, rfl, ha⟩
  | @cons s u t i steps hfirst hrest ih =>
      obtain ⟨b, hb, hR⟩ := hstep s i u a ha (hok _ List.mem_cons_self) hfirst
      obtain ⟨steps', c, hrun, hsame, hc⟩ := ih (fun p hp => hok p (List.mem_cons_of_mem _ hp)) hR
      exact ⟨(a, i) :: steps', c, .cons hb hrun, by simp [hsame], hc⟩

end Transition
