import Bole.Lib.Run

/-!
Any number of calls on one shared state, each of which takes its steps one at a time, with an
environment that changes the state in between; over arbitrary states and calls.

* `Step`: a call is made, a call takes its next step, or the environment acts;
* `run_follows`: the rule for such systems.  What the steps and the environment guarantee to
  everyone is a relation between states, and what a call relies on lasts under it;
* `run_finished`: a call that is done stays as it is;
* `run_solo`, `run_turns`: the steps of one call, and a list of turns, are runs.
-/

namespace Interleave

open Transition

variable {σ κ : Type*}

/-- A shared state and the calls made on it so far. -/
structure System (σ κ : Type*) where
  shared : σ
  calls : List κ

/-- What can happen next. -/
inductive Action (κ : Type*) where
  | call (c : κ)
  | step (i : ℕ)
  | env

/-- One thing happens. -/
inductive Step (start : κ → Prop) (step : σ → κ → κ × σ) (env : σ → σ → Prop) :
    System σ κ → Action κ → System σ κ → Prop where
  | call {s : System σ κ} {c : κ} (h : start c) :
      Step start step env s (.call c) ⟨s.shared, s.calls ++ [c]⟩
  | step {s : System σ κ} {i : ℕ} {c : κ} (h : s.calls[i]? = some c) :
      Step start step env s (.step i) ⟨(step s.shared c).2, s.calls.set i (step s.shared c).1⟩
  | env {s : System σ κ} {t : σ} (h : env s.shared t) :
      Step start step env s .env ⟨t, s.calls⟩

variable {start : κ → Prop} {step : σ → κ → κ × σ} {env : σ → σ → Prop}
  {s t : System σ κ} {a : Action κ} {steps : List (System σ κ × Action κ)}

/-! ### Guarantees -/

section Guarantee

variable {Follows : σ → σ → Prop} {Sound : σ → κ → Prop}

/-- One thing happens: the guarantee is kept, and what every call relies on lasts. -/
lemma Step.follows (hrefl : ∀ x, Follows x x) (hstart : ∀ x c, start c → Sound x c)
    (hstep : ∀ x c, Sound x c → Follows x (step x c).2 ∧ Sound (step x c).2 (step x c).1)
    (henv : ∀ x y, env x y → Follows x y)
    (hmono : ∀ x y c, Follows x y → Sound x c → Sound y c)
    (hs : ∀ c ∈ s.calls, Sound s.shared c) (h : Step start step env s a t) :
    Follows s.shared t.shared ∧ ∀ c ∈ t.calls, Sound t.shared c := by
  cases h with
  | call hc =>
      refine ⟨hrefl _, fun c' hc' => ?_⟩
      rcases List.mem_append.mp hc' with hc' | hc'
      · exact hs c' hc'
      · rw [List.mem_singleton.mp hc']
        exact hstart _ _ hc
  | step hi =>
      obtain ⟨hf, hc⟩ := hstep _ _ (hs _ (List.mem_of_getElem? hi))
      refine ⟨hf, fun c' hc' => ?_⟩
      rcases List.mem_or_eq_of_mem_set hc' with hc' | rfl
      · exact hmono _ _ _ hf (hs c' hc')
      · exact hc
  | env he => exact ⟨henv _ _ he, fun c hc => hmono _ _ _ (henv _ _ he) (hs c hc)⟩

/-- **The rule for interleaved calls.** -/
theorem run_follows (hrefl : ∀ x, Follows x x)
    (htrans : ∀ x y z, Follows x y → Follows y z → Follows x z)
    (hstart : ∀ x c, start c → Sound x c)
    (hstep : ∀ x c, Sound x c → Follows x (step x c).2 ∧ Sound (step x c).2 (step x c).1)
    (henv : ∀ x y, env x y → Follows x y)
    (hmono : ∀ x y c, Follows x y → Sound x c → Sound y c)
    (hs : ∀ c ∈ s.calls, Sound s.shared c) (h : Run (Step start step env) s steps t) :
    Follows s.shared t.shared ∧ ∀ c ∈ t.calls, Sound t.shared c := by
  refine h.invariant (fun u => Follows s.shared u.shared ∧ ∀ c ∈ u.calls, Sound u.shared c)
    (fun _ _ => True) (fun u a v hu _ huv => ?_) (fun _ _ => trivial) ⟨hrefl _, hs⟩
  obtain ⟨hf, hc⟩ := huv.follows hrefl hstart hstep henv hmono hu.2
  exact ⟨htrans _ _ _ hu.1 hf, hc⟩

end Guarantee

/-! ### One call -/

/-- The state a call leaves when it takes its next step. -/
lemma Step.step_inv {i : ℕ} {c : κ} (hi : s.calls[i]? = some c)
    (h : Step start step env s (.step i) t) :
    t = ⟨(step s.shared c).2, s.calls.set i (step s.shared c).1⟩ := by
  cases h with
  | @step _ c' hc' =>
      rw [hi] at hc'
      cases hc'
      rfl

lemma getElem?_set_of_some {i : ℕ} {c c' : κ} {calls : List κ} (hi : calls[i]? = some c) :
    (calls.set i c')[i]? = some c' :=
  List.getElem?_set_self (List.getElem?_eq_some_iff.mp hi).1

/-- A call that is done stays as it is. -/
lemma Step.finished {i : ℕ} {c : κ} (hdone : ∀ x, (step x c).1 = c) (hi : s.calls[i]? = some c)
    (h : Step start step env s a t) : t.calls[i]? = some c := by
  cases h with
  | call _ =>
      exact (List.getElem?_append_left (List.getElem?_eq_some_iff.mp hi).1).trans hi
  | @step j c' hj =>
      by_cases hij : j = i
      · obtain rfl : c = c' := by simpa [hij, hi] using hj
        rw [hij, getElem?_set_of_some hi, hdone]
      · rw [List.getElem?_set_ne hij]
        exact hi
  | env _ => exact hi

/-- **A call that is done stays as it is** to the end of the run. -/
lemma run_finished {i : ℕ} {c : κ} (hdone : ∀ x, (step x c).1 = c) (hi : s.calls[i]? = some c)
    (h : Run (Step start step env) s steps t) : t.calls[i]? = some c :=
  h.invariant (fun u => u.calls[i]? = some c) (fun _ _ => True)
    (fun _ _ _ hu _ huv => huv.finished hdone hu) (fun _ _ => trivial) hi

/-! ### Schedules -/

/-- The next step of one call. -/
def turn (step : σ → κ → κ × σ) (s : System σ κ) (i : ℕ) : System σ κ :=
  match s.calls[i]? with
  | some c => ⟨(step s.shared c).2, s.calls.set i (step s.shared c).1⟩
  | none => s

lemma turn_eq {i : ℕ} {c : κ} (hi : s.calls[i]? = some c) :
    turn step s i = ⟨(step s.shared c).2, s.calls.set i (step s.shared c).1⟩ := by
  rw [turn, hi]

/-- A turn of a call that has been made is a step. -/
lemma Step.turn {i : ℕ} (hi : s.calls[i]?.isSome = true) :
    Step start step env s (.step i) (Interleave.turn step s i) := by
  obtain ⟨c, hc⟩ := Option.isSome_iff_exists.mp hi
  rw [turn_eq hc]
  exact .step hc

@[simp] lemma length_turn (s : System σ κ) (i : ℕ) :
    (turn step s i).calls.length = s.calls.length := by
  rw [turn]
  split
  · exact List.length_set
  · rfl

/-- The state after a call has taken `k` steps. -/
def solo (step : σ → κ → κ × σ) (i : ℕ) (s : System σ κ) : ℕ → System σ κ
  | 0 => s
  | k + 1 => turn step (solo step i s k) i

lemma length_solo (s : System σ κ) (i k : ℕ) :
    (solo step i s k).calls.length = s.calls.length := by
  induction k with
  | zero => rfl
  | succ k ih => rw [solo, length_turn, ih]

/-- The steps of one call are a run. -/
lemma run_solo {i : ℕ} (hi : i < s.calls.length) (k : ℕ) :
    Run (Step start step env) s
      ((List.range k).map fun j => (solo step i s j, .step i)) (solo step i s k) := by
  induction k with
  | zero => exact .nil s
  | succ k ih =>
      rw [List.range_succ, List.map_append]
      refine ih.append (.single (.turn ?_))
      rw [List.getElem?_eq_getElem (by rwa [length_solo])]
      rfl

/-- A list of turns is a run. -/
lemma run_turns (turns : List ℕ) (s : System σ κ) :
    ∃ steps, Run (Step start step env) s steps (turns.foldl (turn step) s) := by
  induction turns generalizing s with
  | nil => exact ⟨[], .nil s⟩
  | cons i rest ih =>
      obtain ⟨steps, hrun⟩ := ih (turn step s i)
      rw [List.foldl_cons]
      cases hi : s.calls[i]? with
      | none =>
          rw [turn, hi] at hrun ⊢
          exact ⟨steps, hrun⟩
      | some c =>
          rw [turn, hi] at hrun ⊢
          exact ⟨(s, .step i) :: steps, .cons (.step hi) hrun⟩

end Interleave
