import Mathlib.Tactic

/-!
Commands that may fail, and that keep what they have done to the state when they do, over
arbitrary errors, states and results.

* `Ensures`: what holds after a command, by whether it returns or fails;
* `ensures_bind` and the lemmas beside it: the weakest precondition of every construct;
* `Ensures.mono`, `Ensures.of_ok`, `Ensures.of_error`: how it is used.
-/

namespace Command

variable {ε ε' σ α β : Type}

/-- After the command `ok` holds if it returns, and `err` if it fails. -/
def Ensures (c : EStateM ε σ α) (s : σ) (ok : α → σ → Prop) (err : ε → σ → Prop) : Prop :=
  match c.run s with
  | .ok a t => ok a t
  | .error e t => err e t

/-- A result that is there already. -/
def lift (r : Except ε α) : EStateM ε σ α :=
  match r with
  | .ok a => pure a
  | .error e => throw e

variable {c : EStateM ε σ α} {f : α → EStateM ε σ β} {s t : σ} {a : α} {e : ε}
  {ok ok' : α → σ → Prop} {err err' : ε → σ → Prop}

lemma Ensures.mono (h : Ensures c s ok err) (hok : ∀ a t, ok a t → ok' a t)
    (herr : ∀ e t, err e t → err' e t) : Ensures c s ok' err' := by
  rw [Ensures] at h ⊢
  cases hc : c.run s with
  | ok a t =>
      rw [hc] at h
      exact hok a t h
  | error e t =>
      rw [hc] at h
      exact herr e t h

lemma Ensures.of_ok (h : Ensures c s ok err) (hc : c.run s = .ok a t) : ok a t := by
  rw [Ensures, hc] at h
  exact h

lemma Ensures.of_error (h : Ensures c s ok err) (hc : c.run s = .error e t) : err e t := by
  rw [Ensures, hc] at h
  exact h

/-! ### Weakest preconditions -/

@[simp] lemma ensures_pure : Ensures (pure a : EStateM ε σ α) s ok err ↔ ok a s := Iff.rfl

@[simp] lemma ensures_throw : Ensures (throw e : EStateM ε σ α) s ok err ↔ err e s := Iff.rfl

@[simp] lemma ensures_get {ok : σ → σ → Prop} :
    Ensures (get : EStateM ε σ σ) s ok err ↔ ok s s := Iff.rfl

@[simp] lemma ensures_modify {g : σ → σ} {ok : PUnit → σ → Prop} :
    Ensures (modify g : EStateM ε σ PUnit) s ok err ↔ ok ⟨⟩ (g s) := Iff.rfl

@[simp] lemma ensures_lift {r : Except ε α} :
    Ensures (lift r) s ok err ↔ (∀ a, r = .ok a → ok a s) ∧ ∀ e, r = .error e → err e s := by
  cases r with
  | ok a => simp [lift]
  | error e => simp [lift]

@[simp] lemma ensures_bind {ok : β → σ → Prop} :
    Ensures (c >>= f) s ok err ↔ Ensures c s (fun a t => Ensures (f a) t ok err) err := by
  simp only [Ensures, EStateM.run, bind, EStateM.bind]
  cases c s with
  | ok a t => exact Iff.rfl
  | error e t => exact Iff.rfl

@[simp] lemma ensures_adaptExcept {g : ε → ε'} {err : ε' → σ → Prop} :
    Ensures (c.adaptExcept g) s ok err ↔ Ensures c s ok fun e t => err (g e) t := by
  simp only [Ensures, EStateM.run, EStateM.adaptExcept]
  cases c s with
  | ok a t => exact Iff.rfl
  | error e t => exact Iff.rfl

end Command
