import Mathlib.Tactic

/-!
The errors a fallible computation may end with, over arbitrary errors and values: a condition
on them, and the rules by which a computation keeps to it.

* `bind`, `mapError`: a sequence keeps to what both its parts keep to;
* `mapM`: a loop keeps to what its turns keep to;
* `exists_mapM`: a loop goes through exactly when each of its turns does.
-/

namespace Failure

variable {ε ε' α β : Type} {P Q : ε → Prop}

/-- Whatever error the computation ends with satisfies the condition. -/
def FailsWith (P : ε → Prop) (x : Except ε α) : Prop := ∀ e, x = .error e → P e

lemma failsWith_ok (a : α) : FailsWith P (.ok a : Except ε α) := fun _ h => nomatch h

@[simp] lemma failsWith_error {e : ε} : FailsWith P (.error e : Except ε α) ↔ P e :=
  ⟨fun h => h e rfl, fun h _ he => Except.error.inj he ▸ h⟩

lemma FailsWith.mono {x : Except ε α} (h : FailsWith P x) (hPQ : ∀ e, P e → Q e) :
    FailsWith Q x := fun e he => hPQ e (h e he)

/-- **A sequence keeps to what both its parts keep to.** -/
lemma FailsWith.bind {x : Except ε α} {f : α → Except ε β} (hx : FailsWith P x)
    (hf : ∀ a, x = .ok a → FailsWith P (f a)) : FailsWith P (x >>= f) := by
  cases x with
  | error e => exact failsWith_error.mpr (hx e rfl)
  | ok a => exact hf a rfl

/-- Changing the error changes the condition. -/
lemma FailsWith.mapError {P : ε' → Prop} {x : Except ε α} {g : ε → ε'}
    (h : FailsWith (fun e => P (g e)) x) : FailsWith P (x.mapError g) := by
  cases x with
  | error e => exact failsWith_error.mpr (h e rfl)
  | ok a => exact failsWith_ok a

/-- **A loop keeps to what its turns keep to.** -/
lemma FailsWith.mapM {f : α → Except ε β} {l : List α} (h : ∀ a ∈ l, FailsWith P (f a)) :
    FailsWith P (l.mapM f) := by
  induction l with
  | nil => exact failsWith_ok []
  | cons a l ih =>
      rw [List.mapM_cons]
      have hrest : FailsWith P (l.mapM f) := ih fun b hb => h b (List.mem_cons_of_mem a hb)
      exact (h a List.mem_cons_self).bind fun b _ =>
        hrest.bind fun bs _ => failsWith_ok (b :: bs)

/-- **A loop goes through exactly when each of its turns does.** -/
lemma exists_mapM {f : α → Except ε β} {l : List α} :
    (∃ bs, l.mapM f = .ok bs) ↔ ∀ a ∈ l, ∃ b, f a = .ok b := by
  induction l with
  | nil => exact iff_of_true ⟨[], rfl⟩ (by simp)
  | cons a l ih =>
      rw [List.forall_mem_cons, ← ih, List.mapM_cons]
      cases f a with
      | error e => simp [bind, Except.bind]
      | ok b =>
          cases l.mapM f with
          | error e => simp [bind, Except.bind]
          | ok bs => simp [bind, Except.bind, pure, Except.pure]

end Failure
