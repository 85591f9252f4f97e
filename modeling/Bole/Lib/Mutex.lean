import Bole.Lib.Interleave

/-!
Calls that do their work one at a time, under a lock, while the environment may still act; over
arbitrary states and calls.

* `Call`, `step`: a call waits for the lock, does its work in steps while it holds it, and gives
  it back with its result;
* `run_exclusive`: the rule for such systems.  What the call inside knows has to last under the
  environment only, for no other call gets in;
* `alone`: a call that nobody disturbs.
-/

namespace Mutex

open Interleave Transition

variable {σ κ ρ : Type*}

/-- A state and whether the lock that guards it is held. -/
structure Guarded (σ : Type*) where
  held : Bool
  state : σ

/-- Where a call is. -/
inductive Call (κ ρ : Type*) where
  | waiting (c : κ)
  | inside (c : κ)
  | done (result : ρ)

def Call.isInside : Call κ ρ → Bool
  | .inside _ => true
  | _ => false

/-- The next step of a call; the work goes on, or ends with a result. -/
def step (body : σ → κ → (κ ⊕ ρ) × σ) (s : Guarded σ) : Call κ ρ → Call κ ρ × Guarded σ
  | .waiting c => if s.held then (.waiting c, s) else (.inside c, ⟨true, s.state⟩)
  | .inside c =>
      match body s.state c with
      | (.inl c', t) => (.inside c', ⟨true, t⟩)
      | (.inr result, t) => (.done result, ⟨false, t⟩)
  | .done result => (.done result, s)

/-- A call that has just been made. -/
def Fresh (start : κ → Prop) (c : Call κ ρ) : Prop := ∃ k, start k ∧ c = .waiting k

/-- The environment leaves the lock alone. -/
def Env (env : σ → σ → Prop) (s t : Guarded σ) : Prop := t.held = s.held ∧ env s.state t.state

variable {body : σ → κ → (κ ⊕ ρ) × σ} {start : κ → Prop} {env : σ → σ → Prop} {Inv : σ → Prop}
  {Sound : σ → κ → Prop} {s t : System (Guarded σ) (Call κ ρ)} {a : Action (Call κ ρ)}
  {steps : List (System (Guarded σ) (Call κ ρ) × Action (Call κ ρ))}

/-! ### One call inside -/

/-- The lock is held by the one call inside, which knows what it relies on. -/
structure Exclusive (start : κ → Prop) (Inv : σ → Prop) (Sound : σ → κ → Prop)
    (s : System (Guarded σ) (Call κ ρ)) : Prop where
  inv : Inv s.shared.state
  one : s.calls.countP Call.isInside = s.shared.held.toNat
  started : ∀ c, .waiting c ∈ s.calls → start c
  sound : ∀ c, .inside c ∈ s.calls → Sound s.shared.state c

/-- Before any call is made. -/
lemma exclusive_nil (hcalls : s.calls = []) (hfree : s.shared.held = false)
    (hinv : Inv s.shared.state) : Exclusive start Inv Sound s where
  inv := hinv
  one := by simp [hcalls, hfree]
  started := by simp [hcalls]
  sound := by simp [hcalls]

/-- The number of calls inside after a step. -/
lemma countP_set_of_some {calls : List (Call κ ρ)} {i : ℕ} {c d : Call κ ρ}
    (hi : calls[i]? = some c) :
    (calls.set i d).countP Call.isInside + c.isInside.toNat =
      calls.countP Call.isInside + d.isInside.toNat := by
  obtain ⟨hlt, rfl⟩ := List.getElem?_eq_some_iff.mp hi
  have hpos : calls[i].isInside = true → 0 < calls.countP Call.isInside :=
    fun h => List.countP_pos_iff.mpr ⟨_, List.getElem_mem hlt, h⟩
  rw [List.countP_set hlt]
  cases hc : calls[i].isInside with
  | false => cases d.isInside <;> simp
  | true =>
      have := hpos hc
      cases d.isInside <;> simp <;> omega

/-- Where no other call is inside, only the call that has moved can be. -/
lemma inside_set {calls : List (Call κ ρ)} {i : ℕ} {c d : Call κ ρ} {k : κ}
    (hi : calls[i]? = some c) (hone : calls.countP Call.isInside = c.isInside.toNat)
    (hk : .inside k ∈ calls.set i d) : d = .inside k := by
  obtain ⟨j, hj⟩ := List.getElem?_of_mem hk
  by_cases hij : i = j
  · subst hij
    rw [getElem?_set_of_some hi] at hj
    exact Option.some.inj hj
  -- with a waiting call in its place nobody is inside
  · have hnone := countP_set_of_some (d := .waiting k) hi
    rw [hone] at hnone
    have hzero : (calls.set i (.waiting k)).countP Call.isInside = 0 := by
      simpa [Call.isInside] using hnone
    have hmem : .inside k ∈ calls.set i (.waiting k) := by
      rw [List.getElem?_set_ne hij] at hj
      refine List.mem_of_getElem? (i := j) ?_
      rw [List.getElem?_set_ne hij]
      exact hj
    exact absurd rfl (List.countP_eq_zero.mp hzero _ hmem)

/-- What is waiting after a step was waiting before it, or is the call that has moved. -/
lemma waiting_set {calls : List (Call κ ρ)} {i : ℕ} {d : Call κ ρ} {k : κ}
    (hk : .waiting k ∈ calls.set i d) : .waiting k ∈ calls ∨ d = .waiting k := by
  rcases List.mem_or_eq_of_mem_set hk with h | h
  · exact .inl h
  · exact .inr h.symm

/-- A step of one call. -/
lemma Exclusive.call_step (hs : Exclusive start Inv Sound s)
    (hbegin : ∀ x c, start c → Inv x → Sound x c)
    (hbody : ∀ x c, Inv x → Sound x c → Inv (body x c).2 ∧
      ∀ c', (body x c).1 = .inl c' → Sound (body x c).2 c')
    {i : ℕ} {c : Call κ ρ} (hi : s.calls[i]? = some c) :
    Exclusive start Inv Sound
      ⟨(step body s.shared c).2, s.calls.set i (step body s.shared c).1⟩ := by
  have hmem : c ∈ s.calls := List.mem_of_getElem? hi
  have hself : ∀ d, s.calls[i]? = some d → s.calls.set i d = s.calls := fun d hd => by
    obtain ⟨hlt, rfl⟩ := List.getElem?_eq_some_iff.mp hd
    exact List.set_getElem_self hlt
  cases c with
  | waiting k =>
      cases hheld : s.shared.held with
      | true =>
          rw [step, if_pos hheld, hself _ hi]
          exact hs
      | false =>
          have hcount := countP_set_of_some (d := .inside k) hi
          have hone : s.calls.countP Call.isInside = 0 := by simpa [hheld] using hs.one
          rw [step, if_neg (by simp [hheld])]
          refine ⟨hs.inv, ?_, fun k' hk' => ?_, fun k' hk' => ?_⟩
          · simpa [Call.isInside, hone] using hcount
          · rcases waiting_set hk' with h | h
            · exact hs.started k' h
            · cases h
          · cases inside_set hi hone hk'
            exact hbegin _ _ (hs.started k hmem) hs.inv
  | inside k =>
      have hpos : 0 < s.calls.countP Call.isInside := List.countP_pos_iff.mpr ⟨_, hmem, rfl⟩
      have hone : s.calls.countP Call.isInside = 1 := by
        have := hs.one
        have := s.shared.held.toNat_le
        omega
      obtain ⟨hinv, hsound⟩ := hbody _ _ hs.inv (hs.sound k hmem)
      rw [step]
      cases hb : body s.shared.state k with
      | mk next state =>
          rw [hb] at hinv hsound
          cases next with
          | inl k' =>
              have hcount := countP_set_of_some (d := .inside k') hi
              refine ⟨hinv, ?_, fun k'' hk'' => ?_, fun k'' hk'' => ?_⟩
              · simpa [Call.isInside, hone] using hcount
              · rcases waiting_set hk'' with h | h
                · exact hs.started k'' h
                · cases h
              · cases inside_set hi hone hk''
                exact hsound k' rfl
          | inr result =>
              have hcount := countP_set_of_some (d := .done result) hi
              refine ⟨hinv, ?_, fun k'' hk'' => ?_, fun k'' hk'' => ?_⟩
              · simpa [Call.isInside, hone] using hcount
              · rcases waiting_set hk'' with h | h
                · exact hs.started k'' h
                · cases h
              · cases inside_set hi hone hk''
  | done result =>
      rw [step, hself _ hi]
      exact hs

/-- One thing happens. -/
lemma Exclusive.step (hs : Exclusive start Inv Sound s)
    (hbegin : ∀ x c, start c → Inv x → Sound x c)
    (hbody : ∀ x c, Inv x → Sound x c → Inv (body x c).2 ∧
      ∀ c', (body x c).1 = .inl c' → Sound (body x c).2 c')
    (henv : ∀ x y, env x y → Inv x → Inv y ∧ ∀ c, Sound x c → Sound y c)
    (h : Interleave.Step (Fresh start) (Mutex.step body) (Env env) s a t) :
    Exclusive start Inv Sound t := by
  cases h with
  | call hfresh =>
      obtain ⟨k, hk, rfl⟩ := hfresh
      refine ⟨hs.inv, ?_, fun c hc => ?_, fun c hc => ?_⟩
      · simpa [List.countP_append, Call.isInside] using hs.one
      · rcases List.mem_append.mp hc with hc | hc
        · exact hs.started c hc
        · cases List.mem_singleton.mp hc
          exact hk
      · rcases List.mem_append.mp hc with hc | hc
        · exact hs.sound c hc
        · cases List.mem_singleton.mp hc
  | step hi => exact hs.call_step hbegin hbody hi
  | env he =>
      obtain ⟨hheld, he⟩ := he
      obtain ⟨hinv, hsound⟩ := henv _ _ he hs.inv
      refine ⟨hinv, ?_, hs.started, fun c hc => hsound c (hs.sound c hc)⟩
      rw [hheld]
      exact hs.one

/-- **The rule for calls under a lock.** -/
theorem run_exclusive (hbegin : ∀ x c, start c → Inv x → Sound x c)
    (hbody : ∀ x c, Inv x → Sound x c → Inv (body x c).2 ∧
      ∀ c', (body x c).1 = .inl c' → Sound (body x c).2 c')
    (henv : ∀ x y, env x y → Inv x → Inv y ∧ ∀ c, Sound x c → Sound y c)
    (hs : Exclusive start Inv Sound s)
    (h : Run (Interleave.Step (Fresh start) (Mutex.step body) (Env env)) s steps t) :
    Exclusive start Inv Sound t :=
  h.invariant (Exclusive start Inv Sound) (fun _ _ => True)
    (fun _ _ _ hu _ huv => hu.step hbegin hbody henv huv) (fun _ _ => trivial) hs

/-! ### A call that nobody disturbs -/

/-- The work of a call from one of its steps, `n` steps long or to its end. -/
def alone (body : σ → κ → (κ ⊕ ρ) × σ) : ℕ → σ → κ → (κ ⊕ ρ) × σ
  | 0, s, c => (.inl c, s)
  | n + 1, s, c =>
      match body s c with
      | (.inl c', t) => alone body n t c'
      | (.inr result, t) => (.inr result, t)

end Mutex
