import Mathlib

/-!
A party that talks to another one over a connection, keeps a state of its own, and may stop with
an error.

Nothing is known about the other party.  What it says next, and whether it still takes a message,
depends on what it has been told and on how often it has spoken, in any way at all.

* `Session`: such a party, as a monad with `recv`, `send`, steps on the state and failure;
* `served`: another session as the other party;
* `Keeps.bind`: what the parts of a session keep of the state, the session keeps;
* `Gives.bind`: what the last part of a session returns, the session returns;
* `Leads.after`, `Leads.before`: a session with one step that changes the state;
* `Tells.bind`, `Tells.ask_bind`: what all messages of a session are like;
* `Says.after`, `Says.act_bind`: the same of a session that changes the state on its way.
-/

namespace Talk

universe u v w

variable {σ : Type u} {μ : Type v} {ε : Type w} {α β : Type}

/-- The other end of a connection: its next message, and whether it takes one. -/
structure Peer (μ : Type v) (ε : Type w) where
  recv : List μ → ℕ → Except ε μ
  send : List μ → μ → Except ε Unit

/-- How far a session has come: the state, the messages sent and the number received. -/
structure Stage (σ : Type u) (μ : Type v) where
  world : σ
  sent : List μ
  received : ℕ

/-- A session from nothing said. -/
def Stage.start (world : σ) : Stage σ μ := ⟨world, [], 0⟩

/-- A session: what it returns and how far it has come, against a given peer. -/
def Session (σ : Type u) (μ : Type v) (ε : Type w) (α : Type*) :=
  Peer μ ε → Stage σ μ → Except ε α × Stage σ μ

namespace Session

/-- The session that returns a value at once. -/
def ret {α : Type*} (a : α) : Session σ μ ε α := fun _ s => (.ok a, s)

/-- One session after another. -/
def andThen {α β : Type*} (m : Session σ μ ε α) (f : α → Session σ μ ε β) : Session σ μ ε β :=
  fun peer s =>
    match m peer s with
    | (.ok a, s) => f a peer s
    | (.error e, s) => (.error e, s)

instance : Monad (Session σ μ ε) where
  pure := ret
  bind := andThen

/-- Waits for a message. -/
def recv {σ : Type u} {μ : Type v} {ε : Type w} : Session σ μ ε μ :=
  fun peer s => (peer.recv s.sent s.received, { s with received := s.received + 1 })

/-- Sends a message. -/
def send (m : μ) : Session σ μ ε Unit := fun peer s =>
  match peer.send s.sent m with
  | .ok () => (.ok (), { s with sent := s.sent ++ [m] })
  | .error e => (.error e, s)

/-- Stops. -/
def fail {α : Type*} (e : ε) : Session σ μ ε α := fun _ s => (.error e, s)

/-- Looks at the state. -/
def ask {α : Type*} (f : σ → Except ε α) : Session σ μ ε α := fun _ s => (f s.world, s)

/-- A step on the state. -/
def act {α : Type*} (f : σ → Except ε α × σ) : Session σ μ ε α := fun _ s =>
  ((f s.world).1, { s with world := (f s.world).2 })

variable {I : σ → Prop} {peer : Peer μ ε} {s : Stage σ μ}

@[simp] lemma bind_apply (m : Session σ μ ε α) (f : α → Session σ μ ε β) :
    (m >>= f) peer s = match m peer s with
      | (.ok a, s) => f a peer s
      | (.error e, s) => (.error e, s) := rfl

/-! ### Two sessions -/

/-- A peer that reads out a list of messages and then fails. -/
def scripted (closed : ε) (script : List μ) : Peer μ ε where
  recv _ n :=
    match script[n]? with
    | some m => .ok m
    | none => .error closed
  send _ _ := .ok ()

/-- A session in the place of a peer: what it sends when it has heard so much. -/
def served (closed : ε) (m : Session σ μ ε α) (world : σ) : Peer μ ε where
  recv heard n :=
    match (m (scripted closed heard) (.start world)).2.sent[n]? with
    | some m => .ok m
    | none => .error closed
  send _ _ := .ok ()

/-! ### What a session keeps -/

/-- Whatever the peer says, the session keeps `I` of the state. -/
def Keeps {α : Type*} (I : σ → Prop) (m : Session σ μ ε α) : Prop :=
  ∀ peer s, I s.world → I (m peer s).2.world

namespace Keeps

lemma ret (a : α) : Keeps I (ret a : Session σ μ ε α) := fun _ _ h => h

/-- **The rule of sequence.** -/
lemma bind {m : Session σ μ ε α} {f : α → Session σ μ ε β} (hm : Keeps I m)
    (hf : ∀ a, Keeps I (f a)) : Keeps I (m >>= f) := by
  intro peer s h
  have hworld := hm peer s h
  rw [bind_apply]
  split
  · next a s' heq =>
      rw [heq] at hworld
      exact hf a peer s' hworld
  · next e s' heq =>
      rw [heq] at hworld
      exact hworld

lemma recv : Keeps I (recv : Session σ μ ε μ) := fun _ _ h => h

lemma send (m : μ) : Keeps I (send m : Session σ μ ε Unit) := by
  intro peer s h
  rw [Session.send]
  split
  · exact h
  · exact h

lemma fail (e : ε) : Keeps I (fail e : Session σ μ ε α) := fun _ _ h => h

lemma ask (f : σ → Except ε α) : Keeps I (ask f : Session σ μ ε α) := fun _ _ h => h

lemma act {f : σ → Except ε α × σ} (hf : ∀ w, I w → I (f w).2) :
    Keeps I (act f : Session σ μ ε α) := fun _ s h => hf s.world h

end Keeps

/-- Whatever the peer says, what the session returns has `Q`. -/
def Gives {α : Type*} (Q : α → Prop) (m : Session σ μ ε α) : Prop :=
  ∀ peer s a, (m peer s).1 = .ok a → Q a

namespace Gives

variable {Q : α → Prop}

lemma ret {a : α} (ha : Q a) : Gives Q (ret a : Session σ μ ε α) := by
  rintro peer s _ ⟨⟩
  exact ha

lemma fail (e : ε) : Gives Q (fail e : Session σ μ ε α) := by
  rintro peer s a ⟨⟩

/-- The last part decides. -/
lemma bind {m : Session σ μ ε β} {f : β → Session σ μ ε α} (hf : ∀ b, Gives Q (f b)) :
    Gives Q (m >>= f) := by
  intro peer s a h
  rw [bind_apply] at h
  split at h
  · next b s' _ => exact hf b peer s' a h
  · cases h

end Gives

/-- Whatever the peer says, the session leads from `I` to `J`, also where it stops on the way. -/
def Leads {α : Type*} (I J : σ → Prop) (m : Session σ μ ε α) : Prop :=
  ∀ peer s, I s.world → J (m peer s).2.world

namespace Leads

variable {J : σ → Prop}

lemma act {f : σ → Except ε α × σ} (hf : ∀ w, I w → J (f w).2) :
    Leads I J (act f : Session σ μ ε α) := fun _ s h => hf s.world h

/-- A session that keeps `I` leads to what follows from it. -/
lemma of_keeps {m : Session σ μ ε α} (hm : Keeps I m) (hij : ∀ w, I w → J w) : Leads I J m :=
  fun peer s h => hij _ (hm peer s h)

/-- The step comes later. -/
lemma after {m : Session σ μ ε α} {f : α → Session σ μ ε β} (hm : Keeps I m)
    (hij : ∀ w, I w → J w) (hf : ∀ a, Leads I J (f a)) : Leads I J (m >>= f) := by
  intro peer s h
  have hworld := hm peer s h
  rw [bind_apply]
  split
  · next a s' heq =>
      rw [heq] at hworld
      exact hf a peer s' hworld
  · next e s' heq =>
      rw [heq] at hworld
      exact hij _ hworld

/-- The step comes first. -/
lemma before {m : Session σ μ ε α} {f : α → Session σ μ ε β} (hm : Leads I J m)
    (hf : ∀ a, Keeps J (f a)) : Leads I J (m >>= f) := by
  intro peer s h
  have hworld := hm peer s h
  rw [bind_apply]
  split
  · next a s' heq =>
      rw [heq] at hworld
      exact hf a peer s' hworld
  · next e s' heq =>
      rw [heq] at hworld
      exact hworld

end Leads

/-- Whatever the peer says, the session keeps `I` of the state, and every message it sends has
`P`. -/
def Tells {α : Type*} (I : σ → Prop) (P : μ → Prop) (m : Session σ μ ε α) : Prop :=
  ∀ peer s, I s.world →
    I (m peer s).2.world ∧ ∀ x ∈ (m peer s).2.sent, x ∈ s.sent ∨ P x

namespace Tells

variable {P : μ → Prop}

lemma bind {m : Session σ μ ε α} {f : α → Session σ μ ε β} (hm : Tells I P m)
    (hf : ∀ a, Tells I P (f a)) : Tells I P (m >>= f) := by
  intro peer s h
  obtain ⟨hworld, hsent⟩ := hm peer s h
  rw [bind_apply]
  split
  · next a s' heq =>
      rw [heq] at hworld hsent
      obtain ⟨hworld', hsent'⟩ := hf a peer s' hworld
      exact ⟨hworld', fun x hx => (hsent' x hx).elim (hsent x) .inr⟩
  · next e s' heq =>
      rw [heq] at hworld hsent
      exact ⟨hworld, hsent⟩

/-- What comes after a look at the state is known to have seen it. -/
lemma ask_bind {f : σ → Except ε α} {k : α → Session σ μ ε β}
    (hk : ∀ w a, I w → f w = .ok a → Tells I P (k a)) : Tells I P (Session.ask f >>= k) := by
  intro peer s h
  rw [bind_apply, Session.ask]
  split
  · next a s' heq =>
      obtain ⟨ha, rfl⟩ := Prod.mk.inj heq
      exact hk s.world a h ha peer s h
  · next e s' heq =>
      obtain ⟨-, rfl⟩ := Prod.mk.inj heq
      exact ⟨h, fun x hx => .inl hx⟩

lemma recv : Tells I P (recv : Session σ μ ε μ) := fun _ _ h => ⟨h, fun _ hx => .inl hx⟩

lemma send {m : μ} (hm : P m) : Tells I P (send m : Session σ μ ε Unit) := by
  intro peer s h
  rw [Session.send]
  split
  · refine ⟨h, fun x hx => ?_⟩
    rcases List.mem_append.mp hx with hx | hx
    · exact .inl hx
    · rw [List.mem_singleton.mp hx]
      exact .inr hm
  · exact ⟨h, fun _ hx => .inl hx⟩

lemma fail (e : ε) : Tells I P (fail e : Session σ μ ε α) :=
  fun _ _ h => ⟨h, fun _ hx => .inl hx⟩

end Tells

/-- Whatever the peer says, from a state with `I` every message the session sends has `P`. -/
def Says {α : Type*} (I : σ → Prop) (P : μ → Prop) (m : Session σ μ ε α) : Prop :=
  ∀ peer s, I s.world → ∀ x ∈ (m peer s).2.sent, x ∈ s.sent ∨ P x

namespace Says

variable {P : μ → Prop}

lemma of_tells {m : Session σ μ ε α} (hm : Tells I P m) : Says I P m :=
  fun peer s h => (hm peer s h).2

/-- What comes later is said from a state with `I`, too. -/
lemma after {m : Session σ μ ε α} {f : α → Session σ μ ε β} (hm : Tells I P m)
    (hf : ∀ a, Says I P (f a)) : Says I P (m >>= f) := by
  intro peer s h
  obtain ⟨hworld, hsent⟩ := hm peer s h
  rw [bind_apply]
  split
  · next a s' heq =>
      rw [heq] at hworld hsent
      exact fun x hx => (hf a peer s' hworld x hx).elim (hsent x) .inr
  · next e s' heq =>
      rw [heq] at hsent
      exact hsent

lemma ask_bind {f : σ → Except ε α} {k : α → Session σ μ ε β}
    (hk : ∀ w a, I w → f w = .ok a → Says I P (k a)) : Says I P (Session.ask f >>= k) := by
  intro peer s h
  rw [bind_apply, Session.ask]
  split
  · next a s' heq =>
      obtain ⟨ha, rfl⟩ := Prod.mk.inj heq
      exact hk s.world a h ha peer s h
  · next e s' heq =>
      obtain ⟨-, rfl⟩ := Prod.mk.inj heq
      exact fun x hx => .inl hx

/-- After a step on the state nothing is known of it. -/
lemma act_bind {f : σ → Except ε α × σ} {k : α → Session σ μ ε β}
    (hk : ∀ a, Says (fun _ => True) P (k a)) : Says I P (Session.act f >>= k) := by
  intro peer s _
  rw [bind_apply, Session.act]
  split
  · next a s' heq =>
      obtain ⟨-, rfl⟩ := Prod.mk.inj heq
      exact hk a peer _ trivial
  · next e s' heq =>
      obtain ⟨-, rfl⟩ := Prod.mk.inj heq
      exact fun x hx => .inl hx

end Says

end Session

end Talk
