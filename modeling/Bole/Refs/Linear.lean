import Bole.Refs.Store
import Bole.Lib.Linear

/-!
The ref operations among other calls (`src/refs/mod.rs`, `prune_timeline` of `src/repo/mod.rs`).

A direct operation reads its ref and then writes it; a transaction reads its refs and then writes
its plan under the commit lock, which the direct operations do not take.

* `RefRequest.perform`: each operation made whole;
* `RefProgress.step`: the same operations, one access of the backend at a time;
* `point_of_steady`: a step that is taken on readings that still stand has no effect, or that of
  the whole operation;
* `linearizable_of_steady`: every run of such steps has the results and the refs of the
  operations made whole in some order.
-/

namespace Bole

open Interleave Transition

/-! ### The operations made whole -/

/-- Whether a ref is a tag on the given snapshot. -/
def pointsAt (head : ObjectId) : Option Ref → Bool
  | some (.tag t) => decide (t.target = head)
  | _ => false

/-- Whether a timeline has an expiry and it has come. -/
def Timeline.expired (T : Timeline) (now : ℕ) : Bool :=
  match T.expiresAt with
  | some t => decide (t ≤ now)
  | none => false

namespace RefStore

/-- A ref is read, and written unless the operation refuses. -/
def readWrite (s : RefStore) (op : RefOp) : Result Unit × RefStore :=
  match op.next (s.get op.name) with
  | .error e => (.error e, s)
  | .ok none => (.ok (), s)
  | .ok (some v) => (.ok (), s.write (op.name, v))

/-- `create_tag`. -/
def createTag (s : RefStore) (name : RefName) (target : ObjectId) (message : Option String)
    (now : ℕ) : Result Unit × RefStore :=
  s.readWrite (.createTag name target message now)

/-- `move_tag`. -/
def moveTag (s : RefStore) (name : RefName) (target : ObjectId) : Result Unit × RefStore :=
  s.readWrite (.moveTag name target)

/-- `create_timeline`. -/
def createTimeline (s : RefStore) (name : RefName) (head : ObjectId) (policy : TimelinePolicy)
    (now : ℕ) (kind : String) (expiresAt : Option ℕ) : Result Unit × RefStore :=
  s.readWrite (.createTimeline name head policy now kind expiresAt)

/-- `advance_head`. -/
def advanceHead (s : RefStore) (name : RefName) (newHead : ObjectId) : Result Unit × RefStore :=
  s.readWrite (.advanceHead name newHead)

/-- `delete_ref`. -/
def deleteRef (s : RefStore) (name : RefName) : Result Unit × RefStore :=
  (.ok (), s.write (name, none))

/-- `prune_timeline`. -/
def pruneTimeline (s : RefStore) (name : RefName) (now : ℕ) : Result Bool × RefStore :=
  match s.getTimeline name with
  | .error e => (.error e, s)
  | .ok none => (.ok false, s)
  | .ok (some T) =>
      if T.expired now then
        if (s.list "").any fun k => pointsAt T.head (s.get k) then (.ok false, s)
        else (.ok true, (s.deleteRef name).2)
      else (.ok false, s)

variable {s t : RefStore}

lemma map_injective : Function.Injective map := by
  rintro ⟨m⟩ ⟨m'⟩ h
  congr 1
  exact Std.ExtTreeMap.ext_getElem? fun n => congrFun h n

/-- A ref that a plan does not name keeps its value. -/
lemma get_applyAtomic_of_not_mem (s : RefStore) {plan : Plan} {n : RefName}
    (h : n ∉ plan.map Prod.fst) : (s.applyAtomic plan).get n = s.get n := by
  have hmap := congrFun (map_applyAtomic s plan) n
  rw [RefMap.applyPlan_of_not_mem s.map h] at hmap
  exact hmap

/-- A write to a ref that a plan does not name can be made before it. -/
lemma applyAtomic_write (s : RefStore) {plan : Plan} {n : RefName} (v : Option Ref)
    (h : n ∉ plan.map Prod.fst) :
    (s.write (n, v)).applyAtomic plan = (s.applyAtomic plan).write (n, v) := by
  induction plan generalizing s with
  | nil => rfl
  | cons e rest ih =>
      rw [List.map_cons, List.mem_cons, not_or] at h
      have hswap : (s.write (n, v)).write e = (s.write e).write (n, v) := by
        apply map_injective
        rw [map_write, map_write, map_write, map_write]
        exact Function.update_comm h.1 v e.2 s.map
      rw [applyAtomic_cons, applyAtomic_cons, hswap, ih _ h.2]

end RefStore

/-- A call of one of the operations. -/
inductive RefRequest where
  | createTag (name : RefName) (target : ObjectId) (message : Option String) (now : ℕ)
  | moveTag (name : RefName) (target : ObjectId)
  | createTimeline (name : RefName) (head : ObjectId) (policy : TimelinePolicy) (now : ℕ)
      (kind : String) (expiresAt : Option ℕ)
  | advanceHead (name : RefName) (newHead : ObjectId)
  | deleteRef (name : RefName)
  | pruneTimeline (name : RefName) (now : ℕ)
  | commit (ops : List RefOp)

/-- What a call returns. -/
inductive RefOutcome where
  | done (result : Result Unit)
  | pruned (result : Result Bool)
deriving DecidableEq

namespace RefRequest

/-- The operation made whole. -/
def perform : RefRequest → RefStore → RefOutcome × RefStore
  | createTag name target message now, s => (s.createTag name target message now).map .done id
  | moveTag name target, s => (s.moveTag name target).map .done id
  | createTimeline name head policy now kind expiresAt, s =>
      (s.createTimeline name head policy now kind expiresAt).map .done id
  | advanceHead name newHead, s => (s.advanceHead name newHead).map .done id
  | deleteRef name, s => (s.deleteRef name).map .done id
  | pruneTimeline name now, s => (s.pruneTimeline name now).map .pruned id
  | commit ops, s => (s.commit ops).map .done id

/-- The name a request creates. -/
def creates : RefRequest → Option RefName
  | createTag name _ _ _ => some name
  | createTimeline name _ _ _ _ _ => some name
  | _ => none

/-- Whether a request can take a name away. -/
def deletes (n : RefName) : RefRequest → Bool
  | deleteRef name => decide (name = n)
  | pruneTimeline name _ => decide (name = n)
  | commit ops => decide (RefOp.delete n ∈ ops)
  | _ => false

end RefRequest

/-! ### One access at a time -/

/-- The backend and the commit lock of a ref store. -/
structure SharedRefs where
  refs : RefStore
  locked : Bool

/-- A backend `set` or `delete` on the shared store. -/
def SharedRefs.write (x : SharedRefs) (e : RefName × Option Ref) : SharedRefs :=
  { x with refs := x.refs.write e }

/-- How far a call has come, with what it has read. -/
inductive RefProgress where
  | update (op : RefOp)
  | writing (op : RefOp) (seen v : Option Ref)
  | deleting (name : RefName)
  | prune (name : RefName) (now : ℕ)
  | listing (name : RefName) (T : Timeline)
  | looking (name : RefName) (T : Timeline) (rest : List RefName)
  | commit (ops : List RefOp)
  | resolving (ops rest : List RefOp) (overlay : BTreeMap RefName (Option Ref)) (reads : Plan)
  | planned (ops : List RefOp) (reads plan : Plan)
  | applying (rest : Plan)
  | returned (o : RefOutcome)

/-- Where a call begins. -/
def RefRequest.begin : RefRequest → RefProgress
  | createTag name target message now => .update (.createTag name target message now)
  | moveTag name target => .update (.moveTag name target)
  | createTimeline name head policy now kind expiresAt =>
      .update (.createTimeline name head policy now kind expiresAt)
  | advanceHead name newHead => .update (.advanceHead name newHead)
  | deleteRef name => .deleting name
  | pruneTimeline name now => .prune name now
  | commit ops => .commit ops

/-- Whether `resolve` has to ask the backend for an operation. -/
def RefOp.asks (overlay : BTreeMap RefName (Option Ref)) (op : RefOp) : Bool :=
  op.reads && overlay[op.name]?.isNone

/-- The overlay after an arm of `resolve`. -/
def RefOp.overlaid (overlay : BTreeMap RefName (Option Ref)) (op : RefOp) :
    Option (Option Ref) → BTreeMap RefName (Option Ref)
  | none => overlay
  | some v => overlay.insert op.name v

namespace RefProgress

/-- One arm of `resolve`, with at most one `get`; an error drops the lock. -/
def resolveStep (x : SharedRefs) (ops : List RefOp) (op : RefOp) (rest : List RefOp)
    (overlay : BTreeMap RefName (Option Ref)) (reads : Plan) : RefProgress × SharedRefs :=
  match currentRef (fun n => .ok (x.refs.get n)) overlay op >>= op.next with
  | .error e => (.returned (.done (.error e)), { x with locked := false })
  | .ok v =>
      (.resolving ops rest (op.overlaid overlay v)
        (if op.asks overlay then (op.name, x.refs.get op.name) :: reads else reads), x)

/-- The next step of a call: one access of the backend or of the lock. -/
def step (x : SharedRefs) : RefProgress → RefProgress × SharedRefs
  | update op =>
      match op.next (x.refs.get op.name) with
      | .error e => (returned (.done (.error e)), x)
      | .ok none => (returned (.done (.ok ())), x)
      | .ok (some v) => (writing op (x.refs.get op.name) v, x)
  | writing op _ v => (returned (.done (.ok ())), x.write (op.name, v))
  | deleting name => (returned (.done (.ok ())), x.write (name, none))
  | prune name now =>
      match x.refs.getTimeline name with
      | .error e => (returned (.pruned (.error e)), x)
      | .ok none => (returned (.pruned (.ok false)), x)
      | .ok (some T) =>
          if T.expired now then (listing name T, x) else (returned (.pruned (.ok false)), x)
  | listing name T => (looking name T (x.refs.list ""), x)
  | looking name T (k :: rest) =>
      if pointsAt T.head (x.refs.get k) then (returned (.pruned (.ok false)), x)
      else (looking name T rest, x)
  | looking name _ [] => (returned (.pruned (.ok true)), x.write (name, none))
  -- a transaction waits for the lock
  | commit ops =>
      if x.locked then (commit ops, x) else (resolving ops ops ∅ [], { x with locked := true })
  | resolving ops (op :: rest) overlay reads => resolveStep x ops op rest overlay reads
  | resolving ops [] overlay reads => (planned ops reads overlay.toList, x)
  | planned _ _ [] => (returned (.done (.ok ())), { x with locked := false })
  | planned _ _ (e :: rest) => (applying rest, x.write e)
  | applying (e :: rest) => (applying rest, x.write e)
  | applying [] => (returned (.done (.ok ())), { x with locked := false })
  | returned o => (returned o, x)

/-- Whether a call holds the commit lock. -/
def holds : RefProgress → Bool
  | resolving _ _ _ _ => true
  | planned _ _ _ => true
  | applying _ => true
  | _ => false

/-- The writes of a transaction that has begun to write. -/
def rest : RefProgress → Plan
  | applying rest => rest
  | _ => []

/-- What a call returns, once that is settled: a transaction succeeds from its first write on. -/
def outcome : RefProgress → Option RefOutcome
  | applying _ => some (.done (.ok ()))
  | returned o => some o
  | _ => none

end RefProgress

/-- A call with its request. -/
structure RefCall where
  request : RefRequest
  progress : RefProgress

namespace RefCall

/-- A call that has just been made. -/
def Starts (c : RefCall) : Prop := c.progress = c.request.begin

/-- The next step of a call. -/
def step (x : SharedRefs) (c : RefCall) : RefCall × SharedRefs :=
  (⟨c.request, (c.progress.step x).1⟩, (c.progress.step x).2)

end RefCall

/-- Calls on one ref store. -/
abbrev RefCalls := System SharedRefs RefCall

namespace RefCalls

/-- A call is made, or a call takes its next step; nothing else writes the store. -/
abbrev Step : RefCalls → Action RefCall → RefCalls → Prop :=
  Interleave.Step RefCall.Starts RefCall.step fun _ _ => False

/-- The store before any call. -/
def initial (refs : RefStore) : RefCalls := ⟨⟨refs, false⟩, []⟩

/-- The writes that a begun transaction has still to make. -/
def pending (s : RefCalls) : Plan := s.calls.flatMap fun c => c.progress.rest

/-- The refs with the writes of a begun transaction made. -/
def settled (s : RefCalls) : RefStore := s.shared.refs.applyAtomic s.pending

/-- No begun transaction has still to write the ref. -/
def Settled (s : RefCalls) (n : RefName) : Prop := n ∉ s.pending.map Prod.fst

/-- The refs are still as they were read. -/
def Agrees (reads : Plan) (refs : RefStore) : Prop := ∀ e ∈ reads, refs.get e.1 = e.2

/-- The readings on which a call takes its next step still stand. -/
def Stands (s : RefCalls) : RefProgress → Prop
  | .update op => s.Settled op.name
  | .writing op seen _ => s.Settled op.name ∧ s.shared.refs.get op.name = seen
  | .deleting name => s.Settled name
  | .prune name _ => s.Settled name
  | .looking name T (k :: _) => pointsAt T.head (s.shared.refs.get k) = true →
      s.Settled name ∧ s.Settled k ∧ s.shared.refs.get name = some (.timeline T)
  | .looking name T [] => s.Settled name ∧ s.shared.refs.get name = some (.timeline T) ∧
      ∀ k, pointsAt T.head (s.settled.get k) = false
  | .resolving ops (op :: rest) overlay reads =>
      (∃ o, (RefProgress.resolveStep s.shared ops op rest overlay reads).1 = .returned o) →
        Agrees reads s.shared.refs
  | .planned _ reads _ => Agrees reads s.shared.refs
  | _ => True

/-- A step is taken on readings that still stand. -/
def Steady (s : RefCalls) : Action RefCall → Prop
  | .step i => ∀ c, s.calls[i]? = some c → s.Stands c.progress
  | _ => True

/-- How calls are compared with the operations made whole. -/
def reading : Reading SharedRefs RefCall RefRequest RefOutcome RefStore where
  request := RefCall.request
  outcome c := c.progress.outcome
  perform := RefRequest.perform
  view := settled

/-! ### The lock -/

section Lock

variable {s : RefCalls} {i : ℕ} {c : RefCall}

lemma rest_eq_nil {p : RefProgress} (h : p.holds = false) : p.rest = [] := by
  cases p <;> first | rfl | cases h

/-- A transaction that fails while it resolves drops the lock. -/
lemma resolveStep_lock (x : SharedRefs) (ops : List RefOp) (op : RefOp) (rest : List RefOp)
    (overlay : BTreeMap RefName (Option Ref)) (reads : Plan) (h : x.locked = true) :
    (RefProgress.resolveStep x ops op rest overlay reads).1.holds =
      (RefProgress.resolveStep x ops op rest overlay reads).2.locked := by
  rw [RefProgress.resolveStep]
  split
  · rfl
  · exact h.symm

/-- A step takes the lock and drops it with the call that holds it. -/
lemma step_lock (x : SharedRefs) (p : RefProgress) (h : p.holds = true → x.locked = true) :
    (p.step x).1.holds.toNat + x.locked.toNat = (p.step x).2.locked.toNat + p.holds.toNat := by
  fun_cases RefProgress.step x p
  case case16 ops op rest overlay reads =>
    rw [resolveStep_lock x ops op rest overlay reads (h rfl), h rfl]
    rfl
  all_goals simp_all [RefProgress.holds, SharedRefs.write]

/-- One call holds the lock when it is taken, and none otherwise. -/
def Locked (s : RefCalls) : Prop :=
  s.calls.countP (fun c => c.progress.holds) = s.shared.locked.toNat

lemma Locked.holds (h : s.Locked) (hi : s.calls[i]? = some c) (hc : c.progress.holds = true) :
    s.shared.locked = true := by
  have hpos : 0 < s.calls.countP fun c => c.progress.holds :=
    List.countP_pos_iff.mpr ⟨c, List.mem_of_getElem? hi, hc⟩
  rw [h] at hpos
  cases hl : s.shared.locked with
  | true => rfl
  | false => simp [hl] at hpos

lemma Locked.call (h : s.Locked) (hc : c.Starts) : Locked ⟨s.shared, s.calls ++ [c]⟩ := by
  have hfree : c.progress.holds = false := by
    rw [hc]
    cases c.request <;> rfl
  rw [Locked, List.countP_append, h]
  simp [hfree]

lemma Locked.step (h : s.Locked) (hi : s.calls[i]? = some c) :
    Locked ⟨(c.step s.shared).2, s.calls.set i (c.step s.shared).1⟩ := by
  obtain ⟨hlt, hget⟩ := List.getElem?_eq_some_iff.mp hi
  have hcount := List.countP_set (p := fun c : RefCall => c.progress.holds)
    (a := (c.step s.shared).1) hlt
  have hle : c.progress.holds.toNat ≤ s.calls.countP fun c => c.progress.holds := by
    cases hc : c.progress.holds with
    | false => exact Nat.zero_le _
    | true => exact List.countP_pos_iff.mpr ⟨c, List.mem_of_getElem? hi, hc⟩
  have hstep := step_lock s.shared c.progress (h.holds hi)
  rw [hget, h] at hcount
  rw [h] at hle
  rw [Locked, hcount]
  cases hp : c.progress.holds <;> cases hp' : (c.progress.step s.shared).1.holds <;>
    simp_all [RefCall.step] <;> omega

/-- The writes to be made when one call has moved on. -/
lemma pending_set (hi : s.calls[i]? = some c) (x : SharedRefs) (c' : RefCall) :
    pending ⟨x, s.calls.set i c'⟩ = (s.calls.take i).flatMap (fun c => c.progress.rest) ++
      (c'.progress.rest ++ (s.calls.drop (i + 1)).flatMap fun c => c.progress.rest) := by
  obtain ⟨hlt, -⟩ := List.getElem?_eq_some_iff.mp hi
  rw [pending, List.set_eq_take_append_cons_drop, if_pos hlt, List.flatMap_append,
    List.flatMap_cons]

lemma calls_split (hi : s.calls[i]? = some c) :
    s.calls = s.calls.take i ++ c :: s.calls.drop (i + 1) := by
  obtain ⟨hlt, hget⟩ := List.getElem?_eq_some_iff.mp hi
  rw [← hget, List.getElem_cons_drop, List.take_append_drop]

/-- A call that has not begun to write leaves the writes to be made alone. -/
lemma pending_set_of_rest (hi : s.calls[i]? = some c) {c' : RefCall}
    (hrest : c'.progress.rest = c.progress.rest) (x : SharedRefs) :
    pending ⟨x, s.calls.set i c'⟩ = s.pending := by
  rw [pending_set hi, hrest]
  conv_rhs => rw [pending, calls_split hi, List.flatMap_append, List.flatMap_cons]

/-- The other calls have no writes to make while one holds the lock. -/
lemma Locked.pending_set (h : s.Locked) (hi : s.calls[i]? = some c)
    (hc : c.progress.holds = true) (x : SharedRefs) (c' : RefCall) :
    pending ⟨x, s.calls.set i c'⟩ = c'.progress.rest := by
  have hnil : ∀ l : List RefCall, (l.countP fun c => c.progress.holds) = 0 →
      (l.flatMap fun c => c.progress.rest) = [] := by
    intro l hl
    rw [List.flatMap_eq_nil_iff]
    intro d hd
    refine rest_eq_nil ?_
    have := List.countP_eq_zero.mp hl d hd
    simpa using this
  have hcount : s.calls.countP (fun c => c.progress.holds) = 1 := by
    rw [h, h.holds hi hc]
    rfl
  rw [calls_split hi, List.countP_append, List.countP_cons, if_pos hc] at hcount
  rw [RefCalls.pending_set hi, hnil _ (by omega), hnil _ (by omega)]
  simp

lemma Locked.pending_eq (h : s.Locked) (hi : s.calls[i]? = some c)
    (hc : c.progress.holds = true) : s.pending = c.progress.rest :=
  (pending_set_of_rest hi rfl s.shared).symm.trans (h.pending_set hi hc s.shared c)

end Lock

/-! ### Linearization points -/

/-- What a call has read fits its request: on refs that still agree with it, the operation made
whole comes to where the call is. -/
def Sound (c : RefCall) : Prop :=
  match c.progress with
  | .update op => ∀ s, c.request.perform s = (s.readWrite op).map .done id
  | .writing op seen v =>
      (∀ s, c.request.perform s = (s.readWrite op).map .done id) ∧ op.next seen = .ok (some v)
  | .deleting name => c.request = .deleteRef name
  | .prune name now => c.request = .pruneTimeline name now
  | .listing name T => ∃ now, c.request = .pruneTimeline name now ∧ T.expired now = true
  | .looking name T _ => ∃ now, c.request = .pruneTimeline name now ∧ T.expired now = true
  | .commit ops => c.request = .commit ops
  | .resolving ops rest overlay reads => c.request = .commit ops ∧
      ∀ refs, Agrees reads refs → resolveLoop (fun n => .ok (refs.get n)) ops ∅ =
        resolveLoop (fun n => .ok (refs.get n)) rest overlay
  | .planned ops reads plan => c.request = .commit ops ∧
      ∀ refs, Agrees reads refs → resolve (fun n => .ok (refs.get n)) ops = .ok plan
  | _ => True

lemma Sound.start {c : RefCall} (hc : c.Starts) : Sound c := by
  obtain ⟨request, progress⟩ := c
  cases request <;> cases hc <;> first | rfl | exact fun _ => rfl

/-- What `resolve` has read is what it would read again. -/
lemma currentRef_agrees {x : SharedRefs} {op : RefOp} {overlay : BTreeMap RefName (Option Ref)}
    {reads : Plan} {refs : RefStore}
    (h : Agrees (if op.asks overlay then (op.name, x.refs.get op.name) :: reads else reads) refs) :
    Agrees reads refs ∧ currentRef (fun n => .ok (refs.get n)) overlay op =
      currentRef (fun n => .ok (x.refs.get n)) overlay op := by
  cases hasks : op.asks overlay with
  | true =>
      rw [hasks, if_pos rfl] at h
      refine ⟨fun e he => h e (List.mem_cons_of_mem _ he), ?_⟩
      simp only [currentRef, h _ List.mem_cons_self]
  | false =>
      rw [hasks, if_neg Bool.false_ne_true] at h
      refine ⟨h, ?_⟩
      simp only [RefOp.asks, Bool.and_eq_false_iff] at hasks
      rw [currentRef, currentRef]
      rcases hasks with hreads | hsome
      · simp [hreads]
      · cases ho : overlay[op.name]? with
        | none => simp [ho] at hsome
        | some v => rfl

/-- One arm of `resolve` on refs that agree with what has been read. -/
lemma resolveLoop_cons {get : RefName → Result (Option Ref)} {op : RefOp} {rest : List RefOp}
    {overlay : BTreeMap RefName (Option Ref)} {v : Option (Option Ref)}
    (h : currentRef get overlay op >>= op.next = .ok v) :
    resolveLoop get (op :: rest) overlay = resolveLoop get rest (op.overlaid overlay v) := by
  obtain ⟨current, hc, hn⟩ := Result.bind_eq_ok.mp h
  rw [resolveLoop, hc]
  cases v with
  | none => simp [hn, bind, Except.bind, RefOp.overlaid]
  | some v => simp [hn, bind, Except.bind, RefOp.overlaid]

lemma Sound.resolveStep {request : RefRequest} {x : SharedRefs} {ops rest : List RefOp} {op : RefOp}
    {overlay : BTreeMap RefName (Option Ref)} {reads : Plan}
    (h : Sound ⟨request, .resolving ops (op :: rest) overlay reads⟩) :
    Sound ⟨request, (RefProgress.resolveStep x ops op rest overlay reads).1⟩ := by
  rw [RefProgress.resolveStep]
  split
  · trivial
  · next v hv =>
      refine ⟨h.1, fun refs hrefs => ?_⟩
      obtain ⟨hold, hcurrent⟩ := currentRef_agrees hrefs
      rw [h.2 refs hold]
      exact resolveLoop_cons (by rw [hcurrent, hv])

/-- A step keeps what has been read with the request. -/
lemma Sound.step {c : RefCall} (x : SharedRefs) (h : Sound c) : Sound (c.step x).1 := by
  obtain ⟨request, progress⟩ := c
  show Sound ⟨request, (progress.step x).1⟩
  fun_cases RefProgress.step x progress
  -- the timeline has expired, the lock is taken, the plan is complete
  case case8 now T hT hexpired => exact ⟨now, h, hexpired⟩
  case case15 => exact ⟨h, fun _ _ => rfl⟩
  case case17 overlay reads =>
    refine ⟨h.1, fun refs hrefs => ?_⟩
    rw [resolve, h.2 refs hrefs]
    rfl
  case case16 => exact h.resolveStep
  all_goals trivial

section Points

variable {s : RefCalls} {i : ℕ} {c : RefCall}

/-- A ref that no begun transaction has still to write. -/
lemma Settled.get {n : RefName} (h : s.Settled n) : s.settled.get n = s.shared.refs.get n :=
  s.shared.refs.get_applyAtomic_of_not_mem h

/-- The step of a call has no effect, or that of its operation made whole. -/
def Moves (s : RefCalls) (i : ℕ) (c : RefCall) : Prop :=
  Point reading s c (c.step s.shared).1
    ⟨(c.step s.shared).2, s.calls.set i (c.step s.shared).1⟩

/-- A step that only reads, or that only takes or drops the lock. -/
lemma moves_silent (hi : s.calls[i]? = some c)
    (hout : (c.progress.step s.shared).1.outcome = c.progress.outcome)
    (hrest : (c.progress.step s.shared).1.rest = c.progress.rest)
    (hrefs : (c.progress.step s.shared).2.refs = s.shared.refs) : Moves s i c := by
  refine ⟨rfl, Or.inl ⟨hout, ?_⟩⟩
  show settled _ = settled _
  rw [settled, pending_set_of_rest hi hrest]
  exact congrArg (·.applyAtomic s.pending) hrefs

/-- A step with which a call that does not hold the lock returns. -/
lemma moves_effect (hi : s.calls[i]? = some c) {o : RefOutcome}
    (hnone : c.progress.outcome = none) (hrest : c.progress.rest = [])
    (hreturned : (c.progress.step s.shared).1 = .returned o)
    (hperform : c.request.perform s.settled =
      (o, (c.progress.step s.shared).2.refs.applyAtomic s.pending)) : Moves s i c := by
  refine ⟨rfl, Or.inr ⟨o, hnone, ?_, hperform.trans ?_⟩⟩
  · show (c.progress.step s.shared).1.outcome = some o
    rw [hreturned]
    rfl
  · congr 1
    show _ = settled _
    rw [settled, pending_set_of_rest hi]
    · rfl
    · show (c.progress.step s.shared).1.rest = _
      rw [hreturned, hrest]
      rfl

variable {request : RefRequest} {op : RefOp} {name : RefName} {T : Timeline}

lemma moves_update (hi : s.calls[i]? = some ⟨request, .update op⟩)
    (h : Sound ⟨request, .update op⟩) (hset : s.Settled op.name) :
    Moves s i ⟨request, .update op⟩ := by
  have hperform := h s.settled
  rw [RefStore.readWrite, hset.get] at hperform
  cases hn : op.next (s.shared.refs.get op.name) with
  | error e =>
      rw [hn] at hperform
      refine moves_effect hi rfl rfl (by simp only [RefProgress.step, hn]; rfl) ?_
      simp only [RefProgress.step, hn]
      exact hperform
  | ok v =>
      rw [hn] at hperform
      cases v with
      | none =>
          refine moves_effect hi rfl rfl (by simp only [RefProgress.step, hn]; rfl) ?_
          simp only [RefProgress.step, hn]
          exact hperform
      | some v =>
          refine moves_silent hi ?_ ?_ ?_ <;> simp only [RefProgress.step, hn] <;> rfl

lemma moves_writing {seen v : Option Ref} (hi : s.calls[i]? = some ⟨request, .writing op seen v⟩)
    (h : Sound ⟨request, .writing op seen v⟩) (hset : s.Settled op.name)
    (hseen : s.shared.refs.get op.name = seen) : Moves s i ⟨request, .writing op seen v⟩ := by
  refine moves_effect hi rfl rfl rfl ?_
  show request.perform _ = _
  rw [h.1, RefStore.readWrite, hset.get, hseen, h.2]
  exact congrArg (Prod.mk _) (s.shared.refs.applyAtomic_write v hset).symm

lemma moves_deleting (hi : s.calls[i]? = some ⟨request, .deleting name⟩)
    (h : Sound ⟨request, .deleting name⟩) (hset : s.Settled name) :
    Moves s i ⟨request, .deleting name⟩ := by
  obtain rfl : request = .deleteRef name := h
  refine moves_effect hi rfl rfl rfl ?_
  exact congrArg (Prod.mk _) (s.shared.refs.applyAtomic_write none hset).symm

lemma moves_prune {now : ℕ} (hi : s.calls[i]? = some ⟨request, .prune name now⟩)
    (h : Sound ⟨request, .prune name now⟩) (hset : s.Settled name) :
    Moves s i ⟨request, .prune name now⟩ := by
  obtain rfl : request = .pruneTimeline name now := h
  have hread : s.settled.getTimeline name = s.shared.refs.getTimeline name := by
    rw [RefStore.getTimeline, RefStore.getTimeline, hset.get]
  cases hT : s.shared.refs.getTimeline name with
  | error e =>
      refine moves_effect hi rfl rfl (by simp only [RefProgress.step, hT]; rfl) ?_
      simp only [RefProgress.step, hT, RefRequest.perform, RefStore.pruneTimeline, hread]
      rfl
  | ok found =>
      cases found with
      | none =>
          refine moves_effect hi rfl rfl (by simp only [RefProgress.step, hT]; rfl) ?_
          simp only [RefProgress.step, hT, RefRequest.perform, RefStore.pruneTimeline, hread]
          rfl
      | some T =>
          by_cases hexpired : T.expired now = true
          · refine moves_silent hi ?_ ?_ ?_ <;>
              simp only [RefProgress.step, hT, if_pos hexpired] <;> rfl
          · refine moves_effect hi rfl rfl
              (by simp only [RefProgress.step, hT, if_neg hexpired]; rfl) ?_
            simp only [RefProgress.step, hT, RefRequest.perform, RefStore.pruneTimeline, hread,
              if_neg hexpired]
            rfl

lemma moves_looking_cons {k : RefName} {rest : List RefName}
    (hi : s.calls[i]? = some ⟨request, .looking name T (k :: rest)⟩)
    (h : Sound ⟨request, .looking name T (k :: rest)⟩)
    (hstands : s.Stands (.looking name T (k :: rest))) :
    Moves s i ⟨request, .looking name T (k :: rest)⟩ := by
  obtain ⟨now, hreq, hexpired⟩ := h
  obtain rfl : request = .pruneTimeline name now := hreq
  by_cases hk : pointsAt T.head (s.shared.refs.get k) = true
  · obtain ⟨hname, hset, hT⟩ := hstands hk
    have hread : s.settled.getTimeline name = .ok (some T) := by
      rw [RefStore.getTimeline_eq_some, hname.get, hT]
    have hfound : (s.settled.list "").any (fun k => pointsAt T.head (s.settled.get k)) = true := by
      rw [List.any_eq_true]
      refine ⟨k, RefStore.mem_list.mpr ⟨?_, rfl⟩, by rw [hset.get, hk]⟩
      rw [hset.get]
      cases hget : s.shared.refs.get k with
      | none => simp [hget, pointsAt] at hk
      | some r => exact ⟨r, rfl⟩
    refine moves_effect hi rfl rfl (by simp only [RefProgress.step, if_pos hk]; rfl) ?_
    simp only [RefProgress.step, if_pos hk, RefRequest.perform, RefStore.pruneTimeline, hread,
      if_pos hexpired, if_pos hfound]
    rfl
  · refine moves_silent hi ?_ ?_ ?_ <;> simp only [RefProgress.step, if_neg hk] <;> rfl

lemma moves_looking_nil (hi : s.calls[i]? = some ⟨request, .looking name T []⟩)
    (h : Sound ⟨request, .looking name T []⟩) (hname : s.Settled name)
    (hT : s.shared.refs.get name = some (.timeline T))
    (htags : ∀ k, pointsAt T.head (s.settled.get k) = false) :
    Moves s i ⟨request, .looking name T []⟩ := by
  obtain ⟨now, hreq, hexpired⟩ := h
  obtain rfl : request = .pruneTimeline name now := hreq
  have hread : s.settled.getTimeline name = .ok (some T) := by
    rw [RefStore.getTimeline_eq_some, hname.get, hT]
  have hnone : ¬ (s.settled.list "").any (fun k => pointsAt T.head (s.settled.get k)) = true := by
    rw [List.any_eq_true]
    rintro ⟨k, -, hk⟩
    rw [htags k] at hk
    cases hk
  refine moves_effect hi rfl rfl rfl ?_
  simp only [RefRequest.perform, RefStore.pruneTimeline, hread, if_pos hexpired, if_neg hnone]
  exact congrArg (Prod.mk _) (s.shared.refs.applyAtomic_write none hname).symm

/-! ### Points of a transaction -/

variable {ops rest : List RefOp} {overlay : BTreeMap RefName (Option Ref)} {reads plan : Plan}

/-- While a transaction has not begun to write, the refs are those of the backend. -/
lemma Locked.settled_eq (hlock : s.Locked) (hi : s.calls[i]? = some c)
    (hholds : c.progress.holds = true) (hrest : c.progress.rest = []) :
    s.settled = s.shared.refs := by
  rw [settled, hlock.pending_eq hi hholds, hrest]
  rfl

lemma moves_resolving (hlock : s.Locked)
    (hi : s.calls[i]? = some ⟨request, .resolving ops (op :: rest) overlay reads⟩)
    (h : Sound ⟨request, .resolving ops (op :: rest) overlay reads⟩)
    (hstands : s.Stands (.resolving ops (op :: rest) overlay reads)) :
    Moves s i ⟨request, .resolving ops (op :: rest) overlay reads⟩ := by
  obtain rfl : request = .commit ops := h.1
  cases hn : currentRef (fun n => .ok (s.shared.refs.get n)) overlay op >>= op.next with
  | error e =>
      have hagrees : Agrees reads s.shared.refs :=
        hstands ⟨_, by simp only [RefProgress.resolveStep, hn]; rfl⟩
      have hfails : resolve (fun n => .ok (s.shared.refs.get n)) ops = .error e := by
        have hloop := h.2 s.shared.refs hagrees
        rw [resolveLoop, ← bind_assoc, hn] at hloop
        rw [resolve, hloop]
        rfl
      refine moves_effect hi rfl rfl
        (by simp only [RefProgress.step, RefProgress.resolveStep, hn]; rfl) ?_
      simp only [RefProgress.step, RefProgress.resolveStep, hn]
      show (s.settled.commit ops).map _ id = (_, s.settled)
      rw [hlock.settled_eq hi rfl rfl, RefStore.commit, hfails]
      rfl
  | ok v =>
      refine moves_silent hi ?_ ?_ ?_ <;>
        simp only [RefProgress.step, RefProgress.resolveStep, hn] <;> rfl

/-- The effect of a transaction whose readings still stand is its plan. -/
lemma commit_planned (hlock : s.Locked) (hi : s.calls[i]? = some ⟨request, .planned ops reads plan⟩)
    (h : Sound ⟨request, .planned ops reads plan⟩) (hagrees : Agrees reads s.shared.refs) :
    request.perform s.settled = (.done (.ok ()), s.shared.refs.applyAtomic plan) := by
  obtain rfl : request = .commit ops := h.1
  show (s.settled.commit ops).map _ id = _
  rw [hlock.settled_eq hi rfl rfl, RefStore.commit, h.2 _ hagrees]
  rfl

lemma moves_planned (hlock : s.Locked) (hi : s.calls[i]? = some ⟨request, .planned ops reads plan⟩)
    (h : Sound ⟨request, .planned ops reads plan⟩) (hagrees : Agrees reads s.shared.refs) :
    Moves s i ⟨request, .planned ops reads plan⟩ := by
  have hperform := commit_planned hlock hi h hagrees
  cases plan with
  | nil =>
      refine moves_effect hi rfl rfl rfl (hperform.trans ?_)
      show _ = (_, s.settled)
      rw [hlock.settled_eq hi rfl rfl]
      rfl
  | cons e plan =>
      refine ⟨rfl, Or.inr ⟨_, rfl, rfl, hperform.trans ?_⟩⟩
      congr 1
      show _ = settled _
      rw [settled, hlock.pending_set hi rfl]
      exact s.shared.refs.applyAtomic_cons e plan

lemma moves_applying (hlock : s.Locked) (hi : s.calls[i]? = some ⟨request, .applying plan⟩) :
    Moves s i ⟨request, .applying plan⟩ := by
  cases plan with
  | nil => exact moves_silent hi rfl rfl rfl
  | cons e plan =>
      refine ⟨rfl, Or.inl ⟨rfl, ?_⟩⟩
      show settled _ = settled _
      rw [settled, settled, hlock.pending_set hi rfl, hlock.pending_eq hi rfl]
      exact (s.shared.refs.applyAtomic_cons e plan).symm

/-- **A step on readings that still stand** has no effect, or that of the operation made
whole. -/
lemma point_of_steady (hlock : s.Locked) (hi : s.calls[i]? = some c) (h : Sound c)
    (hstands : s.Stands c.progress) : Moves s i c := by
  obtain ⟨request, progress⟩ := c
  cases progress with
  | update op => exact moves_update hi h hstands
  | writing op seen v => exact moves_writing hi h hstands.1 hstands.2
  | deleting name => exact moves_deleting hi h hstands
  | prune name now => exact moves_prune hi h hstands
  | listing name T => exact moves_silent hi rfl rfl rfl
  | looking name T rest =>
      cases rest with
      | nil => exact moves_looking_nil hi h hstands.1 hstands.2.1 hstands.2.2
      | cons k rest => exact moves_looking_cons hi h hstands
  | commit ops =>
      refine moves_silent hi ?_ ?_ ?_ <;> simp only [RefProgress.step] <;> split <;> rfl
  | resolving ops rest overlay reads =>
      cases rest with
      | nil => exact moves_silent hi rfl rfl rfl
      | cons op rest => exact moves_resolving hlock hi h hstands
  | planned ops reads plan => exact moves_planned hlock hi h hstands
  | applying plan => exact moves_applying hlock hi
  | returned o => exact moves_silent hi rfl rfl rfl

end Points

/-! ### Creations -/

section Creations

variable {n : RefName} {s t : RefStore} {calls : List RefCall} {order : List ℕ} {i j : ℕ}
  {c d : RefCall}

/-- Only a deletion takes a value away. -/
lemma isSome_of_next {op : RefOp} {current v : Option Ref} (hop : op ≠ .delete op.name)
    (h : op.next current = .ok (some v)) : v.isSome = true := by
  cases op with
  | delete name => exact absurd rfl hop
  | _ =>
      simp only [RefOp.next] at h
      repeat' split at h
      all_goals first | cases h; rfl | cases h

lemma isSome_write {op : RefOp} {v : Option Ref} (hop : op ≠ .delete n)
    (hv : op.next (s.get op.name) = .ok (some v)) (hn : (s.get n).isSome = true) :
    (Function.update s.map op.name v n).isSome = true := by
  by_cases hname : n = op.name
  · subst hname
    rw [Function.update_self]
    exact isSome_of_next hop hv
  · rw [Function.update_of_ne hname]
    exact hn

lemma isSome_readWrite {op : RefOp} (hop : op ≠ .delete n) (hn : (s.get n).isSome = true) :
    ((s.readWrite op).2.get n).isSome = true := by
  rw [RefStore.readWrite]
  split
  · exact hn
  · exact hn
  · next v hv =>
      show ((s.write (op.name, v)).map n).isSome = true
      rw [RefStore.map_write]
      exact isSome_write hop hv hn

lemma isSome_applyOps {ops : List RefOp} {m m' : RefMap} (hops : .delete n ∉ ops)
    (h : RefMap.applyOps ops m = .ok m') (hn : (m n).isSome = true) : (m' n).isSome = true := by
  induction ops generalizing m with
  | nil =>
      obtain rfl : m = m' := by simpa [RefMap.applyOps] using h
      exact hn
  | cons op ops ih =>
      rw [List.mem_cons, not_or] at hops
      rw [RefMap.applyOps, Result.bind_eq_ok] at h
      obtain ⟨m₁, h₁, h⟩ := h
      refine ih hops.2 h ?_
      by_cases hname : n = op.name
      · subst hname
        rw [RefMap.applyOp] at h₁
        split at h₁
        · cases h₁
        · cases h₁
          exact hn
        · next v hv =>
            cases h₁
            rw [Function.update_self]
            exact isSome_of_next (Ne.symm hops.1) hv
      · rw [RefMap.applyOp_of_ne h₁ hname]
        exact hn

/-- A name lasts as long as nothing deletes it. -/
lemma isSome_perform {request : RefRequest} (hkeep : request.deletes n = false)
    (hn : (s.get n).isSome = true) : ((request.perform s).2.get n).isSome = true := by
  cases request with
  | createTag => exact isSome_readWrite (by simp) hn
  | moveTag => exact isSome_readWrite (by simp) hn
  | createTimeline => exact isSome_readWrite (by simp) hn
  | advanceHead => exact isSome_readWrite (by simp) hn
  | deleteRef name =>
      have hne : n ≠ name := fun h => by simp [RefRequest.deletes, h] at hkeep
      show ((s.write (name, none)).map n).isSome = true
      rw [RefStore.map_write, Function.update_of_ne hne]
      exact hn
  | pruneTimeline name now =>
      have hne : n ≠ name := fun h => by simp [RefRequest.deletes, h] at hkeep
      show ((s.pruneTimeline name now).2.get n).isSome = true
      rw [RefStore.pruneTimeline]
      split
      · exact hn
      · exact hn
      · split_ifs
        · exact hn
        · show ((s.write (name, none)).map n).isSome = true
          rw [RefStore.map_write, Function.update_of_ne hne]
          exact hn
        · exact hn
  | commit ops =>
      show ((s.commit ops).2.get n).isSome = true
      cases hc : s.commit ops with
      | mk result t =>
          cases result with
          | error e =>
              rw [RefStore.commit_error hc]
              exact hn
          | ok u =>
              exact isSome_applyOps (by simpa [RefRequest.deletes] using hkeep)
                (RefStore.commit_ok hc) hn

/-- A creation that succeeds found its name free and has taken it. -/
lemma perform_creates {request : RefRequest} (hcreates : request.creates = some n)
    (h : request.perform s = (.done (.ok ()), t)) :
    s.get n = none ∧ (t.get n).isSome = true := by
  obtain ⟨op, rfl, hop, hperform⟩ : ∃ op : RefOp, op.name = n ∧ op.creates = true ∧
      request.perform s = (s.readWrite op).map .done id := by
    cases request <;> cases hcreates
    · exact ⟨_, rfl, rfl, rfl⟩
    · exact ⟨_, rfl, rfl, rfl⟩
  rw [hperform] at h
  have hfree : s.get op.name = none := by
    cases hget : s.get op.name with
    | none => rfl
    | some r =>
        cases op <;> simp_all [RefOp.creates, RefOp.next, RefOp.name, RefStore.readWrite]
  obtain ⟨v, hv⟩ : ∃ v, op.next none = .ok (some (some v)) := by
    cases op <;> first | exact ⟨_, rfl⟩ | cases hop
  rw [RefStore.readWrite, hfree, hv] at h
  obtain rfl : s.write (op.name, some v) = t := (Prod.mk.inj h).2
  refine ⟨hfree, ?_⟩
  show ((s.write (op.name, some v)).map op.name).isSome = true
  rw [RefStore.map_write, Function.update_self]
  rfl

/-- No creation of a name succeeds after it is there. -/
lemma serial_creates (h : Serial reading calls s order t)
    (hkeep : ∀ c ∈ calls, c.request.deletes n = false) (hn : (s.get n).isSome = true)
    (hi : i ∈ order) (hc : calls[i]? = some c) (hcreates : c.request.creates = some n) :
    c.progress.outcome ≠ some (.done (.ok ())) := by
  induction h with
  | nil _ => simp at hi
  | @cons v w x k rest d o hk ho hp _ ih =>
      have hd := hkeep d (List.mem_of_getElem? hk)
      rcases List.mem_cons.mp hi with rfl | hi
      · obtain rfl : c = d := by simpa [hc] using hk
        intro hok
        obtain rfl : o = .done (.ok ()) := Option.some.inj (ho.symm.trans hok)
        simp [(perform_creates hcreates hp).1] at hn
      · refine ih ?_ hi
        have hlast := isSome_perform hd hn
        rw [show d.request.perform v = (o, w) from hp] at hlast
        exact hlast

/-- No creation of a name succeeds after another has, as long as nothing deletes the name. -/
lemma serial_after_creation {o : RefOutcome} {v w : RefStore}
    (ho : c.progress.outcome = some o) (hp : c.request.perform v = (o, w))
    (hcreates : c.request.creates = some n) (hok : c.progress.outcome = some (.done (.ok ())))
    (hrest : Serial reading calls w order t)
    (hkeep : ∀ c ∈ calls, c.request.deletes n = false) (hj : j ∈ order)
    (hd : calls[j]? = some d) (hcreates' : d.request.creates = some n) :
    d.progress.outcome ≠ some (.done (.ok ())) := by
  obtain rfl : o = .done (.ok ()) := Option.some.inj (ho.symm.trans hok)
  exact serial_creates hrest hkeep (perform_creates hcreates hp).2 hj hd hcreates'

/-- Of two creations of a name at most one succeeds, unless something deletes the name. -/
lemma serial_two_creations (h : Serial reading calls s order t)
    (hkeep : ∀ c ∈ calls, c.request.deletes n = false) (hij : i ≠ j) (hi : i ∈ order)
    (hj : j ∈ order) (hc : calls[i]? = some c) (hd : calls[j]? = some d)
    (hcreates : c.request.creates = some n) (hcreates' : d.request.creates = some n)
    (hok : c.progress.outcome = some (.done (.ok ())))
    (hok' : d.progress.outcome = some (.done (.ok ()))) : False := by
  induction h with
  | nil _ => simp at hi
  | @cons v w x k rest a o hk ho hp hrest ih =>
      -- the first of the two in the order takes the name
      rcases List.mem_cons.mp hi with rfl | hi'
      · obtain rfl : c = a := by simpa [hc] using hk
        have hlater : j ∈ rest := List.mem_of_ne_of_mem (Ne.symm hij) hj
        exact serial_after_creation ho hp hcreates hok hrest hkeep hlater hd hcreates' hok'
      · rcases List.mem_cons.mp hj with rfl | hj'
        · obtain rfl : d = a := by simpa [hd] using hk
          exact serial_after_creation ho hp hcreates' hok' hrest hkeep hi' hc hcreates hok
        · exact ih hi' hj'

end Creations

/-! ### Runs -/

section Runs

variable {refs : RefStore} {t : RefCalls} {steps : List (RefCalls × Action RefCall)}
  {order : List ℕ}

/-- The results of all calls and the refs are those of the calls made whole in the given
order. -/
def Explains (refs : RefStore) (t : RefCalls) (order : List ℕ) : Prop :=
  order.Perm (List.range t.calls.length) ∧ Serial reading t.calls refs order t.shared.refs

/-- A call that has returned comes before the calls made after it. -/
def InTime (steps : List (RefCalls × Action RefCall)) (order : List ℕ) : Prop :=
  ∀ p ∈ steps, ∀ i j c o, p.1.calls[i]? = some c → c.progress = .returned o →
    p.1.calls.length ≤ j → order.idxOf i < order.idxOf j

/-- Two creations of one name do not both succeed unless some call deletes it. -/
def CreatesOnce (t : RefCalls) : Prop :=
  ∀ (i j : ℕ) (c d : RefCall) (n : RefName), i ≠ j → t.calls[i]? = some c → t.calls[j]? = some d →
    c.request.creates = some n → d.request.creates = some n →
    c.progress = .returned (.done (.ok ())) → d.progress = .returned (.done (.ok ())) →
    ∃ e ∈ t.calls, e.request.deletes n = true

/-- What a direct operation writes comes from the ref as it is when it is written: it replaces
no value that it has not read. -/
def WritesCurrent (steps : List (RefCalls × Action RefCall)) : Prop :=
  ∀ p ∈ steps, ∀ i c op seen v, p.2 = .step i → p.1.calls[i]? = some c →
    c.progress = .writing op seen v → op.next (p.1.shared.refs.get op.name) = .ok (some v)

/-- Every call has returned. -/
def Done (t : RefCalls) : Prop := ∀ c ∈ t.calls, ∃ o, c.progress = .returned o

lemma settled_of_done (h : t.Done) : t.settled = t.shared.refs := by
  have hnil : t.pending = [] := by
    rw [pending, List.flatMap_eq_nil_iff]
    intro c hc
    obtain ⟨o, ho⟩ := h c hc
    rw [ho]
    rfl
  rw [settled, hnil]
  rfl

/-- What the calls have read fits their requests, and one of them holds the lock if it is
taken. -/
structure Inv (s : RefCalls) : Prop where
  locked : s.Locked
  sound : ∀ c ∈ s.calls, Sound c

lemma Inv.initial (refs : RefStore) : Inv (initial refs) := ⟨rfl, by simp [RefCalls.initial]⟩

lemma Inv.call {s : RefCalls} {c : RefCall} (h : s.Inv) (hc : c.Starts) :
    Inv ⟨s.shared, s.calls ++ [c]⟩ := by
  refine ⟨h.locked.call hc, fun d hd => ?_⟩
  rcases List.mem_append.mp hd with hd | hd
  · exact h.sound d hd
  · rw [List.mem_singleton.mp hd]
    exact .start hc

lemma Inv.step {s : RefCalls} {c : RefCall} {i : ℕ} (h : s.Inv) (hi : s.calls[i]? = some c) :
    Inv ⟨(c.step s.shared).2, s.calls.set i (c.step s.shared).1⟩ := by
  refine ⟨h.locked.step hi, fun d hd => ?_⟩
  rcases List.mem_or_eq_of_mem_set hd with hd | rfl
  · exact h.sound d hd
  · exact (h.sound c (List.mem_of_getElem? hi)).step s.shared

/-- The invariant holds in every run, steady or not. -/
lemma run_inv (hrun : Run Step (initial refs) steps t) : t.Inv := by
  refine hrun.invariant Inv (fun _ _ => True) (fun u a u' hu _ huv => ?_) (fun _ _ => trivial)
    (.initial refs)
  cases huv with
  | call hc => exact hu.call hc
  | step hi => exact hu.step hi
  | env he => exact he.elim

lemma view_call {s : RefCalls} {c : RefCall} (hc : c.Starts) :
    c.progress.outcome = none ∧ settled ⟨s.shared, s.calls ++ [c]⟩ = s.settled := by
  have hbegin : c.progress.outcome = none ∧ c.progress.rest = [] := by
    rw [hc]
    cases c.request <;> exact ⟨rfl, rfl⟩
  refine ⟨hbegin.1, ?_⟩
  rw [settled, settled, pending, List.flatMap_append, List.flatMap_singleton, hbegin.2,
    List.append_nil]
  rfl

/-- The calls of every steady run are linearized. -/
lemma run_steady (hrun : Run Step (initial refs) steps t) (hsteady : ∀ p ∈ steps, p.1.Steady p.2) :
    ∃ order, Linearized reading refs t order ∧ InTime steps order := by
  obtain ⟨-, order, hlin, hbefore⟩ := run_linearized (R := reading) Inv Steady
    (fun _ _ h => h) (fun s c hc hs => ⟨hs.call hc, view_call hc⟩)
    (fun s i c hs hok hi => ⟨hs.step hi, point_of_steady hs.locked hi
      (hs.sound c (List.mem_of_getElem? hi)) (hok c hi)⟩)
    (.initial refs) (.empty rfl) hrun hsteady
  rw [List.nil_append] at hlin hbefore
  refine ⟨order, hlin, fun p hp i j c o hi ho hj => hbefore p hp i j c hi ?_ hj⟩
  show c.progress.outcome.isSome = true
  rw [ho]
  rfl

lemma createsOnce_of_linearized (h : Linearized reading refs t order) : t.CreatesOnce := by
  intro i j c d n hij hi hj hc hd hok hok'
  have houtcome : ∀ {e : RefCall}, e.progress = .returned (.done (.ok ())) →
      e.progress.outcome = some (.done (.ok ())) := fun he => by rw [he]; rfl
  have hmem : ∀ {k : ℕ} {e : RefCall}, t.calls[k]? = some e →
      e.progress = .returned (.done (.ok ())) → k ∈ order := fun hk he =>
    (h.mem_iff _).mpr ⟨_, hk, Option.isSome_iff_exists.mpr ⟨_, houtcome he⟩⟩
  by_contra hnone
  push Not at hnone
  exact serial_two_creations h.serial (fun e he => by simpa using hnone e he) hij (hmem hi hok)
    (hmem hj hok') hi hj hc hd (houtcome hok) (houtcome hok')

lemma run_writesCurrent (hrun : Run Step (initial refs) steps t)
    (hsteady : ∀ p ∈ steps, p.1.Steady p.2) : WritesCurrent steps := by
  intro p hp i c op seen v hact hi hc
  obtain ⟨pre, post, u, hpre, -, -⟩ := hrun.split hp
  have hsound := (run_inv hpre).sound c (List.mem_of_getElem? hi)
  have hstands := hsteady p hp
  rw [hact] at hstands
  have hstands := hstands c hi
  rw [Sound, hc] at hsound
  rw [hc] at hstands
  rw [hstands.2]
  exact hsound.2

/-- **Ref operations are linearizable** in every run in which each step is taken on readings that
still stand: the results of the calls that have one, and the refs, are those of the calls made
whole in an order that keeps to the time at which they were made. -/
theorem linearizable_of_steady (hrun : Run Step (initial refs) steps t)
    (hsteady : ∀ p ∈ steps, p.1.Steady p.2) :
    (∃ order, Linearized reading refs t order ∧ InTime steps order ∧
      (t.Done → Explains refs t order)) ∧ t.CreatesOnce ∧ WritesCurrent steps := by
  obtain ⟨order, hlin, htime⟩ := run_steady hrun hsteady
  refine ⟨⟨order, hlin, htime, fun hdone => ⟨hlin.perm fun c hc => ?_, ?_⟩⟩,
    createsOnce_of_linearized hlin, run_writesCurrent hrun hsteady⟩
  · obtain ⟨o, ho⟩ := hdone c hc
    show c.progress.outcome.isSome = true
    rw [ho]
    rfl
  · rw [← settled_of_done hdone]
    exact hlin.serial

end Runs

/-! ### Two creations at once -/

def releaseName : RefName := ⟨"v1", RefName.valid_v1⟩

def laterName : RefName := ⟨"v2", by decide +kernel⟩

def releaseTarget (b : UInt8) : ObjectId := ⟨Digest.replicate b⟩

/-- The tag that a creation at time `0` makes. -/
def releaseTag (target : ObjectId) : Ref := .tag ⟨target, 0, none⟩

/-- A creation of a tag. -/
def creation (name : RefName) (target : ObjectId) : RefRequest := .createTag name target none 0

/-- Two creations that have both read their names and then both written them. -/
def createdBoth (name name' : RefName) (target target' : ObjectId) : RefCalls where
  shared := ⟨((⟨∅⟩ : RefStore).write (name, some (releaseTag target))).write
    (name', some (releaseTag target')), false⟩
  calls := [⟨creation name target, .returned (.done (.ok ()))⟩,
    ⟨creation name' target', .returned (.done (.ok ()))⟩]

/-- A creation that has found its name free. -/
def foundFree (name : RefName) (target : ObjectId) : RefCall :=
  ⟨creation name target, .writing (.createTag name target none 0) none (some (releaseTag target))⟩

/-- The states in which the two take their steps. -/
def creationSteps (name name' : RefName) (target target' : ObjectId) :
    List (RefCalls × Action RefCall) :=
  let c : RefCall := ⟨creation name target, (creation name target).begin⟩
  let d : RefCall := ⟨creation name' target', (creation name' target').begin⟩
  [(initial ⟨∅⟩, .call c),
    (⟨⟨⟨∅⟩, false⟩, [c]⟩, .call d),
    (⟨⟨⟨∅⟩, false⟩, [c, d]⟩, .step 0),
    (⟨⟨⟨∅⟩, false⟩, [foundFree name target, d]⟩, .step 1),
    (⟨⟨⟨∅⟩, false⟩, [foundFree name target, foundFree name' target']⟩, .step 0),
    (⟨⟨(⟨∅⟩ : RefStore).write (name, some (releaseTag target)), false⟩,
      [⟨creation name target, .returned (.done (.ok ()))⟩, foundFree name' target']⟩, .step 1)]

/-- Two creations can both read before either writes. -/
lemma run_creations (name name' : RefName) (target target' : ObjectId) :
    Run Step (initial ⟨∅⟩) (creationSteps name name' target target')
      (createdBoth name name' target target') :=
  .cons (.call rfl) <| .cons (.call rfl) <| .cons (.step rfl) <| .cons (.step rfl) <|
    .cons (.step rfl) <| .cons (.step rfl) <| .nil _

lemma createdBoth_done (name name' : RefName) (target target' : ObjectId) :
    (createdBoth name name' target target').Done := by
  intro c hc
  rcases List.mem_pair.mp hc with rfl | rfl
  · exact ⟨_, rfl⟩
  · exact ⟨_, rfl⟩

/-- The calls that run into each other: one name, two targets. -/
def raced : RefCalls :=
  createdBoth releaseName releaseName (releaseTarget 1) (releaseTarget 2)

/-- **Two creations of one name both succeed** when each reads before the other writes, and no
order of the two explains that. -/
theorem creations_race :
    Run Step (initial ⟨∅⟩)
      (creationSteps releaseName releaseName (releaseTarget 1) (releaseTarget 2)) raced ∧
    raced.Done ∧ (¬ ∃ order, Explains ⟨∅⟩ raced order) ∧ ¬ raced.CreatesOnce := by
  refine ⟨run_creations _ _ _ _, createdBoth_done _ _ _ _, ?_, ?_⟩
  · rintro ⟨order, hperm, hserial⟩
    have hmem : ∀ i, i < 2 → i ∈ order := fun i hi => hperm.mem_iff.mpr (List.mem_range.mpr hi)
    refine serial_two_creations (n := releaseName) hserial ?_ Nat.zero_ne_one (hmem 0 (by omega))
      (hmem 1 (by omega)) rfl rfl rfl rfl rfl rfl
    intro c hc
    rcases List.mem_pair.mp hc with rfl | rfl <;> rfl
  · intro h
    obtain ⟨e, he, hdeletes⟩ := h 0 1 _ _ _ Nat.zero_ne_one rfl rfl rfl rfl rfl rfl
    rcases List.mem_pair.mp he with rfl | rfl <;> cases hdeletes

/-- Creations of different names do not disturb each other. -/
lemma steady_creations {name name' : RefName} (hne : name' ≠ name) (target target' : ObjectId) :
    ∀ p ∈ creationSteps name name' target target', p.1.Steady p.2 := by
  have hsettled : ∀ (x : SharedRefs) (c d : RefCall) (n : RefName), c.progress.rest = [] →
      d.progress.rest = [] → Settled ⟨x, [c, d]⟩ n := by
    intro x c d n hc hd
    simp [Settled, pending, hc, hd]
  have hother : ((⟨∅⟩ : RefStore).write (name, some (releaseTag target))).get name' = none := by
    show ((⟨∅⟩ : RefStore).write (name, some (releaseTag target))).map name' = none
    rw [RefStore.map_write, Function.update_of_ne hne]
    rfl
  intro p hp
  simp only [creationSteps, List.mem_cons, List.not_mem_nil, or_false] at hp
  rcases hp with rfl | rfl | rfl | rfl | rfl | rfl
  · trivial
  · trivial
  · rintro c hc
    cases hc
    exact hsettled _ _ _ _ rfl rfl
  · rintro c hc
    cases hc
    exact hsettled _ _ _ _ rfl rfl
  · rintro c hc
    cases hc
    exact ⟨hsettled _ _ _ _ rfl rfl, rfl⟩
  · rintro c hc
    cases hc
    exact ⟨hsettled _ _ _ _ rfl rfl, hother⟩

/-- Two creations of different names, both read before either is written, are explained by an
order of the two. -/
theorem linearizable_two_names :
    ∃ order, Explains ⟨∅⟩
      (createdBoth releaseName laterName (releaseTarget 1) (releaseTarget 2)) order := by
  obtain ⟨⟨order, -, -, hexplains⟩, -⟩ :=
    linearizable_of_steady (run_creations releaseName laterName (releaseTarget 1) (releaseTarget 2))
      (steady_creations (by decide +kernel) _ _)
  exact ⟨order, hexplains (createdBoth_done _ _ _ _)⟩

end RefCalls

end Bole
