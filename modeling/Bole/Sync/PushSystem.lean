import Bole.Lib.Interleave
import Bole.Sync.Push

/-!
Pushes among others.

A call of `apply_push_ops` checks its operations one after another, each against the timeline
it finds then, and commits those that pass at the end.  In between anything may happen to the
refs.  The commit compares heads only: an operation that was checked while its timeline was
absent or unrestricted has not been tested for fast-forward, whatever the timeline is when the
commit comes to it.

* `step_alone`: the steps of a call on one state are the call;
* `Tested`: the operations a commit advances a protected timeline by were checked against a
  protected one;
* `push_never_rewinds`: in every run whose commits are tested, no push rewinds a protected
  timeline;
* `push_rewinds_recreated`: a run in which one does.
-/

namespace Bole

open Repository

/-! ### A call among others -/

/-- What a call has found so far.  With each operation that passed stands the timeline it was
checked against, which the code forgets. -/
structure PushProgress where
  accessor : Accessor
  binding : PushBinding
  results : List RefStatusEntry
  accepted : List (RefUpdateOp × Option Timeline)

namespace PushProgress

def refuse (p : PushProgress) (op : RefUpdateOp) (status : RefApplyStatus) : PushProgress :=
  { p with results := p.results ++ [⟨op.name, status⟩] }

def accept (p : PushProgress) (op : RefUpdateOp) (current : Option Timeline) : PushProgress :=
  { p with accepted := p.accepted ++ [(op, current)] }

/-- The operations the commit is made of. -/
def ops (p : PushProgress) : List RefUpdateOp := p.accepted.map Prod.fst

end PushProgress

/-- How far a call has come. -/
inductive PushCall where
  | called (accessor : Accessor) (ops : List RefUpdateOp)
  | checking (p : PushProgress) (todo : List RefUpdateOp)
  | gated (p : PushProgress) (op : RefUpdateOp) (current : Option Timeline)
      (todo : List RefUpdateOp)
  | returned (result : Result (List RefStatusEntry))

namespace PushCall

/-- The next stretch of a call, on the state it finds. -/
def step (L : Linked) (r : Repository) : PushCall → PushCall × Repository
  | called accessor ops =>
      match r.bindPush L with
      | .error e => (returned (.error e), r)
      | .ok b =>
          if !b.registry.deterministic then (returned (.ok (refuseAll b ops)), r)
          else (checking ⟨accessor, b, [], []⟩ ops, r)
  | checking p [] =>
      (returned (r.commitPush p.results p.ops).1, (r.commitPush p.results p.ops).2)
  | checking p (op :: todo) =>
      match r.gateOp L p.accessor p.binding op with
      | .error e => (returned (.error e), r)
      | .ok (.error status) => (checking (p.refuse op status) todo, r)
      | .ok (.ok current) => (gated p op current todo, r)
  | gated p op current todo =>
      match r.policyOp L p.accessor p.binding op current with
      | some status => (checking (p.refuse op status) todo, r)
      | none => (checking (p.accept op current) todo, r)
  | returned result => (returned result, r)

variable {L : Linked} {r : Repository}

/-- The steps of one call on a state that nobody else changes. -/
def alone (L : Linked) (n : ℕ) (c : PushCall) (r : Repository) : PushCall × Repository :=
  (fun s : PushCall × Repository => step L s.2 s.1)^[n] (c, r)

lemma alone_succ (n : ℕ) (c : PushCall) :
    alone L (n + 1) c r = alone L n (step L r c).1 (step L r c).2 := by
  rw [alone, Function.iterate_succ_apply]
  rfl

lemma alone_returned (n : ℕ) (result : Result (List RefStatusEntry)) :
    alone L n (returned result) r = (returned result, r) := by
  induction n with
  | zero => rfl
  | succ n ih => rw [alone_succ, step, ih]

/-- From the checks on. -/
lemma alone_checking (todo : List RefUpdateOp) (p : PushProgress) {n : ℕ}
    (hn : 2 * todo.length + 1 ≤ n) :
    alone L n (checking p todo) r =
      match r.checkOps L p.accessor p.binding todo with
      | .error e => (returned (.error e), r)
      | .ok (results, accepted) =>
          (returned (r.commitPush (p.results ++ results) (p.ops ++ accepted)).1,
            (r.commitPush (p.results ++ results) (p.ops ++ accepted)).2) := by
  induction todo generalizing p n with
  | nil =>
      obtain ⟨m, rfl⟩ : ∃ m, n = m + 1 := ⟨n - 1, by simp at hn; omega⟩
      rw [alone_succ, step, alone_returned, checkOps]
      simp
  | cons op todo ih =>
      rw [List.length_cons] at hn
      obtain ⟨m, rfl⟩ : ∃ m, n = m + 1 + 1 := ⟨n - 2, by omega⟩
      rw [alone_succ, step, checkOps]
      cases hg : r.gateOp L p.accessor p.binding op with
      | error e => simp [alone_returned, bind, Except.bind]
      | ok g =>
        cases g with
        | error status =>
            dsimp only
            rw [ih _ (by omega)]
            cases hc : r.checkOps L p.accessor p.binding todo with
            | error e => simp [PushProgress.refuse, hc, bind, Except.bind]
            | ok q => simp [PushProgress.refuse, PushProgress.ops, hc, bind, Except.bind]
        | ok current =>
            dsimp only
            rw [alone_succ, step]
            cases hp : r.policyOp L p.accessor p.binding op current with
            | some status =>
                dsimp only
                rw [ih _ (by omega)]
                cases hc : r.checkOps L p.accessor p.binding todo with
                | error e => simp [PushProgress.refuse, hc, hp, bind, Except.bind]
                | ok q => simp [PushProgress.refuse, PushProgress.ops, hc, hp, bind, Except.bind]
            | none =>
                dsimp only
                rw [ih _ (by omega)]
                cases hc : r.checkOps L p.accessor p.binding todo with
                | error e => simp [PushProgress.accept, hc, hp, bind, Except.bind]
                | ok q => simp [PushProgress.accept, PushProgress.ops, hc, hp, bind, Except.bind]

/-- **The steps of a call on one state are the call.** -/
lemma step_alone (accessor : Accessor) (ops : List RefUpdateOp) :
    alone L (2 * ops.length + 2) (called accessor ops) r =
      (returned (r.applyPushOps L accessor ops).1, (r.applyPushOps L accessor ops).2) := by
  rw [alone_succ, step, applyPushOps]
  cases hb : r.bindPush L with
  | error e => simp [alone_returned]
  | ok b =>
      dsimp only
      split_ifs
      · rw [alone_returned]
      · rw [alone_checking _ _ le_rfl]
        cases r.checkOps L accessor b ops <;> rfl

/-! ### What a commit does -/

/-- Operations that each lead to a descendant of the head they expect lead a timeline that is
there to a descendant. -/
lemma applyOps_descends {s : ObjectStore} {n : RefName} {ops : List RefUpdateOp} {m m' : RefMap}
    {T : Timeline} (h : RefMap.applyOps (ops.map RefUpdateOp.refOp) m = .ok m')
    (hT : m n = some (.timeline T))
    (hops : ∀ op ∈ ops, op.name = n → ∀ old, op.expectedOld = some old →
      Descends L s op.newHead old) :
    ∃ T', m' n = some (.timeline T') ∧ T'.policy = T.policy ∧ Descends L s T'.head T.head := by
  induction ops generalizing m T with
  | nil =>
      cases h
      exact ⟨T, hT, rfl, .refl⟩
  | cons op rest ih =>
      rw [List.map_cons, RefMap.applyOps, Result.bind_eq_ok] at h
      obtain ⟨m₁, h₁, h⟩ := h
      have hrest : ∀ o ∈ rest, o.name = n → ∀ old, o.expectedOld = some old →
          Descends L s o.newHead old := fun o ho => hops o (List.mem_cons_of_mem _ ho)
      by_cases hn : op.name = n
      · rw [RefMap.applyOp, op.name_refOp, hn, hT, RefUpdateOp.refOp] at h₁
        cases he : op.expectedOld with
        | none => simp [he, RefOp.next] at h₁
        | some old =>
            simp only [he, RefOp.next] at h₁
            by_cases hold : T.head = old
            · rw [if_pos hold] at h₁
              obtain rfl :
                  Function.update m n (some (.timeline { T with head := op.newHead })) = m₁ :=
                Except.ok.inj h₁
              obtain ⟨T', hT', hp, hd⟩ := ih h (Function.update_self ..) hrest
              refine ⟨T', hT', hp, ?_⟩
              rw [hold]
              exact hd.trans (hops op (by simp) hn old he)
            · rw [if_neg hold] at h₁
              cases h₁
      · have hm : m₁ n = m n := RefMap.applyOp_of_ne h₁ (by rw [op.name_refOp]; exact Ne.symm hn)
        exact ih h (by rwa [hm]) hrest

end PushCall

/-! ### Any number of calls -/

/-- A repository and the pushes made on it so far. -/
abbrev PushSystem := Interleave.System Repository PushCall

/-- The timeline under a name. -/
def RefStore.timeline (s : RefStore) (n : RefName) : Option Timeline :=
  match s.get n with
  | some (.timeline T) => some T
  | _ => none

/-- A timeline that is there and protected. -/
def isProtected : Option Timeline → Bool
  | some T => decide (T.policy ≠ .unrestricted)
  | none => false

/-- Whether each operation a call is about to advance a protected timeline by was checked
against a protected one. -/
def PushCall.tested (r : Repository) : PushCall → Bool
  | .checking p [] => p.accepted.all fun q =>
      q.1.expectedOld.isNone || !isProtected (r.refs.timeline q.1.name) || isProtected q.2
  | _ => true

namespace PushSystem

/-- What happens besides the calls: objects arrive, a transaction on the refs (a timeline is
created, advanced, deleted), the labels or the hooks are changed. -/
inductive Env (L : Linked) : Repository → Repository → Prop where
  | objects {r : Repository} {objects : ObjectStore} (h : r.objects.Grows L objects) :
      Env L r { r with objects := objects }
  | transaction (r : Repository) (ops : List RefOp) :
      Env L r { r with refs := (r.refs.commit ops).2 }
  | configure (r : Repository) (acls : AclBackend) (hooks : List HookSpec) :
      Env L r { r with acls := acls, hooks := hooks }

/-- A call that is just being made. -/
def Fresh (c : PushCall) : Prop := ∃ accessor ops, c = .called accessor ops

/-- One thing happens. -/
def Step (L : Linked) : PushSystem → Interleave.Action PushCall → PushSystem → Prop :=
  Interleave.Step Fresh (PushCall.step L) (Env L)

/-- A commit that happens now is tested. -/
def Tested (s : PushSystem) (a : Interleave.Action PushCall) : Prop :=
  ∀ (i : ℕ) c, a = .step i → s.calls[i]? = some c → c.tested s.shared = true

/-- An operation that was checked against a protected timeline leads to a descendant. -/
def Forward (L : Linked) (r : Repository) (q : RefUpdateOp × Option Timeline) : Prop :=
  ∀ old, q.1.expectedOld = some old → isProtected q.2 = true →
    Descends L r.objects q.1.newHead old

/-- What a call knows of the operations that passed. -/
def Sound (L : Linked) (r : Repository) : PushCall → Prop
  | .checking p _ => ∀ q ∈ p.accepted, Forward L r q
  | .gated p op current _ => (∀ q ∈ p.accepted, Forward L r q) ∧ Forward L r (op, current)
  | _ => True

variable {L : Linked} {r r' : Repository}

lemma Forward.mono {q : RefUpdateOp × Option Timeline} (hq : Forward L r q)
    (h : r.objects.Grows L r'.objects) : Forward L r' q :=
  fun old ho hp => (hq old ho hp).mono h

lemma Sound.mono {c : PushCall} (hc : Sound L r c) (h : r.objects.Grows L r'.objects) :
    Sound L r' c := by
  cases c with
  | checking p todo => exact fun q hq => (hc q hq).mono h
  | gated p op current todo => exact ⟨fun q hq => (hc.1 q hq).mono h, hc.2.mono h⟩
  | _ => trivial

/-- The gate makes sure of it. -/
lemma forward_of_gateOp {accessor : Accessor} {b : PushBinding} {op : RefUpdateOp}
    {current : Option Timeline} (h : r.gateOp L accessor b op = .ok (.ok current)) :
    Forward L r (op, current) := by
  intro old ho hp
  cases current with
  | none => simp [isProtected] at hp
  | some remote =>
      have hff := (gateOp_ok h).fastForward old remote ho rfl (by simpa [isProtected] using hp)
      exact (findCommonAncestor_some hff).2

lemma env_grows (h : Env L r r') : r.objects.Grows L r'.objects := by
  cases h with
  | objects hg => exact hg
  | transaction ops => exact .refl L _
  | configure acls hooks => exact .refl L _

/-- No step of a call touches the objects. -/
lemma step_objects (c : PushCall) : (c.step L r).2.objects = r.objects := by
  cases c with
  | called accessor ops =>
      rw [PushCall.step]
      split
      · rfl
      · split_ifs <;> rfl
  | checking p todo =>
      cases todo with
      | nil => exact commitPush_objects r p.results p.ops
      | cons op todo =>
          rw [PushCall.step]
          split <;> rfl
  | gated p op current todo =>
      rw [PushCall.step]
      split <;> rfl
  | returned result => rfl

/-- **One stretch of a call**: it knows what it needs to. -/
lemma step_sound {c : PushCall} (hc : Sound L r c) : Sound L (c.step L r).2 (c.step L r).1 := by
  cases c with
  | called accessor ops =>
      rw [PushCall.step]
      split
      · trivial
      · split_ifs
        · trivial
        · simp [Sound]
  | checking p todo =>
      cases todo with
      | nil => trivial
      | cons op todo =>
          rw [PushCall.step]
          split
          · trivial
          · exact hc
          · next current hg => exact ⟨hc, forward_of_gateOp hg⟩
  | gated p op current todo =>
      rw [PushCall.step]
      split
      · exact hc.1
      · intro q hq
        rcases List.mem_append.mp hq with hq | hq
        · exact hc.1 q hq
        · rw [List.mem_singleton.mp hq]
          exact hc.2
  | returned result => trivial

open Transition

variable {s t : PushSystem} {steps : List (PushSystem × Interleave.Action PushCall)}

/-- **A run**: every call knows what it needs to. -/
lemma run_sound (hs : s.calls = []) (h : Run (Step L) s steps t) :
    ∀ c ∈ t.calls, Sound L t.shared c := by
  refine (Interleave.run_follows (fun x => .refl L x.objects) (fun _ _ _ => .trans) ?_
    (fun x c hc => ⟨?_, step_sound hc⟩) (fun _ _ => env_grows) (fun _ _ _ hf hc => hc.mono hf)
    (by simp [hs]) h).2
  · rintro x c ⟨accessor, ops, rfl⟩
    trivial
  · rw [step_objects]
    exact .refl L _

/-- **A step of a call whose commit is tested** moves a protected timeline to descendants
only. -/
lemma step_descends {c : PushCall} (hc : Sound L r c) (htest : c.tested r = true) {n : RefName}
    {T : Timeline} (hT : r.refs.get n = some (.timeline T)) (hp : T.policy ≠ .unrestricted) :
    ∃ T', (c.step L r).2.refs.get n = some (.timeline T') ∧ T'.policy = T.policy ∧
      Descends L r.objects T'.head T.head := by
  have hsame : ∀ x : Repository, x.refs = r.refs → ∃ T', x.refs.get n = some (.timeline T') ∧
      T'.policy = T.policy ∧ Descends L r.objects T'.head T.head :=
    fun x hx => ⟨T, by rw [hx, hT], rfl, .refl⟩
  cases c with
  | called accessor ops =>
      refine hsame _ ?_
      rw [PushCall.step]
      split
      · rfl
      · split_ifs <;> rfl
  | gated p op current todo =>
      refine hsame _ ?_
      rw [PushCall.step]
      split <;> rfl
  | returned result => exact hsame _ rfl
  | checking p todo =>
      cases todo with
      | cons op todo =>
          refine hsame _ ?_
          rw [PushCall.step]
          split <;> rfl
      | nil =>
          rcases commitPush_refs r p.results p.ops with hrefs | happ
          · exact hsame _ hrefs
          · refine PushCall.applyOps_descends happ hT fun op hop hn old ho => ?_
            obtain ⟨q, hq, rfl⟩ := List.mem_map.mp hop
            rw [PushCall.tested, List.all_eq_true] at htest
            have hnow : isProtected (r.refs.timeline q.1.name) = true := by
              simp [RefStore.timeline, hn, hT, isProtected, hp]
            have hthen : isProtected q.2 = true := by simpa [ho, hnow] using htest q hq
            exact hc q hq old ho hthen

/-- **No tested push rewinds a protected timeline.**  In every run whose commits are tested,
every step of a push leaves each timeline that is protected when it is taken at a descendant of
where it was. -/
theorem push_never_rewinds {s₀ : PushSystem} (h₀ : s₀.calls = [])
    (hrun : Run (Step L) s₀ steps t) (htested : ∀ p ∈ steps, Tested p.1 p.2) :
    ∀ p ∈ steps, ∀ (i : ℕ) c, p.2 = .step i → p.1.calls[i]? = some c →
      ∀ n T, p.1.shared.refs.get n = some (.timeline T) → T.policy ≠ .unrestricted →
        ∃ T', (c.step L p.1.shared).2.refs.get n = some (.timeline T') ∧ T'.policy = T.policy ∧
          Descends L p.1.shared.objects T'.head T.head := by
  intro p hp i c hpi hc n T hT hpol
  obtain ⟨pre, post, u, hpre, -, -⟩ := hrun.split hp
  have hsound := run_sound h₀ hpre c (List.mem_of_getElem? hc)
  exact step_descends hsound (htested p hp i c hpi hc) hT hpol

/-! ### A push that is tested -/

/-- A push of the second snapshot to the timeline at the first. -/
def forwardStart : PushSystem := ⟨pushRepo, [.called fullWriter [pushUpdate]]⟩

/-- The state after `k` steps of it. -/
def forwardState (k : ℕ) : PushSystem :=
  Interleave.solo (PushCall.step pushLinked) 0 forwardStart k

lemma forward_tested : ∀ k < 4, (forwardState k).calls[0]?.all
    (fun c => c.tested (forwardState k).shared) = true := by
  decide +kernel

lemma forward_get : (forwardState 3).shared.refs.get pushName =
      some (.timeline ⟨pushId 4, .fastForwardOnly, 0, "persistent", none⟩) ∧
    (forwardState 4).shared.refs.get pushName =
      some (.timeline ⟨pushId 5, .fastForwardOnly, 0, "persistent", none⟩) := by
  decide +kernel

/-- The run that consists of it. -/
def forwardSteps : List (PushSystem × Interleave.Action PushCall) :=
  (⟨pushRepo, []⟩, .call (.called fullWriter [pushUpdate])) ::
    (List.range 4).map fun k => (forwardState k, .step 0)

lemma forward_run : Run (Step pushLinked) ⟨pushRepo, []⟩ forwardSteps (forwardState 4) :=
  .cons (.call ⟨fullWriter, [pushUpdate], rfl⟩) (Interleave.run_solo (by simp) 4)

lemma forwardSteps_tested : ∀ p ∈ forwardSteps, Tested p.1 p.2 := by
  intro p hp i c hpi hc
  rcases List.mem_cons.mp hp with rfl | hp
  · cases hpi
  · obtain ⟨k, hk, rfl⟩ := List.mem_map.mp hp
    cases hpi
    have htest := forward_tested k (List.mem_range.mp hk)
    rw [show (forwardState k).calls[0]? = some c from hc] at htest
    exact htest

/-- The push moves the timeline, to a descendant. -/
theorem push_never_rewinds_forward :
    (forwardState 4).shared.refs.get pushName =
        some (.timeline ⟨pushId 5, .fastForwardOnly, 0, "persistent", none⟩) ∧
      Descends pushLinked (forwardState 3).shared.objects (pushId 5) (pushId 4) := by
  obtain ⟨c, hc⟩ : ∃ c, (forwardState 3).calls[0]? = some c :=
    Option.isSome_iff_exists.mp (by decide +kernel)
  have hlast : (forwardState 3, .step 0) ∈ forwardSteps :=
    List.mem_cons_of_mem _ (List.mem_map.mpr ⟨3, by simp, rfl⟩)
  obtain ⟨T, hT, -, hd⟩ := push_never_rewinds rfl forward_run forwardSteps_tested _ hlast 0 c rfl hc
    pushName _ forward_get.1 (by simp)
  have hstep : (c.step pushLinked (forwardState 3).shared).2 = (forwardState 4).shared :=
    congrArg Interleave.System.shared (Interleave.turn_eq hc).symm
  dsimp only at hT hd
  rw [hstep, forward_get.2] at hT
  cases hT
  exact ⟨forward_get.2, hd⟩

/-! ### A timeline that is created between check and commit -/

/-- Two snapshots of an empty tree that have nothing to do with each other. -/
def rewindObjects : List Object :=
  let tree : Object := .tree ⟨∅⟩
  [tree, .snapshot ⟨tree.refId, [], "", 0, "one"⟩, .snapshot ⟨tree.refId, [], "", 0, "other"⟩]

/-- The crates with a codec for these objects. -/
def rewindLinked : Linked := .over rewindObjects

def rewindId (i : ℕ) : ObjectId := (rewindObjects.getD i (.blob [])).refId

/-- The timeline is gone; a peer that still tracks it wants to move it from one to the other. -/
def rewindStart : PushSystem :=
  ⟨{ memory with objects := .holding rewindLinked rewindObjects },
    [.called fullWriter [⟨pushName, some (rewindId 1), rewindId 2⟩]]⟩

/-- The push has been checked. -/
def rewindChecked : PushSystem := Interleave.solo (PushCall.step rewindLinked) 0 rewindStart 3

/-- Meanwhile the timeline is created anew at the first. -/
def rewindCreated : PushSystem :=
  ⟨{ rewindChecked.shared with refs := (rewindChecked.shared.refs.commit
    [.createTimeline pushName (rewindId 1) .fastForwardOnly 0 "persistent" none]).2 },
    rewindChecked.calls⟩

lemma rewind_get : rewindCreated.shared.refs.get pushName =
      some (.timeline ⟨rewindId 1, .fastForwardOnly, 0, "persistent", none⟩) ∧
    (Interleave.turn (PushCall.step rewindLinked) rewindCreated 0).shared.refs.get pushName =
      some (.timeline ⟨rewindId 2, .fastForwardOnly, 0, "persistent", none⟩) ∧
    isAncestor rewindLinked rewindCreated.shared.objects (rewindId 1) (rewindId 2) = .ok false := by
  decide +kernel

/-- The commit of that push rewinds a protected timeline. -/
theorem push_rewinds_recreated :
    ¬ ∀ (L : Linked) (s₀ t : PushSystem) (steps : List (PushSystem × Interleave.Action PushCall)),
      s₀.calls = [] → Run (Step L) s₀ steps t →
      ∀ p ∈ steps, ∀ (i : ℕ) c, p.2 = .step i → p.1.calls[i]? = some c →
        ∀ n T, p.1.shared.refs.get n = some (.timeline T) → T.policy ≠ .unrestricted →
          ∃ T', (c.step L p.1.shared).2.refs.get n = some (.timeline T') ∧
            T'.policy = T.policy ∧ Descends L p.1.shared.objects T'.head T.head := by
  intro h
  obtain ⟨c, hc⟩ : ∃ c, rewindCreated.calls[0]? = some c :=
    Option.isSome_iff_exists.mp (by decide +kernel)
  have hchecked : Run (Step rewindLinked) ⟨rewindStart.shared, []⟩ _ rewindChecked :=
    .cons (.call ⟨fullWriter, _, rfl⟩) (Interleave.run_solo (by simp) 3)
  have hrun : Run (Step rewindLinked) ⟨rewindStart.shared, []⟩ _ _ :=
    hchecked.append (.cons (.env (.transaction _ _)) (.single (Interleave.Step.step hc)))
  obtain ⟨T, hT, -, hd⟩ := h rewindLinked _ _ _ rfl hrun (rewindCreated, .step 0)
    (List.mem_append_right _ (by simp [rewindCreated])) 0 c rfl hc pushName _ rewind_get.1 (by simp)
  have hstep : (c.step rewindLinked rewindCreated.shared).2 =
      (Interleave.turn (PushCall.step rewindLinked) rewindCreated 0).shared :=
    congrArg Interleave.System.shared (Interleave.turn_eq hc).symm
  dsimp only at hT hd
  rw [hstep, rewind_get.2.1] at hT
  cases hT
  have hno := (isAncestor_ok rewind_get.2.2).mpr hd
  cases hno

end PushSystem

end Bole
