import Bole.Lib.Run
import Bole.Refs.Disk

/-!
Runs of the ref backend through transactions, direct writes, crashes and re-opens.

A journal stays behind when its transaction fails after it is written, and the next `recover`
replays it, whatever was written in between.  Apart from that case a journal on disk is the
one of the transaction in flight at the crash.

* `RefSystem`: the disk, whether a process has it open, the values settled by operations that
  returned `Ok`, and the writes in flight at the last crash;
* `Step`: one operation, one crash at any point of an operation, or one re-open;
* `Inv`: the invariant of runs in which no journaled transaction fails;
* `recover_run`: in such a run recovery leaves every ref settled or in flight;
* `recover_replays_stale`: a run outside it, in which a failed transaction wins.
-/

namespace Bole

open Transition

/-! ### Interrupted writes -/

/-- The trees a plan can be caught in: an initial part is written, perhaps with the parent
directories of the next entry. -/
inductive Partial : Plan → RefTree → RefTree → Prop where
  | stop (plan : Plan) (t : RefTree) : Partial plan t t
  | dirs (e : RefName × Option Ref) (rest : Plan) (t : RefTree) :
      Partial (e :: rest) t (t.mkdirs e.1)
  | step {e : RefName × Option Ref} {rest : Plan} {t t₁ t' : RefTree} :
      t.applyEntry e = .ok t₁ → Partial rest t₁ t' → Partial (e :: rest) t t'

/-- Every ref of an interrupted plan is as before or has a value of the plan. -/
lemma Partial.lookup {plan : Plan} {t t' : RefTree} (h : Partial plan t t') (n : RefName) :
    t'.lookup n = t.lookup n ∨ (n, t'.lookup n) ∈ plan := by
  induction h with
  | stop => exact Or.inl rfl
  | dirs e rest t => exact Or.inl (by rw [RefTree.lookup_mkdirs])
  | step ha _ ih =>
      rcases ih with ih | ih
      · rw [ih, RefTree.lookup_applyEntry ha, Function.update_apply]
        split_ifs with hn
        · subst hn
          exact Or.inr List.mem_cons_self
        · exact Or.inl rfl
      · exact Or.inr (List.mem_cons_of_mem _ ih)

lemma Applied.toPartial {fault : Option Fault} {pre : Plan} {i : ℕ} {t t' : RefTree}
    (h : Applied fault pre i t t') : ∀ post, Partial (pre ++ post) t t' := by
  induction h with
  | nil i t => exact fun post => .stop post t
  | cons _ ha _ ih => exact fun post => .step ha (ih post)

/-- A plan that is applied as far as it goes, whatever stops it, leaves a partial plan. -/
lemma lookup_applyPlan (fault : Option Fault) (plan : Plan) (t : RefTree) (n : RefName) :
    (applyPlan fault plan 0 t).2.lookup n = t.lookup n ∨
      (n, (applyPlan fault plan 0 t).2.lookup n) ∈ plan := by
  rcases applyPlan_cases fault plan 0 t with
    ⟨t', hap, happ⟩ | ⟨pre, e, post, t₁, err, t', rfl, hap, -, happ, hl⟩
  · rw [happ]
    have := (hap.toPartial []).lookup n
    rwa [List.append_nil] at this
  · rw [happ]
    dsimp only
    rw [hl]
    exact (hap.toPartial (e :: post)).lookup n

/-- The disks a recovery can be caught in. -/
inductive RecoverPartial : List Plan → RefTree → DiskRefBackend → Prop where
  | stop (js : List Plan) (t : RefTree) : RecoverPartial js t ⟨t, js⟩
  | within {plan : Plan} {rest : List Plan} {t t' : RefTree} :
      Partial plan t t' → RecoverPartial (plan :: rest) t ⟨t', plan :: rest⟩
  | next {plan : Plan} {rest : List Plan} {t t' : RefTree} {d : DiskRefBackend} :
      Applied none plan 0 t t' → RecoverPartial rest t' d → RecoverPartial (plan :: rest) t d

/-- The disks a commit can be caught in: before its journal is in place, while the plan is
applied, and after its journal is removed. -/
inductive CommitPartial (d : DiskRefBackend) (plan : Plan) : DiskRefBackend → Prop where
  | before : CommitPartial d plan d
  | within {t : RefTree} : plan ≠ [] → Partial plan d.refs t →
      CommitPartial d plan ⟨t, d.journals ++ [plan]⟩
  | after {t : RefTree} : Applied none plan 0 d.refs t → CommitPartial d plan ⟨t, d.journals⟩

/-! ### Runs -/

/-- The disk and what a run remembers of itself. -/
structure RefSystem where
  disk : DiskRefBackend
  /-- Whether a process has the backend open. -/
  up : Bool
  /-- The value written by the last operation on each ref that returned `Ok`. -/
  settled : RefMap
  /-- The writes of the operation in flight at the last crash. -/
  inflight : Plan

namespace RefSystem

/-- The events of a run. -/
inductive Event where
  | txn (ops : List RefOp) (fault : Option Fault)
  | direct (e : RefName × Option Ref) (fault : Option Bool)
  | crashTxn (ops : List RefOp)
  | crashDirect (e : RefName × Option Ref)
  | crash
  | reopen (order : List Plan)
  | crashRecover (order : List Plan)

/-- A transaction that returns. -/
def afterTxn (s : RefSystem) (ops : List RefOp) (fault : Option Fault) : RefSystem :=
  match s.disk.commit fault ops, resolve s.disk.refs.get ops with
  | (.ok (), d), .ok plan => { s with disk := d, settled := s.settled.applyPlan plan }
  | (_, d), _ => { s with disk := d }

/-- A direct `set` or `delete` that returns; with a fault the device fails in it. -/
def afterDirect (s : RefSystem) (e : RefName × Option Ref) (fault : Option Bool) : RefSystem :=
  match fault with
  | some dirs => { s with disk := { s.disk with refs := faulty s.disk.refs e dirs } }
  | none =>
      match s.disk.refs.applyEntry e with
      | .error _ => s
      | .ok t =>
          { s with
            disk := { s.disk with refs := t }
            settled := Function.update s.settled e.1 e.2 }

/-- The settled values after a recovery: a write that was in flight and is now in place has
been settled by it. -/
def adopt (s : RefSystem) (t : RefTree) : RefMap := fun n =>
  if (n, t.lookup n) ∈ s.inflight then t.lookup n else s.settled n

/-- `open` on the journals in the order in which the directory lists them. -/
def afterReopen (s : RefSystem) (order : List Plan) : RefSystem :=
  match DiskRefBackend.recover ⟨s.disk.refs, order⟩ with
  | (.ok (), d) => ⟨d, true, s.adopt d.refs, []⟩
  | (.error _, d) => { s with disk := d }

/-- The writes a transaction has in flight. -/
def inflightOf (s : RefSystem) (ops : List RefOp) : Plan :=
  match resolve s.disk.refs.get ops with
  | .ok plan => plan
  | .error _ => []

/-- One event. -/
inductive Step : RefSystem → Event → RefSystem → Prop where
  | txn {s : RefSystem} (ops : List RefOp) (fault : Option Fault) : s.up = true →
      Step s (.txn ops fault) (s.afterTxn ops fault)
  | direct {s : RefSystem} (e : RefName × Option Ref) (fault : Option Bool) : s.up = true →
      Step s (.direct e fault) (s.afterDirect e fault)
  | crashTxn {s : RefSystem} (ops : List RefOp) {d : DiskRefBackend} : s.up = true →
      CommitPartial s.disk (s.inflightOf ops) d →
      Step s (.crashTxn ops) ⟨d, false, s.settled, s.inflightOf ops⟩
  | crashDirect {s : RefSystem} (e : RefName × Option Ref) {t : RefTree} : s.up = true →
      Partial [e] s.disk.refs t →
      Step s (.crashDirect e) ⟨{ s.disk with refs := t }, false, s.settled, [e]⟩
  | crash {s : RefSystem} : s.up = true → Step s .crash { s with up := false, inflight := [] }
  | reopen {s : RefSystem} (order : List Plan) : s.up = false →
      order.Perm s.disk.journals → Step s (.reopen order) (s.afterReopen order)
  | crashRecover {s : RefSystem} (order : List Plan) {d : DiskRefBackend} : s.up = false →
      order.Perm s.disk.journals → RecoverPartial order s.disk.refs d →
      Step s (.crashRecover order) { s with disk := d }

/-- The condition on the state before an event: a transaction that gets its journal in place
finds every name writable and the device working to the end. -/
def SafeAt (s : RefSystem) : Event → Prop
  | .txn ops fault => ∀ plan, resolve s.disk.refs.get ops = .ok plan →
      fault ≠ some .journal →
        (∃ t, Applied fault plan 0 s.disk.refs t) ∧ fault ≠ some .removeJournal
  | _ => True

/-- A run starts with an open backend and no journals. -/
def Fresh (s : RefSystem) : Prop :=
  s.up = true ∧ s.disk.journals = [] ∧ s.settled = s.disk.refs.lookup

/-- Open, the disk has no journals and every ref is settled; closed, the only journal there
can be is the one in flight, and every ref is settled or in flight. -/
def Inv (s : RefSystem) : Prop :=
  if s.up then s.disk.journals = [] ∧ s.disk.refs.lookup = s.settled
  else (s.disk.journals = [] ∨ s.disk.journals = [s.inflight]) ∧
    ∀ n, s.disk.refs.lookup n = s.settled n ∨ (n, s.disk.refs.lookup n) ∈ s.inflight

lemma Fresh.inv {s : RefSystem} (h : s.Fresh) : s.Inv := by
  rw [Inv, if_pos h.1]
  exact ⟨h.2.1, h.2.2.symm⟩

/-! ### One event -/

lemma Inv.txn {s : RefSystem} (hinv : s.Inv) (hup : s.up = true) {ops : List RefOp}
    {fault : Option Fault} (hsafe : s.SafeAt (.txn ops fault)) :
    (s.afterTxn ops fault).Inv := by
  rw [Inv, if_pos hup] at hinv
  obtain ⟨hj, hl⟩ := hinv
  rw [afterTxn, DiskRefBackend.commit]
  cases hr : resolve s.disk.refs.get ops with
  | error e =>
      rw [Inv, if_pos (by exact hup)]
      exact ⟨hj, hl⟩
  | ok plan =>
      dsimp only
      rw [DiskRefBackend.applyAtomic]
      by_cases hnil : plan = []
      · subst hnil
        rw [if_pos rfl, Inv, if_pos (by exact hup)]
        exact ⟨hj, hl⟩
      · rw [if_neg hnil]
        by_cases hjf : fault = some .journal
        · rw [if_pos hjf, Inv, if_pos (by exact hup)]
          exact ⟨hj, hl⟩
        · obtain ⟨⟨t, hap⟩, hrem⟩ := hsafe plan hr hjf
          rw [if_neg hjf, hap.applyPlan_eq]
          dsimp only
          rw [if_neg hrem, Inv, if_pos (by exact hup)]
          exact ⟨hj, by rw [hap.lookup, hl]⟩

lemma Inv.direct {s : RefSystem} (hinv : s.Inv) (hup : s.up = true)
    (e : RefName × Option Ref) (fault : Option Bool) : (s.afterDirect e fault).Inv := by
  rw [Inv, if_pos hup] at hinv
  obtain ⟨hj, hl⟩ := hinv
  cases fault with
  | some dirs =>
      rw [afterDirect, Inv, if_pos (by exact hup)]
      refine ⟨hj, ?_⟩
      dsimp only
      rw [faulty]
      split_ifs
      · rw [RefTree.lookup_mkdirs, hl]
      · exact hl
  | none =>
      rw [afterDirect]
      cases ha : s.disk.refs.applyEntry e with
      | error err =>
          dsimp only
          rw [Inv, if_pos hup]
          exact ⟨hj, hl⟩
      | ok t =>
          dsimp only
          rw [Inv, if_pos (by exact hup)]
          exact ⟨hj, by rw [RefTree.lookup_applyEntry ha, hl]⟩

lemma Inv.crashTxn {s : RefSystem} (hinv : s.Inv) (hup : s.up = true) {plan : Plan}
    {d : DiskRefBackend} (h : CommitPartial s.disk plan d) :
    Inv ⟨d, false, s.settled, plan⟩ := by
  rw [Inv, if_pos hup] at hinv
  obtain ⟨hj, hl⟩ := hinv
  rw [Inv, if_neg (by simp)]
  cases h with
  | before => exact ⟨Or.inl hj, fun n => Or.inl (by rw [← hl])⟩
  | within _ hp =>
      refine ⟨Or.inr (by simp [hj]), fun n => ?_⟩
      rw [← hl]
      exact hp.lookup n
  | after hap =>
      refine ⟨Or.inl hj, fun n => ?_⟩
      have := (hap.toPartial []).lookup n
      rw [List.append_nil] at this
      rwa [← hl]

/-- The journals of a closed backend, in any listing order, are none or the one in flight. -/
lemma journals_of_perm {s : RefSystem} {order : List Plan}
    (hj : s.disk.journals = [] ∨ s.disk.journals = [s.inflight])
    (hperm : order.Perm s.disk.journals) : order = [] ∨ order = [s.inflight] := by
  rcases hj with h | h
  · rw [h] at hperm
    exact Or.inl hperm.eq_nil
  · rw [h] at hperm
    exact Or.inr (List.perm_singleton.mp hperm)

/-- Values that are settled or in flight stay so under a partial replay of what is in
flight. -/
lemma settled_or_inflight {s : RefSystem} {t t' : RefTree}
    (hl : ∀ n, t.lookup n = s.settled n ∨ (n, t.lookup n) ∈ s.inflight)
    (h : ∀ n, t'.lookup n = t.lookup n ∨ (n, t'.lookup n) ∈ s.inflight) :
    ∀ n, t'.lookup n = s.settled n ∨ (n, t'.lookup n) ∈ s.inflight := by
  intro n
  rcases h n with h | h
  · rw [h]
    exact hl n
  · exact Or.inr h

/-- What a recovery returns when the only journal is the one in flight. -/
lemma afterReopen_cases {s : RefSystem} (hup : s.up = false)
    (hl : ∀ n, s.disk.refs.lookup n = s.settled n ∨ (n, s.disk.refs.lookup n) ∈ s.inflight)
    {order : List Plan} (horder : order = [] ∨ order = [s.inflight]) :
    (∀ n, (s.afterReopen order).disk.refs.lookup n = s.settled n ∨
        (n, (s.afterReopen order).disk.refs.lookup n) ∈ s.inflight) ∧
      (((s.afterReopen order).up = true ∧ (s.afterReopen order).disk.journals = [] ∧
          (s.afterReopen order).settled = s.adopt (s.afterReopen order).disk.refs) ∨
        ((s.afterReopen order).up = false ∧ (s.afterReopen order).disk.journals = order ∧
          (s.afterReopen order).settled = s.settled ∧
          (s.afterReopen order).inflight = s.inflight)) := by
  rcases horder with rfl | rfl
  · rw [afterReopen, DiskRefBackend.recover, DiskRefBackend.recoverLoop]
    exact ⟨hl, Or.inl ⟨rfl, rfl, rfl⟩⟩
  · have hpart := lookup_applyPlan none s.inflight s.disk.refs
    rw [afterReopen, DiskRefBackend.recover, DiskRefBackend.recoverLoop]
    cases happ : applyPlan none s.inflight 0 s.disk.refs with
    | mk r t =>
        rw [happ] at hpart
        cases r with
        | ok _ =>
            dsimp only
            rw [DiskRefBackend.recoverLoop]
            exact ⟨settled_or_inflight hl hpart, Or.inl ⟨rfl, rfl, rfl⟩⟩
        | error err => exact ⟨settled_or_inflight hl hpart, Or.inr ⟨hup, rfl, rfl, rfl⟩⟩

/-- A recovery that goes through adopts exactly what it leaves. -/
lemma adopt_eq {s : RefSystem} {t : RefTree}
    (h : ∀ n, t.lookup n = s.settled n ∨ (n, t.lookup n) ∈ s.inflight) :
    t.lookup = s.adopt t := by
  funext n
  rw [adopt]
  split_ifs with hn
  · rfl
  · exact (h n).resolve_right hn

lemma Inv.crashRecover {s : RefSystem} (hup : s.up = false)
    (hl : ∀ n, s.disk.refs.lookup n = s.settled n ∨ (n, s.disk.refs.lookup n) ∈ s.inflight)
    {order : List Plan} (horder : order = [] ∨ order = [s.inflight]) {d : DiskRefBackend}
    (h : RecoverPartial order s.disk.refs d) : Inv { s with disk := d } := by
  rw [Inv, if_neg (by simpa using hup)]
  cases h with
  | stop => exact ⟨horder, hl⟩
  | @within plan rest t t' hp =>
      obtain ⟨rfl, rfl⟩ : plan = s.inflight ∧ rest = [] := by simpa using horder
      exact ⟨Or.inr rfl, settled_or_inflight hl hp.lookup⟩
  | @next plan rest t t' d hap hrest =>
      obtain ⟨rfl, rfl⟩ : plan = s.inflight ∧ rest = [] := by simpa using horder
      have hp := hap.toPartial []
      rw [List.append_nil] at hp
      cases hrest with
      | stop => exact ⟨Or.inl rfl, settled_or_inflight hl hp.lookup⟩

/-- **Every safe event keeps the invariant.** -/
lemma step_inv {s s' : RefSystem} {ev : Event} (hinv : s.Inv) (hsafe : s.SafeAt ev)
    (hstep : Step s ev s') : s'.Inv := by
  cases hstep with
  | txn ops fault hup => exact hinv.txn hup hsafe
  | direct e fault hup => exact hinv.direct hup e fault
  | crashTxn ops hup hp => exact hinv.crashTxn hup hp
  | crashDirect e hup hp =>
      rw [Inv, if_pos hup] at hinv
      rw [Inv, if_neg (by simp)]
      refine ⟨Or.inl hinv.1, fun n => ?_⟩
      rw [← hinv.2]
      exact hp.lookup n
  | crash hup =>
      rw [Inv, if_pos hup] at hinv
      rw [Inv, if_neg (by simp)]
      exact ⟨Or.inl hinv.1, fun n => Or.inl (congrFun hinv.2 n)⟩
  | reopen order hup hperm =>
      rw [Inv, if_neg (by simpa using hup)] at hinv
      have horder := journals_of_perm hinv.1 hperm
      obtain ⟨hvals, h | h⟩ := afterReopen_cases hup hinv.2 horder
      · obtain ⟨hup', hj, hset⟩ := h
        rw [Inv, if_pos hup', hset]
        exact ⟨hj, adopt_eq hvals⟩
      · obtain ⟨hup', hj, hset, hin⟩ := h
        rw [Inv, if_neg (by simpa using hup'), hj, hset, hin]
        exact ⟨horder, hvals⟩
  | crashRecover order hup hperm hp =>
      rw [Inv, if_neg (by simpa using hup)] at hinv
      exact .crashRecover hup hinv.2 (journals_of_perm hinv.1 hperm) hp

/-! ### Whole runs -/

/-- **Recovery over runs**: in a run from a fresh backend in which no journaled transaction
fails, every ref of an open backend has its settled value, and a recovery that returns `Ok`,
with the journals listed in any order, leaves every ref settled or in flight at the last
crash. -/
theorem recover_run {s₀ s s' : RefSystem} {steps : List (RefSystem × Event)}
    {order : List Plan} (hfresh : s₀.Fresh) (hrun : Run Step s₀ steps s)
    (hsafe : ∀ p ∈ steps, p.1.SafeAt p.2) (hopen : Step s (.reopen order) s') :
    (s'.up = true → s'.disk.refs.lookup = s'.settled) ∧
      ∀ n, s'.disk.refs.lookup n = s.settled n ∨ (n, s'.disk.refs.lookup n) ∈ s.inflight := by
  have hinv : s.Inv :=
    hrun.invariant Inv SafeAt (fun _ _ _ h hok hs => step_inv h hok hs) hsafe hfresh.inv
  refine ⟨fun hup => ?_, ?_⟩
  · have hinv' := step_inv hinv (show s.SafeAt (.reopen order) from trivial) hopen
    rw [Inv, if_pos hup] at hinv'
    exact hinv'.2
  · cases hopen with
    | reopen _ hup hperm =>
        rw [Inv, if_neg (by simpa using hup)] at hinv
        exact (afterReopen_cases hup hinv.2 (journals_of_perm hinv.1 hperm)).1

/-- An open backend with no refs. -/
def initial : RefSystem := ⟨⟨FileTree.emptyDir, []⟩, true, fun _ => none, []⟩

lemma initial_fresh : initial.Fresh := by
  refine ⟨rfl, rfl, ?_⟩
  funext n
  exact (FileTree.lookup_emptyDir n.segments).symm

/-- A ref with the given time stamp. -/
def stamp (k : ℕ) : Ref := .tag ⟨default, k, none⟩

/-- A transaction fails on `f/x` because `f` is a ref, after it has written `a`; a later
direct write of `a` returns `Ok`, `f` is deleted, and the next recovery replays the journal
of the failed transaction over it. -/
theorem recover_replays_stale :
    ¬ ∀ (s₀ s s' : RefSystem) (steps : List (RefSystem × Event)) (order : List Plan),
      s₀.Fresh → Run Step s₀ steps s → Step s (.reopen order) s' → s'.up = true →
      ∀ n, s'.disk.refs.lookup n = s.settled n ∨ (n, s'.disk.refs.lookup n) ∈ s.inflight := by
  intro h
  let a : RefName := ⟨"a", by decide⟩
  let f : RefName := ⟨"f", by decide⟩
  let fx : RefName := ⟨"f/x", by decide⟩
  let s₁ := initial.afterDirect (f, some (stamp 0)) none
  let s₂ := s₁.afterTxn [.set a (stamp 1), .set fx (stamp 1)] none
  let s₃ := s₂.afterDirect (a, some (stamp 2)) none
  let s₄ := s₃.afterDirect (f, none) none
  let s₅ : RefSystem := { s₄ with up := false, inflight := [] }
  have hrun : Run Step initial _ s₅ :=
    .cons (.direct (f, some (stamp 0)) none (by decide))
      (.cons (.txn [.set a (stamp 1), .set fx (stamp 1)] none (by decide))
        (.cons (.direct (a, some (stamp 2)) none (by decide))
          (.cons (.direct (f, none) none (by decide))
            (.cons (.crash (by decide)) (.nil s₅)))))
  have hlost := h initial s₅ _ _ s₅.disk.journals initial_fresh hrun
    (.reopen _ (by decide) (List.Perm.refl _)) (by decide) a
  revert hlost
  decide

/-- One transaction on an empty backend, a crash after it returned, and the re-open. -/
theorem recover_run_after_crash :
    let a : RefName := ⟨"a", by decide⟩
    let s : RefSystem :=
      { initial.afterTxn [.set a (stamp 1)] none with up := false, inflight := [] }
    (s.afterReopen []).disk.refs.lookup a = s.settled a ∨
      (a, (s.afterReopen []).disk.refs.lookup a) ∈ s.inflight := by
  intro a s
  refine (recover_run initial_fresh
    (.cons (.txn [.set a (stamp 1)] none (by decide)) (.cons (.crash (by decide)) (.nil s)))
    ?_ (.reopen [] (by decide) (by decide))).2 a
  intro p hp
  rcases List.mem_cons.mp hp with rfl | hp
  · intro plan hplan _
    obtain rfl : [(a, some (stamp 1))] = plan := by
      have hres : resolve initial.disk.refs.get [.set a (stamp 1)] =
          .ok [(a, some (stamp 1))] := by decide
      rw [hres] at hplan
      exact Except.ok.inj hplan
    have hfree : ¬ RefTree.Blocked initial.disk.refs a := by decide
    obtain ⟨t, ht⟩ := (RefTree.applyEntry_ok_iff (e := (a, some (stamp 1)))).mpr hfree
    refine ⟨⟨t, .cons (fun h => h.elim hfree ?_) ht (.nil _ _)⟩, by decide⟩
    simp [faultAt]
  · obtain rfl := List.mem_singleton.mp hp
    trivial

end RefSystem

end Bole
