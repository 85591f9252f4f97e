import Bole.Refs.Disk

/-!
When a ref transaction on disk is all or nothing.

A commit resolves its operations, journals the plan, and then writes the refs one file after
another.  A write that fails on the way leaves the refs written before it.

* `Atomic`: a commit that fails leaves every ref as it was, one that succeeds has the effect
  of its operations one after another;
* `Undisturbed`: what is written before the first failing step was there already;
* `commit_atomic_iff`: these are the same;
* `atomic_single`: so it is for one operation, unless the device fails.
-/

namespace Bole

variable {fault : Option Fault}

/-! ### Partial plans -/

/-- The entries written before the first failing one are determined. -/
lemma Applied.unique {pre pre' post post' : Plan} {e e' : RefName × Option Ref} {i : ℕ}
    {t t₁ t₁' : RefTree} (h : Applied fault pre i t t₁) (h' : Applied fault pre' i t t₁')
    (hf : EntryFails fault (i + pre.length) t₁ e)
    (hf' : EntryFails fault (i + pre'.length) t₁' e')
    (heq : pre ++ e :: post = pre' ++ e' :: post') : pre = pre' := by
  induction h generalizing pre' with
  | nil i t =>
      cases h' with
      | nil => rfl
      | cons hn ha _ =>
          rw [List.nil_append, List.cons_append, List.cons.injEq] at heq
          rw [heq.1] at hf
          exact absurd (by simpa using hf) hn
  | cons hn ha _ ih =>
      cases h' with
      | nil =>
          rw [List.nil_append, List.cons_append, List.cons.injEq] at heq
          rw [← heq.1] at hf'
          exact absurd (by simpa using hf') hn
      | cons hn' ha' htail' =>
          rw [List.cons_append, List.cons_append, List.cons.injEq] at heq
          obtain ⟨rfl, heq⟩ := heq
          rw [ha] at ha'
          cases ha'
          rw [List.length_cons, ← Nat.add_assoc, Nat.add_right_comm] at hf hf'
          rw [ih htail' hf hf' heq]

/-- No entry of a plan that is applied to its end fails. -/
lemma Applied.not_fails {pre post : Plan} {e : RefName × Option Ref} {i : ℕ}
    {t t₁ t' : RefTree} (h : Applied fault pre i t t₁)
    (hall : Applied fault (pre ++ e :: post) i t t') :
    ¬ EntryFails fault (i + pre.length) t₁ e := by
  induction h with
  | nil i t =>
      cases hall with
      | cons hn _ _ => simpa using hn
  | cons _ ha _ ih =>
      cases hall with
      | cons _ ha' htail =>
          rw [ha] at ha'
          cases ha'
          rw [List.length_cons, ← Nat.add_assoc, Nat.add_right_comm]
          exact ih htail

/-- A plan changes nothing exactly when every ref it names has its final value. -/
lemma RefMap.applyPlan_eq_self {m : RefMap} {plan : Plan}
    (hnodup : (plan.map Prod.fst).Nodup) :
    m.applyPlan plan = m ↔ ∀ p ∈ plan, m p.1 = p.2 := by
  constructor
  · intro h p hp
    rw [← congrFun h p.1]
    exact applyPlan_of_mem hnodup m hp
  · intro h
    funext n
    by_cases hn : n ∈ plan.map Prod.fst
    · obtain ⟨p, hp, rfl⟩ := List.mem_map.mp hn
      rw [applyPlan_of_mem hnodup m hp, h p hp]
    · exact applyPlan_of_not_mem m hn

namespace DiskRefBackend

/-! ### All or nothing -/

/-- All or nothing: after an error every ref reads as before, after a success as after the
operations one after another. -/
def Atomic (fault : Option Fault) (d : DiskRefBackend) (ops : List RefOp) : Prop :=
  match d.commit fault ops with
  | (.error _, d') => d'.refs.lookup = d.refs.lookup
  | (.ok (), d') => RefMap.applyOps ops d.refs.lookup = .ok d'.refs.lookup

/-- What a transaction that resolves and is journaled writes before a step of it fails has
its final value already. -/
def Undisturbed (fault : Option Fault) (d : DiskRefBackend) (ops : List RefOp) : Prop :=
  ∀ plan, resolve d.refs.get ops = .ok plan → fault ≠ some .journal →
    (∀ pre e post t, plan = pre ++ e :: post → Applied fault pre 0 d.refs t →
      EntryFails fault pre.length t e → ∀ p ∈ pre, d.refs.lookup p.1 = p.2) ∧
    (∀ t, Applied fault plan 0 d.refs t → fault = some .removeJournal →
      ∀ p ∈ plan, d.refs.lookup p.1 = p.2)

/-- The resolved plan, seen on the map of refs. -/
lemma resolve_get_sound {d : DiskRefBackend} {ops : List RefOp} {plan : Plan}
    (h : resolve d.refs.get ops = .ok plan) :
    RefMap.applyOps ops d.refs.lookup = .ok (RefMap.applyPlan d.refs.lookup plan) ∧
      (plan.map Prod.fst).Nodup :=
  resolve_sound (fun _ _ hn => RefTree.get_eq_ok hn) h

/-- **A commit is all or nothing exactly when nothing it writes before a failing step
changes a ref.** -/
theorem commit_atomic_iff (fault : Option Fault) (d : DiskRefBackend) (ops : List RefOp) :
    d.Atomic fault ops ↔ d.Undisturbed fault ops := by
  rw [Atomic, Undisturbed, commit]
  cases hr : resolve d.refs.get ops with
  | error e => simp
  | ok plan =>
      obtain ⟨hsound, hnodup⟩ := resolve_get_sound hr
      simp only [Except.ok.injEq, forall_eq']
      rw [applyAtomic]
      by_cases hnil : plan = []
      · subst hnil
        rw [if_pos rfl]
        refine iff_of_true hsound fun _ => ⟨?_, by simp⟩
        intro pre e post t h
        simp at h
      · rw [if_neg hnil]
        by_cases hj : fault = some .journal
        · rw [if_pos hj]
          exact iff_of_true rfl fun h => absurd hj h
        · rw [if_neg hj]
          simp only [hj, ne_eq, not_false_eq_true, true_implies]
          rcases applyPlan_cases fault plan 0 d.refs with
            ⟨t', hap, happ⟩ | ⟨pre, e, post, t₁, err, t', hplan, hap, hf, happ, hl⟩
          · rw [happ]
            -- no entry fails, so only the removal of the journal can
            have hno : ∀ pre e post t, plan = pre ++ e :: post → Applied fault pre 0 d.refs t →
                EntryFails fault pre.length t e → ∀ p ∈ pre, d.refs.lookup p.1 = p.2 := by
              rintro pre e post t rfl hpre hfail
              exact absurd (by simpa using hfail) (hpre.not_fails hap)
            dsimp only
            by_cases hrem : fault = some .removeJournal
            · rw [if_pos hrem]
              dsimp only
              rw [hap.lookup, RefMap.applyPlan_eq_self hnodup]
              exact ⟨fun h => ⟨hno, fun _ _ _ => h⟩, fun h => h.2 t' hap hrem⟩
            · rw [if_neg hrem]
              dsimp only
              rw [hap.lookup]
              exact iff_of_true hsound ⟨hno, fun _ _ h => absurd h hrem⟩
          · rw [happ]
            dsimp only
            have hnodup' : (pre.map Prod.fst).Nodup := by
              rw [hplan, List.map_append] at hnodup
              exact hnodup.of_append_left
            rw [hl, hap.lookup, RefMap.applyPlan_eq_self hnodup']
            constructor
            · intro h
              refine ⟨fun pre' e' post' t hplan' hap' hf' => ?_, fun t hall _ => ?_⟩
              · have hsame := hap.unique hap' hf (by simpa using hf') (hplan ▸ hplan')
                rw [← hsame]
                exact h
              · rw [hplan] at hall
                exact absurd hf (hap.not_fails hall)
            · intro h
              exact h.1 pre e post t₁ hplan hap (by simpa using hf)

/-- The plan of one operation has at most one entry. -/
lemma length_plan_single {get : RefName → Result (Option Ref)} {op : RefOp} {plan : Plan}
    (h : resolve get [op] = .ok plan) : plan.length ≤ 1 := by
  rw [resolve, Result.bind_eq_ok] at h
  obtain ⟨overlay, ho, h⟩ := h
  obtain rfl : overlay.toList = plan := by simpa using h
  rw [resolveLoop, Result.bind_eq_ok] at ho
  obtain ⟨current, -, ho⟩ := ho
  rw [Result.bind_eq_ok] at ho
  obtain ⟨v, -, ho⟩ := ho
  rw [Std.ExtTreeMap.length_toList]
  cases v with
  | none =>
      obtain rfl : (∅ : BTreeMap RefName (Option Ref)) = overlay := by simpa [resolveLoop] using ho
      simp
  | some v =>
      obtain rfl : (∅ : BTreeMap RefName (Option Ref)).insert op.name v = overlay := by
        simpa [resolveLoop] using ho
      simp [Std.ExtTreeMap.size_insert]

/-- **One operation is all or nothing**, unless the device fails. -/
lemma atomic_single (d : DiskRefBackend) (op : RefOp) : d.Atomic none [op] := by
  rw [Atomic, commit]
  cases hr : resolve d.refs.get [op] with
  | error e => rfl
  | ok plan =>
      obtain ⟨hsound, -⟩ := resolve_get_sound hr
      have hlen := length_plan_single hr
      match plan, hlen with
      | [], _ => exact hsound
      | [e], _ =>
          rcases applyPlan_cases none [e] 0 d.refs with
            ⟨t', hap, happ⟩ | ⟨pre, e', post, t₁, err, t', hplan, hap, -, happ, hl⟩
          · simp only [applyAtomic, happ]
            simpa [hap.lookup] using hsound
          · obtain rfl : pre = [] := by
              have := congrArg List.length hplan
              simp only [List.length_append, List.length_cons, List.length_nil] at this
              exact List.eq_nil_of_length_eq_zero (by omega)
            cases hap
            simpa [applyAtomic, happ] using hl

/-- A transaction that creates `a` and `a/b` fails on the second and leaves the first. -/
theorem commit_leaves_first_of_two :
    ¬ Atomic none ⟨FileTree.emptyDir, []⟩
      [.set ⟨"a", by decide⟩ (.tag ⟨default, 1, none⟩),
        .set ⟨"a/b", by decide⟩ (.tag ⟨default, 1, none⟩)] := by
  intro h
  have := congrFun h ⟨"a", by decide⟩
  revert this
  decide

end DiskRefBackend

end Bole
