import Bole.Lib.Failure
import Bole.Repo.Advance

/-!
What the audit trail is told of an advance (`audit_advance` in `src/repo/mod.rs`,
`src/audit.rs`).

A decision is a result that an access or policy check gives: `Ok`, `AccessDenied`,
`PolicyViolation` and `ApprovalRequired`; any other error is a read that failed, or a commit
that lost its race.  The reads of the stores end with no decision.  Reading the labels can, if
the backend answers so, and building the hook registry can; neither is followed by an event.

* `policyRegistry_violation_iff`: when building the registry ends with a policy violation;
* `checkAdvance_told`: every refusal but that one carries the event of its decision;
* `advance_audited_iff`: when a call whose result is a decision leaves exactly its event.
-/

namespace Bole

open Failure

/-! ### Decisions -/

/-- The decision that a result stands for. -/
def decisionOf : Result Unit → Option AuditDecision
  | .ok () => some .allowed
  | .error (.accessDenied reason) => some (.denied reason)
  | .error (.policyViolation reason) => some (.denied reason)
  | .error (.approvalRequired reason needed) => some (.approvalRequired needed reason)
  | .error _ => none

/-- An error that no check has decided on. -/
def Error.Undecided (e : Error) : Prop := decisionOf (.error e) = none

/-- Decoding an object fails with the error of the codec only, as `deserialize` of
`src/codec.rs` does. -/
def Codec.Reports (c : Codec) : Prop :=
  ∀ b, FailsWith (fun e => ∃ msg, e = .codec msg) (c.deserialize b)

lemma Codec.over_reports (objects : List Object) : (Codec.over objects).Reports := by
  intro b
  rw [Codec.over]
  dsimp only
  split
  · exact failsWith_ok _
  · exact failsWith_error.mpr ⟨_, rfl⟩

/-! ### Reading the stores decides nothing -/

section Reads

variable {C : Crates} {L : Linked}

lemma readVarintLoop_undecided (data : Bytes) (fuel pos result shift : ℕ) :
    FailsWith Error.Undecided (readVarintLoop data fuel pos result shift) := by
  induction fuel generalizing pos result shift with
  | zero => exact failsWith_error.mpr rfl
  | succ fuel ih =>
      rw [readVarintLoop]
      split
      · exact failsWith_error.mpr rfl
      · dsimp only
        split_ifs
        · exact failsWith_ok _
        · exact failsWith_error.mpr rfl
        · exact ih _ _ _

lemma objectIdOfBytes_undecided (b : Bytes) : FailsWith Error.Undecided (objectIdOfBytes b) := by
  rw [objectIdOfBytes]
  split_ifs
  · exact failsWith_ok _
  · exact failsWith_error.mpr rfl

lemma decodeBody_undecided (frame : Bytes) (id : ObjectId) (pos ulen slen : ℕ) :
    FailsWith Error.Undecided (decodeBody C frame id pos ulen slen) := by
  rw [decodeBody]
  split_ifs
  · exact failsWith_error.mpr rfl
  · split
    · exact failsWith_error.mpr rfl
    · refine FailsWith.bind ?_ fun canonical _ => ?_
      · rw [zstdDecodeBounded]
        split
        · exact failsWith_error.mpr rfl
        · exact failsWith_ok _
      · split_ifs
        · exact failsWith_error.mpr rfl
        · exact failsWith_error.mpr rfl
        · exact failsWith_ok _

lemma decodeFrame_undecided (frame : Bytes) :
    FailsWith Error.Undecided (decodeFrame C frame) := by
  rw [decodeFrame]
  split
  · exact failsWith_error.mpr rfl
  · split_ifs
    · exact failsWith_error.mpr rfl
    · split
      · exact failsWith_error.mpr rfl
      · refine (objectIdOfBytes_undecided _).bind fun id _ => ?_
        refine (readVarintLoop_undecided frame 10 33 0 0).bind fun head _ => ?_
        dsimp only
        split_ifs
        · exact failsWith_error.mpr rfl
        · exact (readVarintLoop_undecided frame 10 head.2 0 0).bind fun body _ =>
            decodeBody_undecided frame id body.2 head.1 body.1

lemma PackIndex.lookup_undecided (idx : PackIndex) (id : ObjectId) :
    FailsWith Error.Undecided (idx.lookup id) := by
  rw [PackIndex.lookup]
  dsimp only
  split_ifs
  all_goals first
    | exact failsWith_error.mpr rfl
    | split
      · exact failsWith_ok _
      · split
        · exact failsWith_error.mpr rfl
        · exact failsWith_ok _

lemma PackedDiskBackend.probe_undecided (id : ObjectId) (packs : List Pack) :
    FailsWith Error.Undecided (PackedDiskBackend.probe id packs) := by
  induction packs with
  | nil => exact failsWith_ok _
  | cons p rest ih =>
      rw [PackedDiskBackend.probe]
      refine (PackIndex.lookup_undecided p.idx id).bind fun hit _ => ?_
      cases hit with
      | none => exact ih
      | some at_ => exact failsWith_ok _

lemma PackedDiskBackend.get_undecided (s : PackedDiskBackend) (id : ObjectId) :
    FailsWith Error.Undecided (s.get C id) := by
  rw [PackedDiskBackend.get]
  refine FailsWith.bind ?_ fun loose _ => ?_
  · rw [DiskBackend.get]
    split
    · exact failsWith_ok _
    · split
      · exact failsWith_error.mpr rfl
      · exact failsWith_ok _
  · cases loose with
    | some b => exact failsWith_ok _
    | none =>
        refine (probe_undecided id s.packs).bind fun hit _ => ?_
        cases hit with
        | none => exact failsWith_ok _
        | some at_ =>
            obtain ⟨stem, offset, len⟩ := at_
            refine FailsWith.bind ?_ fun _ _ => failsWith_ok _
            rw [readPackFrame]
            split
            · exact failsWith_error.mpr rfl
            · split_ifs
              · exact failsWith_error.mpr rfl
              · exact failsWith_error.mpr rfl
              · exact (decodeFrame_undecided _).bind fun _ _ => failsWith_ok _

/-- **Reading an object decides nothing.** -/
lemma ObjectStore.get_undecided (hcodec : L.codec.Reports) (s : ObjectStore) (id : ObjectId) :
    FailsWith Error.Undecided (s.get L id) := by
  obtain ⟨backend⟩ := s
  rw [ObjectStore.get]
  refine FailsWith.bind ?_ fun data _ => ?_
  · cases backend with
    | memory m => exact failsWith_ok _
    | packed p => exact PackedDiskBackend.get_undecided p id
  · cases data with
    | none => exact failsWith_ok _
    | some bytes =>
        refine ((hcodec bytes).mono ?_).bind fun _ _ => failsWith_ok _
        rintro e ⟨msg, rfl⟩
        rfl

lemma ObjectStore.getSnapshot_undecided (hcodec : L.codec.Reports) (s : ObjectStore)
    (id : ObjectId) : FailsWith Error.Undecided (s.getSnapshot L id) := by
  rw [ObjectStore.getSnapshot]
  split
  · next e he => exact failsWith_error.mpr (s.get_undecided hcodec id e he)
  · exact failsWith_ok _
  · exact failsWith_ok _

/-- **Walking a tree decides nothing.** -/
lemma walkTreeFiltered_undecided (hcodec : L.codec.Reports) (s : ObjectStore)
    (lattice : LabelLattice) (rules : LabelRuleSet) (treeId : ObjectId) (pfx : String)
    (accessor : Accessor) (out : BTreeMap String ObjectId) : FailsWith Error.Undecided
      (walkTreeFiltered L s lattice rules treeId pfx accessor out) := by
  have hopen : ∀ item, FailsWith Error.Undecided (openBounded L s item) := by
    intro item
    rw [openBounded]
    split_ifs
    · exact failsWith_error.mpr rfl
    · have htree : FailsWith Error.Undecided (s.getTree L item.1) := by
        rw [ObjectStore.getTree]
        split
        · next e he => exact failsWith_error.mpr (s.get_undecided hcodec item.1 e he)
        · exact failsWith_ok _
        · exact failsWith_ok _
      split
      · next e he => exact failsWith_error.mpr (htree e he)
      · exact failsWith_ok _
      · exact failsWith_ok _
  rw [walkTreeFiltered, walkBounded]
  split
  · next e he =>
      obtain ⟨item, -, hitem⟩ := Collect.collect_error he
      exact failsWith_error.mpr (hopen item e hitem)
  · exact failsWith_ok _
  · exact failsWith_error.mpr rfl

lemma RefStore.getTimeline_undecided (s : RefStore) (n : RefName) :
    FailsWith Error.Undecided (s.getTimeline n) := by
  rw [RefStore.getTimeline]
  split
  · exact failsWith_ok _
  · exact failsWith_error.mpr rfl
  · exact failsWith_ok _

end Reads

/-! ### Building the hook registry -/

/-- The kinds that `resolve_hook` knows. -/
def HookSpec.Known (spec : HookSpec) : Prop :=
  spec.kind = "signed-approval" ∨ spec.kind = "timeline-policy"

lemma resolveHook_ok_iff {spec : HookSpec} :
    (∃ hook, resolveHook spec = .ok hook) ↔ spec.Known := by
  rw [resolveHook, HookSpec.Known]
  split_ifs with hs ht <;> simp [*]

lemma resolveHook_violation (spec : HookSpec) :
    FailsWith (fun e => ∃ reason, e = .policyViolation reason) (resolveHook spec) := by
  rw [resolveHook]
  split_ifs
  · exact failsWith_ok _
  · exact failsWith_ok _
  · exact failsWith_error.mpr ⟨_, rfl⟩

namespace Repository

/-- Why no registry can be built: a hook of the repository is of an unknown kind, the ref of
the policy root is a timeline or a tag on anything but a stored policy root, or a hook of the
policy root is of an unknown kind. -/
inductive Unbindable (L : Linked) (r : Repository) : Prop where
  | hook {spec : HookSpec} (hmem : spec ∈ r.hooks) (hunknown : ¬ spec.Known)
  | timeline {t : Timeline} (hpin : r.refs.get policyRootRef = some (.timeline t))
  | target {t : Tag} {o : Option Object} (hpin : r.refs.get policyRootRef = some (.tag t))
      (hget : r.objects.get L t.target = .ok o) (hother : ∀ root, o ≠ some (.policy (.root root)))
  | pinned {t : Tag} {root : PolicyRoot} {spec : HookSpec}
      (hpin : r.refs.get policyRootRef = some (.tag t))
      (hget : r.objects.get L t.target = .ok (some (.policy (.root root))))
      (hmem : spec ∈ root.hooks) (hunknown : ¬ spec.Known)

variable {L : Linked} {r : Repository}

/-- A loop over hooks of which one is unknown ends with a policy violation. -/
lemma mapM_resolveHook_violation {specs : List HookSpec} {spec : HookSpec} (hmem : spec ∈ specs)
    (hunknown : ¬ spec.Known) : ∃ reason, specs.mapM resolveHook = .error (.policyViolation reason)
    := by
  cases h : specs.mapM resolveHook with
  | ok hooks => exact absurd (resolveHook_ok_iff.mp (exists_mapM.mp ⟨hooks, h⟩ spec hmem)) hunknown
  | error e =>
      obtain ⟨reason, rfl⟩ := FailsWith.mapM (fun spec _ => resolveHook_violation spec) e h
      exact ⟨reason, rfl⟩

/-- A loop over hooks that fails has come to an unknown one. -/
lemma exists_unknown {specs : List HookSpec} {e : Error} (h : specs.mapM resolveHook = .error e) :
    ∃ spec ∈ specs, ¬ spec.Known := by
  by_contra hall
  push Not at hall
  obtain ⟨hooks, hok⟩ := exists_mapM.mpr fun spec hmem => resolveHook_ok_iff.mpr (hall spec hmem)
  rw [h] at hok
  cases hok

/-- A decision on the way to the registry has one of these reasons. -/
lemma policyRegistry_decides (hcodec : L.codec.Reports) :
    FailsWith (fun e => e.Undecided ∨ r.Unbindable L) (r.policyRegistry L) := by
  rw [policyRegistry]
  refine FailsWith.bind (fun e he => ?_) fun own _ => FailsWith.bind ?_ fun root hroot => ?_
  · obtain ⟨spec, hmem, hunknown⟩ := exists_unknown he
    exact Or.inr (.hook hmem hunknown)
  · rw [policyRoot]
    split
    · exact failsWith_ok _
    · next t hpin => exact failsWith_error.mpr (Or.inr (.timeline hpin))
    · next t hpin =>
        refine ((r.objects.get_undecided hcodec t.target).mono fun _ => Or.inl).bind fun o ho => ?_
        split
        · exact failsWith_ok _
        · next hother => exact failsWith_error.mpr (Or.inr (.target hpin ho hother))
  · cases root with
    | none => exact failsWith_ok _
    | some p =>
        obtain ⟨id, root⟩ := p
        refine FailsWith.bind (fun e he => ?_) fun _ _ => failsWith_ok _
        obtain ⟨spec, hmem, hunknown⟩ := exists_unknown he
        rw [policyRoot] at hroot
        split at hroot
        · cases hroot
        · cases hroot
        · next t hpin =>
            obtain ⟨o, ho, hroot⟩ := Result.bind_eq_ok.mp hroot
            split at hroot
            · cases hroot
              exact Or.inr (.pinned hpin ho hmem hunknown)
            · cases hroot

/-- **Building the registry ends with a policy violation** for these reasons and for no
other. -/
lemma policyRegistry_violation_iff (hcodec : L.codec.Reports) :
    (∃ reason, r.policyRegistry L = .error (.policyViolation reason)) ↔ r.Unbindable L := by
  constructor
  · rintro ⟨reason, h⟩
    exact (policyRegistry_decides hcodec _ h).resolve_left fun hnone => nomatch hnone
  · intro h
    rw [policyRegistry]
    -- the hooks of the repository are resolved first
    by_cases hown : ∃ spec ∈ r.hooks, ¬ spec.Known
    · obtain ⟨spec, hmem, hunknown⟩ := hown
      obtain ⟨reason, hfail⟩ := mapM_resolveHook_violation hmem hunknown
      exact ⟨reason, by rw [hfail]; rfl⟩
    · push Not at hown
      obtain ⟨own, hok⟩ := exists_mapM.mpr fun spec hmem => resolveHook_ok_iff.mpr (hown spec hmem)
      rw [hok]
      cases h with
      | hook hmem hunknown => exact absurd (hown _ hmem) hunknown
      | timeline hpin => exact ⟨_, by rw [policyRoot, hpin]; rfl⟩
      | @target t o hpin hget hother =>
          refine ⟨"refs/policy/root does not point at a stored policy root (fail-closed)", ?_⟩
          rw [policyRoot, hpin]
          dsimp only
          rw [hget]
          cases o with
          | none => rfl
          | some obj =>
              cases obj with
              | policy p =>
                  cases p with
                  | root root => exact absurd rfl (hother root)
                  | _ => rfl
              | _ => rfl
      | @pinned t root spec hpin hget hmem hunknown =>
          obtain ⟨reason, hfail⟩ := mapM_resolveHook_violation hmem hunknown
          refine ⟨reason, ?_⟩
          rw [policyRoot, hpin]
          dsimp only
          rw [hget]
          change (root.hooks.mapM resolveHook >>= fun pinned => _) = _
          rw [hfail]
          rfl

end Repository

/-! ### What the trail is told -/

namespace Repository

variable {L : Linked} {r : Repository} {req : AdvanceRequest} {T : Timeline}

/-- The event that a decision on a request is told as. -/
def eventOf (req : AdvanceRequest) (oldHead : ObjectId) (decision : AuditDecision) : AuditEvent :=
  ⟨req.name.asStr, req.accessor.actor, oldHead, req.snapshotId, decision⟩

/-- The event of a refusal is that of its decision, and there is none where nothing has been
decided. -/
def Told (req : AdvanceRequest) (oldHead : ObjectId) (refusal : Refusal) : Prop :=
  refusal.event = (decisionOf (.error refusal.error)).map (eventOf req oldHead)

/-- The backend of the labels answers with a decision of its own. -/
def LabelsDecide (r : Repository) : Prop :=
  (∃ e, r.acls.getLattice = .error e ∧ ¬ e.Undecided) ∨
    (∃ lattice, r.acls.getLattice = .ok lattice) ∧
      ∃ e, r.acls.getLabelRuleset = .error e ∧ ¬ e.Undecided

/-- The request passes every check that comes before the hooks: all that is read can be read,
and the timeline, every path of the new tree and every path of the old one may be written. -/
def Entitled (L : Linked) (r : Repository) (req : AdvanceRequest) (T : Timeline) : Prop :=
  ∃ lattice rules snap paths old, r.acls.getLattice = .ok lattice ∧
    r.acls.getLabelRuleset = .ok rules ∧ req.mayWriteTimeline lattice rules = true ∧
    r.objects.getSnapshot L req.snapshotId = .ok (some snap) ∧
    walkTreeFiltered L r.objects lattice rules snap.root "" .privileged ∅ = .ok paths ∧
    r.oldPaths L T.head = .ok old ∧ ∀ path, path ∈ paths ∨ path ∈ old →
      req.accessor.canWrite (rules.labelForPath lattice path) ⟨.path, path⟩ = true

/-- Such a call comes to the hooks. -/
lemma entitled_iff (hT : r.refs.get req.name = some (.timeline T)) : r.Entitled L req T ↔
    ∃ p, r.prepare L req = .ok p ∧ r.checkRemoved L req p T = .ok () := by
  constructor
  · rintro ⟨lattice, rules, snap, paths, old, hlat, hrules, hwrite, hsnap, hwalk, hold, hall⟩
    refine ⟨⟨lattice, rules, some T.head, paths⟩, prepare_eq_ok.mpr ⟨hlat, hrules,
      ⟨some T, RefStore.getTimeline_eq_some.mpr hT, rfl⟩, hwrite, snap, hsnap, hwalk,
      fun path hp => hall path (Or.inl hp)⟩, checkRemoved_eq_ok.mpr ⟨old, hold, ?_⟩⟩
    exact fun path hp _ => hall path (Or.inr hp)
  · rintro ⟨p, hp, hrem⟩
    obtain ⟨hlat, hrules, -, hwrite, snap, hsnap, hwalk, hnew⟩ := prepare_eq_ok.mp hp
    obtain ⟨old, hold, hremoved⟩ := checkRemoved_eq_ok.mp hrem
    refine ⟨p.lattice, p.rules, snap, p.paths, old, hlat, hrules, hwrite, hsnap, hwalk, hold, ?_⟩
    rintro path (hpath | hpath)
    · exact hnew path hpath
    · by_cases hkept : path ∈ p.paths
      · exact hnew path hkept
      · exact hremoved path hpath hkept

lemma told_attempt {α : Type} {x : Result α} {old : ObjectId}
    (h : FailsWith Error.Undecided x) : FailsWith (Told req old) x.attempt := by
  refine FailsWith.mapError (h.mono fun e he => ?_)
  rw [Told, show decisionOf (.error e) = none from he]
  rfl

lemma told_accessDenied (req : AdvanceRequest) (old : ObjectId) (reason : String) :
    Told req old (req.accessDenied (some old) reason) := rfl

/-- The checks of the first stretch tell what they decide. -/
lemma prepare_told (hcodec : L.codec.Reports) (hT : r.refs.get req.name = some (.timeline T))
    (hlabels : ¬ r.LabelsDecide) : FailsWith (Told req T.head) (r.prepare L req) := by
  have hlat : FailsWith Error.Undecided r.acls.getLattice := by
    intro e he
    by_contra hdec
    exact hlabels (Or.inl ⟨e, he, hdec⟩)
  rw [prepare]
  refine (told_attempt hlat).bind fun lattice hlattice => ?_
  have hrules : FailsWith Error.Undecided r.acls.getLabelRuleset := by
    intro e he
    by_contra hdec
    exact hlabels (Or.inr ⟨⟨lattice, Result.attempt_eq_ok.mp hlattice⟩, e, he, hdec⟩)
  refine (told_attempt hrules).bind fun rules _ => ?_
  refine (told_attempt (r.refs.getTimeline_undecided _)).bind fun current hcur => ?_
  obtain rfl : current = some T := by
    rw [Result.attempt_eq_ok, RefStore.getTimeline_eq_some.mpr hT] at hcur
    exact (Except.ok.inj hcur).symm
  dsimp only
  split_ifs
  · exact failsWith_error.mpr (told_accessDenied req T.head _)
  · refine (told_attempt (r.objects.getSnapshot_undecided hcodec _)).bind fun o _ => ?_
    cases o with
    | none => exact failsWith_error.mpr rfl
    | some snap =>
        refine (told_attempt (walkTreeFiltered_undecided hcodec _ _ _ _ _ _ _)).bind
          fun paths _ => ?_
        split
        · exact failsWith_error.mpr (told_accessDenied req T.head _)
        · exact failsWith_ok _

lemma readTimeline_told (old : ObjectId) : FailsWith (Told req old) (r.readTimeline req) := by
  rw [readTimeline]
  refine (told_attempt (r.refs.getTimeline_undecided _)).bind fun current _ => ?_
  cases current with
  | none => exact failsWith_error.mpr rfl
  | some t =>
      dsimp only
      split
      · exact failsWith_ok _
      · split_ifs
        · exact failsWith_error.mpr rfl
        · exact failsWith_ok _

/-- The check of the removed paths tells what it decides; it reads the labels that the first
stretch could read. -/
lemma checkRemoved_told (hcodec : L.codec.Reports) {p : Prepared} {timeline : Timeline}
    (hlat : r.acls.getLattice = .ok p.lattice) (hrules : r.acls.getLabelRuleset = .ok p.rules)
    (haudit : p.auditOld = some T.head) :
    FailsWith (Told req T.head) (r.checkRemoved L req p timeline) := by
  rw [checkRemoved]
  refine FailsWith.bind (told_attempt ?_) fun old _ => ?_
  · rw [oldPaths]
    refine (r.objects.getSnapshot_undecided hcodec _).bind fun o _ => ?_
    cases o with
    | none => exact failsWith_ok _
    | some snap =>
        simp only [treeAsMap, hlat, hrules]
        exact walkTreeFiltered_undecided hcodec _ _ _ _ _ _ _
  · split
    · rw [haudit]
      exact failsWith_error.mpr (told_accessDenied req T.head _)
    · exact failsWith_ok _

/-- The hooks tell what they decide. -/
lemma checkPolicy_told (registry : PolicyRegistry) (timeline : Timeline) :
    FailsWith (Told req timeline.head) (r.checkPolicy L req registry timeline) := by
  rw [checkPolicy]
  split
  · exact failsWith_ok _
  · exact failsWith_error.mpr rfl
  · exact failsWith_error.mpr rfl

/-- **Every refusal carries the event of its decision**, but for the two that are not told. -/
lemma checkAdvance_told (hcodec : L.codec.Reports)
    (hT : r.refs.get req.name = some (.timeline T)) (hlabels : ¬ r.LabelsDecide)
    (hbound : ¬ (r.Entitled L req T ∧ r.Unbindable L)) :
    FailsWith (Told req T.head) (r.checkAdvance L req) := by
  rw [checkAdvance]
  refine (prepare_told hcodec hT hlabels).bind fun p hp => ?_
  refine (readTimeline_told T.head).bind fun timeline htimeline => ?_
  obtain rfl : T = timeline := by
    have hread := (readTimeline_eq_ok.mp htimeline).1
    rw [hT] at hread
    cases hread
    rfl
  obtain ⟨hlat, hrules, ⟨current, hcur, haudit⟩, -⟩ := prepare_eq_ok.mp hp
  rw [RefStore.getTimeline_eq_some.mpr hT] at hcur
  cases hcur
  refine (checkRemoved_told hcodec hlat hrules haudit.symm).bind fun _ hrem => ?_
  refine FailsWith.bind (told_attempt ?_) fun registry _ =>
    (checkPolicy_told registry T).bind fun _ _ => failsWith_ok _
  have hunbindable : ¬ r.Unbindable L := fun h => hbound ⟨(entitled_iff hT).mpr ⟨p, hp, hrem⟩, h⟩
  exact (policyRegistry_decides hcodec).mono fun e he => he.resolve_right hunbindable

/-! ### The call -/

variable {log : List AuditEvent}

lemma record_audit (haudit : r.audit = some log) (event : Option AuditEvent) :
    (r.record event).audit = some (log ++ event.toList) := by
  cases event with
  | none => simp [record, haudit]
  | some e => simp [record, haudit]

/-- **A call leaves the event of its decision**, and none where it has decided nothing. -/
lemma advanceTimelineExpecting_tells (hcodec : L.codec.Reports) (haudit : r.audit = some log)
    (hT : r.refs.get req.name = some (.timeline T)) (hlabels : ¬ r.LabelsDecide)
    (hbound : ¬ (r.Entitled L req T ∧ r.Unbindable L)) :
    (r.advanceTimelineExpecting L req).2.audit =
      some (log ++ ((decisionOf (r.advanceTimelineExpecting L req).1).map
        (eventOf req T.head)).toList) := by
  rw [advanceTimelineExpecting]
  cases hcheck : r.checkAdvance L req with
  | error refusal =>
      have htold : Told req T.head refusal := checkAdvance_told hcodec hT hlabels hbound _ hcheck
      dsimp only
      rw [record_audit haudit, show refusal.event = _ from htold]
  | ok timeline =>
      simp only [checkAdvance, Result.bind_eq_ok] at hcheck
      obtain ⟨p, -, t, ht, -, -, registry, -, -, -, hret⟩ := hcheck
      cases hret
      obtain rfl : T = timeline := by
        have hread := (readTimeline_eq_ok.mp ht).1
        rw [hT] at hread
        cases hread
        rfl
      -- on one state the compare-and-set finds the head that was read
      have hcommit := RefStore.commit_advanceHeadIf_of_get hT req.snapshotId
      dsimp only
      rw [commitAdvance]
      generalize r.refs.commit [.advanceHeadIf req.name T.head req.snapshotId] = c at hcommit
      obtain ⟨result, refs⟩ := c
      obtain rfl : result = .ok () := hcommit
      have hrecord : ({ r with refs := refs } : Repository).audit = some log := haudit
      dsimp only
      rw [record_audit hrecord]
      rfl

/-- A refusal without an event leaves the log as it was. -/
lemma advanceTimelineExpecting_silent {e : Error} (haudit : r.audit = some log)
    (hcheck : r.checkAdvance L req = .error ⟨e, none⟩) :
    (r.advanceTimelineExpecting L req).1 = .error e ∧
      (r.advanceTimelineExpecting L req).2.audit = some log := by
  rw [advanceTimelineExpecting, hcheck]
  refine ⟨rfl, ?_⟩
  dsimp only
  rw [record_audit haudit]
  simp

/-- A decision of the labels backend is not told. -/
lemma checkAdvance_of_labelsDecide (h : r.LabelsDecide) :
    ∃ e, r.checkAdvance L req = .error ⟨e, none⟩ ∧ ¬ e.Undecided := by
  rcases h with ⟨e, he, hdec⟩ | ⟨⟨lattice, hlat⟩, e, he, hdec⟩
  · refine ⟨e, ?_, hdec⟩
    rw [checkAdvance, prepare, he]
    rfl
  · refine ⟨e, ?_, hdec⟩
    rw [checkAdvance, prepare, hlat, he]
    rfl

/-- Neither is the policy violation of a registry that cannot be built. -/
lemma checkAdvance_of_unbindable (hcodec : L.codec.Reports)
    (hT : r.refs.get req.name = some (.timeline T)) (hexp : req.expectedOld = none)
    (hentitled : r.Entitled L req T) (h : r.Unbindable L) :
    ∃ reason, r.checkAdvance L req = .error ⟨.policyViolation reason, none⟩ := by
  obtain ⟨p, hp, hrem⟩ := (entitled_iff hT).mp hentitled
  obtain ⟨reason, hreg⟩ := (policyRegistry_violation_iff hcodec).mpr h
  have hread : r.readTimeline req = .ok T :=
    readTimeline_eq_ok.mpr ⟨hT, fun expected he => by simp [hexp] at he⟩
  refine ⟨reason, ?_⟩
  rw [checkAdvance, hp]
  change (r.readTimeline req >>= fun timeline => _) = _
  rw [hread]
  change (r.checkRemoved L req p T >>= fun _ => _) = _
  rw [hrem, hreg]
  rfl

/-- **A call whose result is a decision leaves exactly one event, of its timeline and of that
decision**, unless the labels backend has decided itself, or every check has passed and no hook
registry can be built. -/
theorem advance_audited_iff {name : RefName} {snapshotId : ObjectId} {accessor : Accessor}
    (hcodec : L.codec.Reports) (haudit : r.audit = some log)
    (hT : r.refs.get name = some (.timeline T)) :
    (∀ decision, decisionOf (r.advanceTimeline L name snapshotId accessor).1 = some decision →
        ∃ event, (r.advanceTimeline L name snapshotId accessor).2.audit = some (log ++ [event]) ∧
          event.timeline = name.asStr ∧ event.decision = decision) ↔
      ¬ (r.LabelsDecide ∨
        r.Entitled L ⟨name, snapshotId, none, accessor⟩ T ∧ r.Unbindable L) := by
  rw [advanceTimeline]
  constructor
  · intro htells hsilent
    obtain ⟨e, hcheck, hdec⟩ : ∃ e, r.checkAdvance L ⟨name, snapshotId, none, accessor⟩ =
        .error ⟨e, none⟩ ∧ ¬ e.Undecided := by
      rcases hsilent with hlabels | ⟨hentitled, hunbindable⟩
      · exact checkAdvance_of_labelsDecide hlabels
      · obtain ⟨reason, hcheck⟩ :=
          checkAdvance_of_unbindable hcodec hT rfl hentitled hunbindable
        exact ⟨_, hcheck, fun hnone => nomatch hnone⟩
    obtain ⟨hresult, hsame⟩ := advanceTimelineExpecting_silent haudit hcheck
    obtain ⟨decision, hdecision⟩ := Option.ne_none_iff_exists'.mp hdec
    obtain ⟨event, hevent, -⟩ := htells decision (by rw [hresult, hdecision])
    rw [hsame] at hevent
    simp at hevent
  · intro hcond decision hdecision
    have htells := advanceTimelineExpecting_tells hcodec haudit hT
      (fun h => hcond (Or.inl h)) (fun h => hcond (Or.inr h))
    rw [hdecision] at htells
    exact ⟨_, htells, rfl, rfl⟩

end Repository

/-! ### Two audited repositories -/

open AdvanceSystem

/-- The repository of the race, with a sink and the given hooks. -/
def auditedRepo (hooks : List HookSpec) : Repository :=
  { raceRepo with hooks := hooks, audit := some [] }

lemma raceRepo_get : raceRepo.refs.get raceName =
    some (.timeline ⟨raceId 1, .fastForwardOnly, 0, "persistent", none⟩) := by
  decide +kernel

/-- Without hooks an advance is told. -/
theorem advance_audited_iff_race :
    ∃ event, ((auditedRepo []).advanceTimeline raceLinked raceName (raceId 2)
      raceWriter).2.audit = some ([] ++ [event]) ∧ event.timeline = raceName.asStr ∧
      event.decision = .allowed := by
  have hok : ((auditedRepo []).advanceTimeline raceLinked raceName (raceId 2) raceWriter).1 =
      .ok () := by decide +kernel
  have hcodec : raceLinked.codec.Reports := Codec.over_reports raceObjects
  have haudit : (auditedRepo []).audit = some [] := rfl
  have hT : (auditedRepo []).refs.get raceName =
      some (.timeline ⟨raceId 1, .fastForwardOnly, 0, "persistent", none⟩) := raceRepo_get
  have hlabels : ¬ (auditedRepo []).LabelsDecide := by
    rintro (⟨e, he, -⟩ | ⟨-, e, he, -⟩) <;> cases he
  have hbindable : ¬ (auditedRepo []).Unbindable raceLinked := by
    have hpin : (auditedRepo []).refs.get Repository.policyRootRef = none := by decide +kernel
    rintro (hmem | h | h | h)
    · cases hmem
    all_goals
      rw [hpin] at h
      cases h
  refine (Repository.advance_audited_iff hcodec haudit hT).mpr (fun h => ?_) .allowed
    (by rw [hok]; rfl)
  exact h.elim hlabels fun h => hbindable h.2

/-- With a hook of an unknown kind the same advance is refused, and nothing is told. -/
theorem advance_unaudited :
    ¬ ∀ decision, decisionOf ((auditedRepo [⟨"four-eyes", "main", ∅⟩]).advanceTimeline
          raceLinked raceName (raceId 2) raceWriter).1 = some decision →
        ∃ event, ((auditedRepo [⟨"four-eyes", "main", ∅⟩]).advanceTimeline raceLinked raceName
            (raceId 2) raceWriter).2.audit = some ([] ++ [event]) ∧
          event.timeline = raceName.asStr ∧ event.decision = decision := by
  have hrefused : ((auditedRepo [⟨"four-eyes", "main", ∅⟩]).advanceTimeline raceLinked raceName
        (raceId 2) raceWriter).1 =
        .error (.policyViolation "unknown policy hook kind 'four-eyes' (fail-closed)") ∧
      ((auditedRepo [⟨"four-eyes", "main", ∅⟩]).advanceTimeline raceLinked raceName (raceId 2)
        raceWriter).2.audit = some [] := by
    decide +kernel
  intro htells
  obtain ⟨event, hevent, -⟩ := htells (.denied _) (by rw [hrefused.1]; rfl)
  rw [hrefused.2] at hevent
  cases hevent

end Bole
