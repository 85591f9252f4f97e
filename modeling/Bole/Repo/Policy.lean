import Bole.Repo.Basic

/-!
Policy hooks and the registry that evaluates them (`src/acl/hook.rs`, `src/acl/attestation.rs`,
`policy_root` and `policy_registry` of `src/repo/mod.rs`).

* `evaluate_eq_allow`: the registry allows what every one of its hooks allows;
* `timelinePolicy_allow`: what the built-in hook has found when it allows an advance;
* `policyRegistry_mem`: every registry has the built-in hook.
-/

namespace Bole

/-! ### Decisions -/

/-- `PolicyDecision`. -/
inductive PolicyDecision where
  | allow
  | deny (reason : String)
  | requiresApproval (reason : String) (needed : ℕ)
deriving DecidableEq

/-- `rank`. -/
def PolicyDecision.rank : PolicyDecision → ℕ
  | .allow => 0
  | .requiresApproval _ _ => 1
  | .deny _ => 2

/-- `more_restrictive`. -/
def moreRestrictive (a b : PolicyDecision) : PolicyDecision := if a.rank < b.rank then b else a

/-- `PolicyEvent`. -/
inductive PolicyEvent where
  | advance (timeline : RefName) (oldHead newHead : ObjectId)
  | merge (source target : RefName) (oldHead resultHead : ObjectId)

/-- `PolicyContext`. -/
structure PolicyContext where
  event : PolicyEvent
  accessor : Accessor
  objects : ObjectStore
  refs : RefStore
  now : ℕ

/-- `{}` on an error; the text of an I/O error is the system's. -/
def Error.display : Error → String
  | .codec m => "codec error: " ++ m
  | .storage m => "storage error: " ++ m
  | .io _ => "io error: "
  | .invalidRefName m => "invalid ref name: " ++ m
  | .wrongRefKind m => "wrong ref kind: " ++ m
  | .accessDenied m => "access denied: " ++ m
  | .decryptionFailed => "decryption failed"
  | .secretNotUtf8 => "secret value is not valid UTF-8"
  | .gitProjection m => "git projection failed: " ++ m
  | .policyViolation m => "policy violation: " ++ m
  | .approvalRequired reason _ => "approval required: " ++ reason
  | .transactionConflict m => "transaction conflict: " ++ m
  | .panic m => m

/-- The failure of a command is told by `Display`. -/
def told {α : Type} (r : Result α) : Except String α :=
  match r with
  | .ok a => .ok a
  | .error e => .error e.display

lemma told_eq_ok {α : Type} {r : Result α} {a : α} : told r = .ok a ↔ r = .ok a := by
  cases r with
  | ok b => simp [told]
  | error e => simp [told]

/-- `{:?}` on a timeline policy. -/
def TimelinePolicy.debug : TimelinePolicy → String
  | .fastForwardOnly => "FastForwardOnly"
  | .append => "Append"
  | .unrestricted => "Unrestricted"

/-! ### Signed approvals -/

/-- `APPROVERS_REF`. -/
def approversRef : RefName := ⟨"refs/policy/approvers", by decide +kernel⟩

/-- `ATTESTATIONS_PREFIX`. -/
def attestationsPrefix : String := "refs/attestations/"

/-- `load_approvers`. -/
def loadApprovers (L : Linked) (refs : RefStore) (objects : ObjectStore) :
    Result ApproverRegistry := do
  match ← refs.getTag approversRef with
  | none => .ok ⟨[]⟩
  | some tag =>
      match ← objects.get L tag.target with
      | some (.policy (.approvers reg)) => .ok reg
      | _ => .ok ⟨[]⟩

/-- The loop of `load_attestations`. -/
def attestationLoop (L : Linked) (refs : RefStore) (objects : ObjectStore) :
    List RefName → Result (List Attestation)
  | [] => .ok []
  | name :: rest => do
      match ← refs.getTag name with
      | none => attestationLoop L refs objects rest
      | some tag =>
          match ← objects.get L tag.target with
          | some (.policy (.attestation att)) => do
              let out ← attestationLoop L refs objects rest
              .ok (att :: out)
          | _ => attestationLoop L refs objects rest

/-- `load_attestations`. -/
def loadAttestations (L : Linked) (refs : RefStore) (objects : ObjectStore) :
    Result (List Attestation) :=
  attestationLoop L refs objects (refs.list attestationsPrefix)

/-- `ATTESTATION_DOMAIN`. -/
def attestationDomain : Bytes := ascii "bole-attestation-v1" ++ [0]

/-- `attestation_message`. -/
def attestationMessage (target : String) (head : ObjectId) : Bytes :=
  attestationDomain ++ strBytes target ++ [0] ++ head.asBytes

/-- `verify_attestation`. -/
def verifyAttestation (L : Linked) (att : Attestation) (registry : ApproverRegistry) : Bool :=
  match registry.approvers.find? fun a => decide (a.keyId = att.approverKeyId) with
  | none => false
  | some approver =>
      decide (att.sig.length = 64) &&
        L.ed25519Verify approver.publicKey (attestationMessage att.target att.head) att.sig

/-- `count_valid_approvals`: the distinct key ids, counted in a `u32`. -/
def countValidApprovals (L : Linked) (attestations : List Attestation)
    (registry : ApproverRegistry) (target : String) (head : ObjectId) : ℕ :=
  ((attestations.filter fun att =>
    decide (att.target = target) && decide (att.head = head) &&
      verifyAttestation L att registry).map Attestation.approverKeyId).toFinset.card % 2 ^ 32

/-! ### Hooks -/

/-- The hooks `resolve_hook` makes. -/
inductive PolicyHook where
  | timelinePolicy
  | signedApproval (pattern : String) (needed : ℕ)
deriving DecidableEq

namespace PolicyHook

/-- `name`. -/
def name : PolicyHook → String
  | .timelinePolicy => "timeline-policy"
  | .signedApproval _ _ => "signed-approval"

/-- `deterministic`. -/
def deterministic : PolicyHook → Bool
  | .timelinePolicy => true
  | .signedApproval _ _ => false

/-- `check` of `TimelinePolicyHook`. -/
def checkTimelinePolicy (L : Linked) (ctx : PolicyContext) : PolicyDecision :=
  match ctx.event with
  | .merge _ _ _ _ => .allow
  | .advance timeline oldHead newHead =>
      match ctx.refs.getTimeline timeline with
      | .error e => .deny ("timeline lookup failed: " ++ e.display)
      | .ok none => .deny ("timeline '" ++ timeline.asStr ++ "' not found")
      | .ok (some tl) =>
          if tl.policy = .unrestricted then .allow
          else
            match isAncestor L ctx.objects oldHead newHead with
            | .ok true => .allow
            | .ok false =>
                .deny ("timeline '" ++ timeline.asStr ++ "' has policy " ++ tl.policy.debug ++
                  "; new head " ++ newHead.toHex ++ " is not a descendant of current head " ++
                  oldHead.toHex)
            | .error e => .deny ("ancestry check failed: " ++ e.display)

/-- `check` of `SignedApprovalHook`. -/
def checkSignedApproval (L : Linked) (pattern : String) (needed : ℕ) (ctx : PolicyContext) :
    PolicyDecision :=
  let (target, head) := match ctx.event with
    | .merge _ target _ resultHead => (target, resultHead)
    | .advance timeline _ newHead => (timeline, newHead)
  if !globMatches pattern target.asStr then .allow
  else
    match loadApprovers L ctx.refs ctx.objects with
    | .error e => .deny ("approver load failed: " ++ e.display)
    | .ok approvers =>
        match loadAttestations L ctx.refs ctx.objects with
        | .error e => .deny ("attestation load failed: " ++ e.display)
        | .ok attestations =>
            let count := countValidApprovals L attestations approvers target.asStr head
            if count < needed then
              .requiresApproval (target.asStr ++ " needs " ++ toString needed ++
                " signed approval(s) of head " ++ head.toHex ++ ", has " ++ toString count)
                (needed - count)
            else .allow

/-- `check`. -/
def check (L : Linked) (ctx : PolicyContext) : PolicyHook → PolicyDecision
  | .timelinePolicy => checkTimelinePolicy L ctx
  | .signedApproval pattern needed => checkSignedApproval L pattern needed ctx

end PolicyHook

/-- `resolve_hook`. -/
def resolveHook (spec : HookSpec) : Result PolicyHook :=
  if spec.kind = "signed-approval" then
    .ok (.signedApproval spec.pattern ((spec.params["needed"]?.getD 1) % 2 ^ 32))
  else if spec.kind = "timeline-policy" then .ok .timelinePolicy
  else
    .error (.policyViolation ("unknown policy hook kind '" ++ spec.kind ++ "' (fail-closed)"))

/-! ### The registry -/

/-- `PolicyRegistry`. -/
structure PolicyRegistry where
  hooks : List PolicyHook

namespace PolicyRegistry

/-- `evaluate`. -/
def evaluate (L : Linked) (reg : PolicyRegistry) (ctx : PolicyContext) : PolicyDecision :=
  reg.hooks.foldl (fun d h => moreRestrictive d (h.check L ctx)) .allow

/-- `deterministic`. -/
def deterministic (reg : PolicyRegistry) : Bool := reg.hooks.all PolicyHook.deterministic

/-- `non_deterministic`. -/
def nonDeterministic (reg : PolicyRegistry) : List String :=
  (reg.hooks.filter fun h => !h.deterministic).map PolicyHook.name

/-- `evaluate_replayable`. -/
def evaluateReplayable (L : Linked) (reg : PolicyRegistry) (ctx : PolicyContext) :
    PolicyDecision :=
  if reg.nonDeterministic ≠ [] then
    .deny ("non-deterministic policy hook(s) [" ++ ", ".intercalate reg.nonDeterministic ++
      "] cannot gate a replicated advance (fail-closed); " ++
      "use replayable hooks (e.g. signed attestations) instead")
  else reg.evaluate L ctx

end PolicyRegistry

namespace Repository

/-- `POLICY_ROOT_REF`. -/
def policyRootRef : RefName := ⟨"refs/policy/root", by decide +kernel⟩

/-- `policy_root`. -/
def policyRoot (L : Linked) (r : Repository) : Result (Option (ObjectId × PolicyRoot)) :=
  match r.refs.get policyRootRef with
  | none => .ok none
  | some (.timeline _) =>
      .error (.policyViolation
        "refs/policy/root is a timeline, not a policy-root tag (fail-closed)")
  | some (.tag t) => do
      match ← r.objects.get L t.target with
      | some (.policy (.root root)) => .ok (some (t.target, root))
      | _ =>
          .error (.policyViolation
            "refs/policy/root does not point at a stored policy root (fail-closed)")

/-- `policy_registry`. -/
def policyRegistry (L : Linked) (r : Repository) : Result PolicyRegistry := do
  let own ← r.hooks.mapM resolveHook
  match ← r.policyRoot L with
  | none => .ok ⟨.timelinePolicy :: own⟩
  | some (_, root) => do
      let pinned ← root.hooks.mapM resolveHook
      .ok ⟨.timelinePolicy :: (own ++ pinned)⟩

end Repository

/-! ### What an allowing registry has found -/

variable {L : Linked} {ctx : PolicyContext}

lemma moreRestrictive_eq_allow {a b : PolicyDecision} :
    moreRestrictive a b = .allow ↔ a = .allow ∧ b = .allow := by
  cases a <;> cases b <;> simp [moreRestrictive, PolicyDecision.rank]

/-- **A registry allows what every hook allows.** -/
lemma PolicyRegistry.evaluate_eq_allow {reg : PolicyRegistry} :
    reg.evaluate L ctx = .allow ↔ ∀ h ∈ reg.hooks, h.check L ctx = .allow := by
  obtain ⟨hooks⟩ := reg
  have key : ∀ d, hooks.foldl (fun d h => moreRestrictive d (h.check L ctx)) d = .allow ↔
      d = .allow ∧ ∀ h ∈ hooks, h.check L ctx = .allow := by
    induction hooks with
    | nil => simp
    | cons h rest ih =>
        intro d
        rw [List.foldl_cons, ih, moreRestrictive_eq_allow]
        simp [and_assoc]
  rw [evaluate, key]
  simp

/-- A registry without non-deterministic hooks replays its own verdict. -/
lemma PolicyRegistry.evaluateReplayable_eq {reg : PolicyRegistry}
    (h : reg.deterministic = true) : reg.evaluateReplayable L ctx = reg.evaluate L ctx := by
  rw [evaluateReplayable, if_neg]
  rw [not_not, nonDeterministic, List.map_eq_nil_iff, List.filter_eq_nil_iff]
  intro hook hmem
  rw [deterministic, List.all_eq_true] at h
  simp [h hook hmem]

/-- A registry that is not deterministic refuses every replicated advance. -/
lemma PolicyRegistry.evaluateReplayable_allow {reg : PolicyRegistry}
    (h : reg.evaluateReplayable L ctx = .allow) : reg.evaluate L ctx = .allow := by
  rw [evaluateReplayable] at h
  split_ifs at h
  exact h

/-- **An advance the built-in hook allows** is of a stored timeline, and on a protected one it
leads to a descendant. -/
lemma PolicyHook.timelinePolicy_allow {timeline : RefName} {oldHead newHead : ObjectId}
    (he : ctx.event = .advance timeline oldHead newHead)
    (h : PolicyHook.timelinePolicy.check L ctx = .allow) :
    ∃ T, ctx.refs.get timeline = some (.timeline T) ∧
      (T.policy = .unrestricted ∨ Descends L ctx.objects newHead oldHead) := by
  rw [check, checkTimelinePolicy, he] at h
  dsimp only at h
  cases ht : ctx.refs.getTimeline timeline with
  | error e => simp [ht] at h
  | ok o =>
      cases o with
      | none => simp [ht] at h
      | some T =>
          simp only [ht] at h
          refine ⟨T, RefStore.getTimeline_eq_some.mp ht, ?_⟩
          split_ifs at h with hp
          · exact Or.inl hp
          · cases ha : isAncestor L ctx.objects oldHead newHead with
            | error e => simp [ha] at h
            | ok b =>
                cases b with
                | false => simp [ha] at h
                | true => exact Or.inr ((isAncestor_ok ha).mp rfl)

/-- **Every registry has the built-in hook.** -/
lemma Repository.policyRegistry_mem {r : Repository} {reg : PolicyRegistry}
    (h : r.policyRegistry L = .ok reg) : PolicyHook.timelinePolicy ∈ reg.hooks := by
  rw [policyRegistry, Result.bind_eq_ok] at h
  obtain ⟨own, -, h⟩ := h
  rw [Result.bind_eq_ok] at h
  obtain ⟨root, -, h⟩ := h
  cases root with
  | none =>
      cases h
      simp
  | some p =>
      simp only [Result.bind_eq_ok] at h
      obtain ⟨pinned, -, h⟩ := h
      cases h
      simp

end Bole
