import Bole.Postcard
import Bole.Repo.Policy

/-!
What the verdicts of the policy hooks come to (`src/acl/hook.rs`, `src/acl/attestation.rs`).

* `rank_le_combine`, `combine_mem`: the combined verdict is one of the verdicts, and none is
  above it;
* `evaluate_orderly_iff`: it does not depend on the order of the hooks, and asks for as much as
  each of them, iff one denies or all that ask for approvals ask for the same number;
* `signedApproval_threshold_iff`: the threshold of a hook is that of its specification iff it
  fits a `u32`, or too few have approved even for what is left of it;
* `countValidApprovals_signers_iff`: attestations count for no more keys than have signed,
  whatever they are labelled, iff no two key ids stand for one such key.
-/

namespace Bole

/-! ### Hooks as the trait has them -/

/-- `dyn PolicyHook`. -/
structure DynHook where
  name : String
  check : PolicyContext → PolicyDecision
  deterministic : Bool

/-- `PolicyRegistry`, over any hooks. -/
structure DynRegistry where
  hooks : List DynHook

/-- The loop of `evaluate`, over the verdicts. -/
def combine (verdicts : List PolicyDecision) : PolicyDecision :=
  verdicts.foldl moreRestrictive .allow

/-- `evaluate`. -/
def DynRegistry.evaluate (reg : DynRegistry) (ctx : PolicyContext) : PolicyDecision :=
  combine (reg.hooks.map fun h => h.check ctx)

/-- A hook of `resolve_hook`, behind the trait. -/
def PolicyHook.dyn (L : Linked) (h : PolicyHook) : DynHook :=
  ⟨h.name, fun ctx => h.check L ctx, h.deterministic⟩

/-- The registry of such hooks. -/
def PolicyRegistry.dyn (L : Linked) (reg : PolicyRegistry) : DynRegistry :=
  ⟨reg.hooks.map (PolicyHook.dyn L)⟩

/-- **Behind the trait a registry evaluates as before.** -/
lemma PolicyRegistry.evaluate_dyn {L : Linked} {reg : PolicyRegistry} {ctx : PolicyContext} :
    (reg.dyn L).evaluate ctx = reg.evaluate L ctx := by
  rw [DynRegistry.evaluate, combine, dyn, evaluate, List.map_map, List.foldl_map]
  rfl

/-! ### The combined verdict -/

variable {vs : List PolicyDecision}

lemma rank_moreRestrictive {a b : PolicyDecision} :
    (moreRestrictive a b).rank = max a.rank b.rank := by
  rw [moreRestrictive]
  split_ifs with h <;> omega

lemma moreRestrictive_eq_or (a b : PolicyDecision) :
    moreRestrictive a b = a ∨ moreRestrictive a b = b := by
  rw [moreRestrictive]
  split_ifs
  · exact .inr rfl
  · exact .inl rfl

/-- The loop ends with what it began with or with one of the verdicts, and above them all. -/
lemma foldl_moreRestrictive (vs : List PolicyDecision) (d : PolicyDecision) :
    (vs.foldl moreRestrictive d = d ∨ vs.foldl moreRestrictive d ∈ vs) ∧
      d.rank ≤ (vs.foldl moreRestrictive d).rank ∧
      ∀ v ∈ vs, v.rank ≤ (vs.foldl moreRestrictive d).rank := by
  induction vs generalizing d with
  | nil => simp
  | cons v rest ih =>
      obtain ⟨hone, hd, hrest⟩ := ih (moreRestrictive d v)
      rw [rank_moreRestrictive] at hd
      rw [List.foldl_cons]
      refine ⟨?_, le_trans (le_max_left _ _) hd, ?_⟩
      · rcases hone with h | h
        · rcases moreRestrictive_eq_or d v with hv | hv
          · exact .inl (h.trans hv)
          · exact .inr (List.mem_cons.mpr (.inl (h.trans hv)))
        · exact .inr (List.mem_cons_of_mem _ h)
      · intro w hw
        rcases List.mem_cons.mp hw with rfl | hw
        · exact le_trans (le_max_right _ _) hd
        · exact hrest w hw

/-- **The combined verdict is one of the verdicts**, if it is not to allow. -/
lemma combine_mem : combine vs = .allow ∨ combine vs ∈ vs := (foldl_moreRestrictive vs .allow).1

/-- **No verdict is above the combined one.** -/
lemma rank_le_combine {v : PolicyDecision} (h : v ∈ vs) : v.rank ≤ (combine vs).rank :=
  (foldl_moreRestrictive vs .allow).2.2 v h

lemma rank_combine_le {ws : List PolicyDecision} (h : ws ⊆ vs) :
    (combine ws).rank ≤ (combine vs).rank := by
  rcases combine_mem with hallow | hmem
  · rw [hallow]
    exact Nat.zero_le _
  · exact rank_le_combine (h hmem)

/-- Nothing takes the place of a verdict that comes first and is nowhere exceeded. -/
lemma foldl_moreRestrictive_eq {d : PolicyDecision} (h : ∀ v ∈ vs, v.rank ≤ d.rank) :
    vs.foldl moreRestrictive d = d := by
  induction vs with
  | nil => rfl
  | cons v rest ih =>
      have hv : moreRestrictive d v = d := if_neg (by have := h v (by simp); omega)
      rw [List.foldl_cons, hv]
      exact ih fun w hw => h w (List.mem_cons_of_mem _ hw)

/-! ### Kinds and numbers -/

namespace PolicyDecision

/-- The approvals a verdict still asks for. -/
def outstanding : PolicyDecision → Option ℕ
  | .requiresApproval _ needed => some needed
  | _ => none

/-- A verdict denies. -/
def Denies : PolicyDecision → Prop
  | .deny _ => True
  | _ => False

lemma denies_iff {d : PolicyDecision} : d.Denies ↔ d.rank = 2 := by
  cases d <;> simp [Denies, rank]

lemma rank_le_two (d : PolicyDecision) : d.rank ≤ 2 := by
  cases d <;> simp [rank]

lemma outstanding_isSome {d : PolicyDecision} : d.outstanding.isSome ↔ d.rank = 1 := by
  cases d <;> simp [outstanding, rank]

lemma rank_of_outstanding {d : PolicyDecision} {n : ℕ} (h : d.outstanding = some n) :
    d.rank = 1 := outstanding_isSome.mp (by rw [h]; rfl)

end PolicyDecision

lemma combine_denies : (combine vs).Denies ↔ ∃ v ∈ vs, v.Denies := by
  simp only [PolicyDecision.denies_iff]
  constructor
  · intro h
    rcases combine_mem with hallow | hmem
    · rw [hallow] at h
      cases h
    · exact ⟨_, hmem, h⟩
  · rintro ⟨v, hv, h⟩
    have := rank_le_combine hv
    have := (combine vs).rank_le_two
    omega

/-- The combined number is that of one of the verdicts. -/
lemma mem_of_combine_outstanding {n : ℕ} (h : (combine vs).outstanding = some n) :
    ∃ v ∈ vs, v.outstanding = some n := by
  rcases combine_mem with hallow | hmem
  · rw [hallow] at h
    cases h
  · exact ⟨_, hmem, h⟩

/-- Where nobody denies, a verdict that asks for approvals makes the combined one ask. -/
lemma combine_outstanding_isSome {v : PolicyDecision} (hv : v ∈ vs) {n : ℕ}
    (hn : v.outstanding = some n) (hdeny : ¬ ∃ v ∈ vs, v.Denies) :
    ∃ m, (combine vs).outstanding = some m := by
  rw [← combine_denies, PolicyDecision.denies_iff] at hdeny
  refine Option.isSome_iff_exists.mp (PolicyDecision.outstanding_isSome.mpr ?_)
  have := PolicyDecision.rank_of_outstanding hn
  have := rank_le_combine hv
  have := (combine vs).rank_le_two
  omega

/-- Where nobody denies, the first number asked for is the combined one. -/
lemma combine_first {v : PolicyDecision} {n : ℕ} (hn : v.outstanding = some n)
    (hdeny : ∀ w ∈ vs, ¬ w.Denies) : (combine (v :: vs)).outstanding = some n := by
  have hv := PolicyDecision.rank_of_outstanding hn
  have hfirst : moreRestrictive .allow v = v :=
    if_pos (by rw [hv]; exact Nat.zero_lt_one)
  have hall : ∀ w ∈ vs, w.rank ≤ v.rank := by
    intro w hw
    have := PolicyDecision.denies_iff.not.mp (hdeny w hw)
    have := w.rank_le_two
    omega
  rw [combine, List.foldl_cons, hfirst, foldl_moreRestrictive_eq hall, hn]

/-! ### The most restrictive of all -/

/-- What is expected of the combined verdict: it does not depend on the order, it denies iff one
of the verdicts does, and else it asks for as many approvals as each of them. -/
structure DynRegistry.Orderly (reg : DynRegistry) (ctx : PolicyContext) : Prop where
  permuted : ∀ reg' : DynRegistry, reg'.hooks.Perm reg.hooks →
    (reg'.evaluate ctx).rank = (reg.evaluate ctx).rank ∧
      (reg'.evaluate ctx).outstanding = (reg.evaluate ctx).outstanding
  denies : (reg.evaluate ctx).Denies ↔ ∃ h ∈ reg.hooks, (h.check ctx).Denies
  demands : ¬ (reg.evaluate ctx).Denies → ∀ h ∈ reg.hooks, ∀ n,
    (h.check ctx).outstanding = some n →
      ∃ m, (reg.evaluate ctx).outstanding = some m ∧ n ≤ m

/-- All verdicts that ask for approvals ask for the same number. -/
def Agreeing (vs : List PolicyDecision) : Prop :=
  ∀ v ∈ vs, ∀ w ∈ vs, ∀ m n, v.outstanding = some m → w.outstanding = some n → m = n

/-- Where the numbers agree, an order changes neither the kind nor the number. -/
lemma combine_perm {ws : List PolicyDecision} (h : ws.Perm vs)
    (hok : (∃ v ∈ vs, v.Denies) ∨ Agreeing vs) :
    (combine ws).rank = (combine vs).rank ∧
      (combine ws).outstanding = (combine vs).outstanding := by
  have hrank : (combine ws).rank = (combine vs).rank :=
    le_antisymm (rank_combine_le h.subset) (rank_combine_le h.symm.subset)
  refine ⟨hrank, ?_⟩
  have hsome : (combine ws).outstanding.isSome ↔ (combine vs).outstanding.isSome := by
    rw [PolicyDecision.outstanding_isSome, PolicyDecision.outstanding_isSome, hrank]
  cases hw : (combine ws).outstanding with
  | none =>
      rw [hw] at hsome
      exact (Option.isNone_iff_eq_none.mp (by simpa using hsome)).symm
  | some m =>
      rw [hw] at hsome
      obtain ⟨n, hn⟩ := Option.isSome_iff_exists.mp (hsome.mp rfl)
      rcases hok with hdeny | hagree
      · have hone := PolicyDecision.rank_of_outstanding hn
        have htwo := PolicyDecision.denies_iff.mp (combine_denies.mpr hdeny)
        omega
      · obtain ⟨v, hv, hvm⟩ := mem_of_combine_outstanding hw
        obtain ⟨w, hw', hwn⟩ := mem_of_combine_outstanding hn
        rw [hn, hagree v (h.subset hv) w hw' m n hvm hwn]

/-- **The hooks are combined to the most restrictive verdict, in any order, iff one of them
denies or all that ask for approvals ask for the same number.** -/
theorem evaluate_orderly_iff (reg : DynRegistry) (ctx : PolicyContext) :
    reg.Orderly ctx ↔ (∃ h ∈ reg.hooks, (h.check ctx).Denies) ∨
      Agreeing (reg.hooks.map fun h => h.check ctx) := by
  constructor
  · intro h
    by_cases hdeny : ∃ h ∈ reg.hooks, (h.check ctx).Denies
    · exact .inl hdeny
    · refine .inr fun v hv w hw m n hm hn => ?_
      have hnot := h.denies.not.mpr hdeny
      -- each of the two numbers is reached by putting its hook in front
      have hfront : ∀ g ∈ reg.hooks, ∀ k, (g.check ctx).outstanding = some k →
          (reg.evaluate ctx).outstanding = some k := by
        intro g hg k hk
        obtain ⟨before, after, hsplit⟩ := List.append_of_mem hg
        have hperm : (g :: (before ++ after)).Perm reg.hooks := by
          rw [hsplit]
          exact List.perm_middle.symm
        have hothers : ∀ u ∈ (before ++ after).map fun h => h.check ctx, ¬ u.Denies := by
          rintro u hu hdenies
          obtain ⟨f, hf, rfl⟩ := List.mem_map.mp hu
          exact hdeny ⟨f, hperm.subset (List.mem_cons_of_mem _ hf), hdenies⟩
        have heq := (h.permuted ⟨g :: (before ++ after)⟩ hperm).2
        rw [← heq, DynRegistry.evaluate, List.map_cons]
        exact combine_first hk hothers
      obtain ⟨f, hf, rfl⟩ := List.mem_map.mp hv
      obtain ⟨g, hg, rfl⟩ := List.mem_map.mp hw
      exact Option.some.inj ((hfront f hf m hm).symm.trans (hfront g hg n hn))
  · intro hok
    have hverdicts : (∃ v ∈ reg.hooks.map fun h => h.check ctx, v.Denies) ∨
        Agreeing (reg.hooks.map fun h => h.check ctx) := by
      simpa using hok
    have hdenies : (reg.evaluate ctx).Denies ↔ ∃ h ∈ reg.hooks, (h.check ctx).Denies := by
      rw [DynRegistry.evaluate, combine_denies]
      simp
    refine ⟨fun reg' hperm => combine_perm (hperm.map _) hverdicts, hdenies, ?_⟩
    intro hnot f hf n hn
    rw [DynRegistry.evaluate, combine_denies] at hnot
    have hmem := List.mem_map_of_mem (f := fun h : DynHook => h.check ctx) hf
    obtain ⟨m, hm⟩ := combine_outstanding_isSome hmem hn hnot
    obtain ⟨v, hv, hvm⟩ := mem_of_combine_outstanding hm
    rcases hverdicts with hdeny | hagree
    · exact absurd hdeny hnot
    · exact ⟨m, hm, le_of_eq (hagree _ hmem _ hv n m hn hvm)⟩

/-- A merge into `main` of a store that holds nothing. -/
def mergeContext : PolicyContext :=
  ⟨.merge ⟨"feature", RefName.valid_feature⟩ ⟨"main", RefName.valid_main⟩ ⟨.replicate 4⟩
    ⟨.replicate 5⟩, .privileged, ⟨.memory ∅⟩, ⟨∅⟩, 0⟩

/-- **The smaller number wins when it comes first.**  Of two hooks that ask for one and for two
approvals, the first one decides. -/
theorem evaluate_orderly_two :
    ¬ (PolicyRegistry.dyn (.over []) ⟨[.timelinePolicy, .signedApproval "*" 1,
        .signedApproval "*" 2]⟩).Orderly mergeContext ∧
      ((PolicyRegistry.dyn (.over []) ⟨[.timelinePolicy, .signedApproval "*" 1,
        .signedApproval "*" 2]⟩).evaluate mergeContext).outstanding = some 1 := by
  have hone : ((PolicyRegistry.dyn (.over []) ⟨[.timelinePolicy, .signedApproval "*" 1,
      .signedApproval "*" 2]⟩).evaluate mergeContext).outstanding = some 1 := by decide +kernel
  refine ⟨fun h => ?_, hone⟩
  have htwo : ((PolicyHook.signedApproval "*" 2).check (.over []) mergeContext).outstanding =
      some 2 := by decide +kernel
  have hnot : ¬ ((PolicyRegistry.dyn (.over []) ⟨[.timelinePolicy, .signedApproval "*" 1,
      .signedApproval "*" 2]⟩).evaluate mergeContext).Denies := by
    intro hdenies
    have := PolicyDecision.denies_iff.mp hdenies
    have := PolicyDecision.rank_of_outstanding hone
    omega
  obtain ⟨m, hm, hle⟩ := h.demands hnot ((PolicyHook.signedApproval "*" 2).dyn (.over []))
    (by simp [PolicyRegistry.dyn]) 2 htwo
  rw [hone] at hm
  cases hm
  omega

/-! ### The threshold of a specification -/

/-- The timeline an event moves, and the head it moves it to. -/
def PolicyEvent.subject : PolicyEvent → RefName × ObjectId
  | .advance timeline _ newHead => (timeline, newHead)
  | .merge _ target _ resultHead => (target, resultHead)

variable {L : Linked} {ctx : PolicyContext}

/-- **What a signed-approval hook allows**, once approvers and attestations are loaded. -/
lemma checkSignedApproval_allow {pattern : String} {needed : ℕ}
    (hmatch : globMatches pattern ctx.event.subject.1.asStr = true) {reg : ApproverRegistry}
    (hreg : loadApprovers L ctx.refs ctx.objects = .ok reg) {atts : List Attestation}
    (hatts : loadAttestations L ctx.refs ctx.objects = .ok atts) :
    (PolicyHook.signedApproval pattern needed).check L ctx = .allow ↔
      needed ≤ countValidApprovals L atts reg ctx.event.subject.1.asStr ctx.event.subject.2 := by
  rw [PolicyHook.check, PolicyHook.checkSignedApproval]
  cases hevent : ctx.event <;>
    simp only [hevent, PolicyEvent.subject] at hmatch ⊢ <;>
    simp only [hmatch, hreg, hatts, Bool.not_true, Bool.false_eq_true, if_false] <;>
    split_ifs with hlt
  · simpa using hlt
  · simpa using hlt
  · simpa using hlt
  · simpa using hlt

lemma countValidApprovals_lt (L : Linked) (atts : List Attestation) (reg : ApproverRegistry)
    (target : String) (head : ObjectId) : countValidApprovals L atts reg target head < 2 ^ 32 :=
  Nat.mod_lt _ (by decide)

/-- **A hook asks for as many approvals as its specification iff** that number fits a `u32`, or
what the cast leaves of it is still more than have approved. -/
theorem signedApproval_threshold_iff {spec : HookSpec} {n : ℕ}
    (hn : spec.params["needed"]? = some n) {hook : PolicyHook} (hhook : resolveHook spec = .ok hook)
    (hkind : spec.kind = "signed-approval")
    (hmatch : globMatches spec.pattern ctx.event.subject.1.asStr = true) {reg : ApproverRegistry}
    (hreg : loadApprovers L ctx.refs ctx.objects = .ok reg) {atts : List Attestation}
    (hatts : loadAttestations L ctx.refs ctx.objects = .ok atts) :
    (hook.check L ctx = .allow ↔ n ≤ countValidApprovals L atts reg ctx.event.subject.1.asStr
        ctx.event.subject.2) ↔
      n < 2 ^ 32 ∨ countValidApprovals L atts reg ctx.event.subject.1.asStr
        ctx.event.subject.2 < n % 2 ^ 32 := by
  rw [resolveHook, if_pos hkind, hn] at hhook
  cases hhook
  rw [checkSignedApproval_allow hmatch hreg hatts, Option.getD_some]
  have hbound := countValidApprovals_lt L atts reg ctx.event.subject.1.asStr ctx.event.subject.2
  generalize countValidApprovals L atts reg ctx.event.subject.1.asStr ctx.event.subject.2 = count
    at hbound ⊢
  by_cases hfits : n < 2 ^ 32
  · rw [Nat.mod_eq_of_lt hfits]
    exact iff_of_true Iff.rfl (.inl hfits)
  · have hmore : ¬ n ≤ count := by omega
    rw [iff_false_right hmore, not_le, or_iff_right hfits]

/-- A specification that asks for `2 ^ 32` approvals. -/
def excessiveSpec : HookSpec :=
  ⟨"signed-approval", "*", (∅ : BTreeMap String ℕ).insert "needed" (2 ^ 32)⟩

lemma mergeContext_loads : loadApprovers (.over []) mergeContext.refs mergeContext.objects =
      .ok ⟨[]⟩ ∧
    loadAttestations (.over []) mergeContext.refs mergeContext.objects = .ok [] := by
  decide +kernel

/-- **`2 ^ 32` approvals are none.**  The hook allows what nobody has approved. -/
theorem signedApproval_threshold_excessive :
    ∃ hook, resolveHook excessiveSpec = .ok hook ∧ excessiveSpec.params["needed"]? = some (2 ^ 32) ∧
      hook.check (.over []) mergeContext = .allow ∧
      countValidApprovals (.over []) [] ⟨[]⟩ "main" ⟨.replicate 5⟩ = 0 := by
  refine ⟨.signedApproval "*" 0, ?_, ?_, ?_, ?_⟩ <;> decide +kernel

/-- A specification that asks for one. -/
def singleSpec : HookSpec :=
  ⟨"signed-approval", "*", (∅ : BTreeMap String ℕ).insert "needed" 1⟩

/-- It is counted right. -/
theorem signedApproval_threshold_one :
    ((PolicyHook.signedApproval "*" 1).check (.over []) mergeContext = .allow ↔
        1 ≤ countValidApprovals (.over []) [] ⟨[]⟩ "main" ⟨.replicate 5⟩) ↔
      1 < 2 ^ 32 ∨ countValidApprovals (.over []) [] ⟨[]⟩ "main" ⟨.replicate 5⟩ < 1 % 2 ^ 32 := by
  have hneeded : singleSpec.params["needed"]? = some 1 := by decide +kernel
  exact signedApproval_threshold_iff hneeded (by decide +kernel) rfl (by decide +kernel)
    mergeContext_loads.1 mergeContext_loads.2

/-! ### Who has signed -/

section Signers

variable {reg : ApproverRegistry} {target : String} {head : ObjectId}

/-- `find`, for the key of the approver. -/
def ApproverRegistry.keyOf (reg : ApproverRegistry) (keyId : String) : Option Digest :=
  (reg.approvers.find? fun a => decide (a.keyId = keyId)).map Approver.publicKey

/-- One of the signatures presented is a valid one of this key on the subject. -/
def HasSigned (L : Linked) (atts : List Attestation) (target : String) (head : ObjectId)
    (key : Digest) : Prop :=
  ∃ att ∈ atts, att.sig.length = 64 ∧
    L.ed25519Verify key (attestationMessage target head) att.sig = true

instance {L : Linked} {atts : List Attestation} {target : String} {head : ObjectId}
    {key : Digest} : Decidable (HasSigned L atts target head key) :=
  inferInstanceAs (Decidable (∃ att ∈ atts, _))

/-- The key ids whose key has signed the subject. -/
def signingIds (L : Linked) (atts : List Attestation) (reg : ApproverRegistry) (target : String)
    (head : ObjectId) : Finset String :=
  (reg.approvers.map Approver.keyId).toFinset.filter fun keyId =>
    (reg.keyOf keyId).any fun key => decide (HasSigned L atts target head key)

/-- The registered public keys, those that `find` leads to, that have signed the subject. -/
def signers (L : Linked) (atts : List Attestation) (reg : ApproverRegistry) (target : String)
    (head : ObjectId) : Finset Digest :=
  (reg.approvers.map Approver.publicKey).toFinset.filter fun key =>
    (∃ a ∈ reg.approvers, reg.keyOf a.keyId = some key) ∧ HasSigned L atts target head key

/-- What can be made of attestations without a key: any of their signatures, as often as wanted
and under any label. -/
def Presents (atts presented : List Attestation) : Prop :=
  ∀ b ∈ presented, ∃ a ∈ atts, b.sig = a.sig

/-- The key ids an approval is counted for. -/
def countedIds (L : Linked) (atts : List Attestation) (reg : ApproverRegistry) (target : String)
    (head : ObjectId) : Finset String :=
  ((atts.filter fun att => decide (att.target = target) && decide (att.head = head) &&
    verifyAttestation L att reg).map Attestation.approverKeyId).toFinset

lemma countValidApprovals_eq {atts : List Attestation} :
    countValidApprovals L atts reg target head =
      (countedIds L atts reg target head).card % 2 ^ 32 := rfl

/-- A key that is found is that of an approver with this id. -/
lemma ApproverRegistry.keyOf_eq_some {keyId : String} {key : Digest}
    (h : reg.keyOf keyId = some key) : ⟨keyId, key⟩ ∈ reg.approvers := by
  obtain ⟨a, ha, rfl⟩ := Option.map_eq_some_iff.mp h
  have hid : a.keyId = keyId := by simpa using List.find?_some ha
  exact hid ▸ List.mem_of_find?_eq_some ha

lemma mem_signingIds {atts : List Attestation} {keyId : String} :
    keyId ∈ signingIds L atts reg target head ↔
      ∃ key, reg.keyOf keyId = some key ∧ HasSigned L atts target head key := by
  rw [signingIds, Finset.mem_filter, List.mem_toFinset, List.mem_map, Option.any_eq_true]
  simp only [decide_eq_true_eq]
  refine ⟨fun h => h.2, fun h => ⟨?_, h⟩⟩
  obtain ⟨key, hkey, -⟩ := h
  exact ⟨_, reg.keyOf_eq_some hkey, rfl⟩

lemma mem_signers {atts : List Attestation} {key : Digest} :
    key ∈ signers L atts reg target head ↔
      ∃ keyId, reg.keyOf keyId = some key ∧ HasSigned L atts target head key := by
  rw [signers, Finset.mem_filter, List.mem_toFinset, List.mem_map]
  constructor
  · rintro ⟨-, ⟨a, -, hkey⟩, hsigned⟩
    exact ⟨a.keyId, hkey, hsigned⟩
  · rintro ⟨keyId, hkey, hsigned⟩
    have hmem := reg.keyOf_eq_some hkey
    exact ⟨⟨_, hmem, rfl⟩, ⟨_, hmem, hkey⟩, hsigned⟩

/-- The keys that have signed are those of the key ids that have. -/
lemma image_signingIds {atts : List Attestation} :
    (signingIds L atts reg target head).image reg.keyOf =
      (signers L atts reg target head).image some := by
  ext key
  simp only [Finset.mem_image, mem_signingIds, mem_signers]
  constructor
  · rintro ⟨keyId, ⟨k, hkey, hsigned⟩, rfl⟩
    exact ⟨k, ⟨keyId, hkey, hsigned⟩, hkey.symm⟩
  · rintro ⟨k, ⟨keyId, hkey, hsigned⟩, rfl⟩
    exact ⟨keyId, ⟨k, hkey, hsigned⟩, hkey⟩

lemma card_signers {atts : List Attestation} : (signers L atts reg target head).card =
    ((signingIds L atts reg target head).image reg.keyOf).card := by
  rw [image_signingIds, Finset.card_image_of_injective _ (Option.some_injective _)]

/-- **What makes an attestation count**: the key of its key id has signed with it. -/
lemma verifyAttestation_iff {att : Attestation} : verifyAttestation L att reg = true ↔
    ∃ key, reg.keyOf att.approverKeyId = some key ∧ att.sig.length = 64 ∧
      L.ed25519Verify key (attestationMessage att.target att.head) att.sig = true := by
  rw [verifyAttestation, ApproverRegistry.keyOf]
  cases reg.approvers.find? fun a => decide (a.keyId = att.approverKeyId) with
  | none => simp
  | some a => simp

lemma mem_countedIds {atts : List Attestation} {keyId : String} :
    keyId ∈ countedIds L atts reg target head ↔ ∃ att ∈ atts, att.approverKeyId = keyId ∧
      att.target = target ∧ att.head = head ∧ verifyAttestation L att reg = true := by
  simp only [countedIds, List.mem_toFinset, List.mem_map, List.mem_filter, Bool.and_eq_true,
    decide_eq_true_eq]
  constructor
  · rintro ⟨att, ⟨hatt, ⟨ht, hh⟩, hv⟩, hid⟩
    exact ⟨att, hatt, hid, ht, hh, hv⟩
  · rintro ⟨att, hatt, hid, ht, hh, hv⟩
    exact ⟨att, ⟨hatt, ⟨ht, hh⟩, hv⟩, hid⟩

/-- **Only key ids whose key has signed are counted**, whatever is presented. -/
lemma countedIds_subset {atts presented : List Attestation} (h : Presents atts presented) :
    countedIds L presented reg target head ⊆ signingIds L atts reg target head := by
  intro keyId hid
  obtain ⟨b, hb, rfl, rfl, rfl, hv⟩ := mem_countedIds.mp hid
  obtain ⟨key, hkey, hlen, hsig⟩ := verifyAttestation_iff.mp hv
  obtain ⟨a, ha, heq⟩ := h b hb
  exact mem_signingIds.mpr ⟨key, hkey, a, ha, heq ▸ hlen, heq ▸ hsig⟩

/-- **Each set of such key ids can be had**, by relabelling the signatures. -/
lemma exists_countedIds {atts : List Attestation} {ids : Finset String}
    (h : ids ⊆ signingIds L atts reg target head) :
    ∃ presented, Presents atts presented ∧ countedIds L presented reg target head = ids := by
  have hsig : ∀ keyId, keyId ∈ ids → ∃ a ∈ atts, ∃ key, reg.keyOf keyId = some key ∧
      a.sig.length = 64 ∧
      L.ed25519Verify key (attestationMessage target head) a.sig = true := by
    intro keyId hid
    obtain ⟨key, hkey, a, ha, hlen, hv⟩ := mem_signingIds.mp (h hid)
    exact ⟨a, ha, key, hkey, hlen, hv⟩
  have : Nonempty Attestation := ⟨⟨target, head, "", []⟩⟩
  choose! att hatt using hsig
  refine ⟨ids.toList.map fun keyId => ⟨target, head, keyId, (att keyId).sig⟩, ?_, ?_⟩
  · intro b hb
    obtain ⟨keyId, hid, rfl⟩ := List.mem_map.mp hb
    exact ⟨att keyId, (hatt keyId (Finset.mem_toList.mp hid)).1, rfl⟩
  · ext keyId
    rw [mem_countedIds]
    constructor
    · rintro ⟨b, hb, rfl, -⟩
      obtain ⟨k, hk, rfl⟩ := List.mem_map.mp hb
      exact Finset.mem_toList.mp hk
    · intro hid
      refine ⟨_, List.mem_map_of_mem (Finset.mem_toList.mpr hid), rfl, rfl, rfl, ?_⟩
      exact verifyAttestation_iff.mpr (hatt keyId hid).2

/-- **Approvals count the keys that have signed, however the attestations are presented, iff no
two key ids stand for one key that has**, or so many have that the counter ends before. -/
theorem countValidApprovals_signers_iff (L : Linked) (atts : List Attestation)
    (reg : ApproverRegistry) (target : String) (head : ObjectId) :
    (∀ presented, Presents atts presented →
        countValidApprovals L presented reg target head ≤ (signers L atts reg target head).card) ↔
      Set.InjOn reg.keyOf (signingIds L atts reg target head) ∨
        2 ^ 32 ≤ (signers L atts reg target head).card + 1 := by
  constructor
  · intro h
    by_contra hnot
    obtain ⟨hinj, hfew⟩ := not_or.mp hnot
    -- one key id more than keys can be presented, and the counter does not wrap
    have hmore : (signers L atts reg target head).card + 1 ≤
        (signingIds L atts reg target head).card := by
      have hne := mt Finset.card_image_iff.mp hinj
      have hle : ((signingIds L atts reg target head).image reg.keyOf).card ≤
        (signingIds L atts reg target head).card := Finset.card_image_le
      rw [card_signers]
      omega
    obtain ⟨ids, hids, hcard⟩ := Finset.exists_subset_card_eq hmore
    obtain ⟨presented, hpresents, hcounted⟩ := exists_countedIds hids
    have := h presented hpresents
    rw [countValidApprovals_eq, hcounted, hcard, Nat.mod_eq_of_lt (by omega)] at this
    omega
  · rintro (hinj | hmany) presented hpresents
    · calc countValidApprovals L presented reg target head
          ≤ (countedIds L presented reg target head).card := by
            rw [countValidApprovals_eq]
            exact Nat.mod_le _ _
        _ ≤ (signingIds L atts reg target head).card :=
            Finset.card_le_card (countedIds_subset hpresents)
        _ = (signers L atts reg target head).card := by
            rw [card_signers, Finset.card_image_of_injOn hinj]
    · have hbound := countValidApprovals_lt L presented reg target head
      omega

end Signers

/-! ### One key under two ids -/

/-- A public key. -/
def graceKey : Digest :=
  ⟨[234, 74, 108, 99, 226, 156, 82, 10, 190, 245, 80, 123, 19, 46, 197, 249, 149, 71, 118, 174,
    190, 190, 123, 146, 66, 30, 234, 105, 20, 70, 210, 44], by decide⟩

/-- Its signature on moving `main` to a head. -/
def graceSignature : Bytes :=
  [107, 246, 103, 40, 167, 147, 24, 32, 39, 121, 149, 182, 95, 130, 199, 107, 91, 211, 251, 208,
    244, 204, 241, 51, 50, 17, 12, 23, 85, 137, 184, 144, 37, 243, 166, 129, 133, 253, 62, 252,
    174, 108, 85, 186, 33, 145, 127, 16, 13, 83, 44, 51, 253, 166, 244, 104, 183, 129, 156, 243,
    199, 63, 41, 5]

/-- The signature verifies. -/
def graceLinked : Linked :=
  { Linked.over [] with
    ed25519Verify := fun key msg sig => decide (key = graceKey ∧
      msg = attestationMessage "main" ⟨.replicate 5⟩ ∧ sig = graceSignature) }

/-- The key is registered at home and at work. -/
def graceRegistry : ApproverRegistry := ⟨[⟨"grace", graceKey⟩, ⟨"grace-work", graceKey⟩]⟩

/-- **One signature counts twice**, once for each id of its key. -/
theorem countValidApprovals_signers_grace :
    countValidApprovals graceLinked
        [⟨"main", ⟨.replicate 5⟩, "grace", graceSignature⟩,
          ⟨"main", ⟨.replicate 5⟩, "grace-work", graceSignature⟩] graceRegistry "main"
        ⟨.replicate 5⟩ = 2 ∧
      (signers graceLinked
        [⟨"main", ⟨.replicate 5⟩, "grace", graceSignature⟩,
          ⟨"main", ⟨.replicate 5⟩, "grace-work", graceSignature⟩] graceRegistry "main"
        ⟨.replicate 5⟩).card = 1 := by
  decide +kernel

end Bole
