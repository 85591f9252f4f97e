import Bole.Repo.Advance
import Bole.Repo.Ephemeral
import Bole.Repo.Merge

/-!
Merging one timeline into another: `merge_timelines` and `check_merge` of `src/repo/mod.rs`,
change proposals (`src/pr.rs`, `src/repo/pr.rs`), and the merge command of
`bole-cli/src/commands/merge.rs`.

A merge takes the three-way diff, stores the merged tree and its snapshot, and advances the
target.  The leak scan is in `check_merge`, which nothing on that path calls.

* `checkMerge_allowed_iff`: what the scan and the hooks ask for;
* `merge_checked_iff`: a merged proposal passes `check_merge` on the state it was merged in
  exactly when no protected path leaks into the target and the hooks have the approvals of the
  source's head.
-/

namespace Bole

/-- `can_write_timeline`: the label under the rules of the accessor. -/
def Accessor.canWriteTimeline (a : Accessor) (name : String) : Bool :=
  a.canWrite (a.rules.labelForTimeline a.lattice name) ⟨.timeline, name⟩

/-! ### Change proposals -/

/-- `PROPOSAL_DOMAIN`. -/
def proposalDomain : Bytes := ascii "bole-change-proposal-v1" ++ [0]

/-- `proposal_message`. -/
def proposalMessage (p : ChangeProposal) : Bytes := proposalDomain ++ Postcard.proposalMsg p

/-- `verify_proposal`. -/
def verifyProposal (L : Linked) (p : ChangeProposal) : Bool :=
  decide (p.sig.length = 64) && L.ed25519Verify p.author (proposalMessage p) p.sig

/-- A merge that is asked for: the timelines, what the merge snapshot records, who asks, the
time its objects are written at, and what is reported when a timeline is missing. -/
structure MergeRequest where
  source : RefName
  target : RefName
  author : String
  createdAt : ℕ
  message : String
  accessor : Accessor
  mtime : Option ℕ
  missingSource : Error
  missingTarget : Error

/-- The heads of the two timelines of a merge. -/
structure MergeHeads where
  source : ObjectId
  target : ObjectId
deriving DecidableEq

namespace MergeRequest

/-- The merge snapshot: the target's head is the first parent. -/
def snapshot (req : MergeRequest) (heads : MergeHeads) (root : ObjectId) : Snapshot :=
  ⟨root, [heads.target, heads.source], req.author, req.createdAt, req.message⟩

/-- The advance that publishes it, bound to the recorded head of the target. -/
def advance (req : MergeRequest) (heads : MergeHeads) (snap : ObjectId) : AdvanceRequest :=
  ⟨req.target, snap, some heads.target, req.accessor⟩

/-- What `merge_proposal` asks for. -/
def ofProposal (p : ChangeProposal) (author : String) (createdAt : ℕ) (message : String)
    (accessor : Accessor) (mtime : Option ℕ) : Result MergeRequest := do
  let source ← RefName.new p.source
  let target ← RefName.new p.target
  .ok ⟨source, target, author, createdAt, message, accessor, mtime,
    .storage ("source timeline not found: " ++ p.source),
    .storage ("target timeline not found: " ++ p.target)⟩

/-- What `bole merge run` asks for; the error of a command is its text. -/
def ofCommand (source target : RefName) (author : String) (createdAt : ℕ) (message : String)
    (accessor : Accessor) (mtime : Option ℕ) : MergeRequest :=
  ⟨source, target, author, createdAt, message, accessor, mtime,
    .storage ("no such timeline: " ++ source.asStr),
    .storage ("no such timeline: " ++ target.asStr)⟩

end MergeRequest

/-- `ProposalMerge`. -/
inductive ProposalMerge where
  | merged (snapshot : ObjectId)
  | conflicts (conflicts : List MergeConflict)
deriving DecidableEq

/-- `MergeCheck`. -/
inductive MergeCheck where
  | allowed
  | requiresApproval (acls : List PathAcl)
  | rejected (acls : List PathAcl)
deriving DecidableEq

namespace Repository

/-! ### Merging -/

/-- `get_proposal`. -/
def getProposal (L : Linked) (r : Repository) (id : ObjectId) :
    Result (Option ChangeProposal) := do
  match ← r.objects.get L id with
  | some (.changeProposal p) => .ok (if verifyProposal L p then some p else none)
  | _ => .ok none

/-- The head of a timeline that has to be there. -/
def timelineHead (r : Repository) (name : RefName) (missing : Error) : Result ObjectId := do
  match ← r.refs.getTimeline name with
  | some t => .ok t.head
  | none => .error missing

/-- The root of a snapshot that has to be there. -/
def snapshotRoot (L : Linked) (r : Repository) (id : ObjectId) (missing : Error) :
    Result ObjectId := do
  match ← r.objects.getSnapshot L id with
  | some snap => .ok snap.root
  | none => .error missing

/-- The paths of a common ancestor, if there is one. -/
def ancestorPaths (L : Linked) (r : Repository) :
    Option ObjectId → Result (BTreeMap String ObjectId)
  | none => .ok ∅
  | some id => r.oldPaths L id

/-- `merge_timelines` once it has read the two heads. -/
def mergeTrees (L : Linked) (r : Repository) (heads : MergeHeads) : Result MergeResult := do
  let ancestor ← findCommonAncestor L r.objects heads.source heads.target
  let sourceRoot ← r.snapshotRoot L heads.source
    (.storage ("snapshot not found: " ++ heads.source.toHex))
  let targetRoot ← r.snapshotRoot L heads.target
    (.storage ("snapshot not found: " ++ heads.target.toHex))
  let ancestorTree ← r.ancestorPaths L ancestor
  let sourceTree ← r.treeAsMap L sourceRoot
  let targetTree ← r.treeAsMap L targetRoot
  .ok (threeWayDiff ancestorTree targetTree sourceTree)

/-- What `merge_timelines` reports when a timeline is missing. -/
def timelineNotFound (name : RefName) : Error := .storage ("timeline not found: " ++ name.asStr)

/-- The check `merge_timelines` starts with. -/
def mayMerge (accessor : Accessor) (target : RefName) : Result Unit :=
  if accessor.canWriteTimeline target.asStr then .ok ()
  else .error (.accessDenied ("write denied on timeline: " ++ target.asStr))

/-- `merge_timelines`. -/
def mergeTimelines (L : Linked) (r : Repository) (source target : RefName)
    (accessor : Accessor) : Result MergeResult := do
  mayMerge accessor target
  let sourceHead ← r.timelineHead source (timelineNotFound source)
  let targetHead ← r.timelineHead target (timelineNotFound target)
  r.mergeTrees L ⟨sourceHead, targetHead⟩

/-- The merged map of a diff without conflicts. -/
def cleanMerge (result : MergeResult) : Except (List MergeConflict) (BTreeMap String ObjectId) :=
  if result.conflicts = [] then .ok result.merged else .error result.conflicts

/-- Storing the merge snapshot. -/
def putMerge (L : Linked) (r : Repository) (req : MergeRequest) (heads : MergeHeads)
    (root : ObjectId) : Result ObjectId × Repository :=
  let (result, objects) := r.objects.put L (.snapshot (req.snapshot heads root)) req.mtime
  (result, { r with objects := objects })

/-- Storing the merged tree. -/
def putTree (L : Linked) (r : Repository) (merged : BTreeMap String ObjectId)
    (mtime : Option ℕ) : Result ObjectId × Repository :=
  let (result, objects) := buildTree L r.objects merged mtime
  (result, { r with objects := objects })

/-- From the merged map to the advanced target. -/
def publishMerge (L : Linked) (r : Repository) (req : MergeRequest) (heads : MergeHeads)
    (merged : BTreeMap String ObjectId) : Result ProposalMerge × Repository :=
  match r.putTree L merged req.mtime with
  | (.error e, r) => (.error e, r)
  | (.ok root, r) =>
      match r.putMerge L req heads root with
      | (.error e, r) => (.error e, r)
      | (.ok snap, r) =>
          match r.advanceTimelineExpecting L (req.advance heads snap) with
          | (.error e, r) => (.error e, r)
          | (.ok (), r) => (.ok (.merged snap), r)

/-- The two heads that the merge snapshot will record. -/
def recordHeads (r : Repository) (req : MergeRequest) : Result MergeHeads := do
  let sourceHead ← r.timelineHead req.source req.missingSource
  let targetHead ← r.timelineHead req.target req.missingTarget
  .ok ⟨sourceHead, targetHead⟩

/-- What `merge_proposal` and the merge command have in common. -/
def mergeInto (L : Linked) (r : Repository) (req : MergeRequest) :
    Result ProposalMerge × Repository :=
  match r.recordHeads req with
  | .error e => (.error e, r)
  | .ok heads =>
      match r.mergeTimelines L req.source req.target req.accessor with
      | .error e => (.error e, r)
      | .ok result =>
          match cleanMerge result with
          | .error conflicts => (.ok (.conflicts conflicts), r)
          | .ok merged => r.publishMerge L req heads merged

/-- `merge_proposal`. -/
def mergeProposal (L : Linked) (r : Repository) (id : ObjectId) (author : String)
    (createdAt : ℕ) (message : String) (accessor : Accessor) (mtime : Option ℕ) :
    Result ProposalMerge × Repository :=
  match r.getProposal L id with
  | .error e => (.error e, r)
  | .ok none => (.error (.storage ("proposal not found: " ++ id.toHex)), r)
  | .ok (some p) =>
      match MergeRequest.ofProposal p author createdAt message accessor mtime with
      | .error e => (.error e, r)
      | .ok req => r.mergeInto L req

/-! ### The leak scan -/

/-- Whether a path that the ACL protects would flow to a less protected place. -/
def leaks (lattice : LabelLattice) (rules : LabelRuleSet) (dest : RefName) (acl : PathAcl)
    (path : String) : Bool :=
  globMatches acl.glob path &&
    !lattice.dominates (rules.labelForTimeline lattice dest.asStr) (rules.labelForPath lattice path)

/-- The loop over the path ACLs; each glob is reported once. -/
def leaking (lattice : LabelLattice) (rules : LabelRuleSet) (dest : RefName)
    (paths : List String) (acls : List PathAcl) : List PathAcl :=
  acls.foldl (fun out acl =>
    if paths.any (leaks lattice rules dest acl) && !out.any fun l => decide (l.glob = acl.glob)
    then out ++ [acl] else out) []

/-- What the hooks are asked about a merge. -/
def mergeContext (r : Repository) (source dest : RefName) (accessor : Accessor)
    (sourceHead : ObjectId) : PolicyContext :=
  ⟨.merge source dest sourceHead sourceHead, accessor, r.objects, r.refs, 0⟩

/-- The verdict, from the leaks and the decision of the hooks. -/
def mergeVerdict (accessor : Accessor) (dest : RefName) (leaking : List PathAcl) :
    PolicyDecision → MergeCheck
  | .deny _ => .rejected leaking
  | .requiresApproval _ _ =>
      if leaking = [] then .requiresApproval leaking
      else if accessor.canWriteTimeline dest.asStr then .requiresApproval leaking
      else .rejected leaking
  | .allow =>
      if leaking = [] then .allowed
      else if accessor.canWriteTimeline dest.asStr then .requiresApproval leaking
      else .rejected leaking

/-- `check_merge`. -/
def checkMerge (L : Linked) (r : Repository) (source dest : RefName) (accessor : Accessor) :
    Result MergeCheck := do
  let sourceHead ← r.timelineHead source
    (.storage ("source ref '" ++ source.asStr ++ "' not found"))
  let sourceTree ← r.snapshotRoot L sourceHead
    (.wrongRefKind ("source ref '" ++ source.asStr ++ "' head is not a snapshot"))
  let lattice ← r.acls.getLattice
  let rules ← r.acls.getLabelRuleset
  let paths ← walkTreeFiltered L r.objects lattice rules sourceTree "" .privileged ∅
  let acls ← r.acls.listPathAcls
  let registry ← r.policyRegistry L
  .ok (mergeVerdict accessor dest (leaking lattice rules dest paths.keys acls)
    (registry.evaluate L (r.mergeContext source dest accessor sourceHead)))

/-! ### What the scan asks for -/

variable {L : Linked} {r : Repository} {source dest target : RefName} {accessor : Accessor}

lemma timelineHead_eq_ok {name : RefName} {missing : Error} {head : ObjectId} :
    r.timelineHead name missing = .ok head ↔
      ∃ T, r.refs.get name = some (.timeline T) ∧ T.head = head := by
  rw [timelineHead, Result.bind_eq_ok]
  constructor
  · rintro ⟨o, ho, h⟩
    cases o with
    | none => cases h
    | some T => exact ⟨T, RefStore.getTimeline_eq_some.mp ho, Except.ok.inj h⟩
  · rintro ⟨T, hT, rfl⟩
    exact ⟨some T, RefStore.getTimeline_eq_some.mpr hT, rfl⟩

lemma snapshotRoot_eq_ok {id root : ObjectId} {missing : Error} :
    r.snapshotRoot L id missing = .ok root ↔
      ∃ snap, r.objects.getSnapshot L id = .ok (some snap) ∧ snap.root = root := by
  rw [snapshotRoot, Result.bind_eq_ok]
  constructor
  · rintro ⟨o, ho, h⟩
    cases o with
    | none => cases h
    | some snap => exact ⟨snap, ho, Except.ok.inj h⟩
  · rintro ⟨snap, hsnap, rfl⟩
    exact ⟨some snap, hsnap, rfl⟩

lemma leaking_eq_nil {lattice : LabelLattice} {rules : LabelRuleSet} {paths : List String}
    {acls : List PathAcl} : leaking lattice rules dest paths acls = [] ↔
      ∀ acl ∈ acls, ∀ path ∈ paths, leaks lattice rules dest acl path = false := by
  have key : ∀ out : List PathAcl, acls.foldl (fun out acl =>
      if paths.any (leaks lattice rules dest acl) && !out.any fun l => decide (l.glob = acl.glob)
      then out ++ [acl] else out) out = [] ↔
        out = [] ∧ ∀ acl ∈ acls, ∀ path ∈ paths, leaks lattice rules dest acl path = false := by
    induction acls with
    | nil => simp
    | cons acl rest ih =>
        intro out
        rw [List.foldl_cons, ih]
        cases hany : paths.any (leaks lattice rules dest acl) with
        | false =>
            have hnone : ∀ path ∈ paths, leaks lattice rules dest acl path = false := by
              simpa using hany
            rw [List.forall_mem_cons, and_iff_right hnone]
            simp
        | true =>
            obtain ⟨path, hpath, hleak⟩ := List.any_eq_true.mp hany
            have hno : ¬ ∀ a ∈ acl :: rest, ∀ p ∈ paths, leaks lattice rules dest a p = false :=
              fun h => by simpa [hleak] using h acl List.mem_cons_self path hpath
            refine iff_of_false ?_ fun h => hno h.2
            cases out with
            | nil => simp
            | cons a out =>
                split_ifs
                · simp
                · simp
  rw [leaking, key]
  simp

lemma mergeVerdict_eq_allowed {acls : List PathAcl} {d : PolicyDecision} :
    mergeVerdict accessor dest acls d = .allowed ↔ acls = [] ∧ d = .allow := by
  cases d with
  | deny reason => simp [mergeVerdict]
  | requiresApproval reason needed =>
      rw [mergeVerdict]
      split_ifs <;> simp
  | allow =>
      rw [mergeVerdict]
      split_ifs with h <;> simp [h]

/-- The approvals a hook asks for before it allows a merge of the given head. -/
def HookApproved (L : Linked) (r : Repository) (dest : RefName) (head : ObjectId) :
    PolicyHook → Prop
  | .timelinePolicy => True
  | .signedApproval pattern needed => globMatches pattern dest.asStr = true →
      ∃ approvers attestations, loadApprovers L r.refs r.objects = .ok approvers ∧
        loadAttestations L r.refs r.objects = .ok attestations ∧
        needed ≤ countValidApprovals L attestations approvers dest.asStr head

lemma check_merge_eq_allow {head : ObjectId} {hook : PolicyHook} :
    hook.check L (r.mergeContext source dest accessor head) = .allow ↔
      HookApproved L r dest head hook := by
  cases hook with
  | timelinePolicy => exact ⟨fun _ => trivial, fun _ => rfl⟩
  | signedApproval pattern needed =>
      simp only [PolicyHook.check, PolicyHook.checkSignedApproval, mergeContext, HookApproved]
      by_cases hg : globMatches pattern dest.asStr = true
      · simp only [hg, Bool.not_true, Bool.false_eq_true, if_false, true_implies]
        cases ha : loadApprovers L r.refs r.objects with
        | error e => simp
        | ok approvers =>
            cases hb : loadAttestations L r.refs r.objects with
            | error e => simp
            | ok attestations =>
                simp only [Except.ok.injEq, exists_and_left, exists_eq_left']
                by_cases hlt : countValidApprovals L attestations approvers dest.asStr head < needed
                · simp [hlt]
                · simp [hlt, not_lt.mp hlt]
      · simp [hg]

/-- No path of the source's head that a path ACL protects would flow to a place its label does
not allow. -/
def NoLeak (L : Linked) (r : Repository) (source dest : RefName) : Prop :=
  ∀ T snap lattice rules, r.refs.get source = some (.timeline T) →
    r.objects.getSnapshot L T.head = .ok (some snap) → r.acls.getLattice = .ok lattice →
    r.acls.getLabelRuleset = .ok rules →
    ∃ acls, r.acls.listPathAcls = .ok acls ∧ ∀ acl ∈ acls, ∀ path,
      ShowsPath L r.objects snap.root "" path → visible lattice rules .privileged path = true →
      globMatches acl.glob path = true →
        lattice.dominates (rules.labelForTimeline lattice dest.asStr)
          (rules.labelForPath lattice path) = true

/-- Every approval hook bound to the target has the approvals of the source's head. -/
def Approved (L : Linked) (r : Repository) (source dest : RefName) : Prop :=
  ∀ T registry, r.refs.get source = some (.timeline T) → r.policyRegistry L = .ok registry →
    ∀ hook ∈ registry.hooks, HookApproved L r dest T.head hook

/-- **What the scan and the hooks ask for**, where the reads of `check_merge` succeed. -/
lemma checkMerge_allowed_iff {T : Timeline} {snap : Snapshot} {lattice : LabelLattice}
    {rules : LabelRuleSet} {paths : BTreeMap String ObjectId} {registry : PolicyRegistry}
    (hT : r.refs.get source = some (.timeline T))
    (hsnap : r.objects.getSnapshot L T.head = .ok (some snap))
    (hlat : r.acls.getLattice = .ok lattice) (hrules : r.acls.getLabelRuleset = .ok rules)
    (hwalk : walkTreeFiltered L r.objects lattice rules snap.root "" .privileged ∅ = .ok paths)
    (hreg : r.policyRegistry L = .ok registry) :
    r.checkMerge L source dest accessor = .ok .allowed ↔
      r.NoLeak L source dest ∧ r.Approved L source dest := by
  have hcheck : r.checkMerge L source dest accessor = (do
      let acls ← r.acls.listPathAcls
      .ok (mergeVerdict accessor dest (leaking lattice rules dest paths.keys acls)
        (registry.evaluate L (r.mergeContext source dest accessor T.head)))) := by
    simp only [checkMerge, timelineHead_eq_ok.mpr ⟨T, hT, rfl⟩,
      snapshotRoot_eq_ok.mpr ⟨snap, hsnap, rfl⟩, hlat, hrules, hwalk, hreg, bind, Except.bind]
  have happroved : r.Approved L source dest ↔
      registry.evaluate L (r.mergeContext source dest accessor T.head) = .allow := by
    rw [PolicyRegistry.evaluate_eq_allow]
    constructor
    · intro h hook hmem
      exact check_merge_eq_allow.mpr (h T registry hT hreg hook hmem)
    · intro h T' registry' hT' hreg' hook hmem
      obtain rfl : T = T' := by simpa [hT] using hT'
      obtain rfl : registry = registry' := by simpa [hreg] using hreg'
      exact check_merge_eq_allow.mp (h hook hmem)
  have hleak : r.NoLeak L source dest ↔ ∃ acls, r.acls.listPathAcls = .ok acls ∧
      leaking lattice rules dest paths.keys acls = [] := by
    have hmem : ∀ acl path, leaks lattice rules dest acl path = false ↔
        (globMatches acl.glob path = true →
          lattice.dominates (rules.labelForTimeline lattice dest.asStr)
            (rules.labelForPath lattice path) = true) := by
      intro acl path
      rw [leaks]
      cases globMatches acl.glob path <;> simp
    simp only [leaking_eq_nil, Std.ExtTreeMap.mem_keys, mem_walkTreeFiltered hwalk, hmem]
    constructor
    · intro h
      obtain ⟨acls, hacls, hall⟩ := h T snap lattice rules hT hsnap hlat hrules
      exact ⟨acls, hacls, fun acl ha path hp hg => hall acl ha path hp.2 hp.1 hg⟩
    · rintro ⟨acls, hacls, hall⟩ T' snap' lattice' rules' hT' hsnap' hlat' hrules'
      obtain rfl : T = T' := by simpa [hT] using hT'
      obtain rfl : snap = snap' := by simpa [hsnap] using hsnap'
      obtain rfl : lattice = lattice' := by simpa [hlat] using hlat'
      obtain rfl : rules = rules' := by simpa [hrules] using hrules'
      exact ⟨acls, hacls, fun acl ha path hs hv hg => hall acl ha path ⟨hv, hs⟩ hg⟩
  rw [hcheck, hleak, happroved, Result.bind_eq_ok]
  simp only [Except.ok.injEq, mergeVerdict_eq_allowed]
  constructor
  · rintro ⟨acls, hacls, hnil, hallow⟩
    exact ⟨⟨acls, hacls, hnil⟩, hallow⟩
  · rintro ⟨⟨acls, hacls, hnil⟩, hallow⟩
    exact ⟨acls, hacls, hnil, hallow⟩

/-! ### What a merge has checked -/

/-- The bytes a merge writes are those of trees and snapshots. -/
def IsMergeBytes (L : Linked) (b : Bytes) : Prop :=
  ∃ obj, L.codec.serialize obj = .ok b ∧ (obj.variant = 1 ∨ obj.variant = 2)

/-- A policy object that is there after such writes was there before. -/
lemma policy_of_written {s t : ObjectStore} (hcodec : L.codec.KeepsVariant)
    (h : s.Written L (IsMergeBytes L) t) {id : ObjectId} {p : PolicyObject}
    (ht : t.get L id = .ok (some (.policy p))) : s.get L id = .ok (some (.policy p)) := by
  rcases h.getRaw id with heq | ⟨-, b, ⟨obj, hb, hvar⟩, -, hnew⟩
  · rw [ObjectStore.get_congr heq.symm, ht]
  · obtain ⟨data, hdata, hd⟩ := ObjectStore.get_eq_some.mp ht
    obtain rfl : b = data := by simpa [hnew] using hdata
    have hkeep : 5 = obj.variant := hcodec obj b _ hb hd
    omega

/-- The registry of a repository with more trees and snapshots is the one it had. -/
lemma policyRegistry_of_written {t : ObjectStore} {registry : PolicyRegistry}
    (hcodec : L.codec.KeepsVariant) (hw : r.objects.Written L (IsMergeBytes L) t)
    (h : policyRegistry L { r with objects := t } = .ok registry) :
    r.policyRegistry L = .ok registry := by
  have hroot : ∀ o, policyRoot L { r with objects := t } = .ok o → r.policyRoot L = .ok o := by
    intro o ho
    rw [policyRoot] at ho ⊢
    dsimp only at ho
    cases hg : r.refs.get policyRootRef with
    | none => simpa [hg] using ho
    | some v =>
        cases v with
        | timeline T => simp [hg] at ho
        | tag tag =>
            simp only [hg, Result.bind_eq_ok] at ho ⊢
            obtain ⟨found, hfound, ho⟩ := ho
            split at ho
            · exact ⟨_, policy_of_written hcodec hw hfound, ho⟩
            · cases ho
  rw [policyRegistry, Result.bind_eq_ok] at h ⊢
  obtain ⟨own, hown, h⟩ := h
  refine ⟨own, hown, ?_⟩
  rw [Result.bind_eq_ok] at h ⊢
  obtain ⟨o, ho, h⟩ := h
  exact ⟨o, hroot o ho, h⟩

/-- What a merge that goes through has read and checked on the way. -/
lemma publishMerge_registry {req : MergeRequest} {heads : MergeHeads}
    {merged : BTreeMap String ObjectId} {snap : ObjectId} (hcodec : L.codec.KeepsVariant)
    (h : (r.publishMerge L req heads merged).1 = .ok (.merged snap)) :
    ∃ registry, r.policyRegistry L = .ok registry := by
  have htree : r.objects.Written L (IsTreeBytes L) (buildTree L r.objects merged req.mtime).2 :=
    buildTree_written r.objects merged
  rw [publishMerge, putTree] at h
  cases hb : buildTree L r.objects merged req.mtime with
  | mk result s =>
      rw [hb] at h htree
      cases result with
      | error e => cases h
      | ok root =>
          have hbytes : ∀ b, L.codec.serialize (.snapshot (req.snapshot heads root)) = .ok b →
              IsMergeBytes L b := fun b hb => ⟨_, hb, Or.inr rfl⟩
          have hsnap := (htree.mono fun b ⟨t, ht⟩ => ⟨_, ht, Or.inl rfl⟩ :
            r.objects.Written L (IsMergeBytes L) s).put hbytes req.mtime
          simp only [putMerge] at h
          cases hp : s.put L (.snapshot (req.snapshot heads root)) req.mtime with
          | mk result' t =>
              rw [hp] at h hsnap
              cases result' with
              | error e => cases h
              | ok id =>
                  dsimp only at h hsnap
                  cases ha : advanceTimelineExpecting L { r with objects := t }
                      (req.advance heads id) with
                  | mk result'' r' =>
                      rw [ha] at h
                      cases result'' with
                      | error e => cases h
                      | ok u =>
                          obtain ⟨p, T, registry, -, -, -, hreg, -⟩ :=
                            advanceTimelineExpecting_ok_iff.mp (congrArg Prod.fst ha)
                          exact ⟨registry, policyRegistry_of_written hcodec hsnap hreg⟩

/-- **The leak scan of a merged proposal.**  A proposal that was merged passes `check_merge` on
the state it was merged in exactly when no protected path of the source's head leaks into the
target and every approval hook bound to the target has the approvals of the source's head. -/
theorem merge_checked_iff {id snap : ObjectId} {author message : String} {createdAt : ℕ}
    {mtime : Option ℕ} {p : ChangeProposal} (hcodec : L.codec.KeepsVariant)
    (hp : r.getProposal L id = .ok (some p)) (hsource : RefName.new p.source = .ok source)
    (htarget : RefName.new p.target = .ok target)
    (h : (r.mergeProposal L id author createdAt message accessor mtime).1 = .ok (.merged snap)) :
    r.checkMerge L source target accessor = .ok .allowed ↔
      r.NoLeak L source target ∧ r.Approved L source target := by
  rw [mergeProposal, hp] at h
  simp only [MergeRequest.ofProposal, hsource, htarget, bind, Except.bind, mergeInto] at h
  split at h
  · cases h
  split at h
  · cases h
  next heads _ _ result hmerge =>
    split at h
    · cases h
    next merged _ =>
      obtain ⟨registry, hreg⟩ := publishMerge_registry hcodec h
      simp only [mergeTimelines, mergeTrees, treeAsMap, Result.bind_eq_ok] at hmerge
      obtain ⟨-, -, sourceHead, hhead, -, -, -, -, root, hroot, -, -, -, -, sourceTree,
        ⟨lattice, hlat, rules, hrules, hwalk⟩, -⟩ := hmerge
      obtain ⟨T, hT, rfl⟩ := timelineHead_eq_ok.mp hhead
      obtain ⟨sn, hsn, rfl⟩ := snapshotRoot_eq_ok.mp hroot
      exact checkMerge_allowed_iff hT hsn hlat hrules hwalk hreg

/-! ### A proposal that leaks -/

/-- A protected file in nested trees, an empty tree, a snapshot of each, the proposal to merge
one into the other, and what that merge stores. -/
def leakObjects : List Object :=
  let file : Object := .blob (ascii "data")
  let dir : Object := .tree ⟨(∅ : BTreeMap String TreeEntry).insert "key" ⟨file.refId, .blob⟩⟩
  let root : Object := .tree ⟨(∅ : BTreeMap String TreeEntry).insert "secrets" ⟨dir.refId, .tree⟩⟩
  let empty : Object := .tree ⟨∅⟩
  let base : Object := .snapshot ⟨empty.refId, [], "", 0, "base"⟩
  let new : Object := .snapshot ⟨root.refId, [base.refId], "", 1, "new"⟩
  [file, dir, root, empty, base, new,
    .changeProposal ⟨Digest.replicate 7, "feature", "main", "", 0, List.replicate 64 7⟩,
    .snapshot ⟨root.refId, [base.refId, new.refId], "", 2, "merge"⟩]

/-- The crates with a codec for these objects; the signature of the proposal verifies. -/
def leakLinked : Linked :=
  { Linked.over leakObjects with
    ed25519Verify := fun _ _ sig => decide (sig = List.replicate 64 7) }

def leakId (i : ℕ) : ObjectId := (leakObjects.getD i (.blob [])).refId

def featureName : RefName := ⟨"feature", RefName.valid_feature⟩

/-- A repository with the two timelines, in which the given paths are protected. -/
def leakRepo (pathAcls : List String) : Repository :=
  { Repository.memory with
    objects := .holding leakLinked (leakObjects.take 7)
    acls := .shipped pathAcls [] []
    refs := ⟨((∅ : BTreeMap RefName Ref).insert AdvanceSystem.raceName
      (.timeline ⟨leakId 4, .fastForwardOnly, 0, "persistent", none⟩)).insert featureName
        (.timeline ⟨leakId 5, .fastForwardOnly, 0, "persistent", none⟩)⟩ }

lemma leak_merged :
    ((leakRepo ["secrets/**"]).mergeProposal leakLinked (leakId 6) "" 2 "merge"
        AdvanceSystem.raceWriter none).1 = .ok (.merged (leakId 7)) ∧
      ((leakRepo ["secrets/**"]).getProposal leakLinked (leakId 6)).map
        (Option.map fun p => (p.source, p.target)) = .ok (some ("feature", "main")) ∧
      (leakRepo ["secrets/**"]).checkMerge leakLinked featureName AdvanceSystem.raceName
        AdvanceSystem.raceWriter = .ok (.requiresApproval [⟨"secrets/**"⟩]) := by
  decide +kernel

/-- **A proposal that leaks is merged.**  The source holds a protected path and the target is
public: `check_merge` asks for approval, and `merge_proposal` merges. -/
theorem merge_unchecked_leak :
    ((leakRepo ["secrets/**"]).mergeProposal leakLinked (leakId 6) "" 2 "merge"
        AdvanceSystem.raceWriter none).1 = .ok (.merged (leakId 7)) ∧
      ((leakRepo ["secrets/**"]).getProposal leakLinked (leakId 6)).map
        (Option.map fun p => (p.source, p.target)) = .ok (some ("feature", "main")) ∧
      (leakRepo ["secrets/**"]).checkMerge leakLinked featureName AdvanceSystem.raceName
        AdvanceSystem.raceWriter ≠ .ok .allowed := by
  obtain ⟨hmerged, hproposal, hcheck⟩ := leak_merged
  refine ⟨hmerged, hproposal, ?_⟩
  rw [hcheck]
  simp

lemma open_merged :
    ((leakRepo []).mergeProposal leakLinked (leakId 6) "" 2 "merge" AdvanceSystem.raceWriter
        none).1 = .ok (.merged (leakId 7)) ∧
      (leakRepo []).getProposal leakLinked (leakId 6) = .ok (some ⟨Digest.replicate 7,
        "feature", "main", "", 0, List.replicate 64 7⟩) ∧
      RefName.new "feature" = .ok featureName ∧ RefName.new "main" = .ok AdvanceSystem.raceName ∧
      (leakRepo []).checkMerge leakLinked featureName AdvanceSystem.raceName
        AdvanceSystem.raceWriter = .ok .allowed := by
  decide +kernel

/-- With nothing protected the same proposal is merged and passes the scan. -/
theorem merge_checked_iff_open :
    ((leakRepo []).mergeProposal leakLinked (leakId 6) "" 2 "merge" AdvanceSystem.raceWriter
        none).1 = .ok (.merged (leakId 7)) ∧
      (leakRepo []).NoLeak leakLinked featureName AdvanceSystem.raceName ∧
      (leakRepo []).Approved leakLinked featureName AdvanceSystem.raceName := by
  obtain ⟨hmerged, hproposal, hsource, htarget, hcheck⟩ := open_merged
  exact ⟨hmerged, (merge_checked_iff (Codec.over_keepsVariant leakObjects) hproposal hsource
    htarget hmerged).mp hcheck⟩

end Repository

end Bole
