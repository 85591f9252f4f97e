import Bole.Sync.PushSession
import Bole.Sync.Signatures

/-!
The registries that are kept as tags below a name of their own, and what a push can do to them:
`load_attestations` of `src/acl/attestation.rs`, `list_proposals` and `list_comments` of
`src/repo/pr.rs`, `list_posts` of `src/repo/board.rs`.

Each reader lists its names and fails on one that is a timeline.  A push is kept out of
`refs/policy/` and `refs/collab/` only.

* `registriesRead_iff`: the readers succeed where the names that they list are tags at objects
  that can be read;
* `applyOps_refOp`: what a transaction of a push does to one name;
* `registries_survive_iff`: **a push leaves the registries readable** exactly when it fails as a
  whole or creates no timeline at a name that they list.
-/

namespace Bole

/-- `PROPOSALS_PREFIX`. -/
def proposalsPrefix : String := "refs/proposals/"

/-- `COMMENTS_PREFIX`. -/
def commentsPrefix : String := "refs/proposals/comments/"

/-- `BOARD_PREFIX`. -/
def boardPrefix : String := "refs/board/"

/-! ### The readers -/

/-- The loop of the listings: the targets of the tags among the names, as far as `load` finds
something there. -/
def taggedLoop {α : Type} (refs : RefStore) (load : ObjectId → Result (Option α)) :
    List RefName → Result (List (ObjectId × α))
  | [] => .ok []
  | name :: rest => do
      match ← refs.getTag name with
      | none => taggedLoop refs load rest
      | some tag =>
          match ← load tag.target with
          | none => taggedLoop refs load rest
          | some x => do
              let out ← taggedLoop refs load rest
              .ok ((tag.target, x) :: out)

namespace Repository

/-- `get_comment`. -/
def getComment (L : Linked) (r : Repository) (id : ObjectId) :
    Result (Option ReviewComment) := do
  match ← r.objects.get L id with
  | some (.reviewComment c) => .ok (if verifyComment L c then some c else none)
  | _ => .ok none

/-- `get_post`. -/
def getPost (L : Linked) (r : Repository) (id : ObjectId) : Result (Option Post) := do
  match ← r.objects.get L id with
  | some (.post p) => .ok (if verifyPost L p then some p else none)
  | _ => .ok none

/-- `list_proposals`: the names of the comments are skipped. -/
def listProposals (L : Linked) (r : Repository) : Result (List (ObjectId × ChangeProposal)) :=
  taggedLoop r.refs (r.getProposal L)
    ((r.refs.list proposalsPrefix).filter fun n => !n.startsWith commentsPrefix)

/-- `list_comments`. -/
def listComments (L : Linked) (r : Repository) (proposal : ObjectId) :
    Result (List (ObjectId × ReviewComment)) :=
  taggedLoop r.refs (r.getComment L) (r.refs.list (commentsPrefix ++ proposal.toHex ++ "/"))

/-- `list_posts`. -/
def listPosts (L : Linked) (r : Repository) (board : String) :
    Result (List (ObjectId × Post)) :=
  taggedLoop r.refs (r.getPost L) (r.refs.list (boardPrefix ++ board ++ "/"))

/-- The registries can be read. -/
structure RegistriesRead (L : Linked) (r : Repository) : Prop where
  attestations : ∃ out, loadAttestations L r.refs r.objects = .ok out
  proposals : ∃ out, r.listProposals L = .ok out
  comments : ∀ proposal, ∃ out, r.listComments L proposal = .ok out
  posts : ∀ board, ∃ out, r.listPosts L board = .ok out

end Repository

/-- One of the readers lists `n`. -/
inductive Listed (n : RefName) : Prop where
  | attestation (h : n.startsWith attestationsPrefix = true)
  | proposal (h : n.startsWith proposalsPrefix = true)
      (hcomment : n.startsWith commentsPrefix = false)
  | comment (proposal : ObjectId)
      (h : n.startsWith (commentsPrefix ++ proposal.toHex ++ "/") = true)
  | post (board : String) (h : n.startsWith (boardPrefix ++ board ++ "/") = true)

lemma RefName.startsWith_append {n : RefName} {a b : String} (h : n.startsWith (a ++ b) = true) :
    n.startsWith a = true := by
  rw [startsWith_iff] at h ⊢
  rw [String.toList_append] at h
  exact (List.prefix_append ..).trans h

/-- What is listed is below one of three names. -/
lemma Listed.startsWith {n : RefName} (h : Listed n) :
    ∃ pfx ∈ [attestationsPrefix, proposalsPrefix, boardPrefix], n.startsWith pfx = true := by
  cases h with
  | attestation h => exact ⟨_, by simp, h⟩
  | proposal h => exact ⟨_, by simp, h⟩
  | comment proposal h =>
      have hcomments : n.startsWith (proposalsPrefix ++ "comments/") = true :=
        RefName.startsWith_append (RefName.startsWith_append h)
      exact ⟨_, by simp, RefName.startsWith_append hcomments⟩
  | post board h => exact ⟨_, by simp, RefName.startsWith_append (RefName.startsWith_append h)⟩

/-- No listed name is one that a push is kept out of. -/
lemma Listed.not_reserved {n : RefName} (h : Listed n) :
    (n.startsWith "refs/policy/" || n.startsWith "refs/collab/") = false := by
  obtain ⟨pfx, hpfx, hn⟩ := h.startsWith
  -- the two would agree in their first seven characters
  have hdiffer : ∀ pfx ∈ [attestationsPrefix, proposalsPrefix, boardPrefix],
      ∀ reserved ∈ ["refs/policy/", "refs/collab/"], 7 ≤ pfx.toList.length ∧
        7 ≤ reserved.toList.length ∧ pfx.toList.take 7 ≠ reserved.toList.take 7 := by decide
  have differs : ∀ reserved ∈ ["refs/policy/", "refs/collab/"],
      n.startsWith reserved = false := by
    intro reserved hres
    obtain ⟨hpfx, hreserved, hne⟩ := hdiffer pfx hpfx reserved hres
    by_contra hboth
    rw [Bool.not_eq_false, RefName.startsWith_iff] at hboth
    obtain ⟨s, hs⟩ := RefName.startsWith_iff.mp hn
    obtain ⟨t, ht⟩ := hboth
    refine hne ?_
    rw [← List.take_append_of_le_length hpfx, hs, ← ht,
      List.take_append_of_le_length hreserved]
  rw [differs _ (by simp), differs _ (by simp)]
  rfl

/-! ### When they succeed -/

section Readers

variable {L : Linked} {refs : RefStore} {r : Repository} {n : RefName}

/-- The ref is absent, or a tag at something that `load` can read. -/
def TagReads {α : Type} (refs : RefStore) (load : ObjectId → Result α) (n : RefName) : Prop :=
  ∀ v, refs.get n = some v → ∃ t x, v = .tag t ∧ load t.target = .ok x

lemma tagReads_iff {α : Type} {load : ObjectId → Result α} :
    TagReads refs load n ↔
      refs.getTag n = .ok none ∨ ∃ t x, refs.getTag n = .ok (some t) ∧ load t.target = .ok x := by
  rw [TagReads, RefStore.getTag]
  cases refs.get n with
  | none => simp
  | some v => cases v <;> simp

/-- **A listing succeeds where every name reads.** -/
lemma taggedLoop_ok_iff {α : Type} {load : ObjectId → Result (Option α)} {names : List RefName} :
    (∃ out, taggedLoop refs load names = .ok out) ↔ ∀ n ∈ names, TagReads refs load n := by
  induction names with
  | nil => simp [taggedLoop]
  | cons n rest ih =>
      rw [List.forall_mem_cons, ← ih, tagReads_iff, taggedLoop]
      cases refs.getTag n with
      | error e => simp [bind, Except.bind]
      | ok o =>
          cases o with
          | none => simp [bind, Except.bind]
          | some t =>
              cases hload : load t.target with
              | error e => simp [bind, Except.bind, hload]
              | ok x =>
                  cases x with
                  | none => simp [bind, Except.bind, hload]
                  | some x =>
                      simp only [bind, Except.bind, hload, Except.ok.injEq, reduceCtorEq,
                        Option.some.injEq, false_or, exists_eq_left', exists_and_left, exists_eq',
                        true_and]
                      cases taggedLoop refs load rest <;> simp

lemma attestationLoop_ok_iff {objects : ObjectStore} {names : List RefName} :
    (∃ out, attestationLoop L refs objects names = .ok out) ↔
      ∀ n ∈ names, TagReads refs (objects.get L) n := by
  induction names with
  | nil => simp [attestationLoop]
  | cons n rest ih =>
      rw [List.forall_mem_cons, ← ih, tagReads_iff, attestationLoop]
      cases refs.getTag n with
      | error e => simp [bind, Except.bind]
      | ok o =>
          cases o with
          | none => simp [bind, Except.bind]
          | some t =>
              cases hget : objects.get L t.target with
              | error e => simp [bind, Except.bind, hget]
              | ok x =>
                  simp only [bind, Except.bind, hget]
                  split <;> cases attestationLoop L refs objects rest <;> simp [hget]

/-- What is loaded is checked after it is read: the check does not fail. -/
lemma TagReads.of_get {α : Type} {load : ObjectId → Result α} {objects : ObjectStore}
    (h : ∀ id, (∃ x, load id = .ok x) ↔ ∃ o, objects.get L id = .ok o) :
    TagReads refs load n ↔ TagReads refs (objects.get L) n := by
  simp only [TagReads, exists_and_left, h]

namespace Repository

lemma getProposal_ok_iff (id : ObjectId) :
    (∃ p, r.getProposal L id = .ok p) ↔ ∃ o, r.objects.get L id = .ok o := by
  rw [getProposal]
  cases r.objects.get L id with
  | error e => simp [bind, Except.bind]
  | ok o =>
      simp only [bind, Except.bind, Except.ok.injEq, exists_eq', iff_true]
      split <;> exact ⟨_, rfl⟩

lemma getComment_ok_iff (id : ObjectId) :
    (∃ c, r.getComment L id = .ok c) ↔ ∃ o, r.objects.get L id = .ok o := by
  rw [getComment]
  cases r.objects.get L id with
  | error e => simp [bind, Except.bind]
  | ok o =>
      simp only [bind, Except.bind, Except.ok.injEq, exists_eq', iff_true]
      split <;> exact ⟨_, rfl⟩

lemma getPost_ok_iff (id : ObjectId) :
    (∃ p, r.getPost L id = .ok p) ↔ ∃ o, r.objects.get L id = .ok o := by
  rw [getPost]
  cases r.objects.get L id with
  | error e => simp [bind, Except.bind]
  | ok o =>
      simp only [bind, Except.bind, Except.ok.injEq, exists_eq', iff_true]
      split <;> exact ⟨_, rfl⟩

/-- **The registries can be read** where the names that they list are tags at objects that can
be read. -/
lemma registriesRead_iff :
    RegistriesRead L r ↔ ∀ n, Listed n → TagReads r.refs (r.objects.get L) n := by
  have absent : ∀ {n pfx}, n.startsWith pfx = true → n ∉ r.refs.list pfx →
      TagReads r.refs (r.objects.get L) n := fun hpfx hn v hv =>
    absurd (RefStore.mem_list.mpr ⟨⟨v, hv⟩, hpfx⟩) hn
  constructor
  · rintro ⟨hatt, hprop, hcomm, hpost⟩ n hn
    by_contra hreads
    rw [loadAttestations, attestationLoop_ok_iff] at hatt
    simp only [listProposals, listComments, listPosts, taggedLoop_ok_iff,
      TagReads.of_get getProposal_ok_iff, TagReads.of_get getComment_ok_iff,
      TagReads.of_get getPost_ok_iff, List.mem_filter] at hprop hcomm hpost
    cases hn with
    | attestation h => exact hreads (absent h fun hmem => hreads (hatt n hmem))
    | proposal h hcomment =>
        exact hreads (absent h fun hmem => hreads (hprop n ⟨hmem, by simp [hcomment]⟩))
    | comment proposal h => exact hreads (absent h fun hmem => hreads (hcomm proposal n hmem))
    | post board h => exact hreads (absent h fun hmem => hreads (hpost board n hmem))
  · intro h
    refine ⟨?_, ?_, fun proposal => ?_, fun board => ?_⟩
    · exact attestationLoop_ok_iff.mpr fun n hn => h n (.attestation (RefStore.mem_list.mp hn).2)
    · refine taggedLoop_ok_iff.mpr fun n hn => (TagReads.of_get getProposal_ok_iff).mpr ?_
      obtain ⟨hlist, hcomment⟩ := List.mem_filter.mp hn
      exact h n (.proposal (RefStore.mem_list.mp hlist).2 (by simpa using hcomment))
    · refine taggedLoop_ok_iff.mpr fun n hn => (TagReads.of_get getComment_ok_iff).mpr ?_
      exact h n (.comment proposal (RefStore.mem_list.mp hn).2)
    · refine taggedLoop_ok_iff.mpr fun n hn => (TagReads.of_get getPost_ok_iff).mpr ?_
      exact h n (.post board (RefStore.mem_list.mp hn).2)

end Repository

end Readers

/-! ### What a push does to one name -/

section Push

/-- **One operation of a push**: it creates a timeline at a name that is free, or replaces the
head of the timeline there. -/
lemma applyOp_refOp {m m' : RefMap} {op : RefUpdateOp} (h : m.applyOp op.refOp = .ok m') :
    (op.expectedOld = none ∧ m op.name = none ∨ ∃ T, m op.name = some (.timeline T)) ∧
      (∃ T, m' op.name = some (.timeline T)) ∧ ∀ n, n ≠ op.name → m' n = m n := by
  have hname := op.name_refOp
  refine ⟨?_, ?_, fun n hn => RefMap.applyOp_of_ne h (by rwa [hname])⟩
  all_goals
    rw [RefMap.applyOp, hname] at h
    cases hold : op.expectedOld with
    | none =>
        rw [RefUpdateOp.refOp, hold] at h
        cases hm : m op.name with
        | some v => simp [RefOp.next, hm] at h
        | none =>
            simp only [RefOp.next, hm, Option.isSome_none, Bool.false_eq_true, if_false] at h
            cases h
            simp
    | some old =>
        rw [RefUpdateOp.refOp, hold] at h
        cases hm : m op.name with
        | none => simp [RefOp.next, hm] at h
        | some v =>
            cases v with
            | tag t => simp [RefOp.next, hm] at h
            | timeline T =>
                simp only [RefOp.next, hm] at h
                split_ifs at h
                cases h
                simp

/-- A push keeps the tags. -/
lemma applyOps_refOp_tag {ops : List RefUpdateOp} {m m' : RefMap} {n : RefName} {t : Tag}
    (h : RefMap.applyOps (ops.map RefUpdateOp.refOp) m = .ok m') (hn : m n = some (.tag t)) :
    m' n = some (.tag t) := by
  induction ops generalizing m with
  | nil =>
      cases h
      exact hn
  | cons op rest ih =>
      obtain ⟨m₁, h₁, h⟩ := Result.bind_eq_ok.mp h
      obtain ⟨hbefore, -, hrest⟩ := applyOp_refOp h₁
      refine ih h ?_
      rw [hrest n, hn]
      rintro rfl
      simp [hn] at hbefore

/-- What is there after a push where nothing was has been created by it. -/
lemma applyOps_refOp_none {ops : List RefUpdateOp} {m m' : RefMap} {n : RefName} {v : Ref}
    (h : RefMap.applyOps (ops.map RefUpdateOp.refOp) m = .ok m') (hn : m n = none)
    (hv : m' n = some v) : ∃ op ∈ ops, op.name = n ∧ op.expectedOld = none := by
  induction ops generalizing m with
  | nil =>
      cases h
      rw [hn] at hv
      cases hv
  | cons op rest ih =>
      obtain ⟨m₁, h₁, h⟩ := Result.bind_eq_ok.mp h
      obtain ⟨hbefore, -, hrest⟩ := applyOp_refOp h₁
      by_cases hname : n = op.name
      · subst hname
        exact ⟨op, List.mem_cons_self, rfl, by simpa [hn] using hbefore⟩
      · obtain ⟨o, ho, hcreates⟩ := ih h ((hrest n hname).trans hn)
        exact ⟨o, List.mem_cons_of_mem _ ho, hcreates⟩

/-- A name that a push operates on is a timeline in the end. -/
lemma applyOps_refOp_timeline {ops : List RefUpdateOp} {m m' : RefMap} {n : RefName}
    (h : RefMap.applyOps (ops.map RefUpdateOp.refOp) m = .ok m')
    (hn : (∃ T, m n = some (.timeline T)) ∨ ∃ op ∈ ops, op.name = n) :
    ∃ T, m' n = some (.timeline T) := by
  induction ops generalizing m with
  | nil =>
      cases h
      simpa using hn
  | cons op rest ih =>
      obtain ⟨m₁, h₁, h⟩ := Result.bind_eq_ok.mp h
      obtain ⟨-, hafter, hrest⟩ := applyOp_refOp h₁
      refine ih h ?_
      by_cases hname : n = op.name
      · exact Or.inl (hname ▸ hafter)
      · rw [hrest n hname]
        refine hn.imp_right ?_
        rintro ⟨o, ho, rfl⟩
        exact ⟨o, (List.mem_cons.mp ho).resolve_left fun heq => hname (congrArg _ heq), rfl⟩

end Push

/-! ### Which pushes go through -/

namespace Repository

/-- The operation passes the checks. -/
def passes (L : Linked) (r : Repository) (accessor : Accessor) (b : PushBinding)
    (op : RefUpdateOp) : Bool :=
  match r.gateOp L accessor b op with
  | .ok (.ok current) => (r.policyOp L accessor b op current).isNone
  | _ => false

/-- The push commits: the policy can be read and has no hook that is not deterministic, no check
fails to answer, and the operations that pass can be applied to the refs one after another. -/
structure GoesThrough (L : Linked) (r : Repository) (accessor : Accessor) (b : PushBinding)
    (ops : List RefUpdateOp) : Prop where
  bound : r.bindPush L = .ok b
  deterministic : b.registry.deterministic = true
  answered : ∀ op ∈ ops, ∃ answer, r.gateOp L accessor b op = .ok answer
  applies : ∃ m, RefMap.applyOps ((ops.filter (r.passes L accessor b)).map RefUpdateOp.refOp)
    r.refs.map = .ok m

/-- The operation creates a timeline where a reader expects a tag: the name is free, the accessor
may write timelines there, and the head is a stored snapshot with all that it needs. -/
structure Squats (L : Linked) (r : Repository) (accessor : Accessor) (b : PushBinding)
    (op : RefUpdateOp) : Prop where
  creates : op.expectedOld = none
  listed : Listed op.name
  free : r.refs.get op.name = none
  timeline : accessor.canWrite (b.rules.labelForTimeline b.lattice op.name.asStr)
    ⟨.timeline, op.name.asStr⟩ = true
  snapshot : ∃ snap, r.objects.getSnapshot L op.newHead = .ok (some snap)
  closure : closurePresent L r.objects op.newHead = .ok true

variable {L : Linked} {r : Repository} {accessor : Accessor} {b : PushBinding}
  {ops accepted : List RefUpdateOp} {results : List RefStatusEntry} {op : RefUpdateOp}

/-- The loop keeps the operations that pass. -/
lemma checkOps_eq_filter (h : r.checkOps L accessor b ops = .ok (results, accepted)) :
    accepted = ops.filter (r.passes L accessor b) := by
  induction ops generalizing results accepted with
  | nil =>
      cases h
      rfl
  | cons o rest ih =>
      obtain ⟨g, hg, h⟩ := Result.bind_eq_ok.mp h
      rw [List.filter_cons, passes, hg]
      cases g with
      | error status =>
          obtain ⟨⟨rs, acc⟩, hrec, h⟩ := Result.bind_eq_ok.mp h
          cases h
          exact ih hrec
      | ok current =>
          cases hp : r.policyOp L accessor b o current with
          | some status =>
              simp only [hp, Result.bind_eq_ok] at h
              obtain ⟨⟨rs, acc⟩, hrec, h⟩ := h
              cases h
              simpa [hp] using ih hrec
          | none =>
              simp only [hp, Result.bind_eq_ok] at h
              obtain ⟨⟨rs, acc⟩, hrec, h⟩ := h
              cases h
              simp [hp, ih hrec]

/-- The loop answers where every check does. -/
lemma checkOps_ok_iff : (∃ out, r.checkOps L accessor b ops = .ok out) ↔
    ∀ op ∈ ops, ∃ answer, r.gateOp L accessor b op = .ok answer := by
  induction ops with
  | nil => simp [checkOps]
  | cons o rest ih =>
      rw [List.forall_mem_cons, ← ih, checkOps]
      cases r.gateOp L accessor b o with
      | error e => simp [bind, Except.bind]
      | ok g =>
          cases g with
          | error status =>
              cases r.checkOps L accessor b rest <;> simp [bind, Except.bind]
          | ok current =>
              cases hp : r.policyOp L accessor b o current <;>
                cases r.checkOps L accessor b rest <;> simp [bind, Except.bind, hp]

/-- A push that goes through applies the operations that pass. -/
lemma GoesThrough.applied (h : GoesThrough L r accessor b ops) :
    RefMap.applyOps ((ops.filter (r.passes L accessor b)).map RefUpdateOp.refOp) r.refs.map =
      .ok (r.applyPushOps L accessor ops).2.refs.map := by
  obtain ⟨⟨results, accepted⟩, hcheck⟩ := checkOps_ok_iff.mpr h.answered
  obtain ⟨m, hm⟩ := h.applies
  rw [← checkOps_eq_filter hcheck] at hm ⊢
  obtain ⟨refs, hcommit, rfl⟩ := RefStore.commit_of_applyOps hm
  rw [applyPushOps, h.bound]
  simp only [h.deterministic, Bool.not_true, Bool.false_eq_true, if_false, hcheck, commitPush]
  split_ifs with hnil
  · subst hnil
    exact rfl
  · rw [hcommit]
    exact hm

/-- A push that does not go through changes no ref. -/
lemma refs_applyPushOps_of_not (h : ¬ ∃ b, GoesThrough L r accessor b ops) :
    (r.applyPushOps L accessor ops).2.refs = r.refs := by
  rw [applyPushOps]
  cases hb : r.bindPush L with
  | error e => rfl
  | ok b =>
      dsimp only
      split_ifs with hdet
      · rfl
      cases hc : r.checkOps L accessor b ops with
      | error e => rfl
      | ok p =>
          obtain ⟨results, accepted⟩ := p
          refine (commitPush_refs r results accepted).resolve_right fun happly => h ⟨b, ?_⟩
          exact ⟨hb, by simpa using hdet, checkOps_ok_iff.mp ⟨_, hc⟩, _,
            checkOps_eq_filter hc ▸ happly⟩

/-- A squatting operation passes the checks. -/
lemma Squats.passes (h : Squats L r accessor b op) : r.passes L accessor b op = true := by
  obtain ⟨snap, hsnap⟩ := h.snapshot
  have hfound : r.refs.getTimeline op.name = .ok none := by rw [RefStore.getTimeline, h.free]
  have hgate : r.gateOp L accessor b op = .ok (.ok none) := by
    rw [gateOp, h.listed.not_reserved]
    simp [h.timeline, hsnap, h.closure, hfound, h.creates, bind, Except.bind]
  rw [Repository.passes, hgate]
  rfl

/-- An operation that passes and creates a timeline at a listed name squats. -/
lemma squats_of_passes (hpass : r.passes L accessor b op = true) (hold : op.expectedOld = none)
    (hlisted : Listed op.name) (hfree : r.refs.get op.name = none) :
    Squats L r accessor b op := by
  rw [Repository.passes] at hpass
  split at hpass
  · next current hgate =>
      have hg := gateOp_ok hgate
      exact ⟨hold, hlisted, hfree, hg.timeline, hg.snapshot, hg.closure⟩
  · cases hpass

/-- **What a push does to the registries.**  A push leaves them readable exactly when it does not
go through, or none of its operations creates a timeline at a name that one of them lists. -/
theorem registries_survive_iff (h : RegistriesRead L r) :
    RegistriesRead L (r.applyPushOps L accessor ops).2 ↔
      ¬ ∃ b, GoesThrough L r accessor b ops ∧ ∃ op ∈ ops, Squats L r accessor b op := by
  rw [registriesRead_iff, applyPushOps_objects]
  rw [registriesRead_iff] at h
  constructor
  · rintro hafter ⟨b, hthrough, op, hop, hsquats⟩
    have hmem : op ∈ ops.filter (r.passes L accessor b) :=
      List.mem_filter.mpr ⟨hop, hsquats.passes⟩
    obtain ⟨T, hT⟩ := applyOps_refOp_timeline hthrough.applied (.inr ⟨op, hmem, rfl⟩)
    obtain ⟨t, x, htag, -⟩ := hafter op.name hsquats.listed _ hT
    cases htag
  · intro hnone n hn v hv
    by_cases hthrough : ∃ b, GoesThrough L r accessor b ops
    · obtain ⟨b, hthrough⟩ := hthrough
      cases hbefore : r.refs.get n with
      | none =>
          -- the push has created it, and so it squats
          obtain ⟨op, hop, rfl, hold⟩ := applyOps_refOp_none hthrough.applied hbefore hv
          obtain ⟨hop, hpass⟩ := List.mem_filter.mp hop
          exact absurd ⟨b, hthrough, op, hop, squats_of_passes hpass hold hn hbefore⟩ hnone
      | some w =>
          obtain ⟨t, x, rfl, hx⟩ := h n hn w hbefore
          have hkept := applyOps_refOp_tag hthrough.applied hbefore
          refine ⟨t, x, ?_, hx⟩
          exact Option.some.inj (hv.symm.trans hkept)
    · rw [refs_applyPushOps_of_not hthrough] at hv
      exact h n hn v hv

/-! ### A board that is squatted -/

lemma pushName_not_listed : ¬ Listed pushName := by
  intro h
  obtain ⟨pfx, hpfx, hn⟩ := h.startsWith
  revert pfx
  decide +kernel

/-- The repository with one timeline has empty registries. -/
lemma pushRepo_registries : RegistriesRead pushLinked pushRepo := by
  refine registriesRead_iff.mpr fun n hn v hv => ?_
  rw [pushRepo, RefStore.get, Std.ExtTreeMap.getElem?_insert] at hv
  split_ifs at hv with hname
  · obtain rfl : pushName = n := Std.LawfulEqOrd.eq_of_compare hname
    exact absurd hn pushName_not_listed
  · simp at hv

/-- An advance of the timeline is accepted and leaves the registries readable. -/
theorem registries_survive_advance :
    (pushRepo.applyPushOps pushLinked timelineWriter [pushUpdate]).1 = .ok [⟨pushName, .ok⟩] ∧
      RegistriesRead pushLinked
        (pushRepo.applyPushOps pushLinked timelineWriter [pushUpdate]).2 := by
  refine ⟨by decide +kernel, (registries_survive_iff pushRepo_registries).mpr ?_⟩
  rintro ⟨b, -, op, hop, hsquats⟩
  obtain rfl := List.mem_singleton.mp hop
  exact pushName_not_listed hsquats.listed

/-- The creation of a timeline among the posts of a board. -/
def boardSquat : RefUpdateOp := ⟨⟨"refs/board/general/x", by decide +kernel⟩, none, pushId 4⟩

/-- **A push disables a board**: it is accepted, and the posts cannot be listed any more. -/
theorem push_disables_board :
    ¬ ∀ (L : Linked) (r : Repository) (accessor : Accessor) (ops : List RefUpdateOp),
      RegistriesRead L r → RegistriesRead L (r.applyPushOps L accessor ops).2 := by
  intro h
  obtain ⟨out, hposts⟩ :=
    (h pushLinked pushRepo timelineWriter [boardSquat] pushRepo_registries).posts "general"
  have hfails : ((pushRepo.applyPushOps pushLinked timelineWriter [boardSquat]).2.listPosts
      pushLinked "general").map (fun _ => ()) =
        .error (.wrongRefKind "'refs/board/general/x' is a timeline, not a tag") := by
    decide +kernel
  rw [hposts] at hfails
  cases hfails

end Repository

end Bole
