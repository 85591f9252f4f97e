import Bole.Sync.Session

/-!
Sync between two repositories of one process: `advertise`, `sync_transfer`, `fetch`, `push` and
`clone_from` of `src/sync/mod.rs`.

No message is sent.  The refs are listed by code of its own, and the objects go through a pack as
they do over a connection.

* `mem_advertise`: what is advertised is what is served;
* `fetch_tracked`: the tracking refs a fetch returns are those of served refs;
* `fetch_get`: and it sets no others;
* `cloneFrom_get`: the refs of a clone are tracking refs and the timelines the accessor may read.
-/

namespace Bole

open Repository

namespace InProcess

/-! ### Fetching -/

/-- `advertise`. -/
def advertise (src : Repository) (accessor : Accessor) : Result (List (RefName × ObjectId)) := do
  let names ← src.listRefsServed "" accessor
  .ok (names.filterMap fun n => (src.refs.get n).map fun v => (n, v.target))

/-- The pack of `sync_transfer`, if anything is missing. -/
def transferPack (L : Linked) (src : Repository) (wants have_ : List ObjectId) :
    Result (Option Bytes) := do
  let missing ← missingClosure L src.objects wants have_.toFinset
  if missing = [] then .ok none
  else do
    let pack ← src.buildPack L missing
    .ok (some pack)

/-- `sync_transfer`. -/
def syncTransfer (L : Linked) (mtime : Option ℕ) (src : Repository) (wants : List ObjectId)
    (self : Repository) : Result ℕ × Repository :=
  match transferPack L src wants self.objects.list with
  | .error e => (.error e, self)
  | .ok none => (.ok 0, self)
  | .ok (some pack) =>
      match decodePack L.toCrates pack with
      | .error e => (.error e, self)
      | .ok decoded =>
          match land L mtime decoded self with
          | (.error e, self) => (.error e, self)
          | (.ok (), self) => (.ok decoded.length, self)

/-- An advert as the tracking refs are made of it; the kind of the ref is not looked at. -/
def asAdvert (ad : RefName × ObjectId) : RefAdvert := ⟨ad.1, ad.2, false⟩

/-- `fetch`. -/
def fetch (L : Linked) (mtime : Option ℕ) (remote : String) (src : Repository)
    (accessor : Accessor) (self : Repository) : Result (List (RefName × ObjectId)) × Repository :=
  match advertise src accessor with
  | .error e => (.error e, self)
  | .ok adverts =>
      match syncTransfer L mtime src (adverts.map Prod.snd) self with
      | (.error e, self) => (.error e, self)
      | (.ok _, self) => track remote (adverts.map asAdvert) self

/-! ### Cloning -/

/-- The operation that mirrors a timeline. -/
def mirrorOp (src : Repository) (n : RefName) : Option RefOp :=
  match src.refs.get n with
  | some (.timeline t) => some (.createTimeline n t.head t.policy t.createdAt t.kind t.expiresAt)
  | _ => none

/-- `clone_from`. -/
def cloneFrom (L : Linked) (mtime : Option ℕ) (src : Repository) (accessor : Accessor) :
    Result Repository :=
  match fetch L mtime "origin" src accessor memory with
  | (.error e, _) => .error e
  | (.ok _, repo) => do
      -- all that the accessor may read, and not what is served to it
      let names ← src.listRefsFiltered "" accessor
      match repo.refs.commit (names.filterMap (mirrorOp src)) with
      | (.error e, _) => .error e
      | (.ok (), refs) => .ok { repo with refs := refs }

/-! ### Pushing -/

/-- `PushStatus`. -/
inductive PushStatus where
  | ok
  | nonFastForward (serverHead : ObjectId)
  | denied (reason : String)
deriving DecidableEq

/-- `RefResult`. -/
structure RefResult where
  name : RefName
  status : PushStatus
deriving DecidableEq

/-- An entry of the plan of a push: the local timeline that goes to the peer, and what was last
seen of the peer. -/
structure PushEntry where
  name : RefName
  expectedOld : Option ObjectId
  tracking : RefName
  timeline : Timeline

namespace PushEntry

/-- The entry as an update that goes over a connection. -/
def update (e : PushEntry) : RefUpdateOp := ⟨e.name, e.expectedOld, e.timeline.head⟩

/-- The operation of the transaction; a timeline is created as it is here. -/
def refOp (e : PushEntry) : RefOp :=
  match e.expectedOld with
  | some old => .advanceHeadIf e.name old e.timeline.head
  | none => .createTimeline e.name e.timeline.head e.timeline.policy e.timeline.createdAt
      e.timeline.kind e.timeline.expiresAt

end PushEntry

/-- The refusal where a hook of the peer is not deterministic. -/
def nondeterministicReason (b : PushBinding) : String :=
  "peer binds non-deterministic policy hook(s) [" ++ ", ".intercalate b.registry.nonDeterministic ++
    "]; refusing replicated push (fail-closed)"

/-- One turn of the first loop of `push`: a refusal, or an entry of the plan. -/
def planEntry (L : Linked) (self dest : Repository) (remote : String) (accessor : Accessor)
    (b : PushBinding) (name : RefName) : Result (Except PushStatus PushEntry) :=
  if name.startsWith "refs/policy/" || name.startsWith "refs/collab/" then
    .ok (.error (.denied "reserved ref namespace"))
  else do
    match ← self.refs.getTimeline name with
    | none => .ok (.error (.denied "no such local timeline"))
    | some tl =>
        if !accessor.canWrite (b.rules.labelForTimeline b.lattice name.asStr)
            ⟨.timeline, name.asStr⟩ then
          .ok (.error (.denied "write denied on timeline"))
        else if !b.registry.deterministic then
          .ok (.error (.denied (nondeterministicReason b)))
        else do
          let tracking ← trackingRef remote name
          let seen ← self.refs.getTag tracking
          let current ← dest.refs.getTimeline name
          let entry : PushEntry := ⟨name, seen.map Tag.target, tracking, tl⟩
          match seen, current with
          | some tag, some peer => do
              -- the objects of the new head are not there yet
              let ancestor ← findCommonAncestor L dest.objects tag.target tl.head
              if peer.policy ≠ .unrestricted ∧ ancestor ≠ some tag.target then
                .ok (.error (.nonFastForward peer.head))
              else .ok (.ok entry)
          | _, _ => .ok (.ok entry)

/-- The first loop of `push`: the refusals, and the plan. -/
def planLoop (L : Linked) (self dest : Repository) (remote : String) (accessor : Accessor)
    (b : PushBinding) : List RefName → Result (List RefResult × List PushEntry)
  | [] => .ok ([], [])
  | name :: rest => do
      match ← planEntry L self dest remote accessor b name with
      | .error status => do
          let (results, plan) ← planLoop L self dest remote accessor b rest
          .ok (⟨name, status⟩ :: results, plan)
      | .ok entry => do
          let (results, plan) ← planLoop L self dest remote accessor b rest
          .ok (results, entry :: plan)

/-- The loop over the plan that asks the hooks of the peer. -/
def gateLoop (L : Linked) (dest : Repository) (accessor : Accessor) (b : PushBinding) :
    List PushEntry → Result (List RefResult × List PushEntry)
  | [] => .ok ([], [])
  | entry :: rest => do
      let current ← dest.refs.getTimeline entry.name
      let (results, gated) ← gateLoop L dest accessor b rest
      match current with
      | none => .ok (results, entry :: gated)
      | some peer =>
          match b.registry.evaluateReplayable L (dest.pushContext accessor entry.update peer) with
          | .allow => .ok (results, entry :: gated)
          | .deny reason => .ok (⟨entry.name, .denied reason⟩ :: results, gated)
          | .requiresApproval reason _ => .ok (⟨entry.name, .denied reason⟩ :: results, gated)

/-- The answer after a conflict: where the peer's heads are now. -/
def conflictResults (dest : Repository) (gated : List PushEntry) : Result (List RefResult) :=
  gated.mapM fun e => do
    let current ← dest.refs.getTimeline e.name
    .ok ⟨e.name, .nonFastForward ((current.map Timeline.head).getD ⟨.replicate 0⟩)⟩

/-- The transactions at the end of `push`, on the peer and on the tracking refs. -/
def commitEntries (self dest : Repository) (results : List RefResult) (gated : List PushEntry) :
    Result (List RefResult) × Repository × Repository :=
  if gated = [] then (.ok results, self, dest)
  else
    match dest.refs.commit (gated.map PushEntry.refOp) with
    | (.ok (), refs) =>
        match self.refs.commit
          (gated.map fun e => .set e.tracking (.tag ⟨e.timeline.head, 0, none⟩)) with
        | (.ok (), tracked) =>
            (.ok (results ++ gated.map fun e => ⟨e.name, .ok⟩), { self with refs := tracked },
              { dest with refs := refs })
        | (.error e, tracked) =>
            (.error e, { self with refs := tracked }, { dest with refs := refs })
    | (.error (.transactionConflict _), refs) =>
        ((do let conflicts ← conflictResults { dest with refs := refs } gated
             .ok (results ++ conflicts)), self, { dest with refs := refs })
    | (.error e, refs) => (.error e, self, { dest with refs := refs })

/-- `push`: what it returns, and the two repositories after it. -/
def push (L : Linked) (mtime : Option ℕ) (remote : String) (timelines : List RefName)
    (accessor : Accessor) (self dest : Repository) :
    Result (List RefResult) × Repository × Repository :=
  match dest.bindPush L with
  | .error e => (.error e, self, dest)
  | .ok b =>
      match planLoop L self dest remote accessor b timelines with
      | .error e => (.error e, self, dest)
      | .ok (results, plan) =>
          if plan = [] then (.ok results, self, dest)
          else
            match syncTransfer L mtime self (plan.map fun e => e.timeline.head) dest with
            | (.error e, dest) => (.error e, self, dest)
            | (.ok _, dest) =>
                match gateLoop L dest accessor b plan with
                | .error e => (.error e, self, dest)
                | .ok (denied, gated) => commitEntries self dest (results ++ denied) gated

/-! ### What is fetched -/

variable {L : Linked} {mtime : Option ℕ} {remote : String} {src self r' : Repository}
  {accessor : Accessor}

/-- **What is advertised is what is served.** -/
lemma mem_advertise {adverts : List (RefName × ObjectId)}
    (h : advertise src accessor = .ok adverts) {ad : RefName × ObjectId} :
    ad ∈ adverts ↔ ∃ v, ServedRef src accessor ad.1 v ∧ v.target = ad.2 := by
  rw [advertise, Result.bind_eq_ok] at h
  obtain ⟨names, hnames, h⟩ := h
  cases h
  simp only [List.mem_filterMap, (listRefsServed_ok hnames).1, Option.map_eq_some_iff]
  constructor
  · rintro ⟨n, ⟨v, hv⟩, v', hv', rfl⟩
    rw [hv.get] at hv'
    cases hv'
    exact ⟨v, hv, rfl⟩
  · rintro ⟨v, hv, ht⟩
    exact ⟨ad.1, ⟨v, hv⟩, v, hv.get, Prod.ext rfl ht⟩

/-- What the pack of a transfer is made of. -/
lemma transferPack_objects {wants have_ : List ObjectId} {pack : Bytes}
    (h : transferPack L src wants have_ = .ok (some pack)) :
    ∃ objects entries digest,
      PackBuilder.finish L.toCrates ⟨objects⟩ = .ok (pack, entries, digest) ∧
      ∀ p, p ∈ objects ↔ (ReachVia L src.objects childEdges
          (fun id => decide (id ∈ have_.toFinset)) wants p.1 ∧
        (src.objects.object L p.1).isSome) ∧ src.objects.getRaw L p.1 = .ok (some p.2) := by
  rw [transferPack, Result.bind_eq_ok] at h
  obtain ⟨missing, hmissing, h⟩ := h
  split_ifs at h
  · cases h
  obtain ⟨pack', hpack, h⟩ := Result.bind_eq_ok.mp h
  cases h
  exact buildPack_objects hmissing hpack

/-- A transfer leaves the refs. -/
lemma syncTransfer_refs {wants : List ObjectId} :
    (syncTransfer L mtime src wants self).2.refs = self.refs := by
  rw [syncTransfer]
  split
  · rfl
  · rfl
  · split
    · rfl
    · split
      · next h => exact congrArg (fun p => p.2.refs) h.symm
      · next h => exact congrArg (fun p => p.2.refs) h.symm

end InProcess

/-! ### Tracking refs -/

namespace Repository

variable {remote : String} {r r' : Repository}

/-- A tracking ref begins as all of its remote do. -/
lemma asStr_trackingRef {n t : RefName} (h : trackingRef remote n = .ok t) :
    t.asStr = "refs/remotes/" ++ remote ++ "/" ++ n.asStr := by
  rw [trackingRef] at h
  split at h
  · next hnew =>
      cases h
      exact RefName.asStr_of_new hnew
  · cases h

/-- The tracking ref tells what is tracked. -/
lemma trackingRef_injective {n n' t : RefName} (h : trackingRef remote n = .ok t)
    (h' : trackingRef remote n' = .ok t) : n = n' := by
  have hstr := (asStr_trackingRef h).symm.trans (asStr_trackingRef h')
  have hlist := congrArg String.toList hstr
  simp only [String.toList_append, List.append_cancel_left_eq] at hlist
  exact RefName.ext' (String.toList_inj.mp hlist)

lemma mem_trackingRefs {refs : List RefAdvert} {tracked : List (RefName × ObjectId)}
    (h : trackingRefs remote refs = .ok tracked) {t : RefName × ObjectId} :
    t ∈ tracked ↔ ∃ ad ∈ refs, trackingRef remote ad.name = .ok t.1 ∧ ad.target = t.2 := by
  induction refs generalizing tracked with
  | nil =>
      cases h
      simp
  | cons ad rest ih =>
      rw [trackingRefs, Result.bind_eq_ok] at h
      obtain ⟨name, hname, h⟩ := h
      obtain ⟨tracked', hrest, h⟩ := Result.bind_eq_ok.mp h
      cases h
      rw [List.mem_cons, ih hrest]
      simp only [List.mem_cons, exists_eq_or_imp, hname, Except.ok.injEq, Prod.ext_iff]
      exact or_congr_left (and_congr eq_comm eq_comm)

/-- What tracking leaves: the tracking refs are set, and nothing else. -/
lemma track_ok {refs : List RefAdvert} {tracked : List (RefName × ObjectId)}
    (h : track remote refs r = (.ok tracked, r')) :
    trackingRefs remote refs = .ok tracked ∧ r'.objects = r.objects ∧
      ∀ n, (∀ t ∈ tracked, n ≠ t.1) → r'.refs.get n = r.refs.get n := by
  rw [track] at h
  split at h
  · cases h
  · next tracked' htracked =>
      split at h
      · cases h
      · next refs' hcommit =>
          cases h
          refine ⟨htracked, rfl, fun n hn => ?_⟩
          have hother : ∀ op ∈ tracked.map fun t => RefOp.set t.1 (.tag ⟨t.2, 0, none⟩),
              n ≠ op.name := by
            intro op hop
            obtain ⟨t, ht, rfl⟩ := List.mem_map.mp hop
            exact hn t ht
          have hget := RefStore.get_commit_of_ne (s := r.refs) hother
          rwa [hcommit] at hget

end Repository

namespace InProcess

variable {L : Linked} {mtime : Option ℕ} {remote : String} {src self r' : Repository}
  {accessor : Accessor}

/-- The parts of a fetch that returns. -/
lemma fetch_eq_ok {tracked : List (RefName × ObjectId)}
    (h : fetch L mtime remote src accessor self = (.ok tracked, r')) :
    ∃ adverts, advertise src accessor = .ok adverts ∧
      track remote (adverts.map asAdvert)
        (syncTransfer L mtime src (adverts.map Prod.snd) self).2 = (.ok tracked, r') := by
  rw [fetch] at h
  split at h
  · cases h
  · next adverts hadverts =>
      refine ⟨adverts, hadverts, ?_⟩
      split at h
      · cases h
      · next hsync => rwa [hsync]

/-- **What a fetch tracks is served.** -/
lemma fetch_tracked {tracked : List (RefName × ObjectId)}
    (h : fetch L mtime remote src accessor self = (.ok tracked, r')) {t : RefName × ObjectId}
    (ht : t ∈ tracked) :
    ∃ n v, ServedRef src accessor n v ∧ trackingRef remote n = .ok t.1 ∧ v.target = t.2 := by
  obtain ⟨adverts, hadverts, htrack⟩ := fetch_eq_ok h
  obtain ⟨ad, had, hname, htarget⟩ := (mem_trackingRefs (track_ok htrack).1).mp ht
  obtain ⟨p, hp, rfl⟩ := List.mem_map.mp had
  obtain ⟨v, hv, hvt⟩ := (mem_advertise hadverts).mp hp
  exact ⟨p.1, v, hv, hname, hvt.trans htarget⟩

/-- A fetch sets tracking refs and nothing else. -/
lemma fetch_get {tracked : List (RefName × ObjectId)}
    (h : fetch L mtime remote src accessor self = (.ok tracked, r')) {n : RefName}
    (hn : ∀ t ∈ tracked, n ≠ t.1) : r'.refs.get n = self.refs.get n := by
  obtain ⟨adverts, -, htrack⟩ := fetch_eq_ok h
  rw [(track_ok htrack).2.2 n hn, syncTransfer_refs]

end InProcess

/-! ### Mirrored timelines -/

namespace InProcess

/-- `v` is a ref that the accessor may read: its label is the bottom or readable. -/
def ReadableRef (r : Repository) (accessor : Accessor) (n : RefName) (v : Ref) : Prop :=
  ∃ lattice rules, r.acls.getLattice = .ok lattice ∧ r.acls.getLabelRuleset = .ok rules ∧
    timelineReadableWith lattice rules n accessor = true ∧ r.refs.get n = some v

variable {L : Linked} {mtime : Option ℕ} {src c : Repository} {accessor : Accessor}

/-- What is served is what is readable and not scoped. -/
lemma servedRef_iff {n : RefName} {v : Ref} : ServedRef src accessor n v ↔
    ReadableRef src accessor n v ∧ n.startsWith collabScopedPrefix = false := by
  constructor
  · rintro ⟨lattice, rules, hlat, hrules, hread, hscope, hv⟩
    exact ⟨⟨lattice, rules, hlat, hrules, timelineReadableWith_iff.mpr hread, hv⟩, hscope⟩
  · rintro ⟨⟨lattice, rules, hlat, hrules, hread, hv⟩, hscope⟩
    exact ⟨lattice, rules, hlat, hrules, timelineReadableWith_iff.mp hread, hscope, hv⟩

lemma mem_listRefsFiltered {names : List RefName}
    (h : src.listRefsFiltered "" accessor = .ok names) {n : RefName} :
    n ∈ names ↔ ∃ v, ReadableRef src accessor n v := by
  simp only [listRefsFiltered, Result.bind_eq_ok] at h
  obtain ⟨lattice, hlat, rules, hrules, h⟩ := h
  cases h
  simp only [List.mem_filter, RefStore.mem_list]
  constructor
  · rintro ⟨⟨⟨v, hv⟩, -⟩, hread⟩
    exact ⟨v, lattice, rules, hlat, hrules, hread, hv⟩
  · rintro ⟨v, lattice', rules', hlat', hrules', hread, hv⟩
    obtain rfl := Except.ok.inj (hlat.symm.trans hlat')
    obtain rfl := Except.ok.inj (hrules.symm.trans hrules')
    exact ⟨⟨⟨v, hv⟩, by simp⟩, hread⟩

lemma mirrorOp_eq_some {n : RefName} {op : RefOp} :
    mirrorOp src n = some op ↔ ∃ t : Timeline, src.refs.get n = some (.timeline t) ∧
      .createTimeline n t.head t.policy t.createdAt t.kind t.expiresAt = op := by
  rw [mirrorOp]
  split <;> simp_all

/-- The parts of a clone. -/
lemma cloneFrom_eq_ok (h : cloneFrom L mtime src accessor = .ok c) :
    ∃ tracked repo names, fetch L mtime "origin" src accessor memory = (.ok tracked, repo) ∧
      src.listRefsFiltered "" accessor = .ok names ∧
      RefMap.applyOps (names.filterMap (mirrorOp src)) repo.refs.map = .ok c.refs.map := by
  rw [cloneFrom] at h
  split at h
  · cases h
  · next tracked repo hfetch =>
      obtain ⟨names, hnames, h⟩ := Result.bind_eq_ok.mp h
      refine ⟨tracked, repo, names, hfetch, hnames, ?_⟩
      split at h
      · cases h
      · next refs hcommit =>
          cases h
          exact RefStore.commit_ok hcommit

/-- **A clone mirrors every timeline that the accessor may read.** -/
lemma cloneFrom_mirrors (h : cloneFrom L mtime src accessor = .ok c) {n : RefName} {t : Timeline}
    (hn : ReadableRef src accessor n (.timeline t)) : c.refs.get n = some (.timeline t) := by
  obtain ⟨tracked, repo, names, -, hnames, hops⟩ := cloneFrom_eq_ok h
  refine RefMap.applyOps_created hops (fun op hop => ?_) (n := n) ?_
  · obtain ⟨k, -, hk⟩ := List.mem_filterMap.mp hop
    obtain ⟨t', -, rfl⟩ := mirrorOp_eq_some.mp hk
    rfl
  · obtain ⟨_, _, _, _, _, hget⟩ := id hn
    exact List.mem_filterMap.mpr ⟨n, (mem_listRefsFiltered hnames).mpr ⟨_, hn⟩,
      mirrorOp_eq_some.mpr ⟨t, hget, rfl⟩⟩

/-- **The refs of a clone** are tracking refs of what is served, and timelines that the accessor
may read. -/
lemma cloneFrom_get (h : cloneFrom L mtime src accessor = .ok c) {n : RefName} {v : Ref}
    (hn : c.refs.get n = some v) :
    (∃ m w, ServedRef src accessor m w ∧ trackingRef "origin" m = .ok n) ∨
      ∃ t, ReadableRef src accessor n (.timeline t) := by
  obtain ⟨tracked, repo, names, hfetch, hnames, hops⟩ := cloneFrom_eq_ok h
  by_cases hmirror : ∃ op ∈ names.filterMap (mirrorOp src), n = op.name
  · obtain ⟨op, hop, rfl⟩ := hmirror
    obtain ⟨k, hk, hop⟩ := List.mem_filterMap.mp hop
    obtain ⟨t, ht, rfl⟩ := mirrorOp_eq_some.mp hop
    obtain ⟨w, lattice, rules, hlat, hrules, hread, -⟩ := (mem_listRefsFiltered hnames).mp hk
    exact .inr ⟨t, lattice, rules, hlat, hrules, hread, ht⟩
  · left
    push Not at hmirror
    have hrepo : repo.refs.get n = some v := (RefMap.applyOps_of_ne hops hmirror).symm.trans hn
    by_cases htracked : ∃ t ∈ tracked, n = t.1
    · obtain ⟨t, ht, rfl⟩ := htracked
      obtain ⟨m, w, hw, hname, -⟩ := fetch_tracked hfetch ht
      exact ⟨m, w, hw, hname⟩
    · push Not at htracked
      rw [fetch_get hfetch htracked] at hrepo
      simp [memory, RefStore.get] at hrepo

end InProcess

end Bole
