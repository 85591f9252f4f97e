import Bole.Sync.Push

/-!
Serving a fetch: `advertise`, `build_pack` and `serve_fetch` of `src/sync/session.rs`, with
`list_refs_served` of `src/repo/mod.rs`.

The client answers the advertisement with any wants and haves it likes.  The wants are cut down
to the advertised targets before the closure is walked.

* `mem_advertise`: what is advertised is what is served;
* `servePack_objects`: what a pack is made of;
* `fetch_serves_readable`: a fetch sends nothing but objects below refs the accessor may read,
  and depends on nothing else.
-/

namespace Bole

/-! ### The wire types -/

/-- `RefAdvert`. -/
structure RefAdvert where
  name : RefName
  target : ObjectId
  isTimeline : Bool
deriving DecidableEq

/-- `Intent`. -/
inductive Intent where
  | fetch
  | push
  | clone
deriving DecidableEq

/-- `Message`.  The protocol versions and the capabilities of a client are left out: no session
looks at them. -/
inductive Message where
  | hello (intent : Intent) (clientNonce : Option Digest := none)
  | welcome (refs : List RefAdvert) (caps : ℕ := 0) (relaySig : Option Bytes := none)
  | haveWant (want have_ : List ObjectId)
  | pack (bytes : Bytes)
  | refUpdate (ops : List RefUpdateOp)
  | refStatus (results : List RefStatusEntry)
  | search (term : String) (maxHops : UInt8)
  | hubHello (owner : Digest)
  | hubChallenge (nonce : Digest)
  | hubProof (sig : Bytes)
  | hubIdentity (profile : Option Profile) (repos : List RepoRecord)
  | done
  | error (text : String)
deriving DecidableEq

/-! ### Served refs -/

namespace Repository

/-- `COLLAB_SCOPED_PREFIX`. -/
def collabScopedPrefix : String := "refs/collab/scoped/"

/-- `timeline_readable_with`. -/
def timelineReadableWith (lattice : LabelLattice) (rules : LabelRuleSet) (name : RefName)
    (accessor : Accessor) : Bool :=
  decide (rules.labelForTimeline lattice name.asStr = lattice.bottom) ||
    accessor.canRead (rules.labelForTimeline lattice name.asStr) ⟨.timeline, name.asStr⟩

/-- `list_refs_filtered`. -/
def listRefsFiltered (r : Repository) (pfx : String) (accessor : Accessor) :
    Result (List RefName) := do
  let lattice ← r.acls.getLattice
  let rules ← r.acls.getLabelRuleset
  .ok ((r.refs.list pfx).filter fun n => timelineReadableWith lattice rules n accessor)

/-- `list_refs_served`. -/
def listRefsServed (r : Repository) (pfx : String) (accessor : Accessor) :
    Result (List RefName) := do
  let names ← r.listRefsFiltered pfx accessor
  .ok (names.filter fun n => !n.startsWith collabScopedPrefix)

/-- `ref_served`. -/
def refServed (r : Repository) (name : RefName) (accessor : Accessor) : Result Bool :=
  if name.startsWith collabScopedPrefix then .ok false
  else do
    let lattice ← r.acls.getLattice
    let rules ← r.acls.getLabelRuleset
    .ok (timelineReadableWith lattice rules name accessor && (r.refs.get name).isSome)

/-- The advert of one ref. -/
def advertOf (name : RefName) : Ref → RefAdvert
  | .timeline t => ⟨name, t.head, true⟩
  | .tag t => ⟨name, t.target, false⟩

/-- `advertise`. -/
def advertise (r : Repository) (accessor : Accessor) : Result (List RefAdvert) := do
  let names ← r.listRefsServed "" accessor
  .ok (names.filterMap fun n => (r.refs.get n).map (advertOf n))

/-! ### Packs -/

/-- The loop of `build_pack`. -/
def packObjects (L : Linked) (r : Repository) : List ObjectId → Result (List (ObjectId × Bytes))
  | [] => .ok []
  | id :: rest => do
      match ← r.objects.getRaw L id with
      | some bytes => do
          let objects ← packObjects L r rest
          .ok ((id, bytes) :: objects)
      | none => packObjects L r rest

/-- `build_pack`. -/
def buildPack (L : Linked) (r : Repository) (ids : List ObjectId) : Result Bytes := do
  let objects ← r.packObjects L ids
  let (pack, _, _) ← PackBuilder.finish L.toCrates ⟨objects⟩
  .ok pack

/-- The pack `serve_fetch` answers a client with, after the given advertisement. -/
def servePack (L : Linked) (r : Repository) (refs : List RefAdvert) (want have_ : List ObjectId) :
    Result Bytes := do
  let authorized := refs.map RefAdvert.target
  let missing ← missingClosure L r.objects (want.filter fun w => decide (w ∈ authorized))
    have_.toFinset
  r.buildPack L missing

/-- `serve_fetch`, against a client that answers the advertisement as it likes or not at all:
the messages it sends, and what it returns. -/
def serveFetch (L : Linked) (r : Repository) (accessor : Accessor)
    (client : List RefAdvert → Result Message) : List Message × Result Unit :=
  match r.advertise accessor with
  | .error e => ([], .error e)
  | .ok refs =>
      match client refs with
      | .error e => ([.welcome refs], .error e)
      | .ok (.haveWant want have_) =>
          match r.servePack L refs want have_ with
          | .error e => ([.welcome refs], .error e)
          | .ok pack => ([.welcome refs, .pack pack, .done], .ok ())
      | .ok _ => ([.welcome refs], .error (.storage "protocol: expected HaveWant"))

/-! ### What is served -/

/-- `v` is a ref that is served to the accessor: its label is the bottom or readable, and it is
not scoped collab state. -/
def ServedRef (r : Repository) (accessor : Accessor) (n : RefName) (v : Ref) : Prop :=
  ∃ lattice rules, r.acls.getLattice = .ok lattice ∧ r.acls.getLabelRuleset = .ok rules ∧
    (rules.labelForTimeline lattice n.asStr = lattice.bottom ∨
      accessor.canRead (rules.labelForTimeline lattice n.asStr) ⟨.timeline, n.asStr⟩ = true) ∧
    n.startsWith collabScopedPrefix = false ∧ r.refs.get n = some v

/-- Whether the labels can be read, and how it fails if not. -/
def aclStatus (r : Repository) : Result Unit := do
  let _ ← r.acls.getLattice
  let _ ← r.acls.getLabelRuleset
  .ok ()

variable {L : Linked} {r r' : Repository} {accessor : Accessor}

lemma timelineReadableWith_iff {lattice : LabelLattice} {rules : LabelRuleSet} {n : RefName} :
    timelineReadableWith lattice rules n accessor = true ↔
      rules.labelForTimeline lattice n.asStr = lattice.bottom ∨
        accessor.canRead (rules.labelForTimeline lattice n.asStr) ⟨.timeline, n.asStr⟩ = true := by
  rw [timelineReadableWith, Bool.or_eq_true, decide_eq_true_iff]

/-- The served names are those of the served refs, in order. -/
lemma listRefsServed_ok {names : List RefName} (h : r.listRefsServed "" accessor = .ok names) :
    (∀ n, n ∈ names ↔ ∃ v, ServedRef r accessor n v) ∧
      names.Pairwise fun a b => compare a b = .lt := by
  simp only [listRefsServed, listRefsFiltered, Result.bind_eq_ok] at h
  obtain ⟨all, ⟨lattice, hlat, rules, hrules, hall⟩, h⟩ := h
  cases hall
  cases h
  constructor
  · intro n
    simp only [List.mem_filter, RefStore.mem_list, timelineReadableWith_iff, Bool.not_eq_true',
      ServedRef]
    constructor
    · rintro ⟨⟨⟨⟨v, hv⟩, -⟩, hread⟩, hscope⟩
      exact ⟨v, lattice, rules, hlat, hrules, hread, hscope, hv⟩
    · rintro ⟨v, lattice', rules', hlat', hrules', hread, hscope, hv⟩
      rw [hlat] at hlat'
      rw [hrules] at hrules'
      cases hlat'
      cases hrules'
      exact ⟨⟨⟨⟨v, hv⟩, by simp⟩, hread⟩, hscope⟩
  · exact ((Std.ExtTreeMap.ordered_keys.filter _).filter _).filter _

lemma ServedRef.get {n : RefName} {v : Ref} (h : ServedRef r accessor n v) :
    r.refs.get n = some v := by
  obtain ⟨_, _, _, _, _, _, hv⟩ := h
  exact hv

/-- **What is advertised is what is served.** -/
lemma mem_advertise {refs : List RefAdvert} (h : r.advertise accessor = .ok refs)
    {ad : RefAdvert} :
    ad ∈ refs ↔ ∃ n v, ServedRef r accessor n v ∧ ad = advertOf n v := by
  rw [advertise, Result.bind_eq_ok] at h
  obtain ⟨names, hnames, h⟩ := h
  cases h
  simp only [List.mem_filterMap, (listRefsServed_ok hnames).1, Option.map_eq_some_iff]
  constructor
  · rintro ⟨n, ⟨v, hv⟩, v', hv', rfl⟩
    rw [hv.get] at hv'
    cases hv'
    exact ⟨n, v, hv, rfl⟩
  · rintro ⟨n, v, hv, rfl⟩
    exact ⟨n, ⟨v, hv⟩, v, hv.get, rfl⟩

/-- The lookup serves what the listing serves. -/
lemma refServed_iff {n : RefName} :
    r.refServed n accessor = .ok true ↔ ∃ v, ServedRef r accessor n v := by
  rw [refServed]
  cases hscope : n.startsWith collabScopedPrefix with
  | true => simp [ServedRef, hscope]
  | false =>
      simp only [Bool.false_eq_true, if_false, Result.bind_eq_ok]
      constructor
      · rintro ⟨lattice, hlat, rules, hrules, h⟩
        obtain ⟨hread, hsome⟩ := Bool.and_eq_true_iff.mp (Except.ok.inj h)
        obtain ⟨v, hv⟩ := Option.isSome_iff_exists.mp hsome
        exact ⟨v, lattice, rules, hlat, hrules, timelineReadableWith_iff.mp hread, hscope, hv⟩
      · rintro ⟨v, lattice, rules, hlat, hrules, hread, -, hv⟩
        refine ⟨lattice, hlat, rules, hrules, ?_⟩
        rw [timelineReadableWith_iff.mpr hread, hv]
        rfl

lemma target_advertOf (n : RefName) (v : Ref) : (advertOf n v).target = v.target := by
  cases v <;> rfl

/-- The objects of a pack are the stored ones among the given ids. -/
lemma packObjects_ok {ids : List ObjectId} {objects : List (ObjectId × Bytes)}
    (h : r.packObjects L ids = .ok objects) (p : ObjectId × Bytes) :
    p ∈ objects ↔ p.1 ∈ ids ∧ r.objects.getRaw L p.1 = .ok (some p.2) := by
  induction ids generalizing objects with
  | nil =>
      cases h
      simp
  | cons id rest ih =>
      rw [packObjects, Result.bind_eq_ok] at h
      obtain ⟨raw, hraw, h⟩ := h
      cases raw with
      | none =>
          rw [ih h, List.mem_cons]
          refine and_congr_left fun hp => (or_iff_right ?_).symm
          rintro rfl
          rw [hraw] at hp
          cases hp
      | some bytes =>
          simp only [Result.bind_eq_ok] at h
          obtain ⟨objs, hobjs, h⟩ := h
          cases h
          rw [List.mem_cons, ih hobjs, List.mem_cons, or_and_right]
          refine or_congr_left ⟨?_, ?_⟩
          · rintro rfl
            exact ⟨rfl, hraw⟩
          · rintro ⟨hid, hp⟩
            rw [hid, hraw] at hp
            cases hp
            exact Prod.ext hid rfl

lemma packObjects_congr {ids : List ObjectId}
    (h : ∀ id ∈ ids, r.objects.getRaw L id = r'.objects.getRaw L id) :
    r.packObjects L ids = r'.packObjects L ids := by
  induction ids with
  | nil => rfl
  | cons id rest ih =>
      rw [packObjects, packObjects, h id (by simp), ih fun x hx => h x (List.mem_cons_of_mem _ hx)]

/-- What the pack of a walk is made of. -/
lemma buildPack_objects {wants missing : List ObjectId} {have_ : Finset ObjectId} {pack : Bytes}
    (hmissing : missingClosure L r.objects wants have_ = .ok missing)
    (h : r.buildPack L missing = .ok pack) :
    ∃ objects entries digest,
      PackBuilder.finish L.toCrates ⟨objects⟩ = .ok (pack, entries, digest) ∧
      ∀ p, p ∈ objects ↔
        (ReachVia L r.objects childEdges (fun id => decide (id ∈ have_)) wants p.1 ∧
        (r.objects.object L p.1).isSome) ∧ r.objects.getRaw L p.1 = .ok (some p.2) := by
  rw [buildPack, Result.bind_eq_ok] at h
  obtain ⟨objects, hobjects, h⟩ := h
  obtain ⟨⟨pack', entries, digest⟩, hfinish, h⟩ := Result.bind_eq_ok.mp h
  cases h
  refine ⟨objects, entries, digest, hfinish, fun p => ?_⟩
  rw [packObjects_ok hobjects, mem_missingClosure hmissing]

/-- **What a served pack is made of**: stored objects reached from advertised targets, around
what the client has. -/
lemma servePack_objects {refs : List RefAdvert} {want have_ : List ObjectId} {pack : Bytes}
    (h : r.servePack L refs want have_ = .ok pack) :
    ∃ objects entries digest,
      PackBuilder.finish L.toCrates ⟨objects⟩ = .ok (pack, entries, digest) ∧
      ∀ p, p ∈ objects ↔ (ReachVia L r.objects childEdges (fun id => decide (id ∈ have_.toFinset))
          (want.filter fun w => decide (w ∈ refs.map RefAdvert.target)) p.1 ∧
        (r.objects.object L p.1).isSome) ∧ r.objects.getRaw L p.1 = .ok (some p.2) := by
  rw [servePack, Result.bind_eq_ok] at h
  obtain ⟨missing, hmissing, h⟩ := h
  exact buildPack_objects hmissing h

/-! ### Repositories that look alike to an accessor -/

/-- The two repositories serve the accessor the same refs, with the same closures. -/
structure ServeAlike (L : Linked) (accessor : Accessor) (r r' : Repository) : Prop where
  acls : r.aclStatus = r'.aclStatus
  refs : ∀ n v, ServedRef r accessor n v ↔ ServedRef r' accessor n v
  objects : ∀ n v x, ServedRef r accessor n v → Closure L r.objects [v.target] x →
    r.objects.getRaw L x = r'.objects.getRaw L x

/-- A listing fails exactly when the labels cannot be read. -/
lemma listRefsServed_error {e : Error} :
    r.listRefsServed "" accessor = .error e ↔ r.aclStatus = .error e := by
  rw [listRefsServed, listRefsFiltered, aclStatus]
  cases r.acls.getLattice with
  | error e' => simp [bind, Except.bind]
  | ok lattice => cases r.acls.getLabelRuleset <;> simp [bind, Except.bind]

lemma advertise_congr (h : ServeAlike L accessor r r') :
    r.advertise accessor = r'.advertise accessor := by
  rw [advertise, advertise]
  cases hn : r.listRefsServed "" accessor with
  | error e =>
      have hn' : r'.listRefsServed "" accessor = .error e :=
        listRefsServed_error.mpr (h.acls ▸ listRefsServed_error.mp hn)
      rw [hn']
      rfl
  | ok names =>
      cases hn' : r'.listRefsServed "" accessor with
      | error e =>
          have hfail : r.listRefsServed "" accessor = .error e :=
            listRefsServed_error.mpr (h.acls ▸ listRefsServed_error.mp hn')
          rw [hn] at hfail
          cases hfail
      | ok names' =>
          obtain ⟨hmem, hord⟩ := listRefsServed_ok hn
          obtain ⟨hmem', hord'⟩ := listRefsServed_ok hn'
          have hlt : ∀ a b : RefName, compare a b = .lt → a ≠ b := by
            rintro a _ hab rfl
            rw [Std.ReflOrd.compare_self] at hab
            cases hab
          -- both are sorted and have the same members
          have hperm : names.Perm names' := by
            refine (List.perm_ext_iff_of_nodup (hord.imp @hlt) (hord'.imp @hlt)).mpr fun n => ?_
            rw [hmem, hmem']
            exact exists_congr fun v => h.refs n v
          have hsame : names = names' :=
            hperm.eq_of_pairwise (fun a b _ _ hab hba =>
              absurd rfl (hlt a a (Std.TransCmp.lt_trans hab hba))) hord hord'
          subst hsame
          refine congrArg Except.ok (List.filterMap_congr fun n hn => ?_)
          obtain ⟨v, hv⟩ := (hmem n).mp hn
          rw [hv.get, ((h.refs n v).mp hv).get]

end Repository

/-- What a walk reaches, it reaches from one of its roots. -/
lemma closure_of_root {L : Linked} {s : ObjectStore} {skip : ObjectId → Bool}
    {roots : List ObjectId} {x : ObjectId} (h : ReachVia L s childEdges skip roots x) :
    ∃ y ∈ roots, Closure L s [y] x := by
  induction h with
  | root hx _ => exact ⟨_, hx, .root (by simp) rfl⟩
  | step _ hy _ ih =>
      obtain ⟨root, hroot, hclosure⟩ := ih
      exact ⟨root, hroot, .step hclosure hy rfl⟩

namespace Repository

variable {L : Linked} {r r' : Repository} {accessor : Accessor}

/-- What the pack of an advertisement reaches is below a served ref. -/
lemma served_of_reach {refs : List RefAdvert} (hrefs : r.advertise accessor = .ok refs)
    {want have_ : List ObjectId} {x : ObjectId}
    (hx : ReachVia L r.objects childEdges (fun id => decide (id ∈ have_.toFinset))
      (want.filter fun w => decide (w ∈ refs.map RefAdvert.target)) x) :
    ∃ n v, ServedRef r accessor n v ∧ Closure L r.objects [v.target] x := by
  obtain ⟨y, hy, hclosure⟩ := closure_of_root hx
  have hauth : y ∈ refs.map RefAdvert.target := by simpa using (List.mem_filter.mp hy).2
  obtain ⟨ad, had, rfl⟩ := List.mem_map.mp hauth
  obtain ⟨n, v, hv, rfl⟩ := (mem_advertise hrefs).mp had
  rw [target_advertOf] at hclosure
  exact ⟨n, v, hv, hclosure⟩

/-- The pack of an advertisement depends on the closures of the served refs only. -/
lemma servePack_congr (h : ServeAlike L accessor r r') {refs : List RefAdvert}
    (hrefs : r.advertise accessor = .ok refs) (want have_ : List ObjectId) :
    r.servePack L refs want have_ = r'.servePack L refs want have_ := by
  have hraw : ∀ x, ReachVia L r.objects childEdges (fun id => decide (id ∈ have_.toFinset))
      (want.filter fun w => decide (w ∈ refs.map RefAdvert.target)) x →
      r.objects.getRaw L x = r'.objects.getRaw L x := by
    intro x hx
    obtain ⟨n, v, hv, hclosure⟩ := served_of_reach hrefs hx
    exact h.objects n v x hv hclosure
  have hwalk : missingClosure L r.objects
        (want.filter fun w => decide (w ∈ refs.map RefAdvert.target)) have_.toFinset =
      missingClosure L r'.objects
        (want.filter fun w => decide (w ∈ refs.map RefAdvert.target)) have_.toFinset := by
    rw [missingClosure, missingClosure, walk_congr fun x hx => ObjectStore.get_congr (hraw x hx)]
  rw [servePack, servePack, ← hwalk]
  cases hm : missingClosure L r.objects
      (want.filter fun w => decide (w ∈ refs.map RefAdvert.target)) have_.toFinset with
  | error e => rfl
  | ok missing =>
      have hpack : packObjects L r missing = packObjects L r' missing :=
        packObjects_congr fun id hid => hraw id ((mem_missingClosure hm id).mp hid).1
      simp only [bind, Except.bind, buildPack, hpack]

/-- **A fetch serves only what the accessor may read.**  Whatever the client answers: every
advertised ref is served, every object sent is below a served ref, and a repository that serves
the same refs with the same closures sends the same messages. -/
theorem fetch_serves_readable {client : List RefAdvert → Result Message} {sent : List Message}
    {result : Result Unit} (h : r.serveFetch L accessor client = (sent, result)) :
    (∀ refs, .welcome refs ∈ sent → ∀ ad ∈ refs,
        ∃ n v, ServedRef r accessor n v ∧ ad = advertOf n v) ∧
      (∀ pack, .pack pack ∈ sent → ∃ objects entries digest,
        PackBuilder.finish L.toCrates ⟨objects⟩ = .ok (pack, entries, digest) ∧
        ∀ p ∈ objects, r.objects.getRaw L p.1 = .ok (some p.2) ∧
          ∃ n v, ServedRef r accessor n v ∧ Closure L r.objects [v.target] p.1) ∧
      ∀ r', ServeAlike L accessor r r' → r'.serveFetch L accessor client = (sent, result) := by
  refine ⟨fun refs hrefs ad had => ?_, fun pack hpack => ?_, fun r' halike => ?_⟩
  · rw [serveFetch] at h
    cases hadv : r.advertise accessor with
    | error e =>
        obtain rfl : [] = sent := by simpa [hadv] using congrArg Prod.fst h
        simp at hrefs
    | ok refs' =>
        simp only [hadv] at h
        suffices hsame : refs = refs' by
          rw [hsame] at had
          exact (mem_advertise hadv).mp had
        split at h
        · obtain rfl : _ = sent := congrArg Prod.fst h
          simpa using hrefs
        · split at h
          · obtain rfl : _ = sent := congrArg Prod.fst h
            simpa using hrefs
          · obtain rfl : _ = sent := congrArg Prod.fst h
            simpa using hrefs
        · obtain rfl : _ = sent := congrArg Prod.fst h
          simpa using hrefs
  · rw [serveFetch] at h
    cases hadv : r.advertise accessor with
    | error e =>
        obtain rfl : [] = sent := by simpa [hadv] using congrArg Prod.fst h
        simp at hpack
    | ok refs =>
        simp only [hadv] at h
        split at h
        · obtain rfl : _ = sent := congrArg Prod.fst h
          simp at hpack
        · split at h
          · obtain rfl : _ = sent := congrArg Prod.fst h
            simp at hpack
          · next pack' hserve =>
              obtain rfl : _ = sent := congrArg Prod.fst h
              obtain rfl : pack = pack' := by simpa using hpack
              obtain ⟨objects, entries, digest, hfinish, hobjects⟩ := servePack_objects hserve
              refine ⟨objects, entries, digest, hfinish, fun p hp => ?_⟩
              obtain ⟨⟨hreach, -⟩, hraw⟩ := (hobjects p).mp hp
              exact ⟨hraw, served_of_reach hadv hreach⟩
        · obtain rfl : _ = sent := congrArg Prod.fst h
          simp at hpack
  · rw [← h, serveFetch, serveFetch, ← advertise_congr halike]
    cases hadv : r.advertise accessor with
    | error e => rfl
    | ok refs =>
        dsimp only
        split
        · rfl
        · rw [servePack_congr halike hadv]
        · rfl

/-! ### A client that asks for what it was not shown -/

def fetchHidden : RefName := ⟨"hidden", by decide +kernel⟩

/-- A public timeline at the first snapshot and a protected one at the second. -/
def fetchRepo : Repository :=
  { pushRepo with
    refs := ⟨((∅ : BTreeMap RefName Ref).insert pushName
        (.timeline ⟨pushId 4, .fastForwardOnly, 0, "persistent", none⟩)).insert fetchHidden
      (.timeline ⟨pushId 5, .fastForwardOnly, 0, "persistent", none⟩)⟩
    acls := .shipped [] ["hidden"] [] }

/-- The client wants the protected head, too. -/
def fetchClient : List RefAdvert → Result Message :=
  fun _ => .ok (.haveWant [pushId 5, pushId 4] [])

lemma fetchRepo_sent :
    (fetchRepo.serveFetch pushLinked .new fetchClient).2 = .ok () ∧
      (fetchRepo.serveFetch pushLinked .new fetchClient).1.head? =
        some (.welcome [⟨pushName, pushId 4, true⟩]) := by
  decide +kernel

/-- The session goes through, and whatever it sends is below a ref served to the anonymous
client. -/
theorem fetch_serves_readable_hidden :
    (fetchRepo.serveFetch pushLinked .new fetchClient).2 = .ok () ∧
      ∀ pack, .pack pack ∈ (fetchRepo.serveFetch pushLinked .new fetchClient).1 →
        ∃ objects entries digest,
          PackBuilder.finish pushLinked.toCrates ⟨objects⟩ = .ok (pack, entries, digest) ∧
          ∀ p ∈ objects, fetchRepo.objects.getRaw pushLinked p.1 = .ok (some p.2) ∧
            ∃ n v, ServedRef fetchRepo .new n v ∧
              Closure pushLinked fetchRepo.objects [v.target] p.1 := by
  have hsent := fetch_serves_readable (L := pushLinked)
    (Prod.mk.eta (p := fetchRepo.serveFetch pushLinked .new fetchClient)).symm
  exact ⟨fetchRepo_sent.1, hsent.2.1⟩

end Repository

end Bole
