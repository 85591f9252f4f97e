import Bole.Sync.Collab
import Bole.Sync.InProcess

/-!
What leaves a repository, over all the paths that serve it: the sessions of `src/sync/session.rs`
and `src/sync/collab.rs`, the HTTP server of `src/sync/http.rs`, the sync in one process of
`src/sync/mod.rs` and the timeline handlers of `bole-api/src/handlers/timelines.rs`.

* `serve_says`: what a session sends;
* `Obtains.cases`: how a ref comes to another repository;
* `scoped_refs_private`: scoped collab refs stay private unless `clone_from` finds a timeline
  among them;
* `relays_private_iff`: relay choices stay private exactly when the labels hide them.
-/

namespace Bole

open Talk

/-! ### Relays -/

/-- `RelayPin`. -/
structure RelayPin where
  key : Digest
  endpoint : String
deriving DecidableEq

/-- `to_bytes`. -/
def RelayPin.toBytes (pin : RelayPin) : Bytes := pin.key.bytes ++ Postcard.str pin.endpoint

/-- `add_relay`. -/
def Repository.addRelay (L : Linked) (r : Repository) (pin : RelayPin) (mtime : Option ℕ) :
    Result Unit × Repository :=
  match r.publishTag L (.blob pin.toBytes)
      (RefName.new (collabRelaysPrefix ++ fingerprint L.toCrates pin.key)) mtime with
  | (.error e, r) => (.error e, r)
  | (.ok _, r) => (.ok (), r)

/-! ### The HTTP paths -/

/-- `ApiError`. -/
structure ApiError where
  status : ℕ
  code : String
  message : String
deriving DecidableEq

namespace ApiError

/-- `bad_request`. -/
def badRequest (message : String) : ApiError := ⟨400, "bad_request", message⟩

/-- `not_found`. -/
def notFound (message : String) : ApiError := ⟨404, "not_found", message⟩

/-- The conversion from the library's errors. -/
def ofError (e : Error) : ApiError := ⟨500, "internal", e.display⟩

end ApiError

namespace Repository

open Talk.Session

/-- The answer of `serve_http_once` to a fetch: the refs and the pack. -/
def httpFetch (L : Linked) (r : Repository) (accessor : Accessor) (have_ : List ObjectId) :
    Result (List RefAdvert × Bytes) := do
  let refs ← r.advertise accessor
  let missing ← missingClosure L r.objects (refs.map RefAdvert.target) have_.toFinset
  let pack ← r.buildPack L missing
  .ok (refs, pack)

/-- `list` of the timeline handlers. -/
def apiTimelines (r : Repository) (accessor : Accessor) :
    Except ApiError (List (RefName × Ref)) :=
  match r.listRefsServed "" accessor with
  | .error e => .error (.ofError e)
  | .ok names => .ok (names.filterMap fun n => (r.refs.get n).map fun v => (n, v))

/-- `get_one` of the timeline handlers. -/
def apiTimeline (r : Repository) (name : String) (accessor : Accessor) :
    Except ApiError (RefName × Ref) :=
  match RefName.new name with
  | .error _ => .error (.badRequest "invalid ref name")
  | .ok n =>
      match r.refServed n accessor with
      | .error e => .error (.ofError e)
      | .ok false => .error (.notFound "no such ref")
      | .ok true =>
          match r.refs.get n with
          | some v => .ok (n, v)
          | none => .error (.notFound "no such ref")

/-! ### What a session sends -/

variable {L : Linked} {r : Repository} {accessor : Accessor} {mtime : Option ℕ}

/-- The object is below a ref that is served. -/
def ServedObject (L : Linked) (r : Repository) (accessor : Accessor) (x : ObjectId) : Prop :=
  ∃ n v, ServedRef r accessor n v ∧ Closure L r.objects [v.target] x

/-- What the sessions may send: the served refs, and packs of what is below them. -/
def ServeSends (L : Linked) (r : Repository) (accessor : Accessor) : Message → Prop
  | .welcome refs _ _ => ∀ ad ∈ refs, ∃ v, ServedRef r accessor ad.name v
  | .pack pack => PackWithin L r (ServedObject L r accessor) pack
  | _ => True

lemma advertised_served {refs : List RefAdvert} (h : r.advertise accessor = .ok refs) :
    ∀ ad ∈ refs, ∃ v, ServedRef r accessor ad.name v := by
  intro ad had
  obtain ⟨n, v, hv, rfl⟩ := (mem_advertise h).mp had
  cases v <;> exact ⟨_, hv⟩

lemma servePack_served {refs : List RefAdvert} (hrefs : r.advertise accessor = .ok refs)
    {want have_ : List ObjectId} {pack : Bytes} (h : r.servePack L refs want have_ = .ok pack) :
    PackWithin L r (ServedObject L r accessor) pack := by
  obtain ⟨objects, entries, digest, hfinish, hobjects⟩ := servePack_objects h
  refine ⟨objects, entries, digest, hfinish, fun p hp => ?_⟩
  obtain ⟨⟨hreach, -⟩, hraw⟩ := (hobjects p).mp hp
  exact ⟨hraw, served_of_reach hrefs hreach⟩

lemma fetchSession_says :
    Says (· = r) (ServeSends L r accessor) (fetchSession L accessor) := by
  refine .ask_bind fun w refs hw hrefs => ?_
  subst hw
  refine .after (.send (advertised_served hrefs)) fun _ => .after .recv fun m => ?_
  split
  · refine .ask_bind fun w pack hw hpack => ?_
    subst hw
    exact .after (.send (servePack_served hrefs hpack)) fun _ => .of_tells (.send trivial)
  · exact .of_tells (.fail _)

/-- After the greeting a push is told how its operations went, and nothing else. -/
lemma pushSession_says :
    Says (· = r) (ServeSends L r accessor) (pushSession L mtime accessor) := by
  refine .ask_bind fun w refs hw hrefs => ?_
  subst hw
  refine .after (.send (advertised_served hrefs)) fun _ => .after .recv fun m => ?_
  split
  · refine .ask_bind fun w decoded hw _ => ?_
    subst hw
    refine .after .recv fun m => ?_
    split
    · split_ifs
      · exact .of_tells (.send trivial)
      · exact .act_bind fun _ => .act_bind fun results => .of_tells (.send trivial)
    · exact .of_tells (.fail _)
  · exact .of_tells (.fail _)

/-- **What a session sends**, whatever the client says. -/
lemma serve_says : Says (· = r) (ServeSends L r accessor) (serve L mtime accessor) := by
  refine .after .recv fun m => ?_
  split
  · exact fetchSession_says
  · exact fetchSession_says
  · exact pushSession_says
  · exact .of_tells (.bind (.send trivial) fun _ => .fail _)

lemma serve_sends {client : Peer Message Error} {m : Message}
    (hm : m ∈ (serve L mtime accessor client (.start r)).2.sent) : ServeSends L r accessor m := by
  have hsays := serve_says (L := L) client (.start r) rfl m hm
  simpa [Stage.start] using hsays

/-- The answer over HTTP is that of a session whose client wants all it is shown. -/
lemma httpFetch_eq_ok {have_ : List ObjectId} {refs : List RefAdvert} {pack : Bytes}
    (h : r.httpFetch L accessor have_ = .ok (refs, pack)) :
    r.advertise accessor = .ok refs ∧
      r.servePack L refs (refs.map RefAdvert.target) have_ = .ok pack := by
  rw [httpFetch, Result.bind_eq_ok] at h
  obtain ⟨refs', hrefs, h⟩ := h
  obtain ⟨missing, hmissing, h⟩ := Result.bind_eq_ok.mp h
  obtain ⟨pack', hpack, h⟩ := Result.bind_eq_ok.mp h
  cases h
  refine ⟨hrefs, ?_⟩
  have hwant : ((refs.map RefAdvert.target).filter fun w =>
      decide (w ∈ refs.map RefAdvert.target)) = refs.map RefAdvert.target :=
    List.filter_eq_self.mpr fun w hw => decide_eq_true hw
  rw [servePack, hwant]
  exact Result.bind_eq_ok.mpr ⟨missing, hmissing, hpack⟩

/-! ### How a ref comes to another repository -/

/-- A way by which another repository obtains the ref `n` of `r`: it is advertised over a
connection or over HTTP, tracked by a fetch, or a ref of a clone. -/
inductive Obtains (L : Linked) (r : Repository) (accessor : Accessor) : RefName → Prop
  | wire {mtime : Option ℕ} {client : Peer Message Error} {refs : List RefAdvert} {caps : ℕ}
      {relaySig : Option Bytes} {ad : RefAdvert}
      (h : .welcome refs caps relaySig ∈ (serve L mtime accessor client (.start r)).2.sent)
      (had : ad ∈ refs) : Obtains L r accessor ad.name
  | http {have_ : List ObjectId} {refs : List RefAdvert} {pack : Bytes} {ad : RefAdvert}
      (h : r.httpFetch L accessor have_ = .ok (refs, pack)) (had : ad ∈ refs) :
      Obtains L r accessor ad.name
  | fetch {mtime : Option ℕ} {remote : String} {self self' : Repository}
      {tracked : List (RefName × ObjectId)} {t : RefName × ObjectId} {n : RefName}
      (h : InProcess.fetch L mtime remote r accessor self = (.ok tracked, self'))
      (ht : t ∈ tracked) (hn : trackingRef remote n = .ok t.1) : Obtains L r accessor n
  | clone {mtime : Option ℕ} {c : Repository} {n : RefName} {v : Ref}
      (h : InProcess.cloneFrom L mtime r accessor = .ok c) (hv : c.refs.get n = some v) :
      Obtains L r accessor n

/-- **How a ref comes to another repository**: it is served, or it is a readable timeline that a
clone mirrors, or a tracking ref of the clone. -/
lemma Obtains.cases {n : RefName} (h : Obtains L r accessor n) :
    (∃ v, ServedRef r accessor n v) ∨
      (∃ t, InProcess.ReadableRef r accessor n (.timeline t)) ∨
      n.startsWith "refs/remotes/" = true := by
  cases h with
  | wire h had => exact .inl (serve_sends h _ had)
  | http h had => exact .inl (advertised_served (httpFetch_eq_ok h).1 _ had)
  | fetch h ht hn =>
      obtain ⟨m, v, hv, hm, -⟩ := InProcess.fetch_tracked h ht
      rw [trackingRef_injective hn hm]
      exact .inl ⟨v, hv⟩
  | clone h hv =>
      rcases InProcess.cloneFrom_get h hv with ⟨m, -, -, hm⟩ | ⟨t, ht⟩
      · refine .inr (.inr (RefName.startsWith_iff.mpr ?_))
        rw [asStr_trackingRef hm, String.append_assoc, String.append_assoc, String.toList_append]
        exact List.prefix_append _ _
      · exact .inr (.inl ⟨t, ht⟩)

/-- No name begins in two ways. -/
lemma not_startsWith {n : RefName} {p q : String} (hn : n.startsWith p = true)
    (hp : ¬ p.toList <+: q.toList) (hq : ¬ q.toList <+: p.toList) : n.startsWith q = false := by
  by_contra h
  rw [Bool.not_eq_false, RefName.startsWith_iff] at h
  rcases List.prefix_or_prefix_of_prefix (RefName.startsWith_iff.mp hn) h with hpq | hqp
  · exact hp hpq
  · exact hq hqp

/-! ### Scoped collab refs -/

/-- No other repository obtains a scoped collab ref that is not served. -/
def ScopedPrivate (L : Linked) (r : Repository) (accessor : Accessor) : Prop :=
  ∀ n, n.startsWith collabScopedPrefix = true → r.refServed n accessor ≠ .ok true →
    ¬ Obtains L r accessor n

/-- The accessor may read no timeline among the scoped collab refs. -/
def NoScopedTimeline (r : Repository) (accessor : Accessor) : Prop :=
  ∀ n t, n.startsWith collabScopedPrefix = true →
    ¬ InProcess.ReadableRef r accessor n (.timeline t)

/-- **Scoped collab refs stay private** where the accessor may read no timeline among them, and a
clone that is made has such a timeline otherwise. -/
theorem scoped_refs_private (L : Linked) (r : Repository) (accessor : Accessor) :
    (NoScopedTimeline r accessor → ScopedPrivate L r accessor) ∧
      ∀ mtime c, InProcess.cloneFrom L mtime r accessor = .ok c →
        (ScopedPrivate L r accessor ↔ NoScopedTimeline r accessor) := by
  have hprivate : NoScopedTimeline r accessor → ScopedPrivate L r accessor := by
    intro hno n hscope _ hobtains
    rcases hobtains.cases with ⟨v, hv⟩ | ⟨t, ht⟩ | hremote
    · rw [(InProcess.servedRef_iff.mp hv).2] at hscope
      cases hscope
    · exact hno n t hscope ht
    · rw [not_startsWith hremote (by decide) (by decide)] at hscope
      cases hscope
  refine ⟨hprivate, fun mtime c hclone => ⟨fun h n t hscope ht => ?_, hprivate⟩⟩
  have hrefused : r.refServed n accessor ≠ .ok true := by
    rw [refServed, if_pos hscope]
    simp
  exact h n hscope hrefused (.clone hclone (InProcess.cloneFrom_mirrors hclone ht))

/-- A name among the scoped collab refs. -/
def scopedName : RefName := ⟨"refs/collab/scoped/x", by decide +kernel⟩

/-- A timeline under that name, next to the one that is pushed to. -/
def scopedRefs : RefStore :=
  ⟨pushRepo.refs.refs.insert scopedName
    (.timeline ⟨pushId 4, .fastForwardOnly, 0, "persistent", none⟩)⟩

/-- Nothing is labelled. -/
def scopedRepo : Repository := { pushRepo with refs := scopedRefs }

/-- The scoped timeline is protected. -/
def scopedHidden : Repository :=
  { pushRepo with refs := scopedRefs, acls := .shipped [] ["refs/collab/scoped/x"] [] }

/-- Its label is all that keeps it from the anonymous. -/
lemma scopedHidden_noTimeline : NoScopedTimeline scopedHidden .new := by
  rintro n t hscope ⟨lattice, rules, hlat, hrules, hread, ht⟩
  have hall : (scopedRefs.list "").all (fun n => n.startsWith collabScopedPrefix →
      scopedHidden.refServed n .new = .ok false ∧
        (scopedHidden.listRefsFiltered "" .new).toOption.all fun names => n ∉ names) = true := by
    decide +kernel
  have hmem : n ∈ scopedRefs.list "" := RefStore.mem_list.mpr ⟨⟨_, ht⟩, by simp⟩
  obtain ⟨-, hlisted⟩ := of_decide_eq_true (List.all_eq_true.mp hall n hmem) hscope
  cases hnames : scopedHidden.listRefsFiltered "" .new with
  | error e => simp [listRefsFiltered, hlat, hrules, bind, Except.bind] at hnames
  | ok names =>
      have hn : n ∈ names := (InProcess.mem_listRefsFiltered hnames).mpr
        ⟨_, lattice, rules, hlat, hrules, hread, ht⟩
      rw [hnames] at hlisted
      simp [Except.toOption, hn] at hlisted

/-- With the timeline protected, the clone of the anonymous is made without it. -/
theorem scoped_refs_private_hidden : ScopedPrivate pushLinked scopedHidden .new ∧
    ∃ c, InProcess.cloneFrom pushLinked none scopedHidden .new = .ok c ∧
      (ScopedPrivate pushLinked scopedHidden .new ↔ NoScopedTimeline scopedHidden .new) := by
  have hok : (InProcess.cloneFrom pushLinked none scopedHidden .new).toOption.isSome = true := by
    decide +kernel
  refine ⟨(scoped_refs_private pushLinked scopedHidden .new).1 scopedHidden_noTimeline, ?_⟩
  cases hclone : InProcess.cloneFrom pushLinked none scopedHidden .new with
  | error e =>
      rw [hclone] at hok
      cases hok
  | ok c => exact ⟨c, rfl, (scoped_refs_private pushLinked scopedHidden .new).2 none c hclone⟩

/-- **A clone of a scoped timeline.**  It is not served to anyone, and every clone has it. -/
theorem scoped_timeline_cloned :
    ¬ ∀ (L : Linked) (r : Repository) (accessor : Accessor), ScopedPrivate L r accessor := by
  intro h
  have hrun : scopedRepo.refServed scopedName .new = .ok false ∧
      ((InProcess.cloneFrom pushLinked none scopedRepo .new).toOption.bind fun c =>
        c.refs.get scopedName).isSome = true := by decide +kernel
  have hrefused : scopedRepo.refServed scopedName .new ≠ .ok true := by
    rw [hrun.1]
    simp
  cases hclone : InProcess.cloneFrom pushLinked none scopedRepo .new with
  | error e =>
      have hsome := hrun.2
      rw [hclone] at hsome
      cases hsome
  | ok c =>
      have hsome := hrun.2
      rw [hclone] at hsome
      obtain ⟨v, hv⟩ := Option.isSome_iff_exists.mp hsome
      exact h pushLinked scopedRepo .new scopedName (by decide +kernel) hrefused (.clone hclone hv)

/-! ### Relay choices -/

/-- The accessor may read no ref among the relay choices. -/
def NoReadableRelay (r : Repository) (accessor : Accessor) : Prop :=
  ∀ n v, n.startsWith collabRelaysPrefix = true → ¬ InProcess.ReadableRef r accessor n v

/-- The object is below a ref that is no relay choice, or it is the collaboration object found
there in the bytes that the codec writes of it. -/
def OpenTo (L : Linked) (r : Repository) (x : ObjectId) : Prop :=
  ∃ n v y, r.refs.get n = some v ∧ n.startsWith collabRelaysPrefix = false ∧
    Closure L r.objects [v.target] y ∧
    (y = x ∨ ∃ o, r.objects.object L y = some (.collab o) ∧ collabId L o = .ok x)

/-- A pack that is sent on one of the paths. -/
inductive SendsPack (L : Linked) (r : Repository) (accessor : Accessor) : Bytes → Prop
  | wire {mtime : Option ℕ} {client : Peer Message Error} {pack : Bytes}
      (h : .pack pack ∈ (serve L mtime accessor client (.start r)).2.sent) :
      SendsPack L r accessor pack
  | http {have_ : List ObjectId} {refs : List RefAdvert} {pack : Bytes}
      (h : r.httpFetch L accessor have_ = .ok (refs, pack)) : SendsPack L r accessor pack
  | fetch {adverts : List (RefName × ObjectId)} {have_ : List ObjectId} {pack : Bytes}
      (hadverts : InProcess.advertise r accessor = .ok adverts)
      (h : InProcess.transferPack L r (adverts.map Prod.snd) have_ = .ok (some pack)) :
      SendsPack L r accessor pack
  | collab {relay : Bool} {relaySigner : Option (Bytes → Bytes)} {client : Peer Message Error}
      {pack : Bytes}
      (h : .pack pack ∈ (serveCollab L relay relaySigner client (.start r)).2.sent) :
      SendsPack L r accessor pack

/-- No relay choice is advertised, listed or looked up on any path, and no object that only
relay choices lead to is sent. -/
structure RelaysPrivate (L : Linked) (r : Repository) (accessor : Accessor) : Prop where
  obtained : ∀ n, n.startsWith collabRelaysPrefix = true → ¬ Obtains L r accessor n
  listed : ∀ refs, r.apiTimelines accessor = .ok refs →
    ∀ p ∈ refs, p.1.startsWith collabRelaysPrefix = false
  looked : ∀ name p, r.apiTimeline name accessor = .ok p →
    p.1.startsWith collabRelaysPrefix = false
  adverts : ∀ relay relaySigner client refs caps relaySig,
    .welcome refs caps relaySig ∈ (serveCollab L relay relaySigner client (.start r)).2.sent →
    ∀ ad ∈ refs, ad.name.startsWith collabRelaysPrefix = false
  packs : ∀ pack, SendsPack L r accessor pack → PackWithin L r (OpenTo L r) pack

lemma PackWithin.mono {S T : ObjectId → Prop} {pack : Bytes} (h : PackWithin L r S pack)
    (hST : ∀ x, S x → T x) : PackWithin L r T pack := by
  obtain ⟨objects, entries, digest, hfinish, hobjects⟩ := h
  exact ⟨objects, entries, digest, hfinish,
    fun p hp => ⟨(hobjects p hp).1, hST _ (hobjects p hp).2⟩⟩

/-- The pack of a transfer between two repositories. -/
lemma transferPack_served {adverts : List (RefName × ObjectId)}
    (hadverts : InProcess.advertise r accessor = .ok adverts) {have_ : List ObjectId}
    {pack : Bytes}
    (h : InProcess.transferPack L r (adverts.map Prod.snd) have_ = .ok (some pack)) :
    PackWithin L r (ServedObject L r accessor) pack := by
  obtain ⟨objects, entries, digest, hfinish, hobjects⟩ := InProcess.transferPack_objects h
  refine ⟨objects, entries, digest, hfinish, fun p hp => ?_⟩
  obtain ⟨⟨hreach, -⟩, hraw⟩ := (hobjects p).mp hp
  obtain ⟨y, hy, hclosure⟩ := closure_of_root hreach
  obtain ⟨ad, had, rfl⟩ := List.mem_map.mp hy
  obtain ⟨v, hv, ht⟩ := (InProcess.mem_advertise hadverts).mp had
  rw [← ht] at hclosure
  exact ⟨hraw, ad.1, v, hv, hclosure⟩

section Hidden

variable (hno : NoReadableRelay r accessor)
include hno

/-- Where no relay choice is readable, none is served. -/
lemma ServedRef.not_relay {n : RefName} {v : Ref} (hv : ServedRef r accessor n v) :
    n.startsWith collabRelaysPrefix = false := by
  by_contra h
  rw [Bool.not_eq_false] at h
  exact hno n v h (InProcess.servedRef_iff.mp hv).1

lemma ServedObject.openTo {x : ObjectId} (h : ServedObject L r accessor x) : OpenTo L r x := by
  obtain ⟨n, v, hv, hx⟩ := h
  exact ⟨n, v, x, hv.get, hv.not_relay hno, hx, .inl rfl⟩

/-- Where no relay choice is readable, no other repository obtains one. -/
lemma Obtains.not_relay {n : RefName} (h : Obtains L r accessor n) :
    n.startsWith collabRelaysPrefix = false := by
  rcases h.cases with ⟨v, hv⟩ | ⟨t, ht⟩ | hremote
  · exact hv.not_relay hno
  · by_contra hrelay
    rw [Bool.not_eq_false] at hrelay
    exact hno n _ hrelay ht
  · exact not_startsWith hremote (by decide) (by decide)

end Hidden

/-- The tags of the collaboration endpoint are public ones or cached ones. -/
lemma AdvertisedTag.not_relay {relay : Bool} {n : RefName} {t : Tag}
    (h : AdvertisedTag L r relay n t) : n.startsWith collabRelaysPrefix = false := by
  have hfront : ∀ pfx, n ∈ r.refs.list pfx → n.startsWith pfx = true := fun pfx hn =>
    (RefStore.mem_list.mp hn).2
  rcases h.2 with hn | ⟨-, hn⟩ | ⟨-, e, -, hn⟩
  · exact not_startsWith (hfront _ hn) (by decide) (by decide)
  · exact not_startsWith (hfront _ hn) (by decide) (by decide)
  · have hremotes : n.startsWith collabRemotesPrefix = true := by
      have hcached := RefName.startsWith_iff.mp (hfront _ hn)
      rw [String.append_assoc, String.toList_append] at hcached
      exact RefName.startsWith_iff.mpr ((List.prefix_append _ _).trans hcached)
    exact not_startsWith hremotes (by decide) (by decide)

lemma CollabScope.openTo {relay : Bool} {x : ObjectId} (h : CollabScope L r relay x) :
    OpenTo L r x := by
  obtain ⟨n, t, ht, hx | hx⟩ := h
  · exact ⟨n, .tag t, x, ht.1, ht.not_relay, hx, .inl rfl⟩
  · exact ⟨n, .tag t, t.target, ht.1, ht.not_relay, .root (by simp [Ref.target]) rfl, .inr hx⟩

/-- What the collaboration endpoint sends. -/
lemma serveCollab_sends {relay : Bool} {relaySigner : Option (Bytes → Bytes)}
    {client : Peer Message Error} {m : Message}
    (hm : m ∈ (serveCollab L relay relaySigner client (.start r)).2.sent) :
    CollabSends L r relay m := by
  have htells := (serveCollab_tells relaySigner client (.start r) rfl).2 m hm
  simpa [Stage.start] using htells

/-- A session that greets a client. -/
lemma serve_greets {refs : List RefAdvert} (hrefs : r.advertise accessor = .ok refs) :
    .welcome refs ∈ (serve L none accessor
      (scripted (.storage "connection closed") [.hello .fetch]) (.start r)).2.sent := by
  simp [serve, fetchSession, Session.recv, Session.scripted, Session.ask, Session.send,
    Stage.start, hrefs]

/-- What is served is obtained by whoever connects. -/
lemma Obtains.of_served {n : RefName} {v : Ref} (hv : ServedRef r accessor n v) :
    Obtains L r accessor n := by
  obtain ⟨refs, hrefs⟩ : ∃ refs, r.advertise accessor = .ok refs := by
    obtain ⟨lattice, rules, hlat, hrules, -⟩ := hv
    simp only [advertise, listRefsServed, listRefsFiltered, hlat, hrules]
    exact ⟨_, rfl⟩
  have had : advertOf n v ∈ refs := (mem_advertise hrefs).mpr ⟨n, v, hv, rfl⟩
  have hname : (advertOf n v).name = n := by cases v <;> rfl
  rw [← hname]
  exact .wire (serve_greets hrefs) had

/-- **Relay choices are never disclosed** exactly when the accessor may read none of them. -/
theorem relays_private_iff (L : Linked) (r : Repository) (accessor : Accessor) :
    RelaysPrivate L r accessor ↔ NoReadableRelay r accessor := by
  constructor
  · intro h n v hrelay hread
    have hscope : n.startsWith collabScopedPrefix = false :=
      not_startsWith hrelay (by decide) (by decide)
    exact h.obtained n hrelay (.of_served (InProcess.servedRef_iff.mpr ⟨hread, hscope⟩))
  · intro hno
    refine ⟨fun n hrelay hobtains => ?_, fun refs hrefs p hp => ?_, fun name p hp => ?_,
      fun relay relaySigner client refs caps relaySig hm ad had => ?_, fun pack hpack => ?_⟩
    · rw [hobtains.not_relay hno] at hrelay
      cases hrelay
    · rw [apiTimelines] at hrefs
      split at hrefs
      · cases hrefs
      · next names hnames =>
          cases hrefs
          obtain ⟨n, hn, hp⟩ := List.mem_filterMap.mp hp
          obtain ⟨v, -, rfl⟩ := Option.map_eq_some_iff.mp hp
          obtain ⟨w, hw⟩ := ((listRefsServed_ok hnames).1 n).mp hn
          exact hw.not_relay hno
    · rw [apiTimeline] at hp
      split at hp
      · cases hp
      · next n _ =>
          split at hp
          · cases hp
          · cases hp
          · next hserved =>
              obtain ⟨v, hv⟩ := refServed_iff.mp hserved
              rw [hv.get] at hp
              cases hp
              exact hv.not_relay hno
    · obtain ⟨n, t, ht, rfl⟩ := (serveCollab_sends hm ad).mp had
      exact ht.not_relay
    · cases hpack with
      | wire h => exact PackWithin.mono (serve_sends h) fun x hx => hx.openTo hno
      | http h =>
          obtain ⟨hrefs, hpack⟩ := httpFetch_eq_ok h
          exact PackWithin.mono (servePack_served hrefs hpack) fun x hx => hx.openTo hno
      | fetch hadverts h =>
          exact PackWithin.mono (transferPack_served hadverts h) fun x hx => hx.openTo hno
      | collab h => exact PackWithin.mono (serveCollab_sends h) fun x hx => hx.openTo

/-- A relay at some address. -/
def relayPin : RelayPin := ⟨Crates.reference.blake3 [], "relay.example:9418"⟩

/-- A new repository in which the relay has been chosen. -/
def relayRepo : Repository := (memory.addRelay pushLinked relayPin none).2

/-- A label hides the choice. -/
example : { relayRepo with
    acls := .shipped [] ["refs/collab/relays/**"] [] }.listRefsServed "" .new = .ok [] := by
  decide +kernel

/-- **A relay choice that is advertised.**  A new repository serves its choice to anyone. -/
theorem relay_choice_served :
    ¬ ∀ (L : Linked) (r : Repository) (accessor : Accessor), RelaysPrivate L r accessor := by
  intro h
  have hrun : (relayRepo.refs.list "").any (fun n => n.startsWith collabRelaysPrefix &&
      decide (relayRepo.refServed n .new = .ok true)) = true := by decide +kernel
  obtain ⟨n, -, hn⟩ := List.any_eq_true.mp hrun
  rw [Bool.and_eq_true, decide_eq_true_eq] at hn
  obtain ⟨v, hv⟩ := refServed_iff.mp hn.2
  exact (h pushLinked relayRepo .new).obtained n hn.1 (.of_served hv)

end Repository

end Bole
