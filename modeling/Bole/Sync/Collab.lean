import Bole.Collab.Search
import Bole.Sync.Session
import Bole.Sync.Signatures

/-!
The collaboration endpoint: `collab_adverts`, `serve_collab` and `collab_pull` of
`src/sync/collab.rs`.

A node serves its own public objects and what it has cached of the authors it follows; a relay
serves all it has cached.

* `mem_collabAdverts`: what is advertised;
* `serveCollab_scope`: **what is served** is below an advertised tag;
* `serveCollab_below`: and it can be below only, not the target itself.
-/

namespace Bole

open Talk

/-- `CAP_SEARCH`. -/
def capSearch : ℕ := 1

namespace Repository

open Talk.Session

/-! ### Adverts -/

/-- The loop that advertises the tags among the given names. -/
def tagAdverts (r : Repository) : List RefName → Result (List RefAdvert)
  | [] => .ok []
  | name :: rest => do
      match ← r.refs.getTag name with
      | some tag => do
          let out ← tagAdverts r rest
          .ok (⟨name, tag.target, false⟩ :: out)
      | none => tagAdverts r rest

/-- The loop over the public edges: the cache of the authors they follow. -/
def followAdverts (L : Linked) (r : Repository) : List TrustEdge → Result (List RefAdvert)
  | [] => .ok []
  | e :: rest =>
      if e.kind = .follow then do
        let cached ← r.tagAdverts
          (r.refs.list (collabRemotesPrefix ++ fingerprint L.toCrates e.toKey ++ "/"))
        let out ← followAdverts L r rest
        .ok (cached ++ out)
      else followAdverts L r rest

/-- `collab_adverts`. -/
def collabAdverts (L : Linked) (r : Repository) (relay : Bool) : Result (List RefAdvert) := do
  let own ← r.tagAdverts (r.refs.list collabPublicPrefix)
  if relay then do
    let cached ← r.tagAdverts (r.refs.list collabRemotesPrefix)
    .ok (own ++ cached)
  else do
    let edges ← r.publicEdges L
    let cached ← r.followAdverts L edges
    .ok (own ++ cached)

/-! ### Serving -/

/-- The corpus of a search: the advertised collaboration objects. -/
def searchCorpus (L : Linked) (r : Repository) : List RefAdvert → Result (List CollabObject)
  | [] => .ok []
  | ad :: rest => do
      match ← r.objects.get L ad.target with
      | some (.collab o) => do
          let out ← searchCorpus L r rest
          .ok (o :: out)
      | _ => searchCorpus L r rest

/-- The ids of what a search selects. -/
def collabIds (L : Linked) : List CollabObject → Result (List ObjectId)
  | [] => .ok []
  | o :: rest => do
      let id ← collabId L o
      let ids ← collabIds L rest
      .ok (id :: ids)

/-- The pack that answers a search. -/
def searchPack (L : Linked) (r : Repository) (refs : List RefAdvert) (term : String)
    (maxHops : UInt8) : Result Bytes := do
  let corpus ← r.searchCorpus L refs
  let selected ← searchBall L corpus term (min maxHops maxSearchHops)
  let ids ← collabIds L selected
  r.buildPack L ids

/-- `serve_collab`, once the client has said hello.  The signer of a relay is its signature of a
message. -/
def serveCollabTo (L : Linked) (relay : Bool) (relaySigner : Option (Bytes → Bytes))
    (clientNonce : Option Digest) : SyncSession Unit := do
  let refs ← ask fun r => r.collabAdverts L relay
  let relaySig :=
    match relay, relaySigner, clientNonce with
    | true, some signer, some nonce => some (signer (relayChallengeMessage nonce))
    | _, _, _ => none
  send (.welcome refs (if relay then capSearch else 0) relaySig)
  match ← recv with
  | .haveWant want have_ => do
      let pack ← ask fun r => r.servePack L refs want have_
      send (.pack pack)
      send .done
  | .search term maxHops =>
      if term.utf8ByteSize < minSearchTermLen then send (.error "search term too short")
      else do
        let pack ← ask fun r => r.searchPack L refs term maxHops
        send (.pack pack)
        send .done
  | _ => fail (.storage "collab: expected HaveWant or Search")

/-- `serve_collab`. -/
def serveCollab (L : Linked) (relay : Bool) (relaySigner : Option (Bytes → Bytes)) :
    SyncSession Unit := do
  match ← recv with
  | .hello .fetch nonce => serveCollabTo L relay relaySigner nonce
  | .hello .clone nonce => serveCollabTo L relay relaySigner nonce
  | .hello .push _ => refuse "collab endpoint is read-only" (.storage "collab: push not permitted")
  | _ => refuse "expected Hello" (.storage "collab: expected Hello")

/-! ### Pulling -/

/-- `verified`. -/
def verifiedCollab (L : Linked) : CollabObject → Bool
  | .profile p => verifyProfile L p
  | .trustEdge e => verifyEdge L e

/-- `author`. -/
def collabAuthor : CollabObject → Digest
  | .profile p => p.key
  | .trustEdge e => e.fromKey

/-- The name under which an object is tracked, by its author. -/
def collabTracking (C : Crates) (o : CollabObject) : String :=
  match o with
  | .profile _ => collabRemotesPrefix ++ fingerprint C (collabAuthor o) ++ "/profile"
  | .trustEdge e => collabRemotesPrefix ++ fingerprint C (collabAuthor o) ++ "/edge/" ++
      kindSeg e.kind ++ "/" ++ fingerprint C e.toKey

/-- The advertised collaboration objects that verify. -/
def resolveCollab (L : Linked) (r : Repository) :
    List RefAdvert → Result (List (RefName × CollabObject))
  | [] => .ok []
  | ad :: rest => do
      match ← r.objects.get L ad.target with
      | some (.collab o) => do
          let out ← resolveCollab L r rest
          if verifiedCollab L o then .ok ((ad.name, o) :: out) else .ok out
      | _ => resolveCollab L r rest

/-- The author of the first profile that is advertised as public. -/
def collabPeer (resolved : List (RefName × CollabObject)) : Option Digest :=
  resolved.findSome? fun
    | (name, .profile p) => if name.startsWith collabPublicPrefix then some p.key else none
    | _ => none

/-- The loop that writes the objects, and the refs that the transaction is to set. -/
def stageCollab (L : Linked) (mtime : Option ℕ) :
    List CollabObject → Repository → Result (List RefOp) × Repository
  | [], r => (.ok [], r)
  | o :: rest, r =>
      match r.objects.put L (.collab o) mtime with
      | (.error e, objects) => (.error e, { r with objects := objects })
      | (.ok id, objects) =>
          match RefName.new (collabTracking L.toCrates o) with
          | .error e => (.error e, { r with objects := objects })
          | .ok name =>
              match stageCollab L mtime rest { r with objects := objects } with
              | (.error e, r) => (.error e, r)
              | (.ok ops, r) => (.ok (.set name (.tag ⟨id, 0, none⟩) :: ops), r)

/-- The end of `collab_pull`: every object is filed under its author. -/
def fileCollab (L : Linked) (mtime : Option ℕ) (objs : List CollabObject) (r : Repository) :
    Result Unit × Repository :=
  match stageCollab L mtime objs r with
  | (.error e, r) => (.error e, r)
  | (.ok ops, r) =>
      match r.refs.commit ops with
      | (.error e, refs) => (.error e, { r with refs := refs })
      | (.ok (), refs) => (.ok (), { r with refs := refs })

/-- `collab_pull`, once all has been received. -/
def landCollab (L : Linked) (mtime : Option ℕ) (refs : List RefAdvert) (pack : Bytes) :
    SyncSession Digest := do
  let decoded ← ask fun _ => decodePack L.toCrates pack
  act (land L mtime decoded)
  let resolved ← ask fun r => r.resolveCollab L refs
  match collabPeer resolved with
  | none => fail (.storage "collab: peer served no valid profile")
  | some peer => do
      act (fileCollab L mtime (resolved.map Prod.snd))
      pure peer

/-- `collab_pull`. -/
def collabPull (L : Linked) (mtime : Option ℕ) : SyncSession Digest := do
  send (.hello .fetch)
  match ← recv with
  | .welcome refs _ _ => do
      send (.haveWant (refs.map RefAdvert.target) [])
      match ← recv with
      | .pack pack => do
          match ← recv with
          | .done => landCollab L mtime refs pack
          | _ => fail (.storage "collab: expected Done")
      | _ => fail (.storage "collab: expected Pack")
  | .error e => fail (.storage e)
  | _ => fail (.storage "collab: expected Welcome")

/-! ### What is advertised -/

/-- An edge by which the node says that it follows its target. -/
def Followed (L : Linked) (r : Repository) (e : TrustEdge) : Prop :=
  e.kind = .follow ∧ ∃ n ∈ r.refs.list (collabPublicPrefix ++ "edge/"), r.edgeAt L n = .ok (some e)

/-- `n` is a tag that is advertised: a public one, or one of the cache.  Of the cache a relay
advertises everything, and another node what the authors it follows have signed. -/
def AdvertisedTag (L : Linked) (r : Repository) (relay : Bool) (n : RefName) (t : Tag) : Prop :=
  r.refs.get n = some (.tag t) ∧ (n ∈ r.refs.list collabPublicPrefix ∨
    (relay = true ∧ n ∈ r.refs.list collabRemotesPrefix) ∨
    (relay = false ∧ ∃ e, Followed L r e ∧
      n ∈ r.refs.list (collabRemotesPrefix ++ fingerprint L.toCrates e.toKey ++ "/")))

variable {L : Linked} {r : Repository} {relay : Bool}

lemma getTag_eq_some {n : RefName} {t : Tag} :
    r.refs.getTag n = .ok (some t) ↔ r.refs.get n = some (.tag t) := by
  rw [RefStore.getTag]
  split <;> simp_all

lemma mem_tagAdverts {names : List RefName} {refs : List RefAdvert}
    (h : r.tagAdverts names = .ok refs) {ad : RefAdvert} :
    ad ∈ refs ↔ ∃ n ∈ names, ∃ t, r.refs.get n = some (.tag t) ∧ ad = ⟨n, t.target, false⟩ := by
  induction names generalizing refs with
  | nil =>
      cases h
      simp
  | cons name rest ih =>
      rw [tagAdverts, Result.bind_eq_ok] at h
      obtain ⟨tag, htag, h⟩ := h
      cases tag with
      | none =>
          have hno : ∀ t, r.refs.get name ≠ some (.tag t) := fun t ht => by
            rw [getTag_eq_some.mpr ht] at htag
            cases htag
          rw [ih h]
          simp only [List.mem_cons, exists_eq_or_imp, hno, false_and, exists_false, false_or]
      | some t =>
          have hget := getTag_eq_some.mp htag
          obtain ⟨out, hout, h⟩ := Result.bind_eq_ok.mp h
          cases h
          rw [List.mem_cons, ih hout]
          simp only [List.mem_cons, exists_eq_or_imp, hget, Option.some.injEq, Ref.tag.injEq,
            exists_eq_left']

lemma mem_edgesAt {names : List RefName} {edges : List TrustEdge}
    (h : r.edgesAt L names = .ok edges) {e : TrustEdge} :
    e ∈ edges ↔ ∃ n ∈ names, r.edgeAt L n = .ok (some e) := by
  induction names generalizing edges with
  | nil =>
      cases h
      simp
  | cons name rest ih =>
      rw [edgesAt, Result.bind_eq_ok] at h
      obtain ⟨edge, hedge, h⟩ := h
      cases edge with
      | none =>
          rw [ih h]
          simp [hedge]
      | some e' =>
          obtain ⟨out, hout, h⟩ := Result.bind_eq_ok.mp h
          cases h
          rw [List.mem_cons, ih hout]
          simp [hedge, eq_comm]

lemma mem_followAdverts {edges : List TrustEdge} {refs : List RefAdvert}
    (h : r.followAdverts L edges = .ok refs) {ad : RefAdvert} :
    ad ∈ refs ↔ ∃ e ∈ edges, e.kind = .follow ∧
      ∃ n ∈ r.refs.list (collabRemotesPrefix ++ fingerprint L.toCrates e.toKey ++ "/"),
        ∃ t, r.refs.get n = some (.tag t) ∧ ad = ⟨n, t.target, false⟩ := by
  induction edges generalizing refs with
  | nil =>
      cases h
      simp
  | cons e rest ih =>
      rw [followAdverts] at h
      split_ifs at h with hfollow
      · obtain ⟨cached, hcached, h⟩ := Result.bind_eq_ok.mp h
        obtain ⟨out, hout, h⟩ := Result.bind_eq_ok.mp h
        cases h
        rw [List.mem_append, mem_tagAdverts hcached, ih hout]
        simp only [List.mem_cons, exists_eq_or_imp, hfollow, true_and]
      · rw [ih h]
        simp only [List.mem_cons, exists_eq_or_imp, hfollow, false_and, false_or]

/-- **What is advertised**: the public tags, and of the cached ones those in the horizon. -/
lemma mem_collabAdverts {refs : List RefAdvert} (h : r.collabAdverts L relay = .ok refs)
    {ad : RefAdvert} :
    ad ∈ refs ↔ ∃ n t, AdvertisedTag L r relay n t ∧ ad = ⟨n, t.target, false⟩ := by
  rw [collabAdverts, Result.bind_eq_ok] at h
  obtain ⟨own, hown, h⟩ := h
  cases relay with
  | true =>
      obtain ⟨cached, hcached, h⟩ := Result.bind_eq_ok.mp h
      cases h
      rw [List.mem_append, mem_tagAdverts hown, mem_tagAdverts hcached]
      constructor
      · rintro (⟨n, hn, t, ht, rfl⟩ | ⟨n, hn, t, ht, rfl⟩)
        · exact ⟨n, t, ⟨ht, .inl hn⟩, rfl⟩
        · exact ⟨n, t, ⟨ht, .inr (.inl ⟨rfl, hn⟩)⟩, rfl⟩
      · rintro ⟨n, t, ⟨ht, hn | ⟨-, hn⟩ | ⟨hno, -⟩⟩, rfl⟩
        · exact .inl ⟨n, hn, t, ht, rfl⟩
        · exact .inr ⟨n, hn, t, ht, rfl⟩
        · cases hno
  | false =>
      obtain ⟨edges, hedges, h⟩ := Result.bind_eq_ok.mp h
      obtain ⟨cached, hcached, h⟩ := Result.bind_eq_ok.mp h
      cases h
      rw [List.mem_append, mem_tagAdverts hown, mem_followAdverts hcached]
      constructor
      · rintro (⟨n, hn, t, ht, rfl⟩ | ⟨e, he, hkind, n, hn, t, ht, rfl⟩)
        · exact ⟨n, t, ⟨ht, .inl hn⟩, rfl⟩
        · exact ⟨n, t, ⟨ht, .inr (.inr ⟨rfl, e, ⟨hkind, (mem_edgesAt hedges).mp he⟩, hn⟩)⟩, rfl⟩
      · rintro ⟨n, t, ⟨ht, hn | ⟨hno, -⟩ | ⟨-, e, ⟨hkind, he⟩, hn⟩⟩, rfl⟩
        · exact .inl ⟨n, hn, t, ht, rfl⟩
        · cases hno
        · exact .inr ⟨e, (mem_edgesAt hedges).mpr he, hkind, n, hn, t, ht, rfl⟩

/-! ### What is served -/

/-- The advert of a node leads to the object: it is below the target or, for a search, the target
in the bytes that the codec writes of it. -/
def CollabScope (L : Linked) (r : Repository) (relay : Bool) (x : ObjectId) : Prop :=
  ∃ n t, AdvertisedTag L r relay n t ∧ (Closure L r.objects [t.target] x ∨
    ∃ o, r.objects.object L t.target = some (.collab o) ∧ collabId L o = .ok x)

/-- What a pack may hold. -/
def PackWithin (L : Linked) (r : Repository) (S : ObjectId → Prop) (pack : Bytes) : Prop :=
  ∃ objects entries digest, PackBuilder.finish L.toCrates ⟨objects⟩ = .ok (pack, entries, digest) ∧
    ∀ p ∈ objects, r.objects.getRaw L p.1 = .ok (some p.2) ∧ S p.1

lemma mem_searchCorpus {refs : List RefAdvert} {corpus : List CollabObject}
    (h : r.searchCorpus L refs = .ok corpus) {o : CollabObject} (ho : o ∈ corpus) :
    ∃ ad ∈ refs, r.objects.object L ad.target = some (.collab o) := by
  induction refs generalizing corpus with
  | nil =>
      cases h
      cases ho
  | cons ad rest ih =>
      rw [searchCorpus, Result.bind_eq_ok] at h
      obtain ⟨found, hfound, h⟩ := h
      split at h
      · next o' =>
          obtain ⟨out, hout, h⟩ := Result.bind_eq_ok.mp h
          cases h
          rcases List.mem_cons.mp ho with rfl | ho
          · exact ⟨ad, by simp, ObjectStore.object_eq_some.mpr hfound⟩
          · obtain ⟨ad', had', h'⟩ := ih hout ho
            exact ⟨ad', List.mem_cons_of_mem _ had', h'⟩
      · obtain ⟨ad', had', h'⟩ := ih h ho
        exact ⟨ad', List.mem_cons_of_mem _ had', h'⟩

lemma mem_collabIds {objs : List CollabObject} {ids : List ObjectId}
    (h : collabIds L objs = .ok ids) {id : ObjectId} (hid : id ∈ ids) :
    ∃ o ∈ objs, collabId L o = .ok id := by
  induction objs generalizing ids with
  | nil =>
      cases h
      cases hid
  | cons o rest ih =>
      rw [collabIds, Result.bind_eq_ok] at h
      obtain ⟨id', hid', h⟩ := h
      obtain ⟨ids', hids', h⟩ := Result.bind_eq_ok.mp h
      cases h
      rcases List.mem_cons.mp hid with rfl | hid
      · exact ⟨o, by simp, hid'⟩
      · obtain ⟨o', ho', h'⟩ := ih hids' hid
        exact ⟨o', List.mem_cons_of_mem _ ho', h'⟩

/-- The pack that answers a search. -/
lemma searchPack_within {refs : List RefAdvert} (hrefs : r.collabAdverts L relay = .ok refs)
    {term : String} {maxHops : UInt8} {pack : Bytes}
    (h : r.searchPack L refs term maxHops = .ok pack) :
    PackWithin L r (CollabScope L r relay) pack := by
  rw [searchPack, Result.bind_eq_ok] at h
  obtain ⟨corpus, hcorpus, h⟩ := h
  obtain ⟨selected, hselected, h⟩ := Result.bind_eq_ok.mp h
  obtain ⟨ids, hids, h⟩ := Result.bind_eq_ok.mp h
  rw [buildPack, Result.bind_eq_ok] at h
  obtain ⟨objects, hobjects, h⟩ := h
  rw [Result.bind_eq_ok] at h
  obtain ⟨⟨pack', entries, digest⟩, hfinish, h⟩ := h
  cases h
  refine ⟨objects, entries, digest, hfinish, fun p hp => ?_⟩
  obtain ⟨hmem, hraw⟩ := (packObjects_ok hobjects p).mp hp
  obtain ⟨o, ho, hid⟩ := mem_collabIds hids hmem
  obtain ⟨ad, had, hobj⟩ := mem_searchCorpus hcorpus (searchBall_subset hselected ho)
  obtain ⟨n, t, ht, rfl⟩ := (mem_collabAdverts hrefs).mp had
  exact ⟨hraw, n, t, ht, .inr ⟨o, hobj, hid⟩⟩

/-- The pack that answers a fetch. -/
lemma servePack_within {refs : List RefAdvert} (hrefs : r.collabAdverts L relay = .ok refs)
    {want have_ : List ObjectId} {pack : Bytes} (h : r.servePack L refs want have_ = .ok pack) :
    PackWithin L r (CollabScope L r relay) pack := by
  obtain ⟨objects, entries, digest, hfinish, hobjects⟩ := servePack_objects h
  refine ⟨objects, entries, digest, hfinish, fun p hp => ?_⟩
  obtain ⟨⟨hreach, -⟩, hraw⟩ := (hobjects p).mp hp
  obtain ⟨y, hy, hclosure⟩ := closure_of_root hreach
  have hauth : y ∈ refs.map RefAdvert.target := by simpa using (List.mem_filter.mp hy).2
  obtain ⟨ad, had, rfl⟩ := List.mem_map.mp hauth
  obtain ⟨n, t, ht, rfl⟩ := (mem_collabAdverts hrefs).mp had
  exact ⟨hraw, n, t, ht, .inl hclosure⟩

/-- What the endpoint may send: the adverts, and packs within the scope. -/
def CollabSends (L : Linked) (r : Repository) (relay : Bool) : Message → Prop
  | .welcome refs _ _ =>
      ∀ ad, ad ∈ refs ↔ ∃ n t, AdvertisedTag L r relay n t ∧ ad = ⟨n, t.target, false⟩
  | .pack pack => PackWithin L r (CollabScope L r relay) pack
  | .done => True
  | .error _ => True
  | _ => False

lemma serveCollabTo_tells (relaySigner : Option (Bytes → Bytes)) (clientNonce : Option Digest) :
    Tells (· = r) (CollabSends L r relay) (serveCollabTo L relay relaySigner clientNonce) := by
  refine .ask_bind fun w refs hw hrefs => ?_
  subst hw
  refine .bind (.send fun ad => mem_collabAdverts hrefs) fun _ => .bind .recv fun m => ?_
  split
  · refine .ask_bind fun w pack hw hpack => ?_
    subst hw
    exact .bind (.send (servePack_within hrefs hpack)) fun _ => .send trivial
  · split_ifs
    · exact .send trivial
    · refine .ask_bind fun w pack hw hpack => ?_
      subst hw
      exact .bind (.send (searchPack_within hrefs hpack)) fun _ => .send trivial
  · exact .fail _

lemma serveCollab_tells (relaySigner : Option (Bytes → Bytes)) :
    Tells (· = r) (CollabSends L r relay) (serveCollab L relay relaySigner) := by
  refine .bind .recv fun m => ?_
  split
  · exact serveCollabTo_tells _ _
  · exact serveCollabTo_tells _ _
  · exact .bind (.send trivial) fun _ => .fail _
  · exact .bind (.send trivial) fun _ => .fail _

/-- Every advertised tag points at a collaboration object, in the bytes that the codec writes. -/
def CollabPlain (L : Linked) (r : Repository) (relay : Bool) : Prop :=
  ∀ n t, AdvertisedTag L r relay n t →
    ∃ o, r.objects.object L t.target = some (.collab o) ∧ collabId L o = .ok t.target

/-- Nothing is below a collaboration object. -/
lemma CollabScope.target {x : ObjectId} (hplain : CollabPlain L r relay)
    (h : CollabScope L r relay x) : ∃ n t, AdvertisedTag L r relay n t ∧ t.target = x := by
  obtain ⟨n, t, ht, hx⟩ := h
  obtain ⟨o, hobj, hid⟩ := hplain n t ht
  refine ⟨n, t, ht, ?_⟩
  rcases hx with hclosure | ⟨o', hobj', hid'⟩
  · induction hclosure with
    | root hy _ => exact (List.mem_singleton.mp hy).symm
    | step _ hy _ ih =>
        rw [← ih, outEdges_of_object hobj] at hy
        cases hy
  · rw [hobj] at hobj'
    cases hobj'
    exact Except.ok.inj (hid.symm.trans hid')

/-- **The scope of the collaboration endpoint.**  Whatever the client says: the refs that are
advertised are the public tags and those of the cache in the horizon, and every object that is
sent is below one of them or, for a search, one of them as the codec writes it.  If the tags point
at collaboration objects as the codec writes them, every object that is sent is one of these. -/
theorem serveCollab_scope (L : Linked) (r : Repository) (relay : Bool)
    (relaySigner : Option (Bytes → Bytes)) (client : Peer Message Error) (m : Message)
    (hm : m ∈ (serveCollab L relay relaySigner client (.start r)).2.sent) :
    CollabSends L r relay m ∧ (CollabPlain L r relay → ∀ pack, m = .pack pack →
      PackWithin L r (fun x => ∃ n t, AdvertisedTag L r relay n t ∧ t.target = x) pack) := by
  have hsent : CollabSends L r relay m := by
    have htells := (serveCollab_tells relaySigner client (.start r) rfl).2 m hm
    simpa [Stage.start] using htells
  refine ⟨hsent, ?_⟩
  rintro hplain pack rfl
  obtain ⟨objects, entries, digest, hfinish, hobjects⟩ := hsent
  refine ⟨objects, entries, digest, hfinish, fun p hp => ?_⟩
  exact ⟨(hobjects p hp).1, (hobjects p hp).2.target hplain⟩

/-- A snapshot under a public name. -/
def collabTagged : Repository :=
  { pushRepo with
    refs := ⟨(∅ : BTreeMap RefName Ref).insert ⟨"refs/collab/public/x", by decide +kernel⟩
      (.tag ⟨pushId 4, 0, none⟩)⟩ }

/-- A client that wants what it was shown. -/
def collabClient : Peer Message Error :=
  scripted (.storage "connection closed") [.hello .fetch, .haveWant [pushId 4] []]

/-- The messages that it gets. -/
def collabSent : List Message :=
  (serveCollab pushLinked false none collabClient (.start collabTagged)).2.sent

/-- The objects in the pack that it gets. -/
def collabGot : List (ObjectId × Bytes) :=
  match collabSent with
  | [_, .pack pack, _] => (decodePack pushLinked.toCrates pack).toOption.getD []
  | _ => []

lemma collabSent_pack : (∃ pack, .pack pack ∈ collabSent ∧
      decodePack pushLinked.toCrates pack = .ok collabGot) ∧ ∃ p ∈ collabGot, p.1 = pushId 2 := by
  have hrun : collabSent.any (fun m =>
      match m with
      | .pack pack => decide (decodePack pushLinked.toCrates pack = .ok collabGot)
      | _ => false) = true ∧ (collabGot.map Prod.fst).contains (pushId 2) = true := by
    decide +kernel
  refine ⟨?_, List.mem_map.mp (List.contains_iff_mem.mp hrun.2)⟩
  obtain ⟨m, hm, hdecode⟩ := List.any_eq_true.mp hrun.1
  cases m with
  | pack pack => exact ⟨pack, hm, of_decide_eq_true hdecode⟩
  | _ => cases hdecode

/-- **Below a target.**  The tree of the tagged snapshot is sent, and no tag points at it. -/
theorem serveCollab_below :
    ¬ ∀ (L : Linked) (r : Repository) (relay : Bool) (relaySigner : Option (Bytes → Bytes))
      (client : Peer Message Error) (refs : List RefAdvert) (pack : Bytes)
      (decoded : List (ObjectId × Bytes)), r.collabAdverts L relay = .ok refs →
      .pack pack ∈ (serveCollab L relay relaySigner client (.start r)).2.sent →
      decodePack L.toCrates pack = .ok decoded →
      ∀ p ∈ decoded, ∃ ad ∈ refs, ad.target = p.1 := by
  intro h
  have hrefs : collabTagged.collabAdverts pushLinked false =
      .ok [⟨⟨"refs/collab/public/x", by decide +kernel⟩, pushId 4, false⟩] := by
    decide +kernel
  obtain ⟨⟨pack, hpack, hdecode⟩, p, hp, hid⟩ := collabSent_pack
  obtain ⟨ad, had, ht⟩ := h pushLinked collabTagged false none collabClient _ pack collabGot
    hrefs hpack hdecode p hp
  have hne : pushId 4 ≠ pushId 2 := by decide +kernel
  rw [List.mem_singleton.mp had, hid] at ht
  exact hne ht

/-- What is sent of the tagged snapshot is below the tag. -/
theorem serveCollab_scope_tagged : ∃ pack, .pack pack ∈ collabSent ∧
    PackWithin pushLinked collabTagged (CollabScope pushLinked collabTagged false) pack := by
  obtain ⟨⟨pack, hpack, -⟩, -⟩ := collabSent_pack
  exact ⟨pack, hpack,
    (serveCollab_scope pushLinked collabTagged false none collabClient _ hpack).1⟩

end Repository

end Bole
