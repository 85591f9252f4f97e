import Bole.Collab.MultiRelay
import Bole.Repo.CollabSystem
import Bole.Sync.Agreement
import Bole.Sync.Serving

/-!
Searching relays for strangers: `collab_fetch_transient`, `collab_fetch_authenticated`,
`collab_search`, `collab_search_authenticated` and `query_relay_set` of `src/sync/collab.rs`,
against any peers and against relays that run `serve_collab`.

* `collabSearchAuthenticated_sound`: what comes from a peer verifies, and the term is told to no
  peer that has not signed the nonce of the session;
* `queryRelaySet_sound`: **every hit is a verified profile from relays that have signed**, and its
  path is made of own edges and verified ones;
* `searchRelay_run`: the answer of an honest relay;
* `collabSearch_ranks`: **a search at one relay ranks as everything that it has would**;
* `queryRelaySet_eq`: the sessions with the pinned relays compute the ranking over the searches of
  their corpora.
-/

namespace Bole

open Talk Repository

/-- A party of a session that keeps nothing. -/
abbrev RelaySession := Session Unit Message Error

/-! ### The client -/

section Client

open Talk.Session

/-- The loop over a pack: the collaboration objects that verify. -/
def verifiedObjects (L : Linked) : List (ObjectId × Bytes) → List CollabObject
  | [] => []
  | o :: rest =>
      match L.codec.deserialize o.2 with
      | .ok (.collab obj) =>
          if verifiedCollab L obj then obj :: verifiedObjects L rest else verifiedObjects L rest
      | _ => verifiedObjects L rest

/-- The end of a transient fetch, once the pack is there. -/
def receiveVerified (L : Linked) (pack : Bytes) : RelaySession (List CollabObject) := do
  match ← recv with
  | .done => do
      let decoded ← ask fun _ => decodePack L.toCrates pack
      pure (verifiedObjects L decoded)
  | _ => fail (.storage "collab: expected Done")

/-- The whole-aggregate exchange after the welcome. -/
def fetchAggregate (L : Linked) (refs : List RefAdvert) : RelaySession (List CollabObject) := do
  send (.haveWant (refs.map RefAdvert.target) [])
  match ← recv with
  | .pack pack => receiveVerified L pack
  | _ => fail (.storage "collab: expected Pack")

/-- `CapSet::contains`. -/
def capsContain (caps other : ℕ) : Bool := decide (other ≠ 0 ∧ caps &&& other = other)

/-- `search_or_fallback`. -/
def searchOrFallback (L : Linked) (negotiated : ℕ) (refs : List RefAdvert) (term : String)
    (maxHops : UInt8) : RelaySession (List CollabObject) := do
  send (if capsContain negotiated capSearch then .search term maxHops
    else .haveWant (refs.map RefAdvert.target) [])
  match ← recv with
  | .pack pack => receiveVerified L pack
  | .error e => fail (.storage e)
  | _ => fail (.storage "collab: expected Pack")

/-- The possession proof of a pinned relay. -/
def checkRelay (L : Linked) (pinnedKey nonce : Digest) : Option Bytes → Result Unit
  | none => .error (.storage "relay did not authenticate")
  | some sig =>
      if verifyRelayChallenge L pinnedKey nonce sig then .ok ()
      else .error (.storage "relay auth signature invalid")

/-- `collab_fetch_transient`. -/
def collabFetchTransient (L : Linked) : RelaySession (List CollabObject) := do
  send (.hello .fetch)
  match ← recv with
  | .welcome refs _ _ => fetchAggregate L refs
  | .error e => fail (.storage e)
  | _ => fail (.storage "collab: expected Welcome")

/-- `collab_fetch_authenticated`, with the nonce that it draws. -/
def collabFetchAuthenticated (L : Linked) (nonce pinnedKey : Digest) :
    RelaySession (List CollabObject) := do
  send (.hello .fetch (some nonce))
  match ← recv with
  | .welcome refs _ sig => do
      ask fun _ => checkRelay L pinnedKey nonce sig
      fetchAggregate L refs
  | .error e => fail (.storage e)
  | _ => fail (.storage "collab: expected Welcome")

/-- `collab_search`. -/
def collabSearch (L : Linked) (term : String) (maxHops : UInt8) :
    RelaySession (List CollabObject) := do
  send (.hello .fetch)
  match ← recv with
  | .welcome refs caps _ => searchOrFallback L (capSearch &&& caps) refs term maxHops
  | .error e => fail (.storage e)
  | _ => fail (.storage "collab: expected Welcome")

/-- `collab_search_authenticated`, with the nonce that it draws. -/
def collabSearchAuthenticated (L : Linked) (nonce pinnedKey : Digest) (term : String)
    (maxHops : UInt8) : RelaySession (List CollabObject) := do
  send (.hello .fetch (some nonce))
  match ← recv with
  | .welcome refs caps sig => do
      ask fun _ => checkRelay L pinnedKey nonce sig
      searchOrFallback L (capSearch &&& caps) refs term maxHops
  | .error e => fail (.storage e)
  | _ => fail (.storage "collab: expected Welcome")

end Client

/-- A pinned relay that is asked: the peer at its endpoint, if it is reached, and the nonce of the
session. -/
structure Dialed where
  pin : RelayPin
  peer : Option (Peer Message Error)
  nonce : Digest

/-- The session with a relay that is reached. -/
def Dialed.answer (L : Linked) (term : String) (maxHops : UInt8) (d : Dialed) :
    Option (Digest × List CollabObject) :=
  match d.peer with
  | none => none
  | some peer =>
      match (collabSearchAuthenticated L d.nonce d.pin.key term maxHops peer (.start ())).1 with
      | .ok objs => some (d.pin.key, objs)
      | .error _ => none

/-- `query_relay_set`: a relay that is not reached or that fails is skipped. -/
def queryRelaySet (L : Linked) (selfKey : Digest) (ownEdges : List TrustEdge)
    (relays : List Dialed) (term : String) (maxHops : UInt8) : Result (List StrangerHit) :=
  rankStrangersMulti L selfKey ownEdges (relays.filterMap (Dialed.answer L term maxHops)) term
    maxHops

/-! ### Against any peers -/

section Soundness

variable {L : Linked} {term : String} {maxHops : UInt8}

lemma verifiedObjects_verify (objects : List (ObjectId × Bytes)) :
    ∀ o ∈ verifiedObjects L objects, verifiedCollab L o = true := by
  induction objects with
  | nil => simp [verifiedObjects]
  | cons x rest ih =>
      rw [verifiedObjects]
      split
      · next obj _ =>
          split_ifs with hverify
          · exact List.forall_mem_cons.mpr ⟨hverify, ih⟩
          · exact ih
      · exact ih

lemma receiveVerified_gives (pack : Bytes) :
    Session.Gives (fun objs => ∀ o ∈ objs, verifiedCollab L o = true) (receiveVerified L pack) := by
  refine .bind fun m => ?_
  split
  · exact .bind fun decoded => .ret (verifiedObjects_verify decoded)
  · exact .fail _

lemma searchOrFallback_gives (negotiated : ℕ) (refs : List RefAdvert) :
    Session.Gives (fun objs => ∀ o ∈ objs, verifiedCollab L o = true)
      (searchOrFallback L negotiated refs term maxHops) := by
  refine .bind fun _ => .bind fun m => ?_
  split
  · exact receiveVerified_gives _
  · exact .fail _
  · exact .fail _

/-- The peer has signed the nonce of the session with the pinned key. -/
def ProvesKey (L : Linked) (pinnedKey nonce : Digest) (peer : Peer Message Error) : Prop :=
  ∃ refs caps sig, peer.recv [.hello .fetch (some nonce)] 0 = .ok (.welcome refs caps (some sig)) ∧
    verifyRelayChallenge L pinnedKey nonce sig = true

variable {pinnedKey nonce : Digest} {peer : Peer Message Error}

/-- Without the proof, a session with a pinned relay ends with an error after the hello. -/
lemma collabSearchAuthenticated_cases (L : Linked) (nonce pinnedKey : Digest) (term : String)
    (maxHops : UInt8) (peer : Peer Message Error) :
    ProvesKey L pinnedKey nonce peer ∨
      (∃ e, (collabSearchAuthenticated L nonce pinnedKey term maxHops peer (.start ())).1 =
        .error e) ∧
      (collabSearchAuthenticated L nonce pinnedKey term maxHops peer (.start ())).2.sent ⊆
        [.hello .fetch (some nonce)] := by
  rw [collabSearchAuthenticated]
  simp only [Session.bind_apply, Session.send, Session.recv, Stage.start]
  cases peer.send [] (.hello .fetch (some nonce)) with
  | error e => exact .inr ⟨⟨e, rfl⟩, List.nil_subset _⟩
  | ok u =>
      simp only [List.nil_append]
      cases hwelcome : peer.recv [.hello .fetch (some nonce)] 0 with
      | error e => exact .inr ⟨⟨e, rfl⟩, List.Subset.refl _⟩
      | ok m =>
          cases m with
          | welcome refs caps sig =>
              cases sig with
              | none => exact .inr ⟨⟨_, rfl⟩, List.Subset.refl _⟩
              | some sig =>
                  cases hverify : verifyRelayChallenge L pinnedKey nonce sig with
                  | true => exact .inl ⟨refs, caps, sig, hwelcome, hverify⟩
                  | false =>
                      refine .inr ?_
                      simp [Session.ask, checkRelay, hverify]
          | _ => exact .inr ⟨⟨_, rfl⟩, List.Subset.refl _⟩

/-- What a session with a pinned relay returns. -/
lemma collabSearchAuthenticated_ok {objs : List CollabObject}
    (h : (collabSearchAuthenticated L nonce pinnedKey term maxHops peer (.start ())).1 = .ok objs) :
    ProvesKey L pinnedKey nonce peer ∧ ∀ o ∈ objs, verifiedCollab L o = true := by
  have hgives : Session.Gives (fun objs => ∀ o ∈ objs, verifiedCollab L o = true)
      (collabSearchAuthenticated L nonce pinnedKey term maxHops) := by
    refine .bind fun _ => .bind fun m => ?_
    split
    · exact .bind fun _ => searchOrFallback_gives _ _
    · exact .fail _
    · exact .fail _
  refine ⟨?_, hgives peer _ objs h⟩
  rcases collabSearchAuthenticated_cases L nonce pinnedKey term maxHops peer with hproves | ⟨⟨e, he⟩, -⟩
  · exact hproves
  · rw [he] at h
    cases h

/-- **A session with a pinned relay**, whatever the peer is.  All that it returns verifies; and
unless the peer has proved the pinned key, it returns nothing and the peer has heard no more than
the hello. -/
theorem collabSearchAuthenticated_sound (L : Linked) (nonce pinnedKey : Digest) (term : String)
    (maxHops : UInt8) (peer : Peer Message Error) :
    (∀ objs, (collabSearchAuthenticated L nonce pinnedKey term maxHops peer (.start ())).1 =
      .ok objs → ProvesKey L pinnedKey nonce peer ∧ ∀ o ∈ objs, verifiedCollab L o = true) ∧
    ∀ m ∈ (collabSearchAuthenticated L nonce pinnedKey term maxHops peer (.start ())).2.sent,
      m = .hello .fetch (some nonce) ∨ ProvesKey L pinnedKey nonce peer := by
  refine ⟨fun objs => collabSearchAuthenticated_ok, fun m hm => ?_⟩
  rcases collabSearchAuthenticated_cases L nonce pinnedKey term maxHops peer with hproves | ⟨-, hsent⟩
  · exact .inr hproves
  · exact .inl (List.mem_singleton.mp (hsent hm))

end Soundness

/-! ### The hits -/

/-- What is merged comes from the relays: the profiles and the edges are served, and a key is
attributed to relays that serve a profile of it. -/
structure Merged.From (profiles : List (Digest × Profile)) (edges : List TrustEdge) (s : Merged) :
    Prop where
  best : ∀ (k : Digest) p, s.best[k]? = some p → p.key = k ∧ (∃ relay, (relay, p) ∈ profiles) ∧
    s.servedBy[k]?.getD ∅ ≠ ∅
  servedBy : ∀ (k : Digest) relay, relay ∈ s.servedBy[k]?.getD ∅ → Serves profiles k relay
  edges : ∀ (id : ObjectId) e, s.edges[id]? = some e → e ∈ edges

section Hits

variable {L : Linked} {profiles : List (Digest × Profile)} {edges : List TrustEdge}

/-- One more object of the relays. -/
lemma Merged.From.mergeObject {s s' : Merged} (h : s.From profiles edges) {relay : Digest}
    {o : CollabObject} (hprofile : ∀ p, o = .profile p → (relay, p) ∈ profiles)
    (hedge : ∀ e, o = .trustEdge e → e ∈ edges) (hrun : mergeObject L relay s o = .ok s') :
    s'.From profiles edges := by
  cases o with
  | trustEdge e =>
      rw [Bole.mergeObject] at hrun
      split at hrun
      · cases hrun
      · split_ifs at hrun
        · cases hrun
          exact h
        · cases hrun
          refine ⟨h.best, h.servedBy, fun id' e' he' => ?_⟩
          rw [Std.ExtTreeMap.getElem?_insert] at he'
          split_ifs at he'
          · cases he'
            exact hedge e rfl
          · exact h.edges id' e' he'
  | profile p =>
      have hserves := hprofile p rfl
      have hby : ∀ k : Digest,
          (s.servedBy.alter p.key fun set => some ((set.getD ∅).insert relay))[k]?.getD ∅ =
            if p.key = k then (s.servedBy[k]?.getD ∅).insert relay else s.servedBy[k]?.getD ∅ := by
        intro k
        rw [Std.ExtTreeMap.getElem?_alter]
        by_cases hk : p.key = k
        · subst hk
          simp
        · have hcmp : compare p.key k ≠ .eq := fun h => hk (Std.LawfulEqOrd.eq_of_compare h)
          rw [if_neg hcmp, if_neg hk]
      have hnonempty : ∀ k : Digest, s.servedBy[k]?.getD ∅ ≠ ∅ ∨ p.key = k →
          (s.servedBy.alter p.key fun set => some ((set.getD ∅).insert relay))[k]?.getD ∅ ≠ ∅ := by
        intro k hk
        rw [hby]
        split_ifs with hkey
        · exact Std.ExtTreeSet.insert_ne_empty
        · exact hk.resolve_right hkey
      have hservedBy : ∀ (k : Digest) r,
          r ∈ (s.servedBy.alter p.key fun set => some ((set.getD ∅).insert relay))[k]?.getD ∅ →
            Serves profiles k r := by
        intro k r hr
        rw [hby] at hr
        split_ifs at hr with hkey
        · rcases Std.ExtTreeSet.mem_insert.mp hr with heq | hr
          · rw [← Std.LawfulEqOrd.eq_of_compare heq]
            exact ⟨p, hserves, hkey⟩
          · exact h.servedBy k r hr
        · exact h.servedBy k r hr
      have hbest : ∀ (k : Digest) q, (s.best.insert p.key p)[k]? = some q → q.key = k ∧
          (∃ relay, (relay, q) ∈ profiles) ∧ (s.servedBy[k]?.getD ∅ ≠ ∅ ∨ p.key = k) := by
        intro k q hq
        rw [Std.ExtTreeMap.getElem?_insert] at hq
        split_ifs at hq with hcmp
        · cases hq
          have hkey := Std.LawfulEqOrd.eq_of_compare hcmp
          exact ⟨hkey, ⟨relay, hserves⟩, .inr hkey⟩
        · obtain ⟨hkey, hserved, hne⟩ := h.best k q hq
          exact ⟨hkey, hserved, .inl hne⟩
      have hnew : Merged.From profiles edges ⟨s.best.insert p.key p,
          s.servedBy.alter p.key fun set => some ((set.getD ∅).insert relay), s.edges⟩ :=
        ⟨fun k q hq => ⟨(hbest k q hq).1, (hbest k q hq).2.1, hnonempty k (hbest k q hq).2.2⟩,
          hservedBy, h.edges⟩
      rw [Bole.mergeObject] at hrun
      split at hrun
      · split_ifs at hrun
        · cases hrun
          exact ⟨fun k q hq => ⟨(h.best k q hq).1, (h.best k q hq).2.1,
            hnonempty k (.inl (h.best k q hq).2.2)⟩, hservedBy, h.edges⟩
        · cases hrun
          exact hnew
      · cases hrun
        exact hnew

/-- The corpus of one relay. -/
lemma Merged.From.mergeCorpus {s s' : Merged} (h : s.From profiles edges) {relay : Digest}
    {corpus : List CollabObject} (hprofiles : ∀ p, .profile p ∈ corpus → (relay, p) ∈ profiles)
    (hedges : ∀ e, .trustEdge e ∈ corpus → e ∈ edges)
    (hrun : corpus.foldlM (Bole.mergeObject L relay) s = .ok s') : s'.From profiles edges := by
  induction corpus generalizing s with
  | nil =>
      cases hrun
      exact h
  | cons o corpus ih =>
      rw [List.foldlM_cons, Result.bind_eq_ok] at hrun
      obtain ⟨s₁, hone, hrest⟩ := hrun
      exact ih (h.mergeObject (fun p hp => hprofiles p (by simp [hp]))
          (fun e he => hedges e (by simp [he])) hone)
        (fun p hp => hprofiles p (List.mem_cons_of_mem _ hp))
        (fun e he => hedges e (List.mem_cons_of_mem _ he)) hrest

/-- The corpora of all relays. -/
lemma mergeRelays_from {perRelay : List (Digest × List CollabObject)} {s : Merged}
    (h : mergeRelays L perRelay = .ok s) :
    s.From (servedProfiles perRelay) (servedEdges perRelay) := by
  have hfold : ∀ {rs : List (Digest × List CollabObject)} {s s' : Merged}, rs ⊆ perRelay →
      s.From (servedProfiles perRelay) (servedEdges perRelay) →
      rs.foldlM (fun s r => r.2.foldlM (mergeObject L r.1) s) s = .ok s' →
      s'.From (servedProfiles perRelay) (servedEdges perRelay) := by
    intro rs
    induction rs with
    | nil =>
        rintro s s' - hs ⟨⟩
        exact hs
    | cons r rs ih =>
        intro s s' hsub hs hrun
        rw [List.foldlM_cons, Result.bind_eq_ok] at hrun
        obtain ⟨s₁, hone, hrest⟩ := hrun
        obtain ⟨hr, hrs⟩ := List.cons_subset.mp hsub
        refine ih hrs (hs.mergeCorpus (fun p hp => ?_) (fun e he => ?_) hone) hrest
        · exact List.mem_flatMap.mpr ⟨r, hr, List.mem_map_of_mem
            (List.mem_filterMap.mpr ⟨_, hp, rfl⟩)⟩
        · exact List.mem_flatMap.mpr ⟨r, hr, mem_corpusEdges.mpr he⟩
  have hempty : Merged.From (servedProfiles perRelay) (servedEdges perRelay) ⟨∅, ∅, ∅⟩ :=
    ⟨by simp, by simp, by simp⟩
  exact hfold (List.Subset.refl _) hempty h

/-- A relay that is counted in the ranking: it has proved its key, and all it has served
verifies. -/
lemma Dialed.answer_sound {d : Dialed} {term : String} {maxHops : UInt8}
    {r : Digest × List CollabObject} (h : d.answer L term maxHops = some r) :
    r.1 = d.pin.key ∧ (∃ peer, d.peer = some peer ∧ ProvesKey L d.pin.key d.nonce peer) ∧
      ∀ o ∈ r.2, verifiedCollab L o = true := by
  rw [answer] at h
  split at h
  · cases h
  · next peer hpeer =>
      split at h
      · next objs hobjs =>
          cases h
          obtain ⟨hproves, hverified⟩ := collabSearchAuthenticated_ok hobjs
          exact ⟨rfl, ⟨peer, hpeer, hproves⟩, hverified⟩
      · cases h

/-- **What a search over the pinned relays can return**, whatever the relays are.  A hit is a
profile that verifies and matches, and is attributed to at least one relay, all of which have proved
their keys; the path to it goes along own edges and edges that verify. -/
theorem queryRelaySet_sound {selfKey : Digest} {ownEdges : List TrustEdge} {relays : List Dialed}
    {term : String} {maxHops : UInt8} {hits : List StrangerHit}
    (h : queryRelaySet L selfKey ownEdges relays term maxHops = .ok hits) {hit : StrangerHit}
    (hhit : hit ∈ hits) :
    (∃ p : Profile, p.key = hit.key ∧ p.displayName = hit.displayName ∧ verifyProfile L p = true ∧
      profileMatches p term = true) ∧
    hit.relays ≠ [] ∧
    (∀ k ∈ hit.relays, ∃ d ∈ relays, d.pin.key = k ∧
      ∃ peer, d.peer = some peer ∧ ProvesKey L k d.nonce peer) ∧
    ∀ hops, hit.trustPath = some hops → hops.length ≤ maxHops.toNat ∧
      ∃ g : TrustGraph, (∀ e ∈ g.edges, e ∈ ownEdges ∨ verifyEdge L e = true) ∧
        g.Trail selfKey hops hit.key := by
  rw [queryRelaySet, rankStrangersMulti] at h
  split at h
  · cases h
  · next s hs =>
      cases h
      have hfrom := mergeRelays_from hs
      have hserved : ∀ r ∈ relays.filterMap (Dialed.answer L term maxHops), ∃ d ∈ relays,
          r.1 = d.pin.key ∧ (∃ peer, d.peer = some peer ∧ ProvesKey L d.pin.key d.nonce peer) ∧
            ∀ o ∈ r.2, verifiedCollab L o = true := by
        intro r hr
        obtain ⟨d, hd, hanswer⟩ := List.mem_filterMap.mp hr
        exact ⟨d, hd, Dialed.answer_sound hanswer⟩
      simp only [rankStrangers, List.mem_map, List.mem_mergeSort] at hhit
      obtain ⟨_, ⟨p, hp, rfl⟩, rfl⟩ := hhit
      rw [withRelays_strangerHit]
      obtain ⟨hbest, hmatch⟩ : s.best[p.key]? = some p ∧ profileMatches p term = true := by
        simp only [strangers_merged, Std.ExtTreeMap.toList_filter, List.mem_map, List.mem_filter,
          Std.ExtTreeMap.mem_toList_iff_getElem?_eq_some, Prod.exists, exists_eq_right] at hp
        obtain ⟨k, hk, hm⟩ := hp
        obtain ⟨rfl, -, -⟩ := hfrom.best k p hk
        exact ⟨hk, hm⟩
      obtain ⟨-, ⟨relay, hprofile⟩, hne⟩ := hfrom.best p.key p hbest
      refine ⟨⟨p, rfl, rfl, ?_, hmatch⟩, ?_, fun k hk => ?_, fun hops hhops => ?_⟩
      · obtain ⟨r, hr, hmem⟩ := List.mem_flatMap.mp hprofile
        obtain ⟨p', hp', heq⟩ := List.mem_map.mp hmem
        cases heq
        obtain ⟨o, ho, hop⟩ := List.mem_filterMap.mp hp'
        obtain rfl := CollabObject.profile?_eq_some.mp hop
        obtain ⟨d, -, -, -, hverified⟩ := hserved r hr
        exact hverified _ ho
      · exact fun hnil => hne (Std.ExtTreeSet.toList_eq_nil_iff.mp hnil)
      · obtain ⟨q, hq, -⟩ := hfrom.servedBy p.key k (Std.ExtTreeSet.mem_toList.mp hk)
        obtain ⟨r, hr, hmem⟩ := List.mem_flatMap.mp hq
        obtain ⟨q', -, heq⟩ := List.mem_map.mp hmem
        cases heq
        obtain ⟨d, hd, hkey, hproves, -⟩ := hserved r hr
        exact ⟨d, hd, hkey.symm, hkey ▸ hproves⟩
      · have hfirst := TrustGraph.trustPath_eq_some_iff.mp hhops
        refine ⟨hfirst.bounded, _, fun e he => ?_, hfirst.trail⟩
        refine (List.mem_append.mp he).imp_right fun he => ?_
        rw [corpusEdges_merged] at he
        obtain ⟨⟨id, e⟩, hentry, rfl⟩ := List.mem_map.mp he
        have hedge := hfrom.edges id e (Std.ExtTreeMap.mem_toList_iff_getElem?_eq_some.mp hentry)
        obtain ⟨r, hr, hmem⟩ := List.mem_flatMap.mp hedge
        obtain ⟨d, -, -, -, hverified⟩ := hserved r hr
        exact hverified _ (mem_corpusEdges.mp hmem)

end Hits

/-! ### Against a relay that runs `serve_collab` -/

/-- A relay at the other end of a connection. -/
def relayPeer (L : Linked) (signer : Bytes → Bytes) (r : Repository) : Peer Message Error :=
  Session.served connectionClosed (serveCollab L true (some signer)) r

section Relay

variable {L : Linked} {signer : Bytes → Bytes} {r : Repository} {refs : List RefAdvert}
  {term : String} {maxHops : UInt8} {pack : Bytes} {nonce : Option Digest}

lemma relayPeer_welcome (hrefs : r.collabAdverts L true = .ok refs) :
    (relayPeer L signer r).recv [.hello .fetch nonce] 0 =
      .ok (.welcome refs capSearch (nonce.map fun n => signer (relayChallengeMessage n))) := by
  cases nonce <;>
    simp [relayPeer, Session.served, serveCollab, serveCollabTo, Session.recv, Session.scripted,
      Session.ask, Session.send, Stage.start, hrefs]

/-- The answer to a search. -/
lemma relayPeer_search (signer : Bytes → Bytes) (nonce : Option Digest)
    (hrefs : r.collabAdverts L true = .ok refs)
    (hterm : minSearchTermLen ≤ term.utf8ByteSize)
    (hpack : r.searchPack L refs term maxHops = .ok pack) :
    (relayPeer L signer r).recv [.hello .fetch nonce, .search term maxHops] 1 = .ok (.pack pack) ∧
      (relayPeer L signer r).recv [.hello .fetch nonce, .search term maxHops] 2 = .ok .done := by
  have hlong : ¬ term.utf8ByteSize < minSearchTermLen := not_lt.mpr hterm
  cases nonce <;>
    simp [relayPeer, Session.served, serveCollab, serveCollabTo, Session.recv, Session.scripted,
      Session.ask, Session.send, Stage.start, hrefs, hlong, hpack]

lemma searchOrFallback_relay (signer : Bytes → Bytes) (nonce : Option Digest)
    (hrefs : r.collabAdverts L true = .ok refs)
    (hterm : minSearchTermLen ≤ term.utf8ByteSize)
    (hpack : r.searchPack L refs term maxHops = .ok pack) :
    (searchOrFallback L (capSearch &&& capSearch) refs term maxHops (relayPeer L signer r)
      ⟨(), [.hello .fetch nonce], 1⟩).1 =
      (decodePack L.toCrates pack).map (verifiedObjects L) := by
  obtain ⟨hanswer, hdone⟩ := relayPeer_search signer nonce hrefs hterm hpack
  have hcaps : capsContain (capSearch &&& capSearch) capSearch = true := by decide
  have hsend : ∀ l m, (relayPeer L signer r).send l m = .ok () := fun _ _ => rfl
  simp only [searchOrFallback, Session.bind_apply, Session.send, Session.recv, hcaps, if_true,
    hsend, List.cons_append, List.nil_append, hanswer, receiveVerified, hdone, Session.ask]
  cases decodePack L.toCrates pack <;> rfl

/-- **A session with a relay**, with and without the proof of its key. -/
lemma searchRelay_run (signer : Bytes → Bytes) (hrefs : r.collabAdverts L true = .ok refs)
    (hterm : minSearchTermLen ≤ term.utf8ByteSize)
    (hpack : r.searchPack L refs term maxHops = .ok pack) :
    (collabSearch L term maxHops (relayPeer L signer r) (.start ())).1 =
        (decodePack L.toCrates pack).map (verifiedObjects L) ∧
      ∀ key n, verifyRelayChallenge L key n (signer (relayChallengeMessage n)) = true →
        (collabSearchAuthenticated L n key term maxHops (relayPeer L signer r) (.start ())).1 =
          (decodePack L.toCrates pack).map (verifiedObjects L) := by
  have hsend : ∀ l m, (relayPeer L signer r).send l m = .ok () := fun _ _ => rfl
  refine ⟨?_, fun key n hsign => ?_⟩
  · rw [← searchOrFallback_relay signer none hrefs hterm hpack]
    simp only [collabSearch, Session.bind_apply, Session.send, Session.recv, Stage.start, hsend,
      List.nil_append, relayPeer_welcome hrefs]
  · rw [← searchOrFallback_relay signer (some n) hrefs hterm hpack]
    simp only [collabSearchAuthenticated, Session.bind_apply, Session.send, Session.recv,
      Stage.start, hsend, List.nil_append, relayPeer_welcome hrefs, Option.map_some, Session.ask,
      checkRelay, hsign, if_true]

/-! ### What the answer is worth -/

/-- What is packed of objects that the store has under their ids, and unpacked. -/
lemma packObjects_verified {objs : List CollabObject}
    (h : ∀ o ∈ objs, ∃ id, collabId L o = .ok id ∧ r.objects.object L id = some (.collab o)) :
    ∃ ids objects, collabIds L objs = .ok ids ∧ r.packObjects L ids = .ok objects ∧
      (∀ x ∈ objects, r.objects.getRaw L x.1 = .ok (some x.2)) ∧
      verifiedObjects L objects = objs.filter (verifiedCollab L) := by
  induction objs with
  | nil => exact ⟨[], [], rfl, rfl, by simp, rfl⟩
  | cons o rest ih =>
      obtain ⟨ids, objects, hids, hobjects, hraws, hverified⟩ :=
        ih fun o' ho' => h o' (List.mem_cons_of_mem _ ho')
      obtain ⟨id, hid, hobj⟩ := h o List.mem_cons_self
      obtain ⟨b, hraw, hdecode⟩ := ObjectStore.get_eq_some.mp (ObjectStore.object_eq_some.mp hobj)
      refine ⟨id :: ids, (id, b) :: objects, ?_, ?_, ?_, ?_⟩
      · exact Result.bind_eq_ok.mpr ⟨id, hid, Result.bind_eq_ok.mpr ⟨ids, hids, rfl⟩⟩
      · exact Result.bind_eq_ok.mpr ⟨some b, hraw, Result.bind_eq_ok.mpr ⟨objects, hobjects, rfl⟩⟩
      · exact List.forall_mem_cons.mpr ⟨hraw, hraws⟩
      · rw [verifiedObjects, hdecode, List.filter_cons, hverified]

/-- A relay that answers a search: what it advertises are collaboration objects as the codec writes
them, and the pack with the answer can be decoded. -/
structure Answers (L : Linked) (r : Repository) (term : String) (maxHops : UInt8)
    (corpus : List CollabObject) : Prop where
  plain : CollabPlain L r true
  long : minSearchTermLen ≤ term.utf8ByteSize
  packed : ∃ refs pack decoded, r.collabAdverts L true = .ok refs ∧
    r.searchCorpus L refs = .ok corpus ∧
    r.searchPack L refs term maxHops = .ok pack ∧ decodePack L.toCrates pack = .ok decoded
  small : ∀ id b, r.objects.getRaw L id = .ok (some b) → b.length < 2 ^ 64

/-- **The answer of a relay** is what the search finds in its corpus, but for what does not
verify. -/
lemma Answers.run {corpus : List CollabObject} (h : Answers L r term maxHops corpus)
    (signer : Bytes → Bytes) :
    ∃ ball, searchBall L corpus term (min maxHops maxSearchHops) = .ok ball ∧
      (collabSearch L term maxHops (relayPeer L signer r) (.start ())).1 =
        .ok (ball.filter (verifiedCollab L)) ∧
      ∀ key n, verifyRelayChallenge L key n (signer (relayChallengeMessage n)) = true →
        (collabSearchAuthenticated L n key term maxHops (relayPeer L signer r) (.start ())).1 =
          .ok (ball.filter (verifiedCollab L)) := by
  obtain ⟨refs, pack, decoded, hrefs, hcorpus, hpack, hdecode⟩ := h.packed
  have hsearch := hpack
  rw [searchPack, Result.bind_eq_ok] at hsearch
  obtain ⟨corpus', hcorpus', hsearch⟩ := hsearch
  obtain rfl : corpus = corpus' := Except.ok.inj (hcorpus.symm.trans hcorpus')
  obtain ⟨ball, hball, hsearch⟩ := Result.bind_eq_ok.mp hsearch
  have hstored : ∀ o ∈ ball, ∃ id, collabId L o = .ok id ∧
      r.objects.object L id = some (.collab o) := by
    intro o ho
    obtain ⟨ad, had, hobj⟩ := mem_searchCorpus hcorpus (searchBall_subset hball ho)
    obtain ⟨n, t, ht, rfl⟩ := (mem_collabAdverts hrefs).mp had
    obtain ⟨o', hobj', hid⟩ := h.plain n t ht
    rw [hobj] at hobj'
    cases hobj'
    exact ⟨t.target, hid, hobj⟩
  obtain ⟨ids, objects, hids, hobjects, hraws, hverified⟩ := packObjects_verified hstored
  -- the pack is built from these objects, so that they come out of it
  rw [hids, Result.bind_eq_ok] at hsearch
  obtain ⟨ids', hids', hsearch⟩ := hsearch
  obtain rfl := Except.ok.inj hids'
  rw [buildPack, hobjects, Result.bind_eq_ok] at hsearch
  obtain ⟨objects', hobjects', hsearch⟩ := hsearch
  obtain rfl := Except.ok.inj hobjects'
  obtain ⟨⟨pack', entries, digest⟩, hfinish, hsearch⟩ := Result.bind_eq_ok.mp hsearch
  cases hsearch
  obtain rfl := decodePack_finish_sound hfinish (fun x hx => h.small _ _ (hraws x hx)) hdecode
  obtain ⟨hrun, hsigned⟩ := searchRelay_run signer hrefs h.long hpack
  rw [hdecode] at hrun hsigned
  refine ⟨ball, hball, hrun.trans ?_, fun key n hsign => (hsigned key n hsign).trans ?_⟩
  · rw [← hverified]
    rfl
  · rw [← hverified]
    rfl

end Relay

section Ranking

variable {L : Linked} {selfKey : Digest} {ownEdges : List TrustEdge} {term : String}
  {maxHops : UInt8}

lemma filterMap_profile_filter (keep : CollabObject → Bool) (objs : List CollabObject) :
    (objs.filter keep).filterMap CollabObject.profile? =
      (objs.filterMap CollabObject.profile?).filter fun p => keep (.profile p) := by
  induction objs with
  | nil => rfl
  | cons o rest ih =>
      cases o with
      | trustEdge e =>
          cases hk : keep (.trustEdge e) <;> simp [hk, ih, List.filterMap_cons]
      | profile p => cases hk : keep (.profile p) <;> simp [hk, ih]

/-- **Ranking a part of the ball** is ranking that part of the corpus. -/
lemma rankStrangers_searchBall_filter {corpus ball : List CollabObject}
    (hown : ∀ e ∈ ownEdges, e.fromKey = selfKey) (ha : Addressed L (corpusEdges corpus))
    (hball : searchBall L corpus term maxHops = .ok ball) (keep : CollabObject → Bool) :
    rankStrangers L.toCrates selfKey ownEdges (ball.filter keep) term maxHops =
      rankStrangers L.toCrates selfKey ownEdges (corpus.filter keep) term maxHops := by
  obtain ⟨ball', hball', hprofiles, hsub, hcovers⟩ := searchBall_spec ha term maxHops
  obtain rfl : ball = ball' := Except.ok.inj (hball.symm.trans hball')
  have hedges : ∀ {objs : List CollabObject} {e : TrustEdge},
      e ∈ corpusEdges (objs.filter keep) ↔ e ∈ corpusEdges objs ∧ keep (.trustEdge e) = true := by
    intro objs e
    rw [mem_corpusEdges, mem_corpusEdges, List.mem_filter]
  have hkept : corpusEdges (ball.filter keep) ⊆ corpusEdges (corpus.filter keep) := fun e he =>
    hedges.mpr ⟨hsub (hedges.mp he).1, (hedges.mp he).2⟩
  refine rankStrangers_congr ?_ fun p hp => ?_
  · rw [strangers, strangers, filterMap_profile_filter, filterMap_profile_filter, hprofiles,
      strangers, List.filter_filter, List.filter_filter, List.filter_filter]
    refine List.filter_congr fun p _ => ?_
    cases profileMatches p term <;> simp
  · rw [strangers, filterMap_profile_filter, List.mem_filter, List.mem_filter] at hp
    have hmatch : p ∈ strangers corpus term := List.mem_filter.mpr ⟨hp.1.1, hp.2⟩
    have hcovered : Covers (corpusEdges (corpus.filter keep)) maxHops (ball.filter keep) p.key := by
      intro w n hw hlen e he hn
      obtain ⟨he, hk⟩ := hedges.mp he
      refine List.mem_filter.mpr ⟨hcovers p hmatch w n (hw.mono fun x y hy => ?_) hlen e he hn, hk⟩
      obtain ⟨e', he', hfrom, hto⟩ := mem_predecessors.mp hy
      exact mem_predecessors.mpr ⟨e', (hedges.mp he').1, hfrom, hto⟩
    refine TrustGraph.trustPath_eq_of_keeps ?_ fun hops htrail hlen hroot => ?_
    · exact fun e he => (List.mem_append.mp he).elim (List.mem_append_left _)
        fun he => List.mem_append_right _ (hkept he)
    · exact trail_kept hown hkept hcovered htrail hroot
        fun _ => ⟨[], .nil, by simpa using hlen⟩

/-- A pinned relay that is not reached, or one that has the key of its pin, answers the search and
serves only what verifies. -/
inductive Reaches (L : Linked) (term : String) (maxHops : UInt8) :
    Dialed → Option (List CollabObject) → Prop where
  | unreachable {pin : RelayPin} {nonce : Digest} :
      Reaches L term maxHops ⟨pin, none, nonce⟩ none
  | honest {pin : RelayPin} {nonce : Digest} {r : Repository} {signer : Bytes → Bytes}
      {corpus : List CollabObject} : Answers L r term maxHops corpus →
      verifyRelayChallenge L pin.key nonce (signer (relayChallengeMessage nonce)) = true →
      (∀ o ∈ corpus, verifiedCollab L o = true) →
      Reaches L term maxHops ⟨pin, some (relayPeer L signer r), nonce⟩ (some corpus)

/-- The corpora of the relays that are reached, under the keys of their pins. -/
def reachedCorpora (relays : List (Dialed × Option (List CollabObject))) :
    List (Digest × List CollabObject) :=
  relays.filterMap fun d => d.2.map fun corpus => (d.1.pin.key, corpus)

/-- The sessions with the relays that are reached return the searches of their corpora. -/
lemma searchRelays_reached {relays : List (Dialed × Option (List CollabObject))}
    (h : ∀ d ∈ relays, Reaches L term maxHops d.1 d.2) :
    searchRelays L (reachedCorpora relays) term (min maxHops maxSearchHops) =
      .ok ((relays.map Prod.fst).filterMap (Dialed.answer L term maxHops)) := by
  induction relays with
  | nil => rfl
  | cons d rest ih =>
      have hrest := ih fun d' hd' => h d' (List.mem_cons_of_mem _ hd')
      obtain ⟨d, corpus⟩ := d
      cases h _ List.mem_cons_self with
      | unreachable => exact hrest
      | @honest pin nonce r signer corpus hanswers hsigns hverified =>
          obtain ⟨ball, hball, -, hrun⟩ := hanswers.run signer
          have hkept : ball.filter (verifiedCollab L) = ball :=
            List.filter_eq_self.mpr fun o ho => hverified o (searchBall_subset hball ho)
          have hanswer : Dialed.answer L term maxHops
              ⟨pin, some (relayPeer L signer r), nonce⟩ = some (pin.key, ball) := by
            rw [Dialed.answer]
            dsimp only
            rw [hrun pin.key nonce hsigns, hkept]
          rw [List.map_cons, List.filterMap_cons_some hanswer]
          change searchRelays L ((pin.key, corpus) :: reachedCorpora rest) term _ = _
          rw [searchRelays, List.mapM_cons, hball]
          change (do let bs ← searchRelays L (reachedCorpora rest) term _; _) = _
          rw [hrest]
          rfl

end Ranking

/-! ### A relay with the profile of Ada -/

/-- The key of the relay. -/
def relayKey : Digest := hubOwner

/-- Its signature of a nonce. -/
def relaySigned : Bytes :=
  [157, 98, 96, 185, 117, 237, 67, 156, 89, 135, 2, 8, 62, 4, 183, 86, 55, 120, 53, 118, 127, 140,
    209, 99, 161, 112, 197, 105, 82, 181, 40, 91, 68, 187, 170, 238, 38, 246, 164, 174, 139, 52,
    202, 29, 120, 164, 211, 144, 37, 101, 15, 202, 239, 136, 40, 55, 161, 110, 163, 49, 23, 224,
    58, 15]

/-- This signature verifies, too. -/
def adaRelayLinked : Linked :=
  { adaLinked with
    ed25519Verify := fun key msg sig => adaLinked.ed25519Verify key msg sig ||
      decide (key = relayKey ∧ msg = relayChallengeMessage (.replicate 8) ∧ sig = relaySigned) }

def adaObject : Object := .collab (.profile adaFirst)

def adaPublic : RefName := ⟨"refs/collab/public/p", by decide +kernel⟩

/-- Ada's profile under a public name. -/
def adaRelay : Repository :=
  { memory with
    objects := .holding adaRelayLinked [adaObject]
    refs := ⟨(∅ : BTreeMap RefName Ref).insert adaPublic (.tag ⟨adaObject.refId, 0, none⟩)⟩ }

/-- What the relay advertises. -/
def adaAdverts : List RefAdvert := [⟨adaPublic, adaObject.refId, false⟩]

/-- The answer to a search. -/
def adaPack : Bytes :=
  ((adaRelay.searchPack adaRelayLinked adaAdverts "Ada" 2).toOption).getD []

lemma ada_evaluated :
    (adaRelay.collabAdverts adaRelayLinked true = .ok adaAdverts ∧
      adaRelay.searchCorpus adaRelayLinked adaAdverts = .ok [.profile adaFirst] ∧
      adaRelay.searchPack adaRelayLinked adaAdverts "Ada" 2 = .ok adaPack ∧
      decodePack adaRelayLinked.toCrates adaPack =
        .ok [(adaObject.refId, Postcard.object adaObject)]) ∧
    (verifyRelayChallenge adaRelayLinked relayKey (.replicate 8) relaySigned = true ∧
      verifiedCollab adaRelayLinked (.profile adaFirst) = true ∧
      (Postcard.object adaObject).length < 2 ^ 64) := by
  decide +kernel

lemma ada_answers : Answers adaRelayLinked adaRelay "Ada" 2 [.profile adaFirst] where
  plain n t ht := by
    obtain rfl := Ref.tag.inj (RefStore.get_single ht.1)
    obtain ⟨ad, had, hobj⟩ := mem_searchCorpus ada_evaluated.1.2.1 (o := .profile adaFirst) (by simp)
    obtain rfl := List.mem_singleton.mp had
    exact ⟨.profile adaFirst, hobj, rfl⟩
  long := by decide
  packed := ⟨_, _, _, ada_evaluated.1.1, ada_evaluated.1.2.1, ada_evaluated.1.2.2.1,
    ada_evaluated.1.2.2.2⟩
  small id b h := by
    have hraw : (ObjectStore.putRaw adaRelayLinked ⟨.memory ∅⟩ (Postcard.object adaObject)
        none).2.getRaw adaRelayLinked id = .ok (some b) := h
    rcases ObjectStore.getRaw_putRaw adaRelayLinked ⟨.memory ∅⟩ (Postcard.object adaObject) none id
      with hold | ⟨-, -, hnew⟩
    · rw [hold] at hraw
      cases hraw
    · rw [hnew] at hraw
      cases hraw
      exact ada_evaluated.2.2.2

/-- Ada's relay as it is pinned, and one that is not reached. -/
def adaDialed : List (Dialed × Option (List CollabObject)) :=
  [(⟨⟨relayKey, "relay:1"⟩, some (relayPeer adaRelayLinked (fun _ => relaySigned) adaRelay),
      .replicate 8⟩, some [.profile adaFirst]),
    (⟨⟨adaKey, "gone:1"⟩, none, .replicate 9⟩, none)]

lemma ada_reaches : ∀ d ∈ adaDialed, Reaches adaRelayLinked "Ada" 2 d.1 d.2 := by
  intro d hd
  rcases List.mem_pair.mp hd with rfl | rfl
  · exact .honest ada_answers ada_evaluated.2.1 (by simpa using ada_evaluated.2.2.1)
  · exact .unreachable

/-- Who is found. -/
def adaHit : StrangerHit := ⟨adaFirst.key, adaFirst.displayName, none, none, [relayKey]⟩

lemma ada_found :
    queryRelaySet adaRelayLinked (.replicate 1) [] (adaDialed.map Prod.fst) "Ada" 2 =
      .ok [adaHit] := by
  have hballs := searchRelays_reached ada_reaches
  rw [show searchRelays adaRelayLinked (reachedCorpora adaDialed) "Ada" (min 2 maxSearchHops) =
    .ok [(relayKey, [.profile adaFirst])] by decide +kernel] at hballs
  rw [queryRelaySet, ← Except.ok.inj hballs, rankStrangersMulti]
  obtain ⟨s, hmerge, hmatch, hhit⟩ : ∃ s, mergeRelays adaRelayLinked
      [(relayKey, [.profile adaFirst])] = .ok s ∧ strangers s.corpus "Ada" = [adaFirst] ∧
      s.withRelays (strangerHit ⟨[] ++ corpusEdges s.corpus⟩ (.replicate 1) 2 adaFirst) = adaHit :=
    ⟨_, rfl, by decide +kernel, by decide +kernel⟩
  simp only [hmerge, rankStrangers, hmatch, List.map_cons, List.map_nil, List.mergeSort_singleton,
    hhit]

/-- What the search for her rests on. -/
theorem queryRelaySet_sound_ada :
    (∃ p : Profile, p.key = adaHit.key ∧ p.displayName = adaHit.displayName ∧
      verifyProfile adaRelayLinked p = true ∧ profileMatches p "Ada" = true) ∧
    adaHit.relays ≠ [] ∧
    (∀ k ∈ adaHit.relays, ∃ d ∈ adaDialed.map Prod.fst, d.pin.key = k ∧
      ∃ peer, d.peer = some peer ∧ ProvesKey adaRelayLinked k d.nonce peer) ∧
    ∀ hops, adaHit.trustPath = some hops → hops.length ≤ (2 : UInt8).toNat ∧
      ∃ g : TrustGraph, (∀ e ∈ g.edges, e ∈ [] ∨ verifyEdge adaRelayLinked e = true) ∧
        g.Trail (.replicate 1) hops adaHit.key :=
  queryRelaySet_sound ada_found (List.mem_singleton_self _)

end Bole
