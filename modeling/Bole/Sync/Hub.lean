import Bole.Lib.Utf8
import Bole.Repo.Collab
import Bole.Sync.Session

/-!
The hub: `serve_hub` of `src/sync/hub.rs`.

A hub keeps the repositories of many owners in one store.  A push has to begin with a proof that
the client holds the owner's key, and is then carried out for an accessor that may write below
the owner's fingerprint; a fetch is served to anyone.

* `ownerAccessor_canWrite`: what that accessor may write is below the fingerprint;
* `ownerPush_keeps`: an authenticated push changes the owner's refs only;
* `serve_cases`: a session authenticates someone, or changes nothing;
* `hub_isolated`: in every run of sessions a ref changes only for its owner.
-/

namespace Bole

open Talk

/-! ### Owners -/

/-- `user_namespace`. -/
def userNamespace (C : Crates) (owner : Digest) : String :=
  "refs/users/" ++ fingerprint C owner ++ "/"

/-- `challenge_message`, with `HUB_PUSH_DOMAIN` in front. -/
def challengeMessage (nonce : Digest) : Bytes := ascii "bole-hub-push-v1" ++ [0] ++ nonce.bytes

/-- `owner_accessor`. -/
def ownerAccessor (C : Crates) (owner : Digest) : Accessor :=
  let pattern := "refs/users/" ++ fingerprint C owner ++ "/**"
  { (Accessor.new.withTimelineRole pattern .write).withTimelineRole pattern .read with
    actor := some (fingerprint C owner) }

/-- `verify_proof`. -/
def verifyProof (L : Linked) (owner nonce : Digest) (sig : Bytes) : Bool :=
  decide (sig.length = 64) && L.ed25519Verify owner (challengeMessage nonce) sig

/-! ### Sessions -/

namespace Repository

open Talk.Session

/-- The account of an owner: what of it carries the owner's key is published, and a publication
that fails is passed over. -/
def landIdentity (L : Linked) (mtime : Option ℕ) (owner : Digest) (profile : Option Profile)
    (repos : List RepoRecord) (r : Repository) : Repository :=
  let r := match profile with
    | some p => if p.key = owner then (r.publishProfile L p mtime).2 else r
    | none => r
  repos.foldl (fun r rec => if rec.owner = owner then (r.publishRepo L rec mtime).2 else r) r

/-- `serve_authenticated_push`, after the proof. -/
def ownerPush (L : Linked) (mtime : Option ℕ) (owner : Digest) : SyncSession Unit := do
  let refs ← ask fun r => r.advertise (ownerAccessor L.toCrates owner)
  send (.welcome (refs.filter fun ad => ad.name.startsWith (userNamespace L.toCrates owner)))
  match ← recv with
  | .pack pack => do
      let decoded ← ask fun _ => decodePack L.toCrates pack
      match ← recv with
      | .refUpdate ops => do
          act (land L mtime decoded)
          let results ← act fun r => r.applyPushOps L (ownerAccessor L.toCrates owner) ops
          send (.refStatus results)
          match ← recv with
          | .hubIdentity profile repos => do
              act fun r => (.ok (), r.landIdentity L mtime owner profile repos)
              send .done
          | _ => fail (.storage "hub: expected HubIdentity")
      | _ => fail (.storage "hub: expected RefUpdate")
  | _ => fail (.storage "hub: expected Pack")

/-- `serve_authenticated_push`. -/
def serveAuthenticatedPush (L : Linked) (mtime : Option ℕ) (nonce owner : Digest) :
    SyncSession Unit := do
  send (.hubChallenge nonce)
  match ← recv with
  | .hubProof sig =>
      if !verifyProof L owner nonce sig then
        refuse "hub auth failed" (.accessDenied "hub push auth failed")
      else ownerPush L mtime owner
  | _ => refuse "expected HubProof" (.storage "hub: expected HubProof")

/-- `serve_hub`. -/
def serveHub (L : Linked) (mtime : Option ℕ) (nonce : Digest) : SyncSession Unit := do
  match ← recv with
  | .hubHello owner => serveAuthenticatedPush L mtime nonce owner
  | .hello .fetch _ => fetchSession L .privileged
  | .hello .clone _ => fetchSession L .privileged
  | .hello .push _ =>
      refuse "hub requires authenticated push (use --as)"
        (.accessDenied "hub: plain push not allowed; authenticate with --as")
  | _ => refuse "expected HubHello or Hello" (.storage "hub: expected HubHello or Hello")

end Repository

/-! ### The refs of an owner -/

/-- The refs of a key: those in its namespace, and its collab refs. -/
def OwnRef (C : Crates) (owner : Digest) (n : RefName) : Prop :=
  n.startsWith (userNamespace C owner) = true ∨ n.asStr = profileRef C owner ∨
    n.startsWith (repoRef C owner "") = true

/-- The hex digits of a fingerprint are 64, and none is a `*`. -/
lemma length_hexBytes (b : Bytes) : (b.flatMap Digest.hexByte).length = 2 * b.length := by
  induction b with
  | nil => rfl
  | cons x b ih =>
      rw [List.flatMap_cons, List.length_append, ih, List.length_cons, Digest.hexByte,
        List.length_cons, List.length_singleton]
      omega

lemma length_fingerprint (C : Crates) (key : Digest) : (fingerprint C key).toList.length = 64 := by
  rw [fingerprint, Digest.hex, String.toList_ofList, length_hexBytes,
    (C.blake3 key.bytes).length_eq]

/-- No byte of a namespace is a `*`. -/
lemma star_notMem_userNamespace (C : Crates) (owner : Digest) :
    42 ∉ strBytes (userNamespace C owner) := by
  have hhex : ∀ b : Bytes, '*' ∉ b.flatMap Digest.hexByte := Digest.notMem_hex (by decide)
  have hfront : '*' ∉ "refs/users/".toList := by decide
  have hback : '*' ∉ "/".toList := by decide
  have hname : '*' ∉ (userNamespace C owner).toList := by
    simp only [userNamespace, fingerprint, Digest.hex, String.toList_append,
      String.toList_ofList, List.mem_append, not_or]
    exact ⟨⟨hfront, hhex _⟩, hback⟩
  exact fun hmem => hname ((Utf8.mem_encode_iff (a := '*') (by decide)).mp hmem)

/-- **What the accessor of an owner may write is in the owner's namespace.** -/
lemma ownerAccessor_canWrite {C : Crates} {owner : Digest} {label : Label} {name : String}
    (h : (ownerAccessor C owner).canWrite label ⟨.timeline, name⟩ = true) :
    (userNamespace C owner).toList <+: name.toList := by
  have hpattern : "refs/users/" ++ fingerprint C owner ++ "/**" =
      userNamespace C owner ++ "**" := by
    have hslash : "/**" = "/" ++ "**" := rfl
    rw [userNamespace, hslash, ← String.append_assoc]
  obtain ⟨c, hc, hgrant⟩ := Accessor.exists_grants_of_canWrite h
  have hscope : c.scope = some ⟨.timeline, userNamespace C owner ++ "**"⟩ := by
    simp only [ownerAccessor, Accessor.withTimelineRole, Accessor.withRole, Accessor.new,
      List.nil_append, List.cons_append, List.mem_cons, List.not_mem_nil, or_false, hpattern] at hc
    rcases hc with rfl | rfl
    · rfl
    · rfl
  simp only [Accessor.grants, scopeApplies, hscope, Bool.and_eq_true] at hgrant
  exact isPrefix_of_globMatches (star_notMem_userNamespace C owner) hgrant.1.2.2

/-- What stands before the fingerprint in the refs of a key. -/
def ownFronts : List (List Char) :=
  ["refs/users/".toList, "refs/collab/public/profile/".toList, "refs/collab/public/repo/".toList]

lemma OwnRef.front {C : Crates} {owner : Digest} {n : RefName} (h : OwnRef C owner n) :
    ∃ front ∈ ownFronts, front ++ (fingerprint C owner).toList <+: n.asStr.toList := by
  rcases h with h | h | h
  · refine ⟨"refs/users/".toList, by simp [ownFronts], ?_⟩
    rw [RefName.startsWith_iff, userNamespace, String.toList_append, String.toList_append] at h
    exact (List.prefix_append _ _).trans h
  · refine ⟨"refs/collab/public/profile/".toList, by simp [ownFronts], ?_⟩
    have hfront : "refs/collab/public/profile/" = collabPublicPrefix ++ "profile/" := rfl
    rw [h, profileRef, ← hfront, String.toList_append]
  · refine ⟨"refs/collab/public/repo/".toList, by simp [ownFronts], ?_⟩
    have hfront : "refs/collab/public/repo/" = collabPublicPrefix ++ "repo/" := rfl
    rw [RefName.startsWith_iff, repoRef, ← hfront, String.append_assoc, String.toList_append,
      String.toList_append] at h
    exact (List.prefix_append _ _).trans h

/-- **A ref belongs to one fingerprint.** -/
lemma OwnRef.fingerprint_eq {C : Crates} {a b : Digest} {n : RefName} (ha : OwnRef C a n)
    (hb : OwnRef C b n) : fingerprint C a = fingerprint C b := by
  have hfronts : ∀ f ∈ ownFronts, ∀ g ∈ ownFronts, f <+: g → f = g := by decide
  obtain ⟨f, hf, ha⟩ := ha.front
  obtain ⟨g, hg, hb⟩ := hb.front
  obtain rfl : f = g := by
    have hfn := (List.prefix_append _ _).trans ha
    have hgn := (List.prefix_append _ _).trans hb
    rcases List.prefix_or_prefix_of_prefix hfn hgn with h | h
    · exact hfronts f hf g hg h
    · exact (hfronts g hg f hf h).symm
  have hlen : (f ++ (fingerprint C a).toList).length = (f ++ (fingerprint C b).toList).length := by
    rw [List.length_append, List.length_append, length_fingerprint, length_fingerprint]
  have heq := (List.prefix_of_prefix_length_le ha hb hlen.le).eq_of_length hlen
  exact String.toList_injective (List.append_cancel_left heq)

/-! ### What a session changes -/

/-- The second repository has the refs of the first, up to those of the owner. -/
def Inside (C : Crates) (owner : Digest) (r₀ r : Repository) : Prop :=
  ∀ n, ¬ OwnRef C owner n → r.refs.get n = r₀.refs.get n

namespace Repository

open Talk.Session

variable {L : Linked} {mtime : Option ℕ} {owner nonce : Digest} {r₀ r : Repository}

/-- Landing an account publishes refs of the owner. -/
lemma landIdentity_inside (profile : Option Profile) (repos : List RepoRecord)
    (h : Inside L.toCrates owner r₀ r) :
    Inside L.toCrates owner r₀ (r.landIdentity L mtime owner profile repos) := by
  have hrepos : ∀ r : Repository, Inside L.toCrates owner r₀ r → Inside L.toCrates owner r₀
      (repos.foldl (fun r rec => if rec.owner = owner then (r.publishRepo L rec mtime).2 else r)
        r) := by
    induction repos with
    | nil => exact fun r h => h
    | cons rec rest ih =>
        refine fun r h => ih _ fun n hn => ?_
        dsimp only
        split_ifs with howner
        · rw [get_publishRepo fun hnew => ?_]
          · exact h n hn
          · refine hn (Or.inr (Or.inr (RefName.startsWith_iff.mpr ?_)))
            have hname : repoRef L.toCrates owner rec.name =
                repoRef L.toCrates owner "" ++ rec.name := by
              rw [repoRef, repoRef, String.append_empty]
            rw [RefName.asStr_of_new hnew, howner, hname, String.toList_append]
            exact List.prefix_append _ _
        · exact h n hn
  refine hrepos _ fun n hn => ?_
  split
  · next p =>
      split_ifs with hkey
      · rw [get_publishProfile fun hnew => ?_]
        · exact h n hn
        · exact hn (Or.inr (Or.inl (by rw [RefName.asStr_of_new hnew, hkey])))
      · exact h n hn
  · exact h n hn

/-- **An authenticated push changes refs of the owner only.** -/
lemma ownerPush_keeps : Keeps (Inside L.toCrates owner r₀) (ownerPush L mtime owner) := by
  refine .bind (.ask _) fun refs => .bind (.send _) fun _ => .bind .recv fun m => ?_
  split
  · refine .bind (.ask _) fun decoded => .bind .recv fun m => ?_
    split
    · next ops =>
        refine .bind (.act fun r hr n hn => ?_) fun _ =>
          .bind (.act fun r hr n hn => ?_) fun results =>
          .bind (.send _) fun _ => .bind .recv fun m => ?_
        · exact hr n hn
        · rw [get_applyPushOps fun label => ?_]
          · exact hr n hn
          · by_contra hwrite
            rw [Bool.not_eq_false] at hwrite
            exact hn (Or.inl (RefName.startsWith_iff.mpr (ownerAccessor_canWrite hwrite)))
        · split
          · exact .bind (.act fun r hr => landIdentity_inside _ _ hr) fun _ => .send _
          · exact .fail _
    · exact .fail _
  · exact .fail _

variable {peer : Peer Message Error} {s : Stage Repository Message}

/-- A push changes nothing unless its proof holds. -/
lemma serveAuthenticatedPush_cases (peer : Peer Message Error) (s : Stage Repository Message) :
    (serveAuthenticatedPush L mtime nonce owner peer s).2.world = s.world ∨
      ∃ sig, peer.recv (s.sent ++ [.hubChallenge nonce]) s.received = .ok (.hubProof sig) ∧
        verifyProof L owner nonce sig = true ∧ Inside L.toCrates owner s.world
          (serveAuthenticatedPush L mtime nonce owner peer s).2.world := by
  rw [serveAuthenticatedPush, bind_apply, send]
  cases hc : peer.send s.sent (.hubChallenge nonce) with
  | error e => exact Or.inl rfl
  | ok u =>
      simp only [bind_apply, recv]
      cases hm : peer.recv (s.sent ++ [.hubChallenge nonce]) s.received with
      | error e => exact Or.inl rfl
      | ok m =>
          dsimp only
          split
          · next sig =>
              split_ifs with hv
              · exact Or.inl (refuse_keeps (· = s.world) _ _ peer _ rfl)
              · refine Or.inr ⟨sig, rfl, by simpa using hv, ?_⟩
                exact ownerPush_keeps _ _ fun n _ => rfl
          · exact Or.inl (refuse_keeps (· = s.world) _ _ peer _ rfl)

end Repository

/-! ### Runs of a hub -/

/-- A session of the hub: the nonce it draws, the client and the time. -/
structure HubSession where
  nonce : Digest
  client : Peer Message Error
  mtime : Option ℕ

namespace HubSession

/-- The repository after the session. -/
def serve (L : Linked) (session : HubSession) (r : Repository) : Repository :=
  (Repository.serveHub L session.mtime session.nonce session.client (.start r)).2.world

/-- The client's first message. -/
def opening (session : HubSession) : Result Message := session.client.recv [] 0

/-- The client's answer to the challenge. -/
def answer (session : HubSession) : Result Message :=
  session.client.recv [.hubChallenge session.nonce] 1

/-- The client begins a push for `owner` and answers the challenge with a valid signature. -/
def Authenticates (L : Linked) (session : HubSession) (owner : Digest) : Prop :=
  session.opening = .ok (.hubHello owner) ∧
    ∃ sig, session.answer = .ok (.hubProof sig) ∧ verifyProof L owner session.nonce sig = true

variable {L : Linked} {session : HubSession}

/-- **A session authenticates an owner and changes its refs, or changes nothing.** -/
lemma serve_cases (r : Repository) :
    session.serve L r = r ∨
      ∃ owner, session.Authenticates L owner ∧ Inside L.toCrates owner r (session.serve L r) := by
  rw [serve, Repository.serveHub, Session.bind_apply, Session.recv]
  cases hm : session.client.recv [] 0 with
  | error e => exact Or.inl (by simp only [Stage.start, hm])
  | ok m =>
      simp only [Stage.start, hm]
      split
      · next owner =>
          rcases Repository.serveAuthenticatedPush_cases session.client ⟨r, [], 0 + 1⟩ with h | h
          · exact Or.inl h
          · obtain ⟨sig, hanswer, hv, hinside⟩ := h
            exact Or.inr ⟨owner, ⟨hm, sig, hanswer, hv⟩, hinside⟩
      · exact Or.inl (Repository.fetchSession_keeps (· = r) session.client _ rfl)
      · exact Or.inl (Repository.fetchSession_keeps (· = r) session.client _ rfl)
      · exact Or.inl (Repository.refuse_keeps (· = r) _ _ session.client _ rfl)
      · exact Or.inl (Repository.refuse_keeps (· = r) _ _ session.client _ rfl)

end HubSession

/-- The repository of a hub after the given sessions. -/
def hubRun (L : Linked) (sessions : List HubSession) (r : Repository) : Repository :=
  sessions.foldl (fun r session => session.serve L r) r

/-- Who has signed what before each session of a run.  A signature that verifies has been made
by the holder of the key, and no nonce has been signed before it is drawn. -/
structure SignedBefore (L : Linked) (sessions : List HubSession)
    (signed : ℕ → Set (Digest × Bytes)) : Prop where
  unforgeable : ∀ i session sig key msg, sessions[i]? = some session →
    session.answer = .ok (.hubProof sig) → L.ed25519Verify key msg sig = true →
    (key, msg) ∈ signed (i + 1)
  fresh : ∀ i session key, sessions[i]? = some session →
    (key, challengeMessage session.nonce) ∉ signed i

/-- **The refs of a hub change only for their owners.**  Whatever the clients of the sessions
say, a session in which no owner is authenticated changes nothing; one that authenticates an
owner, who has then signed its nonce, changes no refs but the owner's, and these are those of no
other fingerprint. -/
theorem hub_isolated {L : Linked} {sessions : List HubSession} {signed : ℕ → Set (Digest × Bytes)}
    (hsigned : SignedBefore L sessions signed) (r : Repository) {i : ℕ} {session : HubSession}
    (hi : sessions[i]? = some session) :
    ((∀ owner, ¬ session.Authenticates L owner) →
      hubRun L (sessions.take (i + 1)) r = hubRun L (sessions.take i) r) ∧
    ∀ owner, session.Authenticates L owner →
      (owner, challengeMessage session.nonce) ∈ signed (i + 1) \ signed i ∧
      ∀ n, (hubRun L (sessions.take (i + 1)) r).refs.get n ≠
          (hubRun L (sessions.take i) r).refs.get n →
        OwnRef L.toCrates owner n ∧
          ∀ key, OwnRef L.toCrates key n →
            fingerprint L.toCrates key = fingerprint L.toCrates owner := by
  have hstep : hubRun L (sessions.take (i + 1)) r =
      session.serve L (hubRun L (sessions.take i) r) := by
    rw [hubRun, List.take_add_one, hi, List.foldl_append]
    rfl
  rw [hstep]
  have hcases := session.serve_cases (L := L) (hubRun L (sessions.take i) r)
  refine ⟨fun hnone => hcases.resolve_right fun ⟨owner, hauth, _⟩ => hnone owner hauth, ?_⟩
  rintro owner ⟨hopen, sig, hanswer, hv⟩
  rw [verifyProof, Bool.and_eq_true] at hv
  refine ⟨⟨hsigned.unforgeable i session sig _ _ hi hanswer hv.2, hsigned.fresh i session _ hi⟩,
    fun n hn => ?_⟩
  rcases hcases with hsame | ⟨owner', ⟨hopen', -⟩, hinside⟩
  · exact absurd (by rw [hsame]) hn
  · obtain rfl : owner = owner' := by simpa using hopen.symm.trans hopen'
    have hown : OwnRef L.toCrates owner n := by
      by_contra hnot
      exact hn (hinside n hnot)
    exact ⟨hown, fun key hkey => hkey.fingerprint_eq hown⟩

/-! ### A profile -/

/-- The bytes of an Ed25519 public key. -/
def hubOwnerBytes : Bytes :=
  [234, 74, 108, 99, 226, 156, 82, 10, 190, 245, 80, 123, 19, 46, 197, 249, 149, 71, 118, 174, 190,
    190, 123, 146, 66, 30, 234, 105, 20, 70, 210, 44]

lemma length_hubOwnerBytes : hubOwnerBytes.length = 32 := rfl

def hubOwner : Digest := ⟨hubOwnerBytes, length_hubOwnerBytes⟩

def hubNonce : Digest := .replicate 5

/-- The signature of the challenge under the key. -/
def hubProofSig : Bytes :=
  [124, 26, 39, 121, 129, 64, 133, 54, 213, 140, 73, 184, 118, 153, 155, 156, 183, 21, 254, 228, 92,
    239, 247, 39, 68, 97, 204, 178, 175, 36, 69, 254, 223, 231, 215, 171, 161, 169, 106, 70, 153,
    23, 135, 88, 249, 104, 153, 171, 46, 214, 195, 176, 223, 96, 134, 212, 97, 211, 23, 107, 238,
    164, 75, 11]

/-- A signed profile of the key. -/
def hubProfile : Profile where
  key := hubOwner
  displayName := "Ada"
  bio := ""
  endpoints := []
  dnsAliases := []
  seq := 1
  sig := [88, 226, 148, 213, 253, 4, 167, 137, 217, 149, 247, 175, 69, 241, 116, 138, 217, 171, 192,
    68, 240, 52, 234, 122, 88, 86, 104, 231, 130, 221, 61, 187, 53, 91, 234, 192, 169, 103, 216,
    147, 143, 253, 69, 114, 237, 101, 106, 245, 27, 18, 119, 225, 64, 105, 53, 123, 24, 17, 181,
    209, 148, 22, 57, 8]

/-- The two signatures are those that verify. -/
def hubLinked : Linked :=
  { Linked.over [.collab (.profile hubProfile)] with
    ed25519Verify := fun key msg sig => decide (key = hubOwner ∧
      (msg = challengeMessage hubNonce ∧ sig = hubProofSig ∨
        msg = profileMessage hubProfile ∧ sig = hubProfile.sig)) }

/-- A client that pushes nothing but its profile. -/
def hubSession : HubSession where
  nonce := hubNonce
  client :=
    { recv := fun _ received =>
        match received with
        | 0 => .ok (.hubHello hubOwner)
        | 1 => .ok (.hubProof hubProofSig)
        | 2 => .ok (.pack ((Repository.memory.buildPack hubLinked []).toOption.getD []))
        | 3 => .ok (.refUpdate [])
        | 4 => .ok (.hubIdentity (some hubProfile) [])
        | _ => .error (.storage "connection closed")
      send := fun _ _ => .ok () }
  mtime := none

/-- The tag at the profile. -/
def hubProfileName : RefName := ⟨profileRef Crates.reference hubOwner, by decide +kernel⟩

lemma hub_signedBefore : SignedBefore hubLinked [hubSession]
    fun i => {p | 0 < i ∧ p = (hubOwner, challengeMessage hubNonce)} := by
  have hsig : hubProofSig ≠ hubProfile.sig := by decide
  constructor
  · intro i session sig key msg hi hanswer hv
    obtain rfl : hubSession = session := by
      cases i with
      | zero => exact Option.some.inj hi
      | succ i => cases hi
    obtain rfl : hubProofSig = sig := by
      cases hanswer
      rfl
    simp only [hubLinked, decide_eq_true_iff] at hv
    obtain ⟨rfl, ⟨rfl, -⟩ | ⟨-, h⟩⟩ := hv
    · exact ⟨Nat.succ_pos i, rfl⟩
    · exact absurd h hsig
  · rintro i session key hi ⟨hpos, -⟩
    cases i with
    | zero => cases hpos
    | succ i => cases hi

/-- The client's profile is set for the client's key. -/
theorem hub_isolated_profile :
    ((hubRun hubLinked [hubSession] .memory).refs.get hubProfileName).isSome = true ∧
      ∀ n, (hubRun hubLinked [hubSession] .memory).refs.get n ≠ Repository.memory.refs.get n →
        OwnRef hubLinked.toCrates hubOwner n := by
  have hset : ((hubRun hubLinked [hubSession] .memory).refs.get hubProfileName).isSome = true := by
    decide +kernel
  have hauth : hubSession.Authenticates hubLinked hubOwner :=
    ⟨rfl, hubProofSig, rfl, by decide +kernel⟩
  refine ⟨hset, fun n hn => ?_⟩
  have hrun := (hub_isolated hub_signedBefore .memory (i := 0) rfl).2 hubOwner hauth
  exact (hrun.2 n hn).1

end Bole
