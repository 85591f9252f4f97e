import Bole.Cli.Secrets

/-!
The readers of a stored secret: `grant_secret_recipient` and `revoke_secret_recipient` of
`src/store/mod.rs`.

* `Obtained`: the secrets of one plaintext that the operations make;
* `Obtained.resolved_iff`: a chain opens such a secret exactly when it holds the master key of a
  wrap;
* `grant_readers_iff`: **which readers a grant keeps and admits**;
* `revoke_readers_iff`: **whom a revocation shuts out**.
-/

namespace Bole

/-! ### The calls -/

namespace ObjectStore

variable (L : Linked) (A : Aead) (s : ObjectStore)

/-- `grant_secret_recipient`. -/
def grantSecretRecipient (draws : MultiRecipientSecret.Draws) (id : ObjectId)
    (grantingChain : ProviderChain Digest) (newRecipient : KeyProvider Digest)
    (mtime : Option ℕ) : Result ObjectId × ObjectStore :=
  match s.grantedSecret L A draws id grantingChain newRecipient with
  | .error e => (.error e, s)
  | .ok obj => s.put L obj mtime

/-- `revoke_secret_recipient`. -/
def revokeSecretRecipient (id : ObjectId) (keyRef : String) (mtime : Option ℕ) :
    Result ObjectId × ObjectStore :=
  match s.revokedSecret L id keyRef with
  | .error e => (.error e, s)
  | .ok obj => s.put L obj mtime

end ObjectStore

/-! ### Secrets with one reader -/

/-- A secret with one reader, as one with a list of readers. -/
def SecretV2.shared (s : SecretV2) : MultiRecipientSecret :=
  ⟨[s.wrappedDk], s.nonce, s.ciphertext, s.aad⟩

/-- The wraps and the value of a secret under a data key. -/
def Object.shared : Object → Option MultiRecipientSecret
  | .secretV2 s => some s.shared
  | .multiRecipientSecret s => some s
  | _ => none

/-- Some wrap of the secret was made under a master key. -/
def MultiRecipientSecret.WrappedUnder {κ : Type} (inUse : Set (KeyProvider κ))
    (s : MultiRecipientSecret) (master : κ) : Prop :=
  ∃ w ∈ s.recipients, ∃ dk, MadeUnder inUse dk s.aad w master

section Readers

variable {κ : Type} {A : Aead} {inUse : Set (KeyProvider κ)} {chain : ProviderChain κ}

lemma ProviderChain.unwrap_error {w : WrappedKey} {aad : Bytes} {e : Error}
    (h : chain.unwrap w aad = .error e) : e = .decryptionFailed := by
  rw [unwrap] at h
  split at h
  · cases h
  · split at h
    · cases h
    · exact (Except.error.inj h).symm

lemma SecretV2.decrypt_shared (s : SecretV2) : s.shared.decrypt A chain = s.decrypt A chain := by
  rw [MultiRecipientSecret.decrypt, MultiRecipientSecret.unwrapAny, SecretV2.decrypt]
  cases h : chain.unwrap s.wrappedDk s.aad.toBytes with
  | ok dk => simp only [shared, List.findSome?_cons, h]; rfl
  | error e =>
      obtain rfl := ProviderChain.unwrap_error h
      simp only [shared, List.findSome?_cons, h]
      rfl

/-- A wrap is one of one data key. -/
lemma MadeUnder.dk_unique (ideal : IdealWrapping inUse) {dk dk' : Digest} {aad : SecretAad}
    {w : WrappedKey} {m m' : κ} (h : MadeUnder inUse dk aad w m)
    (h' : MadeUnder inUse dk' aad w m') : dk = dk' := by
  obtain ⟨p, hp, rfl, nonce, hw⟩ := h
  obtain ⟨p', hp', rfl, nonce', hw'⟩ := h'
  have hopen := ideal.opens p hp p hp rfl _ _ _ _ hw
  by_cases hmaster : p.master = p'.master
  · rw [ideal.opens p' hp' p hp hmaster _ _ _ _ hw'] at hopen
    exact (Except.ok.inj hopen).symm
  · obtain ⟨e, he⟩ := ideal.closed p' hp' p hp hmaster _ _ _ _ hw'
    rw [he] at hopen
    cases hopen

variable {held : Held}

lemma Sealed.wrappedUnder_iff (h : Sealed A inUse held) (ideal : IdealWrapping inUse) {m : κ} :
    held.secret.WrappedUnder inUse m ↔
      ∃ w ∈ held.secret.recipients, MadeUnder inUse held.dk held.secret.aad w m := by
  refine exists_congr fun w => and_congr_right fun hw => ⟨?_, fun hmade => ⟨_, hmade⟩⟩
  rintro ⟨dk, hmade⟩
  obtain ⟨m', hmade'⟩ := h.wraps w hw
  rwa [← hmade.dk_unique ideal hmade']

/-- What a chain makes of a sealed secret: its plaintext, if the chain holds the master key of a
wrap, and an error otherwise. -/
lemma Sealed.decrypt_cases (h : Sealed A inUse held) (ideal : IdealWrapping inUse)
    (hopens : ∀ key nonce aad msg c, A.encrypt key nonce aad msg = some c →
      A.decrypt key nonce.bytes aad c = some msg)
    (hin : ∀ q ∈ chain.providers, q ∈ inUse) :
    ((∃ q ∈ chain.providers, held.secret.WrappedUnder inUse q.master) →
      held.secret.decrypt A chain = .ok held.plaintext) ∧
    ((¬ ∃ q ∈ chain.providers, held.secret.WrappedUnder inUse q.master) →
      held.secret.decrypt A chain = .error .decryptionFailed) := by
  have hiff : (∃ q ∈ chain.providers, held.secret.WrappedUnder inUse q.master) ↔
      ∃ q ∈ chain.providers, ∃ w ∈ held.secret.recipients,
        MadeUnder inUse held.dk held.secret.aad w q.master :=
    exists_congr fun q => and_congr_right fun _ => h.wrappedUnder_iff ideal
  refine ⟨fun hholds => (h.decrypt_iff ideal hopens hin).mpr (hiff.mp hholds), fun hnone => ?_⟩
  rw [MultiRecipientSecret.decrypt]
  cases hany : held.secret.unwrapAny chain with
  | none => rfl
  | some dk => exact absurd (hiff.mpr ((h.unwrapAny_iff ideal hin).mp hany).2) hnone

/-- The wraps of a new secret are those of its recipients. -/
lemma wrappedUnder_encryptFor (ideal : IdealWrapping inUse)
    {draws : MultiRecipientSecret.Draws} {plaintext : Bytes} {recipients : List (KeyProvider κ)}
    {aad : SecretAad} (hin : ∀ p ∈ recipients, p ∈ inUse) {secret : MultiRecipientSecret}
    (h : MultiRecipientSecret.encryptFor A draws plaintext recipients aad = .ok secret) {m : κ} :
    secret.WrappedUnder inUse m ↔ ∃ p ∈ recipients, p.master = m := by
  rw [(sealed_encryptFor hin h).wrappedUnder_iff ideal]
  rw [MultiRecipientSecret.encryptFor] at h
  split_ifs at h
  split at h
  · cases h
  · obtain ⟨wraps, hwraps, h⟩ := Result.bind_eq_ok.mp h
    cases h
    constructor
    · rintro ⟨w, hw, hmade⟩
      obtain ⟨⟨p, i⟩, hp, hwrap⟩ := Result.mem_mapM hwraps hw
      obtain ⟨hi, hmem⟩ := List.mem_zipIdx' hp
      have hpr : p ∈ recipients := hmem ▸ List.getElem_mem hi
      exact ⟨p, hpr, MadeUnder.unique ideal ⟨p, hin p hpr, rfl, _, hwrap⟩ hmade⟩
    · rintro ⟨p, hp, rfl⟩
      obtain ⟨i, hi, rfl⟩ := List.getElem_of_mem hp
      obtain ⟨hlen, hturn⟩ := List.forall₂_iff_get.mp (Result.forall₂_mapM hwraps)
      rw [List.length_zipIdx] at hlen
      have hwrap := hturn i (by simpa using hi) (hlen ▸ hi)
      rw [List.get_eq_getElem, List.get_eq_getElem, List.getElem_zipIdx] at hwrap
      exact ⟨wraps[i], List.getElem_mem _, recipients[i], hin _ hp, rfl, _, hwrap⟩

/-- The wraps after a grant: those before, and the newcomer's, unless its key ref was there. -/
lemma Sealed.wrappedUnder_grant (h : Sealed A inUse held) (ideal : IdealWrapping inUse)
    (hlabel : ∀ p ∈ inUse, ∀ nonce dk aad w, p.wrapDk nonce dk aad = .ok w →
      w.keyRef = p.activeKeyRef)
    (hin : ∀ q ∈ chain.providers, q ∈ inUse) {recipient : KeyProvider κ} (hr : recipient ∈ inUse)
    {nonce : Nonce} {secret : MultiRecipientSecret}
    (hgrant : held.secret.grant chain recipient nonce = (.ok (), secret)) {m : κ} :
    secret.WrappedUnder inUse m ↔ held.secret.WrappedUnder inUse m ∨
      m = recipient.master ∧ ¬ ∃ w ∈ held.secret.recipients, w.keyRef = recipient.activeKeyRef := by
  rw [MultiRecipientSecret.grant] at hgrant
  cases hany : held.secret.unwrapAny chain with
  | none =>
      rw [hany] at hgrant
      cases hgrant
  | some dk =>
      obtain ⟨rfl, -⟩ := (h.unwrapAny_iff ideal hin).mp hany
      simp only [hany] at hgrant
      cases hwrap : recipient.wrapDk nonce held.dk held.secret.aad.toBytes with
      | error e =>
          rw [hwrap] at hgrant
          cases hgrant
      | ok wrap =>
          simp only [hwrap, hlabel recipient hr _ _ _ _ hwrap] at hgrant
          have hmade : MadeUnder inUse held.dk held.secret.aad wrap recipient.master :=
            ⟨recipient, hr, rfl, nonce, hwrap⟩
          split_ifs at hgrant with hpresent
          · obtain rfl := (Prod.mk.inj hgrant).2
            have hpresent : ∃ w ∈ held.secret.recipients, w.keyRef = recipient.activeKeyRef := by
              simpa using hpresent
            exact ⟨.inl, fun h => h.elim id fun h => absurd hpresent h.2⟩
          · obtain rfl := (Prod.mk.inj hgrant).2
            have habsent : ¬ ∃ w ∈ held.secret.recipients, w.keyRef = recipient.activeKeyRef := by
              simpa using hpresent
            constructor
            · rintro ⟨w, hw, dk, hm⟩
              rcases List.mem_append.mp hw with hw | hw
              · exact .inl ⟨w, hw, dk, hm⟩
              · obtain rfl := List.mem_singleton.mp hw
                obtain rfl := hm.dk_unique ideal hmade
                exact .inr ⟨hm.unique ideal hmade, habsent⟩
            · rintro (⟨w, hw, hm⟩ | ⟨rfl, -⟩)
              · exact ⟨w, List.mem_append_left _ hw, hm⟩
              · exact ⟨wrap, List.mem_append_right _ (List.mem_singleton_self _), held.dk, hmade⟩

/-- The wraps after a revocation are those of the other key refs. -/
lemma wrappedUnder_revoke {s s' : MultiRecipientSecret} {keyRef : String}
    (h : s.revoke keyRef = (.ok true, s')) {m : κ} :
    s'.WrappedUnder inUse m ↔
      ∃ w ∈ s.recipients, w.keyRef ≠ keyRef ∧ ∃ dk, MadeUnder inUse dk s.aad w m := by
  rw [MultiRecipientSecret.revoke] at h
  split_ifs at h
  · cases h
  · cases h
  · obtain rfl := (Prod.mk.inj h).2
    simp only [MultiRecipientSecret.WrappedUnder, List.mem_filter, decide_eq_true_eq, and_assoc]

end Readers

/-! ### What is stored -/

/-- The secrets of a plaintext that providers in use make: new ones, and what wraps, grants and
revocations turn them into. -/
inductive Obtained (A : Aead) (inUse : Set (KeyProvider Digest)) (plaintext : Bytes) :
    Object → Prop where
  | envelope {draws : MultiRecipientSecret.Draws} {provider : KeyProvider Digest}
      {aad : SecretAad} {s : SecretV2} (hin : provider ∈ inUse)
      (h : SecretV2.encryptEnvelope A draws plaintext provider aad = .ok s) :
      Obtained A inUse plaintext (.secretV2 s)
  | rewrap {s s' : SecretV2} {old : ProviderChain Digest} {new : KeyProvider Digest}
      {nonce : Nonce} (hs : Obtained A inUse plaintext (.secretV2 s))
      (hin : ∀ q ∈ old.providers, q ∈ inUse) (hnew : new ∈ inUse)
      (h : s.rewrap old new nonce = .ok s') : Obtained A inUse plaintext (.secretV2 s')
  | encryptFor {draws : MultiRecipientSecret.Draws} {recipients : List (KeyProvider Digest)}
      {aad : SecretAad} {s : MultiRecipientSecret} (hin : ∀ p ∈ recipients, p ∈ inUse)
      (h : MultiRecipientSecret.encryptFor A draws plaintext recipients aad = .ok s) :
      Obtained A inUse plaintext (.multiRecipientSecret s)
  | grant {s s' : MultiRecipientSecret} {chain : ProviderChain Digest}
      {recipient : KeyProvider Digest} {nonce : Nonce}
      (hs : Obtained A inUse plaintext (.multiRecipientSecret s))
      (hin : ∀ q ∈ chain.providers, q ∈ inUse) (hr : recipient ∈ inUse)
      (h : s.grant chain recipient nonce = (.ok (), s')) :
      Obtained A inUse plaintext (.multiRecipientSecret s')
  | revoke {s s' : MultiRecipientSecret} {keyRef : String}
      (hs : Obtained A inUse plaintext (.multiRecipientSecret s))
      (h : s.revoke keyRef = (.ok true, s')) :
      Obtained A inUse plaintext (.multiRecipientSecret s')

/-- Some wrap of the object was made under a master key. -/
def Object.WrappedUnder (inUse : Set (KeyProvider Digest)) (o : Object) (master : Digest) : Prop :=
  ∃ s, o.shared = some s ∧ s.WrappedUnder inUse master

section Stored

variable {L : Linked} {A : Aead} {inUse : Set (KeyProvider Digest)} {plaintext : Bytes}
  {stored : Object} {s : ObjectStore} {id : ObjectId} {chain : ProviderChain Digest}

/-- Every such secret is sealed. -/
lemma Obtained.sealed (h : Obtained A inUse plaintext stored) (ideal : IdealWrapping inUse) :
    ∃ secret dk, stored.shared = some secret ∧ Sealed A inUse ⟨secret, plaintext, dk⟩ := by
  induction h with
  | @envelope draws provider aad s hin h =>
      refine ⟨s.shared, draws.dk, rfl, ?_⟩
      rw [SecretV2.encryptEnvelope] at h
      split at h
      · cases h
      · next ciphertext hvalue =>
          obtain ⟨w, hw, h⟩ := Result.bind_eq_ok.mp h
          cases h
          refine ⟨hvalue, by simp [SecretV2.shared], fun w' hw' => ?_⟩
          obtain rfl := List.mem_singleton.mp hw'
          exact ⟨provider.master, provider, hin, rfl, _, hw⟩
  | @rewrap s s' old new nonce _ hin hnew h ih =>
      obtain ⟨_, dk, ⟨⟩, hsealed⟩ := ih
      obtain ⟨dk', hunwrap, h⟩ := Result.bind_eq_ok.mp h
      obtain ⟨w, hw, h⟩ := Result.bind_eq_ok.mp h
      cases h
      obtain ⟨m, hm⟩ := hsealed.wraps s.wrappedDk (List.mem_singleton_self _)
      obtain ⟨rfl, -⟩ := (hm.unwrap_iff ideal hin).mp hunwrap
      refine ⟨_, dk', rfl, hsealed.value, by simp [SecretV2.shared], fun w' hw' => ?_⟩
      obtain rfl := List.mem_singleton.mp hw'
      exact ⟨new.master, new, hnew, rfl, nonce, hw⟩
  | encryptFor hin h => exact ⟨_, _, rfl, sealed_encryptFor hin h⟩
  | @grant s s' chain recipient nonce _ hin hr h ih =>
      obtain ⟨_, dk, ⟨⟩, hsealed⟩ := ih
      have hgrant := (hsealed.grant ideal hin hr nonce).1
      rw [h] at hgrant
      exact ⟨s', dk, rfl, hgrant⟩
  | @revoke s s' keyRef _ h ih =>
      obtain ⟨_, dk, ⟨⟩, hsealed⟩ := ih
      have hrevoke := (hsealed.revoke keyRef).1
      rw [h] at hrevoke
      exact ⟨s', dk, rfl, hrevoke⟩

lemma getSecretResolved_shared (hget : s.get L id = .ok (some stored))
    {secret : MultiRecipientSecret} (hsecret : stored.shared = some secret) :
    s.getSecretResolved L A id chain = (secret.decrypt A chain).map some := by
  have hbind : s.getSecretResolved L A id chain =
      (secret.decrypt A chain >>= fun plaintext => .ok (some plaintext)) := by
    rw [ObjectStore.getSecretResolved, hget]
    cases stored with
    | secretV2 v2 =>
        obtain rfl := Option.some.inj hsecret
        rw [SecretV2.decrypt_shared]
        rfl
    | multiRecipientSecret m =>
        obtain rfl := Option.some.inj hsecret
        rfl
    | _ => cases hsecret
  rw [hbind]
  cases secret.decrypt A chain <;> rfl

/-- **Who reads a stored secret**: whoever holds the master key of a wrap; all others get an
error. -/
lemma Obtained.resolved_iff (h : Obtained A inUse plaintext stored) (ideal : IdealWrapping inUse)
    (hopens : ∀ key nonce aad msg c, A.encrypt key nonce aad msg = some c →
      A.decrypt key nonce.bytes aad c = some msg)
    (hget : s.get L id = .ok (some stored)) (hin : ∀ q ∈ chain.providers, q ∈ inUse) :
    (s.getSecretResolved L A id chain = .ok (some plaintext) ↔
      ∃ q ∈ chain.providers, stored.WrappedUnder inUse q.master) ∧
    (s.getSecretResolved L A id chain = .error .decryptionFailed ↔
      ¬ ∃ q ∈ chain.providers, stored.WrappedUnder inUse q.master) := by
  obtain ⟨secret, dk, hsecret, hsealed⟩ := h.sealed ideal
  have hwrapped : ∀ m, stored.WrappedUnder inUse m ↔ secret.WrappedUnder inUse m := by
    intro m
    simp [Object.WrappedUnder, hsecret]
  obtain ⟨hopen, hshut⟩ := hsealed.decrypt_cases ideal hopens hin
  simp only [hwrapped, getSecretResolved_shared hget hsecret]
  by_cases hholds : ∃ q ∈ chain.providers, secret.WrappedUnder inUse q.master
  · rw [hopen hholds]
    simp [Except.map, hholds]
  · rw [hshut hholds]
    simp [Except.map, hholds]

lemma Obtained.plaintext_eq (h : Obtained A inUse plaintext stored) (ideal : IdealWrapping inUse)
    (hopens : ∀ key nonce aad msg c, A.encrypt key nonce aad msg = some c →
      A.decrypt key nonce.bytes aad c = some msg)
    (hin : ∀ q ∈ chain.providers, q ∈ inUse) {secret : MultiRecipientSecret}
    (hsecret : stored.shared = some secret) {plaintext' : Bytes}
    (hdecrypt : secret.decrypt A chain = .ok plaintext') : plaintext' = plaintext := by
  obtain ⟨_, dk, hsecret', hsealed⟩ := h.sealed ideal
  obtain rfl := Option.some.inj (hsecret.symm.trans hsecret')
  obtain ⟨hopen, hshut⟩ := hsealed.decrypt_cases ideal hopens hin
  by_cases hholds : ∃ q ∈ chain.providers, secret.WrappedUnder inUse q.master
  · rw [hopen hholds] at hdecrypt
    exact (Except.ok.inj hdecrypt).symm
  · rw [hshut hholds] at hdecrypt
    cases hdecrypt

/-! ### Grants -/

/-- A secret with one reader is encrypted anew for the active provider of the granter and the
newcomer, so the key of its wrap is kept if it is one of theirs.  A shared secret keeps its
wraps. -/
def KeepsReaders (inUse : Set (KeyProvider Digest)) (grantingChain : ProviderChain Digest)
    (newRecipient : KeyProvider Digest) : Object → Prop
  | .secretV2 s => ∃ p, (grantingChain.active = .ok p ∨ p = newRecipient) ∧
      (Object.secretV2 s).WrappedUnder inUse p.master
  | _ => True

/-- A shared secret gets no wrap for a key ref that it has, so such a newcomer is admitted if a
wrap is under the key already. -/
def AdmitsNewcomer (inUse : Set (KeyProvider Digest)) (newRecipient : KeyProvider Digest) :
    Object → Prop
  | .multiRecipientSecret s => (∃ w ∈ s.recipients, w.keyRef = newRecipient.activeKeyRef) →
      (Object.multiRecipientSecret s).WrappedUnder inUse newRecipient.master
  | _ => True

variable {draws : MultiRecipientSecret.Draws} {newRecipient : KeyProvider Digest} {obj : Object}

/-- **A grant** makes a secret of the same plaintext; the keys of its wraps. -/
lemma Obtained.granted (h : Obtained A inUse plaintext stored) (ideal : IdealWrapping inUse)
    (hopens : ∀ key nonce aad msg c, A.encrypt key nonce aad msg = some c →
      A.decrypt key nonce.bytes aad c = some msg)
    (hlabel : ∀ p ∈ inUse, ∀ nonce dk aad w, p.wrapDk nonce dk aad = .ok w →
      w.keyRef = p.activeKeyRef)
    (hget : s.get L id = .ok (some stored)) (hin : ∀ q ∈ chain.providers, q ∈ inUse)
    (hnew : newRecipient ∈ inUse)
    (hgranted : s.grantedSecret L A draws id chain newRecipient = .ok obj) :
    Obtained A inUse plaintext obj ∧
      ((∀ m, stored.WrappedUnder inUse m → obj.WrappedUnder inUse m) ↔
        KeepsReaders inUse chain newRecipient stored) ∧
      (obj.WrappedUnder inUse newRecipient.master ↔ AdmitsNewcomer inUse newRecipient stored) := by
  obtain ⟨found, hfound, hgranted⟩ := Result.bind_eq_ok.mp hgranted
  obtain rfl := Except.ok.inj (hget.symm.trans hfound)
  cases stored with
  | secretV2 v2 =>
      obtain ⟨plaintext', hplain, hgranted⟩ := Result.bind_eq_ok.mp hgranted
      obtain ⟨granter, hactive, hgranted⟩ := Result.bind_eq_ok.mp hgranted
      obtain ⟨upgraded, hupgraded, hgranted⟩ := Result.bind_eq_ok.mp hgranted
      cases hgranted
      rw [← SecretV2.decrypt_shared] at hplain
      obtain rfl := h.plaintext_eq ideal hopens hin rfl hplain
      have hgranter : granter ∈ inUse := by
        rw [ProviderChain.active] at hactive
        split at hactive
        · next p hhead =>
            cases hactive
            exact hin _ (List.mem_of_mem_head? hhead)
        · cases hactive
      have hboth : ∀ p ∈ [granter, newRecipient], p ∈ inUse := by
        simp [hgranter, hnew]
      have hwrapped : ∀ m, (Object.multiRecipientSecret upgraded).WrappedUnder inUse m ↔
          granter.master = m ∨ newRecipient.master = m := by
        intro m
        have := wrappedUnder_encryptFor ideal hboth hupgraded (m := m)
        simpa [Object.WrappedUnder, Object.shared] using this
      refine ⟨.encryptFor hboth hupgraded, ?_, iff_of_true ((hwrapped _).mpr (.inr rfl)) trivial⟩
      obtain ⟨_, dk, ⟨⟩, hsealed⟩ := h.sealed ideal
      obtain ⟨m, hmade⟩ := hsealed.wraps v2.wrappedDk (List.mem_singleton_self _)
      have hunder : (Object.secretV2 v2).WrappedUnder inUse m :=
        ⟨_, rfl, _, List.mem_singleton_self _, dk, hmade⟩
      constructor
      · intro hkeeps
        rcases (hwrapped m).mp (hkeeps m hunder) with rfl | rfl
        · exact ⟨granter, .inl hactive, hunder⟩
        · exact ⟨newRecipient, .inr rfl, hunder⟩
      · rintro ⟨p, hp, _, ⟨⟩, w, hw, dk', hmade'⟩ m' ⟨_, ⟨⟩, w', hw', dk'', hmade''⟩
        -- the one wrap is under the key of `p`
        obtain rfl := List.mem_singleton.mp hw
        obtain rfl := List.mem_singleton.mp hw'
        obtain rfl := hmade'.dk_unique ideal hmade''
        obtain rfl := hmade'.unique ideal hmade''
        rcases hp with hp | rfl
        · rw [hactive] at hp
          cases hp
          exact (hwrapped _).mpr (.inl rfl)
        · exact (hwrapped _).mpr (.inr rfl)
  | multiRecipientSecret secret =>
      obtain ⟨_, dk, ⟨⟩, hsealed⟩ := h.sealed ideal
      dsimp only at hgranted
      split at hgranted
      · cases hgranted
      · next secret' hgrant =>
          cases hgranted
          have hwrapped : ∀ m, (Object.multiRecipientSecret secret').WrappedUnder inUse m ↔
              (Object.multiRecipientSecret secret).WrappedUnder inUse m ∨
                m = newRecipient.master ∧
                  ¬ ∃ w ∈ secret.recipients, w.keyRef = newRecipient.activeKeyRef := by
            intro m
            have := hsealed.wrappedUnder_grant ideal hlabel hin hnew hgrant (m := m)
            simpa only [Object.WrappedUnder, Object.shared, Option.some.injEq,
              exists_eq_left'] using this
          refine ⟨.grant h hin hnew hgrant,
            iff_of_true (fun m hm => (hwrapped m).mpr (.inl hm)) trivial, ?_⟩
          rw [hwrapped, AdmitsNewcomer]
          by_cases hpresent : ∃ w ∈ secret.recipients, w.keyRef = newRecipient.activeKeyRef
          · simp [hpresent]
          · simp [hpresent]
  | _ => cases hgranted

/-- **Which readers a grant keeps.**  After a grant that returns `Ok`, every chain that opened the
secret opens the new one to the same plaintext exactly where the keys of its wraps are kept; and
every chain that holds the newcomer's key does exactly where the newcomer is admitted. -/
theorem grant_readers_iff (ideal : IdealWrapping inUse)
    (hopens : ∀ key nonce aad msg c, A.encrypt key nonce aad msg = some c →
      A.decrypt key nonce.bytes aad c = some msg)
    (hlabel : ∀ p ∈ inUse, ∀ nonce dk aad w, p.wrapDk nonce dk aad = .ok w →
      w.keyRef = p.activeKeyRef)
    (hget : s.get L id = .ok (some stored)) (h : Obtained A inUse plaintext stored)
    (hin : ∀ q ∈ chain.providers, q ∈ inUse) (hnew : newRecipient ∈ inUse)
    (hfaithful : s.Faithful L {o | s.grantedSecret L A draws id chain newRecipient = .ok o})
    {mtime : Option ℕ} {newId : ObjectId} {s' : ObjectStore}
    (hgrant : s.grantSecretRecipient L A draws id chain newRecipient mtime = (.ok newId, s')) :
    ((∀ reader : ProviderChain Digest, (∀ q ∈ reader.providers, q ∈ inUse) →
        s.getSecretResolved L A id reader = .ok (some plaintext) →
        s'.getSecretResolved L A newId reader = .ok (some plaintext)) ↔
      KeepsReaders inUse chain newRecipient stored) ∧
    ((∀ reader : ProviderChain Digest, (∀ q ∈ reader.providers, q ∈ inUse) →
        (∃ q ∈ reader.providers, q.master = newRecipient.master) →
        s'.getSecretResolved L A newId reader = .ok (some plaintext)) ↔
      AdmitsNewcomer inUse newRecipient stored) := by
  obtain ⟨obj, hobj, hget'⟩ : ∃ obj,
      s.grantedSecret L A draws id chain newRecipient = .ok obj ∧
        s'.get L newId = .ok (some obj) := by
    rw [ObjectStore.grantSecretRecipient] at hgrant
    split at hgrant
    · cases hgrant
    · next obj hobj =>
        have hput := (hfaithful.put hobj (congrArg Prod.fst hgrant)).2
        rw [hgrant] at hput
        exact ⟨obj, hobj, hput⟩
  obtain ⟨hobtained, hkeeps, hadmits⟩ := h.granted ideal hopens hlabel hget hin hnew hobj
  have hbefore : ∀ reader : ProviderChain Digest, (∀ q ∈ reader.providers, q ∈ inUse) →
      (s.getSecretResolved L A id reader = .ok (some plaintext) ↔
        ∃ q ∈ reader.providers, stored.WrappedUnder inUse q.master) :=
    fun reader hr => (h.resolved_iff ideal hopens hget hr).1
  have hafter : ∀ reader : ProviderChain Digest, (∀ q ∈ reader.providers, q ∈ inUse) →
      (s'.getSecretResolved L A newId reader = .ok (some plaintext) ↔
        ∃ q ∈ reader.providers, obj.WrappedUnder inUse q.master) :=
    fun reader hr => (hobtained.resolved_iff ideal hopens hget' hr).1
  rw [← hkeeps, ← hadmits]
  constructor
  · constructor
    · -- the chain of the provider that made a wrap
      rintro hall m ⟨secret, hsecret, w, hw, dk, p, hp, rfl, hwrap⟩
      have hone : ∀ q ∈ [p], q ∈ inUse := by simpa using hp
      have hread := (hbefore ⟨[p], []⟩ hone).mpr
        ⟨p, List.mem_singleton_self _, secret, hsecret, w, hw, dk, p, hp, rfl, hwrap⟩
      obtain ⟨q, hq, hunder⟩ := (hafter ⟨[p], []⟩ hone).mp (hall _ hone hread)
      rwa [List.mem_singleton.mp hq] at hunder
    · intro hsub reader hr hread
      obtain ⟨q, hq, hunder⟩ := (hbefore reader hr).mp hread
      exact (hafter reader hr).mpr ⟨q, hq, hsub _ hunder⟩
  · constructor
    · intro hall
      have hone : ∀ q ∈ [newRecipient], q ∈ inUse := by simpa using hnew
      obtain ⟨q, hq, hunder⟩ := (hafter ⟨[newRecipient], []⟩ hone).mp
        (hall _ hone ⟨newRecipient, List.mem_singleton_self _, rfl⟩)
      rwa [List.mem_singleton.mp hq] at hunder
    · rintro hunder reader hr ⟨q, hq, hmaster⟩
      exact (hafter reader hr).mpr ⟨q, hq, hmaster ▸ hunder⟩

/-! ### Revocations -/

/-- **Whom a revocation shuts out.**  After a revocation of a provider's key ref that returns
`Ok`, a chain that holds only the provider's master key cannot open the new secret, whatever key
refs it goes by, exactly where every wrap under this key carried the key ref. -/
theorem revoke_readers_iff (ideal : IdealWrapping inUse)
    (hopens : ∀ key nonce aad msg c, A.encrypt key nonce aad msg = some c →
      A.decrypt key nonce.bytes aad c = some msg)
    {secret : MultiRecipientSecret} (hget : s.get L id = .ok (some (.multiRecipientSecret secret)))
    (h : Obtained A inUse plaintext (.multiRecipientSecret secret)) {p : KeyProvider Digest}
    (hp : p ∈ inUse) (hfaithful : s.Faithful L {o | s.revokedSecret L id p.activeKeyRef = .ok o})
    {mtime : Option ℕ} {newId : ObjectId} {s' : ObjectStore}
    (hrevoke : s.revokeSecretRecipient L id p.activeKeyRef mtime = (.ok newId, s')) :
    (∀ reader : ProviderChain Digest, (∀ q ∈ reader.providers, q ∈ inUse ∧ q.master = p.master) →
        s'.getSecretResolved L A newId reader = .error .decryptionFailed) ↔
      ∀ w ∈ secret.recipients, (∃ dk, MadeUnder inUse dk secret.aad w p.master) →
        w.keyRef = p.activeKeyRef := by
  obtain ⟨obj, hobj, hget'⟩ : ∃ obj, s.revokedSecret L id p.activeKeyRef = .ok obj ∧
      s'.get L newId = .ok (some obj) := by
    rw [ObjectStore.revokeSecretRecipient] at hrevoke
    split at hrevoke
    · cases hrevoke
    · next obj hobj =>
        have hput := (hfaithful.put hobj (congrArg Prod.fst hrevoke)).2
        rw [hrevoke] at hput
        exact ⟨obj, hobj, hput⟩
  obtain ⟨found, hfound, hobj⟩ := Result.bind_eq_ok.mp hobj
  obtain rfl := Except.ok.inj (hget.symm.trans hfound)
  dsimp only at hobj
  split at hobj
  · cases hobj
  · cases hobj
  · next secret' hsecret' =>
      cases hobj
      have hafter : ∀ reader : ProviderChain Digest, (∀ q ∈ reader.providers, q ∈ inUse) →
          (s'.getSecretResolved L A newId reader = .error .decryptionFailed ↔
            ¬ ∃ q ∈ reader.providers,
              (Object.multiRecipientSecret secret').WrappedUnder inUse q.master) :=
        fun reader hr => ((h.revoke hsecret').resolved_iff ideal hopens hget' hr).2
      have hunder : (Object.multiRecipientSecret secret').WrappedUnder inUse p.master ↔
          ¬ ∀ w ∈ secret.recipients, (∃ dk, MadeUnder inUse dk secret.aad w p.master) →
            w.keyRef = p.activeKeyRef := by
        have hstay : secret'.WrappedUnder inUse p.master ↔ _ := wrappedUnder_revoke hsecret'
        simp only [Object.WrappedUnder, Object.shared, Option.some.injEq, exists_eq_left', hstay]
        push Not
        exact exists_congr fun w => and_congr_right fun _ => and_comm
      rw [← not_not (a := ∀ w ∈ secret.recipients, _), ← hunder]
      constructor
      · intro hall hw
        have hone : ∀ q ∈ [p], q ∈ inUse ∧ q.master = p.master := by simpa using hp
        exact (hafter ⟨[p], []⟩ fun q hq => (hone q hq).1).mp (hall _ hone)
          ⟨p, List.mem_singleton_self _, hw⟩
      · intro hw reader hr
        refine (hafter reader fun q hq => (hr q hq).1).mpr ?_
        rintro ⟨q, hq, hwrapped⟩
        exact hw ((hr q hq).2 ▸ hwrapped)

end Stored

/-! ### A reader who is dropped, and one who is not -/

def carol : KeyProvider Digest := localProvider tagAead .reference (.replicate 3) "actor:carol"

/-- Alice's key, as the commands make it of a file and of the environment. -/
def aliceFile : KeyProvider Digest := localProvider tagAead .reference (.replicate 1) "file"

def aliceEnv : KeyProvider Digest := localProvider tagAead .reference (.replicate 1) "env"

/-- The wraps of the data key of `sharedDraws`. -/
def drawnWrap (p : KeyProvider Digest) : WrappedKey :=
  ⟨p.activeKeyRef, (sharedDraws.wraps 0).bytes ++ (sharedDraws.dk.bytes ++ p.master.bytes.take 16)⟩

def drawnSecret (recipients : List (KeyProvider Digest)) : MultiRecipientSecret :=
  ⟨recipients.map drawnWrap, sharedDraws.nonce, ascii "v" ++ sharedDraws.dk.bytes.take 16,
    .v2 none⟩

/-- A secret of Bob's. -/
def bobsSecret : SecretV2 :=
  ⟨drawnWrap bob, sharedDraws.nonce, ascii "v" ++ sharedDraws.dk.bytes.take 16, .v2 none⟩

def drawnObjects : List Object :=
  [.secretV2 bobsSecret, .multiRecipientSecret (drawnSecret [bob, aliceFile, aliceEnv]),
    .multiRecipientSecret (drawnSecret [alice, carol]),
    .multiRecipientSecret (drawnSecret [bob, aliceEnv]),
    .multiRecipientSecret (drawnSecret [bob, aliceFile, aliceEnv, carol]),
    .multiRecipientSecret (drawnSecret [aliceFile, aliceEnv])]

/-- The first two are stored. -/
def drawnStore : ObjectStore := .holding (.over drawnObjects) (drawnObjects.take 2)

/-- The master keys of the three. -/
def teamKeys : Set Digest := {.replicate 1, .replicate 2, .replicate 3}

lemma bob_inUse : bob ∈ localProviders tagAead .reference teamKeys :=
  ⟨_, .inr (.inl rfl), "actor:bob", rfl⟩

lemma carol_inUse : carol ∈ localProviders tagAead .reference teamKeys :=
  ⟨_, .inr (.inr rfl), "actor:carol", rfl⟩

lemma aliceFile_inUse : aliceFile ∈ localProviders tagAead .reference teamKeys :=
  ⟨_, .inl rfl, "file", rfl⟩

lemma aliceEnv_inUse : aliceEnv ∈ localProviders tagAead .reference teamKeys :=
  ⟨_, .inl rfl, "env", rfl⟩

lemma teamKeys_ideal : IdealWrapping (localProviders tagAead .reference teamKeys) := by
  refine localProvider_ideal (tagAead_ideal_of fun key hkey key' hkey' hne => ?_)
  rcases hkey with rfl | rfl | rfl <;> rcases hkey' with rfl | rfl | rfl <;>
    first | exact absurd rfl hne | decide

lemma localProvider_label {A : Aead} {C : Crates} {keys : Set Digest} :
    ∀ p ∈ localProviders A C keys, ∀ nonce dk aad w, p.wrapDk nonce dk aad = .ok w →
      w.keyRef = p.activeKeyRef := by
  rintro _ ⟨mk, -, refPrefix, rfl⟩ nonce dk aad w hw
  simp only [localProvider] at hw
  split at hw
  · cases hw
  · cases hw
    rfl

lemma drawnSecret_obtained {recipients : List (KeyProvider Digest)}
    (hin : ∀ p ∈ recipients, p ∈ localProviders tagAead .reference teamKeys)
    (h : MultiRecipientSecret.encryptFor tagAead sharedDraws (ascii "v") recipients (.v2 none) =
      .ok (drawnSecret recipients)) :
    Obtained tagAead (localProviders tagAead .reference teamKeys) (ascii "v")
      (.multiRecipientSecret (drawnSecret recipients)) :=
  .encryptFor hin h

/-- The secret that Bob and Alice share. -/
def sharedId : ObjectId :=
  (Object.multiRecipientSecret (drawnSecret [bob, aliceFile, aliceEnv])).refId

/-- What is evaluated of the objects and the store. -/
lemma drawnStore_evaluated :
    (drawnObjects.map Postcard.object).Nodup ∧ (drawnObjects.map Object.refId).Nodup ∧
      (∀ o ∈ drawnObjects, drawnStore.exists_ o.refId = .ok true →
        drawnStore.getRaw (.over drawnObjects) o.refId = .ok (some (Postcard.object o))) ∧
      drawnStore.exists_ sharedId = .ok true := by
  decide +kernel

lemma drawnStore_faithful : drawnStore.Faithful (.over drawnObjects) {o | o ∈ drawnObjects} :=
  ObjectStore.faithful_over drawnStore_evaluated.1 drawnStore_evaluated.2.1
    drawnStore_evaluated.2.2.1

lemma exists_store {r : Result ObjectId × ObjectStore} {id : ObjectId} (h : r.1 = .ok id) :
    ∃ s', r = (.ok id, s') := ⟨r.2, Prod.ext h rfl⟩

lemma drawnStore_shared : drawnStore.get (.over drawnObjects) sharedId =
    .ok (some (.multiRecipientSecret (drawnSecret [bob, aliceFile, aliceEnv]))) :=
  ObjectStore.object_eq_some.mp
    (drawnStore_faithful.get (by simp [drawnObjects]) rfl drawnStore_evaluated.2.2.2)

lemma shared_inUse :
    ∀ p ∈ [bob, aliceFile, aliceEnv], p ∈ localProviders tagAead .reference teamKeys := by
  simp only [List.mem_cons, List.not_mem_nil, or_false]
  rintro p (rfl | rfl | rfl)
  · exact bob_inUse
  · exact aliceFile_inUse
  · exact aliceEnv_inUse

/-- Bob grants Carol access to it: whoever read it reads the new one, and so does Carol. -/
theorem grant_readers_iff_carol :
    ∃ newId s', drawnStore.grantSecretRecipient (.over drawnObjects) tagAead sharedDraws sharedId
        ⟨[bob], []⟩ carol none = (.ok newId, s') ∧
      (∀ reader : ProviderChain Digest,
        (∀ q ∈ reader.providers, q ∈ localProviders tagAead .reference teamKeys) →
        drawnStore.getSecretResolved (.over drawnObjects) tagAead sharedId reader =
          .ok (some (ascii "v")) →
        s'.getSecretResolved (.over drawnObjects) tagAead newId reader =
          .ok (some (ascii "v"))) ∧
      ∀ reader : ProviderChain Digest,
        (∀ q ∈ reader.providers, q ∈ localProviders tagAead .reference teamKeys) →
        (∃ q ∈ reader.providers, q.master = carol.master) →
        s'.getSecretResolved (.over drawnObjects) tagAead newId reader =
          .ok (some (ascii "v")) := by
  have hgrant : ((drawnSecret [bob, aliceFile, aliceEnv]).grant ⟨[bob], []⟩ carol
        (sharedDraws.wraps 0) = (.ok (), drawnSecret [bob, aliceFile, aliceEnv, carol]) ∧
      (drawnStore.grantSecretRecipient (.over drawnObjects) tagAead sharedDraws sharedId
        ⟨[bob], []⟩ carol none).1 =
        .ok (Object.multiRecipientSecret (drawnSecret [bob, aliceFile, aliceEnv, carol])).refId) ∧
      ¬ ∃ w ∈ (drawnSecret [bob, aliceFile, aliceEnv]).recipients,
        w.keyRef = carol.activeKeyRef := by
    decide +kernel
  have hobj : ∀ o, drawnStore.grantedSecret (.over drawnObjects) tagAead sharedDraws sharedId
      ⟨[bob], []⟩ carol = .ok o → o ∈ drawnObjects := by
    intro o ho
    obtain ⟨found, hfound, ho⟩ := Result.bind_eq_ok.mp ho
    obtain rfl := Except.ok.inj (drawnStore_shared.symm.trans hfound)
    simp only [hgrant.1.1, Except.ok.injEq] at ho
    simp [drawnObjects, ← ho]
  obtain ⟨s', hstored⟩ := exists_store hgrant.1.2
  have hiff := grant_readers_iff teamKeys_ideal tagAead_opens localProvider_label drawnStore_shared
    (drawnSecret_obtained shared_inUse rfl) (by simpa using bob_inUse) carol_inUse
    (drawnStore_faithful.mono hobj) hstored
  exact ⟨_, s', hstored, hiff.1.mpr trivial, hiff.2.mpr fun h => absurd h hgrant.2⟩

/-- Alice holds Bob's old key behind her own, and grants Carol access: Bob is no reader of the new
secret. -/
theorem grant_drops_bob :
    let granted := drawnStore.grantSecretRecipient (.over drawnObjects) tagAead sharedDraws
      (Object.secretV2 bobsSecret).refId ⟨[alice, bob], []⟩ carol none
    granted.1 = .ok (Object.multiRecipientSecret (drawnSecret [alice, carol])).refId ∧
      drawnStore.getSecretResolved (.over drawnObjects) tagAead
        (Object.secretV2 bobsSecret).refId ⟨[bob], []⟩ = .ok (some (ascii "v")) ∧
      granted.2.getSecretResolved (.over drawnObjects) tagAead
        (Object.multiRecipientSecret (drawnSecret [alice, carol])).refId ⟨[bob], []⟩ =
        .error .decryptionFailed := by
  decide +kernel

/-- Bob is revoked: his key does not open the new secret. -/
theorem revoke_readers_iff_bob :
    ∃ newId s', drawnStore.revokeSecretRecipient (.over drawnObjects) sharedId bob.activeKeyRef
        none = (.ok newId, s') ∧
      ∀ reader : ProviderChain Digest,
        (∀ q ∈ reader.providers, q ∈ localProviders tagAead .reference teamKeys ∧
          q.master = bob.master) →
        s'.getSecretResolved (.over drawnObjects) tagAead newId reader =
          .error .decryptionFailed := by
  have hrevoke : (drawnSecret [bob, aliceFile, aliceEnv]).revoke bob.activeKeyRef =
        (.ok true, drawnSecret [aliceFile, aliceEnv]) ∧
      (drawnStore.revokeSecretRecipient (.over drawnObjects) sharedId bob.activeKeyRef none).1 =
        .ok (Object.multiRecipientSecret (drawnSecret [aliceFile, aliceEnv])).refId := by
    decide +kernel
  have hobj : ∀ o, drawnStore.revokedSecret (.over drawnObjects) sharedId bob.activeKeyRef = .ok o →
      o ∈ drawnObjects := by
    intro o ho
    obtain ⟨found, hfound, ho⟩ := Result.bind_eq_ok.mp ho
    obtain rfl := Except.ok.inj (drawnStore_shared.symm.trans hfound)
    simp only [hrevoke.1, Except.ok.injEq] at ho
    simp [drawnObjects, ← ho]
  obtain ⟨s', hstored⟩ := exists_store hrevoke.2
  refine ⟨_, s', hstored, (revoke_readers_iff teamKeys_ideal tagAead_opens drawnStore_shared
    (drawnSecret_obtained shared_inUse rfl) bob_inUse (drawnStore_faithful.mono hobj)
    hstored).mpr ?_⟩
  have hown : ∀ p ∈ [aliceFile, aliceEnv], p.master ≠ bob.master ∧
      p.wrapDk (sharedDraws.wraps 0) sharedDraws.dk (SecretAad.v2 none).toBytes =
        .ok (drawnWrap p) := by
    decide +kernel
  rintro w hw ⟨dk, hmade⟩
  obtain ⟨p, hp, rfl⟩ := List.mem_map.mp hw
  rcases List.mem_cons.mp hp with rfl | hp'
  · rfl
  · -- no wrap of Alice's is under Bob's key
    have hmade' : MadeUnder (localProviders tagAead .reference teamKeys) sharedDraws.dk
        (.v2 none) (drawnWrap p) p.master :=
      ⟨p, shared_inUse p hp, rfl, _, (hown p hp').2⟩
    obtain rfl := hmade.dk_unique teamKeys_ideal hmade'
    exact absurd (hmade'.unique teamKeys_ideal hmade) (hown p hp').1

/-- Alice is a recipient by the key of her file and by that of the environment, which is the same
one: the first is revoked, and her key opens the new secret. -/
theorem revoke_leaves_key :
    let revoked := drawnStore.revokeSecretRecipient (.over drawnObjects) sharedId
      aliceFile.activeKeyRef none
    aliceEnv.master = aliceFile.master ∧
      revoked.1 = .ok (Object.multiRecipientSecret (drawnSecret [bob, aliceEnv])).refId ∧
      revoked.2.getSecretResolved (.over drawnObjects) tagAead
        (Object.multiRecipientSecret (drawnSecret [bob, aliceEnv])).refId ⟨[aliceEnv], []⟩ =
        .ok (some (ascii "v")) := by
  decide +kernel

end Bole
