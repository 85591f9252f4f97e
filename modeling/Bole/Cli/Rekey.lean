import Bole.Cli.Overlays
import Bole.Cli.Recipients

/-!
The rotation of a master key (`rekey` of `src/repo/mod.rs`), over every format of secrets.

* `Keeping`: what is asked of the store;
* `rekeyed_opens`: one secret that is rekeyed opens under the new key to the same plaintext;
* `rekey_covers_iff`: **the whole list does**, unless a shared secret is in it.
-/

namespace Bole

open Command

/-! ### The store -/

/-- The store takes the given objects and gives them back. -/
structure Keeping (L : Linked) (objs : Set Object) (s : ObjectStore) : Prop where
  faithful : s.Faithful L objs
  writes : ∀ o ∈ objs, ∃ b, L.codec.serialize o = .ok b
  answers : ∀ id, ∃ found, s.exists_ id = .ok found

section Keeping

variable {L : Linked} {objs : Set Object} {s : ObjectStore} {obj : Object}

/-- A write of such an object succeeds, and it reads back. -/
lemma Keeping.put (h : Keeping L objs s) (hobj : obj ∈ objs) (mtime : Option ℕ) :
    ∃ id, (s.put L obj mtime).1 = .ok id ∧ Keeping L objs (s.put L obj mtime).2 ∧
      (s.put L obj mtime).2.get L id = .ok (some obj) := by
  obtain ⟨b, hb⟩ := h.writes obj hobj
  have hok : ∃ id, (s.put L obj mtime).1 = .ok id := by
    obtain ⟨found, hfound⟩ := h.answers (L.fromContent b)
    rw [ObjectStore.put, hb]
    cases found with
    | true => exact ⟨_, congrArg Prod.fst (ObjectStore.putRaw_found mtime hfound)⟩
    | false => exact ⟨_, (ObjectStore.putRaw_backend mtime hfound).1⟩
  obtain ⟨id, hid⟩ := hok
  obtain ⟨hfaithful, hget⟩ := h.faithful.put hobj hid
  exact ⟨id, hid, ⟨hfaithful, h.writes, ObjectStore.exists_put_answers h.answers obj mtime⟩, hget⟩

end Keeping

/-! ### One secret -/

section Rekeyed

variable {L : Linked} {A : Aead} {s t : ObjectStore} {draws : MultiRecipientSecret.Draws}
  {id : ObjectId} {old : ProviderChain Digest} {new : KeyProvider Digest} {plaintext : Bytes}

lemma rekeyedSecret_congr (h : t.get L id = s.get L id) :
    t.rekeyedSecret L A draws id old new = s.rekeyedSecret L A draws id old new := by
  rw [ObjectStore.rekeyedSecret, ObjectStore.rekeyedSecret, h]

/-- A shared secret is not rekeyed. -/
lemma rekeyedSecret_shared {secret : MultiRecipientSecret}
    (h : s.get L id = .ok (some (.multiRecipientSecret secret))) :
    s.rekeyedSecret L A draws id old new = .error (.codec ("not a secret: " ++ id.toHex)) := by
  rw [ObjectStore.rekeyedSecret, h]
  rfl

lemma unwrap_one {dk : Digest} {aad : Bytes} {w : WrappedKey}
    (hunwrap : new.unwrapDk w aad = .ok dk) : ProviderChain.unwrap ⟨[new], []⟩ w aad = .ok dk := by
  have hfirst : ProviderChain.firstUnwrap [new] w aad = some dk := by
    simp [ProviderChain.firstUnwrap, hunwrap, Except.toOption]
  rw [ProviderChain.unwrap, hfirst]
  by_cases hlabel : new.activeKeyRef = w.keyRef
  · simp [hlabel, hfirst]
  · simp only [hlabel, decide_false, Bool.false_eq_true, not_false_eq_true,
      List.filter_cons_of_neg, List.filter_nil]
    rfl

/-- **One secret** with one reader that the old chain opens: what is put for it opens under the new
key alone, to the same plaintext. -/
lemma rekeyed_opens
    (hencrypts : ∀ key nonce aad msg, ∃ c, A.encrypt key nonce aad msg = some c)
    (hopens : ∀ key nonce aad msg c, A.encrypt key nonce aad msg = some c →
      A.decrypt key nonce.bytes aad c = some msg)
    (hwraps : ∀ nonce dk aad, ∃ w, new.wrapDk nonce dk aad = .ok w)
    (hunwraps : ∀ nonce dk aad w, new.wrapDk nonce dk aad = .ok w → new.unwrapDk w aad = .ok dk)
    (hresolved : s.getSecretResolved L A id old = .ok (some plaintext))
    (hsingle : ∀ secret, s.get L id ≠ .ok (some (.multiRecipientSecret secret))) :
    ∃ obj, s.rekeyedSecret L A draws id old new = .ok obj ∧
      ∀ (u : ObjectStore) (newId : ObjectId), u.get L newId = .ok (some obj) →
        u.getSecretResolved L A newId ⟨[new], []⟩ = .ok (some plaintext) := by
  obtain ⟨found, hfound, hresolved⟩ := Result.bind_eq_ok.mp hresolved
  cases found with
  | none => cases hresolved
  | some obj =>
      cases obj with
      | secretV2 v2 =>
          obtain ⟨plaintext', hdecrypt, hresolved⟩ := Result.bind_eq_ok.mp hresolved
          cases hresolved
          obtain ⟨dk, hdk, hvalue⟩ := Result.bind_eq_ok.mp hdecrypt
          obtain ⟨w, hw⟩ := hwraps (draws.wraps 0) dk v2.aad.toBytes
          refine ⟨.secretV2 { v2 with wrappedDk := w }, ?_, fun u newId hget => ?_⟩
          · rw [ObjectStore.rekeyedSecret, hfound]
            refine Result.bind_eq_ok.mpr ⟨_, rfl, Result.bind_eq_ok.mpr ⟨_, ?_, rfl⟩⟩
            exact Result.bind_eq_ok.mpr ⟨dk, hdk, Result.bind_eq_ok.mpr ⟨w, hw, rfl⟩⟩
          · rw [ObjectStore.getSecretResolved, hget]
            refine Result.bind_eq_ok.mpr ⟨_, rfl, Result.bind_eq_ok.mpr ⟨plaintext, ?_, rfl⟩⟩
            exact Result.bind_eq_ok.mpr ⟨dk, unwrap_one (hunwraps _ _ _ _ hw), hvalue⟩
      | secret v1 =>
          dsimp only at hresolved
          split at hresolved
          · next plaintext' hlegacy =>
              cases hresolved
              obtain ⟨c, hc⟩ := hencrypts draws.dk draws.nonce (SecretAad.v2 none).toBytes plaintext
              obtain ⟨w, hw⟩ := hwraps (draws.wraps 0) draws.dk (SecretAad.v2 none).toBytes
              refine ⟨.secretV2 ⟨w, draws.nonce, c, .v2 none⟩, ?_, fun u newId hget => ?_⟩
              · rw [ObjectStore.rekeyedSecret, hfound]
                refine Result.bind_eq_ok.mpr ⟨_, rfl, ?_⟩
                simp only [hlegacy]
                refine Result.bind_eq_ok.mpr ⟨_, ?_, rfl⟩
                rw [SecretV2.encryptEnvelope, hc]
                exact Result.bind_eq_ok.mpr ⟨w, hw, rfl⟩
              · rw [ObjectStore.getSecretResolved, hget]
                refine Result.bind_eq_ok.mpr ⟨_, rfl, Result.bind_eq_ok.mpr ⟨plaintext, ?_, rfl⟩⟩
                refine Result.bind_eq_ok.mpr
                  ⟨draws.dk, unwrap_one (hunwraps _ _ _ _ hw), ?_⟩
                dsimp only
                rw [hopens _ _ _ _ _ hc]
          · cases hresolved
      | multiRecipientSecret secret => exact absurd hfound (hsingle secret)
      | _ => cases hresolved

/-! ### The list -/

variable {mtime : Option ℕ} {ctx : SecretsContext} {objs : Set Object}
  {draws : ℕ → MultiRecipientSecret.Draws} {ids : List ObjectId}

/-- A secret that the old chain opens stays as it is. -/
lemma get_putting {obj : Object}
    (hresolved : ∃ plaintext, s.getSecretResolved L A id old = .ok (some plaintext))
    (hsame : ctx.repo.objects.get L id = s.get L id) :
    (ctx.putting L mtime obj).repo.objects.get L id = s.get L id := by
  obtain ⟨plaintext, hresolved⟩ := hresolved
  obtain ⟨found, hfound, hresolved⟩ := Result.bind_eq_ok.mp hresolved
  cases found with
  | none => cases hresolved
  | some found =>
      rw [hfound] at hsame ⊢
      exact ObjectStore.object_eq_some.mp (ObjectStore.put_grows L ctx.repo.objects obj mtime _ _
        (ObjectStore.object_eq_some.mpr hsame))

/-- **The loop**, over secrets with one reader that the old chain opens: every one is put, and opens
under the new key. -/
lemma ensures_rekeyObjects_opens
    (hencrypts : ∀ key nonce aad msg, ∃ c, A.encrypt key nonce aad msg = some c)
    (hopens : ∀ key nonce aad msg c, A.encrypt key nonce aad msg = some c →
      A.decrypt key nonce.bytes aad c = some msg)
    (hwraps : ∀ nonce dk aad, ∃ w, new.wrapDk nonce dk aad = .ok w)
    (hunwraps : ∀ nonce dk aad w, new.wrapDk nonce dk aad = .ok w → new.unwrapDk w aad = .ok dk)
    (hresolved : ∀ id ∈ ids, ∃ plaintext, s.getSecretResolved L A id old = .ok (some plaintext))
    (hsingle : ∀ id ∈ ids, ∀ secret, s.get L id ≠ .ok (some (.multiRecipientSecret secret)))
    (i : ℕ) (hobjs : ∀ j id, ids[j]? = some id → ∀ o,
      s.rekeyedSecret L A (draws (i + j)) id old new = .ok o → o ∈ objs)
    (hkeeping : Keeping L objs ctx.repo.objects) (hsame : ∀ id ∈ ids,
      ctx.repo.objects.get L id = s.get L id) :
    Ensures (rekeyObjects L A mtime draws old new i ids) ctx
      (fun mapping t => mapping.map Prod.fst = ids ∧ ctx.repo.objects.Grows L t.repo.objects ∧
        ∀ p ∈ mapping, ∀ plaintext, s.getSecretResolved L A p.1 old = .ok (some plaintext) →
          t.repo.objects.getSecretResolved L A p.2 ⟨[new], []⟩ = .ok (some plaintext))
      fun _ _ => False := by
  induction ids generalizing i ctx with
  | nil => exact ⟨rfl, .refl L _, by simp⟩
  | cons id rest ih =>
      obtain ⟨⟨plaintext, hid⟩, hrest⟩ := List.forall_mem_cons.mp hresolved
      obtain ⟨hone, hrestSingle⟩ := List.forall_mem_cons.mp hsingle
      obtain ⟨hidSame, hrestSame⟩ := List.forall_mem_cons.mp hsame
      obtain ⟨obj, hobj, hopen⟩ : ∃ obj, s.rekeyedSecret L A (draws i) id old new = .ok obj ∧ _ :=
        rekeyed_opens hencrypts hopens hwraps hunwraps hid hone
      obtain ⟨newId, hput, hkeeping', hget⟩ := hkeeping.put (hobjs 0 id rfl obj hobj) mtime
      have hgrows : ctx.repo.objects.Grows L (ctx.putting L mtime obj).repo.objects :=
        ObjectStore.put_grows L ctx.repo.objects obj mtime
      have hturn : ctx.repo.objects.rekeyedSecret L A (draws i) id old new =
          s.rekeyedSecret L A (draws i) id old new := rekeyedSecret_congr hidSame
      have hsame' : ∀ id ∈ rest,
          (ctx.putting L mtime obj).repo.objects.get L id = s.get L id := fun id' hid' =>
        get_putting (hrest id' hid') (hrestSame id' hid')
      have hobjs' : ∀ j id', rest[j]? = some id' → ∀ o,
          s.rekeyedSecret L A (draws (i + 1 + j)) id' old new = .ok o → o ∈ objs := by
        intro j id' hj o ho
        refine hobjs (j + 1) id' hj o ?_
        rwa [show i + (j + 1) = i + 1 + j by omega]
      simp only [rekeyObjects, ensures_bind, ensures_get, ensures_lift,
        SecretsContext.ensures_putObject, hturn, hobj, Except.ok.injEq, reduceCtorEq,
        IsEmpty.forall_iff, implies_true, and_true, forall_eq', hput]
      refine (ih hrest hrestSingle (i + 1) hobjs' hkeeping' hsame').mono
        (fun mapping t h => ?_) fun _ _ h => h
      obtain ⟨hfst, hgrows', hall⟩ := h
      refine ⟨congrArg (List.cons id) hfst, hgrows.trans hgrows', ?_⟩
      rintro p hp plaintext' hplain
      rcases List.mem_cons.mp hp with rfl | hp
      · -- the new secret is still there after the rest of the loop
        obtain rfl : plaintext = plaintext' := by
          simpa using hid.symm.trans hplain
        refine hopen t.repo.objects newId ?_
        exact ObjectStore.object_eq_some.mp (hgrows' _ _ (ObjectStore.object_eq_some.mpr hget))
      · exact hall p hp plaintext' hplain

/-- **The loop**, where it returns: no id names a shared secret. -/
lemma ensures_rekeyObjects_single
    (hresolved : ∀ id ∈ ids, ∃ plaintext, s.getSecretResolved L A id old = .ok (some plaintext))
    (i : ℕ) (hsame : ∀ id ∈ ids, ctx.repo.objects.get L id = s.get L id) :
    Ensures (rekeyObjects L A mtime draws old new i ids) ctx
      (fun _ _ => ∀ id ∈ ids, ∀ secret, s.get L id ≠ .ok (some (.multiRecipientSecret secret)))
      fun _ _ => True := by
  induction ids generalizing i ctx with
  | nil => simp [rekeyObjects]
  | cons id rest ih =>
      obtain ⟨-, hrest⟩ := List.forall_mem_cons.mp hresolved
      obtain ⟨hidSame, hrestSame⟩ := List.forall_mem_cons.mp hsame
      simp only [rekeyObjects, ensures_bind, ensures_get, ensures_lift,
        SecretsContext.ensures_putObject, implies_true, and_true, ensures_pure]
      intro obj hobj newId _
      refine (ih hrest (i + 1) fun id' hid' =>
        get_putting (hrest id' hid') (hrestSame id' hid')).mono (fun _ _ h => ?_) fun _ _ h => h
      refine List.forall_mem_cons.mpr ⟨fun secret hsecret => ?_, h⟩
      rw [rekeyedSecret_shared (hidSame.trans hsecret)] at hobj
      cases hobj

/-- A shared secret ends the loop. -/
lemma rekeyObjects_shared (ctx : SecretsContext) {secret : MultiRecipientSecret}
    (h : ctx.repo.objects.get L id = .ok (some (.multiRecipientSecret secret))) {i : ℕ} :
    (rekeyObjects L A mtime draws old new i (id :: ids)).run ctx =
      .error (.codec ("not a secret: " ++ id.toHex)) ctx := by
  change (lift (ctx.repo.objects.rekeyedSecret L A (draws i) id old new) >>= _).run ctx = _
  rw [rekeyedSecret_shared h]
  rfl

end Rekeyed

/-- **Which lists are rekeyed.**  Where every id names a secret that the old chain opens, `rekey`
returns `Ok` with a pair for each id, whose new secret opens under the new key alone to the same
plaintext, exactly where no id names a shared secret. -/
theorem rekey_covers_iff {L : Linked} {A : Aead} {mtime : Option ℕ} {ctx : SecretsContext}
    {draws : ℕ → MultiRecipientSecret.Draws} {old : ProviderChain Digest}
    {new : KeyProvider Digest} {ids : List ObjectId}
    (hencrypts : ∀ key nonce aad msg, ∃ c, A.encrypt key nonce aad msg = some c)
    (hopens : ∀ key nonce aad msg c, A.encrypt key nonce aad msg = some c →
      A.decrypt key nonce.bytes aad c = some msg)
    (hwraps : ∀ nonce dk aad, ∃ w, new.wrapDk nonce dk aad = .ok w)
    (hunwraps : ∀ nonce dk aad w, new.wrapDk nonce dk aad = .ok w → new.unwrapDk w aad = .ok dk)
    (hkeeping : Keeping L {o | ∃ i id, ids[i]? = some id ∧
      ctx.repo.objects.rekeyedSecret L A (draws i) id old new = .ok o} ctx.repo.objects)
    (hresolved : ∀ id ∈ ids, ∃ plaintext,
      ctx.repo.objects.getSecretResolved L A id old = .ok (some plaintext)) :
    (∃ mapping t, (rekeyObjects L A mtime draws old new 0 ids).run ctx = .ok mapping t ∧
      mapping.map Prod.fst = ids ∧ ∀ p ∈ mapping, ∀ plaintext,
        ctx.repo.objects.getSecretResolved L A p.1 old = .ok (some plaintext) →
        t.repo.objects.getSecretResolved L A p.2 ⟨[new], []⟩ = .ok (some plaintext)) ↔
      ∀ id ∈ ids, ∀ secret,
        ctx.repo.objects.get L id ≠ .ok (some (.multiRecipientSecret secret)) := by
  constructor
  · rintro ⟨mapping, t, hrun, -⟩
    exact (ensures_rekeyObjects_single hresolved 0 fun _ _ => rfl).of_ok hrun
  · intro hsingle
    have hloop : Ensures (rekeyObjects L A mtime draws old new 0 ids) ctx _ _ :=
      ensures_rekeyObjects_opens hencrypts hopens hwraps hunwraps hresolved hsingle 0
        (by simpa using fun j id hj o ho => ⟨j, id, hj, ho⟩) hkeeping fun _ _ => rfl
    cases hrun : (rekeyObjects L A mtime draws old new 0 ids).run ctx with
    | ok mapping t =>
        obtain ⟨hfst, -, hall⟩ := hloop.of_ok hrun
        exact ⟨mapping, t, rfl, hfst, hall⟩
    | error e t => exact (hloop.of_error hrun).elim

/-! ### Bob's secrets become Carol's -/

/-- A secret under a raw key of Bob's. -/
def oldSecret : Secret :=
  ⟨sharedDraws.nonce, ascii "v" ++ bob.master.bytes.take 16⟩

def carolsSecret : SecretV2 := { bobsSecret with wrappedDk := drawnWrap carol }

def rotatedObjects : List Object :=
  [.secretV2 bobsSecret, .secret oldSecret, .secretV2 carolsSecret]

/-- The first two are stored. -/
def rotatedStore : ObjectStore := .holding (.over rotatedObjects) (rotatedObjects.take 2)

def rotatedContext : SecretsContext :=
  ⟨{ Repository.memory with objects := rotatedStore }, ∅, ∅, []⟩

lemma rotatedContext_objects : rotatedContext.repo.objects = rotatedStore := by
  rw [rotatedContext]

def rotatedIds : List ObjectId :=
  [(Object.secretV2 bobsSecret).refId, (Object.secret oldSecret).refId]

lemma rotatedStore_faithful :
    rotatedStore.Faithful (.over rotatedObjects) {o | o ∈ rotatedObjects} :=
  ObjectStore.faithful_over (by decide +kernel) (by decide +kernel) (by decide +kernel)

/-- Both formats are rekeyed. -/
theorem rekey_covers_iff_carol : ∃ mapping t,
    (rekeyObjects (.over rotatedObjects) tagAead none (fun _ => sharedDraws)
      ⟨[bob], [bob.master]⟩ carol 0 rotatedIds).run rotatedContext = .ok mapping t ∧
    mapping.map Prod.fst = rotatedIds ∧ ∀ p ∈ mapping, ∀ plaintext,
      rotatedContext.repo.objects.getSecretResolved (.over rotatedObjects) tagAead p.1
        ⟨[bob], [bob.master]⟩ = .ok (some plaintext) →
      t.repo.objects.getSecretResolved (.over rotatedObjects) tagAead p.2 ⟨[carol], []⟩ =
        .ok (some plaintext) := by
  have hget : ∀ o ∈ rotatedObjects.take 2,
      rotatedStore.get (.over rotatedObjects) o.refId = .ok (some o) := by
    intro o ho
    have hexists : ∀ o ∈ rotatedObjects.take 2, rotatedStore.exists_ o.refId = .ok true := by
      decide +kernel
    exact ObjectStore.object_eq_some.mp
      (rotatedStore_faithful.get (List.mem_of_mem_take ho) rfl (hexists o ho))
  have hbob := hget (.secretV2 bobsSecret) (by simp [rotatedObjects])
  have hold := hget (.secret oldSecret) (by simp [rotatedObjects])
  have hwraps : ∀ nonce dk aad, ∃ w, carol.wrapDk nonce dk aad = .ok w := fun _ _ _ => ⟨_, rfl⟩
  have hvalues : bobsSecret.rewrap ⟨[bob], [bob.master]⟩ carol (sharedDraws.wraps 0) =
        .ok carolsSecret ∧
      ([bob.master].findSome? fun k => (oldSecret.decrypt tagAead k).toOption) =
        some (ascii "v") ∧
      SecretV2.encryptEnvelope tagAead sharedDraws (ascii "v") carol (.v2 none) =
        .ok carolsSecret := by
    decide +kernel
  have hturns : ∀ id ∈ rotatedIds, ∀ o, rotatedStore.rekeyedSecret (.over rotatedObjects) tagAead
      sharedDraws id ⟨[bob], [bob.master]⟩ carol = .ok o → o = .secretV2 carolsSecret := by
    intro id hid o ho
    obtain ⟨found, hfound, ho⟩ := Result.bind_eq_ok.mp ho
    rcases List.mem_pair.mp hid with rfl | rfl
    · obtain rfl := Except.ok.inj (hbob.symm.trans hfound)
      obtain ⟨s, hs, ho⟩ := Result.bind_eq_ok.mp ho
      obtain rfl := Except.ok.inj (hvalues.1.symm.trans hs)
      exact (Except.ok.inj ho).symm
    · obtain rfl := Except.ok.inj (hold.symm.trans hfound)
      simp only [hvalues.2.1] at ho
      obtain ⟨s, hs, ho⟩ := Result.bind_eq_ok.mp ho
      obtain rfl := Except.ok.inj (hvalues.2.2.symm.trans hs)
      exact (Except.ok.inj ho).symm
  have hkeeping : Keeping (.over rotatedObjects) {o | o ∈ rotatedObjects} rotatedStore := by
    refine ⟨rotatedStore_faithful, fun o _ => ⟨_, rfl⟩, fun id => ?_⟩
    obtain ⟨m, hm⟩ := ObjectStore.holding_memory (.over rotatedObjects) (rotatedObjects.take 2)
    refine ⟨m.contains id, ?_⟩
    rw [ObjectStore.exists_, rotatedStore, hm]
    rfl
  refine (rekey_covers_iff (fun _ _ _ _ => ⟨_, rfl⟩) tagAead_opens hwraps
    (teamKeys_ideal.opens carol carol_inUse carol carol_inUse rfl) ?_ ?_).mpr ?_
  · rw [rotatedContext_objects]
    refine ⟨hkeeping.faithful.mono ?_, fun o _ => ⟨_, rfl⟩, hkeeping.answers⟩
    rintro o ⟨i, id, hi, ho⟩
    rw [hturns id (List.mem_of_getElem? hi) o ho]
    simp [rotatedObjects]
  · have hresolved : ∀ id ∈ rotatedIds, rotatedStore.getSecretResolved (.over rotatedObjects)
        tagAead id ⟨[bob], [bob.master]⟩ = .ok (some (ascii "v")) := by
      decide +kernel
    rw [rotatedContext_objects]
    exact fun id hid => ⟨_, hresolved id hid⟩
  · rw [rotatedContext_objects]
    intro id hid secret hsecret
    rcases List.mem_pair.mp hid with rfl | rfl
    · cases hbob.symm.trans hsecret
    · cases hold.symm.trans hsecret

def drawnContext : SecretsContext :=
  ⟨{ Repository.memory with objects := drawnStore }, ∅, ∅, []⟩

lemma drawnContext_objects : drawnContext.repo.objects = drawnStore := by
  rw [drawnContext]

/-- A secret that Bob shares is not rekeyed, though his chain opens it. -/
theorem rekey_skips_shared :
    drawnStore.getSecretResolved (.over drawnObjects) tagAead sharedId ⟨[bob], []⟩ =
        .ok (some (ascii "v")) ∧
      ∃ t, (rekeyObjects (.over drawnObjects) tagAead none (fun _ => sharedDraws) ⟨[bob], []⟩
          carol 0 [sharedId]).run drawnContext =
        .error (.codec ("not a secret: " ++ sharedId.toHex)) t := by
  have hget : drawnContext.repo.objects.get (.over drawnObjects) sharedId =
      .ok (some (.multiRecipientSecret (drawnSecret [bob, aliceFile, aliceEnv]))) := by
    rw [drawnContext_objects]
    exact drawnStore_shared
  exact ⟨by decide +kernel, drawnContext, rekeyObjects_shared drawnContext hget⟩

end Bole
