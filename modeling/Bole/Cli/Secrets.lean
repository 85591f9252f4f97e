import Bole.Cli.Workspace
import Bole.Crypto.Envelope
import Bole.Lib.Command
import Bole.Repo.Policy

/-!
Named secrets and overlays: `bole-cli/src/commands/secret.rs` and `env.rs` over the registries of
`registry.rs`, with what they call of `src/store/mod.rs` and `src/repo/mod.rs`.

A secret is an object, and so is an overlay; the commands keep the id of each under a name, and an
overlay keeps the ids of its secrets.  What is drawn at random, the keys that the flags give and
the plaintext that is read are arguments.

* `SecretCommand.run`: the commands;
* `SecretCommand.replacement`: what put, rotate, share, grant-actor and revoke-actor store.
-/

namespace Bole

open Command

/-! ### Ids in hex -/

namespace ObjectId

lemma hexNibble_iff {c : Char} {n : ℕ} : hexNibble c = some n ↔ n < 16 ∧ c = Digest.hexDigit n := by
  constructor
  · intro h
    rw [hexNibble] at h
    split_ifs at h with hdec hhex
    · obtain rfl := Option.some.inj h
      have hlo : 48 ≤ c.toNat := hdec.1
      have hhi : c.toNat ≤ 57 := hdec.2
      refine ⟨by simp; omega, ?_⟩
      rw [Digest.hexDigit, if_pos (by simp; omega)]
      rw [show 48 + (c.toNat - '0'.toNat) = c.toNat by simp; omega, Char.ofNat_toNat]
    · obtain rfl := Option.some.inj h
      have hlo : 97 ≤ c.toNat := hhex.1
      have hhi : c.toNat ≤ 102 := hhex.2
      refine ⟨by simp; omega, ?_⟩
      rw [Digest.hexDigit, if_neg (by simp)]
      rw [show 87 + (c.toNat - 'a'.toNat + 10) = c.toNat by simp; omega, Char.ofNat_toNat]
  · rintro ⟨hn, rfl⟩
    have hall : ∀ n < 16, hexNibble (Digest.hexDigit n) = some n := by decide
    exact hall n hn

lemma hexByte_ofNat {h l : ℕ} (hh : h < 16) (hl : l < 16) :
    Digest.hexByte (UInt8.ofNat (16 * h + l)) = [Digest.hexDigit h, Digest.hexDigit l] := by
  have hval : (UInt8.ofNat (16 * h + l)).toNat = 16 * h + l := by
    rw [UInt8.toNat_ofNat', Nat.mod_eq_of_lt (by omega)]
  rw [Digest.hexByte, hval, show (16 * h + l) / 16 = h by omega,
    show (16 * h + l) % 16 = l by omega]

lemma hexBytes_cons {hi lo : Char} {rest : List Char} {bytes : Bytes} :
    hexBytes (hi :: lo :: rest) = some bytes ↔ ∃ b bs, bytes = b :: bs ∧
      [hi, lo] = Digest.hexByte b ∧ hexBytes rest = some bs := by
  constructor
  · intro h
    rw [hexBytes] at h
    split at h
    · next m n bs hm hn hrest =>
        obtain ⟨hm16, rfl⟩ := hexNibble_iff.mp hm
        obtain ⟨hn16, rfl⟩ := hexNibble_iff.mp hn
        exact ⟨_, bs, (Option.some.inj h).symm, (hexByte_ofNat hm16 hn16).symm, hrest⟩
    · cases h
  · rintro ⟨b, bs, rfl, hb, hrest⟩
    have hlt := b.toNat_lt
    obtain ⟨rfl, rfl⟩ : hi = Digest.hexDigit (b.toNat / 16) ∧
        lo = Digest.hexDigit (b.toNat % 16) := by simpa [Digest.hexByte] using hb
    have hhi := hexNibble_iff.mpr ⟨show b.toNat / 16 < 16 by omega, rfl⟩
    have hlo := hexNibble_iff.mpr ⟨show b.toNat % 16 < 16 by omega, rfl⟩
    rw [hexBytes, hhi, hlo, hrest]
    simp only [Nat.div_add_mod, UInt8.ofNat_toNat]

lemma hexBytes_iff {cs : List Char} {bytes : Bytes} :
    hexBytes cs = some bytes ↔ cs = bytes.flatMap Digest.hexByte := by
  -- two digits at a time, as the bytes are made
  induction bytes generalizing cs with
  | nil =>
      rcases cs with _ | ⟨hi, _ | ⟨lo, rest⟩⟩
      · simp [hexBytes]
      · simp [hexBytes]
      · simp [hexBytes_cons]
  | cons b bs ih =>
      rcases cs with _ | ⟨hi, _ | ⟨lo, rest⟩⟩
      · simp [hexBytes, Digest.hexByte]
      · simp [hexBytes, Digest.hexByte]
      · rw [hexBytes_cons, List.flatMap_cons]
        constructor
        · rintro ⟨b', bs', heq, hb, hrest⟩
          cases heq
          rw [← hb, ← ih.mp hrest]
          rfl
        · intro h
          have heq : [hi, lo] ++ rest = Digest.hexByte b ++ bs.flatMap Digest.hexByte := h
          obtain ⟨h1, h2⟩ := List.append_inj heq (by simp [Digest.hexByte])
          exact ⟨b, bs, rfl, h1, ih.mpr h2⟩

/-- **Parsing is the inverse of display**. -/
lemma fromStr_iff {s : String} {id : ObjectId} : fromStr s = some id ↔ s = id.toHex := by
  rw [fromStr, toHex, Digest.hex, ← String.toList_inj, String.toList_ofList]
  cases hs : hexBytes s.toList with
  | none =>
      refine iff_of_false (by simp) fun h => ?_
      rw [hexBytes_iff.mpr h] at hs
      cases hs
  | some bytes =>
      rw [hexBytes_iff.mp hs]
      dsimp only
      split_ifs with hlen
      · simp only [Option.some.injEq]
        constructor
        · rintro rfl
          rfl
        · intro h
          exact congrArg mk (Digest.ext' (Digest.flatMap_hexByte_injective h))
      · refine iff_of_false (by simp) fun h => hlen ?_
        rw [Digest.flatMap_hexByte_injective h, id.digest.length_eq]

end ObjectId

/-! ### The context -/

/-- What the commands work on: the repository, the registries of `secrets.json` and `envs.json` as
values, and the objects that have been handed to the store. -/
structure SecretsContext where
  repo : Repository
  secrets : BTreeMap String String
  envs : BTreeMap String String
  stored : List Object

/-- A command on it. -/
abbrev SecretsM (ε α : Type) := EStateM ε SecretsContext α

/-- `put` of the object store. -/
def putObject (L : Linked) (mtime : Option ℕ) (obj : Object) : SecretsM Error ObjectId := do
  let ctx ← get
  let (result, objects) := ctx.repo.objects.put L obj mtime
  set { ctx with repo := { ctx.repo with objects := objects }, stored := ctx.stored ++ [obj] }
  lift result

namespace ObjectStore

variable (L : Linked) (A : Aead) (s : ObjectStore)

/-- `get_overlay`. -/
def getOverlay (id : ObjectId) : Result (Option EnvOverlay) := do
  match ← s.get L id with
  | none => .ok none
  | some (.envOverlay o) => .ok (some o)
  | some _ => .error (.codec "not an env overlay")

/-- `get_secret_resolved`. -/
def getSecretResolved (id : ObjectId) (chain : ProviderChain Digest) : Result (Option Bytes) := do
  match ← s.get L id with
  | none => .ok none
  | some (.secretV2 secret) => do
      let plaintext ← secret.decrypt A chain
      .ok (some plaintext)
  | some (.multiRecipientSecret secret) => do
      let plaintext ← secret.decrypt A chain
      .ok (some plaintext)
  | some (.secret secret) =>
      match chain.legacyKeys.findSome? fun k => (secret.decrypt A k).toOption with
      | some plaintext => .ok (some plaintext)
      | none => .error .decryptionFailed
  | some _ => .error (.codec "not a secret")

/-- What `grant_secret_recipient` puts. -/
def grantedSecret (draws : MultiRecipientSecret.Draws) (id : ObjectId)
    (grantingChain : ProviderChain Digest) (newRecipient : KeyProvider Digest) : Result Object := do
  match ← s.get L id with
  | some (.multiRecipientSecret secret) =>
      match secret.grant grantingChain newRecipient (draws.wraps 0) with
      | (.error e, _) => .error e
      | (.ok (), secret) => .ok (.multiRecipientSecret secret)
  | some (.secretV2 secret) => do
      let plaintext ← secret.decrypt A grantingChain
      let granter ← grantingChain.active
      let upgraded ← MultiRecipientSecret.encryptFor A draws plaintext [granter, newRecipient]
        secret.aad
      .ok (.multiRecipientSecret upgraded)
  | some _ => .error (.codec "not an envelope secret")
  | none => .error (.storage ("secret not found: " ++ id.toHex))

/-- What `revoke_secret_recipient` puts. -/
def revokedSecret (id : ObjectId) (keyRef : String) : Result Object := do
  match ← s.get L id with
  | some (.multiRecipientSecret secret) =>
      match secret.revoke keyRef with
      | (.error e, _) => .error e
      | (.ok false, _) => .error (.codec (keyRef ++ " is not a recipient of this secret"))
      | (.ok true, secret) => .ok (.multiRecipientSecret secret)
  | some _ => .error (.codec "not a multi-recipient secret")
  | none => .error (.storage ("secret not found: " ++ id.toHex))

/-- What `rekey` puts for one object. -/
def rekeyedSecret (draws : MultiRecipientSecret.Draws) (id : ObjectId) (old : ProviderChain Digest)
    (new : KeyProvider Digest) : Result Object := do
  match ← s.get L id with
  | some (.secretV2 secret) => do
      let rewrapped ← secret.rewrap old new (draws.wraps 0)
      .ok (.secretV2 rewrapped)
  | some (.secret v1) =>
      match old.legacyKeys.findSome? fun k => (v1.decrypt A k).toOption with
      | none => .error .decryptionFailed
      | some plaintext => do
          let upgraded ← SecretV2.encryptEnvelope A draws plaintext new (.v2 none)
          .ok (.secretV2 upgraded)
  | some _ => .error (.codec ("not a secret: " ++ id.toHex))
  | none => .error (.storage ("secret not found: " ++ id.toHex))

end ObjectStore

/-- `rekey` of the repository, from the `i`-th object on. -/
def rekeyObjects (L : Linked) (A : Aead) (mtime : Option ℕ)
    (draws : ℕ → MultiRecipientSecret.Draws) (old : ProviderChain Digest)
    (new : KeyProvider Digest) : ℕ → List ObjectId → SecretsM Error (List (ObjectId × ObjectId))
  | _, [] => pure []
  | i, id :: rest => do
      let ctx ← get
      let obj ← lift (ctx.repo.objects.rekeyedSecret L A (draws i) id old new)
      let newId ← putObject L mtime obj
      let mapping ← rekeyObjects L A mtime draws old new (i + 1) rest
      pure ((id, newId) :: mapping)

/-! ### Keys -/

/-- What `key::resolve` makes of the flags: the key, and whether a file holds it. -/
structure KeyFlags where
  key : Except String Digest
  isFile : Bool

/-- `build_chain`. -/
def KeyFlags.buildChain (flags : KeyFlags) (A : Aead) (C : Crates) :
    Except String (ProviderChain Digest) := do
  let mk ← flags.key
  .ok ⟨[localProvider A C mk (if flags.isFile then "file" else "env")], [mk]⟩

namespace SecretsContext

variable (L : Linked) (A : Aead) (mtime : Option ℕ) (ctx : SecretsContext)

/-- `secret_aad`. -/
def secretAad (name : String) : Except String SecretAad := do
  let lattice ← told ctx.repo.acls.getLattice
  let rules ← told ctx.repo.acls.getLabelRuleset
  let label := rules.labelForSecret lattice name
  .ok (.v2 (if label = lattice.bottom then none else some label))

/-- An id of a registry. -/
def parseId (s : String) : Except String ObjectId :=
  match ObjectId.fromStr s with
  | some id => .ok id
  | none => .error "corrupt registry id: expected 64 lowercase hex characters"

/-- The id of a secret. -/
def registered (name : String) : Except String ObjectId :=
  match ctx.secrets[name]? with
  | none => .error ("no such secret: " ++ name)
  | some s => parseId s

/-! ### What the commands on one secret store -/

/-- What `put` and `rotate` store. -/
def sealedSecret (name : String) (plaintext : Except String Bytes) (key : KeyFlags)
    (draws : MultiRecipientSecret.Draws) : Except String Object := do
  let chain ← key.buildChain A L.toCrates
  let aad ← ctx.secretAad name
  let plaintext ← plaintext
  let provider ← told chain.active
  match SecretV2.encryptEnvelope A draws plaintext provider aad with
  | .error _ => .error "encrypting secret"
  | .ok secret => .ok (.secretV2 secret)

/-- What `share` stores; the sharer is always a recipient. -/
def sharedSecret (name : String) (plaintext : Except String Bytes) (key : KeyFlags)
    (recipients : List (Except String Digest)) (draws : MultiRecipientSecret.Draws) :
    Except String Object := do
  let sharer ← key.buildChain A L.toCrates
  let chains ← recipients.mapM fun k => KeyFlags.buildChain ⟨k, true⟩ A L.toCrates
  let first ← told sharer.active
  let others ← chains.mapM fun chain => told chain.active
  let aad ← ctx.secretAad name
  let plaintext ← plaintext
  match MultiRecipientSecret.encryptFor A draws plaintext (first :: others) aad with
  | .error _ => .error "encrypting multi-recipient secret"
  | .ok secret => .ok (.multiRecipientSecret secret)

/-- What `grant-actor` stores. -/
def grantedSecret (name : String) (key recipientKey : KeyFlags)
    (draws : MultiRecipientSecret.Draws) : Except String Object := do
  let id ← ctx.registered name
  let granter ← key.buildChain A L.toCrates
  let recipient ← recipientKey.buildChain A L.toCrates
  let provider ← told recipient.active
  match ctx.repo.objects.grantedSecret L A draws id granter provider with
  | .error _ => .error "granting recipient"
  | .ok obj => .ok obj

/-- What `revoke-actor` stores. -/
def revokedSecret (name : String) (recipientKey : KeyFlags) : Except String Object := do
  let id ← ctx.registered name
  let recipient ← recipientKey.buildChain A L.toCrates
  let provider ← told recipient.active
  match ctx.repo.objects.revokedSecret L id provider.activeKeyRef with
  | .error _ => .error "revoking recipient"
  | .ok obj => .ok obj

/-! ### Overlays -/

/-- `load_overlay`. -/
def loadOverlay (name : String) : Except String EnvOverlay :=
  match ctx.envs[name]? with
  | none => .error ("no such overlay: " ++ name)
  | some s => do
      let id ← parseId s
      match ← told (ctx.repo.objects.getOverlay L id) with
      | none => .error ("overlay object missing from store: " ++ id.toHex)
      | some overlay => .ok overlay

/-- `reveal`: the bytes that are printed. -/
def reveal (name : String) (key : KeyFlags) : Except String Bytes := do
  let id ← ctx.registered name
  let chain ← key.buildChain A L.toCrates
  match ctx.repo.objects.getSecretResolved L A id chain with
  | .error _ => .error "decrypting secret"
  | .ok none => .error ("secret object missing from store: " ++ id.toHex)
  | .ok (some bytes) => .ok bytes

end SecretsContext

namespace Repository

variable (L : Linked) (A : Aead) (r : Repository)

/-- Whether `resolve_overlay` shows an actor the secret of a variable. -/
def cleared (lattice : LabelLattice) (rules : LabelRuleSet) (accessor : Accessor) (var : String) :
    Bool :=
  let label := rules.labelForSecret lattice var
  label = lattice.bottom || accessor.canRead label ⟨.secret, var⟩

/-- The loop of `resolve_overlay` over the entries. -/
def resolveEntries (lattice : LabelLattice) (rules : LabelRuleSet)
    (chain : ProviderChain Digest) (accessor : Accessor) (skipUnauthorized : Bool) :
    List (String × EnvValue) → BTreeMap String String → Result (BTreeMap String String)
  | [], out => .ok out
  | (var, .plain s) :: rest, out =>
      resolveEntries lattice rules chain accessor skipUnauthorized rest (out.insert var s)
  | (var, .secret id) :: rest, out =>
      if cleared lattice rules accessor var then do
        match ← r.objects.getSecretResolved L A id chain with
        | none => .error (.storage ("secret not found: " ++ id.toHex))
        | some bytes =>
            match String.fromUTF8? bytes.toByteArray with
            | none => .error (.codec ("secret for env var '" ++ var ++ "' is not valid UTF-8"))
            | some s =>
                resolveEntries lattice rules chain accessor skipUnauthorized rest
                  (out.insert var s)
      else if skipUnauthorized then
        resolveEntries lattice rules chain accessor skipUnauthorized rest out
      else .error (.accessDenied ("not cleared to resolve secret for env var '" ++ var ++ "'"))

/-- `resolve_overlay`. -/
def resolveOverlay (overlayId : ObjectId) (chain : ProviderChain Digest) (accessor : Accessor)
    (skipUnauthorized : Bool) : Result (BTreeMap String String) := do
  match ← r.objects.getOverlay L overlayId with
  | none => .error (.storage ("overlay not found: " ++ overlayId.toHex))
  | some overlay => do
      let lattice ← r.acls.getLattice
      let rules ← r.acls.getLabelRuleset
      resolveEntries L A r lattice rules chain accessor skipUnauthorized overlay.entries.toList ∅

end Repository

/-- `env resolve --reveal`, for the accessor that the bound actor gives. -/
def SecretsContext.envResolve (L : Linked) (A : Aead) (ctx : SecretsContext) (name : String)
    (key : KeyFlags) (accessor : Except String Accessor) (skipUnauthorized : Bool) :
    Except String (BTreeMap String String) := do
  let _ ← ctx.loadOverlay L name
  match ctx.envs[name]? with
  | none => .error ("no such overlay: " ++ name)
  | some s => do
      let overlayId ← parseId s
      let chain ← key.buildChain A L.toCrates
      let accessor ← accessor
      told (ctx.repo.resolveOverlay L A overlayId chain accessor skipUnauthorized)

/-! ### The commands -/

section Commands

variable (L : Linked) (A : Aead) (mtime : Option ℕ)

/-- The end of the commands on one secret: an object is put, and the name set to its id. -/
def registerSecret (name context : String) (obj : Except String Object) : SecretsM String Unit := do
  let obj ← lift obj
  let id ← (putObject L mtime obj).adaptExcept fun _ => context
  modify fun ctx => { ctx with secrets := ctx.secrets.insert name id.toHex }

/-- `store`: `put` and `rotate`. -/
def storeSecret (name : String) (plaintext : Except String Bytes) (key : KeyFlags)
    (draws : MultiRecipientSecret.Draws) (mustExist : Bool) : SecretsM String Unit := do
  let ctx ← get
  if mustExist && !ctx.secrets.contains name then throw ("no such secret: " ++ name)
  else if !mustExist && ctx.secrets.contains name then
    throw ("secret already exists: " ++ name ++ " (use `secret rotate`)")
  else
    registerSecret L mtime name "encrypting secret" (ctx.sealedSecret L A name plaintext key draws)

/-- `share`. -/
def shareSecret (name : String) (plaintext : Except String Bytes) (key : KeyFlags)
    (recipients : List (Except String Digest)) (draws : MultiRecipientSecret.Draws) :
    SecretsM String Unit := do
  let ctx ← get
  if ctx.secrets.contains name then
    throw ("secret already exists: " ++ name ++ " (use `secret rotate`)")
  else if recipients.isEmpty then
    throw "give at least one --recipient-key-file (the sharer is already a recipient)"
  else
    registerSecret L mtime name "encrypting multi-recipient secret"
      (ctx.sharedSecret L A name plaintext key recipients draws)

/-- `grant_actor`. -/
def grantActor (name : String) (key recipientKey : KeyFlags)
    (draws : MultiRecipientSecret.Draws) : SecretsM String Unit := do
  let ctx ← get
  registerSecret L mtime name "granting recipient"
    (ctx.grantedSecret L A name key recipientKey draws)

/-- `revoke_actor`. -/
def revokeActor (name : String) (recipientKey : KeyFlags) : SecretsM String Unit := do
  let ctx ← get
  registerSecret L mtime name "revoking recipient" (ctx.revokedSecret L A name recipientKey)

/-- The targets of `rekey`. -/
def SecretsContext.rekeyTargets (ctx : SecretsContext) (all : Bool) (names : List String) :
    List String :=
  if all then ctx.secrets.keys else names

/-- The targets with their ids. -/
def SecretsContext.nameIds (ctx : SecretsContext) :
    List String → Except String (List (String × ObjectId))
  | [] => .ok []
  | name :: rest => do
      let id ← ctx.registered name
      let nameIds ← ctx.nameIds rest
      .ok ((name, id) :: nameIds)

/-- One turn of the loop of `rekey` over the registry of secrets. -/
def repointSecret (remap : BTreeMap ObjectId ObjectId) (secrets : BTreeMap String String)
    (p : String × ObjectId) : BTreeMap String String :=
  match remap[p.2]? with
  | some newId => secrets.insert p.1 newId.toHex
  | none => secrets

/-- The loop. -/
def repointSecrets (remap : BTreeMap ObjectId ObjectId) (nameIds : List (String × ObjectId))
    (secrets : BTreeMap String String) : BTreeMap String String :=
  nameIds.foldl (repointSecret remap) secrets

/-- An entry of an overlay after `rekey`. -/
def repointValue (remap : BTreeMap ObjectId ObjectId) : EnvValue → EnvValue
  | .plain s => .plain s
  | .secret id => .secret (remap[id]?.getD id)

/-- Whether `rekey` changes an entry. -/
def repointsValue (remap : BTreeMap ObjectId ObjectId) : EnvValue → Bool
  | .plain _ => false
  | .secret id => remap.contains id

/-- One overlay of the loop of `rekey` over the registry of overlays: the id of the new one, if an
entry changes. -/
def repointOverlay (remap : BTreeMap ObjectId ObjectId) (oid : ObjectId) :
    SecretsM String (Option ObjectId) := do
  let ctx ← get
  match ← lift (told (ctx.repo.objects.getOverlay L oid)) with
  | none => pure none
  | some overlay =>
      if overlay.entries.toList.any fun e => repointsValue remap e.2 then do
        let newOid ← (putObject L mtime
          (.envOverlay ⟨overlay.entries.map fun _ v => repointValue remap v⟩)).adaptExcept
            Error.display
        pure (some newOid)
      else pure none

/-- The loop: the updates of the registry. -/
def repointOverlays (remap : BTreeMap ObjectId ObjectId) :
    List (String × String) → SecretsM String (List (String × String))
  | [] => pure []
  | (envName, oidStr) :: rest =>
      match ObjectId.fromStr oidStr with
      | none => repointOverlays remap rest
      | some oid => do
          let newOid ← repointOverlay L mtime remap oid
          let updates ← repointOverlays remap rest
          match newOid with
          | some newOid => pure ((envName, newOid.toHex) :: updates)
          | none => pure updates

/-- `rekey`. -/
def rekeySecrets (all : Bool) (names : List String) (oldKey newKey : KeyFlags)
    (draws : ℕ → MultiRecipientSecret.Draws) : SecretsM String Unit := do
  let ctx ← get
  if !all && names.isEmpty then throw "give secret names or --all"
  else do
    let old ← lift (oldKey.buildChain A L.toCrates)
    let new ← lift (newKey.buildChain A L.toCrates)
    let newProvider ← lift (told new.active)
    let nameIds ← lift (ctx.nameIds (ctx.rekeyTargets all names))
    let mapping ← (rekeyObjects L A mtime draws old newProvider 0
      (nameIds.map Prod.snd)).adaptExcept fun _ => "rekeying secrets"
    let remap : BTreeMap ObjectId ObjectId := .ofList mapping compare
    modify fun ctx => { ctx with secrets := repointSecrets remap nameIds ctx.secrets }
    let updates ← repointOverlays L mtime remap ctx.envs.toList
    modify fun ctx =>
      { ctx with envs := updates.foldl (fun envs u => envs.insert u.1 u.2) ctx.envs }

/-- `store_overlay`. -/
def storeOverlay (name : String) (overlay : EnvOverlay) : SecretsM String Unit := do
  let id ← (putObject L mtime (.envOverlay overlay)).adaptExcept Error.display
  modify fun ctx => { ctx with envs := ctx.envs.insert name id.toHex }

/-- `create` of an overlay. -/
def createEnv (name : String) : SecretsM String Unit := do
  let ctx ← get
  if ctx.envs.contains name then throw ("overlay already exists: " ++ name)
  else storeOverlay L mtime name ⟨∅⟩

/-- `set`. -/
def setEnv (name var : String) (value : EnvValue) : SecretsM String Unit := do
  let ctx ← get
  let overlay ← lift (ctx.loadOverlay L name)
  storeOverlay L mtime name ⟨overlay.entries.insert var value⟩

/-- `set_secret`. -/
def setSecretEnv (name var secret : String) : SecretsM String Unit := do
  let ctx ← get
  let id ← lift (ctx.registered secret)
  setEnv L mtime name var (.secret id)

end Commands

/-- A call of one of the commands, with what it draws at random. -/
inductive SecretCommand where
  | put (name : String) (plaintext : Except String Bytes) (key : KeyFlags)
      (draws : MultiRecipientSecret.Draws)
  | rotate (name : String) (plaintext : Except String Bytes) (key : KeyFlags)
      (draws : MultiRecipientSecret.Draws)
  | rekey (all : Bool) (names : List String) (oldKey newKey : KeyFlags)
      (draws : ℕ → MultiRecipientSecret.Draws)
  | share (name : String) (plaintext : Except String Bytes) (key : KeyFlags)
      (recipients : List (Except String Digest)) (draws : MultiRecipientSecret.Draws)
  | grantActor (name : String) (key recipientKey : KeyFlags) (draws : MultiRecipientSecret.Draws)
  | revokeActor (name : String) (recipientKey : KeyFlags)
  | envCreate (name : String)
  | envSet (name var value : String)
  | envSetSecret (name var secret : String)

/-- `run` of the two modules. -/
def SecretCommand.run (L : Linked) (A : Aead) (mtime : Option ℕ) :
    SecretCommand → SecretsM String Unit
  | put name plaintext key draws => storeSecret L A mtime name plaintext key draws false
  | rotate name plaintext key draws => storeSecret L A mtime name plaintext key draws true
  | rekey all names oldKey newKey draws => rekeySecrets L A mtime all names oldKey newKey draws
  | share name plaintext key recipients draws =>
      shareSecret L A mtime name plaintext key recipients draws
  | grantActor name key recipientKey draws => Bole.grantActor L A mtime name key recipientKey draws
  | revokeActor name recipientKey => Bole.revokeActor L A mtime name recipientKey
  | envCreate name => createEnv L mtime name
  | envSet name var value => setEnv L mtime name var (.plain value)
  | envSetSecret name var secret => setSecretEnv L mtime name var secret

end Bole
