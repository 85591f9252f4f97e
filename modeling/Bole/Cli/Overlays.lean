import Bole.Cli.Secrets
import Bole.Lib.Run

/-!
Whether the overlays follow the named secrets, over runs of the commands of `secret` and `env`.

* `OverlayState`: the context, and the name that each entry of an overlay was set for;
* `Points`: an entry has the object that the registry has for a name;
* `repointed`: `rekey` moves both;
* `overlays_follow`: **in every run whose steps are harmless the entries follow the names**;
* `rotate_leaves_overlay`: a rotation is not harmless.
-/

namespace Bole

open Command Transition

/-! ### The system -/

/-- The context, and the name that the entry of each variable of each overlay is set for. -/
structure OverlayState where
  ctx : SecretsContext
  setFor : String × String → Option String

namespace SecretCommand

variable (L : Linked) (A : Aead)

/-- What the entries are set for after a command that returns. -/
def setForAfter (setFor : String × String → Option String) :
    SecretCommand → String × String → Option String
  | envSet name var _ => Function.update setFor (name, var) none
  | envSetSecret name var secret => Function.update setFor (name, var) (some secret)
  | _ => setFor

/-- What rotate, grant-actor and revoke-actor store, and the name that they set to its id. -/
def replacement (ctx : SecretsContext) : SecretCommand → Option (String × Except String Object)
  | rotate name plaintext key draws => some (name, ctx.sealedSecret L A name plaintext key draws)
  | grantActor name key recipientKey draws =>
      some (name, ctx.grantedSecret L A name key recipientKey draws)
  | revokeActor name recipientKey => some (name, ctx.revokedSecret L A name recipientKey)
  | _ => none

end SecretCommand

/-- A command returns, or it fails and keeps what it has done. -/
inductive OverlayState.Step (L : Linked) (A : Aead) :
    OverlayState → SecretCommand → OverlayState → Prop where
  | ok {s : OverlayState} {cmd : SecretCommand} {ctx : SecretsContext} (mtime : Option ℕ)
      (h : (cmd.run L A mtime).run s.ctx = .ok () ctx) :
      Step L A s cmd ⟨ctx, cmd.setForAfter s.setFor⟩
  | error {s : OverlayState} {cmd : SecretCommand} {ctx : SecretsContext} {msg : String}
      (mtime : Option ℕ) (h : (cmd.run L A mtime).run s.ctx = .error msg ctx) :
      Step L A s cmd ⟨ctx, s.setFor⟩

/-! ### What is read -/

lemma ObjectStore.getOverlay_eq_some {L : Linked} {s : ObjectStore} {id : ObjectId}
    {overlay : EnvOverlay} :
    s.getOverlay L id = .ok (some overlay) ↔ s.object L id = some (.envOverlay overlay) := by
  rw [object_eq_some, getOverlay, Result.bind_eq_ok]
  constructor
  · rintro ⟨found, hfound, h⟩
    split at h
    · cases h
    · cases h
      exact hfound
    · cases h
  · intro h
    exact ⟨_, h, rfl⟩

namespace SecretsContext

variable {L : Linked} {ctx : SecretsContext} {name : String} {id : ObjectId}

lemma parseId_eq_ok {s : String} : parseId s = .ok id ↔ s = id.toHex := by
  rw [← ObjectId.fromStr_iff, parseId]
  cases ObjectId.fromStr s with
  | none => simp
  | some id' => simp

lemma registered_eq_ok : ctx.registered name = .ok id ↔ ctx.secrets[name]? = some id.toHex := by
  rw [registered]
  cases ctx.secrets[name]? with
  | none => simp
  | some s => simp [parseId_eq_ok]

lemma loadOverlay_eq_ok {overlay : EnvOverlay} (h : ctx.loadOverlay L name = .ok overlay) :
    ∃ id, ctx.envs[name]? = some (ObjectId.toHex id) ∧
      ctx.repo.objects.object L id = some (.envOverlay overlay) := by
  rw [loadOverlay] at h
  split at h
  · cases h
  · next str hstr =>
      obtain ⟨id, hid, h⟩ := Result.bind_eq_ok.mp h
      obtain ⟨found, hfound, h⟩ := Result.bind_eq_ok.mp h
      split at h
      · cases h
      · cases h
        exact ⟨id, hstr.trans (congrArg some (parseId_eq_ok.mp hid)),
          ObjectStore.getOverlay_eq_some.mp (told_eq_ok.mp hfound)⟩

end SecretsContext

/-! ### What the commands keep -/

namespace SecretsContext

/-- What is asked of the store and of the registry of overlays: the objects of the run read back,
the store answers, and the registered overlays are there. -/
structure Sound (L : Linked) (objs : Set Object) (ctx : SecretsContext) : Prop where
  faithful : ctx.repo.objects.Faithful L objs
  writes : ∀ o ∈ objs, ∃ b, L.codec.serialize o = .ok b
  answers : ∀ id, ∃ found, ctx.repo.objects.exists_ id = .ok found
  overlays : ∀ env s : String, ctx.envs[env]? = some s → ∃ id o, s = id.toHex ∧
    ctx.repo.objects.object L id = some (.envOverlay o)

/-- The entry of a variable has the object that the registry has for a name. -/
def Points (L : Linked) (ctx : SecretsContext) (env var name : String) : Prop :=
  ∃ overlayId overlay id, ctx.envs[env]? = some (ObjectId.toHex overlayId) ∧
    ctx.repo.objects.object L overlayId = some (.envOverlay overlay) ∧
    overlay.entries[var]? = some (.secret id) ∧ ctx.secrets[name]? = some id.toHex

/-- The context after an object is put. -/
def putting (L : Linked) (mtime : Option ℕ) (ctx : SecretsContext) (obj : Object) :
    SecretsContext :=
  { ctx with
    repo := { ctx.repo with objects := (ctx.repo.objects.put L obj mtime).2 }
    stored := ctx.stored ++ [obj] }

section Putting

variable {L : Linked} {objs : Set Object} {mtime : Option ℕ} {ctx t u : SecretsContext}
  {obj : Object} {id : ObjectId} {env var name : String}

@[simp] lemma putting_secrets : (ctx.putting L mtime obj).secrets = ctx.secrets := rfl

@[simp] lemma putting_envs : (ctx.putting L mtime obj).envs = ctx.envs := rfl

@[simp] lemma putting_stored : (ctx.putting L mtime obj).stored = ctx.stored ++ [obj] := rfl

lemma mem_putting : obj ∈ (ctx.putting L mtime obj).stored :=
  List.mem_append_right _ List.mem_cons_self

@[simp] lemma ensures_putObject {ok : ObjectId → SecretsContext → Prop}
    {err : Error → SecretsContext → Prop} :
    Ensures (putObject L mtime obj) ctx ok err ↔
      (∀ id, (ctx.repo.objects.put L obj mtime).1 = .ok id → ok id (ctx.putting L mtime obj)) ∧
        ∀ e, (ctx.repo.objects.put L obj mtime).1 = .error e →
          err e (ctx.putting L mtime obj) := by
  simp only [putObject, ensures_bind, ensures_get]
  exact ensures_lift

/-- What writes alone make of a context: the registries are left, and the store grows. -/
structure Wrote (L : Linked) (objs : Set Object) (ctx t : SecretsContext) : Prop where
  secrets : t.secrets = ctx.secrets
  envs : t.envs = ctx.envs
  stored : ∀ o ∈ ctx.stored, o ∈ t.stored
  grows : ctx.repo.objects.Grows L t.repo.objects
  sound : (∀ o ∈ t.stored, o ∈ objs) → ctx.Sound L objs → t.Sound L objs

lemma Wrote.refl (L : Linked) (objs : Set Object) (ctx : SecretsContext) : Wrote L objs ctx ctx :=
  ⟨rfl, rfl, fun _ h => h, .refl _ _, fun _ h => h⟩

lemma Wrote.trans (h : Wrote L objs ctx t) (h' : Wrote L objs t u) : Wrote L objs ctx u where
  secrets := h'.secrets.trans h.secrets
  envs := h'.envs.trans h.envs
  stored o ho := h'.stored o (h.stored o ho)
  grows := h.grows.trans h'.grows
  sound hobjs hsound := h'.sound hobjs (h.sound (fun o ho => hobjs o (h'.stored o ho)) hsound)

lemma Wrote.putting (L : Linked) (objs : Set Object) (mtime : Option ℕ) (ctx : SecretsContext)
    (obj : Object) : Wrote L objs ctx (ctx.putting L mtime obj) where
  secrets := rfl
  envs := rfl
  stored o ho := List.mem_append_left _ ho
  grows := ObjectStore.put_grows L ctx.repo.objects obj mtime
  sound hobjs hsound :=
    ⟨hsound.faithful.keeps (hobjs obj (by simp)) mtime, hsound.writes,
      ObjectStore.exists_put_answers hsound.answers obj mtime, fun env s hs => by
        obtain ⟨id, o, rfl, ho⟩ := hsound.overlays env s hs
        exact ⟨id, o, rfl, ObjectStore.put_grows L ctx.repo.objects obj mtime _ _ ho⟩⟩

/-- **An object of the run is stored**, under the id of its bytes. -/
lemma Sound.put (h : ctx.Sound L objs) (hobj : obj ∈ objs) (mtime : Option ℕ) :
    ∃ b, L.codec.serialize obj = .ok b ∧
      (ctx.repo.objects.put L obj mtime).1 = .ok (L.fromContent b) ∧
      (ctx.putting L mtime obj).repo.objects.object L (L.fromContent b) = some obj := by
  obtain ⟨b, hb⟩ := h.writes obj hobj
  obtain ⟨found, hfound⟩ := h.answers (L.fromContent b)
  have hok : (ctx.repo.objects.put L obj mtime).1 = .ok (L.fromContent b) := by
    rw [ObjectStore.put, hb]
    cases found with
    | true => simp only [ObjectStore.putRaw_found mtime hfound]
    | false => exact (ObjectStore.putRaw_backend mtime hfound).1
  exact ⟨b, hb, hok, ObjectStore.object_eq_some.mpr (h.faithful.put hobj hok).2⟩

/-- Writes leave what an entry points at. -/
lemma Wrote.points (h : Wrote L objs ctx t) (hp : ctx.Points L env var name) :
    t.Points L env var name := by
  obtain ⟨overlayId, overlay, id, henv, hoverlay, hentry, hname⟩ := hp
  exact ⟨overlayId, overlay, id, h.envs ▸ henv, h.grows _ _ hoverlay, hentry, h.secrets ▸ hname⟩

end Putting

end SecretsContext

/-! ### The invariant -/

namespace OverlayState

/-- Every entry has the object of the name that it is set for. -/
structure Inv (L : Linked) (objs : Set Object) (s : OverlayState) : Prop where
  sound : s.ctx.Sound L objs
  follows : ∀ env var name, s.setFor (env, var) = some name → s.ctx.Points L env var name

/-- Nothing that was stored is forgotten, and if the run stores such objects only, then the
invariant is kept. -/
def Kept (L : Linked) (objs : Set Object) (s t : OverlayState) : Prop :=
  (∀ o ∈ s.ctx.stored, o ∈ t.ctx.stored) ∧
    ((∀ o ∈ t.ctx.stored, o ∈ objs) → s.Inv L objs → t.Inv L objs)

variable {L : Linked} {A : Aead} {objs : Set Object} {mtime : Option ℕ} {s : OverlayState}
  {t : SecretsContext} {obj : Object} {id : ObjectId} {name env var : String}

lemma kept_wrote (h : s.ctx.Wrote L objs t) : Kept L objs s ⟨t, s.setFor⟩ :=
  ⟨h.stored, fun hobjs hinv => ⟨h.sound hobjs hinv.sound, fun env var name hset =>
    h.points (hinv.follows env var name hset)⟩⟩

lemma kept_same : Kept L objs s s := kept_wrote (.refl L objs s.ctx)

lemma kept_putting (L : Linked) (objs : Set Object) (mtime : Option ℕ) (s : OverlayState)
    (obj : Object) : Kept L objs s ⟨s.ctx.putting L mtime obj, s.setFor⟩ :=
  kept_wrote (.putting L objs mtime s.ctx obj)

/-- A name may be set to a new id, if no entry is set for it or if it has the id already. -/
lemma kept_register (hname : s.Inv L objs → ∀ env var, s.setFor (env, var) = some name →
      s.ctx.secrets[name]? = some id.toHex) :
    Kept L objs s ⟨{ s.ctx.putting L mtime obj with
      secrets := s.ctx.secrets.insert name id.toHex }, s.setFor⟩ := by
  obtain ⟨hstored, hkept⟩ := kept_putting L objs mtime s obj
  refine ⟨hstored, fun hobjs hinv => ?_⟩
  obtain ⟨hsound, hfollows⟩ := hkept hobjs hinv
  refine ⟨⟨hsound.faithful, hsound.writes, hsound.answers, hsound.overlays⟩,
    fun env var n hset => ?_⟩
  obtain ⟨overlayId, overlay, sid, henv, hoverlay, hentry, hn⟩ := hfollows env var n hset
  refine ⟨overlayId, overlay, sid, henv, hoverlay, hentry, ?_⟩
  rw [Std.ExtTreeMap.getElem?_insert]
  split_ifs with heq
  · obtain rfl := Std.LawfulEqOrd.eq_of_compare heq
    rw [← hname hinv env var hset]
    exact hn
  · exact hn

/-- An overlay may be stored under a name, if its entries have the objects of the names that they
are set for. -/
lemma kept_storeOverlay {overlay : EnvOverlay} {setFor : String × String → Option String}
    (hput : (s.ctx.repo.objects.put L (.envOverlay overlay) mtime).1 = .ok id)
    (hother : ∀ env' var n, env' ≠ env → setFor (env', var) = some n →
      s.setFor (env', var) = some n)
    (hentries : s.Inv L objs → ∀ var n, setFor (env, var) = some n → ∃ sid,
      overlay.entries[var]? = some (.secret sid) ∧ s.ctx.secrets[n]? = some (ObjectId.toHex sid)) :
    Kept L objs s ⟨{ s.ctx.putting L mtime (.envOverlay overlay) with
      envs := s.ctx.envs.insert env id.toHex }, setFor⟩ := by
  obtain ⟨hstored, hkept⟩ := kept_putting L objs mtime s (.envOverlay overlay)
  refine ⟨hstored, fun hobjs hinv => ?_⟩
  obtain ⟨hsound, hfollows⟩ := hkept hobjs hinv
  obtain ⟨b, -, hput', hread⟩ := hinv.sound.put (hobjs (.envOverlay overlay) (by simp)) mtime
  obtain rfl : L.fromContent b = id := Except.ok.inj (hput'.symm.trans hput)
  refine ⟨⟨hsound.faithful, hsound.writes, hsound.answers, fun env' str hstr => ?_⟩,
    fun env' var n hset => ?_⟩
  · rw [Std.ExtTreeMap.getElem?_insert] at hstr
    split_ifs at hstr with heq
    · exact ⟨_, overlay, (Option.some.inj hstr).symm, hread⟩
    · exact hsound.overlays env' str hstr
  · by_cases henv : env' = env
    · subst henv
      obtain ⟨sid, hentry, hn⟩ := hentries hinv var n hset
      exact ⟨_, overlay, sid, by simp, hread, hentry, hn⟩
    · obtain ⟨overlayId, overlay', sid, henv', hoverlay, hentry, hn⟩ :=
        hfollows env' var n (hother env' var n henv hset)
      refine ⟨overlayId, overlay', sid, ?_, hoverlay, hentry, hn⟩
      rw [Std.ExtTreeMap.getElem?_insert, if_neg fun heq =>
        henv (Std.LawfulEqOrd.eq_of_compare heq).symm]
      exact henv'

/-! ### The commands on one name -/

/-- The end of the commands on one secret. -/
lemma ensures_registerSecret (name context : String) (obj : Except String Object)
    (hname : s.Inv L objs → ∀ env var, s.setFor (env, var) = some name → ∀ o b, obj = .ok o →
      L.codec.serialize o = .ok b → s.ctx.secrets[name]? = some (L.fromContent b).toHex) :
    Ensures (registerSecret L mtime name context obj) s.ctx
      (fun _ t => Kept L objs s ⟨t, s.setFor⟩) fun _ t => Kept L objs s ⟨t, s.setFor⟩ := by
  simp only [registerSecret, ensures_bind, ensures_lift, ensures_adaptExcept,
    SecretsContext.ensures_putObject, ensures_modify]
  refine ⟨fun o ho => ⟨fun id hput => ?_, fun e _ => kept_putting ..⟩, fun _ _ => kept_same⟩
  obtain ⟨b, hb, rfl⟩ := ObjectStore.put_eq_ok hput
  exact kept_register fun hinv env var hset => hname hinv env var hset o b ho hb

/-- For a free name nothing is set. -/
lemma Inv.registered (h : s.Inv L objs) (hset : s.setFor (env, var) = some name) :
    s.ctx.secrets.contains name = true := by
  obtain ⟨-, -, id, -, -, -, hname⟩ := h.follows env var name hset
  rw [Std.ExtTreeMap.contains_eq_isSome_getElem?, hname]
  rfl

lemma ensures_storeOverlay {overlay : EnvOverlay} {setFor : String × String → Option String}
    (hother : ∀ env' var n, env' ≠ env → setFor (env', var) = some n →
      s.setFor (env', var) = some n)
    (hentries : s.Inv L objs → ∀ var n, setFor (env, var) = some n → ∃ sid,
      overlay.entries[var]? = some (.secret sid) ∧ s.ctx.secrets[n]? = some (ObjectId.toHex sid)) :
    Ensures (storeOverlay L mtime env overlay) s.ctx (fun _ t => Kept L objs s ⟨t, setFor⟩)
      fun _ t => Kept L objs s ⟨t, s.setFor⟩ := by
  simp only [storeOverlay, ensures_bind, ensures_adaptExcept, SecretsContext.ensures_putObject,
    ensures_modify]
  exact ⟨fun id hput => kept_storeOverlay hput hother hentries, fun _ _ => kept_putting ..⟩

lemma ensures_createEnv (env : String) :
    Ensures (createEnv L mtime env) s.ctx (fun _ t => Kept L objs s ⟨t, s.setFor⟩)
      fun _ t => Kept L objs s ⟨t, s.setFor⟩ := by
  simp only [createEnv, ensures_bind, ensures_get]
  split_ifs with hcontains
  · exact kept_same
  · refine ensures_storeOverlay (fun _ _ _ _ h => h) fun hinv var n hset => ?_
    -- an overlay that is set for something is registered
    obtain ⟨overlayId, -, -, henv, -⟩ := hinv.follows env var n hset
    rw [Std.ExtTreeMap.contains_eq_isSome_getElem?, henv] at hcontains
    exact absurd rfl hcontains

lemma ensures_setEnv {value : EnvValue} {setFor : String × String → Option String}
    (hother : ∀ env' var' n, (env', var') ≠ (env, var) → setFor (env', var') = some n →
      s.setFor (env', var') = some n)
    (hvalue : ∀ n, setFor (env, var) = some n → ∃ sid, value = .secret sid ∧
      s.ctx.secrets[n]? = some (ObjectId.toHex sid)) :
    Ensures (setEnv L mtime env var value) s.ctx (fun _ t => Kept L objs s ⟨t, setFor⟩)
      fun _ t => Kept L objs s ⟨t, s.setFor⟩ := by
  simp only [setEnv, ensures_bind, ensures_get, ensures_lift]
  refine ⟨fun overlay hload => ?_, fun _ _ => kept_same⟩
  obtain ⟨id, hid, hobject⟩ := SecretsContext.loadOverlay_eq_ok hload
  refine ensures_storeOverlay (fun env' var' n hne => hother env' var' n (by simp [hne]))
    fun hinv var' n hset => ?_
  rw [Std.ExtTreeMap.getElem?_insert]
  by_cases hvar : var' = var
  · subst hvar
    obtain ⟨sid, rfl, hn⟩ := hvalue n hset
    exact ⟨sid, by simp, hn⟩
  · -- another entry of the overlay stays
    obtain ⟨overlayId, overlay', sid, henv, hoverlay, hentry, hn⟩ :=
      hinv.follows env var' n (hother env var' n (by simp [hvar]) hset)
    obtain rfl : overlayId = id := by
      rw [henv] at hid
      exact ObjectId.toHex_injective (Option.some.inj hid)
    obtain rfl : overlay' = overlay := by
      rw [hoverlay] at hobject
      simpa using hobject
    exact ⟨sid, by rwa [if_neg fun heq => hvar (Std.LawfulEqOrd.eq_of_compare heq).symm], hn⟩

lemma ensures_setSecretEnv (env var name : String) :
    Ensures (setSecretEnv L mtime env var name) s.ctx
      (fun _ t => Kept L objs s ⟨t, Function.update s.setFor (env, var) (some name)⟩)
      fun _ t => Kept L objs s ⟨t, s.setFor⟩ := by
  simp only [setSecretEnv, ensures_bind, ensures_get, ensures_lift]
  refine ⟨fun id hid => ensures_setEnv (fun env' var' n hne => ?_) fun n hset => ?_,
    fun _ _ => kept_same⟩
  · rw [Function.update_of_ne hne]
    exact fun h => h
  · rw [Function.update_self] at hset
    obtain rfl := Option.some.inj hset
    exact ⟨id, rfl, SecretsContext.registered_eq_ok.mp hid⟩

/-! ### The master key rotated -/

/-- What the names of a rotation have in the registry. -/
lemma nameIds_eq_ok {ctx : SecretsContext} {names : List String}
    {nameIds : List (String × ObjectId)} (h : ctx.nameIds names = .ok nameIds) :
    nameIds.map Prod.fst = names ∧
      ∀ p ∈ nameIds, ctx.secrets[p.1]? = some p.2.toHex := by
  induction names generalizing nameIds with
  | nil =>
      cases h
      simp
  | cons name rest ih =>
      obtain ⟨id, hid, h⟩ := Result.bind_eq_ok.mp h
      obtain ⟨nameIds', hrest, h⟩ := Result.bind_eq_ok.mp h
      cases h
      obtain ⟨hnames, hids⟩ := ih hrest
      exact ⟨by simp [hnames], List.forall_mem_cons.mpr
        ⟨SecretsContext.registered_eq_ok.mp hid, hids⟩⟩

/-- Rewrapped secrets are written, one for each id. -/
lemma ensures_rekeyObjects (draws : ℕ → MultiRecipientSecret.Draws) (old : ProviderChain Digest)
    (new : KeyProvider Digest) (ids : List ObjectId) (i : ℕ) (ctx : SecretsContext) :
    Ensures (rekeyObjects L A mtime draws old new i ids) ctx
      (fun mapping t => mapping.map Prod.fst = ids ∧ ctx.Wrote L objs t)
      fun _ t => ctx.Wrote L objs t := by
  induction ids generalizing i ctx with
  | nil => exact ⟨rfl, .refl L objs ctx⟩
  | cons id rest ih =>
      simp only [rekeyObjects, ensures_bind, ensures_get, ensures_lift,
        SecretsContext.ensures_putObject]
      refine ⟨fun obj _ => ⟨fun newId _ => ?_, fun _ _ => .putting L objs mtime ctx obj⟩,
        fun _ _ => .refl L objs ctx⟩
      have hput := SecretsContext.Wrote.putting L objs mtime ctx obj
      exact (ih (i + 1) _).mono
        (fun mapping t h => ⟨congrArg (List.cons id) h.1, hput.trans h.2⟩)
        fun _ t h => hput.trans h

/-- A name that is rotated has the new id of its object; the others are left. -/
lemma getElem?_repointSecrets {remap : BTreeMap ObjectId ObjectId} {n : String} {new : ObjectId}
    {nameIds : List (String × ObjectId)} (h : ∀ p ∈ nameIds, p.1 = n → remap[p.2]? = some new)
    (secrets : BTreeMap String String) :
    (repointSecrets remap nameIds secrets)[n]? =
      if n ∈ nameIds.map Prod.fst then some new.toHex else secrets[n]? := by
  induction nameIds generalizing secrets with
  | nil => simp [repointSecrets]
  | cons p rest ih =>
      obtain ⟨hp, hrest⟩ := List.forall_mem_cons.mp h
      rw [repointSecrets, List.foldl_cons, ← repointSecrets, ih hrest, repointSecret]
      by_cases hn : p.1 = n
      · subst hn
        simp [hp rfl]
      · have hne : compare p.1 n ≠ .eq := fun heq => hn (Std.LawfulEqOrd.eq_of_compare heq)
        have hmem : n ∈ (p :: rest).map Prod.fst ↔ n ∈ rest.map Prod.fst := by
          rw [List.map_cons, List.mem_cons, or_iff_right (Ne.symm hn)]
        rw [if_congr hmem rfl rfl]
        cases remap[p.2]? with
        | none => rfl
        | some newId => simp [Std.ExtTreeMap.getElem?_insert, hne]

/-- An overlay whose entries have the new ids. -/
def Repointed (remap : BTreeMap ObjectId ObjectId) (o o' : EnvOverlay) : Prop :=
  ∀ var : String, o'.entries[var]? = (o.entries[var]?).map (repointValue remap)

lemma repointValue_eq {remap : BTreeMap ObjectId ObjectId} {v : EnvValue}
    (h : repointsValue remap v = false) : repointValue remap v = v := by
  cases v with
  | plain s => rfl
  | secret id =>
      rw [repointsValue] at h
      rw [repointValue, Std.ExtTreeMap.getElem?_eq_none_of_contains_eq_false h]
      rfl

/-- The update of an overlay has its entries repointed, and an overlay without update has none to
repoint. -/
structure Updates (L : Linked) (remap : BTreeMap ObjectId ObjectId) (t : SecretsContext)
    (l updates : List (String × String)) : Prop where
  updated : ∀ u ∈ updates, ∃ id o newId o', (u.1, ObjectId.toHex id) ∈ l ∧
    t.repo.objects.object L id = some (.envOverlay o) ∧ u.2 = ObjectId.toHex newId ∧
    t.repo.objects.object L newId = some (.envOverlay o') ∧ Repointed remap o o'
  left : ∀ env id, (env, ObjectId.toHex id) ∈ l → env ∉ updates.map Prod.fst →
    ∀ o, t.repo.objects.object L id = some (.envOverlay o) → Repointed remap o o

/-- An overlay with nothing to repoint. -/
lemma repointed_self {remap : BTreeMap ObjectId ObjectId} {o : EnvOverlay}
    (h : (o.entries.toList.any fun e => repointsValue remap e.2) = false) :
    Repointed remap o o := by
  intro var
  cases hv : o.entries[var]? with
  | none => rfl
  | some v =>
      rw [List.any_eq_false] at h
      have := h (var, v) (Std.ExtTreeMap.mem_toList_iff_getElem?_eq_some.mpr hv)
      rw [Option.map_some, repointValue_eq (by simpa using this)]

section Updates

variable {remap : BTreeMap ObjectId ObjectId} {l updates : List (String × String)}
  {oid newId : ObjectId} {overlay overlay' : EnvOverlay}

/-- An overlay without an update. -/
lemma updates_skip (h : Updates L remap t l updates)
    (hoverlay : t.repo.objects.object L oid = some (.envOverlay overlay))
    (hsame : Repointed remap overlay overlay) :
    Updates L remap t ((env, oid.toHex) :: l) updates where
  updated u hu := by
    obtain ⟨id, o, newId, o', hmem, hrest⟩ := h.updated u hu
    exact ⟨id, o, newId, o', List.mem_cons_of_mem _ hmem, hrest⟩
  left env' id hmem hnot o ho := by
    rcases List.mem_cons.mp hmem with heq | hmem
    · obtain rfl := ObjectId.toHex_injective (congrArg Prod.snd heq)
      rw [hoverlay] at ho
      obtain rfl : overlay = o := by simpa using ho
      exact hsame
    · exact h.left env' id hmem hnot o ho

/-- An overlay with its update. -/
lemma updates_cons (h : Updates L remap t l updates)
    (hoverlay : t.repo.objects.object L oid = some (.envOverlay overlay))
    (hnew : t.repo.objects.object L newId = some (.envOverlay overlay'))
    (hrepointed : Repointed remap overlay overlay') :
    Updates L remap t ((env, oid.toHex) :: l) ((env, newId.toHex) :: updates) where
  updated u hu := by
    rcases List.mem_cons.mp hu with rfl | hu
    · exact ⟨oid, overlay, newId, overlay', List.mem_cons_self, hoverlay, rfl, hnew, hrepointed⟩
    · obtain ⟨id, o, newId', o', hmem, hrest⟩ := h.updated u hu
      exact ⟨id, o, newId', o', List.mem_cons_of_mem _ hmem, hrest⟩
  left env' id hmem hnot o ho := by
    rw [List.map_cons, List.mem_cons, not_or] at hnot
    rcases List.mem_cons.mp hmem with heq | hmem
    · exact absurd (congrArg Prod.fst heq) hnot.1
    · exact h.left env' id hmem hnot.2 o ho

end Updates

/-- One overlay is repointed, and that does not fail. -/
lemma ensures_repointOverlay (remap : BTreeMap ObjectId ObjectId) (oid : ObjectId)
    (ctx : SecretsContext) :
    Ensures (repointOverlay L mtime remap oid) ctx
      (fun newOid t => ctx.Wrote L objs t ∧ ((∀ o ∈ t.stored, o ∈ objs) → ctx.Sound L objs →
        ∀ overlay, ctx.repo.objects.object L oid = some (.envOverlay overlay) →
          (newOid = none ∧ Repointed remap overlay overlay) ∨ ∃ newId overlay',
            newOid = some newId ∧ t.repo.objects.object L newId = some (.envOverlay overlay') ∧
              Repointed remap overlay overlay'))
      fun _ t => ctx.Wrote L objs t ∧ ((∀ o ∈ t.stored, o ∈ objs) → ctx.Sound L objs →
        ∀ overlay, ctx.repo.objects.object L oid ≠ some (.envOverlay overlay)) := by
  have hrefl := SecretsContext.Wrote.refl L objs ctx
  simp only [repointOverlay, ensures_bind, ensures_get, ensures_lift]
  refine ⟨fun found hfound => ?_, fun e he => ⟨hrefl, fun _ _ overlay hoverlay => ?_⟩⟩
  · cases found with
    | none =>
        refine ⟨hrefl, fun _ _ overlay hoverlay => ?_⟩
        rw [ObjectStore.getOverlay_eq_some.mpr hoverlay] at hfound
        cases hfound
    | some overlay =>
        have hold := ObjectStore.getOverlay_eq_some.mp (told_eq_ok.mp hfound)
        dsimp only
        split_ifs with hany
        · simp only [ensures_bind, ensures_adaptExcept, SecretsContext.ensures_putObject,
            ensures_pure]
          refine ⟨fun newId hnew => ⟨.putting L objs mtime ctx _, fun hobjs hsound o ho => ?_⟩,
            fun e he => ⟨.putting L objs mtime ctx _, fun hobjs hsound => ?_⟩⟩
          all_goals obtain ⟨b, -, hput, hread⟩ :=
            hsound.put (hobjs _ SecretsContext.mem_putting) mtime
          · obtain rfl : L.fromContent b = newId := Except.ok.inj (hput.symm.trans hnew)
            obtain rfl : overlay = o := by
              rw [hold] at ho
              simpa using ho
            exact Or.inr ⟨_, _, rfl, hread, fun var => Std.ExtTreeMap.getElem?_map⟩
          · rw [hput] at he
            cases he
        · refine ⟨hrefl, fun _ _ o ho => Or.inl ⟨rfl, ?_⟩⟩
          obtain rfl : overlay = o := by
            rw [hold] at ho
            simpa using ho
          exact repointed_self (by simpa using hany)
  · rw [ObjectStore.getOverlay_eq_some.mpr hoverlay] at he
    cases he

/-- The loop over the registry of overlays repoints all of them, and does not fail. -/
lemma ensures_repointOverlays (remap : BTreeMap ObjectId ObjectId) (l : List (String × String))
    (ctx : SecretsContext) :
    Ensures (repointOverlays L mtime remap l) ctx
      (fun updates t => ctx.Wrote L objs t ∧ ((∀ o ∈ t.stored, o ∈ objs) → ctx.Sound L objs →
        (∀ p ∈ l, ctx.envs[p.1]? = some p.2) → Updates L remap t l updates))
      fun _ t => ctx.Wrote L objs t ∧ ((∀ o ∈ t.stored, o ∈ objs) → ctx.Sound L objs →
        ¬ ∀ p ∈ l, ctx.envs[p.1]? = some p.2) := by
  induction l generalizing ctx with
  | nil => exact ⟨.refl L objs ctx, fun _ _ _ => ⟨by simp, by simp⟩⟩
  | cons p rest ih =>
      obtain ⟨envName, oidStr⟩ := p
      rw [repointOverlays]
      cases hparse : ObjectId.fromStr oidStr with
      | none =>
          -- what the registry has is the id of an overlay
          have hnot : ctx.Sound L objs →
              ¬ ∀ p ∈ (envName, oidStr) :: rest, ctx.envs[p.1]? = some p.2 := by
            intro hsound hl
            obtain ⟨id, o, rfl, -⟩ := hsound.overlays envName oidStr (hl _ List.mem_cons_self)
            rw [ObjectId.fromStr_iff.mpr rfl] at hparse
            cases hparse
          exact (ih ctx).mono (fun _ _ h => ⟨h.1, fun _ hsound hl => absurd hl (hnot hsound)⟩)
            fun _ _ h => ⟨h.1, fun _ hsound => hnot hsound⟩
      | some oid =>
          obtain rfl := ObjectId.fromStr_iff.mp hparse
          have hhead : ctx.Sound L objs →
              (∀ p ∈ (envName, oid.toHex) :: rest, ctx.envs[p.1]? = some p.2) →
              ∃ o, ctx.repo.objects.object L oid = some (.envOverlay o) := by
            intro hsound hl
            obtain ⟨id, o, hid, ho⟩ := hsound.overlays _ _ (hl _ List.mem_cons_self)
            obtain rfl := ObjectId.toHex_injective hid
            exact ⟨o, ho⟩
          simp only [ensures_bind]
          refine (ensures_repointOverlay remap oid ctx).mono (fun newOid t hfirst => ?_)
            fun e t hfirst => ⟨hfirst.1, fun hobjs hsound hl => ?_⟩
          · refine (ih t).mono (fun updates u hrest => ?_) fun e u hrest =>
              ⟨hfirst.1.trans hrest.1, fun hobjs hsound hl => ?_⟩
            · have hupdates : (∀ o ∈ u.stored, o ∈ objs) → ctx.Sound L objs →
                  (∀ p ∈ (envName, oid.toHex) :: rest, ctx.envs[p.1]? = some p.2) →
                  Updates L remap u rest updates := fun hobjs hsound hl =>
                hrest.2 hobjs (hfirst.1.sound (fun o ho => hobjs o (hrest.1.stored o ho)) hsound)
                  fun p hp => hfirst.1.envs ▸ hl p (List.mem_cons_of_mem _ hp)
              have hnew : (∀ o ∈ u.stored, o ∈ objs) → ctx.Sound L objs →
                  (∀ p ∈ (envName, oid.toHex) :: rest, ctx.envs[p.1]? = some p.2) →
                  Updates L remap u ((envName, oid.toHex) :: rest)
                    (newOid.elim updates fun newOid => (envName, newOid.toHex) :: updates) := by
                intro hobjs hsound hl
                obtain ⟨overlay, hoverlay⟩ := hhead hsound hl
                have hold := (hfirst.1.trans hrest.1).grows _ _ hoverlay
                rcases hfirst.2 (fun o ho => hobjs o (hrest.1.stored o ho)) hsound overlay
                  hoverlay with ⟨rfl, hsame⟩ | ⟨newId, overlay', rfl, hnew, hrepointed⟩
                · exact updates_skip (hupdates hobjs hsound hl) hold hsame
                · exact updates_cons (hupdates hobjs hsound hl) hold (hrest.1.grows _ _ hnew)
                    hrepointed
              cases newOid with
              | none => exact ⟨hfirst.1.trans hrest.1, hnew⟩
              | some newOid => exact ⟨hfirst.1.trans hrest.1, hnew⟩
            · refine hrest.2 hobjs
                (hfirst.1.sound (fun o ho => hobjs o (hrest.1.stored o ho)) hsound) fun p hp => ?_
              exact hfirst.1.envs ▸ hl p (List.mem_cons_of_mem _ hp)
          · obtain ⟨o, ho⟩ := hhead hsound hl
            exact hfirst.2 hobjs hsound o ho

/-- The registry of overlays after the updates. -/
lemma getElem?_updates (updates : List (String × String)) (envs : BTreeMap String String)
    (env : String) :
    (∃ u ∈ updates, u.1 = env ∧
        (updates.foldl (fun envs u => envs.insert u.1 u.2) envs)[env]? = some u.2) ∨
      (env ∉ updates.map Prod.fst ∧
        (updates.foldl (fun envs u => envs.insert u.1 u.2) envs)[env]? = envs[env]?) := by
  induction updates generalizing envs with
  | nil => exact Or.inr ⟨by simp, rfl⟩
  | cons u rest ih =>
      rw [List.foldl_cons]
      rcases ih (envs.insert u.1 u.2) with ⟨u', hu', henv, hread⟩ | ⟨hnot, hread⟩
      · exact Or.inl ⟨u', List.mem_cons_of_mem _ hu', henv, hread⟩
      · rw [hread, Std.ExtTreeMap.getElem?_insert]
        by_cases henv : u.1 = env
        · exact Or.inl ⟨u, List.mem_cons_self, henv, by rw [henv, if_pos Std.ReflOrd.compare_self]⟩
        · refine Or.inr ⟨?_, if_neg fun heq => henv (Std.LawfulEqOrd.eq_of_compare heq)⟩
          rw [List.map_cons, List.mem_cons, not_or]
          exact ⟨Ne.symm henv, hnot⟩

/-- A name and an entry with its object get the same new object, if no other name with the object
is rotated in its stead. -/
lemma repoint_agrees {ctx : SecretsContext} {remap : BTreeMap ObjectId ObjectId}
    {nameIds : List (String × ObjectId)}
    (hnames : ∀ p ∈ nameIds, ctx.secrets[p.1]? = some p.2.toHex)
    (hremap : ∀ id : ObjectId, id ∈ remap ↔ id ∈ nameIds.map Prod.snd)
    (halone : name ∉ nameIds.map Prod.fst → ∀ m ∈ nameIds.map Prod.fst,
      ctx.secrets[m]? ≠ ctx.secrets[name]?)
    (hname : ctx.secrets[name]? = some id.toHex) :
    ∃ newId, repointValue remap (.secret id) = .secret newId ∧
      (repointSecrets remap nameIds ctx.secrets)[name]? = some (ObjectId.toHex newId) := by
  by_cases hmem : name ∈ nameIds.map Prod.fst
  · -- the name is rotated, with every entry of its id
    have hid : ∀ p ∈ nameIds, p.1 = name → p.2 = id := by
      rintro p hp rfl
      exact ObjectId.toHex_injective (Option.some.inj ((hnames p hp).symm.trans hname))
    obtain ⟨p, hp, rfl⟩ := List.mem_map.mp hmem
    obtain ⟨new, hnew⟩ : ∃ new, remap[id]? = some new := by
      rw [← Option.isSome_iff_exists, ← Std.ExtTreeMap.mem_iff_isSome_getElem?, hremap]
      exact List.mem_map.mpr ⟨p, hp, hid p hp rfl⟩
    refine ⟨new, by rw [repointValue, hnew]; rfl, ?_⟩
    rw [getElem?_repointSecrets fun q hq h => hid q hq h ▸ hnew, if_pos hmem]
  · have hnone : remap[id]? = none := by
      refine Std.ExtTreeMap.getElem?_eq_none fun hid => ?_
      rw [hremap] at hid
      obtain ⟨p, hp, rfl⟩ := List.mem_map.mp hid
      exact halone hmem p.1 (List.mem_map_of_mem hp) ((hnames p hp).trans hname.symm)
    refine ⟨id, by rw [repointValue, hnone]; rfl, ?_⟩
    have hrotated : ∀ p ∈ nameIds, p.1 = name → remap[p.2]? = some id :=
      fun q hq h => absurd (List.mem_map.mpr ⟨q, hq, h⟩) hmem
    rw [getElem?_repointSecrets hrotated, if_neg hmem, hname]

/-- What becomes of a registered overlay. -/
lemma Updates.registered {remap : BTreeMap ObjectId ObjectId} {envs : BTreeMap String String}
    {updates : List (String × String)} {overlay : EnvOverlay} {oid : ObjectId}
    (h : Updates L remap t envs.toList updates) (henv : envs[env]? = some oid.toHex)
    (hoverlay : t.repo.objects.object L oid = some (.envOverlay overlay)) :
    ∃ newId overlay', (updates.foldl (fun envs u => envs.insert u.1 u.2) envs)[env]? =
        some (ObjectId.toHex newId) ∧
      t.repo.objects.object L newId = some (.envOverlay overlay') ∧
        Repointed remap overlay overlay' := by
  have hmem := Std.ExtTreeMap.mem_toList_iff_getElem?_eq_some.mpr henv
  rcases getElem?_updates updates envs env with ⟨u, hu, rfl, hread⟩ | ⟨hnot, hread⟩
  · obtain ⟨id, o, newId, o', hold, ho, hnew, ho', hrepointed⟩ := h.updated u hu
    rw [Std.ExtTreeMap.mem_toList_iff_getElem?_eq_some, henv] at hold
    obtain rfl := ObjectId.toHex_injective (Option.some.inj hold)
    rw [hoverlay] at ho
    obtain rfl : overlay = o := by simpa using ho
    exact ⟨newId, o', hread.trans (congrArg some hnew), ho', hrepointed⟩
  · exact ⟨oid, overlay, hread.trans henv, hoverlay, h.left env oid hmem hnot overlay hoverlay⟩

/-- **`rekey` moves the entries with the names**, if no entry is set for a name that is left while
another one with its object is rotated. -/
lemma kept_rekey {remap : BTreeMap ObjectId ObjectId} {nameIds : List (String × ObjectId)}
    {u : SecretsContext} {updates : List (String × String)}
    (hwrote : s.ctx.Wrote L objs t)
    (hnames : ∀ p ∈ nameIds, s.ctx.secrets[p.1]? = some p.2.toHex)
    (hremap : ∀ id : ObjectId, id ∈ remap ↔ id ∈ nameIds.map Prod.snd)
    (halone : ∀ env var name, s.setFor (env, var) = some name → name ∉ nameIds.map Prod.fst →
      ∀ m ∈ nameIds.map Prod.fst, s.ctx.secrets[m]? ≠ s.ctx.secrets[name]?)
    (hloop : SecretsContext.Wrote L objs
      { t with secrets := repointSecrets remap nameIds t.secrets } u)
    (hupdates : (∀ o ∈ u.stored, o ∈ objs) →
      SecretsContext.Sound L objs { t with secrets := repointSecrets remap nameIds t.secrets } →
      Updates L remap u u.envs.toList updates) :
    Kept L objs s ⟨{ u with
      envs := updates.foldl (fun envs u => envs.insert u.1 u.2) u.envs }, s.setFor⟩ := by
  refine ⟨fun o ho => hloop.stored o (hwrote.stored o ho), fun hobjs hinv => ?_⟩
  have hsound := hwrote.sound (fun o ho => hobjs o (hloop.stored o ho)) hinv.sound
  have hsound' : SecretsContext.Sound L objs
      { t with secrets := repointSecrets remap nameIds t.secrets } :=
    ⟨hsound.faithful, hsound.writes, hsound.answers, hsound.overlays⟩
  have hafter := hloop.sound hobjs hsound'
  have hrepointed := hupdates hobjs hsound'
  refine ⟨⟨hafter.faithful, hafter.writes, hafter.answers, fun env str hstr => ?_⟩,
    fun env var name hset => ?_⟩
  · rcases getElem?_updates updates u.envs env with ⟨p, hp, rfl, hread⟩ | ⟨-, hread⟩
    · obtain ⟨-, -, newId, o', -, -, hnew, ho', -⟩ := hrepointed.updated p hp
      exact ⟨newId, o', (Option.some.inj (hread.symm.trans hstr)).symm.trans hnew, ho'⟩
    · exact hafter.overlays env str (hread.symm.trans hstr)
  · obtain ⟨overlayId, overlay, id, henv, hoverlay, hentry, hname⟩ := hinv.follows env var name hset
    have henvs : u.envs = s.ctx.envs := hloop.envs.trans hwrote.envs
    have hsecrets : u.secrets = repointSecrets remap nameIds s.ctx.secrets :=
      hloop.secrets.trans (congrArg (repointSecrets remap nameIds) hwrote.secrets)
    obtain ⟨newId, overlay', henv', hoverlay', hentries⟩ := hrepointed.registered
      (henvs ▸ henv) (hloop.grows _ _ (hwrote.grows _ _ hoverlay))
    obtain ⟨sid, hvalue, hname'⟩ := repoint_agrees hnames hremap (halone env var name hset) hname
    refine ⟨newId, overlay', sid, henv', hoverlay', ?_, hsecrets ▸ hname'⟩
    rw [hentries var, hentry, Option.map_some, hvalue]

/-- `rekey`. -/
lemma ensures_rekeySecrets (all : Bool) (names : List String) (oldKey newKey : KeyFlags)
    (draws : ℕ → MultiRecipientSecret.Draws)
    (halone : ∀ env var name, s.setFor (env, var) = some name →
      name ∉ s.ctx.rekeyTargets all names →
      ∀ m ∈ s.ctx.rekeyTargets all names, s.ctx.secrets[m]? ≠ s.ctx.secrets[name]?) :
    Ensures (rekeySecrets L A mtime all names oldKey newKey draws) s.ctx
      (fun _ t => Kept L objs s ⟨t, s.setFor⟩) fun _ t => Kept L objs s ⟨t, s.setFor⟩ := by
  simp only [rekeySecrets, ensures_bind, ensures_get]
  split_ifs
  · exact kept_same
  simp only [ensures_bind, ensures_lift, ensures_adaptExcept, ensures_modify]
  refine ⟨fun old _ => ⟨fun new _ => ⟨fun newProvider _ => ⟨fun nameIds hnameIds => ?_,
    fun _ _ => kept_same⟩, fun _ _ => kept_same⟩, fun _ _ => kept_same⟩, fun _ _ => kept_same⟩
  obtain ⟨hfst, hnames⟩ := nameIds_eq_ok hnameIds
  rw [← hfst] at halone
  refine (ensures_rekeyObjects draws old newProvider _ 0 s.ctx).mono
    (fun mapping t ht => ?_) fun _ t ht => kept_wrote ht
  obtain ⟨hmapping, hwrote⟩ := ht
  have hremap : ∀ id : ObjectId, id ∈ (Std.ExtTreeMap.ofList mapping compare) ↔
      id ∈ nameIds.map Prod.snd := by
    intro id
    rw [Std.ExtTreeMap.mem_ofList, hmapping, List.contains_iff_mem]
  refine (ensures_repointOverlays _ s.ctx.envs.toList _).mono
    (fun updates u hu => kept_rekey hwrote hnames hremap halone hu.1 fun hobjs hsound => ?_)
    fun _ u hu => ⟨fun o ho => hu.1.stored o (hwrote.stored o ho), fun hobjs hinv => ?_⟩
  · rw [hu.1.envs, hwrote.envs]
    refine hu.2 hobjs hsound fun p hp => ?_
    rw [hwrote.envs]
    exact Std.ExtTreeMap.mem_toList_iff_getElem?_eq_some.mp hp
  · -- the loop over the overlays does not fail
    have hsound := hwrote.sound (fun o ho => hobjs o (hu.1.stored o ho)) hinv.sound
    refine absurd (fun p hp => ?_) (hu.2 hobjs
      ⟨hsound.faithful, hsound.writes, hsound.answers, hsound.overlays⟩)
    rw [hwrote.envs]
    exact Std.ExtTreeMap.mem_toList_iff_getElem?_eq_some.mp hp

end OverlayState

/-! ### What resolves -/

section Resolving

variable {L : Linked} {A : Aead} {r : Repository} {lattice : LabelLattice} {rules : LabelRuleSet}
  {chain : ProviderChain Digest} {accessor : Accessor} {skip : Bool} {id : ObjectId}
  {m : BTreeMap String String}

/-- The loop of `resolve_overlay` leaves what is not among the entries. -/
lemma getElem?_resolveEntries_of_notMem {var : String} {entries : List (String × EnvValue)}
    {out : BTreeMap String String} (hnot : ∀ e ∈ entries, e.1 ≠ var)
    (h : r.resolveEntries L A lattice rules chain accessor skip entries out = .ok m) :
    m[var]? = out[var]? := by
  have hinsert : ∀ (x s : String) (out : BTreeMap String String), x ≠ var →
      (out.insert x s)[var]? = out[var]? := by
    intro x s out hne
    rw [Std.ExtTreeMap.getElem?_insert,
      if_neg fun heq => hne (Std.LawfulEqOrd.eq_of_compare heq)]
  induction entries generalizing out with
  | nil =>
      obtain rfl : out = m := Except.ok.inj h
      rfl
  | cons e rest ih =>
      obtain ⟨hhead, hrest⟩ := List.forall_mem_cons.mp hnot
      obtain ⟨x, v⟩ := e
      cases v with
      | plain s =>
          rw [Repository.resolveEntries] at h
          exact (ih hrest h).trans (hinsert x s out hhead)
      | secret sid =>
          rw [Repository.resolveEntries] at h
          split_ifs at h
          · obtain ⟨found, -, h⟩ := Result.bind_eq_ok.mp h
            split at h
            · cases h
            · split at h
              · cases h
              · exact (ih hrest h).trans (hinsert x _ out hhead)
          · exact ih hrest h

/-- What the loop of `resolve_overlay` makes of a secret: its value, if the actor is cleared. -/
lemma getElem?_resolveEntries {var : String} {entries : List (String × EnvValue)}
    {out : BTreeMap String String}
    (hdistinct : entries.Pairwise fun a b => ¬ compare a.1 b.1 = .eq)
    (hmem : (var, .secret id) ∈ entries) (hout : out[var]? = none)
    (h : r.resolveEntries L A lattice rules chain accessor skip entries out = .ok m) :
    if Repository.cleared lattice rules accessor var then
      ∃ bytes text, r.objects.getSecretResolved L A id chain = .ok (some bytes) ∧
        String.fromUTF8? bytes.toByteArray = some text ∧ m[var]? = some text
    else m[var]? = none := by
  induction entries generalizing out with
  | nil => cases hmem
  | cons e rest ih =>
      obtain ⟨x, v⟩ := e
      obtain ⟨hhead, hrest⟩ := List.pairwise_cons.mp hdistinct
      rcases List.mem_cons.mp hmem with heq | hlater
      · cases heq
        have hnot : ∀ e ∈ rest, e.1 ≠ var := fun e he heq =>
          hhead e he (heq ▸ Std.ReflOrd.compare_self)
        rw [Repository.resolveEntries] at h
        split_ifs at h ⊢ with hcleared
        · obtain ⟨found, hfound, h⟩ := Result.bind_eq_ok.mp h
          split at h
          · cases h
          · next bytes =>
              split at h
              · cases h
              · next text htext =>
                  refine ⟨bytes, text, hfound, htext, ?_⟩
                  rw [getElem?_resolveEntries_of_notMem hnot h]
                  simp
        · exact (getElem?_resolveEntries_of_notMem hnot h).trans hout
      · have hne : compare x var ≠ .eq := hhead _ hlater
        have hinsert : ∀ s : String, (out.insert x s)[var]? = none := fun s => by
          rw [Std.ExtTreeMap.getElem?_insert, if_neg hne, hout]
        cases v with
        | plain s =>
            rw [Repository.resolveEntries] at h
            exact ih hrest hlater (hinsert s) h
        | secret sid =>
            rw [Repository.resolveEntries] at h
            split_ifs at h
            · obtain ⟨found, -, h⟩ := Result.bind_eq_ok.mp h
              split at h
              · cases h
              · split at h
                · cases h
                · exact ih hrest hlater (hinsert _) h
            · exact ih hrest hlater hout h

end Resolving

namespace SecretsContext

variable {L : Linked} {A : Aead} {ctx : SecretsContext} {env var name : String}

/-- What `env resolve` gives for a variable is what `secret reveal` gives for a name, unless the
actor is not cleared. -/
def Resolves (L : Linked) (A : Aead) (ctx : SecretsContext) (env var name : String) : Prop :=
  ∀ key accessor skip (m : BTreeMap String String),
    ctx.envResolve L A env key (.ok accessor) skip = .ok m →
      ∃ lattice rules, ctx.repo.acls.getLattice = .ok lattice ∧
        ctx.repo.acls.getLabelRuleset = .ok rules ∧
        if Repository.cleared lattice rules accessor var then
          ∃ bytes text, ctx.reveal L A name key = .ok bytes ∧
            String.fromUTF8? bytes.toByteArray = some text ∧ m[var]? = some text
        else m[var]? = none

/-- **An entry that has the object of a name resolves to its value**. -/
lemma Points.resolves (h : ctx.Points L env var name) : ctx.Resolves L A env var name := by
  intro key accessor skip m hm
  obtain ⟨overlayId, overlay, id, henv, hoverlay, hentry, hname⟩ := h
  obtain ⟨-, -, hm⟩ := Result.bind_eq_ok.mp hm
  rw [henv] at hm
  obtain ⟨overlayId', hid, hm⟩ := Result.bind_eq_ok.mp hm
  obtain rfl := ObjectId.toHex_injective (parseId_eq_ok.mp hid)
  obtain ⟨chain, hchain, hm⟩ := Result.bind_eq_ok.mp hm
  obtain ⟨accessor', haccessor, hm⟩ := Result.bind_eq_ok.mp hm
  obtain rfl := Except.ok.inj haccessor
  obtain ⟨found, hfound, hm⟩ := Result.bind_eq_ok.mp (told_eq_ok.mp hm)
  rw [ObjectStore.getOverlay_eq_some.mpr hoverlay] at hfound
  obtain rfl := Except.ok.inj hfound
  obtain ⟨lattice, hlattice, hm⟩ := Result.bind_eq_ok.mp hm
  obtain ⟨rules, hrules, hm⟩ := Result.bind_eq_ok.mp hm
  refine ⟨lattice, rules, hlattice, hrules, ?_⟩
  have hresolved := getElem?_resolveEntries Std.ExtTreeMap.distinct_keys_toList
    (Std.ExtTreeMap.mem_toList_iff_getElem?_eq_some.mpr hentry) (by simp) hm
  split_ifs at hresolved ⊢ with hcleared
  · obtain ⟨bytes, text, hbytes, htext, hread⟩ := hresolved
    refine ⟨bytes, text, ?_, htext, hread⟩
    rw [reveal, registered_eq_ok.mpr hname]
    simp only [bind, Except.bind, hchain, hbytes]
  · exact hresolved

end SecretsContext

/-! ### Harmless commands -/

namespace OverlayState

variable {L : Linked} {A : Aead} {objs : Set Object} {mtime : Option ℕ} {s : OverlayState}

/-- A command that sets a name to another object is for a name that no entry is set for; and a
rotation of the master key leaves no name that an entry is set for while it rotates another one
with the same object. -/
def Harmless (L : Linked) (A : Aead) (s : OverlayState) (cmd : SecretCommand) : Prop :=
  (∀ name obj, cmd.replacement L A s.ctx = some (name, .ok obj) →
    ∀ b, L.codec.serialize obj = .ok b →
      (∃ env var, s.setFor (env, var) = some name) →
        s.ctx.secrets[name]? = some (L.fromContent b).toHex) ∧
  ∀ all names oldKey newKey draws, cmd = .rekey all names oldKey newKey draws →
    ∀ env var name, s.setFor (env, var) = some name → name ∉ s.ctx.rekeyTargets all names →
      ∀ m ∈ s.ctx.rekeyTargets all names, s.ctx.secrets[m]? ≠ s.ctx.secrets[name]?

/-- **One command**, if it is harmless, keeps the invariant. -/
lemma ensures_run {cmd : SecretCommand} (h : s.Harmless L A cmd) :
    Ensures (cmd.run L A mtime) s.ctx
      (fun _ t => Kept L objs s ⟨t, cmd.setForAfter s.setFor⟩)
      fun _ t => Kept L objs s ⟨t, s.setFor⟩ := by
  obtain ⟨hreplace, hrekey⟩ := h
  -- nothing is set for a name that is free
  have hfree : ∀ name, s.ctx.secrets.contains name ≠ true → s.Inv L objs → ∀ env var,
      s.setFor (env, var) ≠ some name := fun name hfree hinv env var hset =>
    hfree (hinv.registered hset)
  cases cmd with
  | put name plaintext key draws =>
      simp only [SecretCommand.run, storeSecret, ensures_bind, ensures_get, Bool.false_and,
        Bool.not_false, Bool.true_and, Bool.false_eq_true, if_false]
      split_ifs with hcontains
      · exact kept_same
      · exact ensures_registerSecret name _ _ fun hinv env var hset =>
          absurd hset (hfree name hcontains hinv env var)
  | rotate name plaintext key draws =>
      simp only [SecretCommand.run, storeSecret, ensures_bind, ensures_get, Bool.true_and,
        Bool.not_true, Bool.false_and, Bool.false_eq_true, if_false]
      split_ifs
      · exact kept_same
      · exact ensures_registerSecret name _ _ fun _ env var hset o b ho hb =>
          hreplace name o (congrArg (fun r => some (name, r)) ho) b hb ⟨env, var, hset⟩
  | rekey all names oldKey newKey draws =>
      exact ensures_rekeySecrets all names oldKey newKey draws
        (hrekey all names oldKey newKey draws rfl)
  | share name plaintext key recipients draws =>
      simp only [SecretCommand.run, shareSecret, ensures_bind, ensures_get]
      split_ifs with hcontains
      · exact kept_same
      · exact kept_same
      · exact ensures_registerSecret name _ _ fun hinv env var hset =>
          absurd hset (hfree name hcontains hinv env var)
  | grantActor name key recipientKey draws =>
      simp only [SecretCommand.run, Bole.grantActor, ensures_bind, ensures_get]
      exact ensures_registerSecret name _ _ fun _ env var hset o b ho hb =>
        hreplace name o (congrArg (fun r => some (name, r)) ho) b hb ⟨env, var, hset⟩
  | revokeActor name recipientKey =>
      simp only [SecretCommand.run, Bole.revokeActor, ensures_bind, ensures_get]
      exact ensures_registerSecret name _ _ fun _ env var hset o b ho hb =>
        hreplace name o (congrArg (fun r => some (name, r)) ho) b hb ⟨env, var, hset⟩
  | envCreate name => exact ensures_createEnv name
  | envSet name var value =>
      refine ensures_setEnv (fun env' var' n hne hset => ?_) fun n hset => ?_
      · rwa [SecretCommand.setForAfter, Function.update_of_ne hne] at hset
      · rw [SecretCommand.setForAfter, Function.update_self] at hset
        cases hset
  | envSetSecret name var secret => exact ensures_setSecretEnv name var secret

/-- One step keeps the invariant. -/
lemma step_kept {cmd : SecretCommand} {t : OverlayState} (hstep : Step L A s cmd t)
    (h : s.Harmless L A cmd) : Kept L objs s t := by
  cases hstep with
  | ok mtime hrun => exact (ensures_run h).of_ok hrun
  | error mtime hrun => exact (ensures_run h).of_error hrun

/-- A harmless run keeps the invariant. -/
lemma run_kept {t : OverlayState} {steps : List (OverlayState × SecretCommand)}
    (hrun : Run (Step L A) s steps t) (h : ∀ p ∈ steps, p.1.Harmless L A p.2) :
    Kept L objs s t := by
  induction hrun with
  | nil s => exact kept_same
  | cons hfirst _ ih =>
      obtain ⟨hhead, hrest⟩ := List.forall_mem_cons.mp h
      obtain ⟨hstored, hkept⟩ := step_kept hfirst hhead
      obtain ⟨hstored', hkept'⟩ := ih hrest
      exact ⟨fun o ho => hstored' o (hstored o ho),
        fun hobjs hinv => hkept' hobjs (hkept (fun o ho => hobjs o (hstored' o ho)) hinv)⟩

/-- **Overlays follow named secrets**, over every run of harmless commands: an entry that is set
for a name has the object that the registry has for it, and resolves to its value. -/
theorem overlays_follow {s t : OverlayState} {steps : List (OverlayState × SecretCommand)}
    (hunset : ∀ entry, s.setFor entry = none) (hsound : s.ctx.Sound L objs)
    (hrun : Run (Step L A) s steps t) (hobjs : ∀ o ∈ t.ctx.stored, o ∈ objs)
    (hharmless : ∀ p ∈ steps, p.1.Harmless L A p.2) {env var name : String}
    (hset : t.setFor (env, var) = some name) :
    t.ctx.Points L env var name ∧ t.ctx.Resolves L A env var name := by
  have hinv : s.Inv L objs := ⟨hsound, fun env var name hset => by simp [hunset] at hset⟩
  have hpoints := ((run_kept hrun hharmless).2 hobjs hinv).follows env var name hset
  exact ⟨hpoints, hpoints.resolves⟩

/-- What rotate, grant-actor and revoke-actor do when there is something to store. -/
lemma ensures_replacement {cmd : SecretCommand} {name : String} {obj : Object} {b : Bytes}
    (hinv : s.Inv L objs) (hcmd : cmd.replacement L A s.ctx = some (name, .ok obj))
    (hb : L.codec.serialize obj = .ok b) (hregistered : s.ctx.secrets.contains name = true) :
    Ensures (cmd.run L A mtime) s.ctx
      (fun _ t => t.envs = s.ctx.envs ∧ s.ctx.repo.objects.Grows L t.repo.objects ∧
        t.secrets[name]? = some (L.fromContent b).toHex)
      fun _ t => ¬ ∀ o ∈ t.stored, o ∈ objs := by
  have hregister : ∀ context, Ensures (registerSecret L mtime name context (.ok obj)) s.ctx
      (fun _ t => t.envs = s.ctx.envs ∧ s.ctx.repo.objects.Grows L t.repo.objects ∧
        t.secrets[name]? = some (L.fromContent b).toHex)
      fun _ t => ¬ ∀ o ∈ t.stored, o ∈ objs := by
    intro context
    have hput := SecretsContext.Wrote.putting L objs mtime s.ctx obj
    simp only [registerSecret, ensures_bind, ensures_lift, ensures_adaptExcept,
      SecretsContext.ensures_putObject, ensures_modify]
    refine ⟨fun o ho => ?_, fun e he => by cases he⟩
    obtain rfl := Except.ok.inj ho
    refine ⟨fun id hid => ⟨rfl, hput.grows, ?_⟩, fun e he hobjs => ?_⟩
    · obtain ⟨b', hb', rfl⟩ := ObjectStore.put_eq_ok hid
      rw [hb] at hb'
      obtain rfl := Except.ok.inj hb'
      simp
    · obtain ⟨b', -, hok, -⟩ := hinv.sound.put (hobjs _ SecretsContext.mem_putting) mtime
      rw [hok] at he
      cases he
  cases cmd with
  | rotate name' plaintext key draws =>
      obtain ⟨rfl, hobj⟩ := Prod.mk.inj (Option.some.inj hcmd)
      simp only [SecretCommand.run, storeSecret, ensures_bind, ensures_get, hregistered, hobj]
      exact hregister _
  | grantActor name' key recipientKey draws =>
      obtain ⟨rfl, hobj⟩ := Prod.mk.inj (Option.some.inj hcmd)
      simp only [SecretCommand.run, Bole.grantActor, ensures_bind, ensures_get, hobj]
      exact hregister _
  | revokeActor name' recipientKey =>
      obtain ⟨rfl, hobj⟩ := Prod.mk.inj (Option.some.inj hcmd)
      simp only [SecretCommand.run, Bole.revokeActor, ensures_bind, ensures_get, hobj]
      exact hregister _
  | _ => cases hcmd

/-- **A replacement breaks every entry of its name**: where a command sets a name to another
object, the entries that are set for it keep the old one. -/
theorem replacement_breaks {t : OverlayState} {cmd : SecretCommand} {env var name : String}
    {obj : Object} {b : Bytes} (hinv : s.Inv L objs) (hstep : Step L A s cmd t)
    (hobjs : ∀ o ∈ t.ctx.stored, o ∈ objs)
    (hcmd : cmd.replacement L A s.ctx = some (name, .ok obj))
    (hb : L.codec.serialize obj = .ok b)
    (hother : s.ctx.secrets[name]? ≠ some (L.fromContent b).toHex)
    (hset : s.setFor (env, var) = some name) :
    t.setFor (env, var) = some name ∧ ¬ t.ctx.Points L env var name := by
  have hrun : ∀ mtime, Ensures (cmd.run L A mtime) s.ctx
      (fun _ t => t.envs = s.ctx.envs ∧ s.ctx.repo.objects.Grows L t.repo.objects ∧
        t.secrets[name]? = some (L.fromContent b).toHex)
      fun _ t => ¬ ∀ o ∈ t.stored, o ∈ objs :=
    fun mtime => ensures_replacement hinv hcmd hb (hinv.registered hset)
  cases hstep with
  | error mtime hfail => exact absurd hobjs ((hrun mtime).of_error hfail)
  | ok mtime hok =>
      obtain ⟨henvs, hgrows, hname⟩ := (hrun mtime).of_ok hok
      refine ⟨?_, ?_⟩
      · cases cmd with
        | rotate => exact hset
        | grantActor => exact hset
        | revokeActor => exact hset
        | _ => cases hcmd
      · rintro ⟨overlayId', overlay', id', henv', hoverlay', hentry', hname'⟩
        obtain ⟨overlayId, overlay, id, henv, hoverlay, hentry, hold⟩ :=
          hinv.follows env var name hset
        -- the overlay and its entry are the old ones
        rw [henvs, henv] at henv'
        obtain rfl := ObjectId.toHex_injective (Option.some.inj henv')
        rw [hgrows _ _ hoverlay] at hoverlay'
        obtain rfl : overlay = overlay' := by simpa using hoverlay'
        rw [hentry] at hentry'
        obtain rfl : id = id' := by simpa using hentry'
        exact hother (hold.trans (hname'.symm.trans hname))

end OverlayState

/-! ### A rotated secret and a rotated key -/

def dbKey : KeyFlags := ⟨.ok (.replicate 1), false⟩

def dbNewKey : KeyFlags := ⟨.ok (.replicate 2), false⟩

def dbDraws (b : UInt8) : MultiRecipientSecret.Draws :=
  ⟨.replicate b, ⟨.replicate 12 b, by simp⟩, fun _ => ⟨.replicate 12 b, by simp⟩⟩

/-- A secret, and an overlay with an entry for it. -/
def dbSetUp : List SecretCommand :=
  [.put "db" (.ok (ascii "v1")) dbKey (dbDraws 3), .envCreate "dev", .envSetSecret "dev" "URL" "db"]

def dbRotate : SecretCommand := .rotate "db" (.ok (ascii "v2")) dbKey (dbDraws 4)

def dbRekey : SecretCommand := .rekey true [] dbKey dbNewKey fun _ => dbDraws 5

/-- The secrets of the runs below. -/
def dbSecrets : List SecretV2 :=
  let provider : Digest → KeyProvider Digest := fun mk => localProvider tagAead .reference mk "env"
  let sealedAs := fun value draws =>
    (SecretV2.encryptEnvelope tagAead draws (ascii value) (provider (.replicate 1))
      (.v2 none)).toOption.toList
  sealedAs "v1" (dbDraws 3) ++ sealedAs "v2" (dbDraws 4) ++
    (sealedAs "v1" (dbDraws 3)).flatMap fun s =>
      (s.rewrap ⟨[provider (.replicate 1)], []⟩ (provider (.replicate 2))
        ((dbDraws 5).wraps 0)).toOption.toList

/-- The overlays. -/
def dbEntries : List (BTreeMap String EnvValue) :=
  ∅ :: dbSecrets.map fun s => (∅ : BTreeMap String EnvValue).insert "URL"
    (.secret (Object.secretV2 s).refId)

def dbObjects : List Object :=
  dbSecrets.map Object.secretV2 ++ dbEntries.map fun e => .envOverlay ⟨e⟩

/-- A new repository. -/
def dbStart : OverlayState := ⟨⟨.memory, ∅, ∅, []⟩, fun _ => none⟩

/-- The state after commands that return. -/
def runAll (L : Linked) (A : Aead) : List SecretCommand → OverlayState → Option OverlayState
  | [], s => some s
  | cmd :: rest, s =>
      match (cmd.run L A none).run s.ctx with
      | .ok () ctx => runAll L A rest ⟨ctx, cmd.setForAfter s.setFor⟩
      | .error _ _ => none

lemma run_of_runAll {L : Linked} {A : Aead} {cmds : List SecretCommand} {s t : OverlayState}
    (h : runAll L A cmds s = some t) :
    ∃ steps, Run (OverlayState.Step L A) s steps t ∧ steps.map Prod.snd = cmds := by
  induction cmds generalizing s with
  | nil =>
      cases h
      exact ⟨[], .nil _, rfl⟩
  | cons cmd rest ih =>
      rw [runAll] at h
      split at h
      · next ctx hok =>
          obtain ⟨steps, hrun, hsteps⟩ := ih h
          exact ⟨_, .cons (.ok none hok) hrun, congrArg (List.cons cmd) hsteps⟩
      · cases h

lemma dbStart_sound : dbStart.ctx.Sound (.over dbObjects) {o | o ∈ dbObjects} where
  faithful := ObjectStore.faithful_over (by decide +kernel) (by decide +kernel) fun o _ h => by
    simp [dbStart, Repository.memory, ObjectStore.exists_, StorageBackend.exists_] at h
  writes o _ := ⟨_, rfl⟩
  answers id := ⟨_, rfl⟩
  overlays env str h := by simp [dbStart] at h

/-- Whether an object is one of them. -/
def isDbObject : Object → Bool
  | .secretV2 s => dbSecrets.contains s
  | .envOverlay o => dbEntries.contains o.entries
  | _ => false

lemma mem_dbObjects {o : Object} (h : isDbObject o = true) : o ∈ dbObjects := by
  cases o with
  | secretV2 s =>
      rw [isDbObject, List.contains_iff_mem] at h
      exact List.mem_append_left _ (List.mem_map_of_mem h)
  | envOverlay o =>
      rw [isDbObject, List.contains_iff_mem] at h
      exact List.mem_append_right _ (List.mem_map.mpr ⟨o.entries, h, rfl⟩)
  | _ => cases h

/-- What is told of the end of a run: whether it stores such objects, what the entry is set for,
what it resolves to under a key, and what the secret is under it. -/
def dbView (key : KeyFlags) (t : OverlayState) :
    Bool × Option String × Option String × Option Bytes :=
  (t.ctx.stored.all isDbObject, t.setFor ("dev", "URL"),
    (t.ctx.envResolve (.over dbObjects) tagAead "dev" key (.ok .new) false).toOption.bind
      (·["URL"]?),
    (t.ctx.reveal (.over dbObjects) tagAead "db" key).toOption)

/-- **A rotation leaves the overlay behind**: it resolves to the old value. -/
theorem rotate_leaves_overlay :
    ∃ steps t, Run (OverlayState.Step (.over dbObjects) tagAead) dbStart steps t ∧
      steps.map Prod.snd = dbSetUp ++ [dbRotate] ∧
      dbStart.ctx.Sound (.over dbObjects) {o | o ∈ dbObjects} ∧
      (∀ o ∈ t.ctx.stored, o ∈ dbObjects) ∧ t.setFor ("dev", "URL") = some "db" ∧
      ¬ t.ctx.Points (.over dbObjects) "dev" "URL" "db" ∧
      ¬ t.ctx.Resolves (.over dbObjects) tagAead "dev" "URL" "db" := by
  have hview : (runAll (.over dbObjects) tagAead (dbSetUp ++ [dbRotate]) dbStart).map
      (dbView dbKey) = some (true, some "db", some "v1", some (ascii "v2")) := by decide +kernel
  obtain ⟨t, ht, hview⟩ := Option.map_eq_some_iff.mp hview
  simp only [dbView, Prod.mk.injEq, List.all_eq_true] at hview
  obtain ⟨hstored, hset, hresolved, hrevealed⟩ := hview
  obtain ⟨steps, hrun, hsteps⟩ := run_of_runAll ht
  have hnot : ¬ t.ctx.Resolves (.over dbObjects) tagAead "dev" "URL" "db" := by
    intro hresolves
    cases hm : t.ctx.envResolve (.over dbObjects) tagAead "dev" dbKey (.ok .new) false with
    | error e => simp [hm, Except.toOption] at hresolved
    | ok m =>
        have hread : m["URL"]? = some "v1" := by simpa [hm, Except.toOption] using hresolved
        obtain ⟨lattice, rules, -, -, h⟩ := hresolves dbKey .new false m hm
        split_ifs at h
        · obtain ⟨bytes, text, hbytes, htext, htext'⟩ := h
          obtain rfl : bytes = ascii "v2" := by simpa [hbytes, Except.toOption] using hrevealed
          have hv2 : String.fromUTF8? (ascii "v2").toByteArray = some "v2" := by decide +kernel
          rw [hv2, Option.some.injEq] at htext
          subst htext
          simp [hread] at htext'
        · simp [hread] at h
  exact ⟨steps, t, hrun, hsteps, dbStart_sound, fun o ho => mem_dbObjects (hstored o ho), hset,
    fun hpoints => hnot hpoints.resolves, hnot⟩

/-- What replaces nothing and rotates no key is harmless. -/
lemma harmless_of_replacement {L : Linked} {A : Aead} {s : OverlayState} {cmd : SecretCommand}
    (hnone : cmd.replacement L A s.ctx = none)
    (hrekey : ∀ all names oldKey newKey draws, cmd ≠ .rekey all names oldKey newKey draws) :
    s.Harmless L A cmd := by
  refine ⟨fun name obj h => ?_, fun all names oldKey newKey draws h =>
    absurd h (hrekey all names oldKey newKey draws)⟩
  rw [hnone] at h
  cases h

/-- A rotation of the key of all secrets is harmless as well. -/
lemma harmless_rekeyAll {L : Linked} {A : Aead} {s : OverlayState} {names : List String}
    {oldKey newKey : KeyFlags} {draws : ℕ → MultiRecipientSecret.Draws} :
    s.Harmless L A (.rekey true names oldKey newKey draws) := by
  refine ⟨fun _ _ h => by simp [SecretCommand.replacement] at h,
    fun all names' _ _ _ h env var name _ hnot m hm heq => ?_⟩
  cases h
  rw [SecretsContext.rekeyTargets, if_pos rfl, Std.ExtTreeMap.mem_keys] at hnot hm
  rw [Std.ExtTreeMap.mem_iff_isSome_getElem?] at hnot hm
  exact hnot (heq ▸ hm)

/-- A rotation of the key takes the overlay with it. -/
theorem overlays_follow_rekey :
    ∃ steps t, Run (OverlayState.Step (.over dbObjects) tagAead) dbStart steps t ∧
      steps.map Prod.snd = dbSetUp ++ [dbRekey] ∧
      t.ctx.Points (.over dbObjects) "dev" "URL" "db" ∧
      t.ctx.Resolves (.over dbObjects) tagAead "dev" "URL" "db" := by
  have hview : (runAll (.over dbObjects) tagAead (dbSetUp ++ [dbRekey]) dbStart).map
      (dbView dbNewKey) = some (true, some "db", some "v1", some (ascii "v1")) := by decide +kernel
  obtain ⟨t, ht, hview⟩ := Option.map_eq_some_iff.mp hview
  simp only [dbView, Prod.mk.injEq, List.all_eq_true] at hview
  obtain ⟨hstored, hset, -, -⟩ := hview
  obtain ⟨steps, hrun, hsteps⟩ := run_of_runAll ht
  have hharmless : ∀ p ∈ steps, p.1.Harmless (.over dbObjects) tagAead p.2 := by
    intro p hp
    have hcmd : p.2 ∈ dbSetUp ++ [dbRekey] := hsteps ▸ List.mem_map_of_mem hp
    simp only [dbSetUp, List.cons_append, List.nil_append, List.mem_cons, List.not_mem_nil,
      or_false] at hcmd
    rcases hcmd with h | h | h | h
    all_goals rw [h]
    · exact harmless_of_replacement rfl (by simp)
    · exact harmless_of_replacement rfl (by simp)
    · exact harmless_of_replacement rfl (by simp)
    · exact harmless_rekeyAll
  exact ⟨steps, t, hrun, hsteps, OverlayState.overlays_follow (fun _ => rfl) dbStart_sound hrun
    (fun o ho => mem_dbObjects (hstored o ho)) hharmless hset⟩

end Bole
