import Bole.Cli.Overlays
import Bole.Repo.Access

/-!
What an overlay gives an actor: `resolve_overlay` and `compute_workspace_view` of
`src/repo/mod.rs`.

* `gather_error_iff`, `getElem?_gather`: a loop over the entries fails with the error of the first
  turn that does, and else has for each variable what its turn makes;
* `resolveOverlay_noninterference`: what it returns does not depend on the secrets the actor is
  not cleared for, and without `skip_unauthorized` it fails where there is one;
* `view_gated_iff`: a workspace view keeps to that gate iff the actor is cleared for every secret
  variable of the overlay.
-/

namespace Bole

/-! ### Loops over the entries -/

section Gather

variable {value value' : String × EnvValue → Result (Option String)}
  {entries : List (String × EnvValue)} {out m : BTreeMap String String}

/-- A loop over the entries of an overlay, for what one turn makes of an entry: the value of the
variable, if it has one. -/
def gather (value : String × EnvValue → Result (Option String)) :
    List (String × EnvValue) → BTreeMap String String → Result (BTreeMap String String)
  | [], out => .ok out
  | e :: rest, out =>
      match value e with
      | .error err => .error err
      | .ok none => gather value rest out
      | .ok (some s) => gather value rest (out.insert e.1 s)

/-- Why a turn fails. -/
def failure (value : String × EnvValue → Result (Option String)) (e : String × EnvValue) :
    Option Error :=
  match value e with
  | .error err => some err
  | .ok _ => none

/-- **Turns that are alike give one result.** -/
lemma gather_congr (h : ∀ e ∈ entries, value' e = value e) (out : BTreeMap String String) :
    gather value' entries out = gather value entries out := by
  induction entries generalizing out with
  | nil => rfl
  | cons e rest ih =>
      have hrest := fun out => ih (fun x hx => h x (List.mem_cons_of_mem _ hx)) out
      rw [gather, gather, h e List.mem_cons_self]
      split
      · rfl
      · exact hrest _
      · exact hrest _

/-- **The loop fails with the error of the first turn that does.** -/
lemma gather_error_iff {err : Error} :
    gather value entries out = .error err ↔ entries.findSome? (failure value) = some err := by
  induction entries generalizing out with
  | nil => simp [gather]
  | cons e rest ih =>
      rw [gather, List.findSome?_cons, failure]
      cases value e with
      | error err' => simp
      | ok v =>
          cases v with
          | none => exact ih
          | some s => exact ih

lemma getElem?_insert_of_ne {x var s : String} (h : compare x var ≠ .eq) :
    (out.insert x s)[var]? = out[var]? := by
  rw [Std.ExtTreeMap.getElem?_insert, if_neg h]

/-- The loop leaves what is not among the entries. -/
lemma getElem?_gather_of_notMem {var : String} (hnot : ∀ e ∈ entries, compare e.1 var ≠ .eq)
    (h : gather value entries out = .ok m) : m[var]? = out[var]? := by
  induction entries generalizing out with
  | nil =>
      obtain rfl : out = m := Except.ok.inj h
      rfl
  | cons e rest ih =>
      obtain ⟨hhead, hrest⟩ := List.forall_mem_cons.mp hnot
      rw [gather] at h
      split at h
      · cases h
      · exact ih hrest h
      · exact (ih hrest h).trans (getElem?_insert_of_ne hhead)

/-- **What the loop has for a variable** is what the turn of its entry makes. -/
lemma getElem?_gather (hdistinct : entries.Pairwise fun a b => ¬ compare a.1 b.1 = .eq)
    {e : String × EnvValue} (he : e ∈ entries) (hout : out[e.1]? = none)
    (h : gather value entries out = .ok m) : value e = .ok m[e.1]? := by
  induction entries generalizing out with
  | nil => cases he
  | cons x rest ih =>
      obtain ⟨hhead, hrest⟩ := List.pairwise_cons.mp hdistinct
      rw [gather] at h
      rcases List.mem_cons.mp he with rfl | hlater
      · have hnot : ∀ y ∈ rest, compare y.1 e.1 ≠ .eq := fun y hy heq =>
          hhead y hy (Std.OrientedCmp.eq_symm heq)
        split at h
        · cases h
        · next hv => rw [hv, getElem?_gather_of_notMem hnot h, hout]
        · next s hv =>
            rw [hv, getElem?_gather_of_notMem hnot h, Std.ExtTreeMap.getElem?_insert_self]
      · split at h
        · cases h
        · exact ih hrest hlater hout h
        · exact ih hrest hlater ((getElem?_insert_of_ne (hhead e hlater)).trans hout) h

end Gather

/-! ### One entry -/

namespace Repository

section Entries

variable (L : Linked) (A : Aead) (r : Repository) (lattice : LabelLattice) (rules : LabelRuleSet)
  (chain : ProviderChain Digest) (accessor : Accessor) (skipUnauthorized : Bool)

/-- The value of a secret variable the actor is cleared for. -/
def resolveSecret (var : String) (id : ObjectId) : Result String := do
  match ← r.objects.getSecretResolved L A id chain with
  | none => .error (.storage ("secret not found: " ++ id.toHex))
  | some bytes =>
      match String.fromUTF8? bytes.toByteArray with
      | none => .error (.codec ("secret for env var '" ++ var ++ "' is not valid UTF-8"))
      | some s => .ok s

/-- What `resolve_overlay` reports for a secret variable the actor is not cleared for. -/
def notCleared (var : String) : Error :=
  .accessDenied ("not cleared to resolve secret for env var '" ++ var ++ "'")

/-- One turn of the loop of `resolve_overlay`: the value of the variable, if it has one. -/
def resolveEntry (e : String × EnvValue) : Result (Option String) :=
  match e.2 with
  | .plain s => .ok (some s)
  | .secret id =>
      if cleared lattice rules accessor e.1 then (resolveSecret L A r chain e.1 id).map some
      else if skipUnauthorized then .ok none
      else .error (notCleared e.1)

/-- A secret variable the actor is not cleared for. -/
def refused (e : String × EnvValue) : Bool :=
  match e.2 with
  | .plain _ => false
  | .secret _ => !cleared lattice rules accessor e.1

end Entries

variable {L : Linked} {A : Aead} {r r' : Repository} {lattice : LabelLattice}
  {rules : LabelRuleSet} {chain : ProviderChain Digest} {accessor : Accessor} {skip : Bool}

/-- The loop of `resolve_overlay` takes one turn after another. -/
lemma resolveEntries_eq (entries : List (String × EnvValue)) (out : BTreeMap String String) :
    r.resolveEntries L A lattice rules chain accessor skip entries out =
      gather (r.resolveEntry L A lattice rules chain accessor skip) entries out := by
  induction entries generalizing out with
  | nil => rfl
  | cons e rest ih =>
      obtain ⟨var, value⟩ := e
      rw [gather, resolveEntry]
      cases value with
      | plain s =>
          rw [resolveEntries]
          exact ih _
      | secret id =>
          rw [resolveEntries]
          dsimp only
          split_ifs with hcleared hskip
          · rw [resolveSecret]
            cases r.objects.getSecretResolved L A id chain with
            | error err => rfl
            | ok found =>
                cases found with
                | none => rfl
                | some bytes =>
                    simp only [bind, Except.bind]
                    cases String.fromUTF8? bytes.toByteArray with
                    | none => rfl
                    | some s => exact ih _
          · exact ih _
          · rfl

/-- A refused entry is reported, unless it is skipped. -/
lemma failure_of_refused {e : String × EnvValue} (h : refused lattice rules accessor e = true) :
    failure (r.resolveEntry L A lattice rules chain accessor false) e =
      some (notCleared e.1) := by
  obtain ⟨var, value⟩ := e
  cases value with
  | plain s => cases h
  | secret id =>
      have hcleared : cleared lattice rules accessor var = false := by
        simpa [refused] using h
      simp [failure, resolveEntry, hcleared]

/-- The first failure of a list with a refused entry is before it or its own. -/
lemma findSome?_failure {entries : List (String × EnvValue)} {e : String × EnvValue}
    (h : entries.find? (refused lattice rules accessor) = some e) :
    entries.findSome? (failure (r.resolveEntry L A lattice rules chain accessor false)) =
      some (((entries.takeWhile fun x => !refused lattice rules accessor x).findSome?
        (failure (r.resolveEntry L A lattice rules chain accessor false))).getD
          (notCleared e.1)) := by
  induction entries with
  | nil => cases h
  | cons x rest ih =>
      rw [List.find?_cons] at h
      cases hx : refused lattice rules accessor x with
      | true =>
          rw [hx] at h
          obtain rfl : x = e := Option.some.inj h
          rw [List.findSome?_cons, failure_of_refused hx, List.takeWhile_cons_of_neg (by simp [hx])]
          rfl
      | false =>
          rw [hx] at h
          rw [List.takeWhile_cons_of_pos (by simp [hx]), List.findSome?_cons, List.findSome?_cons]
          cases failure (r.resolveEntry L A lattice rules chain accessor false) x with
          | some err => rfl
          | none => exact ih h

/-! ### What the result depends on -/

/-- Two ways to go on from a result are one if they are from its value. -/
lemma bind_congr_ok {α β : Type} {x : Result α} {f g : α → Result β}
    (h : ∀ a, x = .ok a → f a = g a) : (x >>= f) = (x >>= g) := by
  cases x with
  | error e => rfl
  | ok a => exact h a rfl

/-- Two repositories that differ in nothing but the secrets that the actor is not cleared for: they
have the same rules, and agree on the overlay and on the secret of every variable of it that the
actor is cleared for. -/
structure AgreeCleared (L : Linked) (r r' : Repository) (overlayId : ObjectId)
    (accessor : Accessor) : Prop where
  acls : r'.acls = r.acls
  overlay : r'.objects.get L overlayId = r.objects.get L overlayId
  secrets : ∀ overlay lattice rules, r.objects.getOverlay L overlayId = .ok (some overlay) →
    r.acls.getLattice = .ok lattice → r.acls.getLabelRuleset = .ok rules →
      ∀ (var : String) id, overlay.entries[var]? = some (.secret id) →
        cleared lattice rules accessor var = true → r'.objects.get L id = r.objects.get L id

/-- An entry depends on its secret only if the actor is cleared for it. -/
lemma resolveEntry_congr {e : String × EnvValue} (h : ∀ id, e.2 = .secret id →
    cleared lattice rules accessor e.1 = true → r'.objects.get L id = r.objects.get L id) :
    r'.resolveEntry L A lattice rules chain accessor skip e =
      r.resolveEntry L A lattice rules chain accessor skip e := by
  rw [resolveEntry, resolveEntry]
  cases hvalue : e.2 with
  | plain s => rfl
  | secret id =>
      dsimp only
      split_ifs with hcleared
      · rw [resolveSecret, resolveSecret, ObjectStore.getSecretResolved,
          ObjectStore.getSecretResolved, h id hvalue hcleared]
      · rfl
      · rfl

/-- **`resolve_overlay` does not depend on what the actor is not cleared for, and fails where there
is such a secret.**  Its result is the same in repositories that differ in such secrets only.
Without `skip_unauthorized` the first refused variable is reported, unless a secret before it does
not resolve: then the first one that does not is. -/
theorem resolveOverlay_noninterference (L : Linked) (A : Aead) (overlayId : ObjectId)
    (chain : ProviderChain Digest) (accessor : Accessor) :
    (∀ r r' skip, AgreeCleared L r r' overlayId accessor →
        r'.resolveOverlay L A overlayId chain accessor skip =
          r.resolveOverlay L A overlayId chain accessor skip) ∧
      ∀ (r : Repository) overlay lattice rules e,
        r.objects.getOverlay L overlayId = .ok (some overlay) →
        r.acls.getLattice = .ok lattice → r.acls.getLabelRuleset = .ok rules →
        overlay.entries.toList.find? (refused lattice rules accessor) = some e →
          r.resolveOverlay L A overlayId chain accessor false = .error
            (((overlay.entries.toList.takeWhile fun x =>
                !refused lattice rules accessor x).findSome?
              (failure (r.resolveEntry L A lattice rules chain accessor false))).getD
                (notCleared e.1)) := by
  constructor
  · intro r r' skip h
    have hoverlay : r'.objects.getOverlay L overlayId = r.objects.getOverlay L overlayId := by
      rw [ObjectStore.getOverlay, ObjectStore.getOverlay, h.overlay]
    rw [resolveOverlay, resolveOverlay, hoverlay, h.acls]
    refine bind_congr_ok fun found hfound => ?_
    cases found with
    | none => rfl
    | some overlay =>
        refine bind_congr_ok fun lattice hlat => bind_congr_ok fun rules hrules => ?_
        rw [resolveEntries_eq, resolveEntries_eq]
        refine gather_congr (fun e he => resolveEntry_congr fun id hid hcleared => ?_) _
        have hentry := Std.ExtTreeMap.mem_toList_iff_getElem?_eq_some.mp he
        rw [hid] at hentry
        exact h.secrets overlay lattice rules hfound hlat hrules e.1 id hentry hcleared
  · intro r overlay lattice rules e hoverlay hlat hrules hfirst
    rw [resolveOverlay, hoverlay, hlat, hrules]
    exact (resolveEntries_eq _ _).trans (gather_error_iff.mpr (findSome?_failure hfirst))

/-! ### Workspace views -/

end Repository

/-- `get_secret`. -/
def ObjectStore.getSecret (L : Linked) (A : Aead) (s : ObjectStore) (id : ObjectId)
    (key : Digest) : Result (Option Bytes) := do
  match ← s.get L id with
  | none => .ok none
  | some (.secret secret) => do
      let plaintext ← secret.decrypt A key
      .ok (some plaintext)
  | some _ => .error (.codec "not a secret")

/-- `WorkspaceView`. -/
structure WorkspaceView where
  files : BTreeMap String ObjectId
  env : BTreeMap String String

namespace Repository

/-- One turn of the loop of `compute_workspace_view`. -/
def viewEntry (L : Linked) (A : Aead) (r : Repository) (key : Digest) (e : String × EnvValue) :
    Result (Option String) :=
  match e.2 with
  | .plain s => .ok (some s)
  | .secret id => do
      match ← r.objects.getSecret L A id key with
      | none => .error (.storage ("secret not found: " ++ id.toHex))
      | some bytes =>
          match String.fromUTF8? bytes.toByteArray with
          | none => .error .secretNotUtf8
          | some s => .ok (some s)

/-- `compute_workspace_view`. -/
def computeWorkspaceView (L : Linked) (A : Aead) (r : Repository)
    (snapshotId overlayId : ObjectId) (key : Digest) (accessor : Accessor) :
    Result (Option WorkspaceView) := do
  match ← r.getSnapshotFiltered L snapshotId accessor with
  | none => .ok none
  | some filtered => do
      match ← r.objects.getOverlay L overlayId with
      | none => .error (.storage ("overlay not found: " ++ overlayId.toHex))
      | some overlay => do
          let env ← gather (viewEntry L A r key) overlay.entries.toList ∅
          .ok (some ⟨filtered.visiblePaths, env⟩)

/-- A view keeps to the gate of `resolve_overlay`: it resolves the secret variables of the view to
the same values, and the actor is cleared for each of them. -/
structure ViewGated (L : Linked) (A : Aead) (r : Repository) (overlayId : ObjectId)
    (chain : ProviderChain Digest) (accessor : Accessor) (overlay : EnvOverlay)
    (lattice : LabelLattice) (rules : LabelRuleSet) (view : WorkspaceView) : Prop where
  resolves : ∀ (var : String) id text, overlay.entries[var]? = some (.secret id) →
    view.env[var]? = some text →
      ∃ m, r.resolveOverlay L A overlayId chain accessor true = .ok m ∧ m[var]? = some text
  cleared : ∀ (var : String) id, overlay.entries[var]? = some (.secret id) → var ∈ view.env →
    cleared lattice rules accessor var = true

variable {L : Linked} {A : Aead} {r : Repository} {lattice : LabelLattice} {rules : LabelRuleSet}
  {chain : ProviderChain Digest} {accessor : Accessor} {snapshotId overlayId : ObjectId}
  {key : Digest} {overlay : EnvOverlay} {view : WorkspaceView}

/-- A chain with nothing but the key opens what the key opens. -/
lemma getSecretResolved_of_legacy (hchain : chain.legacyKeys = [key]) {id : ObjectId}
    {bytes : Bytes} (h : r.objects.getSecret L A id key = .ok (some bytes)) :
    r.objects.getSecretResolved L A id chain = .ok (some bytes) := by
  rw [ObjectStore.getSecret, Result.bind_eq_ok] at h
  obtain ⟨found, hfound, h⟩ := h
  rw [ObjectStore.getSecretResolved, hfound]
  cases found with
  | none => cases h
  | some obj =>
      cases obj with
      | secret secret =>
          obtain ⟨plaintext, hplain, h⟩ := Result.bind_eq_ok.mp h
          cases h
          simp [bind, Except.bind, hchain, hplain, Except.toOption]
      | _ => cases h

/-- **What a view has for a secret variable** is the value of its secret under the key. -/
lemma view_secret
    (h : r.computeWorkspaceView L A snapshotId overlayId key accessor = .ok (some view))
    (hoverlay : r.objects.getOverlay L overlayId = .ok (some overlay)) {var : String}
    {id : ObjectId} (hentry : overlay.entries[var]? = some (.secret id)) :
    ∃ bytes text, r.objects.getSecret L A id key = .ok (some bytes) ∧
      String.fromUTF8? bytes.toByteArray = some text ∧ view.env[var]? = some text := by
  obtain ⟨filtered, -, h⟩ := Result.bind_eq_ok.mp h
  cases filtered with
  | none => cases h
  | some filtered =>
      obtain ⟨found, hfound, h⟩ := Result.bind_eq_ok.mp h
      rw [hoverlay] at hfound
      obtain rfl := Except.ok.inj hfound
      obtain ⟨env, henv, h⟩ := Result.bind_eq_ok.mp h
      cases h
      have hturn := getElem?_gather Std.ExtTreeMap.distinct_keys_toList
        (Std.ExtTreeMap.mem_toList_iff_getElem?_eq_some.mpr hentry) (by simp) henv
      rw [viewEntry, Result.bind_eq_ok] at hturn
      obtain ⟨bytes, hbytes, hturn⟩ := hturn
      cases bytes with
      | none => cases hturn
      | some bytes =>
          dsimp only at hturn
          cases htext : String.fromUTF8? bytes.toByteArray with
          | none => simp [htext] at hturn
          | some text =>
              rw [htext] at hturn
              exact ⟨bytes, text, hbytes, htext, (Except.ok.inj hturn).symm⟩

/-- **A workspace view keeps to the gate of `resolve_overlay` iff the actor is cleared for every
secret variable of the overlay.**  For a chain that opens what the key opens. -/
theorem view_gated_iff
    (hview : r.computeWorkspaceView L A snapshotId overlayId key accessor = .ok (some view))
    (hoverlay : r.objects.getOverlay L overlayId = .ok (some overlay))
    (hlat : r.acls.getLattice = .ok lattice) (hrules : r.acls.getLabelRuleset = .ok rules)
    (hchain : ∀ (var : String) id bytes, overlay.entries[var]? = some (.secret id) →
      r.objects.getSecret L A id key = .ok (some bytes) →
        r.objects.getSecretResolved L A id chain = .ok (some bytes)) :
    ViewGated L A r overlayId chain accessor overlay lattice rules view ↔
      ∀ (var : String) id, overlay.entries[var]? = some (.secret id) →
        cleared lattice rules accessor var = true := by
  constructor
  · intro h var id hentry
    obtain ⟨-, text, -, -, henv⟩ := view_secret hview hoverlay hentry
    refine h.cleared var id hentry (Std.ExtTreeMap.mem_iff_isSome_getElem?.mpr ?_)
    rw [henv]
    rfl
  · intro h
    -- each turn of `resolve_overlay` is that of the view
    have hturns : ∀ e ∈ overlay.entries.toList,
        r.resolveEntry L A lattice rules chain accessor true e = .ok view.env[e.1]? ∨
          ∃ s, e.2 = .plain s := by
      rintro ⟨var, value⟩ he
      have hentry := Std.ExtTreeMap.mem_toList_iff_getElem?_eq_some.mp he
      cases value with
      | plain s => exact .inr ⟨s, rfl⟩
      | secret id =>
          obtain ⟨bytes, text, hbytes, htext, henv⟩ := view_secret hview hoverlay hentry
          refine .inl ?_
          simp only [resolveEntry, h var id hentry, if_true, resolveSecret,
            hchain var id bytes hentry hbytes, htext, henv, bind, Except.bind, Except.map]
    have hok : ∃ m, r.resolveOverlay L A overlayId chain accessor true = .ok m ∧
        gather (r.resolveEntry L A lattice rules chain accessor true) overlay.entries.toList ∅ =
          .ok m := by
      have hloop : r.resolveOverlay L A overlayId chain accessor true =
          gather (r.resolveEntry L A lattice rules chain accessor true) overlay.entries.toList
            ∅ := by
        rw [resolveOverlay, hoverlay, hlat, hrules]
        exact resolveEntries_eq _ _
      rw [hloop]
      cases hg : gather (r.resolveEntry L A lattice rules chain accessor true)
          overlay.entries.toList ∅ with
      | ok m => exact ⟨m, rfl, rfl⟩
      | error err =>
          obtain ⟨e, he, hfail⟩ := List.exists_of_findSome?_eq_some (gather_error_iff.mp hg)
          rcases hturns e he with hturn | ⟨s, hs⟩
          · simp [failure, hturn] at hfail
          · simp [failure, resolveEntry, hs] at hfail
    obtain ⟨m, hm, hg⟩ := hok
    refine ⟨fun var id text hentry henv => ⟨m, hm, ?_⟩, fun var id hentry _ => h var id hentry⟩
    have hmem := Std.ExtTreeMap.mem_toList_iff_getElem?_eq_some.mpr hentry
    have hvalue := getElem?_gather Std.ExtTreeMap.distinct_keys_toList hmem (by simp) hg
    rcases hturns _ hmem with hturn | ⟨s, hs⟩
    · rw [hvalue] at hturn
      exact (Except.ok.inj hturn).trans henv
    · cases hs

/-! ### A token that is protected -/

/-- An empty tree, a snapshot of it, a secret under a raw key, an overlay with the secret, and
one that has another one before it, which is missing. -/
def tokenObjects : List Object :=
  let tree : Object := .tree ⟨∅⟩
  let secret : Object := .secret ⟨⟨List.replicate 12 9, by simp⟩,
    ascii "value" ++ (Digest.replicate 1).bytes.take 16⟩
  let token : BTreeMap String EnvValue := (∅ : BTreeMap String EnvValue).insert "TOKEN"
    (.secret secret.refId)
  [tree, .snapshot ⟨tree.refId, [], "", 0, ""⟩, secret, .envOverlay ⟨token⟩,
    .envOverlay ⟨token.insert "ABSENT" (.secret ⟨.replicate 9⟩)⟩]

def tokenLinked : Linked := .over tokenObjects

def tokenId (i : ℕ) : ObjectId := (tokenObjects.getD i (.blob [])).refId

/-- A repository in which the given secrets are protected. -/
def tokenRepo (secretAcls : List String) : Repository :=
  { Repository.memory with
    objects := .holding tokenLinked tokenObjects
    acls := .shipped [] [] secretAcls }

/-- The chain of the key alone. -/
def tokenChain : ProviderChain Digest := ⟨[], [.replicate 1]⟩

lemma tokenRepo_rules (secretAcls : List String) :
    (tokenRepo secretAcls).acls.getLattice = .ok .twoPoint ∧
      (tokenRepo secretAcls).acls.getLabelRuleset = .ok (derivedRules [] [] secretAcls) := by
  rw [tokenRepo]
  exact ⟨rfl, rfl⟩

/-- What is evaluated of the token: the overlay, the view with and without its protection, and who
is cleared for it. -/
lemma token_evaluated :
    ((ObjectStore.holding tokenLinked tokenObjects).getOverlay tokenLinked (tokenId 3)).map
        (Option.map fun o => o.entries.toList) = .ok (some [("TOKEN", .secret (tokenId 2))]) ∧
      (∀ secretAcls ∈ [[], ["TOKEN"]],
        ((tokenRepo secretAcls).computeWorkspaceView tokenLinked tagAead (tokenId 1)
          (tokenId 3) (.replicate 1) .new).map (Option.map fun v => v.env["TOKEN"]?) =
            .ok (some (some "value"))) ∧
      ((tokenRepo ["TOKEN"]).resolveOverlay tokenLinked tagAead (tokenId 3) tokenChain .new
        true).map (fun m => m["TOKEN"]?) = .ok none ∧
      cleared .twoPoint (derivedRules [] [] []) .new "TOKEN" = true ∧
      cleared .twoPoint (derivedRules [] [] ["TOKEN"]) .new "TOKEN" = false ∧
      refused .twoPoint (derivedRules [] [] ["TOKEN"]) .new ("TOKEN", .secret (tokenId 2)) =
        true := by
  decide +kernel

lemma token_overlay (secretAcls : List String) : ∃ overlay,
    (tokenRepo secretAcls).objects.getOverlay tokenLinked (tokenId 3) = .ok (some overlay) ∧
      overlay.entries.toList = [("TOKEN", .secret (tokenId 2))] := by
  have h := token_evaluated.1
  rw [tokenRepo]
  cases ho : (ObjectStore.holding tokenLinked tokenObjects).getOverlay tokenLinked (tokenId 3) with
  | error e => simp [ho, Except.map] at h
  | ok found =>
      cases found with
      | none => simp [ho, Except.map] at h
      | some overlay => exact ⟨overlay, rfl, by simpa [ho, Except.map] using h⟩

/-- Protected or not, the view has its value. -/
lemma token_view {secretAcls : List String} (h : secretAcls = [] ∨ secretAcls = ["TOKEN"]) :
    ∃ view, (tokenRepo secretAcls).computeWorkspaceView tokenLinked tagAead (tokenId 1)
        (tokenId 3) (.replicate 1) .new = .ok (some view) ∧ view.env["TOKEN"]? = some "value" := by
  have hview : ((tokenRepo secretAcls).computeWorkspaceView tokenLinked tagAead (tokenId 1)
      (tokenId 3) (.replicate 1) .new).map (Option.map fun v => v.env["TOKEN"]?) =
        .ok (some (some "value")) :=
    token_evaluated.2.1 secretAcls (by simpa using h)
  generalize (tokenRepo secretAcls).computeWorkspaceView tokenLinked tagAead (tokenId 1)
    (tokenId 3) (.replicate 1) .new = result at hview
  cases result with
  | error e => cases hview
  | ok found =>
      cases found with
      | none => cases hview
      | some view => exact ⟨view, rfl, Option.some.inj (Except.ok.inj hview)⟩

/-- **A protected token is in the view**, of an actor that `resolve_overlay` refuses it to. -/
theorem view_gated_token :
    ∃ overlay view, (tokenRepo ["TOKEN"]).objects.getOverlay tokenLinked (tokenId 3) =
        .ok (some overlay) ∧
      (tokenRepo ["TOKEN"]).computeWorkspaceView tokenLinked tagAead (tokenId 1) (tokenId 3)
        (.replicate 1) .new = .ok (some view) ∧
      view.env["TOKEN"]? = some "value" ∧
      ((tokenRepo ["TOKEN"]).resolveOverlay tokenLinked tagAead (tokenId 3) tokenChain .new
        true).map (fun m => m["TOKEN"]?) = .ok none ∧
      ¬ ViewGated tokenLinked tagAead (tokenRepo ["TOKEN"]) (tokenId 3) tokenChain .new overlay
        .twoPoint (derivedRules [] [] ["TOKEN"]) view := by
  obtain ⟨overlay, hoverlay, hentries⟩ := token_overlay ["TOKEN"]
  obtain ⟨view, hview, henv⟩ := token_view (.inr rfl)
  obtain ⟨-, -, hresolved, -, hrefused, -⟩ := token_evaluated
  refine ⟨overlay, view, hoverlay, hview, henv, hresolved, fun h => ?_⟩
  have hentry : overlay.entries["TOKEN"]? = some (.secret (tokenId 2)) := by
    rw [← Std.ExtTreeMap.mem_toList_iff_getElem?_eq_some, hentries]
    exact List.mem_singleton_self _
  have hcleared := h.cleared "TOKEN" (tokenId 2) hentry (by
    rw [Std.ExtTreeMap.mem_iff_isSome_getElem?, henv]
    rfl)
  rw [hrefused] at hcleared
  cases hcleared

/-- A token that is not protected may be in it. -/
theorem view_gated_iff_open :
    ∃ overlay view, (tokenRepo []).objects.getOverlay tokenLinked (tokenId 3) =
        .ok (some overlay) ∧
      (tokenRepo []).computeWorkspaceView tokenLinked tagAead (tokenId 1) (tokenId 3)
        (.replicate 1) .new = .ok (some view) ∧
      view.env["TOKEN"]? = some "value" ∧
      ViewGated tokenLinked tagAead (tokenRepo []) (tokenId 3) tokenChain .new overlay .twoPoint
        (derivedRules [] [] []) view := by
  obtain ⟨overlay, hoverlay, hentries⟩ := token_overlay []
  obtain ⟨view, hview, henv⟩ := token_view (.inl rfl)
  obtain ⟨hlat, hrules⟩ := tokenRepo_rules []
  refine ⟨overlay, view, hoverlay, hview, henv, (view_gated_iff hview hoverlay hlat hrules
    fun _ _ _ _ h => getSecretResolved_of_legacy rfl h).mpr fun var id hentry => ?_⟩
  rw [← Std.ExtTreeMap.mem_toList_iff_getElem?_eq_some, hentries, List.mem_singleton] at hentry
  obtain rfl : var = "TOKEN" := congrArg Prod.fst hentry
  exact token_evaluated.2.2.2.1

/-- **A missing secret comes before the refusal.**  The actor is not cleared for the token, and the
call fails because another secret, which it is cleared for, is missing. -/
theorem resolveOverlay_refused_late :
    ((tokenRepo ["TOKEN"]).objects.getOverlay tokenLinked (tokenId 4)).map
        (Option.map fun o => o.entries.toList) =
          .ok (some [("ABSENT", .secret ⟨.replicate 9⟩), ("TOKEN", .secret (tokenId 2))]) ∧
      cleared .twoPoint (derivedRules [] [] ["TOKEN"]) .new "ABSENT" = true ∧
      cleared .twoPoint (derivedRules [] [] ["TOKEN"]) .new "TOKEN" = false ∧
      ((tokenRepo ["TOKEN"]).resolveOverlay tokenLinked tagAead (tokenId 4) tokenChain .new
        false).map (fun _ => ()) =
          .error (.storage ("secret not found: " ++ (⟨.replicate 9⟩ : ObjectId).toHex)) := by
  decide +kernel

/-- With nothing before it the refusal is what is reported. -/
theorem resolveOverlay_noninterference_token :
    ((tokenRepo ["TOKEN"]).resolveOverlay tokenLinked tagAead (tokenId 3) tokenChain .new false) =
      .error (.accessDenied "not cleared to resolve secret for env var 'TOKEN'") := by
  obtain ⟨overlay, hoverlay, hentries⟩ := token_overlay ["TOKEN"]
  obtain ⟨hlat, hrules⟩ := tokenRepo_rules ["TOKEN"]
  have hrefused := token_evaluated.2.2.2.2.2
  have hfirst : overlay.entries.toList.find?
      (refused .twoPoint (derivedRules [] [] ["TOKEN"]) .new) =
        some ("TOKEN", .secret (tokenId 2)) := by
    rw [hentries, List.find?_cons, hrefused]
  have h := (resolveOverlay_noninterference tokenLinked tagAead (tokenId 3) tokenChain .new).2
    (tokenRepo ["TOKEN"]) overlay _ _ _ hoverlay hlat hrules hfirst
  rw [h, hentries, List.takeWhile_cons_of_neg (by simp [hrefused])]
  rfl

end Repository

end Bole
