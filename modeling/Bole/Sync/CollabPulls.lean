import Bole.Lib.Run
import Bole.Repo.CollabSystem
import Bole.Sync.Collab

/-!
Pulls of collaboration objects, one after another, from any peers: `collab_pull` of
`src/sync/collab.rs` as it is called again and again on one repository.

A pull files every object that verifies, and of two for the same author and key the one that comes
last in the adverts.  It does not look at the `seq` of what is tracked already.

* `pull_cases`: what a pull does to the repository;
* `trackedSeq_file`: what is tracked after the objects of a pull are filed;
* `filed_advances_iff`: no tracked `seq` falls exactly when the served objects are fresh;
* `collabPulls_monotone`: nor does it fall in any run of pulls that are;
* `collabPulls_replay`: **an older object that is served again** replaces the newer one.
-/

namespace Bole

open Talk Transition

/-- The `seq` of an object. -/
def CollabObject.seq : CollabObject → ℕ
  | profile p => p.seq
  | trustEdge e => e.seq

/-- One call of `collab_pull`: its peer, and the clock of its writes. -/
structure Pull where
  peer : Peer Message Error
  mtime : Option ℕ

namespace Repository

open Talk.Session

/-- The repository after a pull. -/
def pull (L : Linked) (r : Repository) (p : Pull) : Repository :=
  (collabPull L p.mtime p.peer (.start r)).2.world

/-- The `seq` of the collaboration object that a tag points at. -/
def trackedSeq (L : Linked) (r : Repository) (n : RefName) : Option ℕ :=
  match r.refs.get n with
  | some (.tag t) =>
      match r.objects.object L t.target with
      | some (.collab o) => some o.seq
      | _ => none
  | _ => none

/-- What is tracked stays tracked, with no smaller `seq`. -/
def Advances (L : Linked) (r r' : Repository) : Prop :=
  ∀ n s, r.trackedSeq L n = some s → ∃ s', r'.trackedSeq L n = some s' ∧ s ≤ s'

/-- The objects that a peer serves to a pull: those that verify, in the order of the adverts. -/
def ServedObjects (L : Linked) (r : Repository) (p : Pull) (served : List CollabObject) : Prop :=
  ∃ refs caps sig pack decoded r₁ resolved,
    p.peer.recv [.hello .fetch] 0 = .ok (.welcome refs caps sig) ∧
    p.peer.recv [.hello .fetch, .haveWant (refs.map RefAdvert.target) []] 1 = .ok (.pack pack) ∧
    decodePack L.toCrates pack = .ok decoded ∧ land L p.mtime decoded r = (.ok (), r₁) ∧
    r₁.resolveCollab L refs = .ok resolved ∧ served = resolved.map Prod.snd

/-- Of the given objects, the last one for a tracking ref. -/
def lastFor (C : Crates) (served : List CollabObject) (n : RefName) : Option CollabObject :=
  (served.filter fun o => collabTracking C o = n.asStr).getLast?

/-- Of what is served for a tracked ref, the last object is not older. -/
def FreshFor (L : Linked) (r : Repository) (served : List CollabObject) : Prop :=
  ∀ n s, r.trackedSeq L n = some s → ∀ o, lastFor L.toCrates served n = some o → s ≤ o.seq

/-- A peer that serves nothing older than what is tracked. -/
def FreshPull (L : Linked) (r : Repository) (p : Pull) : Prop :=
  ∀ served, ServedObjects L r p served → FreshFor L r served

variable {L : Linked} {r r' : Repository}

/-! ### What a pull does -/

lemma world_act_ret {α β : Type} (f : Repository → Result α × Repository) (b : β)
    {peer : Peer Message Error} {s : Stage Repository Message} :
    ((act f >>= fun _ => pure b : SyncSession β) peer s).2.world = (f s.world).2 := by
  rw [bind_apply, Session.act]
  cases (f s.world).1 <;> rfl

/-- Landing a pack writes objects. -/
lemma land_refs_grows {mtime : Option ℕ} {decoded : List (ObjectId × Bytes)} {result : Result Unit}
    (h : land L mtime decoded r = (result, r')) :
    r'.refs = r.refs ∧ ObjectStore.Grows L r.objects r'.objects := by
  rw [land] at h
  obtain rfl := (Prod.mk.inj h).2
  exact ⟨rfl, (ObjectStore.land_written L mtime decoded r.objects).grows⟩

/-- The end of a pull changes the objects only, or files the objects that were resolved. -/
lemma landCollab_cases {mtime : Option ℕ} {refs : List RefAdvert} {pack : Bytes}
    {peer : Peer Message Error} {s : Stage Repository Message} :
    let r' := (landCollab L mtime refs pack peer s).2.world
    (r'.refs = s.world.refs ∧ ObjectStore.Grows L s.world.objects r'.objects) ∨
      ∃ decoded r₁ resolved r₂ result, decodePack L.toCrates pack = .ok decoded ∧
        land L mtime decoded s.world = (.ok (), r₁) ∧ r₁.resolveCollab L refs = .ok resolved ∧
        fileCollab L mtime (resolved.map Prod.snd) r₁ = (result, r₂) ∧ r' = r₂ := by
  dsimp only
  rw [landCollab]
  simp only [bind_apply, Session.ask, Session.act]
  cases hdecode : decodePack L.toCrates pack with
  | error e => exact .inl ⟨rfl, fun _ _ h => h⟩
  | ok decoded =>
      dsimp only
      cases hland : land L mtime decoded s.world with
      | mk result r₁ =>
          have hgrows := land_refs_grows hland
          cases result with
          | error e => exact .inl hgrows
          | ok u =>
              dsimp only
              cases hres : r₁.resolveCollab L refs with
              | error e => exact .inl hgrows
              | ok resolved =>
                  dsimp only
                  cases collabPeer resolved with
                  | none => exact .inl hgrows
                  | some key =>
                      exact .inr ⟨decoded, r₁, resolved, _, _, rfl, hland, hres, rfl,
                        world_act_ret _ _⟩

/-- **What a pull does**: it changes the objects only, or it files what its peer serves. -/
lemma pull_cases (L : Linked) (r : Repository) (p : Pull) :
    ((r.pull L p).refs = r.refs ∧ ObjectStore.Grows L r.objects (r.pull L p).objects) ∨
      ∃ served r₁ result, ServedObjects L r p served ∧ r₁.refs = r.refs ∧
        ObjectStore.Grows L r.objects r₁.objects ∧
        fileCollab L p.mtime served r₁ = (result, r.pull L p) := by
  have hsame : r.refs = r.refs ∧ ObjectStore.Grows L r.objects r.objects := ⟨rfl, fun _ _ h => h⟩
  rw [pull, collabPull]
  simp only [bind_apply, Session.send, Session.recv, Stage.start]
  cases p.peer.send [] (.hello .fetch) with
  | error e => exact .inl hsame
  | ok u =>
      simp only [List.nil_append]
      cases hwelcome : p.peer.recv [.hello .fetch] 0 with
      | error e => exact .inl hsame
      | ok m =>
          cases m with
          | welcome refs caps sig =>
              simp only [bind_apply, Session.send, Session.recv]
              cases p.peer.send [.hello .fetch] (.haveWant (refs.map RefAdvert.target) []) with
              | error e => exact .inl hsame
              | ok u =>
                  simp only [List.cons_append, List.nil_append]
                  cases hpack : p.peer.recv
                      [.hello .fetch, .haveWant (refs.map RefAdvert.target) []] (0 + 1) with
                  | error e => exact .inl hsame
                  | ok m =>
                      cases m with
                      | pack pack =>
                          simp only [bind_apply, Session.recv]
                          cases p.peer.recv
                              [.hello .fetch, .haveWant (refs.map RefAdvert.target) []]
                              (0 + 1 + 1) with
                          | error e => exact .inl hsame
                          | ok m =>
                              cases m with
                              | done =>
                                  rcases landCollab_cases with h | ⟨decoded, r₁, resolved, r₂,
                                    result, hdecode, hland, hres, hfile, heq⟩
                                  · exact .inl h
                                  · have hworld := land_refs_grows hland
                                    rw [← heq] at hfile
                                    exact .inr ⟨_, r₁, result, ⟨refs, caps, sig, pack, decoded, r₁,
                                      resolved, hwelcome, hpack, hdecode, hland, hres, rfl⟩,
                                      hworld.1, hworld.2, hfile⟩
                              | _ => exact .inl hsame
                      | _ => exact .inl hsame
          | _ => exact .inl hsame

/-! ### Filing -/

/-- The object is written, and the operation sets its tracking ref. -/
def Staged (L : Linked) (s : ObjectStore) (o : CollabObject) (op : RefOp) : Prop :=
  ∃ name b, RefName.new (collabTracking L.toCrates o) = .ok name ∧
    L.codec.serialize (.collab o) = .ok b ∧ s.exists_ (L.fromContent b) = .ok true ∧
    op = .set name (.tag ⟨L.fromContent b, 0, none⟩)

/-- Staging writes objects. -/
lemma stageCollab_written {mtime : Option ℕ} {served : List CollabObject}
    {result : Result (List RefOp)} (h : stageCollab L mtime served r = (result, r')) :
    r'.refs = r.refs ∧ ObjectStore.Written L (fun _ => True) r.objects r'.objects := by
  induction served generalizing r result with
  | nil =>
      cases h
      exact ⟨rfl, .refl _⟩
  | cons o rest ih =>
      rw [stageCollab] at h
      have hput : ObjectStore.Written L (fun _ => True) r.objects
          (r.objects.put L (.collab o) mtime).2 := (ObjectStore.Written.refl _).put (by simp) mtime
      split at h
      · next e objects heq =>
          cases h
          rw [heq] at hput
          exact ⟨rfl, hput⟩
      · next id objects heq =>
          rw [heq] at hput
          split at h
          · cases h
            exact ⟨rfl, hput⟩
          · split at h
            · next e r₂ hrest =>
                cases h
                exact ⟨(ih hrest).1, hput.trans (ih hrest).2⟩
            · next ops r₂ hrest =>
                cases h
                exact ⟨(ih hrest).1, hput.trans (ih hrest).2⟩

/-- Every object has its operation. -/
lemma stageCollab_ok {mtime : Option ℕ} {served : List CollabObject} {ops : List RefOp}
    (h : stageCollab L mtime served r = (.ok ops, r')) :
    List.Forall₂ (Staged L r'.objects) served ops := by
  induction served generalizing r ops with
  | nil =>
      cases h
      exact .nil
  | cons o rest ih =>
      rw [stageCollab] at h
      split at h
      · cases h
      · next id objects heq =>
          split at h
          · cases h
          · next name hname =>
              split at h
              · cases h
              · next ops' r₂ hrest =>
                  cases h
                  have hid : (r.objects.put L (.collab o) mtime).1 = .ok id := by rw [heq]
                  obtain ⟨b, hb, rfl⟩ := ObjectStore.put_eq_ok hid
                  have hexists := ObjectStore.exists_put hid
                  rw [heq] at hexists
                  exact .cons ⟨name, b, hname, hb,
                    (stageCollab_written hrest).2.exists_ hexists, rfl⟩ (ih hrest)

/-- The last object for a ref is the one whose operation comes last. -/
lemma applyOps_staged {s : ObjectStore} {served : List CollabObject} {ops : List RefOp}
    (h : List.Forall₂ (Staged L s) served ops) {m m' : RefMap}
    (hops : RefMap.applyOps ops m = .ok m') (n : RefName) :
    match lastFor L.toCrates served n with
    | some o => ∃ b, L.codec.serialize (.collab o) = .ok b ∧
        s.exists_ (L.fromContent b) = .ok true ∧ m' n = some (.tag ⟨L.fromContent b, 0, none⟩)
    | none => m' n = m n := by
  induction h generalizing m with
  | nil =>
      cases hops
      rfl
  | @cons o op rest ops hstaged _ ih =>
      obtain ⟨name, b, hname, hb, hexists, rfl⟩ := hstaged
      rw [RefMap.applyOps, Result.bind_eq_ok] at hops
      obtain ⟨m₁, hop, hops⟩ := hops
      obtain rfl : Function.update m name (some (.tag ⟨L.fromContent b, 0, none⟩)) = m₁ :=
        Except.ok.inj hop
      have hrest := ih hops
      have hmatch : collabTracking L.toCrates o = n.asStr ↔ n = name := by
        rw [← RefName.asStr_of_new hname]
        exact ⟨fun h => (RefName.ext' h).symm, fun h => by rw [h]⟩
      by_cases hn : n = name
      · have hlast : lastFor L.toCrates (o :: rest) n =
            some ((lastFor L.toCrates rest n).getD o) := by
          rw [lastFor, List.filter_cons_of_pos (by simpa using hmatch.mpr hn), List.getLast?_cons]
          rfl
        rw [hlast]
        cases hl : lastFor L.toCrates rest n with
        | some o' =>
            rw [hl] at hrest
            exact hrest
        | none =>
            rw [hl] at hrest
            refine ⟨b, hb, hexists, hrest.trans ?_⟩
            rw [hn, Function.update_self]
      · have hlast : lastFor L.toCrates (o :: rest) n = lastFor L.toCrates rest n := by
          rw [lastFor, List.filter_cons_of_neg (by simpa using mt hmatch.mp hn)]
          rfl
        rw [hlast]
        cases hl : lastFor L.toCrates rest n with
        | some o' =>
            rw [hl] at hrest
            exact hrest
        | none =>
            rw [hl] at hrest
            exact hrest.trans (Function.update_of_ne hn ..)

/-- Objects are filed or the refs stay as they are. -/
lemma fileCollab_cases {mtime : Option ℕ} {served : List CollabObject} {result : Result Unit}
    (h : fileCollab L mtime served r = (result, r')) :
    ObjectStore.Grows L r.objects r'.objects ∧ (r'.refs = r.refs ∨ result = .ok () ∧
      ∃ ops, List.Forall₂ (Staged L r'.objects) served ops ∧
        RefMap.applyOps ops r.refs.map = .ok r'.refs.map) := by
  rw [fileCollab] at h
  split at h
  · next e r₂ hstage =>
      cases h
      exact ⟨(stageCollab_written hstage).2.grows, .inl (stageCollab_written hstage).1⟩
  · next ops r₂ hstage =>
      obtain ⟨hrefs, hwritten⟩ := stageCollab_written hstage
      split at h
      · next e refs hcommit =>
          cases h
          exact ⟨hwritten.grows, .inl ((RefStore.commit_error hcommit).trans hrefs)⟩
      · next refs hcommit =>
          cases h
          rw [hrefs] at hcommit
          have hstaged : List.Forall₂ (Staged L r₂.objects) served ops := stageCollab_ok hstage
          exact ⟨hwritten.grows, .inr ⟨rfl, ops, hstaged, RefStore.commit_ok hcommit⟩⟩

/-! ### What is tracked -/

lemma trackedSeq_eq_some {n : RefName} {s : ℕ} : r.trackedSeq L n = some s ↔
    ∃ t o, r.refs.get n = some (.tag t) ∧ r.objects.object L t.target = some (.collab o) ∧
      o.seq = s := by
  rw [trackedSeq]
  constructor
  · intro h
    split at h
    · next t ht =>
        split at h
        · next o ho => exact ⟨t, o, ht, ho, Option.some.inj h⟩
        · cases h
    · cases h
  · rintro ⟨t, o, ht, ho, rfl⟩
    simp only [ht, ho]

/-- A ref that stays where it is tracks what it tracked. -/
lemma trackedSeq_of_grows {n : RefName} {s : ℕ} (hget : r'.refs.get n = r.refs.get n)
    (hgrows : ObjectStore.Grows L r.objects r'.objects) (h : r.trackedSeq L n = some s) :
    r'.trackedSeq L n = some s := by
  obtain ⟨t, o, ht, ho, hs⟩ := trackedSeq_eq_some.mp h
  exact trackedSeq_eq_some.mpr ⟨t, o, hget.trans ht, hgrows _ _ ho, hs⟩

/-- **What is tracked after filing**: of what was filed for a ref, the last object, and otherwise
what was tracked before. -/
lemma trackedSeq_file {objs : Set Object} {served : List CollabObject} {ops : List RefOp}
    (hstaged : List.Forall₂ (Staged L r'.objects) served ops)
    (hops : RefMap.applyOps ops r.refs.map = .ok r'.refs.map)
    (hfaithful : r'.objects.Faithful L objs) (hserved : ∀ o ∈ served, .collab o ∈ objs)
    (n : RefName) :
    match lastFor L.toCrates served n with
    | some o => r'.trackedSeq L n = some o.seq
    | none => r'.refs.get n = r.refs.get n := by
  have h := applyOps_staged hstaged hops n
  cases hl : lastFor L.toCrates served n with
  | none =>
      rw [hl] at h
      exact h
  | some o =>
      rw [hl] at h
      obtain ⟨b, hb, hexists, hget⟩ := h
      have ho : o ∈ served := List.mem_of_mem_filter (List.mem_of_getLast? hl)
      exact trackedSeq_eq_some.mpr
        ⟨_, o, hget, hfaithful.get (hserved o ho) hb hexists, rfl⟩

/-- Filing makes no tracked `seq` fall exactly when the objects are fresh. -/
lemma filed_advances_iff {objs : Set Object} {served : List CollabObject} {ops : List RefOp}
    (hstaged : List.Forall₂ (Staged L r'.objects) served ops)
    (hops : RefMap.applyOps ops r.refs.map = .ok r'.refs.map)
    (hgrows : ObjectStore.Grows L r.objects r'.objects)
    (hfaithful : r'.objects.Faithful L objs) (hserved : ∀ o ∈ served, .collab o ∈ objs) :
    Advances L r r' ↔ FreshFor L r served := by
  have hfile := trackedSeq_file hstaged hops hfaithful hserved
  constructor
  · intro hadv n s hs o ho
    obtain ⟨s', hs', hle⟩ := hadv n s hs
    have h := hfile n
    rw [ho] at h
    obtain rfl := Option.some.inj (h.symm.trans hs')
    exact hle
  · intro hfresh n s hs
    have h := hfile n
    cases hl : lastFor L.toCrates served n with
    | none =>
        rw [hl] at h
        exact ⟨s, trackedSeq_of_grows h hgrows hs, Nat.le_refl s⟩
    | some o =>
        rw [hl] at h
        exact ⟨o.seq, h, hfresh n s hs o hl⟩

/-! ### Runs of pulls -/

/-- One pull.  What is served is among the given objects, which the crates tell apart and the store
holds. -/
structure PullStep (L : Linked) (objs : Set Object) (r : Repository) (p : Pull) (r' : Repository) :
    Prop where
  pulled : r' = r.pull L p
  served : ∀ served, ServedObjects L r p served → ∀ o ∈ served, .collab o ∈ objs
  faithful : r'.objects.Faithful L objs

lemma Advances.refl (L : Linked) (r : Repository) : Advances L r r :=
  fun _ s h => ⟨s, h, Nat.le_refl s⟩

lemma Advances.trans {r'' : Repository} (h : Advances L r r') (h' : Advances L r' r'') :
    Advances L r r'' := by
  intro n s hs
  obtain ⟨s', hs', hle⟩ := h n s hs
  obtain ⟨s'', hs'', hle'⟩ := h' n s' hs'
  exact ⟨s'', hs'', hle.trans hle'⟩

/-- A pull from a peer that serves nothing older than what is tracked. -/
lemma PullStep.advances {objs : Set Object} {p : Pull} (h : PullStep L objs r p r')
    (hfresh : FreshPull L r p) : Advances L r r' := by
  obtain rfl := h.pulled
  rcases pull_cases L r p with ⟨hrefs, hgrows⟩ | ⟨served, r₁, result, hserves, hrefs, hgrows, hfile⟩
  · exact fun n s hs => ⟨s, trackedSeq_of_grows (by rw [hrefs]) hgrows hs, Nat.le_refl s⟩
  · obtain ⟨hgrows', hsame | ⟨-, ops, hstaged, hops⟩⟩ := fileCollab_cases hfile
    · exact fun n s hs => ⟨s, trackedSeq_of_grows (by rw [hsame, hrefs])
        (hgrows.trans hgrows') hs, Nat.le_refl s⟩
    · rw [hrefs] at hops
      exact (filed_advances_iff hstaged hops (hgrows.trans hgrows') h.faithful
        (h.served served hserves)).mpr (hfresh served hserves)

/-- **Runs of fresh pulls.**  If no peer of a run serves, as the last object for a tracking ref, one
that is older than the object tracked there, the `seq` of what is tracked never falls: not between
any two states of the run, for every stretch of it is such a run. -/
theorem collabPulls_monotone {objs : Set Object} {steps : List (Repository × Pull)}
    (hrun : Run (PullStep L objs) r steps r') (hfresh : ∀ q ∈ steps, FreshPull L q.1 q.2) :
    Advances L r r' :=
  hrun.invariant (Advances L r) (FreshPull L)
    (fun _ _ _ hadv hfresh hstep => hadv.trans (hstep.advances hfresh)) hfresh (.refl L r)

/-! ### A replay -/

lemma mem_resolveCollab {refs : List RefAdvert} {resolved : List (RefName × CollabObject)}
    (h : r.resolveCollab L refs = .ok resolved) {q : RefName × CollabObject} (hq : q ∈ resolved) :
    ∃ id, r.objects.object L id = some (.collab q.2) := by
  induction refs generalizing resolved with
  | nil =>
      cases h
      cases hq
  | cons ad rest ih =>
      rw [resolveCollab, Result.bind_eq_ok] at h
      obtain ⟨found, hfound, h⟩ := h
      split at h
      · next o =>
          obtain ⟨out, hout, h⟩ := Result.bind_eq_ok.mp h
          split_ifs at h
          · cases h
            rcases List.mem_cons.mp hq with rfl | hq
            · exact ⟨ad.target, ObjectStore.object_eq_some.mpr hfound⟩
            · exact ih hout hq
          · cases h
            exact ih hout hq
      · exact ih h hq

/-- What is served to a repository with the crates of the two profiles is one of them. -/
lemma ada_served {p : Pull} {served : List CollabObject}
    (h : ServedObjects adaLinked r p served) : ∀ o ∈ served, .collab o ∈ {o | o ∈ adaObjects} := by
  obtain ⟨refs, caps, sig, pack, decoded, r₁, resolved, -, -, -, -, hres, rfl⟩ := h
  intro o ho
  obtain ⟨q, hq, rfl⟩ := List.mem_map.mp ho
  obtain ⟨id, hid⟩ := mem_resolveCollab hres hq
  exact ObjectStore.mem_of_object_over hid

/-- A peer that serves one of the profiles as its own. -/
def adaPull (p : Profile) : Pull where
  peer :=
    let obj : Object := .collab (.profile p)
    let pack := PackBuilder.finish adaLinked.toCrates ⟨[(obj.refId, Postcard.object obj)]⟩
    scripted (.storage "connection closed")
      [.welcome [⟨adaName, obj.refId, false⟩], .pack ((pack.toOption.map Prod.fst).getD []), .done]
  mtime := none

/-- Where the profile is tracked. -/
def adaTracking : RefName :=
  ⟨collabTracking Crates.reference (.profile adaFirst), by decide +kernel⟩

/-- The store holds the profiles that it has, and the tracked `seq` is as given. -/
def AdaState (r : Repository) (seq : ℕ) : Prop :=
  (∀ o ∈ adaObjects, r.objects.exists_ o.refId = .ok true →
      r.objects.getRaw adaLinked o.refId = .ok (some (Postcard.object o))) ∧
    r.trackedSeq adaLinked adaTracking = some seq ∧
    ∀ n ∈ r.refs.list "", (r.trackedSeq adaLinked n).all (fun s => decide (s ≤ seq)) = true

instance (r : Repository) (seq : ℕ) : Decidable (AdaState r seq) :=
  inferInstanceAs (Decidable (_ ∧ _ ∧ _))

lemma AdaState.step {r r' : Repository} {p : Pull} {seq : ℕ} (h : AdaState r' seq)
    (hpull : r' = r.pull adaLinked p) : PullStep adaLinked {o | o ∈ adaObjects} r p r' :=
  ⟨hpull, fun _ => ada_served, ada_faithful h.1⟩

lemma AdaState.run {r r' : Repository} {p : Pull} {seq : ℕ} (h : AdaState r' seq)
    (hpull : r' = r.pull adaLinked p) :
    Run (PullStep adaLinked {o | o ∈ adaObjects}) r [(r, p)] r' :=
  .single (h.step hpull)

/-- The first profile is older than nothing that is tracked. -/
lemma AdaState.fresh {r : Repository} (h : AdaState r 1) (p : Pull) : FreshPull adaLinked r p := by
  intro served hserved n s hs o ho
  have hseqs : ∀ obj ∈ adaObjects, ∀ o, obj = .collab o → 1 ≤ o.seq := by
    simp [adaObjects, CollabObject.seq, adaFirst, adaSecond]
  obtain ⟨t, -, ht, -⟩ := trackedSeq_eq_some.mp hs
  have hn := h.2.2 n (RefStore.mem_list.mpr ⟨⟨_, ht⟩, by simp⟩)
  rw [hs] at hn
  have hserves := ada_served hserved o (List.mem_of_mem_filter (List.mem_of_getLast? ho))
  exact (of_decide_eq_true hn).trans (hseqs _ hserves o rfl)

/-- The repository after it has pulled the first profile, the second after it, and after the first
is served again. -/
def adaPulled : Repository := memory.pull adaLinked (adaPull adaFirst)

def adaUpdated : Repository := adaPulled.pull adaLinked (adaPull adaSecond)

def adaReplayed : Repository := adaUpdated.pull adaLinked (adaPull adaFirst)

/-- What the pack of a pull decodes to, and the ids of the bytes in it. -/
lemma adaPull_decodes : ∀ p ∈ [adaFirst, adaSecond],
    decodePack adaLinked.toCrates (((PackBuilder.finish adaLinked.toCrates
      ⟨[((Object.collab (.profile p)).refId, Postcard.object (.collab (.profile p)))]⟩).toOption.map
        Prod.fst).getD []) =
      .ok [((Object.collab (.profile p)).refId, Postcard.object (.collab (.profile p)))] ∧
    verifiedCollab adaLinked (.profile p) = true := by
  decide +kernel

/-- At most the one ref is set, and the profiles can be told apart in the store. -/
structure AdaTracks (r : Repository) : Prop where
  faithful : r.objects.Faithful adaLinked {o | o ∈ adaObjects}
  answers : ∀ id, ∃ found, r.objects.exists_ id = .ok found
  only : ∀ n ref, r.refs.get n = some ref → n = adaTracking

lemma adaTracks_memory : AdaTracks memory where
  faithful := ada_faithful (by decide)
  answers id := ⟨_, rfl⟩
  only n ref h := by cases h

/-- The store after a write of a profile. -/
lemma AdaTracks.put {r : Repository} (h : AdaTracks r) {o : Object} (ho : o ∈ adaObjects) :
    ∃ s, r.objects.put adaLinked o none = (.ok o.refId, s) ∧
      s.get adaLinked o.refId = .ok (some o) ∧ AdaTracks { r with objects := s } := by
  have hok : (r.objects.put adaLinked o none).1 = .ok o.refId := by
    obtain ⟨found, hfound⟩ := h.answers o.refId
    rw [ObjectStore.put, show adaLinked.codec.serialize o = .ok (Postcard.object o) from rfl]
    cases found with
    | true => exact congrArg Prod.fst (ObjectStore.putRaw_found (L := adaLinked) none hfound)
    | false => exact (ObjectStore.putRaw_backend (L := adaLinked) none hfound).1
  obtain ⟨hfaithful, hread⟩ := h.faithful.put ho hok
  exact ⟨_, Prod.ext hok rfl, hread, hfaithful,
    ObjectStore.exists_put_answers h.answers o none, h.only⟩

/-- **A pull of one of the profiles** tracks it, whatever was tracked. -/
lemma AdaTracks.pull {r : Repository} (h : AdaTracks r) {p : Profile}
    (hp : p ∈ [adaFirst, adaSecond]) :
    AdaTracks (r.pull adaLinked (adaPull p)) ∧
      (r.pull adaLinked (adaPull p)).trackedSeq adaLinked adaTracking = some p.seq := by
  have hobj : .collab (.profile p) ∈ adaObjects := by
    rcases List.mem_pair.mp hp with rfl | rfl <;> simp [adaObjects]
  have hname : RefName.new (collabTracking adaLinked.toCrates (.profile p)) = .ok adaTracking := by
    rcases List.mem_pair.mp hp with rfl | rfl <;> exact dif_pos adaTracking.valid
  have hpublic : adaName.startsWith collabPublicPrefix = true := by decide +kernel
  obtain ⟨hdecode, hverify⟩ := adaPull_decodes p hp
  -- The pack lands, and then the object is written once more.
  obtain ⟨s, hput, hread, hs⟩ := h.put hobj
  obtain ⟨s', hput', hread', hs'⟩ := hs.put hobj
  have hland : land adaLinked none
      [((Object.collab (.profile p)).refId, Postcard.object (.collab (.profile p)))] r =
      (.ok (), { r with objects := s }) := by
    rw [ObjectStore.put] at hput
    simp only [land, ObjectStore.land]
    rw [show r.objects.putRaw adaLinked (Postcard.object (.collab (.profile p))) none = _ from hput]
  have hresolve : resolveCollab adaLinked { r with objects := s }
      [⟨adaName, (Object.collab (.profile p)).refId, false⟩] = .ok [(adaName, .profile p)] :=
    Result.bind_eq_ok.mpr ⟨_, hread, Result.bind_eq_ok.mpr ⟨[], rfl, if_pos hverify⟩⟩
  obtain ⟨refs, hcommit⟩ : ∃ refs, r.refs.commit
      [.set adaTracking (.tag ⟨(Object.collab (.profile p)).refId, 0, none⟩)] = (.ok (), refs) :=
    (RefStore.commit_of_applyOps rfl).imp fun _ h => h.1
  have hget := RefStore.commit_set hcommit
  have hrun : r.pull adaLinked (adaPull p) = { r with objects := s', refs := refs } := by
    simp [Repository.pull, collabPull, landCollab, adaPull, scripted, Session.send, Session.recv,
      Session.ask, Session.act, Stage.start, hdecode, hland, hresolve, collabPeer, hpublic,
      fileCollab, stageCollab, hput', hname, hcommit]
    rfl
  rw [hrun]
  refine ⟨⟨hs'.faithful, hs'.answers, fun n ref href => ?_⟩, trackedSeq_eq_some.mpr
    ⟨_, _, hget.1, ObjectStore.object_eq_some.mpr hread', rfl⟩⟩
  by_contra hne
  exact hne (h.only n ref ((hget.2 n hne).symm.trans href))

lemma AdaTracks.state {r : Repository} (h : AdaTracks r) {seq : ℕ}
    (hseq : r.trackedSeq adaLinked adaTracking = some seq) : AdaState r seq := by
  refine ⟨fun o ho => h.faithful.held o ho _ rfl, hseq, fun n hn => ?_⟩
  obtain ⟨⟨ref, href⟩, -⟩ := RefStore.mem_list.mp hn
  obtain rfl := h.only n ref href
  simp [hseq]

lemma ada_states : AdaState adaPulled 1 ∧ AdaState adaUpdated 2 ∧ AdaState adaReplayed 1 := by
  have hone := adaTracks_memory.pull (p := adaFirst) (by simp)
  have htwo := hone.1.pull (p := adaSecond) (by simp)
  have hthree := htwo.1.pull (p := adaFirst) (by simp)
  exact ⟨hone.1.state hone.2, htwo.1.state htwo.2, hthree.1.state hthree.2⟩

/-- The profiles in their order: what is tracked does not fall. -/
theorem collabPulls_monotone_ada : AdaState adaPulled 1 ∧ AdaState adaUpdated 2 ∧
    Advances adaLinked adaPulled adaUpdated := by
  have hsingle : ∀ r p, FreshPull adaLinked r p → ∀ q ∈ [(r, p)], FreshPull adaLinked q.1 q.2 := by
    rintro r p h q hq
    obtain rfl := List.mem_singleton.mp hq
    exact h
  obtain ⟨hone, htwo, -⟩ := ada_states
  exact ⟨hone, htwo, collabPulls_monotone (htwo.run rfl) (hsingle _ _ (hone.fresh _))⟩

/-- **A replay.**  Ada's second profile is pulled, and then her first from a peer that replays it:
the tracked `seq` falls from two to one. -/
theorem collabPulls_replay :
    ¬ ∀ (L : Linked) (objs : Set Object) (steps : List (Repository × Pull)) (r r' : Repository),
      Run (PullStep L objs) memory steps r → ∀ p, PullStep L objs r p r' → Advances L r r' := by
  intro h
  obtain ⟨hone, htwo, hreplay⟩ := ada_states
  have hrun := (hone.run rfl).append (htwo.run rfl)
  have hstep := hreplay.step (r := adaUpdated) (p := adaPull adaFirst) rfl
  obtain ⟨s', hs', hle⟩ := h _ _ _ _ _ hrun _ hstep adaTracking 2 htwo.2.1
  rw [hreplay.2.1] at hs'
  cases hs'
  omega

end Repository

end Bole
