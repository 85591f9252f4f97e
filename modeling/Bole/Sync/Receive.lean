import Bole.Repo.Gc
import Bole.Sync.Session

/-!
What a fetch leaves behind in the repository that receives it.

The receiver tells the server every id it stores, and the server does not look behind those.
Whatever the receiver lacks behind an object it has stays missing.

* `Pulled`: what a fetch from a server has done once it returns;
* `covers_of_closed`: a receiver that stores the children of what it stores is covered;
* `fetch_completes_iff`: at every point of every run of a receiver, a fetch from an honest server
  leaves complete histories exactly when it is covered.
-/

namespace Bole

open Talk Traverse

/-! ### The receiver and its server -/

/-- `serve` of a repository at the other end of a connection. -/
def serverPeer (L : Linked) (srv : Repository) (accessor : Accessor) : Peer Message Error :=
  Session.served (.storage "connection closed") (Repository.serve L none accessor) srv

/-- `client_fetch` against a peer: what it returns, and the repository after it. -/
def Repository.fetch (L : Linked) (mtime : Option ℕ) (remote : String) (peer : Peer Message Error)
    (r : Repository) : Result (List (RefName × ObjectId)) × Repository :=
  ((Repository.clientFetch L mtime remote peer (.start r)).1,
    (Repository.clientFetch L mtime remote peer (.start r)).2.world)

/-- What happens to a receiver: an object is written, a session is served to a client (a push
may land objects and be denied), garbage is collected, something is fetched from a server. -/
inductive ReceiverOp where
  | put (obj : Object) (mtime : Option ℕ)
  | serve (accessor : Accessor) (client : Peer Message Error) (mtime : Option ℕ)
  | gc (extraRoots : List ObjectId) (graceSecs now : ℕ)
  | fetch (remote : String) (server : Peer Message Error) (mtime : Option ℕ)

/-- The repository after an operation. -/
def ReceiverOp.run (L : Linked) (r : Repository) : ReceiverOp → Repository
  | put obj mtime => { r with objects := (r.objects.put L obj mtime).2 }
  | serve accessor client mtime => (Repository.serve L mtime accessor client (.start r)).2.world
  | gc extraRoots graceSecs now => (r.gc L extraRoots graceSecs now).2
  | fetch remote server mtime => (r.fetch L mtime remote server).2

/-- The repository after a run. -/
def receiverRun (L : Linked) (ops : List ReceiverOp) (r : Repository) : Repository :=
  ops.foldl (ReceiverOp.run L) r

/-- A server that holds the closures of what it serves.  Its objects hash to their ids and can
be counted in 64 bits, and nothing of the receiver collides with them. -/
structure HonestServer (L : Linked) (srv : Repository) (accessor : Accessor) (r : Repository) :
    Prop where
  complete : ∀ n v x, Repository.ServedRef srv accessor n v → Closure L srv.objects [v.target] x →
    (srv.objects.object L x).isSome
  addressed : ∀ x b, srv.objects.getRaw L x = .ok (some b) → L.fromContent b = x
  sized : ∀ x b, srv.objects.getRaw L x = .ok (some b) → b.length < 2 ^ 64
  agrees : ∀ x b b', r.objects.getRaw L x = .ok (some b) →
    srv.objects.getRaw L x = .ok (some b') → b = b'

/-- The server comes to the object from a served ref without meeting an id the receiver lists. -/
def Offered (L : Linked) (srv : Repository) (accessor : Accessor) (r : Repository) (x : ObjectId) :
    Prop :=
  ∃ n v, Repository.ServedRef srv accessor n v ∧
    ReachVia L srv.objects childEdges (fun id => decide (id ∈ r.objects.list)) [v.target] x

/-- Every object below a served ref is one the receiver can read, or one it is offered. -/
def FetchCovers (L : Linked) (srv : Repository) (accessor : Accessor) (r : Repository) : Prop :=
  ∀ n v x, Repository.ServedRef srv accessor n v → Closure L srv.objects [v.target] x →
    (r.objects.object L x).isSome ∨ Offered L srv accessor r x

/-! ### What a fetch does -/

section Fetch

variable {L : Linked} {mtime : Option ℕ} {remote : String} {accessor : Accessor}
  {srv r r' : Repository} {tracked : List (RefName × ObjectId)}

/-- The server's greeting. -/
lemma serverPeer_welcome : (serverPeer L srv accessor).recv [.hello .fetch] 0 =
    match srv.advertise accessor with
    | .ok refs => .ok (.welcome refs)
    | .error _ => .error (.storage "connection closed") := by
  cases hrefs : srv.advertise accessor with
  | error e =>
      simp [serverPeer, Session.served, Repository.serve, Repository.fetchSession, Session.recv,
        Session.scripted, Session.ask, Stage.start, hrefs]
  | ok refs =>
      simp [serverPeer, Session.served, Repository.serve, Repository.fetchSession, Session.recv,
        Session.scripted, Session.ask, Session.send, Stage.start, hrefs]

/-- Its answer to what is wanted. -/
lemma serverPeer_pack {refs : List RefAdvert} (hrefs : srv.advertise accessor = .ok refs)
    (want have_ : List ObjectId) :
    (serverPeer L srv accessor).recv [.hello .fetch, .haveWant want have_] 1 =
      match srv.servePack L refs want have_ with
      | .ok pack => .ok (.pack pack)
      | .error _ => .error (.storage "connection closed") := by
  cases hpack : srv.servePack L refs want have_ with
  | error e =>
      simp [serverPeer, Session.served, Repository.serve, Repository.fetchSession, Session.recv,
        Session.scripted, Session.ask, Session.send, Stage.start, hrefs, hpack]
  | ok pack =>
      simp [serverPeer, Session.served, Repository.serve, Repository.fetchSession, Session.recv,
        Session.scripted, Session.ask, Session.send, Stage.start, hrefs, hpack]

/-- The parts of a fetch from a server that returns. -/
lemma fetch_eq_ok
    (h : r.fetch L mtime remote (serverPeer L srv accessor) = (.ok tracked, r')) :
    ∃ refs pack decoded r₁, srv.advertise accessor = .ok refs ∧
      srv.servePack L refs (refs.map RefAdvert.target) r.objects.list = .ok pack ∧
      decodePack L.toCrates pack = .ok decoded ∧
      Repository.land L mtime decoded r = (.ok (), r₁) ∧
      Repository.track remote refs r₁ = (.ok tracked, r') := by
  have hsend : ∀ (l : List Message) (m : Message),
      (serverPeer L srv accessor).send l m = .ok () := fun _ _ => rfl
  rw [Repository.fetch, Repository.clientFetch] at h
  simp only [Session.bind_apply, Session.send, Session.recv, Stage.start, hsend, List.nil_append,
    serverPeer_welcome] at h
  cases hrefs : srv.advertise accessor with
  | error e => simp [hrefs] at h
  | ok refs =>
      simp only [hrefs, Session.bind_apply, Session.ask, Session.send, hsend, Session.recv,
        serverPeer_pack hrefs, List.cons_append, List.nil_append] at h
      cases hpack : srv.servePack L refs (refs.map RefAdvert.target) r.objects.list with
      | error e => simp [hpack] at h
      | ok pack =>
          simp only [hpack, Session.bind_apply, Session.ask, Session.recv, Session.act] at h
          generalize (serverPeer L srv accessor).recv
            [.hello .fetch, .haveWant (refs.map RefAdvert.target) r.objects.list] (0 + 1 + 1) =
              m at h
          cases m with
          | error e => simp at h
          | ok m =>
              cases hdecode : decodePack L.toCrates pack with
              | error e => simp [hdecode] at h
              | ok decoded =>
                  simp only [hdecode] at h
                  cases hland : Repository.land L mtime decoded r with
                  | mk result r₁ =>
                      simp only [hland] at h
                      cases result with
                      | error e => simp at h
                      | ok u =>
                          exact ⟨refs, pack, decoded, r₁, rfl, hpack, hdecode, hland, h⟩

/-- Setting the tracking refs leaves the objects. -/
lemma track_eq_ok {refs : List RefAdvert} (h : Repository.track remote refs r = (.ok tracked, r')) :
    r'.objects = r.objects ∧ tracked.map Prod.snd = refs.map RefAdvert.target := by
  have hnames : ∀ {refs : List RefAdvert} {tracked : List (RefName × ObjectId)},
      Repository.trackingRefs remote refs = .ok tracked →
      tracked.map Prod.snd = refs.map RefAdvert.target := by
    intro refs
    induction refs with
    | nil =>
        rintro tracked h
        cases h
        rfl
    | cons ad rest ih =>
        intro tracked h
        rw [Repository.trackingRefs, Result.bind_eq_ok] at h
        obtain ⟨name, -, h⟩ := h
        obtain ⟨tracked', hrest, h⟩ := Result.bind_eq_ok.mp h
        cases h
        rw [List.map_cons, List.map_cons, ih hrest]
  rw [Repository.track] at h
  split at h
  · cases h
  · next tracked' htracked =>
      split at h
      · cases h
      · cases h
        exact ⟨rfl, hnames htracked⟩

/-- What a fetch from an honest server has done once it returns. -/
structure Pulled (L : Linked) (srv : Repository) (accessor : Accessor) (r : Repository)
    (tracked : List (RefName × ObjectId)) (r' : Repository) : Prop where
  written : ObjectStore.Written L (fun b => Offered L srv accessor r (L.fromContent b) ∧
    srv.objects.getRaw L (L.fromContent b) = .ok (some b)) r.objects r'.objects
  reads : ∀ x, Offered L srv accessor r x → ∃ b, r'.objects.getRaw L x = .ok (some b)
  targets : ∀ id, (∃ t ∈ tracked, t.2 = id) ↔
    ∃ n v, Repository.ServedRef srv accessor n v ∧ v.target = id

/-- What the pack is made of. -/
lemma offered_iff {refs : List RefAdvert} (hrefs : srv.advertise accessor = .ok refs)
    {x : ObjectId} : Offered L srv accessor r x ↔
      ReachVia L srv.objects childEdges (fun id => decide (id ∈ r.objects.list.toFinset))
        ((refs.map RefAdvert.target).filter fun w => decide (w ∈ refs.map RefAdvert.target)) x := by
  have hskip : (fun id => decide (id ∈ r.objects.list.toFinset)) =
      fun id => decide (id ∈ r.objects.list) := by
    funext id
    rw [decide_eq_decide, List.mem_toFinset]
  have hwant : ((refs.map RefAdvert.target).filter fun w =>
      decide (w ∈ refs.map RefAdvert.target)) = refs.map RefAdvert.target :=
    List.filter_eq_self.mpr fun w hw => decide_eq_true hw
  rw [hskip, hwant]
  constructor
  · rintro ⟨n, v, hv, hx⟩
    refine Reach.mono (fun _ h => h) (fun y hy => ?_) (fun _ _ _ h => h) hx
    rw [List.mem_singleton.mp hy]
    refine List.mem_map.mpr ⟨_, (Repository.mem_advertise hrefs).mpr ⟨n, v, hv, rfl⟩, ?_⟩
    exact Repository.target_advertOf n v
  · intro hx
    induction hx with
    | root hy hs =>
        obtain ⟨ad, had, rfl⟩ := List.mem_map.mp hy
        obtain ⟨n, v, hv, rfl⟩ := (Repository.mem_advertise hrefs).mp had
        rw [Repository.target_advertOf] at hs ⊢
        exact ⟨n, v, hv, .root (by simp) hs⟩
    | step _ hy hs ih =>
        obtain ⟨n, v, hv, hreach⟩ := ih
        exact ⟨n, v, hv, .step hreach hy hs⟩

lemma Offered.not_listed {x : ObjectId} (h : Offered L srv accessor r x) :
    x ∉ r.objects.list := by
  obtain ⟨n, v, -, hx⟩ := h
  simpa using hx.not_skip

lemma pulled_of_fetch (honest : HonestServer L srv accessor r)
    (h : r.fetch L mtime remote (serverPeer L srv accessor) = (.ok tracked, r')) :
    Pulled L srv accessor r tracked r' := by
  obtain ⟨refs, pack, decoded, r₁, hrefs, hpack, hdecode, hland, htrack⟩ := fetch_eq_ok h
  obtain ⟨hobjects, htargets⟩ := track_eq_ok htrack
  obtain ⟨objects, entries, digest, hfinish, hmem⟩ := Repository.servePack_objects hpack
  have hstore : ObjectStore.land L mtime decoded r.objects = (.ok (), r₁.objects) := by
    rw [Repository.land] at hland
    obtain ⟨hok, rfl⟩ := Prod.mk.inj hland
    exact Prod.ext hok rfl
  have hmem' : ∀ p, p ∈ objects ↔ (Offered L srv accessor r p.1 ∧
      (srv.objects.object L p.1).isSome) ∧ srv.objects.getRaw L p.1 = .ok (some p.2) := by
    intro p
    rw [hmem, offered_iff hrefs]
  obtain rfl : decoded = objects :=
    decodePack_finish_sound hfinish (fun p hp => honest.sized _ _ ((hmem' p).mp hp).2) hdecode
  refine ⟨?_, fun x hx => ?_, fun id => ?_⟩
  · have hwritten := ObjectStore.land_written L mtime decoded r.objects
    rw [hstore] at hwritten
    rw [hobjects]
    refine hwritten.mono ?_
    rintro b ⟨p, hp, rfl⟩
    obtain ⟨⟨hoffer, -⟩, hraw⟩ := (hmem' p).mp hp
    rw [honest.addressed _ _ hraw]
    exact ⟨hoffer, hraw⟩
  · obtain ⟨n, v, hv, hreach⟩ := hx
    obtain ⟨obj, hobj⟩ := Option.isSome_iff_exists.mp
      (honest.complete n v x hv (closure_of_reachVia hreach))
    obtain ⟨b, hb, -⟩ := ObjectStore.get_eq_some.mp (ObjectStore.object_eq_some.mp hobj)
    have hx : Offered L srv accessor r x := ⟨n, v, hv, hreach⟩
    have hin : (x, b) ∈ decoded := (hmem' (x, b)).mpr ⟨⟨hx, by rw [hobj]; rfl⟩, hb⟩
    have hid : L.fromContent b = x := honest.addressed x b hb
    rw [hobjects, ← hid]
    refine ObjectStore.land_reads hstore hin ?_
    rw [hid]
    exact hx.not_listed
  · have hiff : (∃ t ∈ tracked, t.2 = id) ↔ id ∈ refs.map RefAdvert.target := by
      rw [← htargets, List.mem_map]
    rw [hiff, List.mem_map]
    constructor
    · rintro ⟨ad, had, rfl⟩
      obtain ⟨n, v, hv, rfl⟩ := (Repository.mem_advertise hrefs).mp had
      exact ⟨n, v, hv, (Repository.target_advertOf n v).symm⟩
    · rintro ⟨n, v, hv, rfl⟩
      exact ⟨_, (Repository.mem_advertise hrefs).mpr ⟨n, v, hv, rfl⟩,
        Repository.target_advertOf n v⟩

/-- Nothing of the receiver collides with the server after the fetch either. -/
lemma Pulled.agrees (hp : Pulled L srv accessor r tracked r')
    (honest : HonestServer L srv accessor r) {x : ObjectId} {b b' : Bytes}
    (hb : r'.objects.getRaw L x = .ok (some b))
    (hb' : srv.objects.getRaw L x = .ok (some b')) : b = b' := by
  rcases hp.written.getRaw x with heq | ⟨-, c, ⟨-, hc⟩, hx, hnew⟩
  · rw [heq] at hb
    exact honest.agrees x b b' hb hb'
  · rw [hnew] at hb
    rw [← hx, hb'] at hc
    cases hb
    cases hc
    rfl

/-- What both stores read, they read alike. -/
lemma Pulled.object_eq (hp : Pulled L srv accessor r tracked r')
    (honest : HonestServer L srv accessor r) {x : ObjectId}
    (hx : (r'.objects.object L x).isSome) (hx' : (srv.objects.object L x).isSome) :
    r'.objects.object L x = srv.objects.object L x := by
  obtain ⟨o, ho⟩ := Option.isSome_iff_exists.mp hx
  obtain ⟨o', ho'⟩ := Option.isSome_iff_exists.mp hx'
  obtain ⟨b, hb, hd⟩ := ObjectStore.get_eq_some.mp (ObjectStore.object_eq_some.mp ho)
  obtain ⟨b', hb', hd'⟩ := ObjectStore.get_eq_some.mp (ObjectStore.object_eq_some.mp ho')
  rw [hp.agrees honest hb hb', hd'] at hd
  rw [ho, ho', Except.ok.inj hd]

/-- **What a fetch leaves can be read** where the receiver could read it or was offered it. -/
lemma Pulled.isSome_iff (hp : Pulled L srv accessor r tracked r')
    (honest : HonestServer L srv accessor r) {x : ObjectId}
    (hx : (srv.objects.object L x).isSome) :
    (r'.objects.object L x).isSome ↔
      (r.objects.object L x).isSome ∨ Offered L srv accessor r x := by
  obtain ⟨o, ho⟩ := Option.isSome_iff_exists.mp hx
  obtain ⟨b, hb, hd⟩ := ObjectStore.get_eq_some.mp (ObjectStore.object_eq_some.mp ho)
  constructor
  · intro h
    rcases hp.written.getRaw x with heq | ⟨-, c, ⟨hoffer, -⟩, rfl, -⟩
    · left
      rwa [ObjectStore.object, ← ObjectStore.get_congr heq]
    · exact Or.inr hoffer
  · rintro (h | h)
    · obtain ⟨o, ho⟩ := Option.isSome_iff_exists.mp h
      rw [hp.written.grows x o ho]
      rfl
    · obtain ⟨c, hc⟩ := hp.reads x h
      obtain rfl := hp.agrees honest hc hb
      rw [ObjectStore.object_eq_some.mpr (ObjectStore.get_eq_some.mpr ⟨c, hc, hd⟩)]
      rfl

end Fetch

/-! ### Complete histories -/

/-- A fetch from an honest server leaves complete histories exactly when the receiver is
covered. -/
lemma complete_iff_covers {L : Linked} {r r' srv : Repository} {accessor : Accessor}
    {remote : String} {mtime : Option ℕ} {tracked : List (RefName × ObjectId)}
    (honest : HonestServer L srv accessor r)
    (hfetch : r.fetch L mtime remote (serverPeer L srv accessor) = (.ok tracked, r')) :
    (∀ t ∈ tracked, Complete L r'.objects t.2) ↔ FetchCovers L srv accessor r := by
  have hp := pulled_of_fetch honest hfetch
  constructor
  · intro hcomplete n v x hv hx
    obtain ⟨t, ht, htarget⟩ := (hp.targets v.target).mpr ⟨n, v, hv, rfl⟩
    have hc := hcomplete t ht
    rw [htarget] at hc
    -- the closure of the server is walked in the receiver too
    have hwalk : Closure L r'.objects [v.target] x := by
      induction hx with
      | root hx hs => exact .root hx hs
      | step hreach hy hs ih =>
          refine .step ih ?_ hs
          rwa [outEdges, hp.object_eq honest (hc _ ih) (honest.complete n v _ hv hreach)]
    exact (hp.isSome_iff honest (honest.complete n v x hv hx)).mp (hc x hwalk)
  · intro hcovers t ht
    obtain ⟨n, v, hv, htarget⟩ := (hp.targets t.2).mp ⟨t, ht, rfl⟩
    rw [← htarget]
    have hsome : ∀ x, Closure L srv.objects [v.target] x → (r'.objects.object L x).isSome :=
      fun x hx => (hp.isSome_iff honest (honest.complete n v x hv hx)).mpr (hcovers n v x hv hx)
    have hagree : ∀ x, Closure L srv.objects [v.target] x →
        r'.objects.object L x = srv.objects.object L x :=
      fun x hx => hp.object_eq honest (hsome x hx) (honest.complete n v x hv hx)
    intro x hx
    exact hsome x ((closure_iff_of_agree hagree).mp hx)

/-- **Fetched histories.**  At every point of every run of a receiver, a fetch from an honest
server that returns `Ok` leaves complete histories behind its tracking refs exactly when the
receiver is covered before it. -/
theorem fetch_completes_iff {L : Linked} (ops : List ReceiverOp) (r₀ : Repository)
    {srv : Repository} {accessor : Accessor} {remote : String} {mtime : Option ℕ} {i : ℕ}
    {tracked : List (RefName × ObjectId)}
    (hi : ops[i]? = some (.fetch remote (serverPeer L srv accessor) mtime))
    (honest : HonestServer L srv accessor (receiverRun L (ops.take i) r₀))
    (hfetch : ((receiverRun L (ops.take i) r₀).fetch L mtime remote
      (serverPeer L srv accessor)).1 = .ok tracked) :
    (∀ t ∈ tracked, Complete L (receiverRun L (ops.take (i + 1)) r₀).objects t.2) ↔
      FetchCovers L srv accessor (receiverRun L (ops.take i) r₀) := by
  have hstep : receiverRun L (ops.take (i + 1)) r₀ =
      ((receiverRun L (ops.take i) r₀).fetch L mtime remote (serverPeer L srv accessor)).2 := by
    rw [receiverRun, List.take_add_one, hi, List.foldl_append]
    rfl
  rw [hstep]
  exact complete_iff_covers honest (Prod.ext hfetch rfl)

/-- A receiver that can read what it lists, and lists the children of what it lists, is
covered. -/
lemma covers_of_closed {L : Linked} {srv r : Repository} {accessor : Accessor}
    (honest : HonestServer L srv accessor r)
    (hclosed : ∀ x ∈ r.objects.list, ∃ obj, r.objects.object L x = some obj ∧
      ∀ y ∈ childEdges obj, y ∈ r.objects.list) : FetchCovers L srv accessor r := by
  have hread : ∀ x ∈ r.objects.list, (r.objects.object L x).isSome := by
    intro x hx
    obtain ⟨obj, hobj, -⟩ := hclosed x hx
    rw [hobj]
    rfl
  intro n v x hv hx
  suffices h : x ∈ r.objects.list ∨ Offered L srv accessor r x from h.imp_left (hread x)
  induction hx with
  | @root x hx hs =>
      by_cases hlist : x ∈ r.objects.list
      · exact Or.inl hlist
      · exact Or.inr ⟨n, v, hv, .root hx (by simpa using hlist)⟩
  | @step y x hreach hy hs ih =>
      by_cases hlist : x ∈ r.objects.list
      · exact Or.inl hlist
      rcases ih with hylist | ⟨n', v', hv', hoffer⟩
      · -- the receiver has the parent, and with it its children
        obtain ⟨obj, hobj, hchildren⟩ := hclosed y hylist
        obtain ⟨obj', hobj'⟩ := Option.isSome_iff_exists.mp (honest.complete n v y hv hreach)
        obtain ⟨b, hb, hd⟩ := ObjectStore.get_eq_some.mp (ObjectStore.object_eq_some.mp hobj)
        obtain ⟨b', hb', hd'⟩ := ObjectStore.get_eq_some.mp (ObjectStore.object_eq_some.mp hobj')
        rw [honest.agrees y b b' hb hb', hd'] at hd
        rw [outEdges_of_object hobj', Except.ok.inj hd] at hy
        exact Or.inl (hchildren x hy)
      · exact Or.inr ⟨n', v', hv', .step hoffer hy (by simpa using hlist)⟩

/-! ### A snapshot without its tree -/

/-- A server that stores the children of what it stores, and what its refs point at, is
honest. -/
lemma honest_of_closed {L : Linked} {srv r : Repository} {accessor : Accessor}
    (hwf : srv.objects.WF L)
    (hrefs : ∀ n v, srv.refs.get n = some v → v.target ∈ srv.objects.list)
    (hclosed : ∀ x ∈ srv.objects.list, (srv.objects.object L x).isSome ∧
      ∀ y ∈ outEdges L srv.objects childEdges x, y ∈ srv.objects.list)
    (hsized : ∀ x ∈ srv.objects.list,
      ((srv.objects.getRaw L x).toOption.bind id).all fun b => decide (b.length < 2 ^ 64))
    (hagrees : ∀ x ∈ r.objects.list, r.objects.getRaw L x = srv.objects.getRaw L x) :
    HonestServer L srv accessor r where
  complete n v x hv hx := by
    refine (hclosed x (hx.mem_of_closed (fun y hy _ => ?_) fun y hy z hz _ => ?_)).1
    · rw [List.mem_singleton.mp hy]
      exact hrefs n v hv.get
    · exact (hclosed y hy).2 z hz
  addressed _ _ hb := hwf.addressed hb
  sized x b hb := by
    have h := hsized x (ObjectStore.listed_of_getRaw hb)
    simpa [hb, Except.toOption] using h
  agrees x b b' hb hb' := by
    rw [hagrees x (ObjectStore.listed_of_getRaw hb), hb'] at hb
    cases hb
    rfl

namespace Repository

/-- A client that pushes a snapshot without its tree. -/
def shallowClient : Peer Message Error :=
  Session.scripted (.storage "connection closed") [.hello .push,
    .pack ((pushRepo.buildPack pushLinked [pushId 4]).toOption.getD []),
    .refUpdate [⟨pushName, none, pushId 4⟩]]

/-- The push is denied. -/
example :
    (serve pushLinked none fullWriter shallowClient (.start memory)).2.sent.getLast? =
      some (.refStatus [⟨pushName, .denied "incomplete object closure"⟩]) := by
  decide +kernel

/-- The fetch from the server that has it all. -/
def fetchAll : ReceiverOp := .fetch "origin" (serverPeer pushLinked pushRepo .new) none

lemma valid_trackedMain : refNameError "refs/remotes/origin/main" = none := by decide +kernel

/-- What the fetch tracks. -/
def fetchTracked : List (RefName × ObjectId) :=
  [(⟨"refs/remotes/origin/main", valid_trackedMain⟩, pushId 4)]

lemma pushRepo_honest {r : Repository}
    (hagrees : ∀ x ∈ r.objects.list,
      r.objects.getRaw pushLinked x = pushRepo.objects.getRaw pushLinked x) :
    HonestServer pushLinked pushRepo .new r := by
  have hobjects : pushRepo.objects = .holding pushLinked pushObjects := by rw [pushRepo]
  refine honest_of_closed ?_ (fun n v hv => ?_) (by decide +kernel) (by decide +kernel) hagrees
  · rw [hobjects]
    exact ObjectStore.holding_wf pushLinked pushObjects
  · have hrefs : pushRepo.refs = ⟨(∅ : BTreeMap RefName Ref).insert pushName
        (.timeline ⟨pushId 4, .fastForwardOnly, 0, "persistent", none⟩)⟩ := by rw [pushRepo]
    have hhead : pushId 4 ∈ pushRepo.objects.list := by decide +kernel
    rw [hrefs] at hv
    rw [RefStore.get_single hv]
    exact hhead

/-- **A tree that is never fetched.**  A denied push has left its snapshot with the receiver. -/
theorem fetch_leaves_gap :
    ¬ ∀ (L : Linked) (ops : List ReceiverOp) (srv : Repository) (accessor : Accessor)
      (remote : String) (mtime : Option ℕ) (i : ℕ) (tracked : List (RefName × ObjectId)),
      ops[i]? = some (.fetch remote (serverPeer L srv accessor) mtime) →
      HonestServer L srv accessor (receiverRun L (ops.take i) memory) →
      ((receiverRun L (ops.take i) memory).fetch L mtime remote (serverPeer L srv accessor)).1 =
        .ok tracked →
      ∀ t ∈ tracked, Complete L (receiverRun L (ops.take (i + 1)) memory).objects t.2 := by
  intro h
  have hagrees : ∀ x ∈ (receiverRun pushLinked [.serve fullWriter shallowClient none]
      memory).objects.list, (receiverRun pushLinked [.serve fullWriter shallowClient none]
        memory).objects.getRaw pushLinked x = pushRepo.objects.getRaw pushLinked x := by
    decide +kernel
  have hok : ((receiverRun pushLinked [.serve fullWriter shallowClient none] memory).fetch
      pushLinked none "origin" (serverPeer pushLinked pushRepo .new)).1 = .ok fetchTracked := by
    decide +kernel
  have hcomplete := h pushLinked [.serve fullWriter shallowClient none, fetchAll] pushRepo .new
    "origin" none 1 fetchTracked rfl (pushRepo_honest hagrees) hok _ List.mem_cons_self
  have hclosure : Closure pushLinked (receiverRun pushLinked
      [.serve fullWriter shallowClient none, fetchAll] memory).objects [pushId 4] (pushId 2) :=
    .step (.root List.mem_cons_self rfl) (by decide +kernel) rfl
  have hgap : ((receiverRun pushLinked [.serve fullWriter shallowClient none, fetchAll]
      memory).objects.object pushLinked (pushId 2)).isSome = false := by decide +kernel
  rw [show [ReceiverOp.serve fullWriter shallowClient none, fetchAll].take (1 + 1) =
    [.serve fullWriter shallowClient none, fetchAll] from rfl] at hcomplete
  have hread := hcomplete (pushId 2) hclosure
  rw [hgap] at hread
  cases hread

lemma receiverRun_single (L : Linked) (op : ReceiverOp) (r : Repository) :
    receiverRun L ([op].take 0) r = r ∧ [op].take (0 + 1) = [op] := ⟨rfl, rfl⟩

/-- An empty receiver fetches the whole history. -/
theorem fetch_completes_empty :
    (memory.fetch pushLinked none "origin" (serverPeer pushLinked pushRepo .new)).1 =
        .ok fetchTracked ∧
      ∀ t ∈ fetchTracked,
        Complete pushLinked (receiverRun pushLinked [fetchAll] memory).objects t.2 := by
  have hok : (memory.fetch pushLinked none "origin" (serverPeer pushLinked pushRepo .new)).1 =
      .ok fetchTracked := by decide +kernel
  have hempty : memory.objects.list = [] := by decide +kernel
  have honest : HonestServer pushLinked pushRepo .new memory :=
    pushRepo_honest fun x hx => by rw [hempty] at hx; cases hx
  have hcovers : FetchCovers pushLinked pushRepo .new memory :=
    covers_of_closed honest fun x hx => by rw [hempty] at hx; cases hx
  refine ⟨hok, ?_⟩
  obtain ⟨hbefore, hafter⟩ := receiverRun_single pushLinked fetchAll memory
  rw [← hafter]
  rw [← hbefore] at honest hok hcovers
  exact (fetch_completes_iff [fetchAll] memory rfl honest hok).mpr hcovers

end Repository

end Bole
