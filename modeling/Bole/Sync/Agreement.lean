import Bole.Repo.Access
import Bole.Sync.Negotiate
import Bole.Sync.PushSession

/-!
A push between two repositories of one process (`push` of `src/sync/mod.rs`) against a push over a
connection (`client_push` and `serve` of `src/sync/session.rs`).

In one process the fast-forward check comes before the objects do, and nothing looks whether the
new head is complete.  Over a connection the objects land first.

* `wirePush_eq_ok`: what a push over a connection has done once it returns;
* `delivered`: after either transfer the peer reads what is below the new heads as the sender does;
* `planLoop_accepted`: the two accept the same updates;
* `applyOps_alike`: and their transactions have the same effect, up to how a timeline is created;
* `push_agrees`: so the two leave the same refs.
-/

namespace Bole

open Talk Traverse Repository

/-- What the peer at the other end of a connection says when it is gone. -/
def connectionClosed : Error := .storage "connection closed"

/-- A push from `self` to `dest` over a connection between the two: what the client returns, and the
server after the session. -/
def wirePush (L : Linked) (mtime : Option ℕ) (remote : String) (timelines : List RefName)
    (accessor : Accessor) (self dest : Repository) : Result (List RefStatusEntry) × Repository :=
  ((clientPush L remote timelines
      (Session.served connectionClosed (serve L mtime accessor) dest) (.start self)).1,
    (serve L mtime accessor
      (Session.served connectionClosed (clientPush L remote timelines) self) (.start dest)).2.world)

/-! ### A push over a connection -/

section Wire

variable {L : Linked} {mtime : Option ℕ} {remote : String} {timelines : List RefName}
  {accessor : Accessor} {self dest dest' : Repository} {refs : List RefAdvert}
  {ops : List RefUpdateOp} {pack : Bytes} {statuses : List RefStatusEntry}

/-- What the server says to a client that has said hello. -/
lemma pushServer_welcome :
    (Session.served connectionClosed (serve L mtime accessor) dest).recv [.hello .push] 0 =
      match dest.advertise accessor with
      | .ok refs => .ok (.welcome refs)
      | .error _ => .error connectionClosed := by
  cases hrefs : dest.advertise accessor with
  | error e =>
      simp [Session.served, serve, pushSession, Session.recv, Session.scripted, Session.ask,
        Stage.start, hrefs]
  | ok refs =>
      simp [Session.served, serve, pushSession, Session.recv, Session.scripted, Session.ask,
        Session.send, Stage.start, hrefs]

/-- What the server does with a pack and operations. -/
def applyPack (L : Linked) (mtime : Option ℕ) (accessor : Accessor) (dest : Repository)
    (pack : Bytes) (ops : List RefUpdateOp) : Result (List RefStatusEntry) × Repository :=
  match decodePack L.toCrates pack with
  | .error e => (.error e, dest)
  | .ok decoded =>
      if !accessor.hasWriteCapability then
        (.ok (ops.map fun op => ⟨op.name, .denied "no write capability"⟩), dest)
      else
        match land L mtime decoded dest with
        | (.error e, dest) => (.error e, dest)
        | (.ok (), dest) => dest.applyPushOps L accessor ops

/-- The server's run against any peer that says hello and sends a pack and operations. -/
lemma serve_push_run (L : Linked) (mtime : Option ℕ) (client : Peer Message Error)
    (pack : Bytes) (ops : List RefUpdateOp) (hrefs : dest.advertise accessor = .ok refs)
    (hsend : ∀ l m, client.send l m = .ok ())
    (hhello : client.recv [] 0 = .ok (.hello .push))
    (hpack : client.recv [.welcome refs] 1 = .ok (.pack pack))
    (hops : client.recv [.welcome refs] 2 = .ok (.refUpdate ops)) :
    (serve L mtime accessor client (.start dest)).2.world =
        (applyPack L mtime accessor dest pack ops).2 ∧
      (serve L mtime accessor client (.start dest)).2.sent =
        match (applyPack L mtime accessor dest pack ops).1 with
        | .ok results => [.welcome refs, .refStatus results]
        | .error _ => [.welcome refs] := by
  rw [applyPack]
  simp only [serve, pushSession, Session.bind_apply, Session.recv, Session.ask, Session.send,
    Stage.start, hhello, hrefs, hsend, hpack, List.nil_append]
  cases hdecode : decodePack L.toCrates pack with
  | error e => simp
  | ok decoded =>
      cases hwrite : accessor.hasWriteCapability with
      | false => simp [hops, hsend, Session.send]
      | true =>
          cases hland : land L mtime decoded dest with
          | mk result dest₁ =>
              cases result with
              | error e => simp [hops, hland, Session.act]
              | ok u =>
                  cases happly : dest₁.applyPushOps L accessor ops with
                  | mk results dest₂ =>
                      cases results with
                      | error e => simp [hops, hland, happly, Session.act]
                      | ok results => simp [hops, hland, happly, hsend, Session.act, Session.send]

/-- What the server says to a pack and operations. -/
lemma pushServer_status (hrefs : dest.advertise accessor = .ok refs) :
    (Session.served connectionClosed (serve L mtime accessor) dest).recv
        [.hello .push, .pack pack, .refUpdate ops] 1 =
      match (applyPack L mtime accessor dest pack ops).1 with
      | .ok results => .ok (.refStatus results)
      | .error _ => .error connectionClosed := by
  have hrun := (serve_push_run L mtime
    (Session.scripted connectionClosed [.hello .push, .pack pack, .refUpdate ops]) pack ops
    hrefs (fun _ _ => rfl) rfl rfl rfl).2
  rw [Session.served]
  dsimp only
  rw [hrun]
  cases (applyPack L mtime accessor dest pack ops).1 <;> rfl

/-- What the client says to a server that has greeted it. -/
lemma pushClient_sent (hops : self.pushOps remote timelines = .ok ops)
    (hpack : self.pushPack L ops (refs.map RefAdvert.target) = .ok pack) :
    (clientPush L remote timelines (Session.scripted connectionClosed [.welcome refs])
      (.start self)).2.sent = [.hello .push, .pack pack, .refUpdate ops] := by
  simp [clientPush, Session.recv, Session.ask, Session.send, Session.scripted, Stage.start, hops,
    hpack]

/-- **What a push over a connection has done** once it returns. -/
lemma wirePush_eq_ok
    (h : wirePush L mtime remote timelines accessor self dest = (.ok statuses, dest')) :
    ∃ refs ops pack, dest.advertise accessor = .ok refs ∧
      self.pushOps remote timelines = .ok ops ∧
      self.pushPack L ops (refs.map RefAdvert.target) = .ok pack ∧
      applyPack L mtime accessor dest pack ops = (.ok statuses, dest') := by
  obtain ⟨hclient, hserver⟩ := Prod.mk.inj h
  have hsend : ∀ (l : List Message) (m : Message),
      (Session.served connectionClosed (serve L mtime accessor) dest).send l m = .ok () :=
    fun _ _ => rfl
  simp only [clientPush, Session.bind_apply, Session.send, Session.recv, Stage.start, hsend,
    List.nil_append, pushServer_welcome] at hclient
  cases hrefs : dest.advertise accessor with
  | error e => simp [hrefs] at hclient
  | ok refs =>
      simp only [hrefs, Session.bind_apply, Session.ask] at hclient
      cases hops : self.pushOps remote timelines with
      | error e => simp [hops] at hclient
      | ok ops =>
          simp only [hops] at hclient
          cases hpack : self.pushPack L ops (refs.map RefAdvert.target) with
          | error e => simp [hpack] at hclient
          | ok pack =>
              refine ⟨refs, ops, pack, rfl, rfl, hpack, ?_⟩
              simp only [hpack, Session.send, Session.recv, hsend, List.cons_append,
                List.nil_append, pushServer_status hrefs] at hclient
              have hworld := (serve_push_run L mtime
                (Session.served connectionClosed (clientPush L remote timelines) self)
                pack ops hrefs (fun _ _ => rfl) rfl
                (by rw [Session.served]; simp [pushClient_sent hops hpack])
                (by rw [Session.served]; simp [pushClient_sent hops hpack])).1
              refine Prod.ext ?_ (hworld.symm.trans hserver)
              cases happly : (applyPack L mtime accessor dest pack ops).1 with
              | error e => simp [happly] at hclient
              | ok results =>
                  simp only [happly, Session.bind_apply, Session.act] at hclient
                  cases htrack : trackPushed remote ops results self with
                  | mk result self' =>
                      cases result with
                      | error e => simp [htrack] at hclient
                      | ok u => simpa [htrack, pure, Session.ret] using hclient

end Wire

/-! ### What a transfer delivers -/

/-- A sender and a peer without gaps.  The sender's objects hash to their ids and can be counted
in 64 bits, and nothing of the peer collides with them.  The peer stores, with every object, the
objects below it, and it stores what it serves. -/
structure Gapless (L : Linked) (accessor : Accessor) (src dest : Repository) : Prop where
  addressed : ∀ x b, src.objects.getRaw L x = .ok (some b) → L.fromContent b = x
  sized : ∀ x b, src.objects.getRaw L x = .ok (some b) → b.length < 2 ^ 64
  agrees : ∀ x b b', dest.objects.getRaw L x = .ok (some b) →
    src.objects.getRaw L x = .ok (some b') → b = b'
  closed : ∀ x ∈ dest.objects.list, ∃ obj, dest.objects.object L x = some obj ∧
    ∀ y ∈ childEdges obj, y ∈ dest.objects.list
  held : ∀ n v, ServedRef dest accessor n v → v.target ∈ dest.objects.list

section Delivery

variable {L : Linked} {mtime : Option ℕ} {accessor : Accessor} {self dest : Repository}
  {t : ObjectStore} {head x : ObjectId}

/-- The objects of the two are those of a sender and a receiver without gaps. -/
lemma Gapless.receives (g : Gapless L accessor self dest) : Receives L self.objects dest.objects :=
  ⟨g.addressed, g.agrees, g.closed⟩

/-- What the peer lists is complete. -/
lemma Gapless.complete (g : Gapless L accessor self dest) (hx : x ∈ dest.objects.list) :
    Complete L dest.objects x := by
  intro y hy
  have hlist : y ∈ dest.objects.list := by
    refine hy.mem_of_closed (fun z hz _ => by rwa [List.mem_singleton.mp hz]) fun z hz w hw _ => ?_
    obtain ⟨obj, hobj, hchildren⟩ := g.closed z hz
    rw [outEdges_of_object hobj] at hw
    exact hchildren w hw
  obtain ⟨obj, hobj, -⟩ := g.closed y hlist
  rw [hobj]
  rfl

/-- The peer after a transfer: it reads what it has read, and below the complete heads what the
sender reads. -/
structure Delivered (L : Linked) (src dest dest₁ : Repository) (heads : List ObjectId) : Prop where
  rest : dest₁ = { dest with objects := dest₁.objects }
  grows : dest.objects.Grows L dest₁.objects
  reads : ∀ head ∈ heads, Complete L src.objects head → ∀ x, Closure L src.objects [head] x →
    dest₁.objects.object L x = src.objects.object L x

/-- **What is delivered** by a transfer around objects that the peer lists. -/
lemma Gapless.delivered (g : Gapless L accessor self dest) {wants have_ : List ObjectId}
    (hhave : ∀ y ∈ have_, y ∈ dest.objects.list) {objects : List (ObjectId × Bytes)}
    (hobjects : ∀ p, p ∈ objects ↔ (ReachVia L self.objects childEdges
        (fun id => decide (id ∈ have_.toFinset)) wants p.1 ∧
      (self.objects.object L p.1).isSome) ∧ self.objects.getRaw L p.1 = .ok (some p.2))
    (hland : ObjectStore.land L mtime objects dest.objects = (.ok (), t)) :
    Delivered L self dest { dest with objects := t } wants := by
  have hwritten := ObjectStore.land_written L mtime objects dest.objects
  rw [hland] at hwritten
  exact ⟨rfl, hwritten.grows, fun head hwant hcomplete x hx =>
    g.receives.delivered hhave hobjects hland hwant hcomplete hx⟩

/-- A transfer between two repositories of one process. -/
lemma syncTransfer_delivered (g : Gapless L accessor self dest) {wants : List ObjectId} {k : ℕ}
    {dest₁ : Repository}
    (h : InProcess.syncTransfer L mtime self wants dest = (.ok k, dest₁)) :
    Delivered L self dest dest₁ wants := by
  obtain ⟨objects, hobjects, hland, hrest⟩ := syncTransfer_landed g.sized h
  rw [hrest]
  exact g.delivered (fun _ hy => hy) hobjects hland

/-- The end of a push over a connection: it is refused as a whole, or the operations are applied to
what has been delivered. -/
lemma applyPack_eq_ok (g : Gapless L accessor self dest) {refs : List RefAdvert}
    {ops : List RefUpdateOp} {pack : Bytes} {statuses : List RefStatusEntry} {dest' : Repository}
    (hrefs : dest.advertise accessor = .ok refs)
    (hpack : self.pushPack L ops (refs.map RefAdvert.target) = .ok pack)
    (h : applyPack L mtime accessor dest pack ops = (.ok statuses, dest')) :
    (accessor.hasWriteCapability = false ∧ dest' = dest ∧
        statuses = ops.map fun op => ⟨op.name, .denied "no write capability"⟩) ∨
      ∃ dest₁, Delivered L self dest dest₁ (ops.map RefUpdateOp.newHead) ∧
        dest₁.applyPushOps L accessor ops = (.ok statuses, dest') := by
  rw [applyPack] at h
  split at h
  · cases h
  · next decoded hdecode =>
      split_ifs at h with hwrite
      · cases h
        exact .inl ⟨by simpa using hwrite, rfl, rfl⟩
      · split at h
        · cases h
        · next dest₁ hland =>
            refine .inr ⟨dest₁, ?_, h⟩
            rw [land] at hland
            obtain ⟨hok, rfl⟩ := Prod.mk.inj hland
            rw [pushPack, Result.bind_eq_ok] at hpack
            obtain ⟨missing, hmissing, hpack⟩ := hpack
            obtain ⟨objects, entries, digest, hfinish, hobjects⟩ :=
              buildPack_objects hmissing hpack
            obtain rfl : decoded = objects := decodePack_finish_sound hfinish
              (fun p hp => g.sized _ _ ((hobjects p).mp hp).2) hdecode
            refine g.delivered (fun y hy => ?_) hobjects (Prod.ext hok rfl)
            obtain ⟨ad, had, rfl⟩ := List.mem_map.mp hy
            obtain ⟨n, v, hv, rfl⟩ := (mem_advertise hrefs).mp had
            rw [target_advertOf]
            exact g.held n v hv

end Delivery

/-! ### The same verdicts -/

section Verdicts

variable {L : Linked} {remote : String} {accessor : Accessor} {self dest dest₁ dest₂ : Repository}
  {b : PushBinding} {heads : List ObjectId} {head : ObjectId}

/-- What is delivered below a complete head is complete. -/
lemma Delivered.complete (d : Delivered L self dest dest₁ heads) (hhead : head ∈ heads)
    (hcomplete : Complete L self.objects head) : Complete L dest₁.objects head := by
  intro x hx
  rw [closure_iff_of_agree (d.reads head hhead hcomplete)] at hx
  rw [d.reads head hhead hcomplete x hx]
  exact hcomplete x hx

/-- A deterministic registry looks at the ancestry only. -/
lemma evaluateReplayable_congr {reg : PolicyRegistry} (hdet : reg.deterministic = true)
    {ctx ctx' : PolicyContext} {n : RefName} {old new : ObjectId}
    (he : ctx.event = .advance n old new) (he' : ctx'.event = .advance n old new)
    (hrefs : ctx.refs = ctx'.refs)
    (hancestor : isAncestor L ctx.objects old new = isAncestor L ctx'.objects old new) :
    reg.evaluateReplayable L ctx = reg.evaluateReplayable L ctx' := by
  rw [PolicyRegistry.evaluateReplayable_eq hdet, PolicyRegistry.evaluateReplayable_eq hdet,
    PolicyRegistry.evaluate, PolicyRegistry.evaluate]
  refine List.foldl_ext _ _ _ fun d h hmem => ?_
  have hhook : h.deterministic = true := List.all_eq_true.mp hdet h hmem
  cases h with
  | timelinePolicy =>
      simp only [PolicyHook.check, PolicyHook.checkTimelinePolicy, he, he', hrefs, hancestor]
  | signedApproval => cases hhook

/-- The hooks say the same of two deliveries of a complete head. -/
lemma policy_congr (accessor : Accessor) (hdet : b.registry.deterministic = true)
    (d₁ : Delivered L self dest dest₁ heads) {heads₂ : List ObjectId}
    (d₂ : Delivered L self dest dest₂ heads₂) {op : RefUpdateOp} (h₁ : op.newHead ∈ heads)
    (h₂ : op.newHead ∈ heads₂) (hcomplete : Complete L self.objects op.newHead)
    (peer : Timeline) :
    b.registry.evaluateReplayable L (dest₁.pushContext accessor op peer) =
      b.registry.evaluateReplayable L (dest₂.pushContext accessor op peer) := by
  refine evaluateReplayable_congr hdet rfl rfl ?_ ?_
  · rw [pushContext, pushContext, d₁.rest, d₂.rest]
  · rw [pushContext, pushContext,
      isAncestor_congr hcomplete (d₁.reads op.newHead h₁ hcomplete),
      isAncestor_congr hcomplete (d₂.reads op.newHead h₂ hcomplete)]

/-- The fast-forward check of a head that the peer has comes out the same before and after. -/
lemma fastForward_congr (g : Gapless L accessor self dest)
    (d : Delivered L self dest dest₁ heads) (hhead : head ∈ dest.objects.list) {old : ObjectId}
    {a a₁ : Option ObjectId} (ha : findCommonAncestor L dest.objects old head = .ok a)
    (ha₁ : findCommonAncestor L dest₁.objects old head = .ok a₁) :
    a = some old ↔ a₁ = some old := by
  have hagree : ∀ x, x ∈ dest.objects.list →
      dest₁.objects.object L x = dest.objects.object L x := by
    intro x hx
    obtain ⟨obj, hobj, -⟩ := g.closed x hx
    rw [hobj, d.grows x obj hobj]
  have hbelow : ∀ x y, x ∈ dest.objects.list → Closure L dest.objects [x] y →
      y ∈ dest.objects.list := by
    intro x y hx hy
    obtain ⟨obj, hobj⟩ := Option.isSome_iff_exists.mp (g.complete hx y hy)
    exact ObjectStore.listed_of_object hobj
  by_cases hold : old ∈ dest.objects.list
  · have hsame := findCommonAncestor_congr (t := dest₁.objects) (g.complete hold)
      (g.complete hhead) fun x hx => hagree x (hx.elim (hbelow old x hold) (hbelow head x hhead))
    rw [ha, ha₁] at hsame
    rw [Except.ok.inj hsame]
  · -- an old head that the peer does not have is no ancestor of one that it has
    have hno : ¬ Descends L dest.objects head old := fun h => hold (hbelow head old hhead h.closure)
    have hno₁ : ¬ Descends L dest₁.objects head old := by
      intro h
      have hback : ∀ x, Closure L dest₁.objects [head] x →
          dest.objects.object L x = dest₁.objects.object L x := fun x hx =>
        (hagree x (hbelow head x hhead
          ((closure_iff_of_agree fun y hy => hagree y (hbelow head y hhead hy)).mp hx))).symm
      exact hno (h.of_agree hback)
    constructor
    · rintro rfl
      exact absurd (findCommonAncestor_some ha).2 hno
    · rintro rfl
      exact absurd (findCommonAncestor_some ha₁).2 hno₁

/-- What the first loop of `push` makes of a name, and what the gate of the server makes of its
update: both refuse, or both let it pass. -/
lemma planEntry_gateOp (g : Gapless L accessor self dest) (d : Delivered L self dest dest₁ heads)
    (hdet : b.registry.deterministic = true) {name tracking : RefName} {T : Timeline}
    {seen : Option Tag} (hT : self.refs.getTimeline name = .ok (some T))
    (htracking : trackingRef remote name = .ok tracking)
    (hseen : self.refs.getTag tracking = .ok seen) (hhead : T.head ∈ heads)
    (hcomplete : HeadComplete L self.objects T.head)
    (hpresent : ∀ tag peer, seen = some tag → dest.refs.get name = some (.timeline peer) →
      peer.policy ≠ .unrestricted → T.head ∈ dest.objects.list)
    {p : Except InProcess.PushStatus InProcess.PushEntry}
    (hp : InProcess.planEntry L self dest remote accessor b name = .ok p)
    {q : Except RefApplyStatus (Option Timeline)}
    (hq : dest₁.gateOp L accessor b ⟨name, seen.map Tag.target, T.head⟩ = .ok q) :
    (∃ status status', p = .error status ∧ q = .error status') ∨
      ∃ current, p = .ok ⟨name, seen.map Tag.target, tracking, T⟩ ∧ q = .ok current ∧
        dest.refs.getTimeline name = .ok current := by
  have hrefs : dest₁.refs = dest.refs := by rw [d.rest]
  rw [InProcess.planEntry] at hp
  rw [gateOp] at hq
  by_cases hreserved : (name.startsWith "refs/policy/" || name.startsWith "refs/collab/") = true
  · rw [if_pos hreserved] at hp hq
    cases hp
    cases hq
    exact .inl ⟨_, _, rfl, rfl⟩
  rw [if_neg hreserved] at hp hq
  simp only [hT, Result.bind_eq_ok, Except.ok.injEq, exists_eq_left'] at hp
  by_cases hwrite : (!accessor.canWrite (b.rules.labelForTimeline b.lattice name.asStr)
      ⟨.timeline, name.asStr⟩) = true
  · rw [if_pos hwrite] at hp hq
    cases hp
    cases hq
    exact .inl ⟨_, _, rfl, rfl⟩
  rw [if_neg hwrite] at hp hq
  obtain ⟨snap, hsnap⟩ := hcomplete.snapshot
  have hobj := ObjectStore.object_eq_some.mpr (getSnapshot_eq_some.mp hsnap)
  have hobj₁ := (d.reads T.head hhead hcomplete.closure T.head (.root (by simp) rfl)).trans hobj
  have hsnap₁ : dest₁.objects.getSnapshot L T.head = .ok (some snap) :=
    getSnapshot_eq_some.mpr (ObjectStore.object_eq_some.mp hobj₁)
  have hpresent₁ := closurePresent_of_complete (d.complete hhead hcomplete.closure)
  simp only [hdet, htracking, hseen, Bool.not_true, Bool.false_eq_true, if_false,
    Result.bind_eq_ok, Except.ok.injEq, exists_eq_left'] at hp
  simp only [hsnap₁, hpresent₁, hrefs, Bool.not_true, Bool.false_eq_true, if_false,
    Result.bind_eq_ok, Except.ok.injEq, exists_eq_left'] at hq
  obtain ⟨current, hcurrent, hp⟩ := hp
  obtain ⟨current', hcurrent', hq⟩ := hq
  obtain rfl : current = current' := Except.ok.inj (hcurrent.symm.trans hcurrent')
  cases seen with
  | none =>
      cases hp
      cases hq
      exact .inr ⟨current, rfl, rfl, hcurrent⟩
  | some tag =>
      cases current with
      | none =>
          cases hp
          cases hq
          exact .inr ⟨none, rfl, rfl, hcurrent⟩
      | some peer =>
          simp only [Option.map_some, Result.bind_eq_ok] at hp hq
          obtain ⟨anc, hanc, hp⟩ := hp
          obtain ⟨anc₁, hanc₁, hq⟩ := hq
          have hverdict : (peer.policy ≠ .unrestricted ∧ anc ≠ some tag.target) ↔
              (peer.policy ≠ .unrestricted ∧ anc₁ ≠ some tag.target) := by
            refine and_congr_right fun hpolicy => not_congr ?_
            exact fastForward_congr g d (hpresent tag peer rfl
              (RefStore.getTimeline_eq_some.mp hcurrent) hpolicy) hanc hanc₁
          by_cases hstale : peer.policy ≠ .unrestricted ∧ anc ≠ some tag.target
          · rw [if_pos hstale] at hp
            rw [if_pos (hverdict.mp hstale)] at hq
            cases hp
            cases hq
            exact .inl ⟨_, _, rfl, rfl⟩
          · rw [if_neg hstale] at hp
            rw [if_neg fun h => hstale (hverdict.mpr h)] at hq
            cases hp
            cases hq
            exact .inr ⟨some peer, rfl, rfl, hcurrent⟩

/-- The timelines that are pushed are complete, and where a fast-forward is checked the peer has
the new head. -/
structure PushReady (L : Linked) (remote : String) (timelines : List RefName)
    (src dest : Repository) : Prop where
  heads : ∀ name ∈ timelines, ∀ T, src.refs.get name = some (.timeline T) →
    HeadComplete L src.objects T.head
  present : ∀ name ∈ timelines, ∀ T tracking tag peer, src.refs.get name = some (.timeline T) →
    trackingRef remote name = .ok tracking → src.refs.getTag tracking = .ok (some tag) →
    dest.refs.get name = some (.timeline peer) → peer.policy ≠ .unrestricted →
    T.head ∈ dest.objects.list

/-- An entry holds the local timeline of its name. -/
lemma planEntry_local {name : RefName} {e : InProcess.PushEntry}
    (h : InProcess.planEntry L self dest remote accessor b name = .ok (.ok e)) :
    e.name = name ∧ self.refs.get name = some (.timeline e.timeline) := by
  rw [InProcess.planEntry] at h
  by_cases hreserved : (name.startsWith "refs/policy/" || name.startsWith "refs/collab/") = true
  · rw [if_pos hreserved] at h
    cases h
  rw [if_neg hreserved, Result.bind_eq_ok] at h
  obtain ⟨tl, htl, h⟩ := h
  cases tl with
  | none => cases h
  | some T =>
      have hT := RefStore.getTimeline_eq_some.mp htl
      dsimp only at h
      split_ifs at h
      · cases h
      · cases h
      obtain ⟨tracking, -, h⟩ := Result.bind_eq_ok.mp h
      obtain ⟨seen, -, h⟩ := Result.bind_eq_ok.mp h
      obtain ⟨current, -, h⟩ := Result.bind_eq_ok.mp h
      split at h
      · obtain ⟨ancestor, -, h⟩ := Result.bind_eq_ok.mp h
        split_ifs at h
        · cases h
        · cases h
          exact ⟨rfl, hT⟩
      · cases h
        exact ⟨rfl, hT⟩

/-- The plan holds local timelines. -/
lemma planLoop_local {timelines : List RefName} {results : List InProcess.RefResult}
    {plan : List InProcess.PushEntry}
    (h : InProcess.planLoop L self dest remote accessor b timelines = .ok (results, plan)) :
    ∀ e ∈ plan, self.refs.get e.name = some (.timeline e.timeline) := by
  induction timelines generalizing results plan with
  | nil =>
      cases h
      simp
  | cons name rest ih =>
      rw [InProcess.planLoop, Result.bind_eq_ok] at h
      obtain ⟨p, hp, h⟩ := h
      cases p with
      | error status =>
          obtain ⟨⟨rs, plan'⟩, hrest, h⟩ := Result.bind_eq_ok.mp h
          cases h
          exact ih hrest
      | ok entry =>
          obtain ⟨⟨rs, plan'⟩, hrest, h⟩ := Result.bind_eq_ok.mp h
          cases h
          refine List.forall_mem_cons.mpr ⟨?_, ih hrest⟩
          obtain ⟨hname, hT⟩ := planEntry_local hp
          rw [hname]
          exact hT

/-- A timeline that is not there is refused. -/
lemma planEntry_missing {name : RefName} (hT : self.refs.getTimeline name = .ok none)
    {p : Except InProcess.PushStatus InProcess.PushEntry}
    (hp : InProcess.planEntry L self dest remote accessor b name = .ok p) :
    ∃ status, p = .error status := by
  rw [InProcess.planEntry] at hp
  by_cases hreserved : (name.startsWith "refs/policy/" || name.startsWith "refs/collab/") = true
  · rw [if_pos hreserved] at hp
    cases hp
    exact ⟨_, rfl⟩
  · rw [if_neg hreserved] at hp
    simp only [hT, Result.bind_eq_ok, Except.ok.injEq, exists_eq_left'] at hp
    exact ⟨_, hp.symm⟩

/-- **The two accept the same updates.** -/
lemma planLoop_accepted (g : Gapless L accessor self dest) {heads₁ heads₂ : List ObjectId}
    (d₁ : Delivered L self dest dest₁ heads₁) (d₂ : Delivered L self dest dest₂ heads₂)
    (hdet : b.registry.deterministic = true) {timelines : List RefName}
    (ready : PushReady L remote timelines self dest) {results denied : List InProcess.RefResult}
    {plan gated : List InProcess.PushEntry}
    (hplan : InProcess.planLoop L self dest remote accessor b timelines = .ok (results, plan))
    (hheads₁ : ∀ e ∈ plan, e.timeline.head ∈ heads₁)
    (hgate : InProcess.gateLoop L dest₁ accessor b plan = .ok (denied, gated))
    {ops accepted : List RefUpdateOp} {refused : List RefStatusEntry}
    (hops : self.pushOps remote timelines = .ok ops)
    (hheads₂ : ∀ op ∈ ops, op.newHead ∈ heads₂)
    (hcheck : dest₂.checkOps L accessor b ops = .ok (refused, accepted)) :
    accepted = gated.map InProcess.PushEntry.update := by
  have hrefs₁ : dest₁.refs = dest.refs := by rw [d₁.rest]
  induction timelines generalizing results plan denied gated ops accepted refused with
  | nil =>
      cases hplan
      cases hgate
      cases hops
      cases hcheck
      rfl
  | cons name rest ih =>
      have ready' : PushReady L remote rest self dest :=
        ⟨fun n hn => ready.heads n (List.mem_cons_of_mem _ hn),
          fun n hn => ready.present n (List.mem_cons_of_mem _ hn)⟩
      rw [InProcess.planLoop, Result.bind_eq_ok] at hplan
      obtain ⟨p, hp, hplan⟩ := hplan
      rw [pushOps, Result.bind_eq_ok] at hops
      obtain ⟨tl, htl, hops⟩ := hops
      cases tl with
      | none =>
          -- the update is refused on one side and not made on the other
          obtain ⟨status, rfl⟩ := planEntry_missing htl hp
          obtain ⟨⟨rs, plan'⟩, hrest, hplan⟩ := Result.bind_eq_ok.mp hplan
          cases hplan
          exact ih ready' hrest hheads₁ hgate hops hheads₂ hcheck
      | some T =>
          obtain ⟨tracking, htracking, hops⟩ := Result.bind_eq_ok.mp hops
          obtain ⟨seen, hseen, hops⟩ := Result.bind_eq_ok.mp hops
          obtain ⟨ops', hops', hops⟩ := Result.bind_eq_ok.mp hops
          cases hops
          rw [checkOps, Result.bind_eq_ok] at hcheck
          obtain ⟨q, hq, hcheck⟩ := hcheck
          have hget := RefStore.getTimeline_eq_some.mp htl
          have hcomplete := ready.heads name List.mem_cons_self T hget
          have hheads₂' : ∀ op ∈ ops', op.newHead ∈ heads₂ := fun op hop =>
            hheads₂ op (List.mem_cons_of_mem _ hop)
          rcases planEntry_gateOp g d₂ hdet htl htracking hseen
              (hheads₂ _ List.mem_cons_self) hcomplete (fun tag peer hs => ready.present name
                List.mem_cons_self T tracking tag peer hget htracking (hs ▸ hseen)) hp hq with
            ⟨status, status', rfl, rfl⟩ | ⟨current, rfl, rfl, hcurrent⟩
          · obtain ⟨⟨rs, plan'⟩, hrest, hplan⟩ := Result.bind_eq_ok.mp hplan
            obtain ⟨⟨refused', accepted'⟩, hcheck', hcheck⟩ := Result.bind_eq_ok.mp hcheck
            cases hplan
            cases hcheck
            exact ih ready' hrest hheads₁ hgate hops' hheads₂' hcheck'
          · obtain ⟨⟨rs, plan'⟩, hrest, hplan⟩ := Result.bind_eq_ok.mp hplan
            cases hplan
            simp only [InProcess.gateLoop, hrefs₁, hcurrent, Result.bind_eq_ok, Except.ok.injEq,
              exists_eq_left'] at hgate
            obtain ⟨⟨denied', gated'⟩, hgate', hgate⟩ := hgate
            have hheads₁' : ∀ e ∈ plan', e.timeline.head ∈ heads₁ := fun e he =>
              hheads₁ e (List.mem_cons_of_mem _ he)
            cases current with
            | none =>
                obtain ⟨⟨refused', accepted'⟩, hcheck', hcheck⟩ := Result.bind_eq_ok.mp hcheck
                cases hgate
                cases hcheck
                rw [List.map_cons, ih ready' hrest hheads₁' hgate' hops' hheads₂' hcheck']
                rfl
            | some peer =>
                -- the hooks of the peer say the same on both sides
                have hverdict := policy_congr accessor hdet d₁ d₂
                  (hheads₁ _ List.mem_cons_self) (hheads₂ _ List.mem_cons_self)
                  hcomplete.closure peer
                have hkeep : ∀ r a, dest₂.checkOps L accessor b ops' = .ok (r, a) →
                    a = gated'.map InProcess.PushEntry.update :=
                  fun r a => ih ready' hrest hheads₁' hgate' hops' hheads₂'
                simp only [policyOp] at hcheck
                simp only [InProcess.PushEntry.update, hverdict] at hgate
                cases hv : b.registry.evaluateReplayable L (dest₂.pushContext accessor
                    ⟨name, seen.map Tag.target, T.head⟩ peer) with
                | allow =>
                    simp only [hv] at hcheck hgate
                    obtain ⟨⟨refused', accepted'⟩, hcheck', hcheck⟩ := Result.bind_eq_ok.mp hcheck
                    cases hgate
                    cases hcheck
                    rw [List.map_cons, hkeep _ _ hcheck']
                    rfl
                | deny reason =>
                    simp only [hv] at hcheck hgate
                    obtain ⟨⟨refused', accepted'⟩, hcheck', hcheck⟩ := Result.bind_eq_ok.mp hcheck
                    cases hgate
                    cases hcheck
                    exact hkeep _ _ hcheck'
                | requiresApproval reason needed =>
                    simp only [hv] at hcheck hgate
                    obtain ⟨⟨refused', accepted'⟩, hcheck', hcheck⟩ := Result.bind_eq_ok.mp hcheck
                    cases hgate
                    cases hcheck
                    exact hkeep _ _ hcheck'

end Verdicts

/-! ### The same transactions -/

/-- A ref after the two pushes: it is the same, or it is a timeline that both have created, one as
it is with the sender and the other one with the default fields. -/
def Alike (src dest : RefStore) (n : RefName) (v w : Option Ref) : Prop :=
  v = w ∨ (dest.get n = none ∧ ∃ T : Timeline, src.get n = some (.timeline T) ∧
    v = some (.timeline T) ∧
    w = some (.timeline ⟨T.head, .fastForwardOnly, 0, "persistent", none⟩))

/-- What holds between the two transactions after each operation. -/
structure AlikeMaps (src dest : RefStore) (m m' : RefMap) : Prop where
  alike : ∀ n, Alike src dest n (m n) (m' n)
  kept : ∀ n, m n = none → dest.get n = none

section Transactions

variable {src dest : RefStore} {m m' : RefMap} {e : InProcess.PushEntry}
  {gated : List InProcess.PushEntry}

lemma AlikeMaps.update (h : AlikeMaps src dest m m') {n : RefName} {v w : Ref}
    (hvw : Alike src dest n (some v) (some w)) :
    AlikeMaps src dest (Function.update m n (some v)) (Function.update m' n (some w)) where
  alike k := by
    by_cases hk : k = n
    · subst hk
      rwa [Function.update_self, Function.update_self]
    · rw [Function.update_of_ne hk, Function.update_of_ne hk]
      exact h.alike k
  kept k hk := by
    by_cases hkn : k = n
    · subst hkn
      rw [Function.update_self] at hk
      cases hk
    · rw [Function.update_of_ne hkn] at hk
      exact h.kept k hk

/-- One operation of the two: both are done, or neither. -/
lemma applyOp_alike (h : AlikeMaps src dest m m')
    (hlocal : src.get e.name = some (.timeline e.timeline)) :
    (∃ m₁ m₁', m.applyOp e.refOp = .ok m₁ ∧ m'.applyOp e.update.refOp = .ok m₁' ∧
        AlikeMaps src dest m₁ m₁') ∨
      ∃ x x', m.applyOp e.refOp = .error x ∧ m'.applyOp e.update.refOp = .error x' := by
  have halike := h.alike e.name
  cases hold : e.expectedOld with
  | none =>
      have hop : e.refOp = .createTimeline e.name e.timeline.head e.timeline.policy
          e.timeline.createdAt e.timeline.kind e.timeline.expiresAt := by
        rw [InProcess.PushEntry.refOp, hold]
      have hop' : e.update.refOp = .createTimeline e.name e.timeline.head .fastForwardOnly 0
          "persistent" none := by
        simp only [InProcess.PushEntry.update, RefUpdateOp.refOp, hold]
      rw [hop, hop']
      cases hm : m e.name with
      | none =>
          have hm' : m' e.name = none := by
            rcases halike with heq | ⟨-, T, -, hv, -⟩
            · rw [← heq, hm]
            · rw [hm] at hv
              cases hv
          have hnew : AlikeMaps src dest _ _ := h.update (n := e.name)
            (.inr ⟨h.kept _ hm, e.timeline, hlocal, rfl, rfl⟩)
          refine .inl ⟨_, _, ?_, ?_, hnew⟩
          · simp [RefMap.applyOp, RefOp.name, RefOp.next, hm]
          · simp [RefMap.applyOp, RefOp.name, RefOp.next, hm']
      | some v =>
          obtain ⟨w, hm'⟩ : ∃ w, m' e.name = some w := by
            rcases halike with heq | ⟨-, T, -, -, hw⟩
            · exact ⟨v, by rw [← heq, hm]⟩
            · exact ⟨_, hw⟩
          refine .inr ⟨alreadyExists e.name, alreadyExists e.name, ?_, ?_⟩
          · simp [RefMap.applyOp, RefOp.name, RefOp.next, hm]
          · simp [RefMap.applyOp, RefOp.name, RefOp.next, hm']
  | some old =>
      have hop : e.refOp = .advanceHeadIf e.name old e.timeline.head := by
        rw [InProcess.PushEntry.refOp, hold]
      have hop' : e.update.refOp = .advanceHeadIf e.name old e.timeline.head := by
        simp only [InProcess.PushEntry.update, RefUpdateOp.refOp, hold]
      rw [hop, hop']
      rcases halike with heq | ⟨hnone, T, hT, hv, hw⟩
      · -- the ref is the same on both sides, and so is what becomes of it
        cases hnext : RefOp.next (m e.name) (.advanceHeadIf e.name old e.timeline.head) with
        | error x =>
            have hnext' := hnext
            rw [heq] at hnext'
            exact .inr ⟨x, x, by rw [RefMap.applyOp, RefOp.name, hnext],
              by rw [RefMap.applyOp, RefOp.name, hnext']⟩
        | ok o =>
            have hnext' := hnext
            rw [heq] at hnext'
            obtain ⟨v, rfl⟩ : ∃ v, o = some (some v) := by
              simp only [RefOp.next] at hnext
              split at hnext
              · split_ifs at hnext
                cases hnext
                exact ⟨_, rfl⟩
              · cases hnext
              · cases hnext
            exact .inl ⟨_, _, by rw [RefMap.applyOp, RefOp.name, hnext],
              by rw [RefMap.applyOp, RefOp.name, hnext'], h.update (.inl rfl)⟩
      · -- it has been created by an operation before
        obtain rfl : e.timeline = T := by simpa using hlocal.symm.trans hT
        by_cases hhead : e.timeline.head = old
        · have hnew : AlikeMaps src dest _ _ := h.update (n := e.name)
            (.inr ⟨hnone, e.timeline, hlocal, rfl, rfl⟩)
          refine .inl ⟨_, _, ?_, ?_, hnew⟩
          · rw [RefMap.applyOp, RefOp.name, hv, RefOp.next, if_pos hhead]
          · rw [RefMap.applyOp, RefOp.name, hw, RefOp.next, if_pos hhead]
        · have hstale : ∀ x : RefMap, ∀ t : Timeline, t.head = e.timeline.head →
              x e.name = some (.timeline t) → ∃ y, x.applyOp (.advanceHeadIf e.name old
                e.timeline.head) = .error y := by
            intro x t ht hx
            rw [RefMap.applyOp, RefOp.name, hx, RefOp.next, ht, if_neg hhead]
            exact ⟨_, rfl⟩
          obtain ⟨y, hy⟩ := hstale m e.timeline rfl hv
          obtain ⟨y', hy'⟩ := hstale m'
            ⟨e.timeline.head, .fastForwardOnly, 0, "persistent", none⟩ rfl hw
          exact .inr ⟨y, y', hy, hy'⟩

/-- The operations of the two: all are done, or neither list is. -/
lemma applyOps_alike (h : AlikeMaps src dest m m')
    (hlocal : ∀ e ∈ gated, src.get e.name = some (.timeline e.timeline)) :
    (∃ m₁ m₁', RefMap.applyOps (gated.map InProcess.PushEntry.refOp) m = .ok m₁ ∧
        RefMap.applyOps ((gated.map InProcess.PushEntry.update).map RefUpdateOp.refOp) m' =
          .ok m₁' ∧ AlikeMaps src dest m₁ m₁') ∨
      ∃ x x', RefMap.applyOps (gated.map InProcess.PushEntry.refOp) m = .error x ∧
        RefMap.applyOps ((gated.map InProcess.PushEntry.update).map RefUpdateOp.refOp) m' =
          .error x' := by
  induction gated generalizing m m' with
  | nil => exact .inl ⟨m, m', rfl, rfl, h⟩
  | cons e rest ih =>
      simp only [List.map_cons, RefMap.applyOps]
      rcases applyOp_alike h (hlocal e List.mem_cons_self) with
        ⟨m₁, m₁', h₁, h₁', halike⟩ | ⟨x, x', hx, hx'⟩
      · rw [h₁, h₁']
        exact ih halike fun o ho => hlocal o (List.mem_cons_of_mem _ ho)
      · rw [hx, hx']
        exact .inr ⟨x, x', rfl, rfl⟩

/-- **The two transactions have the same effect**, up to how a timeline is created. -/
lemma commit_alike (dest : RefStore)
    (hlocal : ∀ e ∈ gated, src.get e.name = some (.timeline e.timeline)) :
    (∃ t t', dest.commit (gated.map InProcess.PushEntry.refOp) = (.ok (), t) ∧
        dest.commit ((gated.map InProcess.PushEntry.update).map RefUpdateOp.refOp) = (.ok (), t') ∧
        ∀ n, Alike src dest n (t.get n) (t'.get n)) ∨
      ∃ x x', dest.commit (gated.map InProcess.PushEntry.refOp) = (.error x, dest) ∧
        dest.commit ((gated.map InProcess.PushEntry.update).map RefUpdateOp.refOp) =
          (.error x', dest) := by
  have hstart : AlikeMaps src dest dest.map dest.map := ⟨fun n => .inl rfl, fun n hn => hn⟩
  have herror : ∀ {ops : List RefOp} {x : Error}, RefMap.applyOps ops dest.map = .error x →
      ∃ y, dest.commit ops = (.error y, dest) := by
    intro ops x hx
    cases hc : dest.commit ops with
    | mk result t =>
        cases result with
        | ok u =>
            rw [RefStore.commit_ok hc] at hx
            cases hx
        | error y => exact ⟨y, by rw [RefStore.commit_error hc]⟩
  rcases applyOps_alike hstart hlocal with ⟨m₁, m₁', h₁, h₁', halike⟩ | ⟨x, x', hx, hx'⟩
  · obtain ⟨t, hc, ht⟩ := RefStore.commit_of_applyOps h₁
    obtain ⟨t', hc', ht'⟩ := RefStore.commit_of_applyOps h₁'
    refine .inl ⟨t, t', hc, hc', fun n => ?_⟩
    have hn := halike.alike n
    rw [← ht, ← ht'] at hn
    exact hn
  · obtain ⟨y, hy⟩ := herror hx
    obtain ⟨y', hy'⟩ := herror hx'
    exact .inr ⟨y, y', hy, hy'⟩

end Transactions

/-! ### What the two return -/

section Returns

variable {L : Linked} {remote : String} {accessor : Accessor} {self self' dest dest' : Repository}
  {b : PushBinding} {results : List InProcess.RefResult} {plan gated : List InProcess.PushEntry}

/-- The first loop of `push` refuses with a reason. -/
lemma planEntry_refuses {name : RefName} {status : InProcess.PushStatus}
    (h : InProcess.planEntry L self dest remote accessor b name = .ok (.error status)) :
    status ≠ .ok := by
  rw [InProcess.planEntry] at h
  by_cases hreserved : (name.startsWith "refs/policy/" || name.startsWith "refs/collab/") = true
  · rw [if_pos hreserved] at h
    cases h
    simp
  rw [if_neg hreserved, Result.bind_eq_ok] at h
  obtain ⟨tl, -, h⟩ := h
  cases tl with
  | none =>
      cases h
      simp
  | some T =>
      dsimp only at h
      split_ifs at h
      · cases h
        simp
      · cases h
        simp
      obtain ⟨tracking, -, h⟩ := Result.bind_eq_ok.mp h
      obtain ⟨seen, -, h⟩ := Result.bind_eq_ok.mp h
      obtain ⟨current, -, h⟩ := Result.bind_eq_ok.mp h
      split at h
      · obtain ⟨ancestor, -, h⟩ := Result.bind_eq_ok.mp h
        split_ifs at h
        · cases h
          simp
        · cases h
      · cases h

/-- What passes the first loop is writable, and the hooks of the peer are deterministic. -/
lemma planEntry_passes {name : RefName} {e : InProcess.PushEntry}
    (h : InProcess.planEntry L self dest remote accessor b name = .ok (.ok e)) :
    accessor.hasWriteCapability = true ∧ b.registry.deterministic = true := by
  rw [InProcess.planEntry] at h
  by_cases hreserved : (name.startsWith "refs/policy/" || name.startsWith "refs/collab/") = true
  · rw [if_pos hreserved] at h
    cases h
  rw [if_neg hreserved, Result.bind_eq_ok] at h
  obtain ⟨tl, -, h⟩ := h
  cases tl with
  | none => cases h
  | some T =>
      dsimp only at h
      split_ifs at h with hwrite hdet
      · cases h
      · cases h
      refine ⟨?_, by simpa using hdet⟩
      obtain ⟨c, hc, hgrants⟩ := Accessor.exists_grants_of_canWrite (a := accessor)
        (by simpa using hwrite)
      rw [Accessor.grants, Bool.and_eq_true, Bool.and_eq_true] at hgrants
      exact List.any_eq_true.mpr ⟨c, hc, hgrants.1.1⟩

/-- What the first loop of `push` leaves. -/
lemma planLoop_spec {timelines : List RefName}
    (h : InProcess.planLoop L self dest remote accessor b timelines = .ok (results, plan)) :
    (∀ r ∈ results, r.status ≠ .ok) ∧
      ∀ e ∈ plan, accessor.hasWriteCapability = true ∧ b.registry.deterministic = true := by
  induction timelines generalizing results plan with
  | nil =>
      cases h
      simp
  | cons name rest ih =>
      rw [InProcess.planLoop, Result.bind_eq_ok] at h
      obtain ⟨p, hp, h⟩ := h
      cases p with
      | error status =>
          obtain ⟨⟨rs, plan'⟩, hrest, h⟩ := Result.bind_eq_ok.mp h
          cases h
          exact ⟨List.forall_mem_cons.mpr ⟨planEntry_refuses hp, (ih hrest).1⟩, (ih hrest).2⟩
      | ok entry =>
          obtain ⟨⟨rs, plan'⟩, hrest, h⟩ := Result.bind_eq_ok.mp h
          cases h
          exact ⟨(ih hrest).1, List.forall_mem_cons.mpr ⟨planEntry_passes hp, (ih hrest).2⟩⟩

/-- The hooks refuse with a reason, and let entries of the plan pass. -/
lemma gateLoop_spec (h : InProcess.gateLoop L dest accessor b plan = .ok (results, gated)) :
    (∀ r ∈ results, r.status ≠ .ok) ∧ ∀ e ∈ gated, e ∈ plan := by
  induction plan generalizing results gated with
  | nil =>
      cases h
      simp
  | cons e rest ih =>
      rw [InProcess.gateLoop, Result.bind_eq_ok] at h
      obtain ⟨current, -, h⟩ := h
      obtain ⟨⟨rs, gated'⟩, hrest, h⟩ := Result.bind_eq_ok.mp h
      obtain ⟨hrs, hgated⟩ := ih hrest
      have hlater : ∀ o ∈ gated', o ∈ e :: rest := fun o ho => List.mem_cons_of_mem _ (hgated o ho)
      have hkept : ∀ o ∈ e :: gated', o ∈ e :: rest :=
        List.forall_mem_cons.mpr ⟨List.mem_cons_self, hlater⟩
      cases current with
      | none =>
          cases h
          exact ⟨hrs, hkept⟩
      | some peer =>
          dsimp only at h
          split at h
          · cases h
            exact ⟨hrs, hkept⟩
          · cases h
            exact ⟨List.forall_mem_cons.mpr ⟨by simp, hrs⟩, hlater⟩
          · cases h
            exact ⟨List.forall_mem_cons.mpr ⟨by simp, hrs⟩, hlater⟩

/-- After a conflict nothing is reported as done. -/
lemma conflictResults_status {out : List InProcess.RefResult}
    (h : InProcess.conflictResults dest gated = .ok out) : ∀ r ∈ out, r.status ≠ .ok := by
  intro r hr
  obtain ⟨e, -, hturn⟩ := Result.mem_mapM h hr
  obtain ⟨current, -, hturn⟩ := Result.bind_eq_ok.mp hturn
  cases hturn
  simp

/-- The end of `push`: the transaction is done and its entries are reported as done, or nothing
is. -/
lemma commitEntries_eq_ok {out : List InProcess.RefResult}
    (hresults : ∀ r ∈ results, r.status ≠ .ok)
    (h : InProcess.commitEntries self dest results gated = (.ok out, self', dest')) :
    (∃ t, dest.refs.commit (gated.map InProcess.PushEntry.refOp) = (.ok (), t) ∧ dest'.refs = t ∧
        ∀ n, ⟨n, .ok⟩ ∈ out ↔ ∃ e ∈ gated, e.name = n) ∨
      ∃ x t, dest.refs.commit (gated.map InProcess.PushEntry.refOp) = (.error x, t) ∧
        dest'.refs = dest.refs ∧ ∀ n, ⟨n, .ok⟩ ∉ out := by
  have hno : ∀ n, ⟨n, .ok⟩ ∉ results := fun n hn => hresults _ hn rfl
  rw [InProcess.commitEntries] at h
  split_ifs at h with hnil
  · cases h
    refine .inl ⟨dest.refs, ?_, rfl, fun n => ?_⟩
    · rw [hnil]
      rfl
    · simp [hno n, hnil]
  split at h
  · next refs hcommit =>
      split at h
      · cases h
        refine .inl ⟨refs, hcommit, rfl, fun n => ?_⟩
        simp [hno n]
      · cases h
  · next refs hcommit =>
      obtain ⟨hout, hrest⟩ := Prod.mk.inj h
      obtain ⟨-, rfl⟩ := Prod.mk.inj hrest
      obtain ⟨conflicts, hconflicts, hout⟩ := Result.bind_eq_ok.mp hout
      obtain rfl : results ++ conflicts = out := by simpa using hout
      refine .inr ⟨_, refs, hcommit, RefStore.commit_error hcommit, fun n hn => ?_⟩
      rcases List.mem_append.mp hn with hn | hn
      · exact hno n hn
      · exact conflictResults_status hconflicts _ hn rfl
  · cases h

/-- The end of `apply_push_ops` likewise. -/
lemma commitPush_eq_ok {statuses out : List RefStatusEntry} {accepted : List RefUpdateOp}
    (hstatuses : ∀ r ∈ statuses, r.status ≠ .ok)
    (h : dest.commitPush statuses accepted = (.ok out, dest')) :
    (∃ t, dest.refs.commit (accepted.map RefUpdateOp.refOp) = (.ok (), t) ∧ dest'.refs = t ∧
        ∀ n, ⟨n, .ok⟩ ∈ out ↔ ∃ op ∈ accepted, op.name = n) ∨
      ∃ x t, dest.refs.commit (accepted.map RefUpdateOp.refOp) = (.error x, t) ∧
        dest'.refs = dest.refs ∧ ∀ n, ⟨n, .ok⟩ ∉ out := by
  have hno : ∀ n, ⟨n, .ok⟩ ∉ statuses := fun n hn => hstatuses _ hn rfl
  rw [commitPush] at h
  split_ifs at h with hnil
  · cases h
    refine .inl ⟨dest.refs, ?_, rfl, fun n => ?_⟩
    · rw [hnil]
      rfl
    · simp [hno n, hnil]
  split at h
  · next refs hcommit =>
      cases h
      refine .inl ⟨refs, hcommit, rfl, fun n => ?_⟩
      simp [hno n]
  · next refs hcommit =>
      obtain ⟨hout, rfl⟩ := Prod.mk.inj h
      obtain ⟨conflicts, hconflicts, hout⟩ := Result.bind_eq_ok.mp hout
      obtain rfl : statuses ++ conflicts = out := by simpa using hout
      refine .inr ⟨_, refs, hcommit, RefStore.commit_error hcommit, fun n hn => ?_⟩
      rcases List.mem_append.mp hn with hn | hn
      · exact hno n hn
      · exact conflictEntries_status hconflicts _ hn rfl
  · cases h

end Returns

/-! ### Agreement -/

variable {L : Linked} {mtime mtime' : Option ℕ} {remote : String} {timelines : List RefName}
  {accessor : Accessor} {self self' dest dest' dest'' dest₁ : Repository} {heads : List ObjectId}
  {b : PushBinding}

/-- The policy that the peer is bound by stays, whatever is delivered. -/
lemma Delivered.bindPush (d : Delivered L self dest dest₁ heads) (hb : dest.bindPush L = .ok b) :
    dest₁.bindPush L = .ok b := by
  simp only [Repository.bindPush, Result.bind_eq_ok] at hb ⊢
  obtain ⟨lattice, hlattice, rules, hrules, registry, hregistry, hb⟩ := hb
  refine ⟨lattice, by rwa [d.rest], rules, by rwa [d.rest], registry, ?_, hb⟩
  rw [policyRegistry, Result.bind_eq_ok] at hregistry ⊢
  obtain ⟨own, hown, hregistry⟩ := hregistry
  refine ⟨own, by rwa [d.rest], ?_⟩
  rw [Result.bind_eq_ok] at hregistry ⊢
  obtain ⟨pinned, hpinned, hregistry⟩ := hregistry
  refine ⟨pinned, ?_, hregistry⟩
  rw [policyRoot] at hpinned ⊢
  have hrefs : dest₁.refs = dest.refs := by rw [d.rest]
  rw [hrefs]
  split at hpinned <;> try exact hpinned
  obtain ⟨o, ho, hpinned⟩ := Result.bind_eq_ok.mp hpinned
  refine Result.bind_eq_ok.mpr ⟨o, ?_, hpinned⟩
  cases o with
  | none => simp at hpinned
  | some o =>
      exact ObjectStore.object_eq_some.mp (d.grows _ _ (ObjectStore.object_eq_some.mpr ho))

/-- Nothing has to be delivered to a peer as it is. -/
lemma Delivered.refl : Delivered L self dest dest [] where
  rest := rfl
  grows := fun _ _ h => h
  reads := by simp

/-- The peer's part of a push in one process: what is planned is delivered, gated and committed. -/
lemma InProcess.push_eq_ok (g : Gapless L accessor self dest)
    {results : List InProcess.RefResult}
    (h : InProcess.push L mtime remote timelines accessor self dest = (.ok results, self', dest')) :
    ∃ b planned plan, dest.bindPush L = .ok b ∧
      InProcess.planLoop L self dest remote accessor b timelines = .ok (planned, plan) ∧
      ∃ dest₁ denied gated, Delivered L self dest dest₁ (plan.map fun e => e.timeline.head) ∧
        InProcess.gateLoop L dest₁ accessor b plan = .ok (denied, gated) ∧
        ∃ self'' dest'', InProcess.commitEntries self dest₁ (planned ++ denied) gated =
          (.ok results, self'', dest'') ∧ dest''.refs = dest'.refs := by
  rw [InProcess.push] at h
  split at h
  · cases h
  · next b hb =>
      split at h
      · cases h
      · next planned plan hplan =>
          refine ⟨b, planned, plan, hb, hplan, ?_⟩
          split_ifs at h with hnil
          · cases h
            subst hnil
            exact ⟨dest, [], [], .refl, rfl, self, dest, by simp [InProcess.commitEntries], rfl⟩
          · split at h
            · cases h
            · next k dest₁ htransfer =>
                split at h
                · cases h
                · next denied gated hgate =>
                    exact ⟨dest₁, denied, gated, syncTransfer_delivered g htransfer, hgate, self',
                      dest', h, rfl⟩

/-- **The two pushes agree.**  Between repositories without gaps, where the heads are complete and
the peer has the new head of every fast-forward it checks, the same timelines are reported as done,
and the refs of the peer are the same after it, up to how a timeline is created. -/
theorem push_agrees (g : Gapless L accessor self dest)
    (ready : PushReady L remote timelines self dest) {results : List InProcess.RefResult}
    {statuses : List RefStatusEntry}
    (hp : InProcess.push L mtime remote timelines accessor self dest = (.ok results, self', dest'))
    (hw : wirePush L mtime' remote timelines accessor self dest = (.ok statuses, dest'')) :
    (∀ n, ⟨n, .ok⟩ ∈ results ↔ ⟨n, .ok⟩ ∈ statuses) ∧
      ∀ n, Alike self.refs dest.refs n (dest'.refs.get n) (dest''.refs.get n) := by
  obtain ⟨b, planned, plan, hb, hplan, dest₁, denied, gated, d₁, hgate, self'', peer, hcommit,
    hpeer⟩ := InProcess.push_eq_ok g hp
  obtain ⟨hplanned, hpasses⟩ := planLoop_spec hplan
  obtain ⟨hdenied, hgated⟩ := gateLoop_spec hgate
  have hresults : ∀ r ∈ planned ++ denied, r.status ≠ .ok := fun r hr =>
    (List.mem_append.mp hr).elim (hplanned r) (hdenied r)
  have hrefs₁ : dest₁.refs = dest.refs := by rw [d₁.rest]
  -- nothing is done in one process where nothing is planned
  have hnothing : gated = [] → dest'.refs = dest.refs ∧ ∀ n, ⟨n, .ok⟩ ∉ results := by
    rintro rfl
    rw [InProcess.commitEntries, if_pos rfl] at hcommit
    cases hcommit
    exact ⟨hpeer.symm.trans hrefs₁, fun n hn => hresults _ hn rfl⟩
  obtain ⟨refs, ops, pack, hrefs, hops, hpack, happly⟩ := wirePush_eq_ok hw
  -- nothing is done over the connection where everything is refused
  have hagree : gated = [] → dest''.refs = dest.refs → (∀ n, ⟨n, .ok⟩ ∉ statuses) →
      (∀ n, ⟨n, .ok⟩ ∈ results ↔ ⟨n, .ok⟩ ∈ statuses) ∧
        ∀ n, Alike self.refs dest.refs n (dest'.refs.get n) (dest''.refs.get n) := by
    intro hnil hsame hno
    obtain ⟨hsame', hno'⟩ := hnothing hnil
    exact ⟨fun n => iff_of_false (hno' n) (hno n), fun n => .inl (by rw [hsame, hsame'])⟩
  rcases applyPack_eq_ok g hrefs hpack happly with ⟨hwrite, rfl, rfl⟩ | ⟨dest₂, d₂, hpush⟩
  · refine hagree ?_ rfl (by simp)
    refine List.eq_nil_iff_forall_not_mem.mpr fun e he => ?_
    have := (hpasses e (hgated e he)).1
    rw [hwrite] at this
    cases this
  have hrefs₂ : dest₂.refs = dest.refs := by rw [d₂.rest]
  rw [applyPushOps, d₂.bindPush hb] at hpush
  dsimp only at hpush
  split_ifs at hpush with hdet
  · cases hpush
    refine hagree ?_ hrefs₂ (by simp [refuseAll])
    refine List.eq_nil_iff_forall_not_mem.mpr fun e he => ?_
    have := (hpasses e (hgated e he)).2
    rw [this] at hdet
    cases hdet
  split at hpush
  · cases hpush
  · next refused accepted hcheck =>
      obtain rfl := planLoop_accepted g d₁ d₂ (by simpa using hdet) ready hplan
        (fun e he => List.mem_map_of_mem he) hgate hops (fun op hop => List.mem_map_of_mem hop)
        hcheck
      have hlocal : ∀ e ∈ gated, self.refs.get e.name = some (.timeline e.timeline) :=
        fun e he => planLoop_local hplan e (hgated e he)
      have hprocess := commitEntries_eq_ok hresults hcommit
      have hwire := commitPush_eq_ok (checkOps_results hcheck) hpush
      rw [hrefs₁, hpeer] at hprocess
      rw [hrefs₂] at hwire
      rcases commit_alike dest.refs hlocal with
        ⟨t, t', ht, ht', halike⟩ | ⟨x, x', hx, hx'⟩
      · rcases hprocess with ⟨t₁, ht₁, hdest', hdone⟩ | ⟨y, u, hy, -⟩
        · rcases hwire with ⟨t₂, ht₂, hdest'', hdone'⟩ | ⟨y, u, hy, -⟩
          · rw [ht] at ht₁
            rw [ht'] at ht₂
            cases ht₁
            cases ht₂
            refine ⟨fun n => ?_, fun n => ?_⟩
            · rw [hdone, hdone']
              simp [InProcess.PushEntry.update]
            · rw [hdest', hdest'']
              exact halike n
          · rw [ht'] at hy
            cases hy
        · rw [ht] at hy
          cases hy
      · rcases hprocess with ⟨t₁, ht₁, -⟩ | ⟨-, -, -, hdest', hno⟩
        · rw [hx] at ht₁
          cases ht₁
        · rcases hwire with ⟨t₂, ht₂, -⟩ | ⟨-, -, -, hdest'', hno'⟩
          · rw [hx'] at ht₂
            cases ht₂
          · exact ⟨fun n => iff_of_false (hno n) (hno' n),
              fun n => .inl (by rw [hdest', hdest''])⟩

/-! ### An advance and a new timeline -/

def sideName : RefName := ⟨"side", by decide +kernel⟩

/-- The sender has moved `main` on, and has an unrestricted timeline of its own. -/
def pushingRepo : Repository :=
  { memory with
    objects := .holding pushLinked pushObjects
    refs := ⟨(((∅ : BTreeMap RefName Ref).insert pushName
      (.timeline ⟨pushId 5, .fastForwardOnly, 0, "persistent", none⟩)).insert sideName
      (.timeline ⟨pushId 4, .unrestricted, 7, "ephemeral", none⟩)).insert
      ⟨"refs/remotes/origin/main", by decide +kernel⟩ (.tag ⟨pushId 4, 0, none⟩)⟩ }

/-- The peer has the first snapshot only. -/
def behindRepo : Repository :=
  { memory with
    objects := .holding pushLinked
      ((pushObjects.zipIdx.filter fun p => p.2 ∈ [0, 2, 4]).map Prod.fst)
    refs := pushRepo.refs }

/-- The push of both timelines to `dest`, in one process. -/
def pushBoth (dest : Repository) : Result (List InProcess.RefResult) × Repository × Repository :=
  InProcess.push pushLinked none "origin" [pushName, sideName] fullWriter pushingRepo dest

/-- The push of both timelines to `dest` over a connection. -/
def wireBoth (dest : Repository) : Result (List RefStatusEntry) × Repository :=
  wirePush pushLinked none "origin" [pushName, sideName] fullWriter pushingRepo dest

/-- What the store of the peer holds: every object is short, and its children are there. -/
lemma pushRepo_closed :
    (∀ x ∈ pushRepo.objects.list, (((pushRepo.objects.getRaw pushLinked x).toOption.bind
        id).all fun b => decide (b.length < 2 ^ 64)) ∧
      (pushRepo.objects.object pushLinked x).any fun obj =>
        decide (∀ y ∈ childEdges obj, y ∈ pushRepo.objects.list)) ∧
      pushId 4 ∈ pushRepo.objects.list := by
  decide +kernel

lemma pushBoth_gapless : Gapless pushLinked fullWriter pushingRepo pushRepo := by
  have hself : pushingRepo.objects = pushRepo.objects := by rw [pushingRepo, pushRepo]
  have hobjects : pushRepo.objects = .holding pushLinked pushObjects := by rw [pushRepo]
  have hwf := ObjectStore.holding_wf pushLinked pushObjects
  obtain ⟨hsized, hhead⟩ := pushRepo_closed
  have hrefs : pushRepo.refs = ⟨(∅ : BTreeMap RefName Ref).insert pushName
      (.timeline ⟨pushId 4, .fastForwardOnly, 0, "persistent", none⟩)⟩ := by rw [pushRepo]
  refine ⟨?_, ?_, ?_, fun x hx => ?_, fun n v hv => ?_⟩
  · rw [hself, hobjects]
    exact fun x b hb => hwf.addressed hb
  · rw [hself]
    intro x b hb
    simpa [hb, Except.toOption] using (hsized x (ObjectStore.listed_of_getRaw hb)).1
  · rw [hself]
    intro x b b' hb hb'
    simpa [hb] using hb'
  · simpa [Option.any_eq_true] using (hsized x hx).2
  · have hget := hv.get
    rw [hrefs] at hget
    rw [RefStore.get_single hget]
    exact hhead

lemma pushBoth_ready : PushReady pushLinked "origin" [pushName, sideName] pushingRepo pushRepo := by
  obtain ⟨hmain, hside, hheads⟩ : pushingRepo.refs.get pushName =
        some (.timeline ⟨pushId 5, .fastForwardOnly, 0, "persistent", none⟩) ∧
      pushingRepo.refs.get sideName =
        some (.timeline ⟨pushId 4, .unrestricted, 7, "ephemeral", none⟩) ∧
      ∀ i ∈ [4, 5], (pushingRepo.objects.getSnapshot pushLinked (pushId i)).toOption.any
        Option.isSome ∧ closurePresent pushLinked pushingRepo.objects (pushId i) = .ok true ∧
        pushId i ∈ pushRepo.objects.list := by
    decide +kernel
  have hhead : ∀ name ∈ [pushName, sideName], ∀ T,
      pushingRepo.refs.get name = some (.timeline T) → ∃ i ∈ [4, 5], T.head = pushId i := by
    intro name hname T hT
    rcases List.mem_pair.mp hname with rfl | rfl
    · rw [hmain] at hT
      cases hT
      exact ⟨5, by simp, rfl⟩
    · rw [hside] at hT
      cases hT
      exact ⟨4, by simp, rfl⟩
  constructor
  · intro name hname T hT
    obtain ⟨i, hi, hid⟩ := hhead name hname T hT
    obtain ⟨hsnap, hclosure, -⟩ := hheads i hi
    rw [hid]
    refine ⟨?_, closurePresent_true hclosure⟩
    cases h : pushingRepo.objects.getSnapshot pushLinked (pushId i) with
    | error e => simp [h, Except.toOption] at hsnap
    | ok snap => simpa [h, Except.toOption, Option.isSome_iff_exists] using hsnap
  · intro name hname T tracking tag peer hT _ _ _ _
    obtain ⟨i, hi, hid⟩ := hhead name hname T hT
    rw [hid]
    exact (hheads i hi).2.2

lemma pushBoth_eq {dest : Repository} {results : List InProcess.RefResult}
    (h : (pushBoth dest).1 = .ok results) :
    ∃ self' dest', pushBoth dest = (.ok results, self', dest') := by
  rw [← h]
  exact ⟨_, _, rfl⟩

lemma wireBoth_eq {dest : Repository} {statuses : List RefStatusEntry}
    (h : (wireBoth dest).1 = .ok statuses) : ∃ dest', wireBoth dest = (.ok statuses, dest') := by
  rw [← h]
  exact ⟨_, rfl⟩

/-- Both succeed, and create different timelines. -/
lemma pushes_ok :
    (pushBoth pushRepo).1 = .ok [⟨pushName, .ok⟩, ⟨sideName, .ok⟩] ∧
      (wireBoth pushRepo).1 = .ok [⟨pushName, .ok⟩, ⟨sideName, .ok⟩] ∧
      (pushBoth pushRepo).2.2.refs.get sideName ≠ (wireBoth pushRepo).2.refs.get sideName := by
  decide +kernel

/-- The two pushes of both timelines to a peer that has all the objects. -/
theorem push_agrees_advance :
    ∃ self' dest' dest'',
      pushBoth pushRepo = (.ok [⟨pushName, .ok⟩, ⟨sideName, .ok⟩], self', dest') ∧
      wireBoth pushRepo = (.ok [⟨pushName, .ok⟩, ⟨sideName, .ok⟩], dest'') ∧
      ∀ n, Alike pushingRepo.refs pushRepo.refs n (dest'.refs.get n) (dest''.refs.get n) := by
  obtain ⟨self', dest', hp⟩ := pushBoth_eq pushes_ok.1
  obtain ⟨dest'', hw⟩ := wireBoth_eq pushes_ok.2.1
  exact ⟨self', dest', dest'', hp, hw, (push_agrees pushBoth_gapless pushBoth_ready hp hw).2⟩

/-- **Where the two pushes differ.**  In one process the fast-forward check does not find the head
that is still to be sent, and a timeline is created as it is with the sender. -/
theorem pushes_disagree :
    (¬ ∀ (L : Linked) (mtime : Option ℕ) (remote : String) (timelines : List RefName)
      (accessor : Accessor) (self dest self' dest' dest'' : Repository)
      (results : List InProcess.RefResult) (statuses : List RefStatusEntry),
      InProcess.push L mtime remote timelines accessor self dest = (.ok results, self', dest') →
      wirePush L mtime remote timelines accessor self dest = (.ok statuses, dest'') →
      ∀ n, ⟨n, .ok⟩ ∈ results ↔ ⟨n, .ok⟩ ∈ statuses) ∧
    ¬ ∀ (L : Linked) (mtime : Option ℕ) (remote : String) (timelines : List RefName)
      (accessor : Accessor) (self dest self' dest' dest'' : Repository)
      (results : List InProcess.RefResult) (statuses : List RefStatusEntry),
      InProcess.push L mtime remote timelines accessor self dest = (.ok results, self', dest') →
      wirePush L mtime remote timelines accessor self dest = (.ok statuses, dest'') →
      ∀ n, dest'.refs.get n = dest''.refs.get n := by
  constructor
  · intro h
    obtain ⟨hp, hw, hne⟩ : (pushBoth behindRepo).1 =
          .ok [⟨pushName, .nonFastForward (pushId 4)⟩, ⟨sideName, .ok⟩] ∧
        (wireBoth behindRepo).1 = .ok [⟨pushName, .ok⟩, ⟨sideName, .ok⟩] ∧
        pushName ≠ sideName := by
      decide +kernel
    obtain ⟨self', dest', hp⟩ := pushBoth_eq hp
    obtain ⟨dest'', hw⟩ := wireBoth_eq hw
    have hmain := (h _ _ _ _ _ _ _ _ _ _ _ _ hp hw pushName).mpr List.mem_cons_self
    simp [hne] at hmain
  · intro h
    obtain ⟨hp, hw, hne⟩ := pushes_ok
    obtain ⟨self', dest', hp⟩ := pushBoth_eq hp
    obtain ⟨dest'', hw⟩ := wireBoth_eq hw
    rw [hp, hw] at hne
    exact hne (h _ _ _ _ _ _ _ _ _ _ _ _ hp hw sideName)

end Bole
