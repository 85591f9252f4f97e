import Bole.Sync.Session

/-!
What a push over a connection leaves behind: `serve_push` and `apply_push_ops` of
`src/sync/session.rs`.

The client sends any pack and any operations.  Each head is looked up, and its closure walked, in
the store that the pack has been put into.

* `applyOps_head`: after the operations a ref is as it was, or at the head of one of them;
* `applyPushOps_complete`: a push moves a timeline only to a snapshot with all that is below it;
* `push_complete`: so does a whole session, whatever the client sends.
-/

namespace Bole

open Talk

namespace Repository

variable {L : Linked} {r : Repository} {accessor : Accessor} {ops : List RefUpdateOp}
  {op : RefUpdateOp}

/-! ### Where the operations lead -/

/-- An operation that is done leaves its timeline at its head. -/
lemma applyOp_head {m m' : RefMap} (h : m.applyOp op.refOp = .ok m') :
    ∃ T : Timeline, m' op.name = some (.timeline T) ∧ T.head = op.newHead := by
  rw [RefMap.applyOp, op.name_refOp, RefUpdateOp.refOp] at h
  cases he : op.expectedOld with
  | some old =>
      simp only [he, RefOp.next] at h
      cases hm : m op.name with
      | none => simp [hm] at h
      | some v =>
          cases v with
          | tag t => simp [hm] at h
          | timeline t =>
              simp only [hm] at h
              split_ifs at h
              cases h
              exact ⟨_, Function.update_self .., rfl⟩
  | none =>
      simp only [he, RefOp.next] at h
      split_ifs at h
      cases h
      exact ⟨_, Function.update_self .., rfl⟩

/-- After the operations a ref is as it was, or at the head of one of them. -/
lemma applyOps_head {n : RefName} {m m' : RefMap}
    (h : RefMap.applyOps (ops.map RefUpdateOp.refOp) m = .ok m') :
    m' n = m n ∨ ∃ op ∈ ops, op.name = n ∧
      ∃ T : Timeline, m' n = some (.timeline T) ∧ T.head = op.newHead := by
  induction ops generalizing m with
  | nil =>
      cases h
      exact .inl rfl
  | cons op rest ih =>
      rw [List.map_cons, RefMap.applyOps, Result.bind_eq_ok] at h
      obtain ⟨m₁, h₁, h⟩ := h
      rcases ih h with hrest | ⟨o, ho, hrest⟩
      · by_cases hn : n = op.name
        · subst hn
          obtain ⟨T, hT, hhead⟩ := applyOp_head h₁
          exact .inr ⟨op, List.mem_cons_self, rfl, T, hrest.trans hT, hhead⟩
        · left
          rw [hrest, RefMap.applyOp_of_ne h₁ (by rwa [op.name_refOp])]
      · exact .inr ⟨o, List.mem_cons_of_mem _ ho, hrest⟩

/-! ### Complete heads -/

/-- A stored snapshot with everything below it. -/
structure HeadComplete (L : Linked) (s : ObjectStore) (head : ObjectId) : Prop where
  snapshot : ∃ snap, s.getSnapshot L head = .ok (some snap)
  closure : Complete L s head

/-- Every ref is as it was, or a timeline at a complete head. -/
def MovesToComplete (L : Linked) (before after : Repository) : Prop :=
  ∀ n, after.refs.get n = before.refs.get n ∨
    ∃ T : Timeline, after.refs.get n = some (.timeline T) ∧ HeadComplete L after.objects T.head

lemma Gated.headComplete {b : PushBinding} {current : Option Timeline}
    (h : Gated L r accessor b op current) : HeadComplete L r.objects op.newHead :=
  ⟨h.snapshot, closurePresent_true h.closure⟩

lemma applyPushOps_objects : (r.applyPushOps L accessor ops).2.objects = r.objects := by
  rw [applyPushOps]
  split
  · rfl
  · split_ifs
    · rfl
    · split
      · rfl
      · exact commitPush_objects r _ _

/-- **A push moves a timeline only to a complete head.** -/
lemma applyPushOps_complete : MovesToComplete L r (r.applyPushOps L accessor ops).2 := by
  intro n
  rw [applyPushOps_objects, applyPushOps]
  cases hb : r.bindPush L with
  | error e => exact .inl rfl
  | ok b =>
      dsimp only
      split_ifs
      · exact .inl rfl
      cases hc : r.checkOps L accessor b ops with
      | error e => exact .inl rfl
      | ok p =>
          obtain ⟨results, accepted⟩ := p
          rcases commitPush_refs r results accepted with hsame | hops
          · exact .inl (by dsimp only; rw [hsame])
          · rcases applyOps_head (n := n) hops with hsame | ⟨op, hop, -, T, hT, hhead⟩
            · exact .inl hsame
            · obtain ⟨-, current, hg, -⟩ := (checkOps_accepted hc).mp hop
              refine .inr ⟨T, hT, ?_⟩
              rw [hhead]
              exact (gateOp_ok hg).headComplete

/-! ### Whole sessions -/

/-- Serving a push moves a timeline only to a complete head. -/
lemma pushSession_complete (mtime : Option ℕ) (r : Repository) :
    Session.Leads (fun w => w.refs = r.refs) (MovesToComplete L r)
      (pushSession L mtime accessor) := by
  have hsame : ∀ w : Repository, w.refs = r.refs → MovesToComplete L r w :=
    fun w hw n => .inl (by rw [hw])
  refine .after (.ask _) hsame fun refs => .after (.send _) hsame fun _ =>
    .after .recv hsame fun m => ?_
  split
  · refine .after (.ask _) hsame fun decoded => .after .recv hsame fun m => ?_
    split
    · split_ifs
      · exact .of_keeps (.send _) hsame
      · refine .after (.act fun w hw => hw) hsame fun _ => .before (.act ?_) fun _ => .send _
        intro w hw n
        rw [← hw]
        exact applyPushOps_complete n
    · exact .of_keeps (.fail _) hsame
  · exact .of_keeps (.fail _) hsame

/-- **Accepted pushes are complete.**  An operation that is accepted leads to a stored snapshot
with everything below it, and so does every ref that a session changes, whatever the client
sends. -/
theorem push_complete (L : Linked) (r : Repository) (accessor : Accessor) :
    (∀ ops op, PushAccepts L r accessor ops op →
      HeadComplete L (r.applyPushOps L accessor ops).2.objects op.newHead) ∧
    ∀ mtime peer, MovesToComplete L r (pushSession L mtime accessor peer (.start r)).2.world := by
  refine ⟨fun ops op h => ?_, fun mtime peer => pushSession_complete mtime r peer _ rfl⟩
  obtain ⟨-, b, current, -, hg, -⟩ := h.checked
  rw [applyPushOps_objects]
  exact hg.headComplete

/-- The push of one snapshot on top of another. -/
theorem push_complete_update :
    PushAccepts pushLinked pushRepo fullWriter [pushUpdate] pushUpdate ∧
      HeadComplete pushLinked
        (pushRepo.applyPushOps pushLinked fullWriter [pushUpdate]).2.objects (pushId 5) := by
  have hacc : PushAccepts pushLinked pushRepo fullWriter [pushUpdate] pushUpdate :=
    pushRepo_accepts (by decide +kernel)
  exact ⟨hacc, (push_complete pushLinked pushRepo fullWriter).1 _ _ hacc⟩

end Repository

end Bole
