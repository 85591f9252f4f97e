import Bole.Lib.Words
import Bole.Sync.Registries

/-!
The posts of a board (`src/repo/board.rs`).

A post is pinned below `refs/board/<board>/`, and a board is listed by that beginning.

* `Posted`, `PostsPinned`: what publications leave, and the invariant that they preserve;
* `startsWith_postRef_iff`: the names that the listing of a board takes in;
* `listPosts_iff`: the posts of a board are listed, each once and no others, exactly if none was
  published on a board whose name goes on behind a slash.
-/

namespace Bole

/-- The name under which a post is pinned. -/
def postRef (board : String) (id : ObjectId) : String :=
  boardPrefix ++ board ++ "/" ++ id.toHex

namespace Repository

/-- `publish_post`. -/
def publishPost (L : Linked) (r : Repository) (p : Post) (mtime : Option ℕ) :
    Result ObjectId × Repository :=
  if verifyPost L p = false then
    (.error (.policyViolation "board post signature does not verify"), r)
  else
    match r.objects.put L (.post p) mtime with
    | (.error e, objects) => (.error e, { r with objects := objects })
    | (.ok id, objects) =>
        match RefName.new (postRef p.board id) with
        | .error e => (.error e, { r with objects := objects })
        | .ok name =>
            match r.refs.commit [.set name (.tag ⟨id, 0, none⟩)] with
            | (.error e, refs) => (.error e, { r with objects := objects, refs := refs })
            | (.ok (), refs) => (.ok id, { r with objects := objects, refs := refs })

/-- Publications one after another, and the posts that were accepted. -/
inductive Posted (L : Linked) (objs : Set Object) (r₀ : Repository) :
    Repository → List (ObjectId × Post) → Prop where
  | start : Posted L objs r₀ r₀ []
  | accepted {r r' : Repository} {posts : List (ObjectId × Post)} {p : Post} {mtime : Option ℕ}
      {id : ObjectId} : Posted L objs r₀ r posts → .post p ∈ objs →
      r.publishPost L p mtime = (.ok id, r') → Posted L objs r₀ r' (posts ++ [(id, p)])
  | refused {r r' : Repository} {posts : List (ObjectId × Post)} {p : Post} {mtime : Option ℕ}
      {e : Error} : Posted L objs r₀ r posts → .post p ∈ objs →
      r.publishPost L p mtime = (.error e, r') → Posted L objs r₀ r' posts

/-- The listing of a board gives its posts, each once, and no others. -/
def ListsExactly (L : Linked) (r : Repository) (posts : List (ObjectId × Post)) (board : String) :
    Prop :=
  ∃ out, r.listPosts L board = .ok out ∧ (out.map Prod.fst).Nodup ∧
    ∀ id p, (id, p) ∈ out ↔ (id, p) ∈ posts ∧ p.board = board

/-- The refs below `refs/board/` are the tags of the posts, which read and verify. -/
structure PostsPinned (L : Linked) (objs : Set Object) (r : Repository)
    (posts : List (ObjectId × Post)) : Prop where
  refs : ∀ n v, n.startsWith boardPrefix = true → (r.refs.get n = some v ↔
    ∃ x ∈ posts, n.asStr = postRef x.2.board x.1 ∧ v = .tag ⟨x.1, 0, none⟩)
  named : ∀ x ∈ posts, ∃ n : RefName, n.asStr = postRef x.2.board x.1
  reads : ∀ x ∈ posts, r.objects.get L x.1 = .ok (some (.post x.2)) ∧ verifyPost L x.2 = true
  faithful : r.objects.Faithful L objs

end Repository

/-! ### Names -/

lemma slash_notMem_toHex (id : ObjectId) : '/' ∉ id.toHex.toList := by
  rw [ObjectId.toHex, Digest.hex, String.toList_ofList]
  exact Digest.notMem_hex (by decide) _

lemma toList_postRef (board : String) (id : ObjectId) :
    (postRef board id).toList = boardPrefix.toList ++ (board.toList ++ '/' :: id.toHex.toList) := by
  simp [postRef]

lemma startsWith_boardPrefix {n : RefName} {board : String} {id : ObjectId}
    (hn : n.asStr = postRef board id) : n.startsWith boardPrefix = true := by
  rw [RefName.startsWith_iff, hn, toList_postRef]
  exact List.prefix_append ..

/-- The board and the id of a post can be told from its name. -/
lemma postRef_injective {board board' : String} {id id' : ObjectId}
    (h : postRef board id = postRef board' id') : board = board' ∧ id = id' := by
  have hlist := congrArg String.toList h
  rw [toList_postRef, toList_postRef, List.append_cancel_left_eq] at hlist
  obtain ⟨hboard, hid⟩ := Words.append_last (slash_notMem_toHex id) (slash_notMem_toHex id') hlist
  exact ⟨String.toList_injective hboard, ObjectId.toHex_injective (String.toList_injective hid)⟩

/-- **What the listing of a board takes in**: its own posts, and those of the boards whose names go
on behind a slash. -/
lemma startsWith_postRef_iff {n : RefName} {b board : String} {id : ObjectId}
    (hn : n.asStr = postRef b id) : n.startsWith (boardPrefix ++ board ++ "/") = true ↔
      b = board ∨ (board ++ "/").toList <+: b.toList := by
  have hslash : ("/" : String).toList = ['/'] := rfl
  rw [RefName.startsWith_iff, hn, toList_postRef, String.toList_append, String.toList_append,
    String.toList_append, hslash, List.append_assoc, List.prefix_append_right_inj,
    Words.prefix_last_iff (slash_notMem_toHex id), String.toList_inj]

/-! ### Publications -/

variable {L : Linked} {objs : Set Object} {r r' : Repository} {posts : List (ObjectId × Post)}
  {p : Post} {mtime : Option ℕ} {id : ObjectId}

namespace Repository

lemma publishPost_ok (h : r.publishPost L p mtime = (.ok id, r')) :
    verifyPost L p = true ∧ (r.objects.put L (.post p) mtime) = (.ok id, r'.objects) ∧
      ∃ name : RefName, name.asStr = postRef p.board id ∧
        r'.refs.get name = some (.tag ⟨id, 0, none⟩) ∧
        ∀ k, k ≠ name → r'.refs.get k = r.refs.get k := by
  rw [publishPost] at h
  split_ifs at h with hverify
  · cases h
  split at h
  · cases h
  · next id' objects hput =>
      split at h
      · cases h
      · next name hname =>
          split at h
          · cases h
          · next refs hcommit =>
              obtain ⟨hid, rfl⟩ := Prod.mk.inj h
              obtain rfl := Except.ok.inj hid
              obtain ⟨hset, hother⟩ := RefStore.commit_set hcommit
              exact ⟨by simpa using hverify, hput, name, RefName.asStr_of_new hname, hset, hother⟩

/-- One more publication, by its result. -/
lemma Posted.step {r₀ : Repository} (h : Posted L objs r₀ r posts) (hobj : .post p ∈ objs)
    (hok : (r.publishPost L p mtime).1 = .ok id) :
    Posted L objs r₀ (r.publishPost L p mtime).2 (posts ++ [(id, p)]) :=
  .accepted h hobj (by rw [← hok])

/-- A publication that is refused makes no ref. -/
lemma publishPost_error {e : Error} (h : r.publishPost L p mtime = (.error e, r')) :
    r'.refs = r.refs ∧
      (r'.objects = r.objects ∨ r'.objects = (r.objects.put L (.post p) mtime).2) := by
  rw [publishPost] at h
  split_ifs at h with hverify
  · cases h
    exact ⟨rfl, .inl rfl⟩
  split at h
  · next hput =>
      cases h
      rw [hput]
      exact ⟨rfl, .inr rfl⟩
  · next id' objects hput =>
      rw [hput]
      split at h
      · cases h
        exact ⟨rfl, .inr rfl⟩
      · next name hname =>
          split at h
          · next hcommit =>
              cases h
              exact ⟨RefStore.commit_error hcommit, .inr rfl⟩
          · cases h

/-- **Publications preserve the invariant.** -/
lemma Posted.pinned {r₀ : Repository} (hnone : ∀ n, n.startsWith boardPrefix = true →
    r₀.refs.get n = none) (hfaithful : r₀.objects.Faithful L objs)
    (h : Posted L objs r₀ r posts) : PostsPinned L objs r posts := by
  induction h with
  | start => exact ⟨fun n v hn => by simp [hnone n hn], by simp, by simp, hfaithful⟩
  | @refused r r' posts p mtime e _ hobj hpublish ih =>
      obtain ⟨hrefs, hobjects⟩ := publishPost_error hpublish
      have hgrows : r.objects.Grows L r'.objects := by
        rcases hobjects with hsame | hput
        · rw [hsame]
          exact .refl L _
        · rw [hput]
          exact ObjectStore.put_grows L r.objects (.post p) mtime
      refine ⟨hrefs ▸ ih.refs, ih.named, fun x hx => ?_, ?_⟩
      · obtain ⟨hget, hverify⟩ := ih.reads x hx
        exact ⟨ObjectStore.object_eq_some.mp (hgrows _ _ (ObjectStore.object_eq_some.mpr hget)),
          hverify⟩
      · rcases hobjects with hsame | hput
        · rw [hsame]
          exact ih.faithful
        · rw [hput]
          exact ih.faithful.keeps hobj mtime
  | @accepted r r' posts p mtime id _ hobj hpublish ih =>
      obtain ⟨hverify, hput, name, hname, hset, hother⟩ := publishPost_ok hpublish
      have hgrows := ObjectStore.put_grows L r.objects (.post p) mtime
      obtain ⟨hfaithful, hget⟩ := ih.faithful.put hobj (congrArg Prod.fst hput)
      rw [hput] at hgrows hfaithful hget
      refine ⟨fun n v hn => ?_, fun x hx => ?_, fun x hx => ?_, hfaithful⟩
      · by_cases heq : n = name
        · subst heq
          rw [hset]
          constructor
          · intro hv
            exact ⟨(id, p), by simp, hname, (Option.some.inj hv).symm⟩
          · rintro ⟨x, -, hx, rfl⟩
            rw [(postRef_injective (hname.symm.trans hx)).2]
        · rw [hother n heq, ih.refs n v hn]
          constructor
          · rintro ⟨x, hx, hxn, rfl⟩
            exact ⟨x, List.mem_append_left _ hx, hxn, rfl⟩
          · rintro ⟨x, hx, hxn, rfl⟩
            rcases List.mem_append.mp hx with hx | hx
            · exact ⟨x, hx, hxn, rfl⟩
            · obtain rfl := List.mem_singleton.mp hx
              exact absurd (RefName.ext' (hxn.trans hname.symm)) heq
      · rcases List.mem_append.mp hx with hx | hx
        · exact ih.named x hx
        · obtain rfl := List.mem_singleton.mp hx
          exact ⟨name, hname⟩
      · rcases List.mem_append.mp hx with hx | hx
        · obtain ⟨hold, hv⟩ := ih.reads x hx
          exact ⟨ObjectStore.object_eq_some.mp (hgrows _ _ (ObjectStore.object_eq_some.mpr hold)),
            hv⟩
        · obtain rfl := List.mem_singleton.mp hx
          exact ⟨hget, hverify⟩

/-! ### Listings -/

/-- What a loop over tags at things that load puts out. -/
lemma taggedLoop_loads {α : Type} {refs : RefStore} {load : ObjectId → Result (Option α)}
    {names : List RefName} (h : ∀ n ∈ names, ∃ t x, refs.get n = some (.tag t) ∧
      load t.target = .ok (some x)) :
    ∃ out, taggedLoop refs load names = .ok out ∧
      (∀ id x, (id, x) ∈ out ↔ ∃ n ∈ names, ∃ t, refs.get n = some (.tag t) ∧ t.target = id ∧
        load id = .ok (some x)) ∧
      out.map Prod.fst = names.map fun n => ((refs.get n).map Ref.target).getD default := by
  induction names with
  | nil => exact ⟨[], rfl, by simp, rfl⟩
  | cons n rest ih =>
      obtain ⟨⟨t, x, ht, hx⟩, hrest⟩ := List.forall_mem_cons.mp h
      obtain ⟨out, hout, hmem, hids⟩ := ih hrest
      have hget : refs.getTag n = .ok (some t) := by rw [RefStore.getTag, ht]
      refine ⟨(t.target, x) :: out, ?_, fun id y => ?_, ?_⟩
      · simp [taggedLoop, hget, hx, hout, bind, Except.bind]
      · rw [List.mem_cons, hmem]
        constructor
        · rintro (heq | ⟨k, hk, u, hu⟩)
          · obtain ⟨rfl, rfl⟩ := Prod.mk.inj heq
            exact ⟨n, List.mem_cons_self, t, ht, rfl, hx⟩
          · exact ⟨k, List.mem_cons_of_mem _ hk, u, hu⟩
        · rintro ⟨k, hk, u, hu, rfl, hy⟩
          rcases List.mem_cons.mp hk with rfl | hk
          · obtain rfl := Ref.tag.inj (Option.some.inj (ht.symm.trans hu))
            obtain rfl := Option.some.inj (Except.ok.inj (hx.symm.trans hy))
            exact .inl rfl
          · exact .inr ⟨k, hk, u, hu, rfl, hy⟩
      · rw [List.map_cons, List.map_cons, hids, ht]
        rfl

/-- **What a board lists**: its posts and those of the boards whose names go on behind a slash, each
once. -/
lemma PostsPinned.listPosts (h : PostsPinned L objs r posts) (board : String) :
    ∃ out, r.listPosts L board = .ok out ∧ (out.map Prod.fst).Nodup ∧
      ∀ id p, (id, p) ∈ out ↔ (id, p) ∈ posts ∧
        (p.board = board ∨ (board ++ "/").toList <+: p.board.toList) := by
  have hpost : ∀ x ∈ posts, r.getPost L x.1 = .ok (some x.2) := by
    intro x hx
    obtain ⟨hget, hverify⟩ := h.reads x hx
    rw [getPost, hget]
    exact congrArg Except.ok (if_pos hverify)
  have hlisted : ∀ n ∈ r.refs.list (boardPrefix ++ board ++ "/"),
      ∃ x ∈ posts, n.asStr = postRef x.2.board x.1 ∧ r.refs.get n = some (.tag ⟨x.1, 0, none⟩) := by
    intro n hn
    obtain ⟨⟨v, hv⟩, hpfx⟩ := RefStore.mem_list.mp hn
    have hboard : n.startsWith boardPrefix = true :=
      RefName.startsWith_append (RefName.startsWith_append hpfx)
    obtain ⟨x, hx, hname, rfl⟩ := (h.refs n v hboard).mp hv
    exact ⟨x, hx, hname, hv⟩
  have hloads : ∀ n ∈ r.refs.list (boardPrefix ++ board ++ "/"), ∃ t p,
      r.refs.get n = some (.tag t) ∧ r.getPost L t.target = .ok (some p) := by
    intro n hn
    obtain ⟨x, hx, -, hv⟩ := hlisted n hn
    exact ⟨_, x.2, hv, hpost x hx⟩
  obtain ⟨out, hout, hmem, hids⟩ := taggedLoop_loads hloads
  refine ⟨out, hout, ?_, fun id p => ?_⟩
  · rw [hids]
    refine (r.refs.nodup_list _).map_on fun n hn k hk heq => ?_
    obtain ⟨x, hx, hxn, hv⟩ := hlisted n hn
    obtain ⟨y, hy, hyn, hw⟩ := hlisted k hk
    rw [hv, hw] at heq
    -- one id has one post, and that one name
    have hid : x.1 = y.1 := heq
    have hpost' := hpost x hx
    rw [hid, hpost y hy] at hpost'
    have hp : y.2 = x.2 := Option.some.inj (Except.ok.inj hpost')
    exact RefName.ext' (hxn.trans (by rw [hid, ← hp]; exact hyn.symm))
  · rw [hmem]
    constructor
    · rintro ⟨n, hn, t, ht, rfl, hp⟩
      obtain ⟨x, hx, hxn, hv⟩ := hlisted n hn
      obtain rfl := Ref.tag.inj (Option.some.inj (hv.symm.trans ht))
      obtain rfl := Option.some.inj (Except.ok.inj ((hpost x hx).symm.trans hp))
      exact ⟨hx, (startsWith_postRef_iff hxn).mp (RefStore.mem_list.mp hn).2⟩
    · rintro ⟨hx, hboard⟩
      obtain ⟨n, hn⟩ := h.named _ hx
      have hv := (h.refs n _ (startsWith_boardPrefix hn)).mpr ⟨_, hx, hn, rfl⟩
      exact ⟨n, RefStore.mem_list.mpr ⟨⟨_, hv⟩, (startsWith_postRef_iff hn).mpr hboard⟩, _, hv, rfl,
        hpost _ hx⟩

/-- **A board lists its posts**, each once and no others, exactly if none was published on a board
whose name goes on behind a slash. -/
theorem listPosts_iff {r₀ : Repository} (hnone : ∀ n, n.startsWith boardPrefix = true →
      r₀.refs.get n = none) (hfaithful : r₀.objects.Faithful L objs)
    (h : Posted L objs r₀ r posts) (board : String) :
    ListsExactly L r posts board ↔
      ∀ id p, (id, p) ∈ posts → ¬ (board ++ "/").toList <+: p.board.toList := by
  have hpinned := h.pinned hnone hfaithful
  obtain ⟨out, hout, hnodup, hmem⟩ := hpinned.listPosts board
  constructor
  · rintro ⟨out', hout', -, hexact⟩ id p hp hpfx
    obtain rfl := Except.ok.inj (hout.symm.trans hout')
    have hboard := ((hexact id p).mp ((hmem id p).mpr ⟨hp, .inr hpfx⟩)).2
    rw [hboard, String.toList_append] at hpfx
    have hlength := hpfx.length_le
    simp at hlength
  · intro hnone
    refine ⟨out, hout, hnodup, fun id p => ?_⟩
    rw [hmem]
    exact and_congr_right fun hp => or_iff_left (hnone id p hp)

end Repository

/-! ### Two boards -/

namespace Boards

def author : Digest :=
  ⟨[67, 167, 46, 113, 68, 1, 118, 45, 246, 107, 104, 194, 109, 251, 223, 38, 130, 170, 236, 159,
    36, 116, 236, 164, 97, 62, 66, 74, 15, 186, 253, 60], by decide⟩

/-- A post on the board `general`. -/
def first : Post where
  author := author
  board := "general"
  body := "first"
  parent := none
  createdAt := 1
  sig := [192, 250, 163, 168, 32, 80, 192, 38, 231, 164, 25, 197, 216, 225, 200, 246, 87, 255, 83,
    147, 155, 198, 162, 157, 209, 161, 245, 96, 169, 141, 23, 6, 200, 62, 89, 245, 73, 217, 193,
    13, 236, 179, 86, 165, 178, 90, 62, 44, 44, 20, 89, 196, 252, 146, 44, 113, 149, 81, 206, 3,
    226, 125, 102, 5]

/-- A post on the board `general/x`. -/
def other : Post where
  author := author
  board := "general/x"
  body := "other"
  parent := none
  createdAt := 2
  sig := [81, 186, 127, 248, 70, 191, 26, 186, 48, 154, 255, 68, 64, 38, 39, 22, 159, 109, 248,
    106, 42, 51, 218, 73, 35, 230, 100, 182, 170, 131, 243, 114, 211, 13, 63, 40, 28, 37, 143,
    124, 237, 246, 110, 188, 143, 137, 88, 49, 221, 167, 36, 158, 18, 108, 171, 220, 166, 176,
    177, 120, 116, 12, 74, 6]

def objects : List Object := [.post first, .post other]

/-- The two signatures are those that verify. -/
def linked : Linked :=
  { Linked.over objects with
    ed25519Verify := fun key msg sig => decide (key = author ∧
      (msg = postMessage first ∧ sig = first.sig ∨ msg = postMessage other ∧ sig = other.sig)) }

def afterFirst : Repository := (Repository.memory.publishPost linked first none).2
def afterBoth : Repository := (afterFirst.publishPost linked other none).2

lemma evaluated :
    (Repository.memory.publishPost linked first none).1 = .ok (Object.post first).refId ∧
      (afterFirst.publishPost linked other none).1 = .ok (Object.post other).refId ∧
      (objects.map Postcard.object).Nodup ∧ (objects.map Object.refId).Nodup := by
  decide +kernel

lemma memory_faithful : Repository.memory.objects.Faithful linked {o | o ∈ objects} := by
  have h : Repository.memory.objects.Faithful (.over objects) {o | o ∈ objects} :=
    ObjectStore.faithful_over evaluated.2.2.1 evaluated.2.2.2 fun o _ hexists => by
      simp [Repository.memory, ObjectStore.exists_, StorageBackend.exists_] at hexists
  exact ⟨h.decodes, h.distinct, h.held⟩

lemma memory_none (n : RefName) (_ : n.startsWith boardPrefix = true) :
    Repository.memory.refs.get n = none := by
  simp [Repository.memory, RefStore.get]

lemma posted_first : Repository.Posted linked {o | o ∈ objects} .memory afterFirst
    [((Object.post first).refId, first)] := by
  rw [afterFirst]
  exact Repository.Posted.step .start (by simp [objects]) evaluated.1

lemma posted_both : Repository.Posted linked {o | o ∈ objects} .memory afterBoth
    [((Object.post first).refId, first), ((Object.post other).refId, other)] := by
  rw [afterBoth]
  exact posted_first.step (by simp [objects]) evaluated.2.1

end Boards

open Boards in
/-- Where nothing goes on behind a slash the listing is exact. -/
theorem listPosts_general : Repository.ListsExactly linked afterFirst
    [((Object.post first).refId, first)] "general" := by
  refine (Repository.listPosts_iff memory_none memory_faithful posted_first "general").mpr ?_
  intro id p hp
  obtain ⟨-, rfl⟩ := Prod.mk.inj (List.mem_singleton.mp hp)
  decide

open Boards in
/-- **A board is listed with another one's posts**: those of `general/x` appear on `general`. -/
theorem listPosts_mixes : ¬ ∀ (L : Linked) (objs : Set Object) (r₀ r : Repository)
    (posts : List (ObjectId × Post)), (∀ n, n.startsWith boardPrefix = true →
      r₀.refs.get n = none) → r₀.objects.Faithful L objs → Repository.Posted L objs r₀ r posts →
      ∀ board, Repository.ListsExactly L r posts board := by
  intro h
  obtain ⟨out, hout, -, hexact⟩ :=
    h linked _ _ _ _ memory_none memory_faithful posted_both "general"
  have hpinned := posted_both.pinned memory_none memory_faithful
  obtain ⟨all, hall, -, hmem⟩ := hpinned.listPosts "general"
  obtain rfl := Except.ok.inj (hout.symm.trans hall)
  have hlisted := (hmem (Object.post other).refId other).mpr ⟨by simp, .inr (by decide)⟩
  have hboard : other.board = "general" := ((hexact _ _).mp hlisted).2
  revert hboard
  decide

end Bole
