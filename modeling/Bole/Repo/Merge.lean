import Bole.Lib.Meet
import Bole.Postcard
import Bole.Repo.Graph

/-!
Three-way merges of flat path maps, and the common ancestor of two snapshots
(`src/repo/merge.rs`).

* `findCommonAncestor_some`: an answer is an ancestor of both;
* `findCommonAncestor_congr`: it depends on what is below the two snapshots only;
* `fastForward_iff`: a snapshot is the common ancestor found with a descendant of it iff no other
  one is met first.
-/

namespace Bole

open Meet

/-! ### The three-way diff -/

/-- `MergeConflict`. -/
structure MergeConflict where
  path : String
  ours : Option ObjectId
  theirs : Option ObjectId
deriving DecidableEq

/-- `MergeResult`. -/
structure MergeResult where
  merged : BTreeMap String ObjectId
  conflicts : List MergeConflict

namespace MergeResult

/-- A path of the merged map. -/
def take (r : MergeResult) (path : String) (id : ObjectId) : MergeResult :=
  { r with merged := r.merged.insert path id }

/-- A path that needs a human. -/
def conflict (r : MergeResult) (path : String) (ours theirs : Option ObjectId) : MergeResult :=
  { r with conflicts := r.conflicts ++ [⟨path, ours, theirs⟩] }

end MergeResult

/-- One turn of the loop of `three_way_diff`: what becomes of a path that the three sides give
these entries. -/
def mergePath (path : String) (anc our thr : Option ObjectId) (r : MergeResult) : MergeResult :=
  if our = thr then
    match our with
    | some id => r.take path id
    | none => r
  else
    match anc, our, thr with
    | _, some o, some t =>
        if anc = some o then r.take path t
        else if anc = some t then r.take path o
        else r.conflict path (some o) (some t)
    | some a, some o, none => if o = a then r else r.conflict path (some o) none
    | none, some o, none => r.take path o
    | some a, none, some t => if t = a then r else r.conflict path none (some t)
    | none, none, some t => r.take path t
    | _, none, none => r

/-- `three_way_diff`. -/
def threeWayDiff (ancestor ours theirs : BTreeMap String ObjectId) : MergeResult :=
  (Std.ExtTreeSet.ofList (ancestor.keys ++ ours.keys ++ theirs.keys) compare).toList.foldl
    (fun r path => mergePath path ancestor[path]? ours[path]? theirs[path]? r) ⟨∅, []⟩

/-! ### The common ancestor -/

/-- One turn for each ancestor either search can come to, and one to see that both are done. -/
def ancestorFuel (L : Linked) (s : ObjectStore) (a b : ObjectId) : ℕ :=
  2 * (insert a (insert b (edgeTargets L s))).card + 1

/-- `find_common_ancestor`. -/
def findCommonAncestor (L : Linked) (s : ObjectStore) (a b : ObjectId) :
    Result (Option ObjectId) :=
  if a = b then .ok (some a)
  else
    match meet (snapshotParents L s) (ancestorFuel L s a b) [a] ((∅ : BTreeSet ObjectId).insert a)
      [b] ((∅ : BTreeSet ObjectId).insert b) with
    | .error e => .error e
    | .ok (some c) => .ok c
    | .ok none => .error (.panic "out of fuel")

variable {L : Linked} {s t : ObjectStore}

/-- The search for a common ancestor never runs out of fuel. -/
lemma findCommonAncestor_ne_none (a b : ObjectId) (frontierA frontierB : List ObjectId)
    (visitedA visitedB : BTreeSet ObjectId) :
    meet (snapshotParents L s) (ancestorFuel L s a b) frontierA visitedA frontierB visitedB
      ≠ .ok none := by
  refine meet_ne_none (U := insert a (insert b (edgeTargets L s))) (fun x y h => ?_) ?_
  · simp [(edge_snapshotParents.mp h).mem_edgeTargets]
  · have hA : (unmarked (insert a (insert b (edgeTargets L s))) visitedA).card ≤ _ :=
      Finset.card_filter_le _ _
    have hB : (unmarked (insert a (insert b (edgeTargets L s))) visitedB).card ≤ _ :=
      Finset.card_filter_le _ _
    rw [ancestorFuel]
    omega

/-- The search from one snapshot starts within its ancestors. -/
lemma within_descends (a : ObjectId) :
    Within (Descends L s a) [a] ((∅ : BTreeSet ObjectId).insert a) where
  queued x hx := by
    rw [List.mem_singleton.mp hx]
    exact .refl
  marked x hx := by
    rcases Std.ExtTreeSet.mem_insert.mp hx with hx | hx
    · rw [← Std.LawfulEqOrd.eq_of_compare hx]
      exact .refl
    · simp at hx

/-- **A common ancestor is an ancestor of both.** -/
theorem findCommonAncestor_some {a b c : ObjectId}
    (h : findCommonAncestor L s a b = .ok (some c)) : Descends L s a c ∧ Descends L s b c := by
  rw [findCommonAncestor] at h
  split_ifs at h with hab
  · cases h
    rw [hab]
    exact ⟨.refl, .refl⟩
  split at h
  · cases h
  · next c' hm =>
      cases h
      have hstep : ∀ d x y, Descends L s d x → Search.Edge (snapshotParents L s) x y →
          Descends L s d y := fun d x y hx hy => hx.tail (edge_snapshotParents.mp hy)
      exact meet_sound (hstep a) (hstep b) (within_descends a) (within_descends b) hm
  · next hm => exact absurd hm (findCommonAncestor_ne_none a b _ _ _ _)

/-- **Stores that read alike below both snapshots give the same answer.** -/
lemma findCommonAncestor_congr {a b : ObjectId} (ha : Complete L s a) (hb : Complete L s b)
    (hagree : ∀ x, Closure L s [a] x ∨ Closure L s [b] x → t.object L x = s.object L x) :
    findCommonAncestor L t a b = findCommonAncestor L s a b := by
  have hstep : ∀ d x y, Descends L s d x → Search.Edge (snapshotParents L s) x y →
      Descends L s d y := fun d x y hx hy => hx.tail (edge_snapshotParents.mp hy)
  have hparents : ∀ x, Descends L s a x ∨ Descends L s b x →
      snapshotParents L s x = snapshotParents L t x := by
    intro x hx
    have hbelow : Closure L s [a] x ∨ Closure L s [b] x :=
      hx.imp Descends.closure Descends.closure
    obtain ⟨obj, hobj⟩ := Option.isSome_iff_exists.mp (hbelow.elim (ha x) (hb x))
    have hobj' := (hagree x hbelow).trans hobj
    rw [snapshotParents, snapshotParents, ObjectStore.object_eq_some.mp hobj,
      ObjectStore.object_eq_some.mp hobj']
  rw [findCommonAncestor, findCommonAncestor,
    ← Meet.meet_congr (hstep a) (hstep b) hparents (within_descends a) (within_descends b)
      (findCommonAncestor_ne_none a b _ _ _ _) (findCommonAncestor_ne_none a b _ _ _ _)]

/-! ### The fast-forward test -/

/-- The search fails only where a snapshot above one of the two cannot be read. -/
lemma findCommonAncestor_error {a b : ObjectId} {e : Error}
    (h : findCommonAncestor L s a b = .error e) :
    ∃ x, (Descends L s a x ∨ Descends L s b x) ∧ snapshotParents L s x = .error e := by
  rw [findCommonAncestor] at h
  split_ifs at h
  split at h
  · next e' hm =>
      cases h
      have hstep : ∀ d x y, Descends L s d x → Search.Edge (snapshotParents L s) x y →
          Descends L s d y := fun d x y hx hy => hx.tail (edge_snapshotParents.mp hy)
      exact meet_error (hstep a) (hstep b) (within_descends a) (within_descends b) hm
  · cases h
  · next hm => exact absurd hm (findCommonAncestor_ne_none a b _ _ _ _)

/-- Where the snapshots above both can be read the search returns. -/
lemma findCommonAncestor_returns {a b : ObjectId}
    (h : ∀ x, Descends L s a x ∨ Descends L s b x → ∃ ps, snapshotParents L s x = .ok ps) :
    ∃ c, findCommonAncestor L s a b = .ok c := by
  cases hc : findCommonAncestor L s a b with
  | ok c => exact ⟨c, rfl⟩
  | error e =>
      obtain ⟨x, hx, he⟩ := findCommonAncestor_error hc
      obtain ⟨ps, hps⟩ := h x hx
      rw [hps] at he
      cases he

/-- Where both histories are present the search returns. -/
lemma findCommonAncestor_of_history {a b : ObjectId} (ha : HistoryPresent L s a)
    (hb : HistoryPresent L s b) : ∃ c, findCommonAncestor L s a b = .ok c :=
  findCommonAncestor_returns fun x hx =>
    snapshotParents_of_isSome (hx.elim (ha x) (hb x))

/-- The snapshots at most `k` generations above one. -/
abbrev Above (L : Linked) (s : ObjectStore) (id : ObjectId) (k : ℕ) : Set ObjectId :=
  near (Parent L s) id k

lemma near_edge (id : ObjectId) :
    near (Search.Edge (snapshotParents L s)) id = Above L s id := by
  have hedge : Search.Edge (snapshotParents L s) = Parent L s := by
    funext x y
    exact propext edge_snapshotParents
  rw [hedge]

/-- **Of two snapshots with common ancestors the search returns the first it meets.** -/
lemma findCommonAncestor_first {a b : ObjectId} (hab : a ≠ b) {c : ObjectId}
    (h : findCommonAncestor L s a b = .ok (some c)) : FirstMet (Parent L s) a b c := by
  rw [findCommonAncestor, if_neg hab] at h
  split at h
  · cases h
  · next c' hm =>
      cases h
      have hno : Disjoint (near (Search.Edge (snapshotParents L s)) a 0)
          (near (Search.Edge (snapshotParents L s)) b 0) := Set.disjoint_singleton.mpr hab
      obtain ⟨i, hi⟩ := meet_first (.start a) (.start b) hno hm
      rw [near_edge, near_edge] at hi
      exact ⟨i, hi⟩
  · next hm => exact absurd hm (findCommonAncestor_ne_none a b _ _ _ _)

/-- It finds none only where there is none. -/
lemma findCommonAncestor_none {a b : ObjectId} (h : findCommonAncestor L s a b = .ok none)
    (i j : ℕ) : Disjoint (Above L s a i) (Above L s b j) := by
  rw [findCommonAncestor] at h
  split_ifs at h
  · cases h
  split at h
  · cases h
  · next c' hm =>
      cases h
      have hno := meet_none (.start a) (.start b) hm i j
      rwa [near_edge, near_edge] at hno
  · next hm => exact absurd hm (findCommonAncestor_ne_none a b _ _ _ _)

/-- `k` generations lie between a snapshot and the one it descends from, by the shortest way. -/
def Generations (L : Linked) (s : ObjectStore) (new old : ObjectId) (k : ℕ) : Prop :=
  old ∈ Above L s new k ∧ ∀ j < k, old ∉ Above L s new j

/-- No ancestor of the old snapshot that is as close to it as the new one is closer to the new one
than it, or as close with a smaller id. -/
def Unrivalled (L : Linked) (s : ObjectStore) (old new : ObjectId) : Prop :=
  ∀ k, Generations L s new old k → ∀ x ∈ Above L s old k,
    (∀ j < k, x ∉ Above L s new j) ∧ (x ∈ Above L s new k → (compare old x).isLE = true)

lemma exists_generations {new old : ObjectId} (h : Descends L s new old) :
    ∃ k, Generations L s new old k := by
  classical
  have hex := exists_mem_near.mpr h
  exact ⟨Nat.find hex, Nat.find_spec hex, fun j hj => Nat.find_min hex hj⟩

/-- What is met before the old snapshot is too close, or has a smaller id. -/
lemma unrivalled_of_firstMet {old new : ObjectId} (h : FirstMet (Parent L s) old new old) :
    Unrivalled L s old new := by
  intro k hk x hx
  have hself : ∀ i, old ∈ Above L s old i := fun i => near_mono (Nat.zero_le i) rfl
  obtain ⟨i, hno, ⟨⟨-, hi⟩, -⟩ | ⟨hno', ⟨-, hi⟩, hleast⟩⟩ := h
  · exact absurd hi (Set.disjoint_left.mp hno (hself i))
  · -- the old snapshot is met by the second layer of the turn, so this is its generation
    have hlater : ∀ j ≤ i, old ∉ Above L s new j := fun j hj hmem =>
      Set.disjoint_left.mp hno' (hself _) (near_mono hj hmem)
    have hlow : k ≤ i + 1 := not_lt.mp fun hlt => hk.2 _ hlt hi
    have hhigh : i < k := not_le.mp fun hle => hlater k hle hk.1
    obtain rfl : k = i + 1 := by omega
    refine ⟨fun j hj hmem => ?_, fun hmem => hleast x ⟨hx, hmem⟩⟩
    exact Set.disjoint_left.mp hno' hx (near_mono (Nat.le_of_lt_succ hj) hmem)

/-- Without a rival the old snapshot is what is met. -/
lemma eq_of_unrivalled {old new c : ObjectId} (hd : Descends L s new old)
    (h : Unrivalled L s old new) (hc : FirstMet (Parent L s) old new c) : c = old := by
  obtain ⟨k, hk⟩ := exists_generations hd
  have hself : ∀ i, old ∈ Above L s old i := fun i => near_mono (Nat.zero_le i) rfl
  have hfar : ∀ i, old ∉ Above L s new i → i < k := fun i hi =>
    not_le.mp fun hle => hi (near_mono hle hk.1)
  obtain ⟨i, hno, ⟨⟨hcA, hcB⟩, -⟩ | ⟨hno', ⟨hcA, hcB⟩, hleast⟩⟩ := hc
  · have hi := hfar i (Set.disjoint_left.mp hno (hself i))
    exact absurd hcB ((h k hk c (near_mono hi hcA)).1 i hi)
  · have hi := hfar i (Set.disjoint_left.mp hno' (hself _))
    obtain ⟨hnear, hle⟩ := h k hk c (near_mono hi hcA)
    rcases Nat.lt_or_eq_of_le (Nat.succ_le_of_lt hi) with hlt | heq
    · exact absurd hcB (hnear _ hlt)
    · subst heq
      have hold : (compare c old).isLE = true := hleast old ⟨hself _, hk.1⟩
      exact Std.LawfulEqOrd.eq_of_compare
        (Std.OrientedCmp.isLE_antisymm hold (hle hcB))

/-- **The fast-forward test is the ancestry check iff no other common ancestor is met first.**  For
snapshots whose histories are present. -/
theorem fastForward_iff {old new : ObjectId} (hold : HistoryPresent L s old)
    (hnew : HistoryPresent L s new) :
    (findCommonAncestor L s old new = .ok (some old) ↔ isAncestor L s old new = .ok true) ↔
      Unrivalled L s old new := by
  obtain ⟨b, hb⟩ := isAncestor_of_history hnew
  have hancestor : isAncestor L s old new = .ok true ↔ Descends L s new old := by
    rw [← isAncestor_ok hb, hb]
    simp
  obtain ⟨c, hc⟩ := findCommonAncestor_of_history hold hnew
  rw [hancestor]
  by_cases heq : old = new
  · subst heq
    have hself : findCommonAncestor L s old old = .ok (some old) := by simp [findCommonAncestor]
    refine iff_of_true (iff_of_true hself .refl) fun k hk x hx => ?_
    obtain rfl : k = 0 := by
      by_contra hne
      exact hk.2 0 (Nat.pos_of_ne_zero hne) rfl
    obtain rfl : x = old := hx
    exact ⟨fun j hj => absurd hj (Nat.not_lt_zero j), fun _ => by simp⟩
  · constructor
    · intro h k hk
      have hd : Descends L s new old := exists_mem_near.mp ⟨k, hk.1⟩
      exact unrivalled_of_firstMet (findCommonAncestor_first heq (h.mpr hd)) k hk
    · intro h
      refine ⟨fun hfound => (findCommonAncestor_some hfound).2, fun hd => ?_⟩
      obtain ⟨k, hk⟩ := exists_mem_near.mpr hd
      cases c with
      | none => exact absurd hk (Set.disjoint_left.mp (findCommonAncestor_none hc 0 k) rfl)
      | some c => rw [hc, eq_of_unrivalled hd h (findCommonAncestor_first heq hc)]

/-! ### A branch off an old base -/

/-- Three snapshots after a base, another one after the base, and their merge. -/
def branchObjects : List Object :=
  let tree : Object := .tree ⟨∅⟩
  let base : Object := .snapshot ⟨tree.refId, [], "", 0, "base"⟩
  let old : Object := .snapshot ⟨tree.refId, [base.refId], "", 1, "old"⟩
  let next : Object := .snapshot ⟨tree.refId, [old.refId], "", 2, "next"⟩
  let last : Object := .snapshot ⟨tree.refId, [next.refId], "", 3, "last"⟩
  let side : Object := .snapshot ⟨tree.refId, [base.refId], "", 4, "side"⟩
  [tree, base, old, next, last, side,
    .snapshot ⟨tree.refId, [last.refId, side.refId], "", 5, "merge"⟩]

def branchLinked : Linked := .over branchObjects

def branchStore : ObjectStore := .holding branchLinked branchObjects

def branchId (i : ℕ) : ObjectId := (branchObjects.getD i (.blob [])).refId

/-- What is evaluated of the branch: its parents are read, the second snapshot is an ancestor of the
last but one and is found there, and of the merge, where its parent is found. -/
lemma branch_evaluated :
    (branchStore.list.all fun x =>
        ((snapshotParents branchLinked branchStore x).toOption.getD []).all fun p =>
          (branchStore.object branchLinked p).isSome) = true ∧
      (∀ i ∈ [2, 4], (branchStore.object branchLinked (branchId i)).isSome = true) ∧
      (findCommonAncestor branchLinked branchStore (branchId 2) (branchId 4) =
          .ok (some (branchId 2)) ∧
        isAncestor branchLinked branchStore (branchId 2) (branchId 4) = .ok true) ∧
      (isAncestor branchLinked branchStore (branchId 2) (branchId 6) = .ok true ∧
        findCommonAncestor branchLinked branchStore (branchId 2) (branchId 6) =
          .ok (some (branchId 1)) ∧
        branchId 1 ≠ branchId 2) ∧
      isAncestor branchLinked branchStore (branchId 1) (branchId 2) = .ok true := by
  decide +kernel

/-- **The base is met first.**  The merge descends from the snapshot before the last two, and the
search for their common ancestor returns the base. -/
theorem fastForward_branch :
    isAncestor branchLinked branchStore (branchId 2) (branchId 6) = .ok true ∧
      findCommonAncestor branchLinked branchStore (branchId 2) (branchId 6) =
        .ok (some (branchId 1)) ∧
      branchId 1 ≠ branchId 2 :=
  branch_evaluated.2.2.2.1

/-- A store that reads the parents of all it lists has the history of what it reads. -/
lemma history_of_listed {id : ObjectId} (h : ∀ x ∈ s.list, ∀ ps, snapshotParents L s x = .ok ps →
    ∀ p ∈ ps, (s.object L p).isSome) (hid : (s.object L id).isSome) : HistoryPresent L s id := by
  intro x hx
  induction hx with
  | refl => exact hid
  | tail _ hab _ =>
      obtain ⟨ps, hps, hb⟩ := edge_snapshotParents.mpr hab
      obtain ⟨sn, hsn, -⟩ := hab
      exact h _ (ObjectStore.listed_of_object hsn) ps hps _ hb

lemma branch_history : ∀ x ∈ branchStore.list, ∀ ps,
    snapshotParents branchLinked branchStore x = .ok ps →
      ∀ p ∈ ps, (branchStore.object branchLinked p).isSome := by
  intro x hx ps hps p hp
  have hx' := List.all_eq_true.mp branch_evaluated.1 x hx
  rw [hps] at hx'
  exact List.all_eq_true.mp hx' p hp

/-- Before the merge the test and the check agree. -/
theorem fastForward_iff_branch :
    (findCommonAncestor branchLinked branchStore (branchId 2) (branchId 4) =
        .ok (some (branchId 2)) ↔
      isAncestor branchLinked branchStore (branchId 2) (branchId 4) = .ok true) ∧
      Unrivalled branchLinked branchStore (branchId 2) (branchId 4) := by
  obtain ⟨-, hread, ⟨hfound, hancestor⟩, -⟩ := branch_evaluated
  have hagree := iff_of_true hfound hancestor
  exact ⟨hagree, (fastForward_iff (history_of_listed branch_history (hread 2 (by simp)))
    (history_of_listed branch_history (hread 4 (by simp)))).mp hagree⟩

end Bole
