import Bole.Lib.Collect
import Bole.Postcard
import Bole.Repo.Basic

/-!
Flattening a tree into paths: `walk_tree` of `src/repo/ephemeral.rs`, which shows everything,
and `walk_tree_filtered` of `src/repo/mod.rs`, which shows an accessor what it may read.

The two loops differ in more than the test: the first fails on an object that is not a tree
and has no bound on the nesting, the second passes such an object over and fails beyond
`MAX_TREE_DEPTH`.

* `walkBounded_ne_none`: the bound on the nesting ends the filtered walk;
* `walkTreeFiltered_eq`: all accessors are shown parts of one map;
* `mem_walkTreeFiltered`, `showsPath_of_walkTree`: the walks show the paths below the root;
* `filtered_walk_exact`: the part an accessor is shown is the readable part of the unfiltered
  flattening, so it depends on nothing else and grows with the clearances.
-/

namespace Bole

open Collect

/-! ### Opening a tree -/

/-- `MAX_TREE_DEPTH`. -/
def maxTreeDepth : ℕ := 256

/-- The path of an entry below a prefix. -/
def joinPath (pfx name : String) : String := if pfx.isEmpty then name else pfx ++ "/" ++ name

lemma joinPath_empty (name : String) : joinPath "" name = name := rfl

lemma joinPath_of_ne {pfx : String} (h : pfx ≠ "") (name : String) :
    joinPath pfx name = pfx ++ "/" ++ name := by
  rw [joinPath, if_neg]
  simpa [String.isEmpty_iff] using h

lemma splitOn_joinPath {pfx : String} (h : pfx ≠ "") (name : String) :
    (joinPath pfx name).toList.splitOn '/' =
      pfx.toList.splitOn '/' ++ name.toList.splitOn '/' := by
  have hlist : (joinPath pfx name).toList = pfx.toList ++ '/' :: name.toList := by
    rw [joinPath_of_ne h]
    simp
  rw [hlist, List.splitOn_append_cons_self]

/-- The blob entries of a tree, with their full paths. -/
def Tree.files (t : Tree) (pfx : String) : List (String × ObjectId) :=
  t.entries.toList.filterMap fun e =>
    match e.2.kind with
    | .blob => some (joinPath pfx e.1, e.2.id)
    | .tree => none

/-- The tree entries of a tree, with their full paths. -/
def Tree.subtrees (t : Tree) (pfx : String) : List (ObjectId × String) :=
  t.entries.toList.filterMap fun e =>
    match e.2.kind with
    | .blob => none
    | .tree => some (e.2.id, joinPath pfx e.1)

/-- The tree stored under an id; any other object is none. -/
def ObjectStore.getTree (L : Linked) (s : ObjectStore) (id : ObjectId) : Result (Option Tree) :=
  match s.get L id with
  | .error e => .error e
  | .ok (some (.tree t)) => .ok (some t)
  | .ok _ => .ok none

/-- One turn of `walk_tree`. -/
def openTree (L : Linked) (s : ObjectStore) (item : ObjectId × String) :
    Result (List (String × ObjectId) × List (ObjectId × String)) :=
  match s.getTree L item.1 with
  | .error e => .error e
  | .ok (some t) => .ok (t.files item.2, t.subtrees item.2)
  | .ok none => .error (.storage ("not a tree: " ++ item.1.toHex))

/-- One turn of `walk_tree_filtered`, without the test on the paths. -/
def openBounded (L : Linked) (s : ObjectStore) (item : ObjectId × String × ℕ) :
    Result (List (String × ObjectId) × List (ObjectId × String × ℕ)) :=
  if maxTreeDepth ≤ item.2.2 then
    .error (.storage ("tree nesting exceeds maximum depth " ++ toString maxTreeDepth))
  else
    match s.getTree L item.1 with
    | .error e => .error e
    | .ok (some t) =>
        .ok (t.files item.2.1,
          (t.subtrees item.2.1).map fun sub => (sub.1, sub.2, item.2.2 + 1))
    | .ok none => .ok ([], [])

/-! ### The walks -/

/-- `walk_tree`, for the given number of turns; the loop of the source has no bound of its
own. -/
def walkTree (L : Linked) (s : ObjectStore) (fuel : ℕ) (treeId : ObjectId) (pfx : String)
    (out : BTreeMap String ObjectId) : Result (Option (BTreeMap String ObjectId)) :=
  collect (openTree L s) (fun _ => true) fuel [(treeId, pfx)] out

/-- The turns the bounded walk takes below a tree, `d` levels deep. -/
def walkCost (L : Linked) (s : ObjectStore) : ℕ → ObjectId → ℕ
  | 0, _ => 1
  | d + 1, id =>
      match s.getTree L id with
      | .ok (some t) => 1 + ((t.subtrees "").map fun sub => walkCost L s d sub.1).sum
      | _ => 1

/-- Whether an accessor is shown a path: its label is the bottom or readable. -/
def visible (lattice : LabelLattice) (rules : LabelRuleSet) (accessor : Accessor)
    (path : String) : Bool :=
  decide (rules.labelForPath lattice path = lattice.bottom) ||
    accessor.canRead (rules.labelForPath lattice path) ⟨.path, path⟩

/-- The loop of `walk_tree_filtered` with any test. -/
def walkBounded (L : Linked) (s : ObjectStore) (keep : String → Bool) (treeId : ObjectId)
    (pfx : String) (out : BTreeMap String ObjectId) : Result (BTreeMap String ObjectId) :=
  match collect (openBounded L s) keep (walkCost L s maxTreeDepth treeId) [(treeId, pfx, 0)] out
    with
  | .error e => .error e
  | .ok (some m) => .ok m
  | .ok none => .error (.panic "out of fuel")

/-- `walk_tree_filtered`. -/
def walkTreeFiltered (L : Linked) (s : ObjectStore) (lattice : LabelLattice)
    (rules : LabelRuleSet) (treeId : ObjectId) (pfx : String) (accessor : Accessor)
    (out : BTreeMap String ObjectId) : Result (BTreeMap String ObjectId) :=
  walkBounded L s (visible lattice rules accessor) treeId pfx out

variable {L : Linked} {s : ObjectStore}

/-- What a turn of the strict walk can do. -/
lemma openTree_eq_ok {item : ObjectId × String}
    {r : List (String × ObjectId) × List (ObjectId × String)} : openTree L s item = .ok r ↔
      ∃ t, s.getTree L item.1 = .ok (some t) ∧ r = (t.files item.2, t.subtrees item.2) := by
  rw [openTree]
  cases s.getTree L item.1 with
  | error e => simp
  | ok o => cases o <;> simp [eq_comm]

/-- What a turn of the bounded walk can do. -/
lemma openBounded_eq_ok {item : ObjectId × String × ℕ}
    {r : List (String × ObjectId) × List (ObjectId × String × ℕ)} :
    openBounded L s item = .ok r ↔ item.2.2 < maxTreeDepth ∧
      ((∃ t, s.getTree L item.1 = .ok (some t) ∧ r = (t.files item.2.1,
          (t.subtrees item.2.1).map fun sub => (sub.1, sub.2, item.2.2 + 1))) ∨
        s.getTree L item.1 = .ok none ∧ r = ([], [])) := by
  rw [openBounded]
  by_cases hd : maxTreeDepth ≤ item.2.2
  · simp [hd]
  · rw [if_neg hd]
    cases s.getTree L item.1 with
    | error e => simp
    | ok o => cases o <;> simp [eq_comm, not_le.mp hd]

lemma walkCost_pos (d : ℕ) (id : ObjectId) : 0 < walkCost L s d id := by
  cases d with
  | zero => simp [walkCost]
  | succ d =>
      rw [walkCost]
      split <;> omega

lemma map_fst_subtrees (t : Tree) (pfx : String) :
    (t.subtrees pfx).map Prod.fst = (t.subtrees "").map Prod.fst := by
  rw [Tree.subtrees, Tree.subtrees, List.map_filterMap, List.map_filterMap]
  congr 1
  funext e
  cases e.2.kind <;> rfl

/-- **The filtered walk ends**: its turns are those of a tree of bounded depth. -/
lemma walkBounded_ne_none (keep : String → Bool) (treeId : ObjectId) (pfx : String)
    (out : BTreeMap String ObjectId) :
    collect (openBounded L s) keep (walkCost L s maxTreeDepth treeId) [(treeId, pfx, 0)] out
      ≠ .ok none := by
  refine collect_ne_none (fun item => walkCost L s (maxTreeDepth - item.2.2) item.1)
    (fun item r h => ?_) (fun item => walkCost_pos _ _) (by simp)
  obtain ⟨id, pfx, depth⟩ := item
  obtain ⟨hd, ⟨t, hg, rfl⟩ | ⟨-, rfl⟩⟩ := openBounded_eq_ok.mp h
  · dsimp only at hd hg ⊢
    obtain ⟨d, hd'⟩ : ∃ d, maxTreeDepth - depth = d + 1 := ⟨maxTreeDepth - depth - 1, by omega⟩
    have hnext : maxTreeDepth - (depth + 1) = d := by omega
    have hcost : walkCost L s (d + 1) id =
        1 + ((t.subtrees "").map fun sub => walkCost L s d sub.1).sum := by
      rw [walkCost, hg]
    have hsum : ((t.subtrees pfx).map fun sub => walkCost L s d sub.1).sum =
        ((t.subtrees "").map fun sub => walkCost L s d sub.1).sum := by
      have := congrArg (List.map (walkCost L s d)) (map_fst_subtrees t pfx)
      rw [List.map_map, List.map_map] at this
      exact congrArg List.sum this
    rw [hd', hcost, List.map_map]
    calc ((t.subtrees pfx).map _).sum
        = ((t.subtrees pfx).map fun sub => walkCost L s d sub.1).sum := by
          simp only [Function.comp_def, hnext]
      _ = ((t.subtrees "").map fun sub => walkCost L s d sub.1).sum := hsum
      _ < 1 + ((t.subtrees "").map fun sub => walkCost L s d sub.1).sum := by omega
  · simpa using walkCost_pos _ _

/-! ### What the filtered walk shows -/

/-- **All tests pick from one map**: the walk that tests nothing decides whether the walk
succeeds and what there is to show. -/
theorem walkBounded_eq (keep : String → Bool) (treeId : ObjectId) (pfx : String) :
    walkBounded L s keep treeId pfx ∅ =
      (walkBounded L s (fun _ => true) treeId pfx ∅).map (restrict keep) := by
  have h := collect_filter (openBounded L s) keep (walkCost L s maxTreeDepth treeId)
    [(treeId, pfx, 0)] ∅
  rw [restrict_empty] at h
  rw [walkBounded, walkBounded, h]
  cases collect (openBounded L s) (fun _ => true) (walkCost L s maxTreeDepth treeId)
      [(treeId, pfx, 0)] ∅ with
  | error e => rfl
  | ok o => cases o <;> rfl

/-- Where both walks succeed they find the same paths. -/
lemma walkBounded_agree {fuel : ℕ} {treeId : ObjectId} {pfx : String}
    {full view : BTreeMap String ObjectId}
    (hfull : walkTree L s fuel treeId pfx ∅ = .ok (some full))
    (hview : walkBounded L s (fun _ => true) treeId pfx ∅ = .ok view) : view = full := by
  rw [walkBounded] at hview
  split at hview
  · cases hview
  · next m hm =>
      cases hview
      refine collect_agree (fun item : ObjectId × String × ℕ => (item.1, item.2.1)) ?_ hm hfull
      rintro ⟨id, pfx, depth⟩ r r' hr hr'
      obtain ⟨t', hg', rfl⟩ := openTree_eq_ok.mp hr'
      obtain ⟨-, ⟨t, hg, rfl⟩ | ⟨hg, -⟩⟩ := openBounded_eq_ok.mp hr
      · dsimp only at hg hg'
        rw [hg] at hg'
        cases hg'
        exact ⟨rfl, by rw [List.map_map]; exact (List.map_id _).symm⟩
      · dsimp only at hg hg'
        rw [hg] at hg'
        cases hg'
  · cases hview

variable {lattice : LabelLattice} {rules : LabelRuleSet} {accessor : Accessor}

lemma visible_iff {path : String} : visible lattice rules accessor path = true ↔
    rules.labelForPath lattice path = lattice.bottom ∨
      accessor.canRead (rules.labelForPath lattice path) ⟨.path, path⟩ = true := by
  rw [visible, Bool.or_eq_true, decide_eq_true_iff]

/-- What an accessor is shown, given the unfiltered flattening. -/
lemma walkTreeFiltered_eq {fuel : ℕ} {treeId : ObjectId} {pfx : String}
    {full view : BTreeMap String ObjectId}
    (hfull : walkTree L s fuel treeId pfx ∅ = .ok (some full))
    (hview : walkTreeFiltered L s lattice rules treeId pfx accessor ∅ = .ok view) :
    view = restrict (visible lattice rules accessor) full := by
  rw [walkTreeFiltered, walkBounded_eq] at hview
  cases hb : walkBounded L s (fun _ => true) treeId pfx ∅ with
  | error e =>
      rw [hb] at hview
      cases hview
  | ok m =>
      rw [hb] at hview
      cases hview
      rw [walkBounded_agree hfull hb]

/-- Whether a filtered walk succeeds does not depend on the accessor. -/
lemma walkTreeFiltered_ok {treeId : ObjectId} {pfx : String} {view : BTreeMap String ObjectId}
    (hview : walkTreeFiltered L s lattice rules treeId pfx accessor ∅ = .ok view)
    (accessor' : Accessor) :
    ∃ view', walkTreeFiltered L s lattice rules treeId pfx accessor' ∅ = .ok view' := by
  rw [walkTreeFiltered, walkBounded_eq] at hview ⊢
  cases hb : walkBounded L s (fun _ => true) treeId pfx ∅ with
  | error e =>
      rw [hb] at hview
      cases hview
  | ok m => exact ⟨_, rfl⟩

/-- **The filtered walk shows exactly the readable part of the unfiltered flattening.**  Hence
trees that agree on the readable paths are shown alike, and more clearances show no less. -/
theorem filtered_walk_exact {fuel : ℕ} {treeId : ObjectId} {pfx : String}
    {full view : BTreeMap String ObjectId}
    (hfull : walkTree L s fuel treeId pfx ∅ = .ok (some full))
    (hview : walkTreeFiltered L s lattice rules treeId pfx accessor ∅ = .ok view) :
    (∀ path id, view[path]? = some id ↔ full[path]? = some id ∧
        (rules.labelForPath lattice path = lattice.bottom ∨
          accessor.canRead (rules.labelForPath lattice path) ⟨.path, path⟩ = true)) ∧
      (∀ (s' : ObjectStore) (fuel' : ℕ) (treeId' : ObjectId) (pfx' : String)
        (full' view' : BTreeMap String ObjectId),
        walkTree L s' fuel' treeId' pfx' ∅ = .ok (some full') →
        walkTreeFiltered L s' lattice rules treeId' pfx' accessor ∅ = .ok view' →
        (∀ path, (rules.labelForPath lattice path = lattice.bottom ∨
            accessor.canRead (rules.labelForPath lattice path) ⟨.path, path⟩ = true) →
          full[path]? = full'[path]?) →
        view = view') ∧
      ∀ accessor' : Accessor, accessor'.Extends accessor →
        ∃ view', walkTreeFiltered L s lattice rules treeId pfx accessor' ∅ = .ok view' ∧
          ∀ (path : String) (id : ObjectId), view[path]? = some id → view'[path]? = some id := by
  have heq := walkTreeFiltered_eq hfull hview
  refine ⟨fun path id => ?_, ?_, fun accessor' hext => ?_⟩
  · rw [heq, getElem?_restrict, ← visible_iff]
    by_cases hv : visible lattice rules accessor path = true
    · simp [hv]
    · simp [hv]
  · intro s' fuel' treeId' pfx' full' view' hfull' hview' hagree
    rw [heq, walkTreeFiltered_eq hfull' hview']
    refine Std.ExtTreeMap.ext_getElem? fun path => ?_
    rw [getElem?_restrict, getElem?_restrict]
    by_cases hv : visible lattice rules accessor path = true
    · rw [if_pos hv, if_pos hv, hagree path (visible_iff.mp hv)]
    · rw [if_neg hv, if_neg hv]
  · obtain ⟨view', hview'⟩ := walkTreeFiltered_ok hview accessor'
    refine ⟨view', hview', fun path id hid => ?_⟩
    rw [walkTreeFiltered_eq hfull hview', getElem?_restrict]
    rw [heq, getElem?_restrict] at hid
    split_ifs at hid with hv
    have hv' : visible lattice rules accessor' path = true :=
      visible_iff.mpr ((visible_iff.mp hv).imp_right (Accessor.canRead_of_extends hext))
    rw [if_pos hv', hid]

/-! ### What is below a root -/

/-- The tree entries a walk follows from a root, each with its path.  Nothing is said about the
object an entry names: it may be missing, or no tree. -/
inductive Below (L : Linked) (s : ObjectStore) (root : ObjectId) (pfx : String) :
    ObjectId → String → Prop where
  | root : Below L s root pfx root pfx
  | sub {id y : ObjectId} {p q : String} {t : Tree} : Below L s root pfx id p →
      s.getTree L id = .ok (some t) → (y, q) ∈ t.subtrees p → Below L s root pfx y q

/-- A file below a root has the path. -/
def ShowsPath (L : Linked) (s : ObjectStore) (root : ObjectId) (pfx path : String) : Prop :=
  ∃ id p t v, Below L s root pfx id p ∧ s.getTree L id = .ok (some t) ∧ (path, v) ∈ t.files p

variable {root : ObjectId} {pfx path : String}

lemma getTree_eq_some {id : ObjectId} {t : Tree} :
    s.getTree L id = .ok (some t) ↔ s.get L id = .ok (some (.tree t)) := by
  rw [ObjectStore.getTree]
  split
  · next e he => simp [he]
  · next t' ht => simp [ht]
  · next o hno ho =>
      constructor
      · intro h
        cases h
      · intro h
        rw [ho] at h
        exact absurd h (by simpa using hno t)

/-- The turns of the bounded walk open what is below the root. -/
lemma below_of_visits {item : ObjectId × String × ℕ}
    (h : Visits (openBounded L s) [(root, pfx, 0)] item) : Below L s root pfx item.1 item.2.1 := by
  induction h with
  | root h =>
      obtain rfl := List.mem_singleton.mp h
      exact .root
  | @inner x y r _ hr hy ih =>
      obtain ⟨-, ⟨t, hg, rfl⟩ | ⟨-, rfl⟩⟩ := openBounded_eq_ok.mp hr
      · obtain ⟨sub, hsub, rfl⟩ := List.mem_map.mp hy
        exact ih.sub hg hsub
      · cases hy

/-- A bounded walk that returns has opened everything below the root. -/
lemma visits_of_below {keep : String → Bool} {m : BTreeMap String ObjectId}
    (h : walkBounded L s keep root pfx ∅ = .ok m) {id : ObjectId} {p : String}
    (hb : Below L s root pfx id p) :
    ∃ depth, Visits (openBounded L s) [(root, pfx, 0)] (id, p, depth) := by
  rw [walkBounded] at h
  split at h
  · cases h
  · next m' hm =>
      induction hb with
      | root => exact ⟨0, .root (by simp)⟩
      | @sub id y p q t _ hg hsub ih =>
          obtain ⟨depth, hv⟩ := ih
          obtain ⟨r, hr⟩ := collect_visits hm hv
          refine ⟨depth + 1, hv.inner hr ?_⟩
          obtain ⟨-, ⟨t', hg', rfl⟩ | ⟨hg', -⟩⟩ := openBounded_eq_ok.mp hr
          · obtain rfl : t = t' := by simpa [hg] using hg'
            exact List.mem_map.mpr ⟨_, hsub, rfl⟩
          · simp [hg] at hg'
  · cases h

/-- Every object a bounded walk comes to reads, or is missing. -/
lemma getTree_of_visits {keep : String → Bool} {m : BTreeMap String ObjectId}
    (h : walkBounded L s keep root pfx ∅ = .ok m) {item : ObjectId × String × ℕ}
    (hv : Visits (openBounded L s) [(root, pfx, 0)] item) : ∃ o, s.getTree L item.1 = .ok o := by
  rw [walkBounded] at h
  split at h
  · cases h
  · next m' hm =>
      obtain ⟨r, hr⟩ := collect_visits hm hv
      obtain ⟨-, ⟨t, hg, -⟩ | ⟨hg, -⟩⟩ := openBounded_eq_ok.mp hr
      · exact ⟨_, hg⟩
      · exact ⟨_, hg⟩
  · cases h

/-- **The bounded walk shows** the paths below the root that pass. -/
lemma mem_walkBounded {keep : String → Bool} {m : BTreeMap String ObjectId}
    (h : walkBounded L s keep root pfx ∅ = .ok m) :
    path ∈ m ↔ keep path = true ∧ ShowsPath L s root pfx path := by
  have hwalk := h
  rw [walkBounded] at h
  split at h
  · cases h
  · next m' hm =>
      cases h
      rw [mem_collect hm]
      simp only [Std.ExtTreeMap.not_mem_empty, false_or]
      refine and_congr_right fun _ => ⟨?_, ?_⟩
      · rintro ⟨item, r, v, hv, hr, hmem⟩
        obtain ⟨-, ⟨t, hg, rfl⟩ | ⟨-, rfl⟩⟩ := openBounded_eq_ok.mp hr
        · exact ⟨_, _, t, v, below_of_visits hv, hg, hmem⟩
        · cases hmem
      · rintro ⟨id, p, t, v, hb, hg, hmem⟩
        obtain ⟨depth, hv⟩ := visits_of_below hwalk hb
        obtain ⟨r, hr⟩ := collect_visits hm hv
        refine ⟨_, r, v, hv, hr, ?_⟩
        obtain ⟨-, ⟨t', hg', rfl⟩ | ⟨hg', -⟩⟩ := openBounded_eq_ok.mp hr
        · obtain rfl : t = t' := by simpa [hg] using hg'
          exact hmem
        · simp [hg] at hg'
  · cases h

lemma mem_walkTreeFiltered {m : BTreeMap String ObjectId}
    (h : walkTreeFiltered L s lattice rules root pfx accessor ∅ = .ok m) :
    path ∈ m ↔ visible lattice rules accessor path = true ∧ ShowsPath L s root pfx path :=
  mem_walkBounded h

/-- The strict walk shows only paths below the root. -/
lemma showsPath_of_walkTree {fuel : ℕ} {m : BTreeMap String ObjectId}
    (h : walkTree L s fuel root pfx ∅ = .ok (some m)) (hp : path ∈ m) :
    ShowsPath L s root pfx path := by
  have hbelow : ∀ item, Visits (openTree L s) [(root, pfx)] item →
      Below L s root pfx item.1 item.2 := by
    intro item hv
    induction hv with
    | root hx =>
        obtain rfl := List.mem_singleton.mp hx
        exact .root
    | @inner x y r _ hr hy ih =>
        obtain ⟨t, hg, rfl⟩ := openTree_eq_ok.mp hr
        exact ih.sub hg hy
  rw [walkTree] at h
  rcases (mem_collect h).mp hp with hp | ⟨-, item, r, v, hv, hr, hmem⟩
  · simp at hp
  · obtain ⟨t, hg, rfl⟩ := openTree_eq_ok.mp hr
    exact ⟨_, _, t, v, hbelow item hv, hg, hmem⟩

/-- **A complete tree stays as it is** while the store grows: where every object below the root
is there, a later store has nothing else below it. -/
lemma Below.of_grows {t : ObjectStore} (hgrows : s.Grows L t)
    (hall : ∀ id p, Below L s root pfx id p → ∃ obj, s.get L id = .ok (some obj))
    {id : ObjectId} {p : String} (h : Below L t root pfx id p) : Below L s root pfx id p := by
  induction h with
  | root => exact .root
  | @sub id y p q u _ hg hsub ih =>
      obtain ⟨obj, hobj⟩ := hall id p ih
      have ht := ObjectStore.object_eq_some.mp
        (hgrows id obj (ObjectStore.object_eq_some.mpr hobj))
      rw [getTree_eq_some, ht] at hg
      obtain rfl : obj = .tree u := by simpa using hg
      exact ih.sub (getTree_eq_some.mpr hobj) hsub

lemma ShowsPath.of_grows {t : ObjectStore} (hgrows : s.Grows L t)
    (hall : ∀ id p, Below L s root pfx id p → ∃ obj, s.get L id = .ok (some obj))
    (h : ShowsPath L t root pfx path) : ShowsPath L s root pfx path := by
  obtain ⟨id, p, u, v, hb, hg, hmem⟩ := h
  have hb' := hb.of_grows hgrows hall
  obtain ⟨obj, hobj⟩ := hall id p hb'
  have ht := ObjectStore.object_eq_some.mp
    (hgrows id obj (ObjectStore.object_eq_some.mpr hobj))
  rw [getTree_eq_some, ht] at hg
  obtain rfl : obj = .tree u := by simpa using hg
  exact ⟨id, p, u, v, hb', getTree_eq_some.mpr hobj, hmem⟩

/-! ### Trees that are not too deep -/

/-- What the tree entries lead to can be read, and nests at most so many levels deep. -/
def fitsDepth (L : Linked) (s : ObjectStore) : ℕ → ObjectId → Bool
  | 0, _ => false
  | d + 1, id =>
      match s.getTree L id with
      | .error _ => false
      | .ok none => true
      | .ok (some t) => (t.subtrees "").all fun sub => fitsDepth L s d sub.1

/-- The levels left at an item of the walk. -/
lemma fitsDepth_of_visits {root : ObjectId} {pfx : String}
    (h : fitsDepth L s maxTreeDepth root = true)
    {item : ObjectId × String × ℕ} (hv : Visits (openBounded L s) [(root, pfx, 0)] item) :
    fitsDepth L s (maxTreeDepth - item.2.2) item.1 = true := by
  induction hv with
  | root hx =>
      rw [List.mem_singleton.mp hx]
      exact h
  | @inner x y r _ hr hy ih =>
      obtain ⟨hdepth, ⟨t, hg, rfl⟩ | ⟨-, rfl⟩⟩ := openBounded_eq_ok.mp hr
      · obtain ⟨sub, hsub, rfl⟩ := List.mem_map.mp hy
        obtain ⟨d, hd⟩ : ∃ d, maxTreeDepth - x.2.2 = d + 1 := ⟨_, (Nat.succ_pred (by omega)).symm⟩
        rw [hd, fitsDepth, hg, List.all_eq_true] at ih
        have hmem : sub.1 ∈ (t.subtrees "").map Prod.fst := by
          rw [← map_fst_subtrees t x.2.1]
          exact List.mem_map_of_mem hsub
        obtain ⟨sub', hsub', heq⟩ := List.mem_map.mp hmem
        have hnext : maxTreeDepth - (x.2.2 + 1) = d := by omega
        dsimp only
        rw [hnext, ← heq]
        exact ih sub' hsub'
      · cases hy

/-- **The filtered walk of a tree of admissible depth succeeds.** -/
lemma walkTreeFiltered_of_fits {root : ObjectId} (h : fitsDepth L s maxTreeDepth root = true)
    (lattice : LabelLattice) (rules : LabelRuleSet) (accessor : Accessor) (pfx : String) :
    ∃ view, walkTreeFiltered L s lattice rules root pfx accessor ∅ = .ok view := by
  rw [walkTreeFiltered, walkBounded]
  split
  · next e hm =>
      obtain ⟨item, hv, he⟩ := collect_error hm
      have hfits := fitsDepth_of_visits h hv
      rw [openBounded] at he
      split_ifs at he with hdepth
      · rw [Nat.sub_eq_zero_of_le hdepth] at hfits
        cases hfits
      · obtain ⟨d, hd⟩ : ∃ d, maxTreeDepth - item.2.2 = d + 1 :=
          ⟨_, (Nat.succ_pred (by omega)).symm⟩
        rw [hd, fitsDepth] at hfits
        cases hg : s.getTree L item.1 with
        | error e' => simp [hg] at hfits
        | ok o => cases o <;> simp [hg] at he
  · next m hm => exact ⟨m, rfl⟩
  · next hm => exact absurd hm (walkBounded_ne_none _ _ _ _)

/-! ### A nested tree -/

/-- A tree with a file below a directory, and a file whose entry name has a slash in it. -/
def walkObjects : List Object :=
  let file : Object := .blob (ascii "data")
  let dir : Object := .tree ⟨(∅ : BTreeMap String TreeEntry).insert "x" ⟨file.refId, .blob⟩⟩
  [file, dir, .tree ⟨((∅ : BTreeMap String TreeEntry).insert "src" ⟨dir.refId, .tree⟩).insert
    "secrets/key" ⟨file.refId, .blob⟩⟩]

/-- The crates with a codec for these objects. -/
def walkLinked : Linked := .over walkObjects

/-- The root of the tree. -/
def walkRoot : ObjectId := (walkObjects.getD 2 (.blob [])).refId

/-- What is below `secrets` is protected. -/
def walkRules : LabelRuleSet := derivedRules ["secrets/**"] [] []

/-- Both walks of that tree succeed, and an accessor without clearances is shown the part
outside `secrets`. -/
theorem filtered_walk_exact_nested :
    ∃ full view, walkTree walkLinked (.holding walkLinked walkObjects) 2 walkRoot "" ∅ =
        .ok (some full) ∧
      walkTreeFiltered walkLinked (.holding walkLinked walkObjects) .twoPoint walkRules walkRoot ""
        .new ∅ = .ok view ∧
      ∀ path id, view[path]? = some id ↔ full[path]? = some id ∧
        (walkRules.labelForPath .twoPoint path = LabelLattice.twoPoint.bottom ∨
          Accessor.new.canRead (walkRules.labelForPath .twoPoint path) ⟨.path, path⟩ = true) := by
  have h1 : ((walkTree walkLinked (.holding walkLinked walkObjects) 2 walkRoot "" ∅).toOption.bind
      id).isSome = true := by decide +kernel
  have h2 : (walkTreeFiltered walkLinked (.holding walkLinked walkObjects) .twoPoint walkRules
      walkRoot "" .new ∅).toOption.isSome = true := by decide +kernel
  obtain ⟨view, hview⟩ := exists_of_isOk h2
  cases hw : walkTree walkLinked (.holding walkLinked walkObjects) 2 walkRoot "" ∅ with
  | error e => simp [hw, Except.toOption] at h1
  | ok o =>
      cases o with
      | none => simp [hw, Except.toOption] at h1
      | some full => exact ⟨full, view, rfl, hview, (filtered_walk_exact hw hview).1⟩

end Bole
