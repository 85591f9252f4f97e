import Bole.Lib.Search
import Bole.Lib.Traverse
import Bole.Store.ObjectStore

/-!
The object graph and the loops that walk it: `child_edges` and `missing_closure` of
`src/sync/negotiate.rs`, `mark_reachable` of `src/repo/mod.rs`, `closure_present` of
`src/sync/session.rs`, `is_ancestor` of `src/acl/hook.rs`.

All of them are instances of the two loops of the library: the first three mark a node when it
is popped, the last one when it is pushed.

* `walk_spec`: what a finished walk has marked and put out;
* `walk_congr`: two stores that read alike where a walk leads are walked alike;
* `closurePresent_true`: what the closure check decides;
* `isAncestor_ok`: what the ancestry check decides.
-/

namespace Bole

open Traverse

/-! ### Edges -/

/-- The ids an overlay refers to. -/
def EnvOverlay.secrets (o : EnvOverlay) : List ObjectId :=
  o.entries.values.filterMap fun
    | .secret id => some id
    | .plain _ => none

/-- `child_edges`. -/
def childEdges : Object → List ObjectId
  | .snapshot s => s.root :: s.parents
  | .tree t => t.entries.values.map TreeEntry.id
  | .envOverlay o => o.secrets
  | .policy (.root r) => [r.lattice, r.rules] ++ r.parent.toList
  | _ => []

/-- The values of a map are those of its keys. -/
lemma mem_values {κ υ : Type} [Ord κ] [Std.TransOrd κ] [Std.LawfulEqOrd κ] {m : BTreeMap κ υ}
    {v : υ} : v ∈ m.values ↔ ∃ k : κ, m[k]? = some v := by
  have hlist : m.values = m.toList.map Prod.snd := by
    obtain ⟨q⟩ := m
    induction q using Std.ExtDTreeMap.inductionOn with
    | mk d =>
        change d.inner.values = (Std.DTreeMap.Internal.Impl.Const.toList d.inner).map Prod.snd
        rw [Std.DTreeMap.Internal.Impl.values_eq_map_snd,
          Std.DTreeMap.Internal.Impl.Const.toList_eq_toListModel_map]
        simp [Function.comp_def]
  rw [hlist, List.mem_map]
  constructor
  · rintro ⟨⟨k, v⟩, h, rfl⟩
    exact ⟨k, Std.ExtTreeMap.mem_toList_iff_getElem?_eq_some.mp h⟩
  · rintro ⟨k, h⟩
    exact ⟨(k, v), Std.ExtTreeMap.mem_toList_iff_getElem?_eq_some.mpr h, rfl⟩

/-- The ids `mark_reachable` pushes for an object. -/
def markEdges : Object → List ObjectId
  | .snapshot s => s.root :: s.parents
  | .tree t => t.entries.values.map TreeEntry.id
  | .envOverlay o => o.secrets
  | _ => []

lemma markEdges_subset (o : Object) : markEdges o ⊆ childEdges o := by
  cases o <;> simp [markEdges, childEdges]

/-- The two differ on policy roots only. -/
lemma markEdges_eq {o : Object} (h : ∀ r, o ≠ .policy (.root r)) : markEdges o = childEdges o := by
  cases o with
  | policy p =>
      cases p with
      | root r => exact absurd rfl (h r)
      | _ => rfl
  | _ => rfl

/-! ### Walks -/

section Walk

variable (L : Linked) (s : ObjectStore) (edges : Object → List ObjectId)

/-- Loading a popped node: a read that fails ends the loop, a missing object is a leaf. -/
def visit (id : ObjectId) : Except Error (List ObjectId × List ObjectId) :=
  match s.get L id with
  | .error e => .error e
  | .ok none => .ok ([], [])
  | .ok (some obj) => .ok (edges obj, [id])

/-- The edges out of a stored object. -/
def outEdges (id : ObjectId) : List ObjectId :=
  match s.object L id with
  | some obj => edges obj
  | none => []

/-- One turn for each root and for each edge of the store. -/
def edgeFuel (roots : List ObjectId) : ℕ :=
  roots.length + ∑ id ∈ s.list.toFinset, (outEdges L s edges id).length

/-- A walk from `roots` that does not enter a node `skip` refuses: the nodes it marked, and the
stored ones among them in the order they were popped. -/
def walk (skip : ObjectId → Bool) (roots : List ObjectId) :
    Result (Finset ObjectId × List ObjectId) :=
  match traverse skip (visit L s edges) (edgeFuel L s edges roots) roots.reverse ∅ [] with
  | .error e => .error e
  | .ok (some r) => .ok r
  | .ok none => .error (.panic "out of fuel")

/-- `x` is reached from `roots` through stored objects and nodes that are not refused. -/
def ReachVia (skip : ObjectId → Bool) (roots : List ObjectId) : ObjectId → Prop :=
  Reach skip (outEdges L s edges) roots

variable {L s edges} {skip : ObjectId → Bool} {roots : List ObjectId}

lemma outEdges_of_object {id : ObjectId} {obj : Object} (h : s.object L id = some obj) :
    outEdges L s edges id = edges obj := by
  simp [outEdges, h]

lemma outEdges_of_none {id : ObjectId} (h : s.object L id = none) :
    outEdges L s edges id = [] := by
  simp [outEdges, h]

lemma pushes_visit (id : ObjectId) : pushes (visit L s edges) id = outEdges L s edges id := by
  rw [pushes, visit, outEdges, ObjectStore.object]
  cases s.get L id with
  | error e => rfl
  | ok o => cases o <;> rfl

lemma mem_emits_visit {id x : ObjectId} :
    x ∈ emits (visit L s edges) id ↔ x = id ∧ (s.object L id).isSome := by
  rw [emits, visit, ObjectStore.object]
  cases s.get L id with
  | error e => simp
  | ok o => cases o <;> simp

lemma outEdges_of_not_listed {id : ObjectId} (h : id ∉ s.list.toFinset) :
    outEdges L s edges id = [] := by
  cases ho : s.object L id with
  | none => exact outEdges_of_none ho
  | some obj => exact absurd (List.mem_toFinset.mpr (ObjectStore.listed_of_object ho)) h

/-- The fuel of a walk is enough. -/
lemma walk_ne_none : traverse skip (visit L s edges) (edgeFuel L s edges roots) roots.reverse ∅ []
    ≠ .ok none := by
  refine traverse_ne_none (U := s.list.toFinset) (fun x hx => ?_) ?_
  · rw [pushes_visit]
    exact outEdges_of_not_listed hx
  · rw [List.length_reverse]
    simp only [pushes_visit]
    exact le_rfl

lemma reachVia_reverse {x : ObjectId} :
    Reach skip (pushes (visit L s edges)) roots.reverse x ↔ ReachVia L s edges skip roots x := by
  have hp : pushes (visit L s edges) = outEdges L s edges := funext pushes_visit
  rw [hp]
  constructor
  · exact Reach.mono (fun _ h => h) (fun _ h => by simpa using h) fun _ _ _ h => h
  · exact Reach.mono (fun _ h => h) (fun _ h => by simpa using h) fun _ _ _ h => h

/-- **A finished walk** has marked exactly what it reaches, could read all of it, and puts out
the stored objects among it. -/
theorem walk_spec {seen : Finset ObjectId} {out : List ObjectId}
    (h : walk L s edges skip roots = .ok (seen, out)) :
    (∀ x, x ∈ seen ↔ ReachVia L s edges skip roots x) ∧
      (∀ x ∈ seen, ∃ o, s.get L x = .ok o) ∧
      ∀ x, x ∈ out ↔ ReachVia L s edges skip roots x ∧ (s.object L x).isSome := by
  rw [walk] at h
  split at h
  · cases h
  · next r ht =>
      obtain rfl : r = (seen, out) := by simpa using h
      obtain ⟨hseen, hread, hout⟩ := traverse_reach ht
      have hseen' : ∀ x, x ∈ seen ↔ ReachVia L s edges skip roots x := fun x =>
        (hseen x).trans reachVia_reverse
      refine ⟨hseen', fun x hx => ?_, fun x => ?_⟩
      · obtain ⟨r, hr⟩ := hread x hx
        rw [visit] at hr
        cases hg : s.get L x with
        | error e => simp [hg] at hr
        | ok o => exact ⟨o, rfl⟩
      · rw [hout]
        constructor
        · rintro ⟨y, hy, hx⟩
          obtain ⟨rfl, hs⟩ := mem_emits_visit.mp hx
          exact ⟨(hseen' _).mp hy, hs⟩
        · rintro ⟨hx, hs⟩
          exact ⟨x, (hseen' x).mpr hx, mem_emits_visit.mpr ⟨rfl, hs⟩⟩
  · cases h

/-- **A walk puts nothing out twice.** -/
lemma walk_nodup {seen : Finset ObjectId} {out : List ObjectId}
    (h : walk L s edges skip roots = .ok (seen, out)) : out.Nodup := by
  rw [walk] at h
  split at h
  · cases h
  · next r ht =>
      obtain rfl : r = (seen, out) := by simpa using h
      refine traverse_nodup (fun x => ?_) (fun x y b hx hy => ?_) ht
      · rw [emits, visit]
        cases s.get L x with
        | error e => simp
        | ok o => cases o <;> simp
      · exact (mem_emits_visit.mp hx).1.symm.trans (mem_emits_visit.mp hy).1
  · cases h

/-- A walk fails only where an object it comes to cannot be read. -/
lemma walk_error {e : Error} (h : walk L s edges skip roots = .error e) :
    ∃ x, ReachVia L s edges skip roots x ∧ s.get L x = .error e := by
  rw [walk] at h
  split at h
  · next e' ht =>
      obtain rfl : e' = e := by simpa using h
      obtain ⟨x, hx, hv⟩ := traverse_exit ht
      refine ⟨x, reachVia_reverse.mp hx, ?_⟩
      rw [visit] at hv
      cases hg : s.get L x with
      | error e'' => simpa [hg] using hv
      | ok o => cases o <;> simp [hg] at hv
  · cases h
  · next ht => exact absurd ht walk_ne_none

/-- **Two stores that read alike where the first walk leads are walked alike.** -/
theorem walk_congr {s' : ObjectStore}
    (h : ∀ x, ReachVia L s edges skip roots x → s.get L x = s'.get L x) :
    walk L s edges skip roots = walk L s' edges skip roots := by
  rw [walk, walk, traverse_congr (fun x hx => ?_) walk_ne_none walk_ne_none]
  rw [visit, visit, h x (reachVia_reverse.mp hx)]

end Walk

/-! ### The four loops -/

/-- `mark_reachable`. -/
def markReachable (L : Linked) (s : ObjectStore) (roots : List ObjectId) :
    Result (Finset ObjectId) := do
  let (reachable, _) ← walk L s markEdges (fun _ => false) roots
  .ok reachable

/-- `missing_closure`. -/
def missingClosure (L : Linked) (s : ObjectStore) (wants : List ObjectId)
    (have_ : Finset ObjectId) : Result (List ObjectId) := do
  let (_, out) ← walk L s childEdges (fun id => decide (id ∈ have_)) wants
  .ok out

/-- `x` is in the closure of `roots` under `child_edges`. -/
def Closure (L : Linked) (s : ObjectStore) (roots : List ObjectId) : ObjectId → Prop :=
  ReachVia L s childEdges (fun _ => false) roots

variable {L : Linked} {s t : ObjectStore}

lemma mem_markReachable {roots : List ObjectId} {reachable : Finset ObjectId}
    (h : markReachable L s roots = .ok reachable) (x : ObjectId) :
    x ∈ reachable ↔ ReachVia L s markEdges (fun _ => false) roots x := by
  rw [markReachable, Result.bind_eq_ok] at h
  obtain ⟨⟨seen, out⟩, hw, h⟩ := h
  obtain rfl : seen = reachable := by simpa using h
  exact (walk_spec hw).1 x

lemma mem_missingClosure {wants out : List ObjectId} {have_ : Finset ObjectId}
    (h : missingClosure L s wants have_ = .ok out) (x : ObjectId) :
    x ∈ out ↔ ReachVia L s childEdges (fun id => decide (id ∈ have_)) wants x ∧
      (s.object L x).isSome := by
  rw [missingClosure, Result.bind_eq_ok] at h
  obtain ⟨⟨seen, out'⟩, hw, h⟩ := h
  obtain rfl : out' = out := by simpa using h
  exact (walk_spec hw).2.2 x

/-- What a pruned walk reaches is in the closure. -/
lemma closure_of_reachVia {skip : ObjectId → Bool} {roots : List ObjectId} {x : ObjectId}
    (h : ReachVia L s childEdges skip roots x) : Closure L s roots x :=
  Reach.mono (fun _ _ => rfl) (fun _ h => h) (fun _ _ _ h => h) h

/-- Every object below the id can be read. -/
def Complete (L : Linked) (s : ObjectStore) (id : ObjectId) : Prop :=
  ∀ x, Closure L s [id] x → (s.object L x).isSome

/-- A store that reads like another one where that one's closure leads has the same closure. -/
lemma closure_iff_of_agree {roots : List ObjectId}
    (h : ∀ y, Closure L s roots y → t.object L y = s.object L y) {x : ObjectId} :
    Closure L t roots x ↔ Closure L s roots x := by
  constructor
  · intro hx
    induction hx with
    | root hx hs => exact .root hx hs
    | step _ hy hs ih =>
        refine .step ih ?_ hs
        rwa [outEdges, ← h _ ih]
  · intro hx
    induction hx with
    | root hx hs => exact .root hx hs
    | step hreach hy hs ih =>
        refine .step ih ?_ hs
        rwa [outEdges, h _ hreach]

/-- What is missing has no complete closure. -/
lemma not_complete_of_missing {s : ObjectStore} {id : ObjectId} (h : s.getRaw L id = .ok none) :
    ¬ Complete L s id := by
  intro hcomplete
  have hsome := hcomplete id (.root (by simp) rfl)
  rw [ObjectStore.object, ObjectStore.get_of_getRaw_none h] at hsome
  cases hsome

/-- **A complete closure stays complete** while the store grows. -/
lemma Complete.grows {id : ObjectId} (h : Complete L s id) (hst : s.Grows L t) :
    Complete L t id := by
  have hagree : ∀ y, Closure L s [id] y → t.object L y = s.object L y := by
    intro y hy
    obtain ⟨obj, hobj⟩ := Option.isSome_iff_exists.mp (h y hy)
    rw [hobj]
    exact hst y obj hobj
  intro x hx
  rw [closure_iff_of_agree hagree] at hx
  rw [hagree x hx]
  exact h x hx

/-- What is below an object is the object and what is below its edges. -/
lemma closure_cases {s : ObjectStore} {id x : ObjectId} {obj : Object}
    (hobj : s.object L id = some obj) (h : Closure L s [id] x) :
    x = id ∨ ∃ y ∈ childEdges obj, Closure L s [y] x := by
  induction h with
  | root hx _ => exact Or.inl (List.mem_singleton.mp hx)
  | step _ hy hs ih =>
      rcases ih with rfl | ⟨z, hz, hreach⟩
      · rw [outEdges, hobj] at hy
        exact Or.inr ⟨_, hy, .root (by simp) hs⟩
      · exact Or.inr ⟨z, hz, .step hreach hy hs⟩

/-- An object whose edges have complete closures has one. -/
lemma complete_of_edges {s : ObjectStore} {id : ObjectId} {obj : Object}
    (hobj : s.object L id = some obj) (h : ∀ y ∈ childEdges obj, Complete L s y) :
    Complete L s id := by
  intro x hx
  rcases closure_cases hobj hx with rfl | ⟨y, hy, hreach⟩
  · rw [hobj]
    rfl
  · exact h y hy x hreach

/-- The visit of `closure_present`: a missing object ends the loop with `false`. -/
def presentVisit (L : Linked) (s : ObjectStore) (id : ObjectId) :
    Except (Result Bool) (List ObjectId × List ObjectId) :=
  match s.get L id with
  | .error e => .error (.error e)
  | .ok none => .error (.ok false)
  | .ok (some obj) => .ok (childEdges obj, [])

/-- `closure_present`. -/
def closurePresent (L : Linked) (s : ObjectStore) (root : ObjectId) : Result Bool :=
  match traverse (fun _ => false) (presentVisit L s) (edgeFuel L s childEdges [root]) [root] ∅ []
    with
  | .error r => r
  | .ok (some _) => .ok true
  | .ok none => .error (.panic "out of fuel")

lemma pushes_presentVisit (id : ObjectId) :
    pushes (presentVisit L s) id = outEdges L s childEdges id := by
  rw [pushes, presentVisit, outEdges, ObjectStore.object]
  cases s.get L id with
  | error e => rfl
  | ok o => cases o <;> rfl

/-- **A closure that is found present is**: every object of it reads. -/
theorem closurePresent_true {root : ObjectId} (h : closurePresent L s root = .ok true) :
    ∀ x, Closure L s [root] x → (s.object L x).isSome := by
  have hp : pushes (presentVisit L s) = outEdges L s childEdges := funext pushes_presentVisit
  intro x hx
  rw [closurePresent] at h
  split at h
  · next r ht =>
      obtain ⟨y, -, hv⟩ := traverse_exit ht
      rw [presentVisit] at hv
      rw [h] at hv
      cases hg : s.get L y with
      | error e => simp [hg] at hv
      | ok o => cases o <;> simp [hg] at hv
  · next r ht =>
      obtain ⟨seen, out⟩ := r
      obtain ⟨hseen, hread, -⟩ := traverse_reach ht
      rw [hp] at hseen
      obtain ⟨r, hr⟩ := hread x ((hseen x).mpr hx)
      rw [presentVisit] at hr
      cases hg : s.get L x with
      | error e => simp [hg] at hr
      | ok o =>
          cases o with
          | none => simp [hg] at hr
          | some obj => simp [ObjectStore.object, hg]
  · cases h

/-- **A complete closure is found present.** -/
theorem closurePresent_of_complete {root : ObjectId} (h : Complete L s root) :
    closurePresent L s root = .ok true := by
  have hp : pushes (presentVisit L s) = outEdges L s childEdges := funext pushes_presentVisit
  rw [closurePresent]
  split
  · next r ht =>
      obtain ⟨x, hx, hv⟩ := traverse_exit ht
      rw [hp] at hx
      obtain ⟨obj, hobj⟩ := Option.isSome_iff_exists.mp (h x hx)
      rw [presentVisit, ObjectStore.object_eq_some.mp hobj] at hv
      cases hv
  · rfl
  · next ht =>
      refine absurd ht (traverse_ne_none (U := s.list.toFinset) (fun x hx => ?_) ?_)
      · rw [hp]
        exact outEdges_of_not_listed hx
      · rw [hp]
        exact le_rfl

/-- Where every object can be read the check answers. -/
lemma closurePresent_answers (h : ∀ id, ∃ o, s.get L id = .ok o) (root : ObjectId) :
    ∃ present, closurePresent L s root = .ok present := by
  have hp : pushes (presentVisit L s) = outEdges L s childEdges := funext pushes_presentVisit
  rw [closurePresent]
  split
  · next r ht =>
      obtain ⟨x, -, hv⟩ := traverse_exit ht
      obtain ⟨o, ho⟩ := h x
      rw [presentVisit, ho] at hv
      cases o with
      | none =>
          cases hv
          exact ⟨false, rfl⟩
      | some obj => cases hv
  · exact ⟨true, rfl⟩
  · next ht =>
      refine absurd ht (traverse_ne_none (U := s.list.toFinset) (fun x hx => ?_) ?_)
      · rw [hp]
        exact outEdges_of_not_listed hx
      · rw [hp]
        exact le_rfl

/-! ### Ancestry -/

/-- The parents a stored snapshot names; nothing for any other object. -/
def snapshotParents (L : Linked) (s : ObjectStore) (id : ObjectId) : Result (List ObjectId) :=
  match s.get L id with
  | .error e => .error e
  | .ok (some (.snapshot sn)) => .ok sn.parents
  | .ok _ => .ok []

/-- `b` is a parent of the stored snapshot `a`. -/
def Parent (L : Linked) (s : ObjectStore) (a b : ObjectId) : Prop :=
  ∃ sn, s.object L a = some (.snapshot sn) ∧ b ∈ sn.parents

/-- `new` is `old` or descends from it through snapshot parents. -/
def Descends (L : Linked) (s : ObjectStore) (new old : ObjectId) : Prop :=
  Relation.ReflTransGen (Parent L s) new old

/-- Descent lasts while the store grows. -/
lemma Descends.mono (h : s.Grows L t) {new old : ObjectId}
    (hd : Descends L s new old) : Descends L t new old := by
  refine Relation.ReflTransGen.mono (fun a b hab => ?_) _ _ hd
  obtain ⟨sn, hsn, hb⟩ := hab
  exact ⟨sn, h a _ hsn, hb⟩

/-- Every id some stored object refers to. -/
def edgeTargets (L : Linked) (s : ObjectStore) : Finset ObjectId :=
  s.list.toFinset.biUnion fun id => (outEdges L s childEdges id).toFinset

/-- `is_ancestor`. -/
def isAncestor (L : Linked) (s : ObjectStore) (ancestor descendant : ObjectId) : Result Bool :=
  if ancestor = descendant then .ok true
  else
    match Search.search (snapshotParents L s) ancestor ((edgeTargets L s).card + 1) [descendant] ∅
      with
    | .error e => .error e
    | .ok (some found) => .ok found
    | .ok none => .error (.panic "out of fuel")

lemma edge_snapshotParents {a b : ObjectId} :
    Search.Edge (snapshotParents L s) a b ↔ Parent L s a b := by
  simp only [Search.Edge, Parent, ObjectStore.object_eq_some]
  constructor
  · rintro ⟨ys, hys, hb⟩
    rw [snapshotParents] at hys
    split at hys
    · cases hys
    · next sn hg =>
        cases hys
        exact ⟨sn, hg, hb⟩
    · cases hys
      simp at hb
  · rintro ⟨sn, hg, hb⟩
    exact ⟨sn.parents, by simp [snapshotParents, hg], hb⟩

lemma mem_edgeTargets {a b : ObjectId} {obj : Object} (ha : s.object L a = some obj)
    (hb : b ∈ childEdges obj) : b ∈ edgeTargets L s := by
  rw [edgeTargets, Finset.mem_biUnion]
  refine ⟨a, List.mem_toFinset.mpr (ObjectStore.listed_of_object ha), ?_⟩
  rw [outEdges_of_object ha]
  simpa using hb

lemma Parent.mem_edgeTargets {a b : ObjectId} (h : Parent L s a b) : b ∈ edgeTargets L s := by
  obtain ⟨sn, hsn, hb⟩ := h
  exact Bole.mem_edgeTargets hsn (by simp [childEdges, hb])

/-- The ancestor search never runs out of fuel. -/
lemma isAncestor_search_ne_none (ancestor descendant : ObjectId) :
    Search.search (snapshotParents L s) ancestor ((edgeTargets L s).card + 1) [descendant] ∅
      ≠ .ok none := by
  refine Search.search_ne_none (U := edgeTargets L s)
    (fun x y h => (edge_snapshotParents.mp h).mem_edgeTargets) (Finset.empty_subset _) ?_
  simp
  omega

/-- **The ancestry check decides descent** through snapshot parents, where it returns. -/
theorem isAncestor_ok {ancestor descendant : ObjectId} {b : Bool}
    (h : isAncestor L s ancestor descendant = .ok b) :
    b = true ↔ Descends L s descendant ancestor := by
  have hedge : Search.Edge (snapshotParents L s) = Parent L s := by
    funext x y
    exact propext edge_snapshotParents
  rw [isAncestor] at h
  rw [Descends, Relation.reflTransGen_iff_eq_or_transGen]
  split_ifs at h with heq
  · simp only [Except.ok.injEq] at h
    simp [← h, heq]
  · cases hs : Search.search (snapshotParents L s) ancestor ((edgeTargets L s).card + 1)
        [descendant] ∅ with
    | error e => simp [hs] at h
    | ok o =>
        cases o with
        | none => exact absurd hs (isAncestor_search_ne_none _ _)
        | some found =>
            obtain rfl : found = b := by simpa [hs] using h
            cases found with
            | true =>
                obtain ⟨x, hx, hpath⟩ := Search.search_true hs
                rw [List.mem_singleton.mp hx, hedge] at hpath
                simpa using Or.inr hpath
            | false =>
                have hno := Search.search_false (Search.closed_empty [descendant]) hs descendant
                  (by simp)
                rw [hedge] at hno
                simp [heq, hno]

/-- What a snapshot descends from is below it. -/
lemma Descends.closure {new old : ObjectId} (h : Descends L s new old) :
    Closure L s [new] old := by
  induction h with
  | refl => exact .root (by simp) rfl
  | tail _ hab ih =>
      obtain ⟨sn, hsn, hb⟩ := hab
      refine .step ih ?_ rfl
      rw [outEdges_of_object hsn]
      simp [childEdges, hb]

/-- Descent is kept by a store that reads alike below the descendant. -/
lemma Descends.of_agree {new old : ObjectId}
    (hagree : ∀ x, Closure L s [new] x → t.object L x = s.object L x)
    (h : Descends L s new old) : Descends L t new old := by
  induction h with
  | refl => exact .refl
  | @tail a b hd hab ih =>
      obtain ⟨sn, hsn, hb⟩ := hab
      refine ih.tail ⟨sn, ?_, hb⟩
      rw [hagree a (Descends.closure hd), hsn]

/-- Every snapshot a snapshot descends from can be read. -/
def HistoryPresent (L : Linked) (s : ObjectStore) (id : ObjectId) : Prop :=
  ∀ x, Descends L s id x → (s.object L x).isSome

lemma Complete.history {id : ObjectId} (h : Complete L s id) : HistoryPresent L s id :=
  fun x hx => h x (Descends.closure hx)

/-- The parents of a snapshot that can be read are read. -/
lemma snapshotParents_of_get {id : ObjectId} (h : ∃ o, s.get L id = .ok o) :
    ∃ ps, snapshotParents L s id = .ok ps := by
  obtain ⟨o, ho⟩ := h
  rw [snapshotParents, ho]
  cases o with
  | none => exact ⟨[], rfl⟩
  | some obj => cases obj <;> exact ⟨_, rfl⟩

lemma snapshotParents_of_isSome {id : ObjectId} (h : (s.object L id).isSome) :
    ∃ ps, snapshotParents L s id = .ok ps := by
  obtain ⟨obj, hobj⟩ := Option.isSome_iff_exists.mp h
  exact snapshotParents_of_get ⟨_, ObjectStore.object_eq_some.mp hobj⟩

/-- The ancestry check returns where the history can be read. -/
lemma isAncestor_of_history {ancestor descendant : ObjectId} (h : HistoryPresent L s descendant) :
    ∃ b, isAncestor L s ancestor descendant = .ok b := by
  have hedge : Search.Edge (snapshotParents L s) = Parent L s := by
    funext x y
    exact propext edge_snapshotParents
  rw [isAncestor]
  split_ifs
  · exact ⟨true, rfl⟩
  · split
    · next e hs =>
        obtain ⟨x, hx, y, hpath, hy⟩ := Search.search_error hs
        rw [List.mem_singleton.mp hx, hedge] at hpath
        obtain ⟨ps, hps⟩ := snapshotParents_of_isSome (h y hpath)
        rw [hps] at hy
        cases hy
    · next found _ => exact ⟨found, rfl⟩
    · next hs => exact absurd hs (isAncestor_search_ne_none _ _)

lemma isAncestor_of_complete {ancestor descendant : ObjectId} (h : Complete L s descendant) :
    ∃ b, isAncestor L s ancestor descendant = .ok b := isAncestor_of_history h.history

/-- **Stores that read alike below the descendant give the same verdict.** -/
lemma isAncestor_congr {ancestor descendant : ObjectId} (h : Complete L s descendant)
    (hagree : ∀ x, Closure L s [descendant] x → t.object L x = s.object L x) :
    isAncestor L t ancestor descendant = isAncestor L s ancestor descendant := by
  have hcomplete : Complete L t descendant := fun x hx => by
    rw [closure_iff_of_agree hagree] at hx
    rw [hagree x hx]
    exact h x hx
  have hback : ∀ x, Closure L t [descendant] x → s.object L x = t.object L x := fun x hx =>
    (hagree x ((closure_iff_of_agree hagree).mp hx)).symm
  have hdescends : Descends L t descendant ancestor ↔ Descends L s descendant ancestor :=
    ⟨Descends.of_agree hback, Descends.of_agree hagree⟩
  obtain ⟨b, hb⟩ := isAncestor_of_complete h
  obtain ⟨b', hb'⟩ := isAncestor_of_complete hcomplete
  have hsame : b' = b := by
    rw [Bool.eq_iff_iff, isAncestor_ok hb, isAncestor_ok hb', hdescends]
  rw [hb, hb', hsame]

end Bole
