import Bole.Collab.Discovery
import Bole.Store.ObjectStore

/-!
The search ball of a relay: `search_ball` of `src/collab/search.rs`.

The relay answers a search with the profiles that match and, around each, the edges by which it is
reached within the bound, walking backwards.  The client ranks what it gets.

* `ReverseState`, `visitEdge`, `reverseLoop`, `searchBall`: the search as it is in the code;
* `Addressed`: what is asked of the crates, so that an edge is told by its id;
* `searchBall_spec`: what is in the ball;
* `searchBall_within`, `mem_searchBall_edges`: and nothing else is;
* `rankStrangers_searchBall`: **the ranking over the ball is the ranking over the corpus**.
-/

namespace Bole

/-- `MAX_SEARCH_HOPS`. -/
def maxSearchHops : UInt8 := 6

/-- `MIN_SEARCH_TERM_LEN`. -/
def minSearchTermLen : ℕ := 3

/-- The content id of a collaboration object, as its bytes are written. -/
def collabId (L : Linked) (o : CollabObject) : Result ObjectId :=
  match L.codec.serialize (.collab o) with
  | .ok bytes => .ok (L.fromContent bytes)
  | .error _ => .error (.panic "postcard serialization is infallible for owned data")

/-- `edge_id`. -/
def edgeId (L : Linked) (e : TrustEdge) : Result ObjectId := collabId L (.trustEdge e)

/-! ### The search -/

/-- `out` and `ball`. -/
structure Found where
  out : List CollabObject
  ball : BTreeSet ObjectId

/-- The state of the search behind one match: `visited` and `q` beside what is shared. -/
structure ReverseState where
  found : Found
  visited : BTreeSet Digest
  q : List (Digest × ℕ)

/-- An edge comes into the ball once. -/
def Found.add (s : Found) (id : ObjectId) (e : TrustEdge) : Found :=
  if id ∈ s.ball then s else ⟨s.out ++ [.trustEdge e], s.ball.insert id⟩

/-- The body of the loop over the edges into a node. -/
def visitEdge (L : Linked) (depth : ℕ) (s : ReverseState) (e : TrustEdge) : Result ReverseState :=
  match edgeId L e with
  | .error err => .error err
  | .ok id =>
      let found := s.found.add id e
      if e.fromKey ∈ s.visited then .ok { s with found := found }
      else .ok ⟨found, s.visited.insert e.fromKey, s.q ++ [(e.fromKey, depth + 1)]⟩

/-- The loop that walks backwards from a match, while the queue is not empty. -/
def reverseLoop (L : Linked) (incoming : BTreeMap Digest (List TrustEdge)) (maxHops : UInt8) :
    ℕ → ReverseState → Result ReverseState
  | 0, s => .ok s
  | fuel + 1, s =>
      match s.q with
      | [] => .ok s
      | (node, depth) :: q =>
          let s := { s with q := q }
          if maxHops.toNat ≤ depth then reverseLoop L incoming maxHops fuel s
          else
            match incoming[node]? with
            | none => reverseLoop L incoming maxHops fuel s
            | some preds =>
                match preds.foldlM (visitEdge L depth) s with
                | .error err => .error err
                | .ok s => reverseLoop L incoming maxHops fuel s

/-- `incoming`: the edges by the key they lead to. -/
def incomingEdges (edges : List TrustEdge) : BTreeMap Digest (List TrustEdge) :=
  edges.foldl (fun m e => m.alter e.toKey fun es => some (es.getD [] ++ [e])) ∅

/-- The turn of the search for one profile.  A key comes into the queue once at most, and but for
the match each is at the beginning of an edge. -/
def searchProfile (L : Linked) (edges : List TrustEdge) (term : String) (maxHops : UInt8)
    (s : Found) (p : Profile) : Result Found :=
  if !profileMatches p term then .ok s
  else
    let start : ReverseState :=
      ⟨⟨s.out ++ [.profile p], s.ball⟩, (∅ : BTreeSet Digest).insert p.key, [(p.key, 0)]⟩
    match reverseLoop L (incomingEdges edges) maxHops (edges.length + 1) start with
    | .error err => .error err
    | .ok s => .ok s.found

/-- `search_ball`. -/
def searchBall (L : Linked) (corpus : List CollabObject) (term : String) (maxHops : UInt8) :
    Result (List CollabObject) :=
  let profiles := corpus.filterMap CollabObject.profile?
  let edges := corpusEdges corpus
  match profiles.foldlM (searchProfile L edges term maxHops) ⟨[], ∅⟩ with
  | .error err => .error err
  | .ok s => .ok s.out

/-- The crates write the edges, read them back, and give different ids to different bytes of
theirs. -/
structure Addressed (L : Linked) (edges : List TrustEdge) : Prop where
  writes : ∀ e ∈ edges, ∃ b, L.codec.serialize (.collab (.trustEdge e)) = .ok b
  decodes : ∀ e ∈ edges, ∀ b, L.codec.serialize (.collab (.trustEdge e)) = .ok b →
    L.codec.deserialize b = .ok (.collab (.trustEdge e))
  distinct : ∀ e ∈ edges, ∀ e' ∈ edges, ∀ b b',
    L.codec.serialize (.collab (.trustEdge e)) = .ok b →
    L.codec.serialize (.collab (.trustEdge e')) = .ok b' → L.fromContent b = L.fromContent b' →
    b = b'

variable {L : Linked}

lemma Addressed.mono {edges edges' : List TrustEdge} (h : Addressed L edges)
    (hsub : edges' ⊆ edges) : Addressed L edges' where
  writes e he := h.writes e (hsub he)
  decodes e he := h.decodes e (hsub he)
  distinct e he e' he' := h.distinct e (hsub he) e' (hsub he')

/-- Every edge has an id, and different edges have different ids. -/
lemma Addressed.id {edges : List TrustEdge} (h : Addressed L edges) {e : TrustEdge}
    (he : e ∈ edges) : ∃ id, edgeId L e = .ok id ∧
      ∀ e' ∈ edges, edgeId L e' = .ok id → e' = e := by
  obtain ⟨b, hb⟩ := h.writes e he
  refine ⟨L.fromContent b, by rw [edgeId, collabId, hb], fun e' he' hid => ?_⟩
  obtain ⟨b', hb'⟩ := h.writes e' he'
  rw [edgeId, collabId, hb', Except.ok.injEq] at hid
  have hbytes := h.distinct e' he' e he b' b hb' hb hid
  have hread := h.decodes e' he' b' hb'
  rw [hbytes, h.decodes e he b hb] at hread
  simpa using hread.symm

/-- The edges that lead to a key. -/
def edgesInto (edges : List TrustEdge) (n : Digest) : List TrustEdge :=
  edges.filter fun e => e.toKey = n

lemma edgesInto_subset (edges : List TrustEdge) (n : Digest) : edgesInto edges n ⊆ edges :=
  List.filter_subset_self edges

/-- The map holds the edges into a key, if there are any. -/
lemma getElem?_incomingEdges (edges : List TrustEdge) (n : Digest) :
    (incomingEdges edges)[n]? =
      if edgesInto edges n = [] then none else some (edgesInto edges n) := by
  rw [incomingEdges]
  induction edges using List.reverseRecOn with
  | nil => simp [edgesInto]
  | append_singleton es e ih =>
      rw [List.foldl_append, List.foldl_cons, List.foldl_nil, Std.ExtTreeMap.getElem?_alter]
      by_cases hn : e.toKey = n
      · subst hn
        rw [if_pos Std.ReflOrd.compare_self, ih]
        split_ifs with hnone <;> simp_all [edgesInto]
      · have hcmp : compare e.toKey n ≠ .eq := fun h => hn (Std.LawfulEqOrd.eq_of_compare h)
        rw [if_neg hcmp, ih]
        simp [edgesInto, hn]

/-- The keys from which an edge leads to a key. -/
def predecessors (edges : List TrustEdge) (n : Digest) : List Digest :=
  (edgesInto edges n).map TrustEdge.fromKey

lemma mem_predecessors {edges : List TrustEdge} {x n : Digest} :
    x ∈ predecessors edges n ↔ ∃ e ∈ edges, e.fromKey = x ∧ e.toKey = n := by
  simp only [predecessors, edgesInto, List.mem_map, List.mem_filter, decide_eq_true_eq]
  constructor
  · rintro ⟨e, ⟨he, hn⟩, hx⟩
    exact ⟨e, he, hx, hn⟩
  · rintro ⟨e, he, hx, hn⟩
    exact ⟨e, ⟨he, hn⟩, hx⟩

/-! ### What is collected -/

/-- The edges of what was found are edges of the corpus, and every id in the ball is that of one
of them. -/
structure Found.Good (L : Linked) (edges : List TrustEdge) (s : Found) : Prop where
  inside : ∀ e, .trustEdge e ∈ s.out → e ∈ edges
  held : ∀ id ∈ s.ball, ∃ e, .trustEdge e ∈ s.out ∧ edgeId L e = .ok id

/-- Edges are added, and no profile. -/
structure Found.Extends (s s' : Found) : Prop where
  grows : s.out ⊆ s'.out
  profiles : s'.out.filterMap CollabObject.profile? = s.out.filterMap CollabObject.profile?

lemma Found.Extends.refl (s : Found) : s.Extends s := ⟨fun _ h => h, rfl⟩

lemma Found.Extends.trans {s s' s'' : Found} (h : s.Extends s') (h' : s'.Extends s'') :
    s.Extends s'' :=
  ⟨fun _ ho => h'.grows (h.grows ho), h'.profiles.trans h.profiles⟩

section Collect

variable {edges : List TrustEdge} {s : Found} {e : TrustEdge} {id : ObjectId}

lemma Found.add_extends : s.Extends (s.add id e) := by
  rw [add]
  split_ifs
  · exact .refl s
  · exact ⟨fun _ ho => List.mem_append_left _ ho, by simp⟩

lemma Found.Good.add (h : s.Good L edges) (he : e ∈ edges) (hid : edgeId L e = .ok id) :
    (s.add id e).Good L edges := by
  rw [Found.add]
  split_ifs
  · exact h
  · refine ⟨fun e' he' => ?_, fun id' hid' => ?_⟩
    · rcases List.mem_append.mp he' with he' | he'
      · exact h.inside e' he'
      · obtain rfl : e' = e := by simpa using he'
        exact he
    · rcases Std.ExtTreeSet.mem_insert.mp hid' with heq | hid'
      · obtain rfl := Std.LawfulEqOrd.eq_of_compare heq
        exact ⟨e, by simp, hid⟩
      · obtain ⟨e', he', hid'⟩ := h.held id' hid'
        exact ⟨e', List.mem_append_left _ he', hid'⟩

/-- An edge whose id is there is there itself. -/
lemma Found.Good.mem_add (h : s.Good L edges)
    (honly : ∀ e' ∈ edges, edgeId L e' = .ok id → e' = e) : .trustEdge e ∈ (s.add id e).out := by
  rw [Found.add]
  split_ifs with hmem
  · obtain ⟨e', he', hid'⟩ := h.held id hmem
    rwa [honly e' (h.inside e' he') hid'] at he'
  · simp

end Collect

/-! ### The walk backwards -/

/-- The depths behind `visited` and `q`. -/
structure Reached (s : ReverseState) (P : Digest → Option ℕ) : Prop where
  visited : ∀ n, n ∈ s.visited ↔ (P n).isSome
  depths : ∀ n d, (n, d) ∈ s.q → P n = some d

section Reverse

variable {edges : List TrustEdge} {depth : ℕ} {s : ReverseState} {P : Digest → Option ℕ}

/-- The visit of one edge. -/
lemma visitEdge_spec (ha : Addressed L edges) {e : TrustEdge} (he : e ∈ edges)
    (hgood : s.found.Good L edges) (hs : Reached s P) :
    ∃ s' P', visitEdge L depth s e = .ok s' ∧ s.found.Extends s'.found ∧
      s'.found.Good L edges ∧ .trustEdge e ∈ s'.found.out ∧ Reached s' P' ∧
      ∀ xs, Breadth.expand (.depth Digest) depth (e.fromKey :: xs) (s.q.map Prod.fst, P) =
        Breadth.expand (.depth Digest) depth xs (s'.q.map Prod.fst, P') := by
  obtain ⟨id, hid, honly⟩ := ha.id he
  have hadd := hgood.add he hid
  have hmem := hgood.mem_add honly
  rw [visitEdge, hid]
  dsimp only
  split_ifs with hseen
  · obtain ⟨w, hw⟩ := Option.isSome_iff_exists.mp ((hs.visited _).mp hseen)
    exact ⟨_, P, rfl, Found.add_extends, hadd, hmem, ⟨hs.visited, hs.depths⟩,
      fun xs => Breadth.expand_seen xs hw⟩
  · have hnone : P e.fromKey = none := by
      rw [← Option.not_isSome_iff_eq_none, ← hs.visited]
      exact hseen
    refine ⟨_, Function.update P e.fromKey (some (depth + 1)), rfl, Found.add_extends, hadd, hmem,
      ⟨fun n => ?_, fun n d hn => ?_⟩, fun xs => ?_⟩
    · rw [Std.ExtTreeSet.mem_insert, hs.visited]
      by_cases hn : n = e.fromKey
      · subst hn
        simp
      · have hcmp : compare e.fromKey n ≠ .eq := fun h =>
          hn (Std.LawfulEqOrd.eq_of_compare h).symm
        simp [hn, hcmp]
    · rcases List.mem_append.mp hn with hn | hn
      · exact Breadth.update_some hnone (hs.depths n d hn)
      · obtain ⟨rfl, rfl⟩ : n = e.fromKey ∧ d = depth + 1 := by simpa using hn
        exact Function.update_self ..
    · rw [Breadth.expand_new xs hnone, List.map_append]
      rfl

/-- The visit of all edges into a node. -/
lemma visitEdges_spec (ha : Addressed L edges) {preds : List TrustEdge} (hpreds : preds ⊆ edges)
    (hgood : s.found.Good L edges) (hs : Reached s P) :
    ∃ s' P', preds.foldlM (visitEdge L depth) s = .ok s' ∧ s.found.Extends s'.found ∧
      s'.found.Good L edges ∧ (∀ e ∈ preds, .trustEdge e ∈ s'.found.out) ∧ Reached s' P' ∧
      Breadth.expand (.depth Digest) depth (preds.map TrustEdge.fromKey) (s.q.map Prod.fst, P) =
        (s'.q.map Prod.fst, P') := by
  induction preds generalizing s P with
  | nil => exact ⟨s, P, rfl, .refl _, hgood, by simp, hs, rfl⟩
  | cons e preds ih =>
      obtain ⟨he, hpreds⟩ := List.cons_subset.mp hpreds
      obtain ⟨s₁, P₁, hrun, hext, hgood₁, hmem, hs₁, hexp⟩ := visitEdge_spec ha he hgood hs
      obtain ⟨s₂, P₂, hrest, hext', hgood₂, hall, hs₂, hexp'⟩ := ih hpreds hgood₁ hs₁
      refine ⟨s₂, P₂, ?_, hext.trans hext', hgood₂, ?_, hs₂, ?_⟩
      · rw [List.foldlM_cons, hrun]
        exact hrest
      · rintro e' he'
        rcases List.mem_cons.mp he' with rfl | he'
        · exact hext'.grows hmem
        · exact hall e' he'
      · rw [List.map_cons, hexp, hexp']

/-- What holds of the walk backwards between two nodes. -/
structure Reversing (L : Linked) (edges : List TrustEdge) (key : Digest) (maxHops : UInt8)
    (s : ReverseState) (P : Digest → Option ℕ) : Prop where
  front : Breadth.Front (.depth Digest) (predecessors edges) key maxHops.toNat (s.q.map Prod.fst) P
  reached : Reached s P
  good : s.found.Good L edges
  collected : ∀ n d, P n = some d → n ∉ s.q.map Prod.fst → d < maxHops.toNat →
    ∀ e ∈ edgesInto edges n, .trustEdge e ∈ s.found.out

variable {key : Digest} {maxHops : UInt8}

/-- Where no edge leads to a node, there is nothing to visit. -/
lemma reverseLoop_preds {node : Digest} {fuel : ℕ} {s' : ReverseState}
    (hrun : (edgesInto edges node).foldlM (visitEdge L depth) s = .ok s') :
    (match (incomingEdges edges)[node]? with
      | none => reverseLoop L (incomingEdges edges) maxHops fuel s
      | some preds =>
          match preds.foldlM (visitEdge L depth) s with
          | .error err => .error err
          | .ok s => reverseLoop L (incomingEdges edges) maxHops fuel s) =
      reverseLoop L (incomingEdges edges) maxHops fuel s' := by
  rw [getElem?_incomingEdges]
  split_ifs with hnone
  · rw [hnone] at hrun
    obtain rfl : s = s' := Except.ok.inj hrun
    rfl
  · dsimp only
    rw [hrun]

/-- The walk ends, and keeps what holds. -/
lemma reverseLoop_spec (ha : Addressed L edges) {fuel : ℕ}
    (h : Reversing L edges key maxHops s P)
    (hfuel : Breadth.potential (edges.map TrustEdge.fromKey) (s.q.map Prod.fst, P) ≤ fuel) :
    ∃ s' P', reverseLoop L (incomingEdges edges) maxHops fuel s = .ok s' ∧ s'.q = [] ∧
      s.found.Extends s'.found ∧ Reversing L edges key maxHops s' P' := by
  induction fuel generalizing s P with
  | zero =>
      have hq : s.q = [] := by
        simp only [Breadth.potential, List.length_map] at hfuel
        exact List.length_eq_zero_iff.mp (by omega)
      exact ⟨s, P, rfl, hq, .refl _, h⟩
  | succ fuel ih =>
      obtain ⟨found, visited, q⟩ := s
      cases q with
      | nil => exact ⟨_, P, rfl, rfl, .refl _, h⟩
      | cons n q =>
          obtain ⟨node, depth⟩ := n
          have hdepth : P node = some depth := h.reached.depths node depth List.mem_cons_self
          have hfront := h.front
          rw [List.map_cons] at hfront hfuel
          rw [Breadth.potential_cons] at hfuel
          have hreached : Reached ⟨found, visited, q⟩ P :=
            ⟨h.reached.visited, fun n d hn => h.reached.depths n d (List.mem_cons_of_mem _ hn)⟩
          have hgood : Found.Good L edges (ReverseState.mk found visited q).found := h.good
          rw [reverseLoop]
          dsimp only
          by_cases hfull : maxHops.toNat ≤ depth
          · rw [if_pos hfull]
            refine ih ⟨hfront.skip hdepth hfull, hreached, h.good, fun n d hn hq hlt => ?_⟩
              (Nat.le_of_succ_le_succ hfuel)
            refine h.collected n d hn ?_ hlt
            rw [List.map_cons, List.mem_cons, not_or]
            refine ⟨?_, hq⟩
            rintro rfl
            obtain rfl := Option.some.inj (hdepth.symm.trans hn)
            omega
          · obtain ⟨s', P', hrun, hext, hgood', hall, hreached', hexp⟩ :=
              visitEdges_spec ha (edgesInto_subset edges node) hgood hreached
            rw [if_neg hfull, reverseLoop_preds hrun]
            have hnext := hfront.expand hdepth (Nat.lt_of_not_le hfull)
              (Breadth.ordered_depth (predecessors edges node))
            have hsources : ∀ x ∈ predecessors edges node, x ∈ edges.map TrustEdge.fromKey := by
              intro x hx
              obtain ⟨e, he, rfl, -⟩ := mem_predecessors.mp hx
              exact List.mem_map_of_mem he
            have huse : Breadth.potential (edges.map TrustEdge.fromKey)
                (Breadth.expand (.depth Digest) depth (predecessors edges node)
                  (q.map Prod.fst, P)) ≤
                Breadth.potential (edges.map TrustEdge.fromKey) (q.map Prod.fst, P) :=
              Breadth.potential_expand _ hsources
            have hcases : ∀ n d, (Breadth.expand (.depth Digest) depth (predecessors edges node)
                (q.map Prod.fst, P)).2 n = some d → P n = some d ∨
                  n ∈ (Breadth.expand (.depth Digest) depth (predecessors edges node)
                    (q.map Prod.fst, P)).1 := fun n d => Breadth.expand_cases
            have hsub : q.map Prod.fst ⊆ (Breadth.expand (.depth Digest) depth
                (predecessors edges node) (q.map Prod.fst, P)).1 :=
              Breadth.subset_expand (predecessors edges node)
            rw [predecessors, hexp] at hnext huse hsub
            simp only [predecessors, hexp] at hcases
            -- a node that has left the queue is this one, or had left it before
            have hcollected : ∀ n d, P' n = some d → n ∉ s'.q.map Prod.fst → d < maxHops.toNat →
                ∀ e ∈ edgesInto edges n, .trustEdge e ∈ s'.found.out := by
              intro n d hn hnq hlt e he
              by_cases hnode : n = node
              · subst hnode
                exact hall e he
              · have hold := (hcases n d hn).resolve_right hnq
                refine hext.grows (h.collected n d hold ?_ hlt e he)
                rw [List.map_cons, List.mem_cons, not_or]
                exact ⟨hnode, fun hmem => hnq (hsub hmem)⟩
            obtain ⟨s'', P'', hloop, hq, hext', hfinal⟩ := ih
              ⟨hnext, hreached', hgood', hcollected⟩ (huse.trans (Nat.le_of_succ_le_succ hfuel))
            exact ⟨s'', P'', hloop, hq, hext.trans hext', hfinal⟩

/-- A search begins at the match. -/
lemma Reversing.init {found : Found} (hgood : found.Good L edges) :
    Reversing L edges key maxHops ⟨found, (∅ : BTreeSet Digest).insert key, [(key, 0)]⟩
      (Function.update (fun _ => none) key (some 0)) where
  front := .init
  reached := by
    refine ⟨fun n => ?_, fun n d hn => ?_⟩
    · rw [Std.ExtTreeSet.mem_insert]
      by_cases hn : n = key
      · subst hn
        simp
      · have hcmp : compare key n ≠ .eq := fun h => hn (Std.LawfulEqOrd.eq_of_compare h).symm
        simp [hn, hcmp]
    · obtain ⟨rfl, rfl⟩ : n = key ∧ d = 0 := by simpa using hn
      exact Function.update_self ..
  good := hgood
  collected n d hn hnq := by
    rw [Function.update_of_ne (by simpa using hnq)] at hn
    cases hn

/-- When the walk has ended, every edge into a node within the bound is there. -/
lemma Reversing.complete (h : Reversing L edges key maxHops s P) (hq : s.q = []) {w : List Digest}
    {n : Digest} (hw : Breadth.Walk (predecessors edges) key w n)
    (hlen : w.length < maxHops.toNat) {e : TrustEdge} (he : e ∈ edges) (hn : e.toKey = n) :
    .trustEdge e ∈ s.found.out := by
  have hfront := h.front
  rw [hq] at hfront
  obtain ⟨d, hd⟩ := hfront.complete hw hlen.le
  have hleast : d ≤ (Breadth.Labels.depth Digest).label w := hfront.least hd hw hlen.le
  have hsize : (Breadth.Labels.depth Digest).label w = w.length :=
    (Breadth.Labels.depth Digest).size_label w
  exact h.collected n d hd (by simp [hq]) (by omega) e (by simp [edgesInto, he, hn])

end Reverse

/-! ### The ball -/

/-- What the ball is to hold for a match: every edge into a node from which the match is reached in
fewer steps than the bound. -/
def Covers (edges : List TrustEdge) (maxHops : UInt8) (out : List CollabObject) (key : Digest) :
    Prop :=
  ∀ w n, Breadth.Walk (predecessors edges) key w n → w.length < maxHops.toNat →
    ∀ e ∈ edges, e.toKey = n → .trustEdge e ∈ out

section Ball

variable {edges : List TrustEdge} {term : String} {maxHops : UInt8}

/-- The turn for one profile. -/
lemma searchProfile_spec (ha : Addressed L edges) {s : Found} (hgood : s.Good L edges)
    (p : Profile) :
    ∃ s', searchProfile L edges term maxHops s p = .ok s' ∧ s'.Good L edges ∧ s.out ⊆ s'.out ∧
      s'.out.filterMap CollabObject.profile? = s.out.filterMap CollabObject.profile? ++
        [p].filter (fun p => profileMatches p term) ∧
      (profileMatches p term → Covers edges maxHops s'.out p.key) := by
  rw [searchProfile]
  cases hm : profileMatches p term with
  | false => exact ⟨s, rfl, hgood, fun _ h => h, by simp [hm], nofun⟩
  | true =>
      have hstart : Found.Good L edges ⟨s.out ++ [.profile p], s.ball⟩ := by
        refine ⟨fun e he => hgood.inside e (by simpa using he), fun id hid => ?_⟩
        obtain ⟨e, he, hid⟩ := hgood.held id hid
        exact ⟨e, List.mem_append_left _ he, hid⟩
      have hfuel : Breadth.potential (edges.map TrustEdge.fromKey)
          ([p.key], Function.update (fun _ => none) p.key (some 0)) ≤ edges.length + 1 := by
        have hcount := List.countP_le_length (l := edges.map TrustEdge.fromKey) (p := fun x =>
          (Function.update (fun _ => (none : Option ℕ)) p.key (some 0) x).isNone)
        simp only [List.length_map] at hcount
        simp only [Breadth.potential, List.length_singleton]
        omega
      obtain ⟨s', P', hrun, hq, hext, hdone⟩ :=
        reverseLoop_spec ha (.init hstart) hfuel
      refine ⟨s'.found, ?_, hdone.good, fun o ho => hext.grows (List.mem_append_left _ ho), ?_,
        fun _ w n hw hlen e he hn => hdone.complete hq hw hlen he hn⟩
      · simp only [Bool.not_true, Bool.false_eq_true, if_false]
        rw [hrun]
      · rw [hext.profiles]
        simp [hm]

/-- The turns for all profiles. -/
lemma searchProfiles_spec (ha : Addressed L edges) {s : Found} (hgood : s.Good L edges)
    (profiles : List Profile) :
    ∃ s', profiles.foldlM (searchProfile L edges term maxHops) s = .ok s' ∧ s'.Good L edges ∧
      s.out ⊆ s'.out ∧
      s'.out.filterMap CollabObject.profile? = s.out.filterMap CollabObject.profile? ++
        profiles.filter (fun p => profileMatches p term) ∧
      ∀ p ∈ profiles, profileMatches p term → Covers edges maxHops s'.out p.key := by
  induction profiles generalizing s with
  | nil => exact ⟨s, rfl, hgood, fun _ h => h, by simp, by simp⟩
  | cons p profiles ih =>
      obtain ⟨s₁, hrun, hgood₁, hsub, hprofiles, hcovers⟩ :=
        searchProfile_spec ha hgood p
      obtain ⟨s₂, hrest, hgood₂, hsub', hprofiles', hcovers'⟩ := ih hgood₁
      refine ⟨s₂, ?_, hgood₂, fun o ho => hsub' (hsub ho), ?_, fun p' hp' hm => ?_⟩
      · rw [List.foldlM_cons, hrun]
        exact hrest
      · rw [hprofiles', hprofiles, List.append_assoc, ← List.filter_append, List.singleton_append]
      · rcases List.mem_cons.mp hp' with rfl | hp'
        · exact fun w n hw hlen e he hn => hsub' (hcovers hm w n hw hlen e he hn)
        · exact hcovers' p' hp' hm

end Ball

/-- **The ball**: the profiles that match, in their order, edges of the corpus, and all edges that
matter to a match. -/
theorem searchBall_spec {corpus : List CollabObject} (ha : Addressed L (corpusEdges corpus))
    (term : String) (maxHops : UInt8) :
    ∃ ball, searchBall L corpus term maxHops = .ok ball ∧
      ball.filterMap CollabObject.profile? = strangers corpus term ∧
      corpusEdges ball ⊆ corpusEdges corpus ∧
      ∀ p ∈ strangers corpus term, Covers (corpusEdges corpus) maxHops ball p.key := by
  have hempty : Found.Good L (corpusEdges corpus) ⟨[], ∅⟩ :=
    ⟨by simp, fun id hid => absurd hid Std.ExtTreeSet.not_mem_empty⟩
  obtain ⟨s, hrun, hgood, -, hprofiles, hcovers⟩ :=
    searchProfiles_spec ha hempty
      (corpus.filterMap CollabObject.profile?)
  refine ⟨s.out, by rw [searchBall, hrun], by rw [hprofiles]; rfl, fun e he => ?_, fun p hp => ?_⟩
  · exact hgood.inside e (mem_corpusEdges.mp he)
  · obtain ⟨hp, hm⟩ := List.mem_filter.mp hp
    exact hcovers p hp hm

/-! ### Nothing is made up -/

/-- An edge into a node from which the match is reached in fewer steps than the bound. -/
def EdgeNear (edges : List TrustEdge) (maxHops : UInt8) (key : Digest) (e : TrustEdge) : Prop :=
  e ∈ edges ∧ ∃ w, Breadth.Walk (predecessors edges) key w e.toKey ∧ w.length < maxHops.toNat

/-- What the search may find: a match, or an edge near one. -/
def Findable (corpus : List CollabObject) (term : String) (maxHops : UInt8) (o : CollabObject) :
    Prop :=
  ∃ p ∈ strangers corpus term,
    o = .profile p ∨ ∃ e, o = .trustEdge e ∧ EdgeNear (corpusEdges corpus) maxHops p.key e

section Within

variable {corpus : List CollabObject} {term : String} {maxHops : UInt8} {good : CollabObject → Prop}

/-- The visit of the edges into a node finds these, and queues where they come from. -/
lemma visitEdges_within {queued : Digest × ℕ → Prop} {preds : List TrustEdge} {depth : ℕ}
    {s s' : ReverseState} (h : preds.foldlM (visitEdge L depth) s = .ok s')
    (hs : ∀ o ∈ s.found.out, good o) (hq : ∀ x ∈ s.q, queued x)
    (hpreds : ∀ e ∈ preds, good (.trustEdge e) ∧ queued (e.fromKey, depth + 1)) :
    (∀ o ∈ s'.found.out, good o) ∧ ∀ x ∈ s'.q, queued x := by
  induction preds generalizing s with
  | nil =>
      cases h
      exact ⟨hs, hq⟩
  | cons e preds ih =>
      rw [List.foldlM_cons, Result.bind_eq_ok] at h
      obtain ⟨s₁, hvisit, h⟩ := h
      obtain ⟨⟨hgood, hqueued⟩, hrest⟩ := List.forall_mem_cons.mp hpreds
      suffices h₁ : (∀ o ∈ s₁.found.out, good o) ∧ ∀ x ∈ s₁.q, queued x from ih h h₁.1 h₁.2 hrest
      rw [visitEdge] at hvisit
      cases hid : edgeId L e with
      | error err => simp [hid] at hvisit
      | ok id =>
          have hadd : ∀ o ∈ (s.found.add id e).out, good o := by
            rw [Found.add]
            split_ifs
            · exact hs
            · exact List.forall_mem_append.mpr ⟨hs, by simpa using hgood⟩
          simp only [hid] at hvisit
          split_ifs at hvisit <;> cases hvisit
          · exact ⟨hadd, hq⟩
          · exact ⟨hadd, List.forall_mem_append.mpr ⟨hq, by simpa using hqueued⟩⟩

/-- The walk backwards finds edges near the match only. -/
lemma reverseLoop_within {edges : List TrustEdge} {key : Digest} {fuel : ℕ} {s s' : ReverseState}
    (h : reverseLoop L (incomingEdges edges) maxHops fuel s = .ok s')
    (hnear : ∀ e, EdgeNear edges maxHops key e → good (.trustEdge e))
    (hs : ∀ o ∈ s.found.out, good o)
    (hq : ∀ x ∈ s.q, ∃ w, Breadth.Walk (predecessors edges) key w x.1 ∧ w.length = x.2) :
    ∀ o ∈ s'.found.out, good o := by
  induction fuel generalizing s with
  | zero =>
      cases h
      exact hs
  | succ fuel ih =>
      rw [reverseLoop] at h
      split at h
      · cases h
        exact hs
      · next node depth q hqueue =>
          rw [hqueue, List.forall_mem_cons] at hq
          obtain ⟨⟨w, hw, hlen⟩, hq⟩ := hq
          dsimp only at h
          split_ifs at h with hfull
          · exact ih h hs hq
          · split at h
            · exact ih h hs hq
            · next preds hpreds =>
                rw [getElem?_incomingEdges] at hpreds
                split_ifs at hpreds
                cases hpreds
                split at h
                · cases h
                · next s₁ hrun =>
                    have hstep : ∀ e ∈ edgesInto edges node, good (.trustEdge e) ∧
                        ∃ w, Breadth.Walk (predecessors edges) key w e.fromKey ∧
                          w.length = depth + 1 := by
                      intro e he
                      obtain ⟨hmem, hnode⟩ := List.mem_filter.mp he
                      obtain rfl : e.toKey = node := by simpa using hnode
                      dsimp only at hlen
                      refine ⟨hnear e ⟨hmem, w, hw, by omega⟩, w ++ [e.fromKey],
                        hw.snoc (mem_predecessors.mpr ⟨e, hmem, rfl, rfl⟩), ?_⟩
                      rw [List.length_append, hlen, List.length_singleton]
                    obtain ⟨hs₁, hq₁⟩ := visitEdges_within hrun hs hq hstep
                    exact ih h hs₁ hq₁

/-- **The ball holds matches and edges near them**, whatever the ids are. -/
lemma searchBall_within {ball : List CollabObject}
    (h : searchBall L corpus term maxHops = .ok ball) :
    ∀ o ∈ ball, Findable corpus term maxHops o := by
  have hfold : ∀ {profiles : List Profile} {s s' : Found},
      profiles.foldlM (searchProfile L (corpusEdges corpus) term maxHops) s = .ok s' →
      (∀ p ∈ profiles, p ∈ corpus.filterMap CollabObject.profile?) →
      (∀ o ∈ s.out, Findable corpus term maxHops o) →
      ∀ o ∈ s'.out, Findable corpus term maxHops o := by
    intro profiles
    induction profiles with
    | nil =>
        intro s s' h _ hs
        cases h
        exact hs
    | cons p profiles ih =>
        intro s s' h hprofiles hs
        rw [List.foldlM_cons, Result.bind_eq_ok] at h
        obtain ⟨s₁, hturn, h⟩ := h
        refine ih h (fun p' hp' => hprofiles p' (List.mem_cons_of_mem _ hp')) ?_
        rw [searchProfile] at hturn
        split_ifs at hturn with hmatch
        · cases hturn
          exact hs
        · have hp : p ∈ strangers corpus term :=
            List.mem_filter.mpr ⟨hprofiles p List.mem_cons_self, by simpa using hmatch⟩
          dsimp only at hturn
          split at hturn
          · cases hturn
          · next s₂ hloop =>
              cases hturn
              refine reverseLoop_within hloop (fun e he => ⟨p, hp, .inr ⟨e, rfl, he⟩⟩)
                (List.forall_mem_append.mpr ⟨hs, ?_⟩) ?_
              · simpa using ⟨p, hp, .inl rfl⟩
              · simpa using Breadth.Walk.nil
  rw [searchBall] at h
  split at h
  · cases h
  · next s hrun =>
      cases h
      exact hfold hrun (fun p hp => hp) (by simp)

/-- **The ball is a part of the corpus.** -/
lemma searchBall_subset {ball : List CollabObject}
    (h : searchBall L corpus term maxHops = .ok ball) : ball ⊆ corpus := by
  intro o ho
  obtain ⟨p, hp, rfl | ⟨e, rfl, he, -⟩⟩ := searchBall_within h o ho
  · obtain ⟨o, ho, hp⟩ := List.mem_filterMap.mp (List.mem_filter.mp hp).1
    rwa [← CollabObject.profile?_eq_some.mp hp]
  · exact mem_corpusEdges.mp he

/-- **The edges of the ball** are those near a match. -/
lemma mem_searchBall_edges (ha : Addressed L (corpusEdges corpus)) {ball : List CollabObject}
    (h : searchBall L corpus term maxHops = .ok ball) {e : TrustEdge} :
    e ∈ corpusEdges ball ↔
      ∃ p ∈ strangers corpus term, EdgeNear (corpusEdges corpus) maxHops p.key e := by
  obtain ⟨ball', hball, -, -, hcovers⟩ := searchBall_spec ha term maxHops
  obtain rfl : ball' = ball := Except.ok.inj (hball.symm.trans h)
  rw [mem_corpusEdges]
  constructor
  · intro he
    obtain ⟨p, hp, heq | ⟨e', heq, he'⟩⟩ := searchBall_within h _ he
    · cases heq
    · cases heq
      exact ⟨p, hp, he'⟩
  · rintro ⟨p, hp, he, w, hw, hlen⟩
    exact hcovers p hp w _ hw hlen e he rfl

end Within

/-! ### Ranking the ball -/

/-- A trail that has left its root ends at one of its keys. -/
lemma TrustGraph.Trail.mem_keys {g : TrustGraph} {root v : Digest} {hops : List TrustHop}
    (h : g.Trail root hops v) (hne : hops ≠ []) : v ∈ hops.map TrustHop.key := by
  cases h with
  | nil => exact absurd rfl hne
  | snoc _ _ => simp

/-- **What the ball keeps.**  A trail from the root to a match that does not come back to the root
goes along edges of the corpus but for its first hop, so that the match is reached from each of
its keys; and the ball has every edge into these. -/
lemma trail_kept {own edges : List TrustEdge} {root key : Digest} {maxHops : UInt8}
    {ball : List CollabObject} (hown : ∀ e ∈ own, e.fromKey = root)
    (hsub : corpusEdges ball ⊆ edges) (hcovers : Covers edges maxHops ball key)
    {hops : List TrustHop} {v : Digest} (h : TrustGraph.Trail ⟨own ++ edges⟩ root hops v)
    (hroot : root ∉ hops.map TrustHop.key)
    (hreach : hops ≠ [] → ∃ w, Breadth.Walk (predecessors edges) key w v ∧
      w.length + hops.length ≤ maxHops.toNat) :
    TrustGraph.Trail ⟨own ++ corpusEdges ball⟩ root hops v := by
  induction h with
  | nil => exact .nil
  | @snoc hops x y k htrail hk ih =>
      obtain ⟨w, hw, hlen⟩ := hreach (by simp)
      rw [List.length_append, List.length_singleton] at hlen
      rw [List.map_append, List.mem_append, not_or] at hroot
      have hlink : TrustGraph.Link ⟨own ++ corpusEdges ball⟩ x y k := by
        refine (TrustGraph.link_congr (fun e _ hy => ?_) k).mp hk
        simp only [List.mem_append]
        refine or_congr_right ⟨fun he => ?_, fun he => hsub he⟩
        exact mem_corpusEdges.mpr (hcovers w y hw (by omega) e he hy)
      refine (ih hroot.1 fun hne => ?_).snoc hlink
      obtain ⟨e, he, hx, hy⟩ := hk.edge
      have hxroot : x ≠ root := fun heq => hroot.1 (heq ▸ htrail.mem_keys hne)
      have hedge : e ∈ edges :=
        (List.mem_append.mp he).resolve_left fun he => hxroot (hx.symm.trans (hown e he))
      refine ⟨w ++ [x], hw.snoc (mem_predecessors.mpr ⟨e, hedge, hx, hy⟩), ?_⟩
      rw [List.length_append, List.length_singleton]
      omega

/-- **Ranking the ball is ranking the corpus.**  When all own edges are the client's, the answer of
the relay to a search gives the client the same ranking as everything the relay has. -/
theorem rankStrangers_searchBall {selfKey : Digest} {ownEdges : List TrustEdge}
    {corpus : List CollabObject} (hown : ∀ e ∈ ownEdges, e.fromKey = selfKey)
    (ha : Addressed L (corpusEdges corpus)) (term : String) (maxHops : UInt8) :
    ∃ ball, searchBall L corpus term maxHops = .ok ball ∧
      rankStrangers L.toCrates selfKey ownEdges ball term maxHops =
        rankStrangers L.toCrates selfKey ownEdges corpus term maxHops := by
  obtain ⟨ball, hball, hprofiles, hsub, hcovers⟩ := searchBall_spec ha term maxHops
  refine ⟨ball, hball, rankStrangers_congr ?_ fun p hp => ?_⟩
  · rw [strangers, hprofiles, strangers, List.filter_filter]
    simp only [Bool.and_self]
  · refine TrustGraph.trustPath_eq_of_keeps ?_ fun hops htrail hlen hroot => ?_
    · exact fun e he => (List.mem_append.mp he).elim (List.mem_append_left _)
        fun he => List.mem_append_right _ (hsub he)
    · exact trail_kept hown hsub (hcovers p hp) htrail hroot
        fun _ => ⟨[], .nil, by simpa using hlen⟩

/-- The reference crates tell edges by their ids, if the ids are different. -/
lemma addressed_over {edges : List TrustEdge}
    (hbytes : (edges.map fun e => Postcard.object (.collab (.trustEdge e))).Nodup)
    (hids : (edges.map fun e => Object.refId (.collab (.trustEdge e))).Nodup) :
    Addressed (.over (edges.map fun e => .collab (.trustEdge e))) edges where
  writes e _ := ⟨_, rfl⟩
  decodes e he b hb := by
    obtain rfl := Except.ok.inj hb
    rw [← Function.comp_def, ← List.map_map] at hbytes
    exact Codec.over_reads hbytes (List.mem_map_of_mem he)
  distinct e he e' he' b b' hb hb' h := by
    obtain rfl := Except.ok.inj hb
    obtain rfl := Except.ok.inj hb'
    rw [List.inj_on_of_nodup_map hids he he' h]

/-- Ada follows Ben; the relay knows that Ben vouches for Cleo, and that Cleo follows Ada. -/
theorem rankStrangers_searchBall_cleo :
    let edge := fun (x y : UInt8) (k : TrustKind) =>
      TrustEdge.mk (.replicate x) (.replicate y) k none 1 []
    let corpus := [.trustEdge (edge 2 3 .vouch),
      .profile ⟨.replicate 3, "cleo", "", [], [], 1, []⟩, .trustEdge (edge 3 1 .follow)]
    let L := Linked.over ((corpusEdges corpus).map fun e => .collab (.trustEdge e))
    ∃ ball, searchBall L corpus "cle" 2 = .ok ball ∧
      rankStrangers L.toCrates (.replicate 1) [edge 1 2 .follow] ball "cle" 2 =
        rankStrangers L.toCrates (.replicate 1) [edge 1 2 .follow] corpus "cle" 2 :=
  rankStrangers_searchBall (by decide) (addressed_over (by decide +kernel) (by decide +kernel))
    "cle" 2

end Bole
