import Bole.Lib.Breadth
import Bole.Object

/-!
The trust graph: `trust_neighbors` and `trust_path` of `src/collab/trust.rs`.

* `mem_trustNeighbors`: the neighbours of a key are the keys that a follow or a vouch leads to,
  and a vouch is the stronger link;
* `Trail`: hops that follow the links of the graph;
* `FirstTrail`: a trail within the bound, the shortest there is and, of the shortest, the first in
  the order of the keys;
* `trustPath_eq_some_iff`: that is the path that is found;
* `trustPath_eq_iff`: a part of the graph has the same path exactly when it keeps that trail.
-/

namespace Bole

/-- `TrustGraph`, with `from_edges` as its constructor. -/
structure TrustGraph where
  edges : List TrustEdge

/-- `TrustHop`. -/
structure TrustHop where
  key : Digest
  via : TrustKind
deriving DecidableEq

namespace TrustGraph

/-! ### Neighbours -/

/-- What `trust_neighbors` does with one edge. -/
def addNeighbor (source : Digest) (best : BTreeMap Digest TrustKind) (e : TrustEdge) :
    BTreeMap Digest TrustKind :=
  if e.fromKey = source ∧ (e.kind = .follow ∨ e.kind = .vouch) then
    best.alter e.toKey fun
      | some v => some (if e.kind = .vouch then .vouch else v)
      | none => some e.kind
  else best

/-- `trust_neighbors`. -/
def trustNeighbors (g : TrustGraph) (source : Digest) : List (Digest × TrustKind) :=
  (g.edges.foldl (addNeighbor source) ∅).toList

/-- There is an edge of a kind from one key to another. -/
def HasEdge (g : TrustGraph) (x y : Digest) (k : TrustKind) : Prop :=
  ∃ e ∈ g.edges, e.fromKey = x ∧ e.toKey = y ∧ e.kind = k

/-- The link from one key to another: a vouch, or else a follow. -/
def Link (g : TrustGraph) (x y : Digest) (k : TrustKind) : Prop :=
  (k = .vouch ∧ g.HasEdge x y .vouch) ∨
    (k = .follow ∧ g.HasEdge x y .follow ∧ ¬ g.HasEdge x y .vouch)

lemma hasEdge_snoc {es : List TrustEdge} {e : TrustEdge} {x y : Digest} {k : TrustKind} :
    HasEdge ⟨es ++ [e]⟩ x y k ↔
      HasEdge ⟨es⟩ x y k ∨ e.fromKey = x ∧ e.toKey = y ∧ e.kind = k := by
  simp only [HasEdge, List.mem_append, List.mem_singleton, or_and_right, exists_or, exists_eq_left]

/-- What one edge does to the entry of one key. -/
lemma getElem?_addNeighbor (x y : Digest) (best : BTreeMap Digest TrustKind) (e : TrustEdge) :
    (addNeighbor x best e)[y]? =
      if e.fromKey = x ∧ e.toKey = y ∧ e.kind = .vouch then some .vouch
      else if e.fromKey = x ∧ e.toKey = y ∧ e.kind = .follow then some (best[y]?.getD .follow)
      else best[y]? := by
  rw [addNeighbor]
  by_cases hx : e.fromKey = x
  · by_cases hy : e.toKey = y
    · subst hy
      cases hk : e.kind <;> cases hb : best[e.toKey]? <;> simp [hx, hb]
    · have hcmp : compare e.toKey y ≠ .eq := fun h => hy (Std.LawfulEqOrd.eq_of_compare h)
      split_ifs <;> simp_all [Std.ExtTreeMap.getElem?_alter]
  · simp [hx]

/-- The map holds the link to every key that has one. -/
lemma getElem?_neighbors (g : TrustGraph) (x y : Digest) (k : TrustKind) :
    (g.edges.foldl (addNeighbor x) ∅)[y]? = some k ↔ g.Link x y k := by
  obtain ⟨es⟩ := g
  induction es using List.reverseRecOn generalizing k with
  | nil => simp [Link, HasEdge]
  | append_singleton es e ih =>
      simp only [List.foldl_append, List.foldl_cons, List.foldl_nil] at ih ⊢
      rw [getElem?_addNeighbor]
      simp only [Link, hasEdge_snoc]
      split_ifs with hv hf
      · -- a vouch is the link, whatever was there
        simp [hv, eq_comm]
      · -- a follow is the link where there was none
        have hnot : e.kind ≠ .vouch := by simp [hf]
        cases hb : (es.foldl (addNeighbor x) ∅)[y]? with
        | none =>
            have hno : ¬ HasEdge ⟨es⟩ x y .vouch := fun h => by
              have := (ih .vouch).mpr (.inl ⟨rfl, h⟩)
              simp [hb] at this
            simp [hf, hno, eq_comm]
        | some v =>
            have hlink := (ih v).mp hb
            rcases hlink with ⟨rfl, h⟩ | ⟨rfl, h, hno⟩
            · simp [h, eq_comm]
            · simp [hf, hno, eq_comm]
      · simp only [hv, hf, or_false]
        exact ih k

/-- The neighbours of a key are the keys it is linked to. -/
lemma mem_trustNeighbors {g : TrustGraph} {x y : Digest} {k : TrustKind} :
    (y, k) ∈ g.trustNeighbors x ↔ g.Link x y k := by
  rw [trustNeighbors, Std.ExtTreeMap.mem_toList_iff_getElem?_eq_some, getElem?_neighbors]

/-- The keys that a key is linked to, in increasing order. -/
def successors (g : TrustGraph) (x : Digest) : List Digest := (g.trustNeighbors x).map Prod.fst

lemma mem_successors {g : TrustGraph} {x y : Digest} :
    y ∈ g.successors x ↔ ∃ k, g.Link x y k := by
  simp only [successors, List.mem_map, Prod.exists, exists_and_right, exists_eq_right,
    mem_trustNeighbors]

/-- The order of keys in a map. -/
def KeyLt (x y : Digest) : Prop := compare x y = .lt

instance : IsTrans Digest KeyLt where
  trans _ _ _ := Std.TransCmp.lt_trans

instance : Std.Asymm KeyLt where
  asymm x y hxy hyx := by
    have hswap : compare x y = (compare y x).swap := Std.OrientedCmp.eq_swap
    rw [KeyLt, hswap, hyx] at hxy
    cases hxy

lemma sorted_successors (g : TrustGraph) (x : Digest) : (g.successors x).Pairwise KeyLt := by
  rw [successors, trustNeighbors, Std.ExtTreeMap.map_fst_toList_eq_keys]
  exact Std.ExtTreeMap.ordered_keys

/-- A link is made by an edge. -/
lemma Link.edge {g : TrustGraph} {x y : Digest} {k : TrustKind} (h : g.Link x y k) :
    ∃ e ∈ g.edges, e.fromKey = x ∧ e.toKey = y := by
  rcases h with ⟨-, e, he, hx, hy, -⟩ | ⟨-, ⟨e, he, hx, hy, -⟩, -⟩ <;> exact ⟨e, he, hx, hy⟩

/-- Two graphs with the same edges from one key to another have the same link there. -/
lemma link_congr {g g' : TrustGraph} {x y : Digest}
    (h : ∀ e, e.fromKey = x → e.toKey = y → (e ∈ g.edges ↔ e ∈ g'.edges)) (k : TrustKind) :
    g.Link x y k ↔ g'.Link x y k := by
  have hedge : ∀ k, g.HasEdge x y k ↔ g'.HasEdge x y k := by
    intro k
    constructor
    · rintro ⟨e, he, hx, hy, hk⟩
      exact ⟨e, (h e hx hy).mp he, hx, hy, hk⟩
    · rintro ⟨e, he, hx, hy, hk⟩
      exact ⟨e, (h e hx hy).mpr he, hx, hy, hk⟩
  simp only [Link, hedge]

lemma Link.unique {g : TrustGraph} {x y : Digest} {k k' : TrustKind} (h : g.Link x y k)
    (h' : g.Link x y k') : k = k' := by
  rcases h with ⟨rfl, h⟩ | ⟨rfl, h, hno⟩ <;> rcases h' with ⟨rfl, h'⟩ | ⟨rfl, h', hno'⟩
  · rfl
  · exact absurd h hno'
  · exact absurd h' hno
  · rfl

/-- More edges make more links, though not always the same. -/
lemma successors_mono {g g' : TrustGraph} (h : g'.edges ⊆ g.edges) (x : Digest) :
    g'.successors x ⊆ g.successors x := by
  intro y hy
  obtain ⟨k, hk⟩ := mem_successors.mp hy
  refine mem_successors.mpr ?_
  by_cases hv : g.HasEdge x y .vouch
  · exact ⟨.vouch, .inl ⟨rfl, hv⟩⟩
  · rcases hk with ⟨-, e, he, hedge⟩ | ⟨-, ⟨e, he, hedge⟩, -⟩
    · exact absurd ⟨e, h he, hedge⟩ hv
    · exact ⟨.follow, .inr ⟨rfl, ⟨e, h he, hedge⟩, hv⟩⟩

/-! ### Paths -/

/-- `paths`: the hops to every key that was reached. -/
abbrev Paths := BTreeMap Digest (List TrustHop)

/-- The inner loop of `trust_path`, over the neighbours of a key; an error is the early return. -/
def visitNeighbors (target : Digest) (nodePath : List TrustHop) :
    List (Digest × TrustKind) → List Digest × Paths → Except (List TrustHop) (List Digest × Paths)
  | [], s => .ok s
  | (next, via) :: rest, (q, paths) =>
      match paths[next]? with
      | some _ => visitNeighbors target nodePath rest (q, paths)
      | none =>
          let p := nodePath ++ [⟨next, via⟩]
          if next = target then .error p
          else visitNeighbors target nodePath rest (q ++ [next], paths.insert next p)

/-- The outer loop of `trust_path`, while the queue is not empty. -/
def pathLoop (g : TrustGraph) (target : Digest) (maxHops : UInt8) :
    ℕ → List Digest → Paths → Option (List TrustHop)
  | 0, _, _ => none
  | _ + 1, [], _ => none
  | fuel + 1, node :: q, paths =>
      match paths[node]? with
      | none => none -- the code panics: no node comes into the queue without a path
      | some nodePath =>
          if UInt8.ofNat nodePath.length = maxHops then g.pathLoop target maxHops fuel q paths
          else
            match visitNeighbors target nodePath (g.trustNeighbors node) (q, paths) with
            | .error p => some p
            | .ok (q, paths) => g.pathLoop target maxHops fuel q paths

/-- `trust_path`.  A key comes into the queue once at most, and but for the root each is at the
end of an edge. -/
def trustPath (g : TrustGraph) (root target : Digest) (maxHops : UInt8) :
    Option (List TrustHop) :=
  if root = target then some []
  else g.pathLoop target maxHops (g.edges.length + 1) [root] ((∅ : Paths).insert root [])

/-- Hops along the links of the graph, from a root to a key. -/
inductive Trail (g : TrustGraph) (root : Digest) : List TrustHop → Digest → Prop where
  | nil : Trail g root [] root
  | snoc {hops : List TrustHop} {x y : Digest} {k : TrustKind} :
      Trail g root hops x → g.Link x y k → Trail g root (hops ++ [⟨y, k⟩]) y

/-- The keys of a trail are a walk. -/
lemma Trail.walk {g : TrustGraph} {root v : Digest} {hops : List TrustHop}
    (h : g.Trail root hops v) : Breadth.Walk g.successors root (hops.map TrustHop.key) v := by
  induction h with
  | nil => exact .nil
  | snoc _ hk ih =>
      rw [List.map_append]
      exact ih.snoc (mem_successors.mpr ⟨_, hk⟩)

/-- The keys of a trail determine it. -/
lemma Trail.unique {g : TrustGraph} {root v v' : Digest} {hops hops' : List TrustHop}
    (h : g.Trail root hops v) (h' : g.Trail root hops' v')
    (hkeys : hops.map TrustHop.key = hops'.map TrustHop.key) : hops = hops' ∧ v = v' := by
  induction h generalizing hops' v' with
  | nil =>
      cases h' with
      | nil => exact ⟨rfl, rfl⟩
      | snoc _ _ => simp at hkeys
  | @snoc hops x y k h hk ih =>
      cases h' with
      | nil => simp at hkeys
      | @snoc hops' x' y' k' h' hk' =>
          rw [List.map_append, List.map_append] at hkeys
          obtain ⟨hinit, hlast⟩ := List.append_inj' hkeys rfl
          obtain ⟨rfl, rfl⟩ := ih h' hinit
          simp only [List.map_cons, List.map_nil, List.cons.injEq, and_true] at hlast
          subst hlast
          rw [hk.unique hk']
          exact ⟨rfl, rfl⟩

/-- The labels of the search: the keys on the way. -/
def keysOf (paths : Paths) : Digest → Option (List Digest) := fun k =>
  paths[k]?.map (List.map TrustHop.key)

lemma keysOf_insert (paths : Paths) (k : Digest) (p : List TrustHop) :
    keysOf (paths.insert k p) = Function.update (keysOf paths) k (some (p.map TrustHop.key)) := by
  funext j
  by_cases hj : j = k
  · subst hj
    simp [keysOf]
  · have hcmp : compare k j ≠ .eq := fun h => hj (Std.LawfulEqOrd.eq_of_compare h).symm
    simp [keysOf, Function.update_of_ne hj, Std.ExtTreeMap.getElem?_insert, hcmp]

/-- Every path that is kept is a trail. -/
def Trails (g : TrustGraph) (root : Digest) (paths : Paths) : Prop :=
  ∀ k p, paths[k]? = some p → g.Trail root p k

lemma Trails.insert {g : TrustGraph} {root k : Digest} {paths : Paths} {p : List TrustHop}
    (h : g.Trails root paths) (hp : g.Trail root p k) : g.Trails root (paths.insert k p) := by
  intro j p' hj
  rw [Std.ExtTreeMap.getElem?_insert] at hj
  split_ifs at hj with hcmp
  · obtain rfl := Std.LawfulEqOrd.eq_of_compare hcmp
    cases hj
    exact hp
  · exact h j p' hj

section Visit

variable {g : TrustGraph} {root target node : Digest} {nodePath : List TrustHop}

/-- What the inner loop makes of the queue and the paths. -/
lemma visitNeighbors_spec {ns : List (Digest × TrustKind)} {q : List Digest} {paths : Paths}
    (hnode : g.Trail root nodePath node) (hns : ∀ n ∈ ns, g.Link node n.1 n.2)
    (hpaths : g.Trails root paths) (hnone : paths[target]? = none) :
    match visitNeighbors target nodePath ns (q, paths) with
    | .error p => g.Trail root p target ∧
        (Breadth.expand (.path KeyLt) (nodePath.map TrustHop.key) (ns.map Prod.fst)
          (q, keysOf paths)).2 target = some (p.map TrustHop.key)
    | .ok s => g.Trails root s.2 ∧ s.2[target]? = none ∧
        Breadth.expand (.path KeyLt) (nodePath.map TrustHop.key) (ns.map Prod.fst)
          (q, keysOf paths) = (s.1, keysOf s.2) := by
  induction ns generalizing q paths with
  | nil => exact ⟨hpaths, hnone, rfl⟩
  | cons n ns ih =>
      obtain ⟨next, via⟩ := n
      have hlink : g.Link node next via := hns (next, via) List.mem_cons_self
      have hrest : ∀ n ∈ ns, g.Link node n.1 n.2 := fun n hn => hns n (List.mem_cons_of_mem _ hn)
      rw [visitNeighbors, List.map_cons]
      cases hnext : paths[next]? with
      | some p =>
          rw [Breadth.expand_seen (w := p.map TrustHop.key) _ (by simp [keysOf, hnext])]
          exact ih hrest hpaths hnone
      | none =>
          have htrail := hnode.snoc hlink
          have hlabel : List.map TrustHop.key (nodePath ++ [⟨next, via⟩]) =
              (Breadth.Labels.path KeyLt).ext (nodePath.map TrustHop.key) next := by
            simp [Breadth.Labels.path]
          rw [Breadth.expand_new _ (by simp [keysOf, hnext])]
          by_cases hne : next = target
          · subst hne
            simp only [if_true]
            refine ⟨htrail, ?_⟩
            rw [hlabel]
            exact Breadth.expand_keeps _ (Function.update_self ..)
          · simp only [if_neg hne]
            rw [← hlabel, ← keysOf_insert]
            refine ih hrest (hpaths.insert htrail) ?_
            have hcmp : compare next target ≠ .eq := fun h => hne (Std.LawfulEqOrd.eq_of_compare h)
            rw [Std.ExtTreeMap.getElem?_insert, if_neg hcmp, hnone]

end Visit

section Search

variable {g : TrustGraph} {root target : Digest} {maxHops : UInt8}

/-- What holds of the search between two turns of the outer loop. -/
structure Searching (g : TrustGraph) (root : Digest) (maxHops : UInt8) (q : List Digest)
    (paths : Paths) : Prop where
  front : Breadth.Front (.path KeyLt) g.successors root maxHops.toNat q (keysOf paths)
  trails : g.Trails root paths

/-- A path has reached the bound when its length, as a byte, is the bound. -/
lemma Searching.full {q : List Digest} {paths : Paths} {node : Digest} {p : List TrustHop}
    (h : g.Searching root maxHops q paths) (hp : paths[node]? = some p) :
    UInt8.ofNat p.length = maxHops ↔ maxHops.toNat ≤ p.length := by
  have hlabel : keysOf paths node = some (p.map TrustHop.key) := by simp [keysOf, hp]
  obtain ⟨w, -, hw, hlen⟩ := h.front.walks node _ hlabel
  rw [Breadth.Labels.path_label] at hw
  have hle : p.length ≤ maxHops.toNat := by
    rw [hw, List.length_map] at hlen
    exact hlen
  have hlt := maxHops.toNat_lt
  constructor
  · rintro rfl
    rw [UInt8.toNat_ofNat']
    exact Nat.mod_le _ _
  · intro hge
    rw [show p.length = maxHops.toNat by omega, UInt8.ofNat_toNat]

/-- What the outer loop finds: a trail to the target, or that the target has no label at the
end. -/
lemma pathLoop_spec {fuel : ℕ} {q : List Digest} {paths : Paths}
    (h : g.Searching root maxHops q paths) (hnone : paths[target]? = none)
    (hfuel : Breadth.potential (g.edges.map TrustEdge.toKey) (q, keysOf paths) ≤ fuel) :
    match g.pathLoop target maxHops fuel q paths with
    | some p => g.Trail root p target ∧ ∃ Q P,
        Breadth.Front (.path KeyLt) g.successors root maxHops.toNat Q P ∧
          P target = some (p.map TrustHop.key)
    | none => ∃ P, Breadth.Front (.path KeyLt) g.successors root maxHops.toNat [] P ∧
        P target = none := by
  induction fuel generalizing q paths with
  | zero =>
      obtain rfl : q = [] := by
        simp only [Breadth.potential] at hfuel
        exact List.length_eq_zero_iff.mp (by omega)
      exact ⟨_, h.front, by simp [keysOf, hnone]⟩
  | succ fuel ih =>
      cases q with
      | nil => exact ⟨_, h.front, by simp [keysOf, hnone]⟩
      | cons node q =>
          obtain ⟨w, hw⟩ := h.front.queued node List.mem_cons_self
          obtain ⟨nodePath, hpath, rfl⟩ := Option.map_eq_some_iff.mp hw
          rw [Breadth.potential_cons] at hfuel
          rw [pathLoop, hpath]
          dsimp only
          by_cases hfull : UInt8.ofNat nodePath.length = maxHops
          · rw [if_pos hfull]
            have hsize := (h.full hpath).mp hfull
            exact ih ⟨h.front.skip hw (by simpa [Breadth.Labels.path] using hsize), h.trails⟩ hnone
              (by omega)
          · rw [if_neg hfull]
            have hsize : nodePath.length < maxHops.toNat :=
              Nat.lt_of_not_le fun hle => hfull ((h.full hpath).mpr hle)
            have hnext := h.front.expand hw (by simpa [Breadth.Labels.path] using hsize)
              (Breadth.ordered_path (g.sorted_successors node))
            have hsources : ∀ y ∈ g.successors node, y ∈ g.edges.map TrustEdge.toKey := by
              intro y hy
              obtain ⟨k, hk⟩ := mem_successors.mp hy
              obtain ⟨e, he, -, rfl⟩ := hk.edge
              exact List.mem_map_of_mem he
            have huse : Breadth.potential (g.edges.map TrustEdge.toKey)
                (Breadth.expand (.path KeyLt) (nodePath.map TrustHop.key) (g.successors node)
                  (q, keysOf paths)) ≤
                Breadth.potential (g.edges.map TrustEdge.toKey) (q, keysOf paths) :=
              Breadth.potential_expand _ hsources
            have hspec := visitNeighbors_spec (q := q)
              (h.trails node nodePath hpath) (fun n hn => mem_trustNeighbors.mp hn) h.trails hnone
            rw [← successors] at hspec
            cases hv : visitNeighbors target nodePath (g.trustNeighbors node) (q, paths) with
            | error p =>
                rw [hv] at hspec
                exact ⟨hspec.1, _, _, hnext, hspec.2⟩
            | ok s =>
                obtain ⟨q', paths'⟩ := s
                rw [hv] at hspec
                obtain ⟨htrails, hnone', heq⟩ := hspec
                rw [heq] at hnext huse
                exact ih ⟨hnext, htrails⟩ hnone' (huse.trans (Nat.le_of_succ_le_succ hfuel))

/-- What `trust_path` finds for a key other than the root. -/
lemma trustPath_spec (g : TrustGraph) (maxHops : UInt8) (hne : root ≠ target) :
    match g.trustPath root target maxHops with
    | some p => g.Trail root p target ∧ ∃ Q P,
        Breadth.Front (.path KeyLt) g.successors root maxHops.toNat Q P ∧
          P target = some (p.map TrustHop.key)
    | none => ∃ P, Breadth.Front (.path KeyLt) g.successors root maxHops.toNat [] P ∧
        P target = none := by
  rw [trustPath, if_neg hne]
  have hkeys : keysOf ((∅ : Paths).insert root []) =
      Function.update (fun _ => none) root (some (Breadth.Labels.path KeyLt).base) := by
    rw [keysOf_insert]
    congr 1
  have hcmp : compare root target ≠ .eq := fun h => hne (Std.LawfulEqOrd.eq_of_compare h)
  refine pathLoop_spec ⟨?_, ?_⟩ ?_ ?_
  · rw [hkeys]
    exact .init
  · exact Trails.insert (fun k p hp => by simp at hp) .nil
  · rw [Std.ExtTreeMap.getElem?_insert, if_neg hcmp]
    exact Std.ExtTreeMap.getElem?_empty
  · have hcount := List.countP_le_length (p := fun k =>
      (keysOf ((∅ : Paths).insert root []) k).isNone) (l := g.edges.map TrustEdge.toKey)
    simp only [List.length_map] at hcount
    simp only [Breadth.potential, List.length_singleton]
    omega

/-- **The path that is found** is a trail within the bound, and no walk to the target is
before it. -/
theorem trustPath_some (hne : root ≠ target) {p : List TrustHop}
    (h : g.trustPath root target maxHops = some p) :
    g.Trail root p target ∧ p.length ≤ maxHops.toNat ∧
      ∀ w, Breadth.Walk g.successors root w target → w.length ≤ maxHops.toNat →
        (Breadth.Labels.path KeyLt).le (p.map TrustHop.key) w := by
  have hspec := trustPath_spec g maxHops hne
  rw [h] at hspec
  obtain ⟨htrail, Q, P, hfront, hP⟩ := hspec
  refine ⟨htrail, ?_, fun w hw hlen => ?_⟩
  · obtain ⟨w, -, hw, hlen⟩ := hfront.walks target _ hP
    rw [Breadth.Labels.path_label] at hw
    rwa [hw, List.length_map] at hlen
  · have hleast := hfront.least hP hw hlen
    rwa [Breadth.Labels.path_label] at hleast

/-- **Where no path is found**, every walk to the target is beyond the bound. -/
theorem trustPath_none (hne : root ≠ target) (h : g.trustPath root target maxHops = none)
    {w : List Digest} (hw : Breadth.Walk g.successors root w target) :
    maxHops.toNat < w.length := by
  have hspec := trustPath_spec g maxHops hne
  rw [h] at hspec
  obtain ⟨P, hfront, hP⟩ := hspec
  by_contra hlen
  obtain ⟨l, hl⟩ := hfront.complete hw (Nat.le_of_not_lt hlen)
  rw [hP] at hl
  cases hl

/-- The first of the trails to a key: within the bound, and no walk there is before it. -/
structure FirstTrail (g : TrustGraph) (root target : Digest) (maxHops : UInt8)
    (p : List TrustHop) : Prop where
  trail : g.Trail root p target
  bounded : p.length ≤ maxHops.toNat
  least : ∀ w, Breadth.Walk g.successors root w target → w.length ≤ maxHops.toNat →
    (Breadth.Labels.path KeyLt).le (p.map TrustHop.key) w

/-- There is one first trail at most. -/
lemma FirstTrail.unique {p p' : List TrustHop} (h : g.FirstTrail root target maxHops p)
    (h' : g.FirstTrail root target maxHops p') : p = p' := by
  have hkeys : p.map TrustHop.key = p'.map TrustHop.key :=
    Breadth.Labels.path_antisymm (h.least _ h'.trail.walk (by simpa using h'.bounded))
      (h'.least _ h.trail.walk (by simpa using h.bounded))
  exact (h.trail.unique h'.trail hkeys).1

/-- **`trust_path` finds the first trail.** -/
theorem trustPath_eq_some_iff {p : List TrustHop} :
    g.trustPath root target maxHops = some p ↔ g.FirstTrail root target maxHops p := by
  by_cases hne : root = target
  · subst hne
    have hnil : g.FirstTrail root root maxHops [] :=
      ⟨.nil, Nat.zero_le _, fun w _ _ => (Breadth.Labels.path KeyLt).base_le w⟩
    rw [trustPath, if_pos rfl]
    constructor
    · rintro ⟨⟩
      exact hnil
    · exact fun h => congrArg some (hnil.unique h)
  · constructor
    · intro h
      obtain ⟨htrail, hlen, hleast⟩ := trustPath_some hne h
      exact ⟨htrail, hlen, hleast⟩
    · intro h
      cases hg : g.trustPath root target maxHops with
      | none =>
          have hfar := trustPath_none hne hg h.trail.walk
          rw [List.length_map] at hfar
          exact absurd h.bounded (by omega)
      | some p' =>
          obtain ⟨htrail, hlen, hleast⟩ := trustPath_some hne hg
          have hp' : g.FirstTrail root target maxHops p' := ⟨htrail, hlen, hleast⟩
          rw [hp'.unique h]

/-- The first trail does not come back to its root. -/
lemma FirstTrail.root_not_mem {p : List TrustHop} (h : g.FirstTrail root target maxHops p) :
    root ∉ p.map TrustHop.key := by
  intro hmem
  obtain ⟨w, hw, hshort⟩ := h.trail.walk.shorter hmem
  rw [List.length_map] at hshort
  have hle := (Breadth.Labels.path KeyLt).size_mono
    (h.least w hw (by have := h.bounded; omega))
  simp only [Breadth.Labels.path, List.length_map] at hle
  omega

/-- **A smaller graph has the same path** exactly when it keeps the first trail. -/
theorem trustPath_eq_iff {g' : TrustGraph} (hsub : g'.edges ⊆ g.edges) :
    g'.trustPath root target maxHops = g.trustPath root target maxHops ↔
      ∀ p, g.FirstTrail root target maxHops p → g'.Trail root p target := by
  have hmono : ∀ {w}, Breadth.Walk g'.successors root w target →
      Breadth.Walk g.successors root w target := fun hw => hw.mono (successors_mono hsub)
  constructor
  · intro h p hp
    rw [← trustPath_eq_some_iff, ← h, trustPath_eq_some_iff] at hp
    exact hp.trail
  · intro hkeep
    cases hg : g.trustPath root target maxHops with
    | none =>
        refine Option.eq_none_iff_forall_ne_some.mpr fun p' hg' => ?_
        have hp' := trustPath_eq_some_iff.mp hg'
        by_cases hne : root = target
        · rw [trustPath, if_pos hne] at hg
          cases hg
        · have hfar := trustPath_none hne hg (hmono hp'.trail.walk)
          rw [List.length_map] at hfar
          exact absurd hp'.bounded (by omega)
    | some p =>
        have hp := trustPath_eq_some_iff.mp hg
        exact trustPath_eq_some_iff.mpr
          ⟨hkeep p hp, hp.bounded, fun w hw hlen => hp.least w (hmono hw) hlen⟩

/-- A smaller graph has the same path, if it keeps every trail to the target that is within the
bound and does not come back to the root. -/
theorem trustPath_eq_of_keeps {g' : TrustGraph} (hsub : g'.edges ⊆ g.edges)
    (hkeep : ∀ p, g.Trail root p target → p.length ≤ maxHops.toNat →
      root ∉ p.map TrustHop.key → g'.Trail root p target) :
    g'.trustPath root target maxHops = g.trustPath root target maxHops :=
  (trustPath_eq_iff hsub).mpr fun p hp => hkeep p hp.trail hp.bounded hp.root_not_mem

end Search

end TrustGraph

end Bole
