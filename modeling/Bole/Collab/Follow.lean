import Bole.Collab.Trust
import Bole.Store.PackSafety

/-!
The follow neighbourhood and the paths of the trust graph: `follow_neighborhood`, `follow_paths`
and `trust_path` of `src/collab/trust.rs`.

The two searches along follow edges carry their distances as `u8`; a sum or a difference that goes
wrong there panics.

* `followNeighborhood_spec`: the neighbourhood has every key within the bound, at its distance;
* `followPaths_spec`: the paths lead to the same keys by shortest ways, or some key is 255 edges
  away and the search panics;
* `followPaths_agree_iff`: **when the two agree**;
* `trustPath_shortest`: a trust path is a shortest one, and every hop tells its link.
-/

namespace Bole

namespace TrustGraph

/-! ### Paths in the graph -/

/-- A path from a root, by the keys behind the root. -/
def IsPath (r : Digest → Digest → Prop) (root target : Digest) (w : List Digest) : Prop :=
  List.IsChain r (root :: w) ∧ (root :: w).getLast? = some target

/-- A path of follow edges. -/
def FollowPath (g : TrustGraph) (root target : Digest) (w : List Digest) : Prop :=
  IsPath (fun x y => g.HasEdge x y .follow) root target w

/-- A path of edges that follow or vouch. -/
def TrustPath (g : TrustGraph) (root target : Digest) (w : List Digest) : Prop :=
  IsPath (fun x y => g.HasEdge x y .follow ∨ g.HasEdge x y .vouch) root target w

/-! ### The searches -/

/-- `follows`. -/
def follows (g : TrustGraph) (source : Digest) : List Digest :=
  (g.edges.filter fun e => e.kind = .follow ∧ e.fromKey = source).map TrustEdge.toKey

lemma mem_follows {g : TrustGraph} {x y : Digest} : y ∈ g.follows x ↔ g.HasEdge x y .follow := by
  simp only [follows, List.mem_map, List.mem_filter, decide_eq_true_eq, HasEdge]
  constructor
  · rintro ⟨e, ⟨he, hk, hx⟩, hy⟩
    exact ⟨e, he, hx, hy, hk⟩
  · rintro ⟨e, he, hx, hy, hk⟩
    exact ⟨e, ⟨he, hk, hx⟩, hy⟩

/-- `dist`, `q` and `seen` of `follow_neighborhood`. -/
structure Neighborhood where
  dist : BTreeMap Digest ℕ
  q : List (Digest × ℕ)
  seen : BTreeSet Digest

/-- The inner loop of `follow_neighborhood`, over what a key at distance `d` follows. -/
def visitFollows (d : ℕ) : List Digest → Neighborhood → Result Neighborhood
  | [], s => .ok s
  | next :: rest, s =>
      if next ∈ s.seen then visitFollows d rest s
      else do
        let far ← Checked.add 8 d 1
        visitFollows d rest ⟨s.dist.insert next far, s.q ++ [(next, far)], s.seen.insert next⟩

/-- The outer loop of `follow_neighborhood`. -/
def neighborhoodLoop (g : TrustGraph) (hops : UInt8) : ℕ → Neighborhood →
    Result (BTreeMap Digest ℕ)
  | 0, s => .ok s.dist
  | fuel + 1, s =>
      match s.q with
      | [] => .ok s.dist
      | (node, d) :: q =>
          if d = hops.toNat then g.neighborhoodLoop hops fuel { s with q := q }
          else do
            let s ← visitFollows d (g.follows node) { s with q := q }
            g.neighborhoodLoop hops fuel s

/-- `follow_neighborhood`.  A key comes into the queue once at most, and but for the root each is
at the end of an edge. -/
def followNeighborhood (g : TrustGraph) (root : Digest) (hops : UInt8) :
    Result (BTreeMap Digest ℕ) :=
  g.neighborhoodLoop hops (g.edges.length + 1) ⟨∅, [(root, 0)], (∅ : BTreeSet Digest).insert root⟩

/-- `paths` of `follow_paths`: the keys on the way, the root included. -/
abbrev KeyPaths := BTreeMap Digest (List Digest)

/-- The inner loop of `follow_paths`. -/
def visitPaths (nodePath : List Digest) : List Digest → List Digest × KeyPaths →
    List Digest × KeyPaths
  | [], s => s
  | next :: rest, (q, paths) =>
      match paths[next]? with
      | some _ => visitPaths nodePath rest (q, paths)
      | none => visitPaths nodePath rest (q ++ [next], paths.insert next (nodePath ++ [next]))

/-- The outer loop of `follow_paths`, with `node_path.len() as u8 - 1`. -/
def followLoop (g : TrustGraph) (hops : UInt8) : ℕ → List Digest → KeyPaths → Result KeyPaths
  | 0, _, paths => .ok paths
  | fuel + 1, q, paths =>
      match q with
      | [] => .ok paths
      | node :: q =>
          match paths[node]? with
          | none => .error (.panic "visited nodes have a path")
          | some nodePath => do
              let d ← Checked.sub (nodePath.length % 2 ^ 8) 1
              if d = hops.toNat then g.followLoop hops fuel q paths
              else
                let (q, paths) := visitPaths nodePath (g.follows node) (q, paths)
                g.followLoop hops fuel q paths

/-- `follow_paths`. -/
def followPaths (g : TrustGraph) (root : Digest) (hops : UInt8) : Result KeyPaths := do
  let paths ← g.followLoop hops (g.edges.length + 1) [root] ((∅ : KeyPaths).insert root [root])
  .ok (paths.erase root)

/-- A key is the given number of follow edges away, and no fewer. -/
def FollowDistance (g : TrustGraph) (root k : Digest) (n : ℕ) : Prop :=
  (∃ w, g.FollowPath root k w ∧ w.length = n) ∧ ∀ w, g.FollowPath root k w → n ≤ w.length

variable {g : TrustGraph} {root : Digest} {hops : UInt8}

/-- The walks of the searches are the paths. -/
lemma followPath_iff {k : Digest} {w : List Digest} :
    g.FollowPath root k w ↔ Breadth.Walk g.follows root w k := by
  rw [Breadth.walk_iff, FollowPath, IsPath]
  simp only [mem_follows]

lemma followDistance_iff {k : Digest} {n : ℕ} :
    g.FollowDistance root k n ↔ Breadth.IsDistance g.follows root k n := by
  simp only [FollowDistance, Breadth.IsDistance, followPath_iff]

lemma follows_subset (g : TrustGraph) (node : Digest) :
    ∀ y ∈ g.follows node, y ∈ g.edges.map TrustEdge.toKey := by
  intro y hy
  obtain ⟨e, he, -, rfl, -⟩ := mem_follows.mp hy
  exact List.mem_map_of_mem he

/-- What the root uses up. -/
lemma potential_root (g : TrustGraph) (root : Digest) (P : Digest → Option ℕ) :
    Breadth.potential (g.edges.map TrustEdge.toKey) ([root], P) ≤ g.edges.length + 1 := by
  have hcount := List.countP_le_length (p := fun k => (P k).isNone)
    (l := g.edges.map TrustEdge.toKey)
  simp only [List.length_map] at hcount
  simp only [Breadth.potential, List.length_singleton]
  omega

/-! ### The neighbourhood -/

/-- The distances that are known: of the root, and those in the map. -/
def Neighborhood.label (root : Digest) (s : Neighborhood) : Digest → Option ℕ := fun k =>
  if k = root then some 0 else s.dist[k]?

/-- What holds of `seen`, the queue and the map at any time. -/
structure Neighborhood.Tidy (root : Digest) (s : Neighborhood) : Prop where
  seen : ∀ k, k ∈ s.seen ↔ (s.label root k).isSome
  queue : ∀ x ∈ s.q, s.label root x.1 = some x.2
  root : s.dist[root]? = none

/-- A key that is met gets its distance. -/
lemma Neighborhood.label_insert {s : Neighborhood} {next : Digest} {far : ℕ}
    {q : List (Digest × ℕ)} {seen : BTreeSet Digest} (hne : next ≠ root) :
    Neighborhood.label root ⟨s.dist.insert next far, q, seen⟩ =
      Function.update (s.label root) next (some far) := by
  funext k
  by_cases hk : k = next
  · subst hk
    simp [label, hne]
  · have hcmp : compare next k ≠ .eq := fun h => hk (Std.LawfulEqOrd.eq_of_compare h).symm
    simp [label, Function.update_of_ne hk, Std.ExtTreeMap.getElem?_insert, hcmp]

/-- The inner loop is a visit, and below the greatest bound it does not panic. -/
lemma visitFollows_spec {d : ℕ} (hd : d < 255) {xs : List Digest} {s : Neighborhood}
    (h : s.Tidy root) :
    ∃ s', visitFollows d xs s = .ok s' ∧ s'.Tidy root ∧
      Breadth.expand (.depth Digest) d xs (s.q.map Prod.fst, s.label root) =
        (s'.q.map Prod.fst, s'.label root) := by
  induction xs generalizing s with
  | nil => exact ⟨s, rfl, h, rfl⟩
  | cons next rest ih =>
      rw [visitFollows]
      by_cases hseen : next ∈ s.seen
      · obtain ⟨n, hn⟩ := Option.isSome_iff_exists.mp ((h.seen next).mp hseen)
        rw [if_pos hseen, Breadth.expand_seen _ hn]
        exact ih h
      · have hnone : s.label root next = none := by
          simpa using fun hsome => hseen ((h.seen next).mpr hsome)
        have hne : next ≠ root := by
          rintro rfl
          simp [Neighborhood.label] at hnone
        have hadd : Checked.add 8 d 1 = .ok (d + 1) := if_pos (by omega)
        have hlabel : Neighborhood.label root
              ⟨s.dist.insert next (d + 1), s.q ++ [(next, d + 1)], s.seen.insert next⟩ =
            Function.update (s.label root) next (some (d + 1)) := Neighborhood.label_insert hne
        have htidy : Neighborhood.Tidy root
            ⟨s.dist.insert next (d + 1), s.q ++ [(next, d + 1)], s.seen.insert next⟩ := by
          refine ⟨fun k => ?_, fun x hx => ?_, ?_⟩
          · rw [hlabel, Std.ExtTreeSet.mem_insert, Std.LawfulEqOrd.compare_eq_iff_eq, h.seen]
            by_cases hk : next = k
            · subst hk
              simp
            · simp [hk, Function.update_of_ne (Ne.symm hk)]
          · rw [hlabel]
            rcases List.mem_append.mp hx with hx | hx
            · exact Breadth.update_some hnone (h.queue x hx)
            · rw [List.mem_singleton.mp hx]
              exact Function.update_self ..
          · have hcmp : compare next root ≠ .eq := fun heq =>
              hne (Std.LawfulEqOrd.eq_of_compare heq)
            simp only [Std.ExtTreeMap.getElem?_insert, if_neg hcmp, h.root]
        obtain ⟨s', hrun, htidy', hexpand⟩ := ih htidy
        refine ⟨s', ?_, htidy', ?_⟩
        · rw [if_neg hseen, hadd]
          exact hrun
        · rw [Breadth.expand_new _ hnone, ← hexpand, hlabel, List.map_append]
          rfl

/-- The outer loop finds the distances within the bound. -/
lemma neighborhoodLoop_spec {fuel : ℕ} {s : Neighborhood} (htidy : s.Tidy root)
    (hfront : Breadth.Front (.depth Digest) g.follows root hops.toNat (s.q.map Prod.fst)
      (s.label root))
    (hfuel : Breadth.potential (g.edges.map TrustEdge.toKey) (s.q.map Prod.fst, s.label root) ≤
      fuel) :
    ∃ s' : Neighborhood, g.neighborhoodLoop hops fuel s = .ok s'.dist ∧ s'.Tidy root ∧
      Breadth.Front (.depth Digest) g.follows root hops.toNat [] (s'.label root) := by
  induction fuel generalizing s with
  | zero =>
      have hq : s.q.map Prod.fst = [] := by
        simp only [Breadth.potential] at hfuel
        exact List.length_eq_zero_iff.mp (by omega)
      rw [hq] at hfront
      exact ⟨s, rfl, htidy, hfront⟩
  | succ fuel ih =>
      obtain ⟨dist, q, seen⟩ := s
      rcases q with _ | ⟨⟨node, d⟩, q⟩
      · exact ⟨_, rfl, htidy, hfront⟩
      · have hnode : Neighborhood.label root ⟨dist, (node, d) :: q, seen⟩ node = some d :=
          htidy.queue (node, d) List.mem_cons_self
        have hrest : Neighborhood.Tidy root ⟨dist, q, seen⟩ :=
          ⟨htidy.seen, fun x hx => htidy.queue x (List.mem_cons_of_mem _ hx), htidy.root⟩
        have hle : d ≤ hops.toNat := (hfront.distance hnode).1
        have hlt := hops.toNat_lt
        rw [List.map_cons, Breadth.potential_cons] at hfuel
        rw [neighborhoodLoop]
        dsimp only
        by_cases hfull : d = hops.toNat
        · rw [if_pos hfull]
          exact ih hrest (hfront.skip hnode hfull.ge) (Nat.le_of_succ_le_succ hfuel)
        · rw [if_neg hfull]
          obtain ⟨s', hrun, htidy', hexpand⟩ : ∃ s', visitFollows d (g.follows node) _ = _ ∧ _ :=
            visitFollows_spec (by omega) hrest
          have hnext := hfront.expand hnode (show d < hops.toNat by omega)
            (Breadth.ordered_depth _)
          have huse : Breadth.potential _ (Breadth.expand (.depth Digest) d (g.follows node)
              (q.map Prod.fst, Neighborhood.label root ⟨dist, q, seen⟩)) ≤ _ :=
            Breadth.potential_expand _ (g.follows_subset node)
          rw [hexpand] at huse
          have hfront' : Breadth.Front (.depth Digest) g.follows root hops.toNat
              (s'.q.map Prod.fst) (s'.label root) := by
            have heq : Breadth.expand (.depth Digest) d (g.follows node) (q.map Prod.fst,
                Neighborhood.label root ⟨dist, (node, d) :: q, seen⟩) =
                (s'.q.map Prod.fst, s'.label root) := hexpand
            rwa [heq] at hnext
          obtain ⟨s'', hloop, hdone⟩ := ih htidy' hfront'
            (huse.trans (Nat.le_of_succ_le_succ hfuel))
          exact ⟨s'', by rw [hrun]; exact hloop, hdone⟩

/-- **The neighbourhood** has every key within the bound but the root, at its distance. -/
theorem followNeighborhood_spec (g : TrustGraph) (root : Digest) (hops : UInt8) :
    ∃ dist, g.followNeighborhood root hops = .ok dist ∧ ∀ k n,
      dist[k]? = some n ↔ k ≠ root ∧ n ≤ hops.toNat ∧ g.FollowDistance root k n := by
  have hlabel : Neighborhood.label root ⟨∅, [(root, 0)], (∅ : BTreeSet Digest).insert root⟩ =
      Function.update (fun _ => none) root (some 0) := by
    funext k
    by_cases hk : k = root
    · subst hk
      simp [Neighborhood.label]
    · simp [Neighborhood.label, hk]
  have htidy : Neighborhood.Tidy root ⟨∅, [(root, 0)], (∅ : BTreeSet Digest).insert root⟩ := by
    refine ⟨fun k => ?_, fun x hx => ?_, by simp⟩
    · rw [hlabel, Std.ExtTreeSet.mem_insert, Std.LawfulEqOrd.compare_eq_iff_eq]
      by_cases hk : root = k
      · subst hk
        simp
      · simp [hk, Function.update_of_ne (Ne.symm hk)]
    · rw [hlabel, List.mem_singleton.mp hx]
      exact Function.update_self ..
  obtain ⟨s, hrun, htidy', hfront⟩ : ∃ s, g.neighborhoodLoop hops _ _ = _ ∧ _ :=
    neighborhoodLoop_spec htidy (by rw [hlabel]; exact .init) (g.potential_root root _)
  refine ⟨s.dist, hrun, fun k n => ?_⟩
  rw [followDistance_iff, ← hfront.depth_iff, Neighborhood.label]
  by_cases hk : k = root
  · subst hk
    simp [htidy'.root]
  · simp [hk]

/-! ### The paths -/

/-- The distances that the paths tell. -/
def lengths (paths : KeyPaths) : Digest → Option ℕ := fun k =>
  paths[k]?.map fun p => p.length - 1

/-- What holds of the paths at any time: they are paths from the root, and those of the keys that
are done have room for a byte. -/
structure Ways (g : TrustGraph) (root : Digest) (q : List Digest) (paths : KeyPaths) : Prop where
  walks : ∀ k p, paths[k]? = some p → ∃ w, p = root :: w ∧ Breadth.Walk g.follows root w k
  near : ∀ k p, paths[k]? = some p → k ∉ q → p.length ≤ 255

lemma lengths_insert {paths : KeyPaths} {next : Digest} {p : List Digest} :
    lengths (paths.insert next p) =
      Function.update (lengths paths) next (some (p.length - 1)) := by
  funext k
  by_cases hk : k = next
  · subst hk
    simp [lengths]
  · have hcmp : compare next k ≠ .eq := fun h => hk (Std.LawfulEqOrd.eq_of_compare h).symm
    simp [lengths, Function.update_of_ne hk, Std.ExtTreeMap.getElem?_insert, hcmp]

/-- The inner loop is a visit, too. -/
lemma visitPaths_spec {node : Digest} {w : List Digest} (hw : Breadth.Walk g.follows root w node)
    {xs q : List Digest} (hxs : ∀ x ∈ xs, x ∈ g.follows node) {paths : KeyPaths}
    (h : g.Ways root q paths) :
    Breadth.expand (.depth Digest) w.length xs (q, lengths paths) =
        ((visitPaths (root :: w) xs (q, paths)).1,
          lengths (visitPaths (root :: w) xs (q, paths)).2) ∧
      g.Ways root (visitPaths (root :: w) xs (q, paths)).1
        (visitPaths (root :: w) xs (q, paths)).2 := by
  induction xs generalizing q paths with
  | nil => exact ⟨rfl, h⟩
  | cons next rest ih =>
      obtain ⟨hnext, hrest⟩ := List.forall_mem_cons.mp hxs
      rw [visitPaths]
      cases hp : paths[next]? with
      | some p =>
          rw [Breadth.expand_seen (w := p.length - 1) _ (by simp [lengths, hp])]
          exact ih hrest h
      | none =>
          have hstep : Breadth.Walk g.follows root (w ++ [next]) next := hw.snoc hnext
          have hways : g.Ways root (q ++ [next]) (paths.insert next (root :: w ++ [next])) := by
            refine ⟨fun k p hk => ?_, fun k p hk hq => ?_⟩
            · rw [Std.ExtTreeMap.getElem?_insert] at hk
              split_ifs at hk with hcmp
              · obtain rfl := Std.LawfulEqOrd.eq_of_compare hcmp
                cases hk
                exact ⟨w ++ [next], rfl, hstep⟩
              · exact h.walks k p hk
            · rw [List.mem_append, List.mem_singleton, not_or] at hq
              have hcmp : compare next k ≠ .eq := fun heq =>
                hq.2 (Std.LawfulEqOrd.eq_of_compare heq).symm
              rw [Std.ExtTreeMap.getElem?_insert, if_neg hcmp] at hk
              exact h.near k p hk hq.1
          have hlen : (root :: w ++ [next]).length - 1 = w.length + 1 := by simp
          rw [Breadth.expand_new _ (by simp [lengths, hp])]
          have hih := ih hrest hways
          rw [lengths_insert, hlen] at hih
          exact hih

/-- A turn of the outer loop. -/
lemma followLoop_cons {fuel d : ℕ} {node : Digest} {q nodePath : List Digest} {paths : KeyPaths}
    (hp : paths[node]? = some nodePath)
    (hd : Checked.sub (nodePath.length % 2 ^ 8) 1 = .ok d) :
    g.followLoop hops (fuel + 1) (node :: q) paths =
      if d = hops.toNat then g.followLoop hops fuel q paths
      else g.followLoop hops fuel (visitPaths nodePath (g.follows node) (q, paths)).1
        (visitPaths nodePath (g.follows node) (q, paths)).2 := by
  rw [followLoop]
  simp only [hp, hd]
  rfl

/-- The outer loop finds shortest paths, or a key at a distance that a byte cannot hold one
more of. -/
lemma followLoop_spec {fuel : ℕ} {q : List Digest} {paths : KeyPaths} (hways : g.Ways root q paths)
    (hfront : Breadth.Front (.depth Digest) g.follows root hops.toNat q (lengths paths))
    (hfuel : Breadth.potential (g.edges.map TrustEdge.toKey) (q, lengths paths) ≤ fuel) :
    match g.followLoop hops fuel q paths with
    | .ok paths' => g.Ways root [] paths' ∧
        Breadth.Front (.depth Digest) g.follows root hops.toNat [] (lengths paths')
    | .error _ => hops = 255 ∧ ∃ k, Breadth.IsDistance g.follows root k 255 := by
  induction fuel generalizing q paths with
  | zero =>
      obtain rfl : q = [] := by
        simp only [Breadth.potential] at hfuel
        exact List.length_eq_zero_iff.mp (by omega)
      exact ⟨hways, hfront⟩
  | succ fuel ih =>
      rcases q with _ | ⟨node, q⟩
      · exact ⟨hways, hfront⟩
      · obtain ⟨n, hn⟩ := hfront.queued node List.mem_cons_self
        obtain ⟨p, hp, hpn⟩ := Option.map_eq_some_iff.mp hn
        obtain ⟨w, rfl, hw⟩ := hways.walks node p hp
        obtain rfl : w.length = n := by simpa using hpn
        obtain ⟨hle, hdist⟩ := hfront.distance hn
        have hlt := hops.toNat_lt
        rw [Breadth.potential_cons] at hfuel
        by_cases hroom : w.length < 255
        · have hsub : Checked.sub ((root :: w).length % 2 ^ 8) 1 = .ok w.length := by
            rw [List.length_cons, Nat.mod_eq_of_lt (by omega)]
            exact if_pos (by omega)
          have hnear : ∀ k p, paths[k]? = some p → k ∉ q → p.length ≤ 255 := by
            intro k p hk hq
            by_cases hnode : k = node
            · subst hnode
              obtain rfl : root :: w = p := Option.some.inj (hp.symm.trans hk)
              simpa using hroom
            · exact hways.near k p hk (by simp [hnode, hq])
          rw [followLoop_cons hp hsub]
          by_cases hfull : w.length = hops.toNat
          · rw [if_pos hfull]
            exact ih ⟨hways.walks, hnear⟩ (hfront.skip hn hfull.ge) (Nat.le_of_succ_le_succ hfuel)
          · have hnext := hfront.expand hn (show w.length < hops.toNat by omega)
              (Breadth.ordered_depth _)
            have huse : Breadth.potential _ (Breadth.expand (.depth Digest) w.length _
                (q, lengths paths)) ≤ _ := Breadth.potential_expand _ (g.follows_subset node)
            obtain ⟨hexpand, hways'⟩ := visitPaths_spec hw (fun x hx => hx)
              (⟨hways.walks, hnear⟩ : g.Ways root q paths)
            rw [hexpand] at hnext huse
            rw [if_neg hfull]
            exact ih hways' hnext (huse.trans (Nat.le_of_succ_le_succ hfuel))
        · -- the path of a key at the greatest distance has 256 keys, which as a byte is 0
          have hlast : w.length = 255 := by omega
          have hsub : Checked.sub ((root :: w).length % 2 ^ 8) 1 =
              .error (.panic "attempt to subtract with overflow") := by
            rw [List.length_cons, hlast]
            rfl
          rw [followLoop, hp]
          simp only [hsub]
          refine ⟨?_, node, hlast ▸ hdist⟩
          exact UInt8.toNat_inj.mp (by simpa using (by omega : hops.toNat = 255))

/-- **The paths** lead to every key within the bound but the root, by shortest ways; or the search
panics, and some key is 255 edges away. -/
theorem followPaths_spec (g : TrustGraph) (root : Digest) (hops : UInt8) :
    match g.followPaths root hops with
    | .ok paths => (∀ k, k ∈ paths ↔ k ≠ root ∧ ∃ n ≤ hops.toNat, g.FollowDistance root k n) ∧
        (∀ k p, paths[k]? = some p → ∃ w, p = root :: w ∧ g.FollowPath root k w ∧
          g.FollowDistance root k w.length) ∧
        ¬ (hops = 255 ∧ ∃ k, g.FollowDistance root k 255)
    | .error _ => hops = 255 ∧ ∃ k, g.FollowDistance root k 255 := by
  have hlabel : lengths ((∅ : KeyPaths).insert root [root]) =
      Function.update (fun _ => none) root (some 0) := by
    rw [lengths_insert]
    congr 1
  have hways : g.Ways root [root] ((∅ : KeyPaths).insert root [root]) := by
    have hroot : ∀ k p, ((∅ : KeyPaths).insert root [root])[k]? = some p →
        k = root ∧ p = [root] := by
      intro k p hk
      rw [Std.ExtTreeMap.getElem?_insert] at hk
      split_ifs at hk with hcmp
      · exact ⟨(Std.LawfulEqOrd.eq_of_compare hcmp).symm, (Option.some.inj hk).symm⟩
      · simp at hk
    refine ⟨fun k p hk => ?_, fun k p hk _ => ?_⟩
    · obtain ⟨rfl, rfl⟩ := hroot k p hk
      exact ⟨[], rfl, .nil⟩
    · obtain ⟨rfl, rfl⟩ := hroot k p hk
      simp
  have hspec := @followLoop_spec g root hops _ _ _ hways (by rw [hlabel]; exact .init)
    (g.potential_root root _)
  simp only [followDistance_iff]
  rw [followPaths]
  cases hrun : g.followLoop hops (g.edges.length + 1) [root]
      ((∅ : KeyPaths).insert root [root]) with
  | error e =>
      rw [hrun] at hspec
      exact hspec
  | ok paths =>
      rw [hrun] at hspec
      obtain ⟨hways', hfront⟩ := hspec
      have hmem : ∀ k p, (paths.erase root)[k]? = some p ↔ k ≠ root ∧ paths[k]? = some p := by
        intro k p
        simp only [Std.ExtTreeMap.getElem?_erase, Std.LawfulEqOrd.compare_eq_iff_eq]
        by_cases hk : root = k
        · simp [hk]
        · simp [hk, Ne.symm hk]
      refine ⟨fun k => ?_, fun k p hk => ?_, ?_⟩
      · rw [Std.ExtTreeMap.mem_iff_isSome_getElem?, Option.isSome_iff_exists]
        simp only [hmem, exists_and_left]
        refine and_congr_right fun _ => ?_
        constructor
        · rintro ⟨p, hp⟩
          have hn : lengths paths k = some (p.length - 1) := by simp [lengths, hp]
          exact ⟨_, hfront.depth_iff.mp hn⟩
        · rintro ⟨n, hn⟩
          obtain ⟨p, hp, -⟩ := Option.map_eq_some_iff.mp (hfront.depth_iff.mpr hn)
          exact ⟨p, hp⟩
      · obtain ⟨-, hp⟩ := (hmem k p).mp hk
        obtain ⟨w, rfl, hw⟩ := hways'.walks k p hp
        have hn : lengths paths k = some w.length := by simp [lengths, hp]
        exact ⟨w, rfl, followPath_iff.mpr hw, (hfront.distance hn).2⟩
      · rintro ⟨rfl, k, hk⟩
        obtain ⟨p, hp, hlen⟩ := Option.map_eq_some_iff.mp (hfront.depth_iff.mpr ⟨by decide, hk⟩)
        have hnear := hways'.near k p hp (by simp)
        omega

/-- A search for paths that returns has met no key that is too far away. -/
lemma not_far_of_followPaths {paths : KeyPaths} (h : g.followPaths root hops = .ok paths) :
    ¬ (hops = 255 ∧ ∃ k, g.FollowDistance root k 255) := by
  have hspec := g.followPaths_spec root hops
  rw [h] at hspec
  exact hspec.2.2

/-- **When the two searches agree**: they reach the same keys, by shortest paths of follow edges
whose lengths are the distances, and no distance overflows, unless the bound is 255 and some key is
255 edges away. -/
theorem followPaths_agree_iff (g : TrustGraph) (root : Digest) (hops : UInt8) :
    (∃ dist paths, g.followNeighborhood root hops = .ok dist ∧
      g.followPaths root hops = .ok paths ∧ (∀ k, k ∈ dist ↔ k ∈ paths) ∧
      ∀ k p, paths[k]? = some p → ∃ w, p = root :: w ∧ g.FollowPath root k w ∧
        dist[k]? = some w.length ∧ ∀ w', g.FollowPath root k w' → w.length ≤ w'.length) ↔
      ¬ (hops = 255 ∧ ∃ k, g.FollowDistance root k 255) := by
  obtain ⟨dist, hdist, hnear⟩ := g.followNeighborhood_spec root hops
  have hspec := g.followPaths_spec root hops
  constructor
  · rintro ⟨-, paths, -, hpaths, -⟩
    exact not_far_of_followPaths hpaths
  · intro hfree
    cases hpaths : g.followPaths root hops with
    | error e =>
        rw [hpaths] at hspec
        exact absurd hspec hfree
    | ok paths =>
        rw [hpaths] at hspec
        obtain ⟨hmem, hways, -⟩ := hspec
        refine ⟨dist, paths, hdist, rfl, fun k => ?_, fun k p hk => ?_⟩
        · rw [hmem, Std.ExtTreeMap.mem_iff_isSome_getElem?, Option.isSome_iff_exists]
          simp only [hnear, exists_and_left]
        · obtain ⟨w, rfl, hw, hleast⟩ := hways k p hk
          have hin : k ∈ paths := Std.ExtTreeMap.mem_iff_isSome_getElem?.mpr (by simp [hk])
          obtain ⟨hne, n, hn, hd⟩ := (hmem k).mp hin
          refine ⟨w, rfl, hw, (hnear k _).mpr ⟨hne, ?_, hleast⟩, hleast.2⟩
          obtain ⟨⟨v, hv, rfl⟩, -⟩ := hd
          exact (hleast.2 v hv).trans hn

/-! ### A long chain -/

/-- The keys whose bytes are all the same follow one another. -/
def chain : TrustGraph :=
  ⟨(List.range 255).map fun i =>
    ⟨.replicate (UInt8.ofNat i), .replicate (UInt8.ofNat (i + 1)), .follow, none, 1, []⟩⟩

lemma replicate_injective : Function.Injective Digest.replicate := by
  intro a b h
  have hhead := congrArg (fun d : Digest => d.bytes.head?) h
  simpa [Digest.replicate] using hhead

/-- An edge of the chain leads to the next key. -/
lemma chain_edge {x y : Digest} : chain.HasEdge x y .follow ↔
    ∃ i < 255, x = .replicate (UInt8.ofNat i) ∧ y = .replicate (UInt8.ofNat (i + 1)) := by
  simp only [HasEdge, chain, List.mem_map, List.mem_range]
  constructor
  · rintro ⟨e, ⟨i, hi, rfl⟩, hx, hy, -⟩
    exact ⟨i, hi, hx.symm, hy.symm⟩
  · rintro ⟨i, hi, rfl, rfl⟩
    exact ⟨_, ⟨i, hi, rfl⟩, rfl, rfl, rfl⟩

/-- A walk along the chain tells how far it has come. -/
lemma chain_walk {w : List Digest} {v : Digest}
    (h : Breadth.Walk chain.follows (.replicate 0) w v) :
    w.length ≤ 255 ∧ v = .replicate (UInt8.ofNat w.length) := by
  induction h with
  | nil => exact ⟨by simp, rfl⟩
  | @snoc w x y hw hy ih =>
      obtain ⟨hle, rfl⟩ := ih
      obtain ⟨i, hi, hx, rfl⟩ := chain_edge.mp (mem_follows.mp hy)
      have hlen : w.length = i := by
        have hmod := congrArg UInt8.toNat (replicate_injective hx)
        simp only [UInt8.toNat_ofNat'] at hmod
        omega
      rw [List.length_append, List.length_singleton, hlen]
      exact ⟨by omega, rfl⟩

/-- The last key of the chain is as far away as a byte can tell. -/
lemma chain_far : chain.FollowDistance (.replicate 0) (.replicate 255) 255 := by
  have hreach : ∀ n ≤ 255, ∃ w, Breadth.Walk chain.follows (.replicate 0) w
      (.replicate (UInt8.ofNat n)) ∧ w.length = n := by
    intro n
    induction n with
    | zero => exact fun _ => ⟨[], .nil, rfl⟩
    | succ n ih =>
        intro hn
        obtain ⟨w, hw, hlen⟩ := ih (by omega)
        have hstep := mem_follows.mpr (chain_edge.mpr ⟨n, by omega, rfl, rfl⟩)
        exact ⟨_, hw.snoc hstep, by simp [hlen]⟩
  refine followDistance_iff.mpr ⟨hreach 255 le_rfl, fun w hw => ?_⟩
  obtain ⟨hle, heq⟩ := chain_walk hw
  have hmod := congrArg UInt8.toNat (replicate_injective heq)
  rw [UInt8.toNat_ofNat'] at hmod
  have hval : (255 : UInt8).toNat = 255 := rfl
  omega

/-- **On a long chain the search for paths panics**. -/
theorem followPaths_overflows : ¬ ∀ (g : TrustGraph) (root : Digest) (hops : UInt8),
    ∃ dist paths, g.followNeighborhood root hops = .ok dist ∧
      g.followPaths root hops = .ok paths ∧ (∀ k, k ∈ dist ↔ k ∈ paths) ∧
      ∀ k p, paths[k]? = some p → ∃ w, p = root :: w ∧ g.FollowPath root k w ∧
        dist[k]? = some w.length ∧ ∀ w', g.FollowPath root k w' → w.length ≤ w'.length := by
  intro h
  obtain ⟨-, paths, -, hpaths, -⟩ := h chain (.replicate 0) 255
  exact not_far_of_followPaths hpaths ⟨rfl, _, chain_far⟩

/-! ### Trust paths -/

lemma trustPath_walk {target : Digest} {w : List Digest} :
    g.TrustPath root target w ↔ Breadth.Walk g.successors root w target := by
  have hlink : ∀ x y, (∃ k, g.Link x y k) ↔ g.HasEdge x y .follow ∨ g.HasEdge x y .vouch := by
    intro x y
    constructor
    · rintro ⟨k, ⟨-, h⟩ | ⟨-, h, -⟩⟩
      · exact .inr h
      · exact .inl h
    · intro h
      by_cases hv : g.HasEdge x y .vouch
      · exact ⟨.vouch, .inl ⟨rfl, hv⟩⟩
      · exact ⟨.follow, .inr ⟨rfl, h.resolve_right hv, hv⟩⟩
  rw [Breadth.walk_iff, TrustPath, IsPath]
  simp only [mem_successors, hlink]

/-- Hops that go along edges from a key on: each is marked as a vouch exactly if there is one. -/
def Marked (g : TrustGraph) : Digest → List TrustHop → Prop
  | _, [] => True
  | x, hop :: hops =>
      (g.HasEdge x hop.key .follow ∨ g.HasEdge x hop.key .vouch) ∧
        (hop.via = .vouch ↔ g.HasEdge x hop.key .vouch) ∧ g.Marked hop.key hops

lemma Link.marked {x y : Digest} {k : TrustKind} (h : g.Link x y k) :
    (g.HasEdge x y .follow ∨ g.HasEdge x y .vouch) ∧ (k = .vouch ↔ g.HasEdge x y .vouch) := by
  rcases h with ⟨rfl, hv⟩ | ⟨rfl, hf, hno⟩
  · exact ⟨.inr hv, by simp [hv]⟩
  · exact ⟨.inl hf, by simp [hno]⟩

lemma Marked.snoc {x y v : Digest} {k : TrustKind} {hops : List TrustHop} (h : g.Marked x hops)
    (hv : (x :: hops.map TrustHop.key).getLast? = some v) (hk : g.Link v y k) :
    g.Marked x (hops ++ [⟨y, k⟩]) := by
  induction hops generalizing x with
  | nil =>
      obtain rfl : x = v := by simpa using hv
      exact ⟨hk.marked.1, hk.marked.2, trivial⟩
  | cons hop hops ih =>
      obtain ⟨hedge, hmark, hrest⟩ := h
      rw [List.map_cons, List.getLast?_cons_cons] at hv
      exact ⟨hedge, hmark, ih hrest hv⟩

/-- A trail is marked. -/
lemma Trail.marked {v : Digest} {hops : List TrustHop} (h : g.Trail root hops v) :
    g.Marked root hops := by
  induction h with
  | nil => trivial
  | snoc h hk ih => exact ih.snoc (trustPath_walk.mpr h.walk).2 hk

/-- **A trust path is a shortest one.**  There is a path exactly if one within the bound exists;
then it goes along edges to the target, none is shorter, and a hop is marked as a vouch exactly if
there is a vouch between its ends. -/
theorem trustPath_shortest (g : TrustGraph) (root target : Digest) (maxHops : UInt8) :
    ((∃ hops, g.trustPath root target maxHops = some hops) ↔
      ∃ w, g.TrustPath root target w ∧ w.length ≤ maxHops.toNat) ∧
    ∀ hops, g.trustPath root target maxHops = some hops →
      g.TrustPath root target (hops.map TrustHop.key) ∧ hops.length ≤ maxHops.toNat ∧
        (∀ w, g.TrustPath root target w → hops.length ≤ w.length) ∧ g.Marked root hops := by
  have hfound : ∀ hops, g.trustPath root target maxHops = some hops →
      g.TrustPath root target (hops.map TrustHop.key) ∧ hops.length ≤ maxHops.toNat ∧
        (∀ w, g.TrustPath root target w → hops.length ≤ w.length) ∧ g.Marked root hops := by
    intro hops h
    obtain ⟨htrail, hbound, hleast⟩ := trustPath_eq_some_iff.mp h
    refine ⟨trustPath_walk.mpr htrail.walk, hbound, fun w hw => ?_, htrail.marked⟩
    by_cases hlen : w.length ≤ maxHops.toNat
    · have hsize := (Breadth.Labels.path KeyLt).size_mono
        (hleast w (trustPath_walk.mp hw) hlen)
      simpa [Breadth.Labels.path] using hsize
    · omega
  refine ⟨⟨?_, ?_⟩, hfound⟩
  · rintro ⟨hops, h⟩
    obtain ⟨hpath, hbound, -, -⟩ := hfound hops h
    exact ⟨_, hpath, by simpa using hbound⟩
  · rintro ⟨w, hw, hlen⟩
    cases h : g.trustPath root target maxHops with
    | some hops => exact ⟨hops, rfl⟩
    | none =>
        by_cases hne : root = target
        · simp [trustPath, hne] at h
        · exact absurd hlen (Nat.not_le_of_lt (trustPath_none hne h (trustPath_walk.mp hw)))

end TrustGraph

end Bole
