import Bole.Basic
import Bole.Lib.Search

/-!
Confidentiality labels and the lattice that orders them (`src/acl/lattice.rs`).

A lattice is a set of labels and a set of covering edges; every operation is computed from the
search along the edges.

* `dominates_iff`: the search decides reachability along the covering edges, for every finite
  set of edges;
* `dominates_searches`: it returns within one turn more than there are edges;
* `dominates_refl`, `dominates_trans`: domination is a preorder.
-/

namespace Bole

/-- `Label`. -/
structure Label where
  name : String
deriving DecidableEq, Inhabited

namespace Label

/-- `Label::public`. -/
def public_ : Label := ⟨"public"⟩

/-- `Label::protected`. -/
def protected_ : Label := ⟨"protected"⟩

/-- `{:?}`. -/
def debug (l : Label) : String := "Label(\"" ++ l.name ++ "\")"

lemma ext' {a b : Label} (h : a.name = b.name) : a = b := by
  cases a
  cases b
  simpa using h

instance : Ord Label := ⟨compareOn Label.name⟩

instance : Std.TransOrd Label :=
  inferInstanceAs (Std.TransCmp (compareOn Label.name))

instance : Std.LawfulEqOrd Label where
  compare_self := Std.ReflOrd.compare_self (α := String)
  eq_of_compare h := ext' (Std.LawfulEqOrd.eq_of_compare (α := String) h)

end Label

/-- A covering edge: `higher` dominates `lower`. -/
structure Cover where
  lower : Label
  higher : Label
deriving DecidableEq

namespace Cover

instance : Ord Cover := ⟨compareLex (compareOn Cover.lower) (compareOn Cover.higher)⟩

instance : Std.TransOrd Cover :=
  inferInstanceAs (Std.TransCmp (compareLex (compareOn Cover.lower) (compareOn Cover.higher)))

instance : Std.LawfulEqOrd Cover where
  compare_self := by
    intro a
    have h1 : compare a.lower a.lower = .eq := Std.ReflOrd.compare_self
    have h2 : compare a.higher a.higher = .eq := Std.ReflOrd.compare_self
    show (compare a.lower a.lower).then (compare a.higher a.higher) = .eq
    rw [h1, h2]
    rfl
  eq_of_compare := by
    rintro ⟨a, b⟩ ⟨c, d⟩ h
    simp only [compare, compareLex, compareOn, Ordering.then_eq_eq] at h
    obtain ⟨h1, h2⟩ := h
    rw [Label.ext' (Std.LawfulEqOrd.eq_of_compare (α := String) h1),
      Label.ext' (Std.LawfulEqOrd.eq_of_compare (α := String) h2)]

end Cover

/-- `LabelLattice`. -/
structure LabelLattice where
  labels : BTreeSet Label
  cover : BTreeSet Cover

namespace LabelLattice

/-- `LabelLattice::new`. -/
def new (labels : List Label) (cover : List Cover) : LabelLattice :=
  ⟨.ofList labels compare, .ofList cover compare⟩

/-- `two_point`. -/
def twoPoint : LabelLattice :=
  new [.public_, .protected_] [⟨.public_, .protected_⟩]

/-- The labels that cover `x`, in the order of the loop over the edges. -/
def higher (l : LabelLattice) (x : Label) : List Label :=
  (l.cover.toList.filter fun c => decide (c.lower = x)).map Cover.higher

/-- `dominates`: the upward search from `b` for `a`. -/
def dominates (l : LabelLattice) (a b : Label) : Bool :=
  if a = b then true
  else
    match Search.search (ε := Empty) (fun x => .ok (l.higher x)) a (l.cover.toList.length + 1)
      [b] ∅ with
    | .ok (some found) => found
    | _ => false

/-- `dominates` when its loop is left after so many turns; `none` if it has not returned by then. -/
def dominatesWithin (l : LabelLattice) (turns : ℕ) (a b : Label) : Option Bool :=
  if a = b then some true
  else
    match Search.search (ε := Empty) (fun x => .ok (l.higher x)) a turns [b] ∅ with
    | .ok answer => answer
    | .error e => e.elim

/-- `strictly_dominates`. -/
def strictlyDominates (l : LabelLattice) (a b : Label) : Bool :=
  decide (a ≠ b) && l.dominates a b

/-- The labels above both. -/
def upperBounds (l : LabelLattice) (a b : Label) : List Label :=
  l.labels.toList.filter fun x => l.dominates x a && l.dominates x b

/-- The labels below both. -/
def lowerBounds (l : LabelLattice) (a b : Label) : List Label :=
  l.labels.toList.filter fun x => l.dominates a x && l.dominates b x

/-- `bottom`. -/
def bottom (l : LabelLattice) : Label :=
  (l.labels.toList.find? fun x => l.labels.toList.all fun y => l.dominates y x).getD .public_

/-- `top`. -/
def top (l : LabelLattice) : Label :=
  (l.labels.toList.find? fun x => l.labels.toList.all fun y => l.dominates x y).getD .public_

/-- `join`. -/
def join (l : LabelLattice) (a b : Label) : Label :=
  ((l.upperBounds a b).find? fun x =>
    (l.upperBounds a b).all fun y => l.dominates y x).getD l.top

/-- `meet`. -/
def meet (l : LabelLattice) (a b : Label) : Label :=
  ((l.lowerBounds a b).find? fun x =>
    (l.lowerBounds a b).all fun y => l.dominates x y).getD l.bottom

/-! ### Validation -/

/-- The pairs of labels in the order of the nested loops. -/
def pairs (l : LabelLattice) : List (Label × Label) :=
  l.labels.toList.flatMap fun a => l.labels.toList.map fun b => (a, b)

/-- How many labels are dominated by every label. -/
def bottoms (l : LabelLattice) : ℕ :=
  l.labels.toList.countP fun x => l.labels.toList.all fun y => l.dominates y x

/-- How many labels dominate every label. -/
def tops (l : LabelLattice) : ℕ :=
  l.labels.toList.countP fun x => l.labels.toList.all fun y => l.dominates x y

/-- The check of one pair: exactly one join, then exactly one meet. -/
def pairError (l : LabelLattice) (p : Label × Label) : Option Error :=
  if (l.upperBounds p.1 p.2).countP
      (fun x => (l.upperBounds p.1 p.2).all fun y => l.dominates y x) ≠ 1 then
    some (.storage ("pair " ++ p.1.debug ++ "," ++ p.2.debug ++ " lacks a unique join"))
  else if (l.lowerBounds p.1 p.2).countP
      (fun x => (l.lowerBounds p.1 p.2).all fun y => l.dominates x y) ≠ 1 then
    some (.storage ("pair " ++ p.1.debug ++ "," ++ p.2.debug ++ " lacks a unique meet"))
  else none

/-- `validate`. -/
def validate (l : LabelLattice) : Result Unit :=
  if l.labels.isEmpty then .error (.storage "lattice has no labels")
  else if l.cover.toList.any fun c =>
      !(l.labels.contains c.lower && l.labels.contains c.higher) then
    .error (.storage "cover edge references an unknown label")
  else
    match l.pairs.find? fun p =>
      decide (p.1 ≠ p.2) && l.dominates p.1 p.2 && l.dominates p.2 p.1 with
    | some (a, b) =>
        .error (.storage ("cycle: " ++ a.debug ++ " and " ++ b.debug ++ " mutually dominate"))
    | none =>
        if l.bottoms ≠ 1 then
          .error (.storage ("expected exactly one bottom, found " ++ toString l.bottoms))
        else if l.tops ≠ 1 then
          .error (.storage ("expected exactly one top, found " ++ toString l.tops))
        else
          match l.pairs.findSome? l.pairError with
          | some e => .error e
          | none => .ok ()

example : twoPoint.validate = .ok () := by decide +kernel

/-! ### What the search decides -/

/-- `hi` covers `lo`. -/
def Covers (l : LabelLattice) (lo hi : Label) : Prop := ⟨lo, hi⟩ ∈ l.cover

variable {l : LabelLattice} {a b c : Label}

lemma mem_higher : b ∈ l.higher a ↔ l.Covers a b := by
  simp only [higher, List.mem_map, List.mem_filter, decide_eq_true_eq,
    Std.ExtTreeSet.mem_toList, Covers]
  constructor
  · rintro ⟨⟨lo, hi⟩, ⟨hm, rfl⟩, rfl⟩
    exact hm
  · intro h
    exact ⟨⟨a, b⟩, ⟨h, rfl⟩, rfl⟩

lemma edge_iff :
    Search.Edge (ε := Empty) (fun x => .ok (l.higher x)) a b ↔ l.Covers a b := by
  rw [← mem_higher]
  constructor
  · rintro ⟨ys, hys, hb⟩
    cases hys
    exact hb
  · exact fun h => ⟨_, rfl, h⟩

/-- The search never runs out of fuel: each turn pops a label that some edge leads to. -/
lemma search_ne_none (a b : Label) :
    Search.search (ε := Empty) (fun x => .ok (l.higher x)) a (l.cover.toList.length + 1)
      [b] ∅ ≠ .ok none := by
  have hU : ∀ x y, Search.Edge (ε := Empty) (fun x => .ok (l.higher x)) x y →
      y ∈ (l.cover.toList.map Cover.higher).toFinset := by
    intro x y h
    have hc : (⟨x, y⟩ : Cover) ∈ l.cover := edge_iff.mp h
    rw [List.mem_toFinset, List.mem_map]
    exact ⟨_, by simpa using hc, rfl⟩
  refine Search.search_ne_none hU (Finset.empty_subset _) ?_
  have hle := (l.cover.toList.map Cover.higher).toFinset_card_le
  rw [List.length_map] at hle
  simp only [List.length_singleton, Finset.card_empty]
  omega

/-- **Domination is reachability** along the covering edges, for every finite set of edges. -/
theorem dominates_iff : l.dominates a b = true ↔ Relation.ReflTransGen l.Covers b a := by
  have hedge : Search.Edge (ε := Empty) (fun x => .ok (l.higher x)) = l.Covers := by
    funext x y
    exact propext edge_iff
  rw [dominates]
  split_ifs with hab
  · subst hab
    simpa using Relation.ReflTransGen.refl
  · have hne := search_ne_none (l := l) a b
    rw [Relation.reflTransGen_iff_eq_or_transGen]
    cases hs : Search.search (ε := Empty) (fun x => .ok (l.higher x)) a
        (l.cover.toList.length + 1) [b] ∅ with
    | error e => exact e.elim
    | ok o =>
        cases o with
        | none => exact absurd hs hne
        | some found =>
            cases found with
            | true =>
                obtain ⟨x, hx, hpath⟩ := Search.search_true hs
                rw [List.mem_singleton.mp hx, hedge] at hpath
                simpa using Or.inr hpath
            | false =>
                have hno := Search.search_false (Search.closed_empty [b]) hs b (by simp)
                rw [hedge] at hno
                simp [hab, hno]

/-- Turns that are enough for the search are enough for every longer run of it. -/
lemma dominatesWithin_add (l : LabelLattice) (a b : Label) (more : ℕ) :
    l.dominatesWithin (l.cover.toList.length + 1 + more) a b = some (l.dominates a b) := by
  rw [dominatesWithin, dominates]
  split_ifs with hab
  · rfl
  · have hne := search_ne_none (l := l) a b
    rw [Search.search_fuel_mono (Nat.le_add_right _ more) hne]
    cases hs : Search.search (ε := Empty) (fun x => .ok (l.higher x)) a
        (l.cover.toList.length + 1) [b] ∅ with
    | error e => exact e.elim
    | ok answer =>
        cases answer with
        | none => exact absurd hs hne
        | some found => rfl

/-- **The search ends, and decides reachability.**  Whatever the edges are, the loop returns within
one turn more than there are edges, and returns `true` exactly when `a` is reached from `b`. -/
theorem dominates_searches (l : LabelLattice) (a b : Label) :
    (∀ more, l.dominatesWithin (l.cover.toList.length + 1 + more) a b = some (l.dominates a b)) ∧
      (l.dominates a b = true ↔ Relation.ReflTransGen l.Covers b a) :=
  ⟨dominatesWithin_add l a b, dominates_iff⟩

/-- A cycle of labels that are not declared. -/
example : (new [] [⟨⟨"a"⟩, ⟨"b"⟩⟩, ⟨⟨"b"⟩, ⟨"a"⟩⟩]).dominatesWithin 3 ⟨"c"⟩ ⟨"a"⟩ = some false := by
  decide +kernel

@[simp] lemma dominates_refl (l : LabelLattice) (a : Label) : l.dominates a a = true :=
  dominates_iff.mpr .refl

lemma dominates_trans (hab : l.dominates a b = true) (hbc : l.dominates b c = true) :
    l.dominates a c = true :=
  dominates_iff.mpr ((dominates_iff.mp hbc).trans (dominates_iff.mp hab))

end LabelLattice

end Bole
