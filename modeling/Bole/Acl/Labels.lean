import Bole.Acl.Bounded
import Bole.Acl.Rules

/-!
The label of a resource over a validated lattice (`src/acl/rules.rs`).

* `IsLub.insert`: a join adds one label to a least upper bound;
* `labelFor_isLub`: the fold over the rules ends at the least upper bound of the labels of the
  matching ones;
* `labels_are_lubs`: of the three label functions; so the order and the repetition of rules do
  not matter, and more rules never take protection away.
-/

namespace Bole

namespace LabelLattice

/-- `a` is the least label above those of `S`. -/
structure IsLub (l : LabelLattice) (S : Set Label) (a : Label) : Prop where
  mem : a ∈ l.labels
  above : ∀ b ∈ S, l.dominates a b = true
  least : ∀ c ∈ l.labels, (∀ b ∈ S, l.dominates c b = true) → l.dominates c a = true

namespace IsLub

variable {l : LabelLattice} {S T : Set Label} {a b : Label}

/-- The bottom is the bound of no labels. -/
lemma empty (h : l.Checked) : l.IsLub ∅ l.bottom where
  mem := h.bottom_spec.1
  above := by simp
  least := fun c hc _ => h.bottom_spec.2 c hc

/-- **A join adds one label.** -/
lemma insert (h : l.Checked) (ha : l.IsLub S a) (hb : b ∈ l.labels) :
    l.IsLub (insert b S) (l.join a b) := by
  obtain ⟨hbound, hleast⟩ := h.join_spec ha.mem hb
  obtain ⟨hmem, hleft, hright⟩ := mem_upperBounds.mp hbound
  refine ⟨hmem, fun c hc => ?_, fun c hc hall => ?_⟩
  · rcases hc with rfl | hc
    · exact hright
    · exact dominates_trans hleft (ha.above c hc)
  · have hca := ha.least c hc fun x hx => hall x (Set.mem_insert_of_mem b hx)
    exact hleast c (mem_upperBounds.mpr ⟨hc, hca, hall b (Set.mem_insert b S)⟩)

/-- More labels have a higher bound. -/
lemma mono (ha : l.IsLub S a) (hb : l.IsLub T b) (h : S ⊆ T) : l.dominates b a = true :=
  ha.least b hb.mem fun c hc => hb.above c (h hc)

lemma unique (h : l.Checked) (ha : l.IsLub S a) (hb : l.IsLub S b) : a = b :=
  h.acyclic a ha.mem b hb.mem (hb.mono ha subset_rfl) (ha.mono hb subset_rfl)

end IsLub

end LabelLattice

namespace LabelRuleSet

open LabelLattice

/-- The labels of the rules of a kind that match a name. -/
def matching (rs : LabelRuleSet) (kind : ResourceKind) (name : String) : Set Label :=
  {a | ∃ r ∈ rs.rules, r.kind = kind ∧ globMatches r.glob name = true ∧ r.label = a}

/-- The labels of the rules belong to the lattice. -/
def Over (rs : LabelRuleSet) (l : LabelLattice) : Prop := ∀ r ∈ rs.rules, r.label ∈ l.labels

variable {l : LabelLattice} {rs rs' : LabelRuleSet} {kind : ResourceKind} {name : String}

lemma matching_mono (h : rs.rules ⊆ rs'.rules) : rs.matching kind name ⊆ rs'.matching kind name :=
  fun _ ⟨r, hr, hmatch⟩ => ⟨r, h hr, hmatch⟩

/-- The first rule matches and adds its label, or is of no account. -/
lemma matching_cons (r : LabelRule) (rules : List LabelRule) :
    matching ⟨r :: rules⟩ kind name =
      if r.kind = kind ∧ globMatches r.glob name = true then
        insert r.label (matching ⟨rules⟩ kind name)
      else matching ⟨rules⟩ kind name := by
  have hcons : ∀ a, a ∈ matching ⟨r :: rules⟩ kind name ↔
      (r.kind = kind ∧ globMatches r.glob name = true ∧ r.label = a) ∨
        a ∈ matching ⟨rules⟩ kind name := fun a => List.exists_mem_cons_iff _ _ _
  ext a
  rw [hcons]
  split_ifs with hmatch
  · rw [Set.mem_insert_iff, eq_comm (a := a)]
    exact or_congr_left ⟨fun h => h.2.2, fun h => ⟨hmatch.1, hmatch.2, h⟩⟩
  · exact or_iff_right fun h => hmatch ⟨h.1, h.2.1⟩

/-- The loop, from the bound of the labels seen so far. -/
lemma foldl_isLub (h : l.Checked) {rules : List LabelRule} (hover : Over ⟨rules⟩ l) {S : Set Label}
    {acc : Label} (hacc : l.IsLub S acc) :
    l.IsLub (S ∪ matching ⟨rules⟩ kind name)
      (rules.foldl (fun acc r => if r.kind = kind ∧ globMatches r.glob name
        then l.join acc r.label else acc) acc) := by
  induction rules generalizing S acc with
  | nil =>
      have hnone : matching ⟨[]⟩ kind name = ∅ := by simp [matching]
      rw [hnone, Set.union_empty]
      exact hacc
  | cons r rest ih =>
      have hrest : Over ⟨rest⟩ l := fun r' hr' => hover r' (List.mem_cons_of_mem _ hr')
      rw [List.foldl_cons, matching_cons]
      split_ifs with hmatch
      · rw [Set.union_insert, ← Set.insert_union]
        exact ih hrest (hacc.insert h (hover r List.mem_cons_self))
      · exact ih hrest hacc

/-- **The label of a resource is the least upper bound of the labels of its matching rules.** -/
lemma labelFor_isLub (h : l.Checked) (hover : rs.Over l) (kind : ResourceKind) (name : String) :
    l.IsLub (rs.matching kind name) (rs.labelFor l kind name) := by
  rw [← Set.empty_union (rs.matching kind name)]
  exact foldl_isLub h hover (IsLub.empty h)

/-- Where no rule matches, the label is the bottom of the lattice, whatever that is. -/
lemma labelFor_of_matching_empty (h : rs.matching kind name = ∅) :
    rs.labelFor l kind name = l.bottom := by
  have key : ∀ rules : List LabelRule, matching ⟨rules⟩ kind name = ∅ → ∀ acc : Label,
      rules.foldl (fun acc r => if r.kind = kind ∧ globMatches r.glob name
        then l.join acc r.label else acc) acc = acc := by
    intro rules
    induction rules with
    | nil => exact fun _ _ => rfl
    | cons r rest ih =>
        intro hnone acc
        rw [matching_cons] at hnone
        split_ifs at hnone with hmatch
        · exact absurd hnone (Set.insert_nonempty _ _).ne_empty
        · rw [List.foldl_cons, if_neg hmatch, ih hnone]
  exact key rs.rules h _

/-- What is asked of a function that labels the resources of a kind. -/
structure Labels (l : LabelLattice) (kind : ResourceKind) (label : LabelRuleSet → String → Label) :
    Prop where
  lub : ∀ rs name, rs.Over l → l.IsLub (rs.matching kind name) (label rs name)
  bottom : ∀ rs name, rs.Over l → rs.matching kind name = ∅ → label rs name = l.bottom
  sameRules : ∀ rs rs' name, rs.Over l → (∀ r, r ∈ rs.rules ↔ r ∈ rs'.rules) →
    label rs name = label rs' name
  moreRules : ∀ rs rs' name, rs'.Over l → rs.rules ⊆ rs'.rules →
    l.dominates (label rs' name) (label rs name) = true

lemma labels_labelFor (h : l.Checked) (kind : ResourceKind) :
    Labels l kind fun rs => rs.labelFor l kind where
  lub := fun rs name hover => labelFor_isLub h hover kind name
  bottom := fun rs name _ hnone => labelFor_of_matching_empty hnone
  sameRules := fun rs rs' name hover hsame => by
    have hover' : rs'.Over l := fun r hr => hover r ((hsame r).mpr hr)
    have hmatching : rs'.matching kind name = rs.matching kind name :=
      (matching_mono fun r hr => (hsame r).mpr hr).antisymm
        (matching_mono fun r hr => (hsame r).mp hr)
    have hlub := labelFor_isLub h hover' kind name
    rw [hmatching] at hlub
    exact (labelFor_isLub h hover kind name).unique h hlub
  moreRules := fun rs rs' name hover hsub =>
    (labelFor_isLub h (fun r hr => hover r (hsub hr)) kind name).mono
      (labelFor_isLub h hover kind name) (matching_mono hsub)

/-- **The three label functions over a validated lattice** give least upper bounds. -/
theorem labels_are_lubs (h : l.validate = .ok ()) :
    Labels l .path (fun rs => rs.labelForPath l) ∧
      Labels l .timeline (fun rs => rs.labelForTimeline l) ∧
      Labels l .secret (fun rs => rs.labelForSecret l) :=
  ⟨labels_labelFor (validate_eq_ok h) .path, labels_labelFor (validate_eq_ok h) .timeline,
    labels_labelFor (validate_eq_ok h) .secret⟩

/-- Two rules of the diamond, for the files of a directory and for one of them. -/
def diamondRules : List LabelRule := [⟨.path, "src/**", ⟨"a"⟩⟩, ⟨.path, "src/key", ⟨"b"⟩⟩]

/-- What both match is at the top, in whatever order they are listed. -/
theorem labels_are_lubs_diamond :
    labelForPath ⟨diamondRules⟩ diamond "src/key" = ⟨"top"⟩ ∧
      labelForPath ⟨diamondRules⟩ diamond "src/key" =
        labelForPath ⟨diamondRules.reverse ++ diamondRules⟩ diamond "src/key" := by
  refine ⟨by decide +kernel, (labels_are_lubs diamond_validate).1.sameRules _ _ _ ?_ ?_⟩
  · unfold Over
    decide +kernel
  · simp

end LabelRuleSet

end Bole
