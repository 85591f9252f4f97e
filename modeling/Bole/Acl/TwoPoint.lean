import Bole.Acl.Accessor

/-!
The labels of the shipped backends (`src/acl/backend.rs`): over the two-point lattice, with every
rule that is derived from an ACL protecting what it matches.

* `labelFor_derived`: a resource is protected when a rule of its kind matches it, and public
  otherwise;
* `privileged_canRead`: whoever is privileged reads both.
-/

namespace Bole

namespace LabelLattice

/-- Its operations on its two labels. -/
lemma twoPoint_evaluated : twoPoint.bottom = .public_ ∧ twoPoint.top = .protected_ ∧
    (∀ a ∈ [Label.public_, .protected_], twoPoint.join a .protected_ = .protected_ ∧
      twoPoint.dominates a .public_ = true) ∧
    ∀ c ∈ twoPoint.cover.toList, c = ⟨.public_, .protected_⟩ := by
  decide +kernel

lemma twoPoint_bottom : twoPoint.bottom = .public_ := twoPoint_evaluated.1

lemma twoPoint_top : twoPoint.top = .protected_ := twoPoint_evaluated.2.1

lemma twoPoint_join_protected {a : Label} (h : a = .public_ ∨ a = .protected_) :
    twoPoint.join a .protected_ = .protected_ :=
  (twoPoint_evaluated.2.2.1 a (by simpa using h)).1

/-- Everything dominates the bottom of the two-point lattice that is in it. -/
lemma twoPoint_dominates_public {a : Label} (h : a = .public_ ∨ a = .protected_) :
    twoPoint.dominates a .public_ = true :=
  (twoPoint_evaluated.2.2.1 a (by simpa using h)).2

/-- The top of the two-point lattice dominates its two labels and no other. -/
lemma twoPoint_dominates_protected {a : Label} :
    twoPoint.dominates .protected_ a = true ↔ a = .public_ ∨ a = .protected_ := by
  rw [dominates_iff]
  constructor
  · intro h
    rcases h.cases_head with rfl | ⟨b, hab, -⟩
    · exact Or.inr rfl
    · left
      have hcover : (⟨a, b⟩ : Cover) = ⟨.public_, .protected_⟩ := by
        have hmem : (⟨a, b⟩ : Cover) ∈ twoPoint.cover := hab
        exact twoPoint_evaluated.2.2.2 _ (Std.ExtTreeSet.mem_toList.mpr hmem)
      exact congrArg Cover.lower hcover
  · rintro (rfl | rfl)
    · exact dominates_iff.mp (twoPoint_dominates_public (.inr rfl))
    · exact .refl

end LabelLattice

namespace LabelRuleSet

variable {rs : LabelRuleSet} {kind : ResourceKind} {name : String}

/-- Where every rule protects, a resource that some rule of its kind matches is protected. -/
lemma labelFor_of_protecting (h : ∀ r ∈ rs.rules, r.label = .protected_) :
    rs.labelFor .twoPoint kind name =
      if rs.rules.any fun r => decide (r.kind = kind) && globMatches r.glob name then .protected_
      else .public_ := by
  obtain ⟨rules⟩ := rs
  have key : ∀ acc : Label, acc = .public_ ∨ acc = .protected_ →
      rules.foldl (fun acc r => if r.kind = kind ∧ globMatches r.glob name
        then LabelLattice.twoPoint.join acc r.label else acc) acc =
      if rules.any fun r => decide (r.kind = kind) && globMatches r.glob name then .protected_
      else acc := by
    induction rules with
    | nil => exact fun acc _ => rfl
    | cons r rest ih =>
        intro acc hacc
        have hrest := ih fun r' hr' => h r' (List.mem_cons_of_mem _ hr')
        rw [List.foldl_cons, List.any_cons]
        by_cases hm : r.kind = kind ∧ globMatches r.glob name = true
        · rw [if_pos hm, h r List.mem_cons_self, LabelLattice.twoPoint_join_protected hacc,
            hrest _ (Or.inr rfl)]
          simp [hm.1, hm.2]
        · rw [if_neg hm, hrest _ hacc]
          have hno : (decide (r.kind = kind) && globMatches r.glob name) = false := by
            simpa using hm
          rw [hno, Bool.false_or]
  rw [labelFor, LabelLattice.twoPoint_bottom]
  exact key _ (Or.inl rfl)

lemma label_derivedRules {pathAcls timelineAcls secretAcls : List String} {r : LabelRule}
    (h : r ∈ (derivedRules pathAcls timelineAcls secretAcls).rules) : r.label = .protected_ := by
  simp only [derivedRules, List.mem_append, List.mem_map] at h
  obtain (⟨g, -, rfl⟩ | ⟨g, -, rfl⟩) | ⟨g, -, rfl⟩ := h
  · rfl
  · rfl
  · rfl

/-- **The label of a resource under the rules derived from ACLs.** -/
lemma labelFor_derived (pathAcls timelineAcls secretAcls : List String) (kind : ResourceKind)
    (name : String) :
    (derivedRules pathAcls timelineAcls secretAcls).labelFor .twoPoint kind name =
      if (derivedRules pathAcls timelineAcls secretAcls).rules.any fun r =>
        decide (r.kind = kind) && globMatches r.glob name then .protected_ else .public_ :=
  labelFor_of_protecting fun _ => label_derivedRules

/-- There are no other labels. -/
lemma labelFor_derived_cases (pathAcls timelineAcls secretAcls : List String)
    (kind : ResourceKind) (name : String) :
    (derivedRules pathAcls timelineAcls secretAcls).labelFor .twoPoint kind name = .public_ ∨
      (derivedRules pathAcls timelineAcls secretAcls).labelFor .twoPoint kind name =
        .protected_ := by
  rw [labelFor_derived]
  split_ifs
  · exact Or.inr rfl
  · exact Or.inl rfl

/-- What is protected among the paths is matched by a path ACL. -/
lemma exists_pathAcl {pathAcls timelineAcls secretAcls : List String} {path : String}
    (h : (derivedRules pathAcls timelineAcls secretAcls).labelForPath .twoPoint path =
      .protected_) : ∃ glob ∈ pathAcls, globMatches glob path = true := by
  rw [labelForPath, labelFor_derived] at h
  split_ifs at h with hany
  · obtain ⟨r, hr, hmatch⟩ := List.any_eq_true.mp hany
    rw [Bool.and_eq_true, decide_eq_true_iff] at hmatch
    simp only [derivedRules, List.mem_append, List.mem_map] at hr
    obtain (⟨g, hg, rfl⟩ | ⟨g, -, rfl⟩) | ⟨g, -, rfl⟩ := hr
    · exact ⟨g, hg, hmatch.2⟩
    · exact absurd hmatch.1 (by simp)
    · exact absurd hmatch.1 (by simp)
  · exact absurd h (by decide)

end LabelRuleSet

/-- The privileged accessor reads what the top of the two-point lattice dominates. -/
lemma privileged_canRead {label : Label} {r : ResourceRef} :
    Accessor.privileged.canRead label r = true ↔ label = .public_ ∨ label = .protected_ := by
  rw [← LabelLattice.twoPoint_dominates_protected]
  have hread : Capability.read.contains .read = true := by decide
  simp [Accessor.privileged, Accessor.canRead, Accessor.grants, scopeApplies, hread,
    LabelLattice.twoPoint_top]

end Bole
