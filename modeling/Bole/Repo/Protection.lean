import Bole.Acl.Glob
import Bole.Acl.Labels
import Bole.Repo.Access

/-!
The protection of a directory by a path ACL on all that is below it: `set_path_acl` with `d/**`,
as it is lowered in `src/acl/backend.rs` and read in `src/acl/rules.rs` and `src/repo/mod.rs`.

A glob that is not matched labels nothing, so what the matcher refuses to look at is public.

* `globMatches_subtree`: the pattern matches what is below the directory, up to the limit on the
  lengths;
* `subtree_protected_iff`: **the directory is protected** exactly up to that limit.
-/

namespace Bole

open Glob LabelRuleSet

/-! ### The pattern -/

lemma lang_subtree {d rest : String} (hd : '*' ∉ d.toList) :
    Lang '*' '/' (d ++ "/**").toList (d ++ "/" ++ rest).toList := by
  have hlit : '*' ∉ d.toList ++ ['/'] := by simp [hd]
  have hpattern : (d ++ "/**").toList = (d.toList ++ ['/']) ++ ['*', '*'] := by simp
  have hpath : (d ++ "/" ++ rest).toList = (d.toList ++ ['/']) ++ rest.toList := by simp
  rw [hpattern, hpath]
  refine (lang_letters hlit).mpr ⟨_, rfl, ?_⟩
  exact (lang_rest (by simp)).mpr ⟨rest.toList, [], by simp, Or.inr (Or.inr rfl), .nil⟩

/-- **The pattern of a directory** matches what is below it, within the limit. -/
lemma globMatches_subtree {d rest : String} (hd : '*' ∉ d.toList) :
    globMatches (d ++ "/**") (d ++ "/" ++ rest) = true ↔
      WithinGlobLimit (d ++ "/**") (d ++ "/" ++ rest) := by
  rw [globMatches_iff, and_iff_left (lang_subtree hd)]

/-! ### Protection -/

/-- The rule that a path ACL on a directory is lowered to. -/
def subtreeRule (d : String) : LabelRule := ⟨.path, d ++ "/**", .protected_⟩

/-- The path is protected by the rule of the directory, whatever the other rules are: its label
dominates `protected`, and whoever has no clearance to read it is not shown it. -/
structure SubtreeProtected (d path : String) : Prop where
  label : ∀ (l : LabelLattice) (rs : LabelRuleSet), l.validate = .ok () → rs.Over l →
    subtreeRule d ∈ rs.rules → l.dominates (rs.labelForPath l path) .protected_ = true
  hidden : ∀ (L : Linked) (r : Repository) (l : LabelLattice) (rs : LabelRuleSet)
    (accessor : Accessor) (head : ObjectId) (view : FilteredSnapshot),
    r.acls.getLattice = .ok l → r.acls.getLabelRuleset = .ok rs → l.validate = .ok () →
    rs.Over l → l.bottom ≠ .protected_ → subtreeRule d ∈ rs.rules →
    r.getSnapshotFiltered L head accessor = .ok (some view) →
    accessor.canRead (rs.labelForPath l path) ⟨.path, path⟩ = false → path ∉ view.visiblePaths

variable {l : LabelLattice} {rs : LabelRuleSet} {d path : String}

/-- A rule that matches is dominated by the label. -/
lemma labelForPath_dominates (h : l.validate = .ok ()) (hover : rs.Over l)
    (hrule : subtreeRule d ∈ rs.rules) (hmatch : globMatches (d ++ "/**") path = true) :
    l.dominates (rs.labelForPath l path) .protected_ = true :=
  (labelFor_isLub (LabelLattice.validate_eq_ok h) hover .path path).above _
    ⟨subtreeRule d, hrule, rfl, hmatch, rfl⟩

/-- What dominates another label than the bottom is not the bottom. -/
lemma ne_bottom_of_dominates (h : l.validate = .ok ()) {a b : Label} (hb : b ∈ l.labels)
    (hne : l.bottom ≠ b) (hab : l.dominates a b = true) : a ≠ l.bottom := by
  rintro rfl
  have hv := LabelLattice.validate_eq_ok h
  exact hne (hv.acyclic _ hv.bottom_spec.1 b hb hab (hv.bottom_spec.2 b hb))

/-- What the pattern matches is protected. -/
lemma subtreeProtected_of_matches (hmatch : globMatches (d ++ "/**") path = true) :
    SubtreeProtected d path where
  label := fun l rs hvalid hover hrule => labelForPath_dominates hvalid hover hrule hmatch
  hidden := by
    intro L r l rs accessor head view hlat hrules hvalid hover hbottom hrule hview hread hpath
    obtain ⟨snap, l', rs', -, hlat', hrules', hwalk⟩ := getSnapshotFiltered_eq_some hview
    obtain rfl : l = l' := Except.ok.inj (hlat.symm.trans hlat')
    obtain rfl : rs = rs' := Except.ok.inj (hrules.symm.trans hrules')
    have hdom := labelForPath_dominates hvalid hover hrule hmatch
    rcases visible_iff.mp ((mem_walkTreeFiltered hwalk).mp hpath).1 with hlabel | hcan
    · exact ne_bottom_of_dominates hvalid (hover _ hrule) hbottom hdom hlabel
    · rw [hread] at hcan
      cases hcan

/-- Alone, a rule that does not match leaves the path public. -/
lemma labelForPath_unmatched (hmatch : globMatches (d ++ "/**") path = false) :
    labelForPath ⟨[subtreeRule d]⟩ .twoPoint path = .public_ := by
  have hnone : matching ⟨[subtreeRule d]⟩ .path path = ∅ := by
    ext a
    simp [matching, subtreeRule, hmatch]
  rw [labelForPath, labelFor_of_matching_empty hnone, LabelLattice.twoPoint_bottom]

lemma subtreeRule_over (d : String) : Over ⟨[subtreeRule d]⟩ .twoPoint := by
  intro r hr
  rw [List.mem_singleton.mp hr]
  change Label.protected_ ∈ LabelLattice.twoPoint.labels
  decide +kernel

/-- Where the pattern does not match, the rule protects nothing. -/
lemma not_subtreeProtected (hmatch : globMatches (d ++ "/**") path = false) :
    ¬ SubtreeProtected d path := by
  intro h
  have hdom := h.label .twoPoint ⟨[subtreeRule d]⟩ (by decide +kernel) (subtreeRule_over d)
    (by simp)
  rw [labelForPath_unmatched hmatch] at hdom
  exact absurd hdom (by decide +kernel)

/-- **A directory is protected up to the limit on the lengths.**  For a directory without
wildcards and a path below it, the ACL on `d/**` protects the path exactly when neither the
pattern nor the path is longer than the matcher looks at. -/
theorem subtree_protected_iff {d rest : String} (hd : '*' ∉ d.toList) :
    SubtreeProtected d (d ++ "/" ++ rest) ↔ WithinGlobLimit (d ++ "/**") (d ++ "/" ++ rest) := by
  rw [← globMatches_subtree hd]
  constructor
  · intro h
    by_contra hmatch
    exact not_subtreeProtected (Bool.not_eq_true _ ▸ hmatch) h
  · exact subtreeProtected_of_matches

/-- A file of the usual size of a name is protected. -/
theorem subtree_protected_iff_key : SubtreeProtected "secrets" ("secrets" ++ "/" ++ "key") := by
  refine (subtree_protected_iff (by decide)).mpr ?_
  unfold WithinGlobLimit
  decide +kernel

/-- A name of 8192 letters. -/
def longName : String := String.ofList (List.replicate maxGlobLen 'a')

lemma longName_beyond : ¬ WithinGlobLimit ("secrets" ++ "/**") ("secrets" ++ "/" ++ longName) := by
  rintro ⟨-, hlen⟩
  have hname : (strBytes longName).length = maxGlobLen := by
    rw [strBytes, longName, String.toList_ofList, List.flatMap_replicate, List.length_flatten]
    simp [String.length_utf8EncodeChar]
    decide
  have happend : ∀ a b : String, strBytes (a ++ b) = strBytes a ++ strBytes b := by simp [strBytes]
  have hslash : (strBytes "/").length = 1 := by decide +kernel
  simp only [happend, List.length_append, hname, hslash] at hlen
  omega

/-- **A long name is not protected.**  A file below a protected directory whose path is longer
than the matcher looks at is public. -/
theorem subtree_long_name_public :
    labelForPath ⟨[subtreeRule "secrets"]⟩ .twoPoint ("secrets" ++ "/" ++ longName) = .public_ ∧
      ¬ ∀ d rest : String, '*' ∉ d.toList → SubtreeProtected d (d ++ "/" ++ rest) := by
  have hmatch : globMatches ("secrets" ++ "/**") ("secrets" ++ "/" ++ longName) = false := by
    rw [← Bool.not_eq_true, globMatches_subtree (by decide)]
    exact longName_beyond
  exact ⟨labelForPath_unmatched hmatch, fun h => not_subtreeProtected hmatch (h _ _ (by decide))⟩

end Bole
