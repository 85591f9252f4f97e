import Bole.Repo.Merge

/-!
The answer of `find_common_ancestor` (`src/repo/merge.rs`): that there is one, what it says, and
when it is a lowest common ancestor, as its doc has it.

* `findCommonAncestor_spec`: the search ends, its answer is common and it misses none;
* `lowestFound_iff`: the answer is lowest exactly where no common ancestor is met before all
  those that descend from it.
-/

namespace Bole

open Meet

variable {L : Linked} {s : ObjectStore} {a b : ObjectId}

/-- **Sound and complete.**  The two searches end; a snapshot they meet at is an ancestor of both,
and where they do not meet there is no common ancestor.  They fail only at an object of the two
histories that cannot be read. -/
theorem findCommonAncestor_spec (L : Linked) (s : ObjectStore) (a b : ObjectId) :
    meet (snapshotParents L s) (ancestorFuel L s a b) [a] ((∅ : BTreeSet ObjectId).insert a) [b]
        ((∅ : BTreeSet ObjectId).insert b) ≠ .ok none ∧
      match findCommonAncestor L s a b with
      | .ok (some c) => Common (Parent L s) a b c
      | .ok none => ∀ c, ¬ Common (Parent L s) a b c
      | .error e => ∃ x, (Descends L s a x ∨ Descends L s b x) ∧ s.get L x = .error e := by
  refine ⟨findCommonAncestor_ne_none a b _ _ _ _, ?_⟩
  split
  · next c h => exact findCommonAncestor_some h
  · next h =>
      rintro c hc
      obtain ⟨t, hA, hB⟩ := exists_mem_metBy.mpr hc
      exact Set.disjoint_left.mp (findCommonAncestor_none h _ _) hA hB
  · next e h =>
      obtain ⟨x, hx, he⟩ := findCommonAncestor_error h
      refine ⟨x, hx, ?_⟩
      rw [snapshotParents] at he
      split at he
      · next e' hg =>
          cases he
          exact hg
      · cases he
      · cases he

/-! ### The lowest common ancestor -/

/-- What the doc of `find_common_ancestor` says of two snapshots: where they have a common
ancestor it returns a lowest one. -/
def LowestFound (L : Linked) (s : ObjectStore) (a b : ObjectId) : Prop :=
  (∃ c, Common (Parent L s) a b c) →
    ∃ c, findCommonAncestor L s a b = .ok (some c) ∧ Lowest (Parent L s) a b c

/-- No snapshot descends from another one that descends from it. -/
def Acyclic (L : Linked) (s : ObjectStore) : Prop :=
  ∀ x y, Descends L s x y → Descends L s y x → x = y

/-- Snapshots numbered so that parents come first form no cycle. -/
lemma acyclic_of_rank (rank : ObjectId → ℕ) (h : ∀ x y, Parent L s x y → rank y < rank x) :
    Acyclic L s := by
  have hle : ∀ x y, Descends L s x y → rank y ≤ rank x := by
    intro x y hxy
    induction hxy with
    | refl => exact le_rfl
    | tail _ hyz ih => exact (h _ _ hyz).le.trans ih
  intro x y hxy hyx
  rcases hxy.cases_head with rfl | ⟨z, hxz, hzy⟩
  · rfl
  · have hdown := h x z hxz
    have hback := hle z x (hzy.trans hyx)
    omega

/-- **The answer is a lowest common ancestor** exactly where every common ancestor that another
one descends from is met after some snapshot. -/
theorem lowestFound_iff (hacyclic : Acyclic L s)
    (hread : ∀ x, Descends L s a x ∨ Descends L s b x → ∃ o, s.get L x = .ok o) :
    LowestFound L s a b ↔ LowestFirst (Parent L s) a b := by
  by_cases hab : a = b
  · -- a snapshot is its own lowest ancestor, and it is met before any layer
    subst hab
    have hself : findCommonAncestor L s a a = .ok (some a) := by simp [findCommonAncestor]
    refine iff_of_true (fun _ => ⟨a, hself, ⟨.refl, .refl⟩, fun d hd hda => ?_⟩) ?_
    · exact hacyclic d a hda hd.1
    · intro x y hx hy hyx hne
      refine ⟨a, 0, ⟨rfl, rfl⟩, .inl ?_⟩
      rintro ⟨rfl, -⟩
      exact hne (hacyclic y x hyx hy.1)
  · obtain ⟨c, hc⟩ := findCommonAncestor_returns fun x hx =>
      snapshotParents_of_get (hread x hx)
    cases c with
    | none =>
        have hno := (findCommonAncestor_spec L s a b).2
        rw [hc] at hno
        exact iff_of_true (fun h => Exists.elim h fun c hcommon => absurd hcommon (hno c))
          fun x _ hx => absurd hx (hno x)
    | some c =>
        have hfirst := findCommonAncestor_first hab hc
        rw [← hfirst.lowest_iff]
        constructor
        · intro h
          obtain ⟨c', hc', hlow⟩ := h ⟨c, findCommonAncestor_some hc⟩
          obtain rfl : c = c' := by simpa [hc] using hc'
          exact hlow
        · exact fun hlow _ => ⟨c, hc, hlow⟩

/-! ### The branch off an old base -/

/-- The place of a snapshot among those of the branch. -/
def branchRank (id : ObjectId) : ℕ := branchObjects.findIdx fun o => decide (o.refId = id)

lemma branch_acyclic : Acyclic branchLinked branchStore := by
  have hall : branchStore.list.all (fun x =>
      ((snapshotParents branchLinked branchStore x).toOption.getD []).all fun p =>
        decide (branchRank p < branchRank x)) = true := by decide +kernel
  refine acyclic_of_rank branchRank fun x y hxy => ?_
  obtain ⟨ps, hps, hy⟩ := edge_snapshotParents.mpr hxy
  obtain ⟨sn, hsn, -⟩ := hxy
  have hx := List.all_eq_true.mp hall x (ObjectStore.listed_of_object hsn)
  rw [hps] at hx
  exact of_decide_eq_true (List.all_eq_true.mp hx y hy)

/-- Where the first snapshot is its own common ancestor with the second and is found, the answer
is lowest. -/
lemma lowestFound_of_ancestor (hacyclic : Acyclic L s)
    (h : findCommonAncestor L s a b = .ok (some a)) : LowestFound L s a b := fun _ =>
  ⟨a, h, findCommonAncestor_some h, fun d hd hda => hacyclic d a hda hd.1⟩

/-- Before the merge the answer is lowest. -/
theorem lowestFound_iff_branch :
    (LowestFound branchLinked branchStore (branchId 2) (branchId 4) ↔
        LowestFirst (Parent branchLinked branchStore) (branchId 2) (branchId 4)) ∧
      LowestFirst (Parent branchLinked branchStore) (branchId 2) (branchId 4) := by
  obtain ⟨-, hread, ⟨hfound, -⟩, -⟩ := branch_evaluated
  have hhistory : ∀ i ∈ [2, 4], HistoryPresent branchLinked branchStore (branchId i) :=
    fun i hi => history_of_listed branch_history (hread i hi)
  have hiff := lowestFound_iff (a := branchId 2) (b := branchId 4) branch_acyclic fun x hx => by
    obtain ⟨o, ho⟩ := Option.isSome_iff_exists.mp
      (hx.elim (hhistory 2 (by simp) x) (hhistory 4 (by simp) x))
    exact ⟨some o, ObjectStore.object_eq_some.mp ho⟩
  exact ⟨hiff, hiff.mp (lowestFound_of_ancestor branch_acyclic hfound)⟩

/-- **Not the lowest.**  The merge descends from the snapshot before the last two, which is so a
common ancestor of the two; the search returns its parent. -/
theorem lowestFound_fails : Acyclic branchLinked branchStore ∧
    ¬ LowestFound branchLinked branchStore (branchId 2) (branchId 6) := by
  obtain ⟨-, -, -, ⟨hmerge, hbase, hne⟩, hold⟩ := branch_evaluated
  have hcommon : Common (Parent branchLinked branchStore) (branchId 2) (branchId 6) (branchId 2) :=
    ⟨.refl, (isAncestor_ok hmerge).mp rfl⟩
  refine ⟨branch_acyclic, fun h => ?_⟩
  obtain ⟨c, hc, hlow⟩ := h ⟨_, hcommon⟩
  obtain rfl : branchId 1 = c := by simpa only [hbase, Except.ok.injEq, Option.some.injEq] using hc
  exact hne.symm (hlow.2 _ hcommon ((isAncestor_ok hold).mp rfl))

end Bole
