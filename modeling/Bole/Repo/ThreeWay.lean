import Bole.Repo.Merge

/-!
The law of `three_way_diff` (`src/repo/merge.rs`): each path is merged by itself, and its entry is
what one value becomes that two sides may have changed.

* `settle`: a merge of one value;
* `threeWayDiff_merged`, `threeWayDiff_conflicts`: what the loop over all paths makes of it;
* `threeWayDiff_law`: the three cases of a path, and the exchange of the two sides.
-/

namespace Bole

/-! ### One value -/

/-- What becomes of a value that two sides may have changed; `none` where both did, and not to the
same. -/
def settle {α : Type*} [DecidableEq α] (base ours theirs : α) : Option α :=
  if ours = theirs then some ours
  else if ours = base then some theirs
  else if theirs = base then some ours
  else none

section Settle

variable {α : Type*} [DecidableEq α] {base ours theirs : α}

lemma settle_agree (h : ours = theirs) : settle base ours theirs = some ours := by
  simp [settle, h]

lemma settle_theirs (h : ours = base) : settle base ours theirs = some theirs := by
  rw [settle]
  split_ifs with heq
  · rw [heq]
  · rfl

lemma settle_comm : settle base theirs ours = settle base ours theirs := by
  rw [settle, settle]
  by_cases heq : ours = theirs
  · simp [heq]
  · rw [if_neg heq, if_neg (Ne.symm heq)]
    split_ifs with ht ho
    · exact absurd (ho.trans ht.symm) heq
    · rfl
    · rfl
    · rfl

lemma settle_ours (h : theirs = base) : settle base ours theirs = some ours := by
  rw [← settle_comm]
  exact settle_theirs h

lemma settle_eq_none :
    settle base ours theirs = none ↔ ours ≠ theirs ∧ ours ≠ base ∧ theirs ≠ base := by
  rw [settle]
  split_ifs with heq ho ht <;> simp_all

end Settle

/-! ### One path -/

/-- A path whose merge is settled, or is not. -/
def MergeResult.enter (r : MergeResult) (path : String) (ours theirs : Option ObjectId) :
    Option (Option ObjectId) → MergeResult
  | some (some id) => r.take path id
  | some none => r
  | none => r.conflict path ours theirs

/-- **One turn of the loop** merges the entries of the path as one value. -/
lemma mergePath_eq (path : String) (anc our thr : Option ObjectId) (r : MergeResult) :
    mergePath path anc our thr r = r.enter path our thr (settle anc our thr) := by
  delta mergePath
  by_cases heq : our = thr
  · subst heq
    rw [settle_agree rfl, if_pos rfl]
    cases our <;> rfl
  · rw [if_neg heq, settle, if_neg heq]
    -- the cases are those of the match: what is there on each side
    cases our with
    | some o =>
        cases thr with
        | some t =>
            simp only [eq_comm (b := anc)]
            split_ifs <;> rfl
        | none =>
            cases anc with
            | some a =>
                simp only [Option.some.injEq, reduceCtorEq, if_false]
                split_ifs <;> rfl
            | none => rfl
    | none =>
        cases thr with
        | some t =>
            cases anc with
            | some a =>
                simp only [Option.some.injEq, reduceCtorEq, if_false]
                split_ifs <;> rfl
            | none => rfl
        | none => exact absurd rfl heq

/-! ### All paths -/

variable {base ours theirs : BTreeMap String ObjectId}

/-- The entry of a path where its merge is settled. -/
def settledEntry (base ours theirs : BTreeMap String ObjectId) (path : String) :
    Option (Option ObjectId) :=
  settle base[path]? ours[path]? theirs[path]?

/-- The conflict of a path where it is not. -/
def conflictAt (base ours theirs : BTreeMap String ObjectId) (path : String) :
    Option MergeConflict :=
  if settledEntry base ours theirs path = none then some ⟨path, ours[path]?, theirs[path]?⟩
  else none

/-- The paths of the loop, in order. -/
def mergePaths (base ours theirs : BTreeMap String ObjectId) : List String :=
  (Std.ExtTreeSet.ofList (base.keys ++ ours.keys ++ theirs.keys) compare).toList

lemma mem_mergePaths {path : String} :
    path ∈ mergePaths base ours theirs ↔ path ∈ base ∨ path ∈ ours ∨ path ∈ theirs := by
  rw [mergePaths, Std.ExtTreeSet.mem_toList, Std.ExtTreeSet.mem_ofList, List.contains_iff_mem]
  simp only [List.mem_append, Std.ExtTreeMap.mem_keys, or_assoc]

/-- Every path has its turn once. -/
lemma nodup_mergePaths : (mergePaths base ours theirs).Nodup := by
  refine (Std.ExtTreeSet.ordered_toList).imp fun hlt heq => ?_
  subst heq
  simp at hlt

/-- The order of the sides does not matter. -/
lemma mergePaths_comm : mergePaths base theirs ours = mergePaths base ours theirs := by
  rw [mergePaths, mergePaths]
  congr 1
  ext path
  simp only [Std.ExtTreeSet.mem_ofList, List.contains_iff_mem, List.mem_append]
  tauto

/-- A path that no side has is settled. -/
lemma settledEntry_of_notMem {path : String} (h : path ∉ mergePaths base ours theirs) :
    settledEntry base ours theirs path = some none := by
  simp only [mem_mergePaths, not_or] at h
  rw [settledEntry, Std.ExtTreeMap.getElem?_eq_none h.1, Std.ExtTreeMap.getElem?_eq_none h.2.1,
    Std.ExtTreeMap.getElem?_eq_none h.2.2]
  rfl

/-- One turn adds the settled entry of its path. -/
lemma enter_merged {r : MergeResult} {path q : String} {our thr : Option ObjectId}
    {e : Option (Option ObjectId)} :
    (r.enter path our thr e).merged[q]? =
      if path = q then e.join.or r.merged[q]? else r.merged[q]? := by
  cases e with
  | none => simp [MergeResult.enter, MergeResult.conflict]
  | some e =>
      cases e with
      | none => simp [MergeResult.enter]
      | some id =>
          simp only [MergeResult.enter, MergeResult.take, Std.ExtTreeMap.getElem?_insert,
            Std.LawfulEqOrd.compare_eq_iff_eq]
          rfl

/-- A turn that settles nothing reports its path. -/
lemma enter_conflicts {r : MergeResult} {path : String} :
    (r.enter path ours[path]? theirs[path]? (settledEntry base ours theirs path)).conflicts =
      r.conflicts ++ (conflictAt base ours theirs path).toList := by
  rw [conflictAt]
  cases settledEntry base ours theirs path with
  | none => simp [MergeResult.enter, MergeResult.conflict]
  | some e => cases e <;> simp [MergeResult.enter, MergeResult.take]

/-- **The loop**: the entries of its paths, and the conflicts in their order. -/
lemma mergeLoop {paths : List String} {r : MergeResult} :
    (∀ q, (paths.foldl (fun r path => mergePath path base[path]? ours[path]? theirs[path]? r)
        r).merged[q]? =
      if q ∈ paths then (settledEntry base ours theirs q).join.or r.merged[q]? else r.merged[q]?) ∧
    (paths.foldl (fun r path => mergePath path base[path]? ours[path]? theirs[path]? r)
        r).conflicts = r.conflicts ++ paths.filterMap (conflictAt base ours theirs) := by
  induction paths generalizing r with
  | nil => simp
  | cons path rest ih =>
      obtain ⟨hmerged, hconflicts⟩ :=
        ih (r := mergePath path base[path]? ours[path]? theirs[path]? r)
      rw [List.foldl_cons]
      constructor
      · intro q
        rw [hmerged, mergePath_eq, enter_merged, ← settledEntry]
        by_cases hq : path = q
        · subst hq
          simp [← Option.or_assoc]
        · simp [hq, Ne.symm hq]
      · rw [hconflicts, mergePath_eq, ← settledEntry, enter_conflicts, List.append_assoc,
          List.filterMap_cons]
        cases conflictAt base ours theirs path <;> rfl

/-- **The merged map** has the settled entries. -/
lemma threeWayDiff_merged (path : String) :
    (threeWayDiff base ours theirs).merged[path]? = (settledEntry base ours theirs path).join := by
  rw [threeWayDiff, ← mergePaths, mergeLoop.1]
  split_ifs with hpath
  · simp
  · rw [settledEntry_of_notMem hpath]
    simp

/-- **The conflicts** are those of the paths that are not settled. -/
lemma threeWayDiff_conflicts :
    (threeWayDiff base ours theirs).conflicts =
      (mergePaths base ours theirs).filterMap (conflictAt base ours theirs) := by
  rw [threeWayDiff, ← mergePaths, mergeLoop.2]
  rfl

lemma conflictAt_path {path : String} {c : MergeConflict}
    (h : conflictAt base ours theirs path = some c) : c.path = path := by
  rw [conflictAt] at h
  split_ifs at h
  cases h
  rfl

/-- The conflicts that a merge reports for a path. -/
def MergeResult.conflictsAt (r : MergeResult) (path : String) : List MergeConflict :=
  r.conflicts.filter fun c => decide (c.path = path)

/-- Of paths that are all different each has its own conflict only. -/
lemma filter_conflicts {paths : List String} (h : paths.Nodup) (path : String) :
    (paths.filterMap (conflictAt base ours theirs)).filter (fun c => decide (c.path = path)) =
      if path ∈ paths then (conflictAt base ours theirs path).toList else [] := by
  induction paths with
  | nil => rfl
  | cons q rest ih =>
      obtain ⟨hq, hrest⟩ := List.nodup_cons.mp h
      have hhead : (conflictAt base ours theirs q).toList.filter
          (fun c => decide (c.path = path)) =
            if path = q then (conflictAt base ours theirs q).toList else [] := by
        cases hc : conflictAt base ours theirs q with
        | none => simp
        | some c =>
            have hpath := conflictAt_path hc
            by_cases heq : path = q
            · simp [hpath, heq]
            · simp [hpath, heq, Ne.symm heq]
      have hcons : (q :: rest).filterMap (conflictAt base ours theirs) =
          (conflictAt base ours theirs q).toList ++
            rest.filterMap (conflictAt base ours theirs) := by
        rw [List.filterMap_cons]
        cases conflictAt base ours theirs q <;> rfl
      rw [hcons, List.filter_append, hhead, ih hrest]
      by_cases heq : path = q
      · subst heq
        simp [hq]
      · simp [heq]

/-- **A path is reported once** if it is not settled, and else not at all. -/
lemma conflictsAt_threeWayDiff (path : String) :
    (threeWayDiff base ours theirs).conflictsAt path =
      (conflictAt base ours theirs path).toList := by
  rw [MergeResult.conflictsAt, threeWayDiff_conflicts, filter_conflicts nodup_mergePaths]
  split_ifs with hpath
  · rfl
  · simp [conflictAt, settledEntry_of_notMem hpath]

/-! ### The law -/

/-- The conflict seen from the other side. -/
def MergeConflict.swap (c : MergeConflict) : MergeConflict := ⟨c.path, c.theirs, c.ours⟩

/-- The result with its conflicts seen from the other side. -/
def MergeResult.swap (r : MergeResult) : MergeResult :=
  ⟨r.merged, r.conflicts.map MergeConflict.swap⟩

lemma settledEntry_comm (path : String) :
    settledEntry base theirs ours path = settledEntry base ours theirs path := settle_comm

lemma conflictAt_comm (path : String) :
    conflictAt base theirs ours path = (conflictAt base ours theirs path).map .swap := by
  rw [conflictAt, conflictAt, settledEntry_comm]
  split_ifs <;> rfl

/-- **The sides can be exchanged.** -/
lemma threeWayDiff_comm :
    threeWayDiff base theirs ours = (threeWayDiff base ours theirs).swap := by
  have hmerged : (threeWayDiff base theirs ours).merged =
      (threeWayDiff base ours theirs).merged := by
    refine Std.ExtTreeMap.ext_getElem? fun {path} => ?_
    rw [threeWayDiff_merged, threeWayDiff_merged, settledEntry_comm]
  have hconflicts : (threeWayDiff base theirs ours).conflicts =
      (threeWayDiff base ours theirs).conflicts.map .swap := by
    rw [threeWayDiff_conflicts, threeWayDiff_conflicts, mergePaths_comm, List.map_filterMap]
    exact List.filterMap_congr fun path _ => conflictAt_comm path
  rw [MergeResult.swap, ← hmerged, ← hconflicts]

/-- **The three-way merge law.**  At every path: a value that both sides agree on is kept, a
change of one side only is taken, and a path that both changed, and not to the same, is reported
once and not merged.  With the sides exchanged the merged map is the same, and every conflict is
seen from the other side. -/
theorem threeWayDiff_law (base ours theirs : BTreeMap String ObjectId) :
    (∀ path : String,
      (ours[path]? = theirs[path]? →
        (threeWayDiff base ours theirs).merged[path]? = ours[path]? ∧
          (threeWayDiff base ours theirs).conflictsAt path = []) ∧
      (ours[path]? = base[path]? →
        (threeWayDiff base ours theirs).merged[path]? = theirs[path]? ∧
          (threeWayDiff base ours theirs).conflictsAt path = []) ∧
      (theirs[path]? = base[path]? →
        (threeWayDiff base ours theirs).merged[path]? = ours[path]? ∧
          (threeWayDiff base ours theirs).conflictsAt path = []) ∧
      (ours[path]? ≠ theirs[path]? ∧ ours[path]? ≠ base[path]? ∧ theirs[path]? ≠ base[path]? →
        (threeWayDiff base ours theirs).merged[path]? = none ∧
          (threeWayDiff base ours theirs).conflictsAt path =
            [⟨path, ours[path]?, theirs[path]?⟩])) ∧
      threeWayDiff base theirs ours = (threeWayDiff base ours theirs).swap := by
  have hsettled : ∀ (path : String) (e : Option ObjectId),
      settledEntry base ours theirs path = some e →
        (threeWayDiff base ours theirs).merged[path]? = e ∧
          (threeWayDiff base ours theirs).conflictsAt path = [] := by
    intro path e he
    rw [threeWayDiff_merged, conflictsAt_threeWayDiff, conflictAt, he]
    exact ⟨rfl, rfl⟩
  refine ⟨fun path => ⟨fun h => ?_, fun h => ?_, fun h => ?_, fun h => ?_⟩, threeWayDiff_comm⟩
  · exact hsettled path _ (settle_agree h)
  · exact hsettled path _ (settle_theirs h)
  · exact hsettled path _ (settle_ours h)
  · have hnone : settledEntry base ours theirs path = none := settle_eq_none.mpr h
    rw [threeWayDiff_merged, conflictsAt_threeWayDiff, conflictAt, hnone]
    exact ⟨rfl, rfl⟩

end Bole
