import Bole.Lib.Posix
import Bole.Refs.Refine

/-!
The paths of the ref files (`ref_path`, `txn_dir` and the temporary file of `set` in
`src/refs/disk.rs`), for the names that `new` and `deserialize` of `src/refs/name.rs` let through.

* `exists_fileNames`: the segments of a name are names of a file system, and none is hidden;
* `located_refPath`, `located_tempPath`, `located_txnDir`: where the paths lead;
* `refPath_confined`: **the files of refs lie below the directory of the refs, each in a place of
  its own**, apart from temporary files and journals.
-/

namespace Bole

open Posix

/-! ### Names from the wire -/

/-- `deserialize`, after the string is decoded, for a deserializer with its own errors. -/
def RefName.deserialize {ε : Type} (custom : Error → ε) (s : String) : Except ε RefName :=
  match RefName.new s with
  | .ok n => .ok n
  | .error e => .error (custom e)

/-- The string gets to be the name. -/
def RefName.Accepted (s : String) (n : RefName) : Prop :=
  RefName.new s = .ok n ∨ ∃ (ε : Type) (custom : Error → ε), RefName.deserialize custom s = .ok n

lemma RefName.Accepted.asStr {s : String} {n : RefName} (h : RefName.Accepted s n) :
    n.asStr = s := by
  rcases h with h | ⟨ε, custom, h⟩
  · exact asStr_of_new h
  · rw [deserialize] at h
    split at h
    · next n' h' =>
        cases h
        exact asStr_of_new h'
    · cases h

/-! ### Paths -/

/-- The directory of the refs. -/
def diskRefsDir (root : RawPath) : RawPath := join root "refs".toList

/-- `txn_dir`. -/
def txnDir (root : RawPath) : RawPath := join (diskRefsDir root) ".txn".toList

/-- `ref_path`. -/
def refPath (root : RawPath) (n : RefName) : RawPath := n.segments.foldl join (diskRefsDir root)

/-- The temporary file of `set`; a path of a ref has a last segment. -/
def tempPath (root : RawPath) (n : RefName) : RawPath :=
  withFileName (refPath root n) ('.' :: (n.segments.getLastD [] ++ ".tmp".toList))

/-! ### Where they lead -/

section Located

variable {cwd dir : List FileName} {root : RawPath}

lemma RefName.slash_notMem {n : RefName} {segment : List Char} (h : segment ∈ n.segments) :
    '/' ∉ segment := Words.notMem_of_mem_splitOn h

/-- The segments of a name are names that a directory can have. -/
lemma RefName.exists_fileNames (n : RefName) :
    ∃ names : List FileName, names.map FileName.chars = n.segments := by
  have hnames : ∀ segments : List (List Char), (∀ s ∈ segments, s ∈ n.segments) →
      ∃ names : List FileName, names.map FileName.chars = segments := by
    intro segments hall
    induction segments with
    | nil => exact ⟨[], rfl⟩
    | cons s rest ih =>
        obtain ⟨hs, hrest⟩ := List.forall_mem_cons.mp hall
        obtain ⟨names, rfl⟩ := ih hrest
        obtain ⟨hne, hdot, hnull⟩ := segment_rules hs
        refine ⟨⟨s, hne, ?_, ?_, slash_notMem hs, hnull⟩ :: names, rfl⟩
        · rintro rfl
          exact hdot rfl
        · rintro rfl
          exact hdot rfl
  exact hnames n.segments fun _ h => h

lemma foldl_join (base : RawPath) (names : List FileName) :
    (names.map FileName.chars).foldl join base = base ++ names.map FileName.chars := by
  induction names generalizing base with
  | nil => simp
  | cons n rest ih =>
      rw [List.map_cons, List.foldl_cons, join_name, ih, List.append_assoc]
      rfl

/-- A ref file lies below the directory of the refs, under its segments. -/
lemma located_refPath (h : located cwd (diskRefsDir root) = .ok dir) {n : RefName}
    {names : List FileName} (hnames : names.map FileName.chars = n.segments) :
    located cwd (refPath root n) = .ok (dir ++ names) := by
  rw [refPath, ← hnames, foldl_join]
  exact located_append h names

/-- Its temporary file lies beside it, under a hidden name. -/
lemma located_tempPath (h : located cwd (diskRefsDir root) = .ok dir) {n : RefName}
    {init : List FileName} {last : FileName}
    (hnames : (init ++ [last]).map FileName.chars = n.segments) :
    ∃ temp : FileName, hidden temp.chars = true ∧
      located cwd (tempPath root n) = .ok (dir ++ (init ++ [temp])) := by
  have htemp : '.' :: (last.chars ++ ".tmp".toList) ≠ ['.', '.'] := by
    intro heq
    have := congrArg List.length heq
    simp at this
  obtain ⟨-, -, -, hslash, hnull⟩ := last.valid
  let temp : FileName := ⟨'.' :: (last.chars ++ ".tmp".toList), by simp, by simp, htemp,
    by simp [hslash], by simp [hnull]⟩
  refine ⟨temp, rfl, ?_⟩
  have hlast : n.segments.getLastD [] = last.chars := by
    rw [← hnames]
    simp
  rw [tempPath, hlast, refPath, ← hnames, foldl_join]
  exact located_withFileName h init last temp

lemma located_txnDir (h : located cwd (diskRefsDir root) = .ok dir) :
    ∃ txn : FileName, hidden txn.chars = true ∧ located cwd (txnDir root) = .ok (dir ++ [txn]) := by
  let txn : FileName := ⟨".txn".toList, by decide⟩
  refine ⟨txn, rfl, ?_⟩
  have hjoin : txnDir root = diskRefsDir root ++ [txn].map FileName.chars := join_name _ txn
  rw [hjoin]
  exact located_append h [txn]

end Located

/-- **Ref files are confined and do not collide.**  Wherever the directory of the refs is: for every
string that is accepted as a name, `ref_path` leads strictly below it; different strings lead to
different places; and no name leads to the temporary file of a name, nor to the directory of the
journals or below it. -/
theorem refPath_confined {cwd dir : List FileName} {root : RawPath}
    (hdir : located cwd (diskRefsDir root) = .ok dir) :
    (∀ s n, RefName.Accepted s n →
      ∃ names, names ≠ [] ∧ located cwd (refPath root n) = .ok (dir ++ names)) ∧
    (∀ s n s' n', RefName.Accepted s n → RefName.Accepted s' n' →
      located cwd (refPath root n) = located cwd (refPath root n') → s = s') ∧
    (∀ s n s' n', RefName.Accepted s n → RefName.Accepted s' n' →
      located cwd (refPath root n) ≠ located cwd (tempPath root n')) ∧
    ∃ txn, located cwd (txnDir root) = .ok txn ∧ ∀ s n, RefName.Accepted s n →
      ∀ l, located cwd (refPath root n) = .ok l → ¬ txn <+: l := by
  have hshown : ∀ (n : RefName) (names : List FileName),
      names.map FileName.chars = n.segments → ∀ x ∈ names, hidden x.chars = false := by
    intro n names hnames x hx
    exact RefName.not_hidden (hnames ▸ List.mem_map_of_mem hx)
  refine ⟨fun s n _ => ?_, fun s n s' n' hs hs' heq => ?_, fun s n s' n' _ _ heq => ?_, ?_⟩
  · obtain ⟨names, hnames⟩ := n.exists_fileNames
    refine ⟨names, ?_, located_refPath hdir hnames⟩
    rintro rfl
    exact n.segments_ne_nil hnames.symm
  · obtain ⟨names, hnames⟩ := n.exists_fileNames
    obtain ⟨names', hnames'⟩ := n'.exists_fileNames
    rw [located_refPath hdir hnames, located_refPath hdir hnames', Except.ok.injEq,
      List.append_cancel_left_eq] at heq
    have hsame : n = n' := RefName.segments_injective (by rw [← hnames, ← hnames', heq])
    rw [← hs.asStr, ← hs'.asStr, hsame]
  · obtain ⟨names, hnames⟩ := n.exists_fileNames
    obtain ⟨names', hnames'⟩ := n'.exists_fileNames
    have hne : names' ≠ [] := by
      rintro rfl
      exact n'.segments_ne_nil hnames'.symm
    obtain ⟨init, last, rfl⟩ := (List.eq_nil_or_concat' names').resolve_left hne
    obtain ⟨temp, hhidden, htemp⟩ := located_tempPath hdir hnames'
    -- the last name would be hidden
    rw [located_refPath hdir hnames, htemp, Except.ok.injEq, List.append_cancel_left_eq] at heq
    have := hshown n names hnames temp (by simp [heq])
    rw [hhidden] at this
    cases this
  · obtain ⟨txn, hhidden, htxn⟩ := located_txnDir hdir
    refine ⟨_, htxn, fun s n _ l hl hbelow => ?_⟩
    obtain ⟨names, hnames⟩ := n.exists_fileNames
    obtain rfl := Except.ok.inj ((located_refPath hdir hnames).symm.trans hl)
    rw [List.prefix_append_right_inj] at hbelow
    have := hshown n names hnames txn (hbelow.subset (List.mem_singleton_self txn))
    rw [hhidden] at this
    cases this

/-- The refs of `/srv/repo`. -/
theorem refPath_confined_srv :
    let root : RawPath := ["srv".toList, "repo".toList]
    ∃ dir, located [] (diskRefsDir root) = .ok dir ∧ ∀ s n s' n', RefName.Accepted s n →
      RefName.Accepted s' n' →
      located [] (refPath root n) = located [] (refPath root n') → s = s' := by
  let root : RawPath := ["srv".toList, "repo".toList]
  obtain ⟨dir, hdir⟩ : ∃ dir, located [] (diskRefsDir root) = .ok dir := ⟨_, rfl⟩
  exact ⟨dir, hdir, (refPath_confined hdir).2.1⟩

end Bole
