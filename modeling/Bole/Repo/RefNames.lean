import Bole.Lib.Words
import Bole.Repo.GitImport

/-!
The names that refs of git get (`sanitize_ref_name` of `src/repo/git_import.rs`), against the rules
of `RefName::new` (`src/refs/name.rs`).

* `sanitizeRefName_eq_none`: the names that come to nothing;
* `sanitizeRefName_eq_self_iff`: the names that are kept are those that keep the rules;
* `sanitizeRefName_sound`: what is returned keeps the rules, and is returned again.
-/

namespace Bole

/-! ### Segments -/

/-- What becomes of one segment: no null byte, and no dot in front. -/
def sanitizeSegment (segment : List Char) : List Char :=
  match segment.filter (· ≠ '\x00') with
  | '.' :: rest => '_' :: rest
  | kept => kept

/-- The segments of a sanitized name; dropping null bytes may leave a segment empty. -/
def sanitizedSegments (gitName : String) : List (List Char) :=
  (((gitName.toList.splitOn '/').filter (· ≠ [])).map sanitizeSegment).filter (· ≠ [])

/-- **`sanitize_ref_name` joins the segments**, if there are any. -/
lemma sanitizeRefName_eq (gitName : String) : sanitizeRefName gitName =
    if sanitizedSegments gitName = [] then none
    else some (String.ofList (['/'].intercalate (sanitizedSegments gitName))) := by
  rw [sanitizeRefName]
  split
  · next hnone => exact (if_pos (show sanitizedSegments gitName = [] from hnone)).symm
  · next hsome => exact (if_neg (show sanitizedSegments gitName ≠ [] from hsome)).symm

lemma sanitizeRefName_eq_some {gitName t : String} : sanitizeRefName gitName = some t ↔
    sanitizedSegments gitName ≠ [] ∧
      t = String.ofList (['/'].intercalate (sanitizedSegments gitName)) := by
  rw [sanitizeRefName_eq]
  split_ifs with h <;> simp [h, eq_comm]

/-- A dot in front is gone, and so are null bytes; the letters are those of the segment, and
perhaps an underscore. -/
lemma sanitizeSegment_spec (segment : List Char) :
    (sanitizeSegment segment).head? ≠ some '.' ∧
      ∀ c ∈ sanitizeSegment segment, c ≠ '\x00' ∧ (c ∈ segment ∨ c = '_') := by
  have hkept : ∀ c ∈ segment.filter (· ≠ '\x00'), c ≠ '\x00' ∧ c ∈ segment := fun c hc =>
    ⟨by simpa using (List.mem_filter.mp hc).2, (List.mem_filter.mp hc).1⟩
  rw [sanitizeSegment]
  split
  · next rest hdot =>
      refine ⟨by simp, fun c hc => ?_⟩
      rcases List.mem_cons.mp hc with rfl | hc
      · exact ⟨by decide, .inr rfl⟩
      · obtain ⟨hnull, hmem⟩ := hkept c (hdot ▸ List.mem_cons_of_mem _ hc)
        exact ⟨hnull, .inl hmem⟩
  · next hdot =>
      refine ⟨fun hhead => ?_, fun c hc => ⟨(hkept c hc).1, .inl (hkept c hc).2⟩⟩
      obtain ⟨rest, hrest⟩ := List.head?_eq_some_iff.mp hhead
      exact hdot rest hrest

/-- A segment that keeps the rules is kept. -/
lemma sanitizeSegment_eq_self {segment : List Char} (h : segmentError segment = none) :
    sanitizeSegment segment = segment := by
  obtain ⟨-, hdot, hnull⟩ := segmentError_eq_none.mp h
  have hkeep : segment.filter (· ≠ '\x00') = segment := by
    refine List.filter_eq_self.mpr fun c hc => ?_
    simp only [ne_eq, decide_eq_true_eq]
    rintro rfl
    exact hnull hc
  rw [sanitizeSegment, hkeep]
  split
  · exact absurd rfl hdot
  · rfl

/-- **The segments keep the rules**, and have no slash. -/
lemma mem_sanitizedSegments {gitName : String} {segment : List Char}
    (h : segment ∈ sanitizedSegments gitName) : segmentError segment = none ∧ '/' ∉ segment := by
  obtain ⟨hmem, hne⟩ := List.mem_filter.mp h
  obtain ⟨piece, hpiece, rfl⟩ := List.mem_map.mp hmem
  obtain ⟨hdot, hletters⟩ := sanitizeSegment_spec piece
  refine ⟨segmentError_eq_none.mpr ⟨by simpa using hne, hdot, fun hnull =>
    (hletters _ hnull).1 rfl⟩, fun hslash => ?_⟩
  rcases (hletters _ hslash).2 with hslash | hslash
  · exact Words.notMem_of_mem_splitOn (List.mem_filter.mp hpiece).1 hslash
  · exact absurd hslash (by decide)

/-- The segments of a name that keeps the rules. -/
lemma sanitizedSegments_of_valid {name : String} (h : refNameError name = none) :
    sanitizedSegments name = name.toList.splitOn '/' := by
  have hrules := refNameError_eq_none.mp h
  have hne : (name.toList.splitOn '/').filter (· ≠ []) = name.toList.splitOn '/' :=
    List.filter_eq_self.mpr fun segment hmem => by
      simpa using (segmentError_eq_none.mp (hrules segment hmem)).1
  have hmap : (name.toList.splitOn '/').map sanitizeSegment = name.toList.splitOn '/' :=
    (List.map_congr_left fun segment hmem =>
      sanitizeSegment_eq_self (hrules segment hmem)).trans (List.map_id _)
  rw [sanitizedSegments, hne, hmap, hne]

/-! ### Names -/

/-- **A name that keeps the rules is kept.** -/
lemma sanitizeRefName_of_valid {name : String} (h : refNameError name = none) :
    sanitizeRefName name = some name := by
  rw [sanitizeRefName_eq_some, sanitizedSegments_of_valid h]
  exact ⟨List.splitOn_ne_nil _ _, by rw [List.intercalate_splitOn, String.ofList_toList]⟩

/-- What is returned has the segments that were joined. -/
lemma splitOn_sanitized {gitName t : String} (h : sanitizeRefName gitName = some t) :
    t.toList.splitOn '/' = sanitizedSegments gitName := by
  obtain ⟨hne, rfl⟩ := sanitizeRefName_eq_some.mp h
  rw [String.toList_ofList]
  exact List.splitOn_intercalate '/' (fun _ hmem => (mem_sanitizedSegments hmem).2) hne

/-- **What is returned keeps the rules.** -/
lemma sanitizeRefName_valid {gitName t : String} (h : sanitizeRefName gitName = some t) :
    refNameError t = none := by
  rw [refNameError_eq_none, splitOn_sanitized h]
  exact fun _ hmem => (mem_sanitizedSegments hmem).1

/-- The names that are kept are those that keep the rules. -/
lemma sanitizeRefName_eq_self_iff {name : String} :
    sanitizeRefName name = some name ↔ refNameError name = none :=
  ⟨sanitizeRefName_valid, sanitizeRefName_of_valid⟩

/-- **A name comes to nothing** exactly when it has slashes and null bytes only. -/
lemma sanitizeRefName_eq_none {gitName : String} : sanitizeRefName gitName = none ↔
    ∀ c ∈ gitName.toList, c = '/' ∨ c = '\x00' := by
  have hnone : sanitizeRefName gitName = none ↔ sanitizedSegments gitName = [] := by
    rw [sanitizeRefName_eq]
    split_ifs with h <;> simp [h]
  have hkept : ∀ piece : List Char, sanitizeSegment piece = [] ↔ ∀ c ∈ piece, c = '\x00' := by
    intro piece
    have hfilter : sanitizeSegment piece = [] ↔ piece.filter (· ≠ '\x00') = [] := by
      rw [sanitizeSegment]
      split
      · next rest hdot =>
          rw [hdot]
          exact iff_of_false (List.cons_ne_nil _ _) (List.cons_ne_nil _ _)
      · exact Iff.rfl
    simpa [List.filter_eq_nil_iff] using hfilter
  have hjoin : ['/'].intercalate (gitName.toList.splitOn '/') = gitName.toList :=
    List.intercalate_splitOn '/'
  rw [hnone, sanitizedSegments, List.filter_eq_nil_iff]
  constructor
  · intro h c hc
    by_contra hother
    obtain ⟨hslash, hnull⟩ := not_or.mp hother
    rw [← hjoin] at hc
    obtain ⟨piece, hpiece, hmem⟩ := Words.mem_intercalate hslash hc
    have hne : piece ≠ [] := List.ne_nil_of_mem hmem
    have hempty := h (sanitizeSegment piece)
      (List.mem_map.mpr ⟨piece, List.mem_filter.mpr ⟨hpiece, by simpa using hne⟩, rfl⟩)
    exact hnull ((hkept piece).mp (by simpa using hempty) c hmem)
  · intro h segment hsegment
    obtain ⟨piece, hpiece, rfl⟩ := List.mem_map.mp hsegment
    have hletters : ∀ c ∈ piece, c = '\x00' := by
      intro c hc
      have hsplit := (List.mem_filter.mp hpiece).1
      have hname : c ∈ gitName.toList := by
        rw [← hjoin]
        exact Words.mem_intercalate_of_mem hsplit hc
      exact (h c hname).resolve_left fun hslash =>
        Words.notMem_of_mem_splitOn hsplit (hslash ▸ hc)
    simpa using (hkept piece).mpr hletters

lemma sanitizeRefName_asStr (n : RefName) : sanitizeRefName n.asStr = some n.asStr :=
  sanitizeRefName_of_valid n.valid

/-- **Sanitizing is sound, and done once.** Whatever the string, a name that `sanitize_ref_name`
returns is one that `RefName::new` accepts, as it stands, and sanitizing it once more returns it. -/
theorem sanitizeRefName_sound {gitName t : String} (h : sanitizeRefName gitName = some t) :
    (∃ n, RefName.new t = .ok n ∧ n.asStr = t) ∧ sanitizeRefName t = some t := by
  have hvalid := sanitizeRefName_valid h
  exact ⟨⟨⟨t, hvalid⟩, dif_pos hvalid, rfl⟩, sanitizeRefName_of_valid hvalid⟩

/-- A null byte in front of a dot, and one that is a segment. -/
theorem sanitizeRefName_sound_null :
    (∃ n, RefName.new "_a/b" = .ok n ∧ n.asStr = "_a/b") ∧
      sanitizeRefName "_a/b" = some "_a/b" := by
  have h : sanitizeRefName "/\x00.a//\x00/b" = some "_a/b" := by decide +kernel
  exact sanitizeRefName_sound h

end Bole
