import Bole.Acl.Disk

/-!
The file of each ACL (`src/acl/disk.rs`), under any sequence of calls, some of which may fail.

Different globs have different files.  A write goes by way of a temporary file, whose name is that
of the ACL between a dot and `.tmp`; `sanitize` lets both through, so that the temporary file of a
glob is the file of another glob.

* `mem_sanitize`, `sanitize_tmp`: the letters of a file name, and the temporary names;
* `Storable`: the names that a file can have, which decide whether a call goes through;
* `AclFilesHold.after`: a call keeps the files of the ACLs that are stored, unless it sets an ACL
  whose temporary file is one of them;
* `acl_files_kept_iff`: so does a sequence of calls.
-/

namespace Bole

/-! ### File names -/

/-- A letter of a file name is one of the glob or of an escape. -/
lemma mem_sanitize {c : Char} {s : String} (h : c ∈ (sanitize s).toList) :
    (c ∈ s.toList ∧ c ≠ '/') ∨ c ∈ ['%', '2', '5', 'F', 'A'] := by
  rw [toList_sanitize, List.mem_flatMap] at h
  obtain ⟨x, hx, hc⟩ := h
  rw [escapeChar] at hc
  split_ifs at hc with hpercent hslash hstar
  · exact Or.inr (by grind)
  · exact Or.inr (by grind)
  · exact Or.inr (by grind)
  · rw [List.mem_singleton.mp hc]
    exact Or.inl ⟨hx, hslash⟩

/-- **No file name has a separator.** -/
lemma slash_notMem_sanitize (s : String) : '/' ∉ (sanitize s).toList := by
  intro h
  obtain ⟨-, hne⟩ := (mem_sanitize h).resolve_right (by decide)
  exact hne rfl

lemma nul_mem_sanitize {s : String} : '\x00' ∈ (sanitize s).toList ↔ '\x00' ∈ s.toList := by
  constructor
  · intro h
    exact ((mem_sanitize h).resolve_right (by decide)).1
  · intro h
    rw [toList_sanitize, List.mem_flatMap]
    exact ⟨_, h, by decide⟩

lemma sanitize_append (s t : String) : sanitize (s ++ t) = sanitize s ++ sanitize t := by
  refine String.toList_injective ?_
  rw [String.toList_append, toList_sanitize, toList_sanitize, toList_sanitize, String.toList_append,
    List.flatMap_append]

/-- **The temporary file of a glob is the file of another.** -/
lemma sanitize_tmp (glob : String) :
    sanitize ("." ++ glob ++ ".tmp") = "." ++ sanitize glob ++ ".tmp" := by
  have hdot : sanitize "." = "." := by decide +kernel
  have htmp : sanitize ".tmp" = ".tmp" := by decide +kernel
  rw [sanitize_append, sanitize_append, hdot, htmp]

lemma tmp_ne (glob : String) : "." ++ glob ++ ".tmp" ≠ glob := by
  intro h
  have hlen := congrArg String.length h
  have htmp : ".tmp".length = 4 := by decide
  rw [String.length_append, String.length_append] at hlen
  omega

/-- The names that a file can have. -/
def Storable (name : String) : Prop :=
  name ≠ "" ∧ name ≠ "." ∧ name ≠ ".." ∧ '\x00' ∉ name.toList

instance : DecidablePred Storable := fun _ => inferInstanceAs (Decidable (_ ∧ _ ∧ _ ∧ _))

lemma storable_sanitize {glob : String} : Storable (sanitize glob) ↔ Storable glob := by
  have hplain : ∀ t, sanitize t = t → (sanitize glob = t ↔ glob = t) := by
    intro t ht
    conv_lhs => rw [← ht, sanitize_injective.eq_iff]
  rw [Storable, Storable, ne_eq, ne_eq, ne_eq, hplain "" (by decide +kernel),
    hplain "." (by decide +kernel), hplain ".." (by decide +kernel), nul_mem_sanitize]

/-! ### Calls and the names they go through for -/

/-- `fs::read`, where a missing file is no error. -/
def readFile (dir : AclFiles) (name : String) : Result (Option String) :=
  if '\x00' ∈ name.toList then .error (.io .other)
  else if name = "" ∨ name = "." ∨ name = ".." then .error (.io .isADirectory)
  else .ok dir[name]?

variable {dir dir' : AclFiles} {name acl : String}

lemma atomicWrite_eq_ok : atomicWrite dir name acl = .ok dir' ↔
    Storable name ∧ dir' = (dir.erase ("." ++ name ++ ".tmp")).insert name acl := by
  rw [atomicWrite]
  split_ifs with hup hnul hdir
  · exact iff_of_false (by simp) fun h => h.1.2.2.1 hup
  · exact iff_of_false (by simp) fun h => h.1.2.2.2 hnul
  · exact iff_of_false (by simp) fun h => hdir.elim h.1.1 h.1.2.1
  · rw [not_or] at hdir
    rw [Except.ok.injEq, and_iff_right ⟨hdir.1, hdir.2, hup, hnul⟩, eq_comm]

/-- The checks that removing and reading a file have in common. -/
lemma checked_eq_ok {α : Type} {r r' : α} :
    (if '\x00' ∈ name.toList then (.error (.io .other) : Result α)
      else if name = "" ∨ name = "." ∨ name = ".." then .error (.io .isADirectory)
      else .ok r) = .ok r' ↔ Storable name ∧ r' = r := by
  split_ifs with hnul hdir
  · exact iff_of_false (by simp) fun h => h.1.2.2.2 hnul
  · exact iff_of_false (by simp) fun h => hdir.elim h.1.1 fun hdots => hdots.elim h.1.2.1 h.1.2.2.1
  · rw [not_or, not_or] at hdir
    rw [Except.ok.injEq, and_iff_right ⟨hdir.1, hdir.2.1, hdir.2.2, hnul⟩, eq_comm]

lemma removeFile_eq_ok :
    removeFile dir name = .ok dir' ↔ Storable name ∧ dir' = dir.erase name :=
  checked_eq_ok

lemma readFile_eq_ok {r : Option String} :
    readFile dir name = .ok r ↔ Storable name ∧ r = dir[name]? :=
  checked_eq_ok

namespace DiskAclBackend

/-- What the file of an ACL of some kind holds. -/
def getAcl (d : DiskAclBackend) (kind : ResourceKind) (glob : String) : Result (Option String) :=
  readFile (d.files kind) (sanitize glob)

/-- `get_path_acl`. -/
def getPathAcl (d : DiskAclBackend) (glob : String) : Result (Option PathAcl) := do
  let acl ← d.getAcl .path glob
  .ok (acl.map PathAcl.mk)

/-- `get_timeline_acl`. -/
def getTimelineAcl (d : DiskAclBackend) (pattern : String) : Result (Option TimelineAcl) := do
  let acl ← d.getAcl .timeline pattern
  .ok (acl.map TimelineAcl.mk)

/-- The backend after a call; one that fails changes no file of an ACL. -/
def after (d : DiskAclBackend) (c : AclCall) : DiskAclBackend :=
  match d.call c with
  | .ok d' => d'
  | .error _ => d

/-- The backend after calls from the first one on. -/
def afterAll (calls : List AclCall) : DiskAclBackend := calls.foldl after new

variable {d d' : DiskAclBackend} {kind : ResourceKind} {glob : String}

lemma setAcl_eq_ok : d.setAcl kind glob = .ok d' ↔ Storable glob ∧
    d' = ⟨Function.update d.files kind (((d.files kind).erase
      (sanitize ("." ++ glob ++ ".tmp"))).insert (sanitize glob) glob)⟩ := by
  rw [setAcl, Result.bind_eq_ok, sanitize_tmp]
  constructor
  · rintro ⟨dir, hwrite, hd⟩
    obtain ⟨hname, rfl⟩ := atomicWrite_eq_ok.mp hwrite
    exact ⟨storable_sanitize.mp hname, (Except.ok.inj hd).symm⟩
  · rintro ⟨hglob, rfl⟩
    exact ⟨_, atomicWrite_eq_ok.mpr ⟨storable_sanitize.mpr hglob, rfl⟩, rfl⟩

lemma deleteAcl_eq_ok : d.deleteAcl kind glob = .ok d' ↔ Storable glob ∧
    d' = ⟨Function.update d.files kind ((d.files kind).erase (sanitize glob))⟩ := by
  rw [deleteAcl, Result.bind_eq_ok]
  constructor
  · rintro ⟨dir, hremove, hd⟩
    obtain ⟨hname, rfl⟩ := removeFile_eq_ok.mp hremove
    exact ⟨storable_sanitize.mp hname, (Except.ok.inj hd).symm⟩
  · rintro ⟨hglob, rfl⟩
    exact ⟨_, removeFile_eq_ok.mpr ⟨storable_sanitize.mpr hglob, rfl⟩, rfl⟩

lemma getAcl_eq_ok {r : Option String} : d.getAcl kind glob = .ok r ↔
    Storable glob ∧ r = (d.files kind)[sanitize glob]? := by
  rw [getAcl, readFile_eq_ok, storable_sanitize]

/-- **The file of another ACL is overwritten** exactly when it is the temporary one. -/
lemma getAcl_setAcl {other : String} {r : Option String} (hset : d.setAcl kind glob = .ok d')
    (hne : other ≠ glob) : d'.getAcl kind other = .ok r ↔
      if other = "." ++ glob ++ ".tmp" then Storable other ∧ r = none
      else d.getAcl kind other = .ok r := by
  obtain ⟨-, rfl⟩ := setAcl_eq_ok.mp hset
  rw [getAcl_eq_ok, getAcl_eq_ok]
  dsimp only
  rw [Function.update_self, Std.ExtTreeMap.getElem?_insert, Std.ExtTreeMap.getElem?_erase]
  simp only [Std.LawfulEqOrd.compare_eq_iff_eq, sanitize_injective.eq_iff]
  rw [if_neg (Ne.symm hne)]
  by_cases htmp : other = "." ++ glob ++ ".tmp"
  · rw [if_pos htmp, if_pos htmp.symm]
  · rw [if_neg htmp, if_neg (Ne.symm htmp)]

end DiskAclBackend

/-! ### The ACLs that are stored -/

/-- The ACLs that are set and not deleted since, by calls that went through. -/
def storedAcls (calls : List AclCall) : Finset (ResourceKind × String) :=
  (liveAcls calls ∅).filter fun a => Storable a.2

variable {calls front : List AclCall} {kind : ResourceKind} {glob : String}

lemma storable_of_mem (h : (kind, glob) ∈ storedAcls front) : Storable glob :=
  (Finset.mem_filter.mp h).2

lemma storedAcls_set : storedAcls (front ++ [.set kind glob]) =
    if Storable glob then insert (kind, glob) (storedAcls front) else storedAcls front := by
  rw [storedAcls, liveAcls, List.foldl_append]
  exact Finset.filter_insert _ _ _

lemma storedAcls_delete : storedAcls (front ++ [.delete kind glob]) =
    (storedAcls front).erase (kind, glob) := by
  rw [storedAcls, liveAcls, List.foldl_append]
  exact Finset.filter_erase _ _ _

/-- Every file that is there is that of an ACL that is stored. -/
abbrev AclFilesHold (d : DiskAclBackend) (live : Finset (ResourceKind × String)) : Prop :=
  FilesHold (fun _ => True) d live

namespace AclFilesHold

variable {d : DiskAclBackend}

lemma get (h : AclFilesHold d (storedAcls front)) (hmem : (kind, glob) ∈ storedAcls front) :
    d.getAcl kind glob = .ok (some glob) := by
  exact DiskAclBackend.getAcl_eq_ok.mpr
    ⟨storable_of_mem hmem, ((h kind (sanitize glob) glob trivial).mpr ⟨rfl, hmem⟩).symm⟩

/-- A write of an ACL whose temporary file is not that of an ACL. -/
lemma set (h : AclFilesHold d (storedAcls front))
    (hsafe : Storable glob → (kind, "." ++ glob ++ ".tmp") ∉ storedAcls front) :
    AclFilesHold (d.after (.set kind glob)) (storedAcls (front ++ [.set kind glob])) := by
  rw [storedAcls_set, DiskAclBackend.after, DiskAclBackend.call_set]
  by_cases hglob : Storable glob
  · have hset : d.setAcl kind glob = .ok _ := DiskAclBackend.setAcl_eq_ok.mpr ⟨hglob, rfl⟩
    rw [if_pos hglob, hset]
    refine FilesHold.set h hset fun c hc _ => ?_
    rw [← sanitize_tmp, sanitize_injective.eq_iff] at hc
    exact hc ▸ hsafe hglob
  · rw [if_neg hglob]
    cases hset : d.setAcl kind glob with
    | ok d' => exact absurd (DiskAclBackend.setAcl_eq_ok.mp hset).1 hglob
    | error e => exact h

lemma delete (h : AclFilesHold d (storedAcls front)) :
    AclFilesHold (d.after (.delete kind glob)) (storedAcls (front ++ [.delete kind glob])) := by
  rw [storedAcls_delete, DiskAclBackend.after, DiskAclBackend.call_delete]
  cases hdel : d.deleteAcl kind glob with
  | ok d' => exact FilesHold.delete h hdel
  | error e =>
      have hglob : ¬ Storable glob := fun hs => by
        rw [DiskAclBackend.deleteAcl_eq_ok.mpr ⟨hs, rfl⟩] at hdel
        cases hdel
      rw [Finset.erase_eq_of_notMem fun hmem => hglob (storable_of_mem hmem)]
      exact h

/-- **A call** keeps the files of the ACLs that are stored. -/
lemma after (h : AclFilesHold d (storedAcls front)) {c : AclCall}
    (hsafe : ∀ kind glob, c = .set kind glob → Storable glob →
      (kind, "." ++ glob ++ ".tmp") ∉ storedAcls front) :
    AclFilesHold (d.after c) (storedAcls (front ++ [c])) := by
  cases c with
  | set kind glob => exact h.set (hsafe kind glob rfl)
  | delete kind glob => exact h.delete
  | setGrant grant =>
      have hstored : storedAcls (front ++ [.setGrant grant]) = storedAcls front := by
        rw [storedAcls, liveAcls, List.foldl_append]
        rfl
      rw [hstored]
      exact h

/-- **So does a sequence of calls**, as long as no temporary file is one of them. -/
lemma afterAll (hsafe : ∀ front kind glob, front ++ [.set kind glob] <+: calls → Storable glob →
    (kind, "." ++ glob ++ ".tmp") ∉ storedAcls front) :
    AclFilesHold (DiskAclBackend.afterAll calls) (storedAcls calls) := by
  induction calls using List.reverseRecOn with
  | nil => exact FilesHold.new _
  | append_singleton front c ih =>
      have hfront := ih fun front' kind glob hpre =>
        hsafe front' kind glob (hpre.trans (List.prefix_append _ _))
      rw [DiskAclBackend.afterAll, List.foldl_append]
      refine hfront.after fun kind glob hc => ?_
      subst hc
      exact hsafe front kind glob (List.prefix_refl _)

end AclFilesHold

/-- At every moment the file of every ACL that is stored holds it. -/
def AclsKept (calls : List AclCall) : Prop :=
  ∀ front, front <+: calls → ∀ kind glob, (kind, glob) ∈ storedAcls front →
    (DiskAclBackend.afterAll front).getAcl kind glob = .ok (some glob)

/-- **Different ACLs have different files, and no separator is in their names.**  So none takes the
place of another, exactly as long as none is set while the ACL that has the name of its temporary
file is stored. -/
theorem acl_files_kept_iff (calls : List AclCall) :
    (∀ glob glob' : String, glob ≠ glob' → sanitize glob ≠ sanitize glob') ∧
      (∀ glob : String, '/' ∉ (sanitize glob).toList) ∧
      (AclsKept calls ↔
        ∀ front kind glob, front ++ [.set kind glob] <+: calls → Storable glob →
          (kind, "." ++ glob ++ ".tmp") ∉ storedAcls front) := by
  refine ⟨fun _ _ => sanitize_injective.ne, slash_notMem_sanitize, ?_, ?_⟩
  · intro hkept front kind glob hpre hglob hmem
    have hset : (DiskAclBackend.afterAll front).setAcl kind glob = .ok _ :=
      DiskAclBackend.setAcl_eq_ok.mpr ⟨hglob, rfl⟩
    have hstored : (kind, "." ++ glob ++ ".tmp") ∈ storedAcls (front ++ [.set kind glob]) := by
      rw [storedAcls_set, if_pos hglob]
      exact Finset.mem_insert_of_mem hmem
    have hget := hkept _ hpre _ _ hstored
    rw [DiskAclBackend.afterAll, List.foldl_append, List.foldl_cons, List.foldl_nil,
      ← DiskAclBackend.afterAll, DiskAclBackend.after, DiskAclBackend.call_set, hset] at hget
    dsimp only at hget
    rw [DiskAclBackend.getAcl_setAcl hset (tmp_ne glob), if_pos rfl] at hget
    cases hget.2
  · intro hsafe front hpre kind glob hmem
    have hhold : AclFilesHold (DiskAclBackend.afterAll front) (storedAcls front) :=
      AclFilesHold.afterAll fun front' kind glob hpre' => hsafe front' kind glob (hpre'.trans hpre)
    exact hhold.get hmem

/-- An ACL, and one whose temporary file has the name of its file. -/
def tmpCalls : List AclCall := [.set .path ".env.tmp", .set .path "env"]

/-- **An ACL that another one overwrites.** -/
theorem acl_overwritten :
    (DiskAclBackend.new.run tmpCalls).toOption.isSome = true ∧
      (DiskAclBackend.afterAll tmpCalls).getPathAcl ".env.tmp" = .ok none ∧
      ¬ AclsKept tmpCalls := by
  have hget : (DiskAclBackend.afterAll tmpCalls).getAcl .path ".env.tmp" = .ok none := by
    decide +kernel
  refine ⟨by decide +kernel, by rw [DiskAclBackend.getPathAcl, hget]; rfl, fun hkept => ?_⟩
  have hkeeps := hkept tmpCalls (List.prefix_refl _) .path ".env.tmp" (by decide +kernel)
  rw [hget] at hkeeps
  cases hkeeps

end Bole
