import Mathlib.Data.List.DropRight
import Bole.Lib.FileTree
import Bole.Lib.Words

/-!
Paths of a POSIX file system without symbolic links, over arbitrary contents: how a path of raw
segments is followed, and the calls that read, write and remove a file, make a directory, and make
a directory with its parents.

* `locate`: where a path leads if it can be followed (`follow_eq_ok`);
* `lookup_createDirAll`: making directories changes no file;
* `lookup_writeFile`: writing a file changes the file at the location of its path;
* `location_of_clean`: below a directory, a path of proper names leads where it says;
* `located_append`, `located_withFileName`: names behind a path lead below where it leads;
* `writeFile_names`, `createDirAll_names`: in a directory that is there the calls succeed, and
  change that directory only;
* `openFile_names`, `removeFile_names`: by its names a file is opened or removed where it is.
-/

namespace Posix

open FileTree

/-- A name that an entry of a directory can have. -/
structure FileName where
  chars : List Char
  valid : chars ≠ [] ∧ chars ≠ ['.'] ∧ chars ≠ ['.', '.'] ∧ '/' ∉ chars ∧ '\x00' ∉ chars
deriving DecidableEq

/-- The segments of an absolute path, as they stand between its slashes. -/
abbrev RawPath := List (List Char)

/-- A file system, from its root. -/
abbrev Fs (α : Type) := Dir FileName α

/-- Why a call fails. -/
inductive Fault where
  | notFound
  | notADirectory
  | isADirectory
  | alreadyExists
  | invalidInput
deriving DecidableEq, Repr

/-- What a segment asks for. -/
inductive Component where
  | stay
  | up
  | down (n : FileName)
deriving DecidableEq

/-- A segment that is neither empty nor made of dots. -/
def IsProper (seg : List Char) : Prop := seg ≠ [] ∧ seg ≠ ['.'] ∧ seg ≠ ['.', '.']

instance (seg : List Char) : Decidable (IsProper seg) := inferInstanceAs (Decidable (_ ∧ _))

/-- A path with a null byte does not reach the system. -/
def component (seg : List Char) : Except Fault Component :=
  if seg = [] ∨ seg = ['.'] then .ok .stay
  else if seg = ['.', '.'] then .ok .up
  else if h : seg ≠ [] ∧ seg ≠ ['.'] ∧ seg ≠ ['.', '.'] ∧ '/' ∉ seg ∧ '\x00' ∉ seg then
    .ok (.down ⟨seg, h⟩)
  else .error .invalidInput

/-- The components of a path. -/
def components : RawPath → Except Fault (List Component)
  | [] => .ok []
  | seg :: rest =>
      match component seg, components rest with
      | .ok c, .ok cs => .ok (c :: cs)
      | .error e, _ => .error e
      | _, .error e => .error e

/-- `join`: an absolute name replaces the path. -/
def join (base : RawPath) (name : List Char) : RawPath :=
  if name.head? = some '/' then name.splitOn '/' else base ++ name.splitOn '/'

/-- The path without the slashes at its end. -/
def trim (path : RawPath) : RawPath := path.rdropWhile (· = [])

/-- `parent`: empty segments and single dots do not count. -/
def parent (path : RawPath) : Option RawPath :=
  match path.filter fun seg => !(decide (seg = []) || decide (seg = ['.'])) with
  | [] => none
  | segs => some segs.dropLast

/-- `with_file_name`. -/
def withFileName (path : RawPath) (name : List Char) : RawPath :=
  join ((parent path).getD path) name

variable {α : Type}

/-- The directory at a location. -/
@[grind] def dirAt : List FileName → Fs α → Option (Fs α)
  | [], fs => some fs
  | n :: rest, fs =>
      match fs n with
      | some (.dir e) => dirAt rest e
      | _ => none

/-- Following a path from a directory on. -/
def follow (fs : Fs α) : List Component → List FileName → Except Fault (List FileName)
  | [], l => .ok l
  | .stay :: rest, l => follow fs rest l
  | .up :: rest, l => follow fs rest l.dropLast
  | .down n :: rest, l =>
      match (dirAt l fs).bind (· n) with
      | none => .error .notFound
      | some (.file _) => .error .notADirectory
      | some (.dir _) => follow fs rest (l ++ [n])

/-- Where a path leads, if it can be followed. -/
def locate : List Component → List FileName → List FileName
  | [], l => l
  | .stay :: rest, l => locate rest l
  | .up :: rest, l => locate rest l.dropLast
  | .down n :: rest, l => locate rest (l ++ [n])

/-- Where a path leads from a working directory. -/
def located (cwd : List FileName) (path : RawPath) : Except Fault (List FileName) :=
  match components path with
  | .error e => .error e
  | .ok cs => .ok (locate cs cwd)

/-- `write`: the file is created or overwritten, its directory has to be there.  The location
that is written is returned with the file system. -/
def writeFile (path : RawPath) (a : α) (fs : Fs α) : Except Fault (List FileName × Fs α) :=
  match components (trim path) with
  | .error e => .error e
  | .ok cs =>
      match follow fs cs.dropLast [] with
      | .error e => .error e
      | .ok l =>
          match cs.getLast? with
          | some (.down n) =>
              if path.getLast? = some [] then .error .isADirectory
              else
                match FileTree.write (l ++ [n]) a fs with
                | .error _ => .error .isADirectory
                | .ok fs' => .ok (l ++ [n], fs')
          | _ => .error .isADirectory

/-- The file that a path leads to, with its location. -/
def openFile (path : RawPath) (fs : Fs α) : Except Fault (List FileName × α) :=
  match components (trim path) with
  | .error e => .error e
  | .ok cs =>
      match follow fs cs.dropLast [] with
      | .error e => .error e
      | .ok l =>
          match cs.getLast? with
          | some (.down n) =>
              match (dirAt l fs).bind (· n) with
              | none => .error .notFound
              | some (.dir _) => .error .isADirectory
              | some (.file a) =>
                  if path.getLast? = some [] then .error .notADirectory else .ok (l ++ [n], a)
          | _ => .error .isADirectory

/-- `read`. -/
def readFile (path : RawPath) (fs : Fs α) : Except Fault α :=
  match openFile path fs with
  | .error e => .error e
  | .ok (_, a) => .ok a

/-- `remove_file`. -/
def removeFile (path : RawPath) (fs : Fs α) : Except Fault (Fs α) :=
  match openFile path fs with
  | .error e => .error e
  | .ok (l, _) =>
      match FileTree.remove l fs with
      | .error _ => .error .isADirectory
      | .ok fs' => .ok fs'

/-- `mkdir`: its parent has to be there. -/
def mkdir (path : RawPath) (fs : Fs α) : Except Fault (Fs α) :=
  match components (trim path) with
  | .error e => .error e
  | .ok cs =>
      match follow fs cs.dropLast [] with
      | .error e => .error e
      | .ok l =>
          match cs.getLast? with
          | some (.down n) =>
              match (dirAt l fs).bind (· n) with
              | some _ => .error .alreadyExists
              | none => .ok (mkdirs (l ++ [n, n]) fs)
          | _ => .error .alreadyExists

/-- `is_dir`. -/
def isDir (path : RawPath) (fs : Fs α) : Bool :=
  match components path with
  | .error _ => false
  | .ok cs =>
      match follow fs cs [] with
      | .error _ => false
      | .ok _ => true

/-- The recursion of `create_dir_all`, for the given number of parents. -/
def createDirs : ℕ → RawPath → Fs α → Except Fault Unit × Fs α
  | 0, _, fs => (.error .notFound, fs)
  | k + 1, path, fs =>
      match mkdir path fs with
      | .ok fs' => (.ok (), fs')
      | .error .notFound =>
          match parent path with
          | none => (.error .notFound, fs)
          | some p =>
              match createDirs k p fs with
              | (.error e, fs') => (.error e, fs')
              | (.ok (), fs') =>
                  match mkdir path fs' with
                  | .ok fs'' => (.ok (), fs'')
                  | .error e => if isDir path fs' then (.ok (), fs') else (.error e, fs')
      | .error e => if isDir path fs then (.ok (), fs) else (.error e, fs)

/-- `create_dir_all`; a parent has fewer segments. -/
def createDirAll (path : RawPath) (fs : Fs α) : Except Fault Unit × Fs α :=
  createDirs (path.length + 1) path fs

/-! ### Directories -/

variable {fs fs' : Fs α}

lemma dirAt_append {l l' : List FileName} {fs d : Fs α} :
    dirAt (l ++ l') fs = some d ↔ ∃ e, dirAt l fs = some e ∧ dirAt l' e = some d := by
  induction l generalizing fs with
  | nil => simp [dirAt]
  | cons n rest ih =>
      rw [List.cons_append, dirAt, dirAt]
      cases fs n with
      | none => simp
      | some node =>
          cases node with
          | file data => simp
          | dir e => exact ih

lemma lookup_mkdir {path : RawPath} (h : mkdir path fs = .ok fs') (q : List FileName) :
    lookup q fs' = lookup q fs := by
  rw [mkdir] at h
  repeat' split at h
  all_goals first | cases h; done | skip
  obtain rfl := Except.ok.inj h
  exact lookup_mkdirs _ _ _

lemma lookup_createDirs (k : ℕ) (path : RawPath) (fs : Fs α) (q : List FileName) :
    lookup q (createDirs k path fs).2 = lookup q fs := by
  induction k generalizing path fs with
  | zero => rfl
  | succ k ih =>
      rw [createDirs]
      split
      · next fs' h => exact lookup_mkdir h q
      · split
        · rfl
        · next p _ =>
            have hp := ih p fs
            split
            · next e fs' h =>
                rw [h] at hp
                exact hp
            · next fs' h =>
                rw [h] at hp
                split
                · next fs'' h' => exact (lookup_mkdir h' q).trans hp
                · split_ifs <;> exact hp
      · split_ifs <;> rfl

/-- **Making directories changes no file.** -/
lemma lookup_createDirAll (path : RawPath) (fs : Fs α) (q : List FileName) :
    lookup q (createDirAll path fs).2 = lookup q fs :=
  lookup_createDirs _ path fs q

/-- There is nothing below an empty directory. -/
lemma lookup_of_empty {dest : List FileName} (h : dirAt dest fs = some emptyDir)
    {names : List FileName} (hne : names ≠ []) : lookup (dest ++ names) fs = none := by
  induction dest generalizing fs with
  | nil =>
      obtain rfl : fs = emptyDir := by simpa [dirAt] using h
      obtain ⟨x, rest, rfl⟩ := List.exists_cons_of_ne_nil hne
      cases rest <;> simp [lookup, FileTree.read, emptyDir]
  | cons n rest ih =>
      rw [dirAt] at h
      split at h
      · next e he =>
          have hsome : rest ++ names ≠ [] := by simp [hne]
          obtain ⟨y, ys, hy⟩ := List.exists_cons_of_ne_nil hsome
          rw [List.cons_append, hy, lookup_cons_dir he, ← hy]
          exact ih h
      · cases h

/-- A file is in a directory. -/
lemma dirAt_of_lookup {l : List FileName} {n : FileName} {a : α}
    (h : lookup (l ++ [n]) fs = some a) : (dirAt l fs).isSome := by
  induction l generalizing fs with
  | nil => rfl
  | cons m rest ih =>
      obtain ⟨x, xs, hx⟩ := List.exists_cons_of_ne_nil (List.append_ne_nil_of_right_ne_nil rest
        (List.cons_ne_nil n []))
      rw [List.cons_append, hx] at h
      rw [dirAt]
      cases hm : fs m with
      | none => simp [lookup, FileTree.read, hm] at h
      | some node =>
          cases node with
          | file b => simp [lookup, FileTree.read, hm] at h
          | dir e =>
              rw [lookup_cons_dir hm, ← hx] at h
              exact ih h

/-! ### Files -/

lemma follow_eq_ok {cs : List Component} {l l' : List FileName} (h : follow fs cs l = .ok l') :
    l' = locate cs l := by
  induction cs generalizing l with
  | nil => exact (Except.ok.inj h).symm
  | cons c rest ih =>
      cases c with
      | stay => exact ih h
      | up => exact ih h
      | down n =>
          rw [follow] at h
          split at h
          · cases h
          · cases h
          · exact ih h

lemma locate_append (cs ds : List Component) (l : List FileName) :
    locate (cs ++ ds) l = locate ds (locate cs l) := by
  induction cs generalizing l with
  | nil => rfl
  | cons c rest ih => cases c <;> exact ih _

/-- **Writing a file** changes the file at the location of its path. -/
lemma lookup_writeFile {path : RawPath} {a : α} {written : List FileName}
    (h : writeFile path a fs = .ok (written, fs')) :
    ∃ cs, components path = .ok cs ∧ written = locate cs [] ∧
      ∀ q, lookup q fs' = if q = written then some a else lookup q fs := by
  rw [writeFile] at h
  split at h
  · cases h
  next cs hcs =>
    split at h
    · cases h
    next l hl =>
      split at h
      · next n hn =>
          split_ifs at h with hlast
          split at h
          · cases h
          next fs'' hw =>
            obtain ⟨rfl, rfl⟩ := Prod.mk.inj (Except.ok.inj h)
            have htrim : trim path = path := by
              rw [trim, List.rdropWhile_eq_self_iff]
              intro hne
              rw [List.getLast?_eq_some_getLast hne, Option.some.injEq] at hlast
              simpa using hlast
            rw [htrim] at hcs
            refine ⟨cs, hcs, ?_, lookup_write hw⟩
            obtain ⟨init, rfl⟩ := List.getLast?_eq_some_iff.mp hn
            rw [List.dropLast_concat] at hl
            rw [locate_append, ← follow_eq_ok hl]
            rfl
      · cases h

/-! ### Proper names -/

lemma component_name (n : FileName) : component n.chars = .ok (.down n) := by
  obtain ⟨h1, h2, h3, h4, h5⟩ := n.valid
  rw [component, if_neg (by simp [h1, h2]), if_neg h3, dif_pos n.valid]

lemma component_proper {seg : List Char} {c : Component} (hseg : IsProper seg)
    (h : component seg = .ok c) : ∃ n : FileName, c = .down n ∧ n.chars = seg := by
  rw [component, if_neg (by simp [hseg.1, hseg.2.1]), if_neg hseg.2.2] at h
  split_ifs at h with hv
  exact ⟨⟨seg, hv⟩, (Except.ok.inj h).symm, rfl⟩

lemma components_cons {seg : List Char} {rest : RawPath} {cs : List Component} :
    components (seg :: rest) = .ok cs ↔
      ∃ c ds, component seg = .ok c ∧ components rest = .ok ds ∧ cs = c :: ds := by
  rw [components]
  cases component seg <;> cases components rest <;> simp [eq_comm]

/-- Following the names of a location leads there. -/
lemma locate_names {dest : List FileName} {rest : RawPath} {cs : List Component}
    (h : components (dest.map FileName.chars ++ rest) = .ok cs) (l : List FileName) :
    ∃ ds, components rest = .ok ds ∧ locate cs l = locate ds (l ++ dest) := by
  induction dest generalizing l cs with
  | nil => exact ⟨cs, h, by simp⟩
  | cons n dest ih =>
      rw [List.map_cons, List.cons_append, components_cons] at h
      obtain ⟨c, ds, hc, hds, rfl⟩ := h
      rw [component_name] at hc
      cases hc
      obtain ⟨es, hes, hlocate⟩ := ih hds (l ++ [n])
      exact ⟨es, hes, by rw [locate, hlocate, List.append_assoc]; rfl⟩

/-- Empty segments lead nowhere. -/
lemma locate_empty {k : ℕ} {rest : RawPath} {cs : List Component}
    (h : components (List.replicate k [] ++ rest) = .ok cs) (l : List FileName) :
    ∃ ds, components rest = .ok ds ∧ locate cs l = locate ds l := by
  induction k generalizing cs with
  | zero => exact ⟨cs, h, rfl⟩
  | succ k ih =>
      rw [List.replicate_succ, List.cons_append, components_cons] at h
      obtain ⟨c, ds, hc, hds, rfl⟩ := h
      cases hc
      obtain ⟨es, hes, hlocate⟩ := ih hds
      exact ⟨es, hes, hlocate⟩

/-- Proper segments are names. -/
lemma locate_proper {segs : RawPath} {cs : List Component} (hsegs : ∀ seg ∈ segs, IsProper seg)
    (h : components segs = .ok cs) (l : List FileName) :
    ∃ names : List FileName, names.map FileName.chars = segs ∧ locate cs l = l ++ names := by
  induction segs generalizing l cs with
  | nil =>
      cases h
      exact ⟨[], rfl, by simp [locate]⟩
  | cons seg rest ih =>
      obtain ⟨c, ds, hc, hds, rfl⟩ := components_cons.mp h
      obtain ⟨n, rfl, rfl⟩ := component_proper (hsegs _ List.mem_cons_self) hc
      obtain ⟨names, rfl, hlocate⟩ :=
        ih (fun s hs => hsegs s (List.mem_cons_of_mem _ hs)) hds (l ++ [n])
      exact ⟨n :: names, rfl, by rw [locate, hlocate, List.append_assoc]; rfl⟩

/-- **Below a directory a path of proper names leads where it says.** -/
lemma location_of_clean {dest : List FileName} {k : ℕ} {segs : RawPath} {cs : List Component}
    (hsegs : ∀ seg ∈ segs, IsProper seg)
    (h : components (dest.map FileName.chars ++ (List.replicate k [] ++ segs)) = .ok cs) :
    ∃ names : List FileName, names.map FileName.chars = segs ∧ locate cs [] = dest ++ names := by
  obtain ⟨ds, hds, hlocate⟩ := locate_names h []
  obtain ⟨es, hes, hlocate'⟩ := locate_empty hds ([] ++ dest)
  obtain ⟨names, hnames, hlocate''⟩ := locate_proper hsegs hes ([] ++ dest)
  exact ⟨names, hnames, by rw [hlocate, hlocate', hlocate'', List.nil_append]⟩

/-! ### Joining names -/

lemma join_name (base : RawPath) (n : FileName) : join base n.chars = base ++ [n.chars] := by
  obtain ⟨-, -, -, hslash, -⟩ := n.valid
  rw [join, if_neg, List.splitOn_eq_singleton hslash]
  exact fun h => hslash (List.mem_of_mem_head? h)

lemma components_names (names : List FileName) :
    components (names.map FileName.chars) = .ok (names.map Component.down) := by
  induction names with
  | nil => rfl
  | cons n rest ih => rw [List.map_cons, components, component_name, ih]; rfl

lemma components_append {path rest : RawPath} {cs ds : List Component}
    (h : components path = .ok cs) (hrest : components rest = .ok ds) :
    components (path ++ rest) = .ok (cs ++ ds) := by
  induction path generalizing cs with
  | nil =>
      cases h
      exact hrest
  | cons seg path ih =>
      obtain ⟨c, cs, hc, hcs, rfl⟩ := components_cons.mp h
      exact components_cons.mpr ⟨c, _, hc, ih hcs, rfl⟩

lemma locate_down (names l : List FileName) :
    locate (names.map Component.down) l = l ++ names := by
  induction names generalizing l with
  | nil => simp [locate]
  | cons n rest ih => rw [List.map_cons, locate, ih, List.append_assoc]; rfl

section Located

variable {cwd dir : List FileName} {path : RawPath}

lemma located_eq_ok :
    located cwd path = .ok dir ↔ ∃ cs, components path = .ok cs ∧ locate cs cwd = dir := by
  rw [located]
  cases components path <;> simp

/-- Names behind a path lead below where it leads. -/
lemma located_append (h : located cwd path = .ok dir) (names : List FileName) :
    located cwd (path ++ names.map FileName.chars) = .ok (dir ++ names) := by
  obtain ⟨cs, hcs, rfl⟩ := located_eq_ok.mp h
  refine located_eq_ok.mpr ⟨_, components_append hcs (components_names names), ?_⟩
  rw [locate_append, locate_down]

lemma located_cons {seg : List Char} {rest : RawPath} {c : Component}
    (hc : component seg = .ok c) :
    located cwd (seg :: rest) = located (locate [c] cwd) rest := by
  rw [located, located, components, hc]
  cases components rest with
  | error e => rfl
  | ok ds => cases c <;> rfl

/-- Empty segments and single dots lead nowhere. -/
lemma located_filter (h : located cwd path = .ok dir) :
    located cwd (path.filter fun seg => !(decide (seg = []) || decide (seg = ['.']))) =
      .ok dir := by
  induction path generalizing cwd with
  | nil => exact h
  | cons seg rest ih =>
      obtain ⟨cs, hcs, -⟩ := located_eq_ok.mp h
      obtain ⟨c, ds, hc, -, rfl⟩ := components_cons.mp hcs
      rw [located_cons hc] at h
      by_cases hstay : seg = [] ∨ seg = ['.']
      · rw [component, if_pos hstay] at hc
        cases hc
        rw [List.filter_cons_of_neg (by simpa [or_iff_not_imp_left] using hstay)]
        exact ih h
      · rw [List.filter_cons_of_pos (by simpa [not_or] using hstay), located_cons hc]
        exact ih h

/-- The last name of a path is replaced. -/
lemma located_withFileName (h : located cwd path = .ok dir) (names : List FileName)
    (n m : FileName) :
    located cwd (withFileName (path ++ (names ++ [n]).map FileName.chars) m.chars) =
      .ok (dir ++ (names ++ [m])) := by
  have hkeep : ∀ seg ∈ (names ++ [n]).map FileName.chars,
      (!(decide (seg = []) || decide (seg = ['.']))) = true := by
    intro seg hseg
    obtain ⟨x, -, rfl⟩ := List.mem_map.mp hseg
    simp [x.valid.1, x.valid.2.1]
  have hparent : parent (path ++ (names ++ [n]).map FileName.chars) =
      some (path.filter (fun seg => !(decide (seg = []) || decide (seg = ['.']))) ++
        names.map FileName.chars) := by
    rw [parent, List.filter_append, List.filter_eq_self.mpr hkeep, List.map_append,
      ← List.append_assoc]
    split
    · next hnil => simp at hnil
    · exact congrArg some List.dropLast_concat
  rw [withFileName, hparent, Option.getD_some, join_name, List.append_assoc]
  have := located_append (located_filter h) (names ++ [m])
  rwa [List.map_append] at this

end Located

/-! ### Calls in a directory that is there -/

/-- The file system with another directory at a location. -/
@[grind] def graft : List FileName → Fs α → Fs α → Fs α
  | [], d, _ => d
  | n :: rest, d, fs =>
      match fs n with
      | some (.dir e) => Function.update fs n (some (.dir (graft rest d e)))
      | _ => Function.update fs n (some (.dir (graft rest d emptyDir)))

lemma dirAt_graft (l : List FileName) (d fs : Fs α) : dirAt l (graft l d fs) = some d := by
  induction l generalizing fs with
  | nil => rfl
  | cons n rest ih =>
      rw [graft]
      split
      · rw [dirAt, Function.update_self]
        exact ih _
      · rw [dirAt, Function.update_self]
        exact ih _

/-- A directory is put back where it was. -/
lemma graft_self {l : List FileName} {d : Fs α} (h : dirAt l fs = some d) : graft l d fs = fs := by
  induction l generalizing fs with
  | nil => exact (Option.some.inj h).symm
  | cons n rest ih =>
      rw [dirAt] at h
      cases hn : fs n with
      | none => simp [hn] at h
      | some node =>
          cases node with
          | file a => simp [hn] at h
          | dir e =>
              simp only [hn] at h
              simp only [graft, hn]
              rw [ih h, ← hn, Function.update_eq_self]

lemma graft_graft (l : List FileName) (d e fs : Fs α) :
    graft l d (graft l e fs) = graft l d fs := by
  induction l generalizing fs with
  | nil => rfl
  | cons n rest ih =>
      rw [graft]
      cases hn : fs n with
      | none => simp [graft, hn, ih, Function.update_idem]
      | some node => cases node <;> simp [graft, hn, ih, Function.update_idem]

/-- Changing a directory below another one changes an entry of that one. -/
lemma graft_append {l l' : List FileName} {d : Fs α} (h : dirAt l fs = some d) (e : Fs α) :
    graft (l ++ l') e fs = graft l (graft l' e d) fs := by
  induction l generalizing fs with
  | nil =>
      obtain rfl : fs = d := Option.some.inj h
      rfl
  | cons n rest ih =>
      rw [dirAt] at h
      split at h
      · next f hf =>
          rw [List.cons_append, graft, graft, hf]
          dsimp only
          rw [ih h]
      · cases h

lemma graft_name (n : FileName) (e d : Fs α) :
    graft [n] e d = Function.update d n (some (.dir e)) := by
  rw [graft]
  split <;> rfl

/-- Following names to a directory that is there. -/
lemma follow_names {l names : List FileName} (h : (dirAt (l ++ names) fs).isSome) :
    follow fs (names.map .down) l = .ok (l ++ names) := by
  induction names generalizing l with
  | nil => simp [follow]
  | cons n rest ih =>
      have hassoc : l ++ n :: rest = l ++ [n] ++ rest := by simp
      rw [hassoc] at h ⊢
      obtain ⟨d, hd⟩ := Option.isSome_iff_exists.mp h
      obtain ⟨e, he, -⟩ := dirAt_append.mp hd
      obtain ⟨f, hf, hn⟩ := dirAt_append.mp he
      rw [List.map_cons, follow, hf, Option.bind_some]
      rw [dirAt] at hn
      cases hx : f n with
      | none => simp [hx] at hn
      | some node =>
          cases node with
          | file a => simp [hx] at hn
          | dir g => exact ih h

lemma trim_names (names : List FileName) :
    trim (names.map FileName.chars) = names.map FileName.chars := by
  rw [trim, List.rdropWhile_eq_self_iff]
  intro hne
  rw [List.getLast_map (f := FileName.chars) (by simpa using hne)]
  simp [(FileName.valid _).1]

lemma write_graft {l : List FileName} {d : Fs α} (h : dirAt l fs = some d) {n : FileName}
    (hn : ∀ e, d n ≠ some (.dir e)) (a : α) :
    FileTree.write (l ++ [n]) a fs = .ok (graft l (Function.update d n (some (.file a))) fs) := by
  induction l generalizing fs with
  | nil =>
      obtain rfl : fs = d := Option.some.inj h
      rw [List.nil_append, FileTree.write]
      split
      · next e he => exact absurd he (hn e)
      · rfl
  | cons m rest ih =>
      rw [dirAt] at h
      split at h
      · next e he =>
          obtain ⟨x, xs, hx⟩ := List.exists_cons_of_ne_nil (List.append_ne_nil_of_right_ne_nil rest
            (List.cons_ne_nil n []))
          have hw := ih h
          rw [hx] at hw
          rw [List.cons_append, hx, FileTree.write, he]
          dsimp only
          rw [hw, graft, he]
      · cases h

lemma mkdirs_graft {l : List FileName} {d : Fs α} (h : dirAt l fs = some d) {n : FileName}
    (hn : d n = none) :
    mkdirs (l ++ [n, n]) fs = graft l (Function.update d n (some (.dir emptyDir))) fs := by
  induction l generalizing fs with
  | nil =>
      obtain rfl : fs = d := Option.some.inj h
      rw [List.nil_append, mkdirs, hn]
      rfl
  | cons m rest ih =>
      rw [dirAt] at h
      split at h
      · next e he =>
          obtain ⟨x, xs, hx⟩ := List.exists_cons_of_ne_nil (List.append_ne_nil_of_right_ne_nil rest
            (List.cons_ne_nil n [n]))
          have hw := ih h
          rw [hx] at hw
          rw [List.cons_append, hx, mkdirs, he]
          dsimp only
          rw [hw, graft, he]
      · cases h

/-- **A file is written** into a directory that is there, unless a directory has its name. -/
lemma writeFile_names {l : List FileName} {d : Fs α} (h : dirAt l fs = some d) {n : FileName}
    (hn : ∀ e, d n ≠ some (.dir e)) (a : α) :
    writeFile ((l ++ [n]).map FileName.chars) a fs =
      .ok (l ++ [n], graft l (Function.update d n (some (.file a))) fs) := by
  rw [writeFile, trim_names, components_names]
  dsimp only
  rw [List.map_append, List.map_singleton, List.dropLast_concat,
    follow_names (l := []) (by rw [List.nil_append, h]; rfl), List.getLast?_concat]
  dsimp only
  rw [List.nil_append, write_graft h hn, List.map_append, List.map_singleton,
    List.getLast?_concat, if_neg (by simp [n.valid.1])]

/-- **A directory is made** in one that is there, if nothing has its name. -/
lemma createDirAll_names {l : List FileName} {d : Fs α} (h : dirAt l fs = some d) {n : FileName}
    (hn : d n = none) :
    createDirAll ((l ++ [n]).map FileName.chars) fs =
      (.ok (), graft l (Function.update d n (some (.dir emptyDir))) fs) := by
  have hmkdir : mkdir ((l ++ [n]).map FileName.chars) fs =
      .ok (graft l (Function.update d n (some (.dir emptyDir))) fs) := by
    rw [mkdir, trim_names, components_names]
    dsimp only
    rw [List.map_append, List.map_singleton, List.dropLast_concat,
      follow_names (l := []) (by rw [List.nil_append, h]; rfl), List.getLast?_concat]
    dsimp only
    rw [List.nil_append, h, Option.bind_some, hn]
    dsimp only
    rw [mkdirs_graft h hn]
  rw [createDirAll, createDirs, hmkdir]

/-- A directory that is there is left as it is. -/
lemma createDirAll_isDir {l : List FileName} (h : (dirAt l fs).isSome) :
    createDirAll (l.map FileName.chars) fs = (.ok (), fs) := by
  have hdir : isDir (l.map FileName.chars) fs = true := by
    rw [isDir, components_names]
    dsimp only
    rw [follow_names (l := []) (by simpa using h)]
  have hmkdir : mkdir (l.map FileName.chars) fs = .error .alreadyExists := by
    rw [mkdir, trim_names, components_names]
    dsimp only
    induction l using List.reverseRecOn with
    | nil => rfl
    | append_singleton l n _ =>
        obtain ⟨d, hd⟩ := Option.isSome_iff_exists.mp h
        obtain ⟨e, he, hd⟩ := dirAt_append.mp hd
        rw [List.map_append, List.map_singleton, List.dropLast_concat,
          follow_names (l := []) (by rw [List.nil_append, he]; rfl), List.getLast?_concat]
        dsimp only
        rw [List.nil_append, he, Option.bind_some]
        rw [dirAt] at hd
        cases hx : e n with
        | none => simp [hx] at hd
        | some node => rfl
  rw [createDirAll, createDirs, hmkdir]
  dsimp only
  rw [if_pos hdir]

/-! ### Opening files by their names -/

/-- A file is an entry of its directory. -/
lemma lookup_concat {l : List FileName} {n : FileName} {a : α} :
    lookup (l ++ [n]) fs = some a ↔ (dirAt l fs).bind (· n) = some (.file a) := by
  induction l generalizing fs with
  | nil =>
      rw [dirAt, Option.bind_some, List.nil_append, lookup, FileTree.read]
      cases fs n with
      | none => simp
      | some node => cases node <;> simp
  | cons m rest ih =>
      obtain ⟨x, xs, hx⟩ := List.exists_cons_of_ne_nil (List.append_ne_nil_of_right_ne_nil rest
        (List.cons_ne_nil n []))
      cases hm : fs m with
      | none => simp [dirAt, hm, hx, lookup, FileTree.read]
      | some node =>
          cases node with
          | file a => simp [dirAt, hm, hx, lookup, FileTree.read]
          | dir e =>
              rw [List.cons_append, hx, lookup_cons_dir hm, ← hx, ih]
              simp [dirAt, hm]

/-- **Opening a file by its names** finds what is at their location, and a path that is not found
has no file. -/
lemma openFile_names (fs : Fs α) {names : List FileName} (hne : names ≠ []) :
    (∀ l a, openFile (names.map FileName.chars) fs = .ok (l, a) →
      l = names ∧ lookup names fs = some a) ∧
    (openFile (names.map FileName.chars) fs = .error .notFound → lookup names fs = none) := by
  obtain ⟨l, n, rfl⟩ : ∃ l n, names = l ++ [n] :=
    ⟨names.dropLast, names.getLast hne, (List.dropLast_append_getLast hne).symm⟩
  have hlast : ((l ++ [n]).map FileName.chars).getLast? ≠ some [] := by
    simp [n.valid.1]
  rw [openFile, trim_names, components_names]
  simp only [List.map_append, List.map_cons, List.map_nil, List.dropLast_concat,
    List.getLast?_concat] at hlast ⊢
  cases hfollow : follow fs (l.map .down) [] with
  | error e =>
      refine ⟨nofun, fun _ => ?_⟩
      -- there is no directory that the file could be in
      cases hfile : lookup (l ++ [n]) fs with
      | none => rfl
      | some a =>
          have hthere : follow fs (l.map .down) [] = .ok ([] ++ l) :=
            follow_names (dirAt_of_lookup hfile)
          rw [hfollow] at hthere
          cases hthere
  | ok l' =>
      obtain rfl : l' = l := by rw [follow_eq_ok hfollow, locate_down, List.nil_append]
      dsimp only
      cases hentry : (dirAt l' fs).bind (· n) with
      | none =>
          refine ⟨nofun, fun _ => ?_⟩
          cases hfile : lookup (l' ++ [n]) fs with
          | none => rfl
          | some a =>
              rw [lookup_concat, hentry] at hfile
              cases hfile
      | some node =>
          cases node with
          | dir e => exact ⟨nofun, nofun⟩
          | file a =>
              dsimp only
              rw [if_neg hlast]
              refine ⟨?_, nofun⟩
              rintro _ _ ⟨⟩
              exact ⟨rfl, lookup_concat.mpr hentry⟩

/-- Reading a file by its names. -/
lemma readFile_names (fs : Fs α) {names : List FileName} (hne : names ≠ []) :
    (∀ a, readFile (names.map FileName.chars) fs = .ok a → lookup names fs = some a) ∧
    (readFile (names.map FileName.chars) fs = .error .notFound → lookup names fs = none) := by
  obtain ⟨hok, hnone⟩ := openFile_names fs hne
  rw [readFile]
  split
  · next e he =>
      refine ⟨nofun, fun h => hnone ?_⟩
      rw [he, ← Except.error.inj h]
  · next l a ha =>
      refine ⟨?_, nofun⟩
      rintro _ ⟨⟩
      exact (hok l a ha).2

/-- **Removing a file by its names** removes that file and no other. -/
lemma removeFile_names (fs fs' : Fs α) {names : List FileName} (hne : names ≠ []) :
    (removeFile (names.map FileName.chars) fs = .ok fs' → (lookup names fs).isSome ∧
      ∀ q, lookup q fs' = if q = names then none else lookup q fs) ∧
    (removeFile (names.map FileName.chars) fs = .error .notFound → lookup names fs = none) := by
  obtain ⟨hok, hnone⟩ := openFile_names fs hne
  rw [removeFile]
  split
  · next e he =>
      refine ⟨nofun, fun h => hnone ?_⟩
      rw [he, ← Except.error.inj h]
  · next l a ha =>
      obtain ⟨rfl, hfile⟩ := hok l a ha
      split
      · exact ⟨nofun, nofun⟩
      · next fs'' hremove =>
          refine ⟨?_, nofun⟩
          rintro ⟨⟩
          exact ⟨by rw [hfile]; rfl, lookup_remove hremove⟩

end Posix
