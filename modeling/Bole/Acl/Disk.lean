import Bole.Object

/-!
The ACL backend on disk and the one in memory (`src/acl/disk.rs`, `src/acl/memory.rs`, and the
defaults of `src/acl/backend.rs`), under any sequence of calls.

On disk an ACL is a file whose name is its glob with three characters escaped, written under a
name that begins with a dot and renamed.  A listing skips the names that begin with a dot.

* `sanitize_injective`: different globs have different files;
* `FilesHold.set`, `FilesHold.delete`: what a call that goes through does to the files of some
  names;
* `AclMirrors`: the files whose names do not begin with a dot hold the ACLs in memory that they
  are named by;
* `disk_acls_agree_iff`: the two backends agree exactly when no ACL that is left has a glob that
  begins with a dot, and no grant was set.
-/

namespace Bole

/-! ### File names -/

/-- `str::replace` of a character. -/
def replaceChar (c : Char) (new : List Char) (s : List Char) : List Char :=
  s.flatMap fun x => if x = c then new else [x]

/-- `sanitize`. -/
def sanitize (s : String) : String :=
  String.ofList (replaceChar '*' ['%', '2', 'A'] (replaceChar '/' ['%', '2', 'F']
    (replaceChar '%' ['%', '2', '5'] s.toList)))

/-- What one character of a glob becomes. -/
def escapeChar (c : Char) : List Char :=
  if c = '%' then ['%', '2', '5']
  else if c = '/' then ['%', '2', 'F']
  else if c = '*' then ['%', '2', 'A']
  else [c]

/-- A name that begins with a dot. -/
def dotted (name : String) : Bool := name.toList.head? == some '.'

lemma toList_sanitize (s : String) : (sanitize s).toList = s.toList.flatMap escapeChar := by
  rw [sanitize, String.toList_ofList, replaceChar, replaceChar, replaceChar, List.flatMap_assoc,
    List.flatMap_assoc]
  congr 1
  funext c
  rw [escapeChar]
  split_ifs with h1 h2 h3 <;> simp [*]

/-- Escapes are told apart by their beginnings. -/
lemma escapeChar_append {c c' : Char} {r r' : List Char}
    (h : escapeChar c ++ r = escapeChar c' ++ r') : c = c' ∧ r = r' := by
  simp only [escapeChar] at h
  split_ifs at h <;> grind

lemma escapeChar_ne_nil (c : Char) : escapeChar c ≠ [] := by
  rw [escapeChar]
  split_ifs <;> simp

/-- **Different globs have different file names.** -/
lemma sanitize_injective : Function.Injective sanitize := by
  have hkey : Function.Injective (List.flatMap escapeChar) := by
    intro a
    induction a with
    | nil =>
        intro b h
        cases b with
        | nil => rfl
        | cons y ys => simp [escapeChar_ne_nil] at h
    | cons x xs ih =>
        intro b h
        cases b with
        | nil => simp [escapeChar_ne_nil] at h
        | cons y ys =>
            obtain ⟨rfl, hrest⟩ := escapeChar_append h
            rw [ih hrest]
  intro a b h
  refine String.toList_injective (hkey ?_)
  rw [← toList_sanitize, ← toList_sanitize, h]

/-- A file name begins with a dot when its glob does. -/
lemma dotted_sanitize (s : String) : dotted (sanitize s) = dotted s := by
  rw [dotted, dotted, toList_sanitize]
  cases s.toList with
  | nil => rfl
  | cons c rest =>
      rw [List.flatMap_cons, escapeChar]
      split_ifs with h1 h2 h3 <;> simp [*]

/-! ### One directory -/

/-- The files of a directory; a file holds the encoded ACL, which is its glob. -/
abbrev AclFiles := BTreeMap String String

/-- The order in which a directory or a hash map lists what it has. -/
structure ListingOrder where
  arrange : List String → List String
  perm : ∀ l, (arrange l).Perm l

/-- `atomic_write`: the temporary file takes the place of whatever has its name, and is gone
when it is renamed.  The empty name and `.` lead to the directory itself, and `..` has no file
name to `unwrap`. -/
def atomicWrite (dir : AclFiles) (name acl : String) : Result AclFiles :=
  if name = ".." then .error (.panic "called `Option::unwrap()` on a `None` value")
  else if '\x00' ∈ name.toList then .error (.io .other)
  else if name = "" ∨ name = "." then .error (.io .isADirectory)
  else .ok ((dir.erase ("." ++ name ++ ".tmp")).insert name acl)

/-- `fs::remove_file`, where a missing file is a success. -/
def removeFile (dir : AclFiles) (name : String) : Result AclFiles :=
  if '\x00' ∈ name.toList then .error (.io .other)
  else if name = "" ∨ name = "." ∨ name = ".." then .error (.io .isADirectory)
  else .ok (dir.erase name)

/-- `list_dir`. -/
def listDir (order : ListingOrder) (dir : AclFiles) : List String :=
  (order.arrange dir.keys).filterMap fun name => if dotted name then none else dir[name]?

lemma dotted_tmp (name : String) : dotted ("." ++ name ++ ".tmp") = true := by
  simp [dotted]

/-- What a write that goes through leaves under a name. -/
lemma getElem?_atomicWrite {dir dir' : AclFiles} {name acl : String}
    (h : atomicWrite dir name acl = .ok dir') (k : String) :
    dir'[k]? = if name = k then some acl else if "." ++ name ++ ".tmp" = k then none
      else dir[k]? := by
  rw [atomicWrite] at h
  split_ifs at h
  cases h
  rw [Std.ExtTreeMap.getElem?_insert, Std.ExtTreeMap.getElem?_erase]
  simp

lemma getElem?_removeFile {dir dir' : AclFiles} {name : String}
    (h : removeFile dir name = .ok dir') (k : String) :
    dir'[k]? = if name = k then none else dir[k]? := by
  rw [removeFile] at h
  split_ifs at h
  cases h
  rw [Std.ExtTreeMap.getElem?_erase]
  simp

/-! ### The backends -/

/-- `TimelineAcl`. -/
structure TimelineAcl where
  pattern : String
deriving DecidableEq

/-- `SecretAcl`. -/
structure SecretAcl where
  name : String
deriving DecidableEq

/-- `DiskAclBackend`: the directories `paths`, `timelines` and `secrets`. -/
structure DiskAclBackend where
  files : ResourceKind → AclFiles

namespace DiskAclBackend

/-- `open` of an empty directory. -/
def new : DiskAclBackend := ⟨fun _ => ∅⟩

/-- Setting an ACL of some kind. -/
def setAcl (d : DiskAclBackend) (kind : ResourceKind) (glob : String) : Result DiskAclBackend := do
  let dir ← atomicWrite (d.files kind) (sanitize glob) glob
  .ok ⟨Function.update d.files kind dir⟩

/-- Deleting an ACL of some kind. -/
def deleteAcl (d : DiskAclBackend) (kind : ResourceKind) (glob : String) :
    Result DiskAclBackend := do
  let dir ← removeFile (d.files kind) (sanitize glob)
  .ok ⟨Function.update d.files kind dir⟩

/-- The globs of the ACLs of some kind. -/
def listAcls (d : DiskAclBackend) (order : ListingOrder) (kind : ResourceKind) : List String :=
  listDir order (d.files kind)

/-- `set_path_acl`. -/
def setPathAcl (d : DiskAclBackend) (acl : PathAcl) : Result DiskAclBackend :=
  d.setAcl .path acl.glob

/-- `delete_path_acl`. -/
def deletePathAcl (d : DiskAclBackend) (glob : String) : Result DiskAclBackend :=
  d.deleteAcl .path glob

/-- `set_timeline_acl`. -/
def setTimelineAcl (d : DiskAclBackend) (acl : TimelineAcl) : Result DiskAclBackend :=
  d.setAcl .timeline acl.pattern

/-- `delete_timeline_acl`. -/
def deleteTimelineAcl (d : DiskAclBackend) (pattern : String) : Result DiskAclBackend :=
  d.deleteAcl .timeline pattern

/-- `set_secret_acl`. -/
def setSecretAcl (d : DiskAclBackend) (acl : SecretAcl) : Result DiskAclBackend :=
  d.setAcl .secret acl.name

/-- `delete_secret_acl`. -/
def deleteSecretAcl (d : DiskAclBackend) (name : String) : Result DiskAclBackend :=
  d.deleteAcl .secret name

/-- `set_grant` of the trait. -/
def setGrant (d : DiskAclBackend) (_grant : ClearanceGrant) : Result DiskAclBackend := .ok d

/-- `get_grant` of the trait. -/
def getGrant (_d : DiskAclBackend) (_actor : String) : Option ClearanceGrant := none

/-- `get_label_ruleset` of the trait. -/
def getLabelRuleset (d : DiskAclBackend) (order : ListingOrder) : LabelRuleSet :=
  derivedRules (d.listAcls order .path) (d.listAcls order .timeline) (d.listAcls order .secret)

end DiskAclBackend

/-- `MemoryAclBackend`. -/
structure MemoryAclBackend where
  acls : ResourceKind → BTreeMap String String
  grants : BTreeMap String ClearanceGrant

namespace MemoryAclBackend

/-- `new`. -/
def new : MemoryAclBackend := ⟨fun _ => ∅, ∅⟩

/-- Setting an ACL of some kind. -/
def setAcl (m : MemoryAclBackend) (kind : ResourceKind) (glob : String) : MemoryAclBackend :=
  { m with acls := Function.update m.acls kind ((m.acls kind).insert glob glob) }

/-- Deleting an ACL of some kind. -/
def deleteAcl (m : MemoryAclBackend) (kind : ResourceKind) (glob : String) : MemoryAclBackend :=
  { m with acls := Function.update m.acls kind ((m.acls kind).erase glob) }

/-- The globs of the ACLs of some kind. -/
def listAcls (m : MemoryAclBackend) (order : ListingOrder) (kind : ResourceKind) : List String :=
  (order.arrange (m.acls kind).keys).filterMap fun glob => (m.acls kind)[glob]?

/-- `set_grant`. -/
def setGrant (m : MemoryAclBackend) (grant : ClearanceGrant) : MemoryAclBackend :=
  { m with grants := m.grants.insert grant.actor grant }

/-- `get_grant`. -/
def getGrant (m : MemoryAclBackend) (actor : String) : Option ClearanceGrant := m.grants[actor]?

/-- `get_label_ruleset` of the trait. -/
def getLabelRuleset (m : MemoryAclBackend) (order : ListingOrder) : LabelRuleSet :=
  derivedRules (m.listAcls order .path) (m.listAcls order .timeline) (m.listAcls order .secret)

end MemoryAclBackend

/-! ### Calls -/

/-- A call that changes a backend. -/
inductive AclCall where
  | set (kind : ResourceKind) (glob : String)
  | delete (kind : ResourceKind) (glob : String)
  | setGrant (grant : ClearanceGrant)
deriving DecidableEq

/-- One call on disk. -/
def DiskAclBackend.call (d : DiskAclBackend) : AclCall → Result DiskAclBackend
  | .set .path glob => d.setPathAcl ⟨glob⟩
  | .set .timeline pattern => d.setTimelineAcl ⟨pattern⟩
  | .set .secret name => d.setSecretAcl ⟨name⟩
  | .delete .path glob => d.deletePathAcl glob
  | .delete .timeline pattern => d.deleteTimelineAcl pattern
  | .delete .secret name => d.deleteSecretAcl name
  | .setGrant grant => d.setGrant grant

lemma DiskAclBackend.call_set {d : DiskAclBackend} {kind : ResourceKind} {glob : String} :
    d.call (.set kind glob) = d.setAcl kind glob := by
  cases kind <;> rfl

lemma DiskAclBackend.call_delete {d : DiskAclBackend} {kind : ResourceKind} {glob : String} :
    d.call (.delete kind glob) = d.deleteAcl kind glob := by
  cases kind <;> rfl

/-- The backend after calls that all return `Ok`. -/
def DiskAclBackend.run : List AclCall → DiskAclBackend → Result DiskAclBackend
  | [], d => .ok d
  | c :: rest, d => do
      let d ← d.call c
      run rest d

/-- One call in memory, which always returns `Ok`. -/
def MemoryAclBackend.call (m : MemoryAclBackend) : AclCall → MemoryAclBackend
  | .set kind glob => m.setAcl kind glob
  | .delete kind glob => m.deleteAcl kind glob
  | .setGrant grant => m.setGrant grant

def MemoryAclBackend.run (calls : List AclCall) (m : MemoryAclBackend) : MemoryAclBackend :=
  calls.foldl MemoryAclBackend.call m

/-! ### What is left -/

/-- The ACLs that are set and not deleted since. -/
def liveAcls (calls : List AclCall) (live : Finset (ResourceKind × String)) :
    Finset (ResourceKind × String) :=
  calls.foldl (fun live c => match c with
    | .set kind glob => insert (kind, glob) live
    | .delete kind glob => live.erase (kind, glob)
    | .setGrant _ => live) live

/-- The backends agree: the listings and the rules have the same members in some order, and the
grants are the same. -/
def AclsAgree (d : DiskAclBackend) (m : MemoryAclBackend) : Prop :=
  ∀ order order' : ListingOrder,
    (∀ kind, (d.listAcls order kind).Perm (m.listAcls order' kind)) ∧
      (d.getLabelRuleset order).rules.Perm (m.getLabelRuleset order').rules ∧
      ∀ actor, d.getGrant actor = m.getGrant actor

/-- The files whose names are in `P` are those of the ACLs that are left. -/
def FilesHold (P : String → Prop) (d : DiskAclBackend)
    (live : Finset (ResourceKind × String)) : Prop :=
  ∀ kind name c, P name →
    ((d.files kind)[name]? = some c ↔ sanitize c = name ∧ (kind, c) ∈ live)

namespace FilesHold

variable {P : String → Prop} {d d' : DiskAclBackend} {live : Finset (ResourceKind × String)}
  {kind : ResourceKind} {glob : String}

lemma new (P : String → Prop) : FilesHold P .new ∅ := by
  intro kind name c _
  simp [DiskAclBackend.new]

/-- A write keeps the files unless its temporary file is one of them. -/
lemma set (h : FilesHold P d live) (hset : d.setAcl kind glob = .ok d')
    (htmp : ∀ c, sanitize c = "." ++ sanitize glob ++ ".tmp" → P (sanitize c) →
      (kind, c) ∉ live) : FilesHold P d' (insert (kind, glob) live) := by
  rw [DiskAclBackend.setAcl, Result.bind_eq_ok] at hset
  obtain ⟨dir, hwrite, hset⟩ := hset
  cases hset
  intro k name c hname
  dsimp only
  by_cases hk : k = kind
  · subst hk
    rw [Function.update_self, getElem?_atomicWrite hwrite]
    simp only [Finset.mem_insert, Prod.mk.injEq, true_and]
    split_ifs with hg ht
    · subst hg
      rw [Option.some.injEq, sanitize_injective.eq_iff]
      constructor
      · rintro rfl
        exact ⟨rfl, Or.inl rfl⟩
      · exact fun hc => hc.1.symm
    · refine iff_of_false (by simp) ?_
      rintro ⟨rfl, rfl | hlive⟩
      · exact hg rfl
      · exact htmp c ht.symm hname hlive
    · rw [h k name c hname]
      refine and_congr_right fun hc => ?_
      rw [or_iff_right]
      rintro rfl
      exact hg hc
  · rw [Function.update_of_ne hk, h k name c hname]
    simp [hk]

lemma delete (h : FilesHold P d live) (hdel : d.deleteAcl kind glob = .ok d') :
    FilesHold P d' (live.erase (kind, glob)) := by
  rw [DiskAclBackend.deleteAcl, Result.bind_eq_ok] at hdel
  obtain ⟨dir, hremove, hdel⟩ := hdel
  cases hdel
  intro k name c hname
  dsimp only
  by_cases hk : k = kind
  · subst hk
    rw [Function.update_self, getElem?_removeFile hremove]
    simp only [Finset.mem_erase, ne_eq, Prod.mk.injEq, true_and]
    split_ifs with hg
    · subst hg
      refine iff_of_false (by simp) ?_
      rintro ⟨hc, hne, -⟩
      exact hne (sanitize_injective hc)
    · rw [h k name c hname]
      refine and_congr_right fun hc => ?_
      rw [and_iff_right]
      rintro rfl
      exact hg hc
  · rw [Function.update_of_ne hk, h k name c hname]
    simp [hk]

end FilesHold

/-- The disk holds what is in memory as far as a listing shows it. -/
structure AclMirrors (d : DiskAclBackend) (m : MemoryAclBackend)
    (live : Finset (ResourceKind × String)) : Prop where
  acls : ∀ kind g c, (m.acls kind)[g]? = some c ↔ c = g ∧ (kind, g) ∈ live
  files : ∀ kind name c, dotted name = false →
    ((d.files kind)[name]? = some c ↔ sanitize c = name ∧ (kind, c) ∈ live)

namespace AclMirrors

variable {d d' : DiskAclBackend} {m : MemoryAclBackend} {live : Finset (ResourceKind × String)}
  {kind : ResourceKind} {glob : String}

lemma new : AclMirrors .new .new ∅ where
  acls kind g c := by simp [MemoryAclBackend.new]
  files := FilesHold.new _

lemma set (h : AclMirrors d m live) (hset : d.setAcl kind glob = .ok d') :
    AclMirrors d' (m.setAcl kind glob) (insert (kind, glob) live) := by
  refine ⟨fun k g c => ?_, FilesHold.set h.files hset fun c hc hdot _ => ?_⟩
  · dsimp only [MemoryAclBackend.setAcl]
    by_cases hk : k = kind
    · subst hk
      rw [Function.update_self, Std.ExtTreeMap.getElem?_insert]
      simp only [Std.LawfulEqOrd.compare_eq_iff_eq, Finset.mem_insert, Prod.mk.injEq, true_and]
      split_ifs with hg
      · subst hg
        simp [eq_comm]
      · rw [h.acls]
        simp [Ne.symm hg]
    · rw [Function.update_of_ne hk, h.acls]
      simp [hk]
  · rw [hc, dotted_tmp] at hdot
    cases hdot

lemma delete (h : AclMirrors d m live) (hdel : d.deleteAcl kind glob = .ok d') :
    AclMirrors d' (m.deleteAcl kind glob) (live.erase (kind, glob)) := by
  refine ⟨fun k g c => ?_, FilesHold.delete h.files hdel⟩
  dsimp only [MemoryAclBackend.deleteAcl]
  by_cases hk : k = kind
  · subst hk
    rw [Function.update_self, Std.ExtTreeMap.getElem?_erase]
    simp only [Std.LawfulEqOrd.compare_eq_iff_eq, Finset.mem_erase, ne_eq, Prod.mk.injEq, true_and]
    split_ifs with hg
    · simp [hg]
    · rw [h.acls]
      simp [Ne.symm hg]
  · rw [Function.update_of_ne hk, h.acls]
    simp [hk]

/-- **A call** that returns `Ok` keeps it so. -/
lemma call (h : AclMirrors d m live) {c : AclCall} (hcall : d.call c = .ok d') :
    AclMirrors d' (m.call c) (liveAcls [c] live) := by
  cases c with
  | set kind glob => exact h.set (DiskAclBackend.call_set.symm.trans hcall)
  | delete kind glob => exact h.delete (DiskAclBackend.call_delete.symm.trans hcall)
  | setGrant grant =>
      obtain rfl : d = d' := Except.ok.inj hcall
      exact ⟨h.acls, h.files⟩

/-- **So does a sequence of calls.** -/
lemma run (h : AclMirrors d m live) {calls : List AclCall} (hrun : d.run calls = .ok d') :
    AclMirrors d' (m.run calls) (liveAcls calls live) := by
  induction calls generalizing d m live with
  | nil =>
      obtain rfl : d = d' := Except.ok.inj hrun
      exact h
  | cons c rest ih =>
      rw [DiskAclBackend.run, Result.bind_eq_ok] at hrun
      obtain ⟨d₁, hcall, hrun⟩ := hrun
      exact ih (h.call hcall) hrun

/-! ### Listings -/

lemma mem_memory (h : AclMirrors d m live) (order : ListingOrder) {c : String} :
    c ∈ m.listAcls order kind ↔ (kind, c) ∈ live := by
  simp only [MemoryAclBackend.listAcls, List.mem_filterMap, (order.perm _).mem_iff, h.acls,
    Std.ExtTreeMap.mem_keys, Std.ExtTreeMap.mem_iff_isSome_getElem?, Option.isSome_iff_exists]
  constructor
  · rintro ⟨g, -, rfl, hlive⟩
    exact hlive
  · exact fun hlive => ⟨c, ⟨c, rfl, hlive⟩, rfl, hlive⟩

/-- A listing of the disk has the ACLs whose globs do not begin with a dot. -/
lemma mem_disk (h : AclMirrors d m live) (order : ListingOrder) {c : String} :
    c ∈ d.listAcls order kind ↔ (kind, c) ∈ live ∧ dotted c = false := by
  simp only [DiskAclBackend.listAcls, listDir, List.mem_filterMap, (order.perm _).mem_iff,
    Std.ExtTreeMap.mem_keys, Std.ExtTreeMap.mem_iff_isSome_getElem?, Option.isSome_iff_exists]
  constructor
  · rintro ⟨name, -, hname⟩
    split_ifs at hname with hdot
    have hdot' : dotted name = false := by simpa using hdot
    obtain ⟨rfl, hlive⟩ := (h.files kind name c hdot').mp hname
    exact ⟨hlive, by rwa [dotted_sanitize] at hdot'⟩
  · rintro ⟨hlive, hdot⟩
    have hname : dotted (sanitize c) = false := by rwa [dotted_sanitize]
    have hfile := (h.files kind _ c hname).mpr ⟨rfl, hlive⟩
    exact ⟨sanitize c, ⟨c, hfile⟩, by simpa [hname] using hfile⟩

lemma nodup_memory (h : AclMirrors d m live) (order : ListingOrder) (kind : ResourceKind) :
    (m.listAcls order kind).Nodup := by
  refine List.Nodup.filterMap (fun g g' c hg hg' => ?_)
    ((order.perm _).nodup_iff.mpr Std.ExtTreeMap.nodup_keys)
  rw [← ((h.acls kind g c).mp hg).1, ((h.acls kind g' c).mp hg').1]

lemma nodup_disk (h : AclMirrors d m live) (order : ListingOrder) (kind : ResourceKind) :
    (d.listAcls order kind).Nodup := by
  refine List.Nodup.filterMap (fun name name' c hname hname' => ?_)
    ((order.perm _).nodup_iff.mpr Std.ExtTreeMap.nodup_keys)
  have hfile : ∀ k, c ∈ (if dotted k then none else (d.files kind)[k]?) → sanitize c = k := by
    intro k hk
    split_ifs at hk with hdot
    · cases hk
    · exact ((h.files kind k c (by simpa using hdot)).mp hk).1
  rw [← hfile name hname, hfile name' hname']

lemma perm_iff (h : AclMirrors d m live) (order order' : ListingOrder) (kind : ResourceKind) :
    (d.listAcls order kind).Perm (m.listAcls order' kind) ↔
      ∀ glob, (kind, glob) ∈ live → dotted glob = false := by
  rw [List.perm_ext_iff_of_nodup (h.nodup_disk order kind) (h.nodup_memory order' kind)]
  simp only [h.mem_disk, h.mem_memory, and_iff_left_iff_imp]

end AclMirrors

lemma perm_derivedRules {ps ps' ts ts' ss ss' : List String} (hp : ps.Perm ps') (ht : ts.Perm ts')
    (hs : ss.Perm ss') : (derivedRules ps ts ss).rules.Perm (derivedRules ps' ts' ss').rules :=
  ((hp.map _).append (ht.map _)).append (hs.map _)

/-- There are no grants in memory when none was set. -/
lemma getGrant_run (calls : List AclCall) (m : MemoryAclBackend) :
    (∀ actor, (m.run calls).getGrant actor = none) ↔
      (∀ actor, m.getGrant actor = none) ∧ ∀ grant, .setGrant grant ∉ calls := by
  induction calls generalizing m with
  | nil => simp [MemoryAclBackend.run]
  | cons c rest ih =>
      rw [MemoryAclBackend.run, List.foldl_cons, ← MemoryAclBackend.run, ih]
      cases c with
      | set kind glob =>
          simp [MemoryAclBackend.call, MemoryAclBackend.getGrant, MemoryAclBackend.setAcl]
      | delete kind glob =>
          simp [MemoryAclBackend.call, MemoryAclBackend.getGrant, MemoryAclBackend.deleteAcl]
      | setGrant grant =>
          have hsome : ((m.setGrant grant).getGrant grant.actor).isSome = true := by
            simp [MemoryAclBackend.getGrant, MemoryAclBackend.setGrant]
          constructor
          · rintro ⟨hnone, -⟩
            rw [MemoryAclBackend.call, hnone] at *
            cases hsome
          · rintro ⟨-, hno⟩
            exact absurd (List.mem_cons_self ..) (hno grant)

/-- **The backends agree** after calls that all return `Ok` exactly when no ACL that is left has a
glob that begins with a dot, and no grant was set. -/
theorem disk_acls_agree_iff {calls : List AclCall} {d : DiskAclBackend}
    (h : DiskAclBackend.new.run calls = .ok d) :
    AclsAgree d (MemoryAclBackend.new.run calls) ↔
      (∀ kind glob, (kind, glob) ∈ liveAcls calls ∅ → dotted glob = false) ∧
        ∀ grant, .setGrant grant ∉ calls := by
  have hmirrors := AclMirrors.new.run h
  have hgrants := getGrant_run calls .new
  rw [and_iff_right fun actor => by simp [MemoryAclBackend.new, MemoryAclBackend.getGrant]]
    at hgrants
  rw [← hgrants]
  constructor
  · intro hagree
    obtain ⟨hlist, -, hgrant⟩ := hagree ⟨id, fun _ => .refl _⟩ ⟨id, fun _ => .refl _⟩
    exact ⟨fun kind => (hmirrors.perm_iff _ _ kind).mp (hlist kind), fun actor =>
      (hgrant actor).symm⟩
  · rintro ⟨hdots, hnone⟩ order order'
    have hlist := fun kind => (hmirrors.perm_iff order order' kind).mpr (hdots kind)
    refine ⟨hlist, perm_derivedRules (hlist _) (hlist _) (hlist _), fun actor => ?_⟩
    rw [hnone actor]
    rfl

/-- An ACL of each kind, one of which is deleted again. -/
def plainCalls : List AclCall :=
  [.set .path "secrets/**", .set .timeline "release/*", .set .secret "db",
    .delete .timeline "release/*"]

/-- These backends agree. -/
theorem disk_acls_agree_plain :
    ∃ d, DiskAclBackend.new.run plainCalls = .ok d ∧
      AclsAgree d (MemoryAclBackend.new.run plainCalls) := by
  have hok : (DiskAclBackend.new.run plainCalls).toOption.isSome = true := by decide +kernel
  obtain ⟨d, hd⟩ := exists_of_isOk hok
  refine ⟨d, hd, (disk_acls_agree_iff hd).mpr ⟨?_, ?_⟩⟩
  · have hlive : ∀ p ∈ liveAcls plainCalls ∅, dotted p.2 = false := by decide +kernel
    exact fun kind glob hmem => hlive (kind, glob) hmem
  · intro grant
    simp [plainCalls]

/-- A glob that begins with a dot. -/
def dottedCalls : List AclCall := [.set .path ".env/**"]

/-- **An ACL that is set and not listed.** -/
theorem dotted_acl_lost :
    ∃ d, DiskAclBackend.new.run dottedCalls = .ok d ∧
      d.listAcls ⟨id, fun _ => .refl _⟩ .path = [] ∧
      (MemoryAclBackend.new.run dottedCalls).listAcls ⟨id, fun _ => .refl _⟩ .path = [".env/**"] ∧
      ¬ AclsAgree d (MemoryAclBackend.new.run dottedCalls) := by
  have hdisk : ((DiskAclBackend.new.run dottedCalls).map
      fun d => d.listAcls ⟨id, fun _ => .refl _⟩ .path) = .ok [] := by decide +kernel
  have hmemory : (MemoryAclBackend.new.run dottedCalls).listAcls ⟨id, fun _ => .refl _⟩ .path =
      [".env/**"] := by decide +kernel
  cases hd : DiskAclBackend.new.run dottedCalls with
  | error e =>
      rw [hd] at hdisk
      cases hdisk
  | ok d =>
      rw [hd] at hdisk
      have hlist : d.listAcls ⟨id, fun _ => .refl _⟩ .path = [] := Except.ok.inj hdisk
      refine ⟨d, rfl, hlist, hmemory, fun hagree => ?_⟩
      have hperm := (hagree ⟨id, fun _ => .refl _⟩ ⟨id, fun _ => .refl _⟩).1 .path
      rw [hlist, hmemory] at hperm
      exact absurd hperm.length_eq (by simp)

end Bole
