import Bole.Lib.Listing
import Bole.Refs.Basic

/-!
The ref backend on disk (`src/refs/disk.rs`): one file for each ref under `refs/`, and a
write-ahead journal under `refs/.txn/` for transactions.

Input and output can fail: a `Fault` names the step of a commit that does.  A step can also
fail by itself, where one name is a path prefix of another.

* `lookup`: the ref a name reads as, which is what `get` returns when it returns a ref;
* `applyEntry_ok_iff`: an entry of a plan is applied exactly when its name can be read;
* `lookup_applyEntry`: what one entry changes;
* `applyPlan_cases`: a plan is applied to its end, or stops at its first failing entry;
* `Applied.lookup`: the entries written have their effect on the map of refs.
-/

namespace Bole

/-- The tree of ref files; a file holds the encoded ref. -/
abbrev RefTree := FileTree.Dir (List Char) Ref

/-- `DiskRefBackend`: the files under `refs/` and the journals under `refs/.txn/`. -/
structure DiskRefBackend where
  refs : RefTree
  journals : List Plan

/-- The error a path operation returns. -/
def ioError : FileTree.PathError → Error
  | .notADirectory => .io .notADirectory
  | .isADirectory => .io .isADirectory
  | .alreadyExists => .io .alreadyExists

namespace RefTree

/-- `get`. -/
def get (t : RefTree) (n : RefName) : Result (Option Ref) :=
  match FileTree.read n.segments t with
  | .ok o => .ok o
  | .error e => .error (ioError e)

/-- `set`. -/
def set (t : RefTree) (n : RefName) (r : Ref) : Result RefTree :=
  match FileTree.write n.segments r t with
  | .ok t => .ok t
  | .error e => .error (ioError e)

/-- `delete`. -/
def delete (t : RefTree) (n : RefName) : Result RefTree :=
  match FileTree.remove n.segments t with
  | .ok t => .ok t
  | .error e => .error (ioError e)

/-- The ref a name reads as. -/
def lookup (t : RefTree) (n : RefName) : Option Ref := FileTree.lookup n.segments t

/-- A file stands on the way to the name, or a directory in its place. -/
def Blocked (t : RefTree) (n : RefName) : Prop := FileTree.Blocked n.segments t

instance (t : RefTree) (n : RefName) : Decidable (t.Blocked n) :=
  inferInstanceAs (Decidable (FileTree.Blocked n.segments t))

/-- The parent directories of a name, as `set` creates them. -/
def mkdirs (t : RefTree) (n : RefName) : RefTree := FileTree.mkdirs n.segments t

/-- One turn of `apply_plan`. -/
def applyEntry (t : RefTree) (e : RefName × Option Ref) : Result RefTree :=
  match e.2 with
  | some r => t.set e.1 r
  | none => t.delete e.1

lemma get_eq_ok {t : RefTree} {n : RefName} {o : Option Ref} (h : t.get n = .ok o) :
    t.lookup n = o := by
  rw [get] at h
  rw [lookup, FileTree.lookup]
  split at h
  · next hr =>
      rw [hr]
      exact Except.ok.inj h
  · cases h

lemma get_of_not_blocked {t : RefTree} {n : RefName} (h : ¬ t.Blocked n) :
    t.get n = .ok (t.lookup n) := by
  rw [get, FileTree.read_eq_ok h]
  rfl

/-- **An entry is applied exactly when its name is not blocked.** -/
lemma applyEntry_ok_iff {t : RefTree} {e : RefName × Option Ref} :
    (∃ t', t.applyEntry e = .ok t') ↔ ¬ t.Blocked e.1 := by
  rw [applyEntry]
  cases he : e.2 with
  | some r =>
      rw [Blocked, ← FileTree.write_ok_iff r]
      dsimp only
      rw [set]
      cases FileTree.write e.1.segments r t <;> simp
  | none =>
      rw [Blocked, ← FileTree.remove_ok_iff]
      dsimp only
      rw [delete]
      cases FileTree.remove e.1.segments t <;> simp

/-- An applied entry writes or unlinks the file of its name. -/
lemma applyEntry_cases {t t' : RefTree} {e : RefName × Option Ref} (h : t.applyEntry e = .ok t') :
    (∃ r, e.2 = some r ∧ FileTree.write e.1.segments r t = .ok t') ∨
      (e.2 = none ∧ FileTree.remove e.1.segments t = .ok t') := by
  rw [applyEntry] at h
  cases he : e.2 with
  | some r =>
      rw [he] at h
      dsimp only at h
      rw [set] at h
      cases hw : FileTree.write e.1.segments r t with
      | error err => simp [hw] at h
      | ok t₁ =>
          obtain rfl : t₁ = t' := by simpa [hw] using h
          exact Or.inl ⟨r, rfl, hw⟩
  | none =>
      rw [he] at h
      dsimp only at h
      rw [delete] at h
      cases hw : FileTree.remove e.1.segments t with
      | error err => simp [hw] at h
      | ok t₁ =>
          obtain rfl : t₁ = t' := by simpa [hw] using h
          exact Or.inr ⟨rfl, rfl⟩

/-- The files after an applied entry. -/
lemma files_applyEntry {t t' : RefTree} {e : RefName × Option Ref} (h : t.applyEntry e = .ok t')
    (p : List (List Char)) :
    FileTree.lookup p t' = if p = e.1.segments then e.2 else FileTree.lookup p t := by
  rcases applyEntry_cases h with ⟨r, he, hw⟩ | ⟨he, hr⟩
  · rw [FileTree.lookup_write hw, he]
  · rw [FileTree.lookup_remove hr, he]

/-- An applied entry changes its own ref and no other. -/
lemma lookup_applyEntry {t t' : RefTree} {e : RefName × Option Ref}
    (h : t.applyEntry e = .ok t') : t'.lookup = Function.update t.lookup e.1 e.2 := by
  funext k
  rw [Function.update_apply, lookup, lookup, files_applyEntry h]
  simp only [RefName.segments_injective.eq_iff]

/-- The directories after an applied entry. -/
lemma isDir_applyEntry {t t' : RefTree} {e : RefName × Option Ref} (h : t.applyEntry e = .ok t')
    (p : List (List Char)) :
    FileTree.IsDir p t' ↔
      FileTree.IsDir p t ∨ (e.2.isSome = true ∧ FileTree.Above p e.1.segments) := by
  rcases applyEntry_cases h with ⟨r, he, hw⟩ | ⟨he, hr⟩
  · simp [FileTree.isDir_write hw, he]
  · simp [FileTree.isDir_remove hr, he]

lemma small_applyEntry {t t' : RefTree} {e : RefName × Option Ref}
    (hsmall : FileTree.Small (.dir t)) (h : t.applyEntry e = .ok t') :
    FileTree.Small (.dir t') := by
  rcases applyEntry_cases h with ⟨r, -, hw⟩ | ⟨-, hr⟩
  · exact FileTree.small_write hsmall hw
  · exact FileTree.small_remove hsmall hr

@[simp] lemma lookup_mkdirs (t : RefTree) (n : RefName) : (t.mkdirs n).lookup = t.lookup := by
  funext k
  exact FileTree.lookup_mkdirs _ _ _

end RefTree

/-! ### Applying a plan -/

/-- The step of a commit at which input or output fails: writing the journal, the write of
the entry with the given index (after its parent directories are created or before), or
removing the journal. -/
inductive Fault where
  | journal
  | entry (i : ℕ) (dirs : Bool)
  | removeJournal
deriving DecidableEq

/-- The error of a failing device. -/
def deviceError : Error := .io .other

/-- What a failing write of an entry leaves. -/
def faulty (t : RefTree) (e : RefName × Option Ref) (dirs : Bool) : RefTree :=
  if dirs ∧ e.2.isSome then t.mkdirs e.1 else t

/-- Whether the device fails at the entry with index `i`, and if so how far it got. -/
def faultAt (fault : Option Fault) (i : ℕ) : Option Bool :=
  match fault with
  | some (.entry j dirs) => if j = i then some dirs else none
  | _ => none

/-- `apply_plan` from the entry with index `i` on, with the tree it leaves. -/
def applyPlan (fault : Option Fault) : Plan → ℕ → RefTree → Result Unit × RefTree
  | [], _, t => (.ok (), t)
  | e :: rest, i, t =>
      match faultAt fault i with
      | some dirs => (.error deviceError, faulty t e dirs)
      | none =>
          match t.applyEntry e with
          | .error err => (.error err, t)
          | .ok t => applyPlan fault rest (i + 1) t

/-- Whether the write of an entry fails: its name is blocked, or the device fails there. -/
def EntryFails (fault : Option Fault) (i : ℕ) (t : RefTree) (e : RefName × Option Ref) : Prop :=
  t.Blocked e.1 ∨ (faultAt fault i).isSome

/-- One turn of the loop. -/
lemma applyPlan_cons (fault : Option Fault) (e : RefName × Option Ref) (rest : Plan) (i : ℕ)
    (t : RefTree) :
    (EntryFails fault i t e ∧ ∃ err t', applyPlan fault (e :: rest) i t = (.error err, t') ∧
        t'.lookup = t.lookup) ∨
      (¬ EntryFails fault i t e ∧ ∃ t', t.applyEntry e = .ok t' ∧
        applyPlan fault (e :: rest) i t = applyPlan fault rest (i + 1) t') := by
  cases hf : faultAt fault i with
  | some dirs =>
      refine Or.inl ⟨Or.inr (by simp [hf]), deviceError, faulty t e dirs, ?_, ?_⟩
      · rw [applyPlan, hf]
      · rw [faulty]
        split_ifs
        · exact RefTree.lookup_mkdirs t e.1
        · rfl
  | none =>
      by_cases hb : t.Blocked e.1
      · refine Or.inl ⟨Or.inl hb, ?_⟩
        cases ha : t.applyEntry e with
        | error err => exact ⟨err, t, by rw [applyPlan, hf, ha], rfl⟩
        | ok t' => exact absurd hb (RefTree.applyEntry_ok_iff.mp ⟨t', ha⟩)
      · refine Or.inr ⟨fun h => h.elim hb (by simp [hf]), ?_⟩
        obtain ⟨t', ht'⟩ := RefTree.applyEntry_ok_iff.mpr hb
        exact ⟨t', ht', by rw [applyPlan, hf, ht']⟩

/-- The trees a plan goes through: `Applied pre i t t'` says that the entries `pre`, the first
of which has index `i`, are all written from `t` and lead to `t'`. -/
inductive Applied (fault : Option Fault) : Plan → ℕ → RefTree → RefTree → Prop where
  | nil (i : ℕ) (t : RefTree) : Applied fault [] i t t
  | cons {e : RefName × Option Ref} {pre : Plan} {i : ℕ} {t t₁ t' : RefTree} :
      ¬ EntryFails fault i t e → t.applyEntry e = .ok t₁ →
      Applied fault pre (i + 1) t₁ t' → Applied fault (e :: pre) i t t'

variable {fault : Option Fault}

lemma Applied.lookup {pre : Plan} {i : ℕ} {t t' : RefTree} (h : Applied fault pre i t t') :
    t'.lookup = RefMap.applyPlan t.lookup pre := by
  induction h with
  | nil i t => rfl
  | cons _ ha _ ih => rw [ih, RefTree.lookup_applyEntry ha]; rfl

/-- Writing every entry is applying the plan. -/
lemma Applied.applyPlan_eq {plan : Plan} {i : ℕ} {t t' : RefTree}
    (h : Applied fault plan i t t') : applyPlan fault plan i t = (.ok (), t') := by
  induction h with
  | nil i t => rw [applyPlan]
  | @cons e pre i t t₁ t' hn ha _ ih =>
      rcases applyPlan_cons fault e pre i t with ⟨hf, -⟩ | ⟨-, t₂, ha', h⟩
      · exact absurd hf hn
      · rw [ha] at ha'
        cases ha'
        rw [h, ih]

/-- **A plan is applied to its end, or stops at an entry that fails** after all the entries
before it were written. -/
theorem applyPlan_cases (fault : Option Fault) (plan : Plan) (i : ℕ) (t : RefTree) :
    (∃ t', Applied fault plan i t t' ∧ applyPlan fault plan i t = (.ok (), t')) ∨
      ∃ pre e post t₁ err t', plan = pre ++ e :: post ∧ Applied fault pre i t t₁ ∧
        EntryFails fault (i + pre.length) t₁ e ∧
        applyPlan fault plan i t = (.error err, t') ∧ t'.lookup = t₁.lookup := by
  induction plan generalizing i t with
  | nil => exact Or.inl ⟨t, .nil i t, by rw [applyPlan]⟩
  | cons e rest ih =>
      rcases applyPlan_cons fault e rest i t with ⟨hf, err, t', h, hl⟩ | ⟨hf, t₁, ha, h⟩
      · exact Or.inr ⟨[], e, rest, t, err, t', rfl, .nil i t, by simpa using hf, h, hl⟩
      · rcases ih (i + 1) t₁ with
          ⟨t', hap, hr⟩ | ⟨pre, e', post, t₂, err, t', rfl, hap, hf', hr, hl⟩
        · exact Or.inl ⟨t', .cons hf ha hap, by rw [h, hr]⟩
        · refine Or.inr
            ⟨e :: pre, e', post, t₂, err, t', rfl, .cons hf ha hap, ?_, by rw [h, hr], hl⟩
          rw [List.length_cons, show i + (pre.length + 1) = i + 1 + pre.length by omega]
          exact hf'

namespace DiskRefBackend

/-! ### Commit and recover -/

/-- `apply_atomic`: journal, apply, remove the journal. -/
def applyAtomic (fault : Option Fault) (d : DiskRefBackend) (plan : Plan) :
    Result Unit × DiskRefBackend :=
  if plan = [] then (.ok (), d)
  else if fault = some .journal then (.error deviceError, d)
  else
    match applyPlan fault plan 0 d.refs with
    | (.error err, t) => (.error err, ⟨t, d.journals ++ [plan]⟩)
    | (.ok (), t) =>
        if fault = some .removeJournal then (.error deviceError, ⟨t, d.journals ++ [plan]⟩)
        else (.ok (), ⟨t, d.journals⟩)

/-- `RefTransaction::commit`, through `RefStore::commit_transaction`. -/
def commit (fault : Option Fault) (d : DiskRefBackend) (ops : List RefOp) :
    Result Unit × DiskRefBackend :=
  match resolve d.refs.get ops with
  | .error e => (.error e, d)
  | .ok plan => d.applyAtomic fault plan

/-- The loop of `recover` over the journals in listing order: each is applied and then
removed. -/
def recoverLoop : List Plan → RefTree → Result Unit × DiskRefBackend
  | [], t => (.ok (), ⟨t, []⟩)
  | plan :: rest, t =>
      match applyPlan none plan 0 t with
      | (.error err, t) => (.error err, ⟨t, plan :: rest⟩)
      | (.ok (), t) => recoverLoop rest t

/-- `recover`, and so `open`: the journals as the directory lists them. -/
def recover (d : DiskRefBackend) : Result Unit × DiskRefBackend :=
  recoverLoop d.journals d.refs

end DiskRefBackend

end Bole
