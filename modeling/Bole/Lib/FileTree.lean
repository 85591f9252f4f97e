import Mathlib.Logic.Function.Basic
import Mathlib.Tactic

/-!
A file tree with the path operations of a POSIX file system, over arbitrary segments and
contents: reading a file, replacing a file by rename after creating its parent directories,
unlinking a file, and creating the parents alone.

A path is blocked when one of its proper prefixes is a file or when it is itself a directory.

* `dir_induction`: induction over the directories inside a directory;
* `write_ok_iff`, `remove_ok_iff`: writing and unlinking succeed exactly where reading does;
* `lookup_write`, `lookup_remove`: what each of them changes, over all paths;
* `lookup_mkdirs`: creating directories changes no file;
* `lookup_removeTree`: removing a directory removes the files below it and no others.
-/

namespace FileTree

/-- A file with contents, or a directory. -/
inductive Node (κ α : Type) where
  | file (a : α)
  | dir (entries : κ → Option (Node κ α))

/-- The entries of a directory. -/
abbrev Dir (κ α : Type) := κ → Option (Node κ α)

/-- Why a path operation fails. -/
inductive PathError where
  | notADirectory
  | isADirectory
  | alreadyExists
deriving DecidableEq, Repr

variable {κ α : Type}

/-- Induction over the directories inside a directory. -/
theorem dir_induction {P : Dir κ α → Prop}
    (h : ∀ d : Dir κ α, (∀ x e, d x = some (.dir e) → P e) → P d) (d : Dir κ α) : P d := by
  have hnode : ∀ node : Node κ α, ∀ e, node = .dir e → P e := by
    refine @Node.rec κ α (fun node => ∀ e, node = .dir e → P e)
      (fun o => ∀ node, o = some node → ∀ e, node = .dir e → P e) ?_ ?_ ?_ ?_
    · intro a e he
      cases he
    · intro entries ih e he
      cases he
      exact h entries fun x e hx => ih x _ hx e rfl
    · intro node hnode
      cases hnode
    · intro node ih node' hnode
      cases hnode
      exact ih
  exact hnode (.dir d) d rfl

/-- The directory with no entries. -/
def emptyDir : Dir κ α := fun _ => none

/-- Reading a file: `none` when nothing is there. -/
@[grind] def read : List κ → Dir κ α → Except PathError (Option α)
  | [], _ => .error .isADirectory
  | [x], d =>
      match d x with
      | none => .ok none
      | some (.file a) => .ok (some a)
      | some (.dir _) => .error .isADirectory
  | x :: y :: rest, d =>
      match d x with
      | none => .ok none
      | some (.file _) => .error .notADirectory
      | some (.dir e) => read (y :: rest) e

/-- The file at a path, if there is one. -/
def lookup (p : List κ) (d : Dir κ α) : Option α :=
  match read p d with
  | .ok o => o
  | .error _ => none

/-- The path cannot be read, written or unlinked. -/
def Blocked (p : List κ) (d : Dir κ α) : Prop := ∃ e, read p d = .error e

instance (p : List κ) (d : Dir κ α) : Decidable (Blocked p d) :=
  match h : read p d with
  | .ok _ => .isFalse (by rintro ⟨e, he⟩; rw [h] at he; cases he)
  | .error e => .isTrue ⟨e, h⟩

lemma read_eq_ok {p : List κ} {d : Dir κ α} (h : ¬ Blocked p d) :
    read p d = .ok (lookup p d) := by
  rw [lookup]
  cases hr : read p d with
  | ok o => rfl
  | error e => exact absurd ⟨e, hr⟩ h

/-! ### One segment at a time -/

lemma read_cons_dir {x y : κ} {rest : List κ} {d e : Dir κ α} (h : d x = some (.dir e)) :
    read (x :: y :: rest) d = read (y :: rest) e := by
  simp [read, h]

lemma read_cons_none {x y : κ} {rest : List κ} {d : Dir κ α} (h : d x = none) :
    read (x :: y :: rest) d = .ok none := by
  simp [read, h]

@[simp] lemma lookup_emptyDir (p : List κ) : lookup p (emptyDir : Dir κ α) = none := by
  rcases p with _ | ⟨x, _ | ⟨y, rest⟩⟩ <;> rfl

lemma lookup_cons_dir {x y : κ} {rest : List κ} {d e : Dir κ α} (h : d x = some (.dir e)) :
    lookup (x :: y :: rest) d = lookup (y :: rest) e := by
  rw [lookup, lookup, read_cons_dir h]

variable [DecidableEq κ]

/-- Creating the parent directories and renaming a file into place. -/
@[grind] def write : List κ → α → Dir κ α → Except PathError (Dir κ α)
  | [], _, _ => .error .isADirectory
  | [x], a, d =>
      match d x with
      | some (.dir _) => .error .isADirectory
      | _ => .ok (Function.update d x (some (.file a)))
  | x :: y :: rest, a, d =>
      match d x with
      | some (.file _) => .error (if rest.isEmpty then .alreadyExists else .notADirectory)
      | some (.dir e) =>
          match write (y :: rest) a e with
          | .error err => .error err
          | .ok e' => .ok (Function.update d x (some (.dir e')))
      | none =>
          match write (y :: rest) a emptyDir with
          | .error err => .error err
          | .ok e' => .ok (Function.update d x (some (.dir e')))

/-- Unlinking a file; nothing to unlink is a success. -/
@[grind] def remove : List κ → Dir κ α → Except PathError (Dir κ α)
  | [], _ => .error .isADirectory
  | [x], d =>
      match d x with
      | none => .ok d
      | some (.file _) => .ok (Function.update d x none)
      | some (.dir _) => .error .isADirectory
  | x :: y :: rest, d =>
      match d x with
      | none => .ok d
      | some (.file _) => .error .notADirectory
      | some (.dir e) =>
          match remove (y :: rest) e with
          | .error err => .error err
          | .ok e' => .ok (Function.update d x (some (.dir e')))

/-- Creating the parent directories of a path, as far as no file is in the way. -/
@[grind] def mkdirs : List κ → Dir κ α → Dir κ α
  | [], d => d
  | [_], d => d
  | x :: y :: rest, d =>
      match d x with
      | some (.file _) => d
      | some (.dir e) => Function.update d x (some (.dir (mkdirs (y :: rest) e)))
      | none => Function.update d x (some (.dir (mkdirs (y :: rest) emptyDir)))

/-- Removing a directory with everything in it; anything else is left. -/
@[grind] def removeTree : List κ → Dir κ α → Dir κ α
  | [], d => d
  | [x], d =>
      match d x with
      | some (.dir _) => Function.update d x none
      | _ => d
  | x :: y :: rest, d =>
      match d x with
      | some (.dir e) => Function.update d x (some (.dir (removeTree (y :: rest) e)))
      | _ => d

/-- Paths that start elsewhere do not see a change of one entry. -/
lemma lookup_update_ne {x z : κ} {rest : List κ} {d : Dir κ α} {n : Option (Node κ α)}
    (h : z ≠ x) : lookup (z :: rest) (Function.update d x n) = lookup (z :: rest) d := by
  have hz : Function.update d x n z = d z := Function.update_of_ne h n d
  cases rest with
  | nil => simp [lookup, read, hz]
  | cons y rest => simp [lookup, read, hz]

/-- A change from one directory to another, seen from below: a longer path sees the change of
the directory, and the entry itself is no file before and after. -/
lemma lookup_update_dir {x : κ} {d e : Dir κ α} (rest : List κ) (e' : Dir κ α)
    (hx : d x = some (.dir e) ∨ (d x = none ∧ e = emptyDir)) :
    lookup (x :: rest) (Function.update d x (some (.dir e'))) =
        (if rest = [] then none else lookup rest e') ∧
      lookup (x :: rest) d = if rest = [] then none else lookup rest e := by
  have hu : Function.update d x (some (Node.dir e')) x = some (.dir e') :=
    Function.update_self x _ d
  cases rest with
  | nil =>
      rcases hx with hx | ⟨hx, -⟩
      · simp [lookup, read, hx]
      · simp [lookup, read, hx]
  | cons y rest =>
      refine ⟨by simp [lookup_cons_dir hu], ?_⟩
      rcases hx with hx | ⟨hx, rfl⟩
      · simp [lookup_cons_dir hx]
      · rw [if_neg (by simp), lookup_emptyDir, lookup, read_cons_none hx]

/-! ### The operations -/

/-- A write below the first segment goes into a directory, perhaps a new one. -/
lemma write_cons {x y : κ} {rest : List κ} {a : α} {d d' : Dir κ α}
    (h : write (x :: y :: rest) a d = .ok d') :
    ∃ e e', (d x = some (.dir e) ∨ (d x = none ∧ e = emptyDir)) ∧
      write (y :: rest) a e = .ok e' ∧ d' = Function.update d x (some (.dir e')) := by
  cases hx : d x with
  | none =>
      cases hw : write (y :: rest) a emptyDir with
      | error err => simp [write, hx, hw] at h
      | ok e' =>
          exact ⟨emptyDir, e', Or.inr ⟨rfl, rfl⟩, hw, by simpa [write, hx, hw, eq_comm] using h⟩
  | some n =>
      cases n with
      | file b => simp [write, hx] at h
      | dir e =>
          cases hw : write (y :: rest) a e with
          | error err => simp [write, hx, hw] at h
          | ok e' => exact ⟨e, e', Or.inl rfl, hw, by simpa [write, hx, hw, eq_comm] using h⟩

lemma write_single {x : κ} {a : α} {d d' : Dir κ α} (h : write [x] a d = .ok d') :
    (∀ e, d x ≠ some (.dir e)) ∧ d' = Function.update d x (some (.file a)) := by
  rw [write] at h
  split at h
  · cases h
  · next hno => exact ⟨hno, (Except.ok.inj h).symm⟩

/-- An unlink changes nothing, drops a file or goes into a directory. -/
lemma remove_cons {x : κ} {rest : List κ} {d d' : Dir κ α} (h : remove (x :: rest) d = .ok d') :
    (d x = none ∧ d' = d) ∨
      (rest = [] ∧ (∃ a, d x = some (.file a)) ∧ d' = Function.update d x none) ∨
      ∃ e e', d x = some (.dir e) ∧ remove rest e = .ok e' ∧
        d' = Function.update d x (some (.dir e')) := by
  cases rest with
  | nil =>
      rw [remove] at h
      cases hx : d x with
      | none => exact Or.inl ⟨rfl, by simpa [hx, eq_comm] using h⟩
      | some n =>
          cases n with
          | file b => exact Or.inr (Or.inl ⟨rfl, ⟨b, rfl⟩, by simpa [hx, eq_comm] using h⟩)
          | dir e => simp [hx] at h
  | cons y rest =>
      rw [remove] at h
      cases hx : d x with
      | none => exact Or.inl ⟨rfl, by simpa [hx, eq_comm] using h⟩
      | some n =>
          cases n with
          | file b => simp [hx] at h
          | dir e =>
              cases hw : remove (y :: rest) e with
              | error err => simp [hx, hw] at h
              | ok e' =>
                  exact Or.inr (Or.inr ⟨e, e', rfl, hw, by simpa [hx, hw, eq_comm] using h⟩)

/-- **Writing succeeds exactly where reading does.** -/
theorem write_ok_iff (a : α) : ∀ (p : List κ) (d : Dir κ α),
    (∃ d', write p a d = .ok d') ↔ ¬ Blocked p d
  | [], d => by simp [write, Blocked, read]
  | [x], d => by
      cases hx : d x with
      | none => simp [write, Blocked, read, hx]
      | some n => cases n <;> simp [write, Blocked, read, hx]
  | x :: y :: rest, d => by
      have hempty : ¬ Blocked (y :: rest) (emptyDir : Dir κ α) := by
        cases rest <;> simp [Blocked, read, emptyDir]
      cases hx : d x with
      | none =>
          obtain ⟨e', he'⟩ := (write_ok_iff a (y :: rest) emptyDir).mpr hempty
          simp [write, Blocked, read, hx, he']
      | some n =>
          cases n with
          | file b => simp [write, Blocked, read, hx]
          | dir e =>
              have ih := write_ok_iff a (y :: rest) e
              simp only [write, hx, Blocked, read] at ih ⊢
              rw [← ih]
              cases hw : write (y :: rest) a e with
              | error err => simp
              | ok e' => simp

/-- **Unlinking succeeds exactly where reading does.** -/
theorem remove_ok_iff : ∀ (p : List κ) (d : Dir κ α),
    (∃ d', remove p d = .ok d') ↔ ¬ Blocked p d
  | [], d => by simp [remove, Blocked, read]
  | [x], d => by
      cases hx : d x with
      | none => simp [remove, Blocked, read, hx]
      | some n => cases n <;> simp [remove, Blocked, read, hx]
  | x :: y :: rest, d => by
      cases hx : d x with
      | none => simp [remove, Blocked, read, hx]
      | some n =>
          cases n with
          | file b => simp [remove, Blocked, read, hx]
          | dir e =>
              have ih := remove_ok_iff (y :: rest) e
              simp only [remove, hx, Blocked, read] at ih ⊢
              rw [← ih]
              cases hw : remove (y :: rest) e with
              | error err => simp
              | ok e' => simp

/-- **What a write changes**: the file at its path, and no other. -/
theorem lookup_write {a : α} : ∀ {p : List κ} {d d' : Dir κ α}, write p a d = .ok d' →
    ∀ q, lookup q d' = if q = p then some a else lookup q d
  | [], _, _, h, _ => by simp [write] at h
  | [x], d, d', h, [] => by simp [lookup, read]
  | [x], d, d', h, z :: rest => by
      obtain ⟨hno, rfl⟩ := write_single h
      by_cases hz : z = x
      · subst hz
        cases rest with
        | nil => simp [lookup, read]
        | cons y rest =>
            rw [if_neg (by simp)]
            cases hz : d z with
            | none => simp [lookup, read, hz]
            | some n =>
                cases n with
                | file b => simp [lookup, read, hz]
                | dir e => exact absurd hz (hno e)
      · rw [lookup_update_ne hz, if_neg (by simp [hz])]
  | x :: y :: rest, d, d', h, [] => by simp [lookup, read]
  | x :: y :: rest, d, d', h, z :: q => by
      obtain ⟨e, e', hx, he', rfl⟩ := write_cons h
      by_cases hz : z = x
      · subst hz
        obtain ⟨h1, h2⟩ := lookup_update_dir q e' hx
        rw [h1, h2]
        cases q with
        | nil => simp
        | cons w q =>
            simp only [reduceCtorEq, if_false, lookup_write he' (w :: q), List.cons.injEq,
              true_and]
      · rw [lookup_update_ne hz, if_neg (by simp [hz])]

/-- **What an unlink changes**: there is no file at its path, and every other file stays. -/
theorem lookup_remove {p : List κ} {d d' : Dir κ α} (h : remove p d = .ok d') (q : List κ) :
    lookup q d' = if q = p then none else lookup q d := by
  induction p generalizing d d' q with
  | nil => simp [remove] at h
  | cons x p ih =>
      cases q with
      | nil => simp [lookup, read]
      | cons z q =>
          rcases remove_cons h with ⟨hx, rfl⟩ | ⟨rfl, ⟨a, hx⟩, rfl⟩ | ⟨e, e', hx, hw, rfl⟩
          · split_ifs with heq
            · obtain ⟨rfl, rfl⟩ := List.cons.inj heq
              cases q <;> simp [lookup, read, hx]
            · rfl
          · by_cases hz : z = x
            · subst hz
              cases q <;> simp [lookup, read, hx]
            · rw [lookup_update_ne hz, if_neg (by simp [hz])]
          · by_cases hz : z = x
            · subst hz
              obtain ⟨h1, h2⟩ := lookup_update_dir q e' (Or.inl hx)
              rw [h1, h2]
              cases q with
              | nil => simp
              | cons w q =>
                  simp only [reduceCtorEq, if_false, ih hw (w :: q), List.cons.injEq, true_and]
            · rw [lookup_update_ne hz, if_neg (by simp [hz])]

/-- **Creating directories changes no file.** -/
theorem lookup_mkdirs : ∀ (p : List κ) (d : Dir κ α) (q : List κ),
    lookup q (mkdirs p d) = lookup q d
  | [], _, _ => rfl
  | [_], _, _ => rfl
  | x :: y :: rest, d, [] => by simp [lookup, read]
  | x :: y :: rest, d, z :: q => by
      rw [mkdirs]
      by_cases hz : z = x
      · subst hz
        cases hx : d z with
        | none =>
            obtain ⟨h1, h2⟩ := lookup_update_dir q
              (mkdirs (y :: rest) emptyDir) (Or.inr ⟨hx, rfl⟩)
            dsimp only
            rw [h1, h2, lookup_mkdirs (y :: rest) emptyDir q]
        | some n =>
            cases n with
            | file b => rfl
            | dir e =>
                obtain ⟨h1, h2⟩ := lookup_update_dir q
                  (mkdirs (y :: rest) e) (Or.inl hx)
                dsimp only
                rw [h1, h2, lookup_mkdirs (y :: rest) e q]
      · cases hx : d x with
        | none => exact lookup_update_ne hz
        | some n =>
            cases n with
            | file b => rfl
            | dir e => exact lookup_update_ne hz

/-- **Removing a directory** removes the files below it and no others. -/
theorem lookup_removeTree : ∀ {p : List κ}, p ≠ [] → ∀ (d : Dir κ α) (q : List κ),
    lookup q (removeTree p d) = if p <+: q ∧ q ≠ p then none else lookup q d
  | [], hp, _, _ => absurd rfl hp
  | x :: p, _, d, [] => by simp [lookup, read]
  | x :: p, _, d, z :: q => by
      by_cases hz : z = x
      · subst hz
        simp only [List.cons_prefix_cons, true_and, ne_eq, List.cons.injEq]
        cases p with
        | nil =>
            cases hx : d z with
            | none => cases q <;> simp [removeTree, hx, lookup, read]
            | some n =>
                cases n with
                | file b => cases q <;> simp [removeTree, hx, lookup, read]
                | dir e => cases q <;> simp [removeTree, hx, lookup, read]
        | cons y rest =>
            cases hx : d z with
            | none => cases q <;> simp [removeTree, hx, lookup, read]
            | some n =>
                cases n with
                | file b => cases q <;> simp [removeTree, hx, lookup, read]
                | dir e =>
                    obtain ⟨h1, h2⟩ := lookup_update_dir q (removeTree (y :: rest) e) (Or.inl hx)
                    have hremove : removeTree (z :: y :: rest) d =
                        Function.update d z (some (.dir (removeTree (y :: rest) e))) := by
                      rw [removeTree, hx]
                    rw [hremove, h1, h2, lookup_removeTree (List.cons_ne_nil _ _) e q]
                    cases q with
                    | nil => simp
                    | cons w q => simp
      · have hother : ¬ (x :: p <+: z :: q) := fun h => hz (List.cons_prefix_cons.mp h).1.symm
        rw [if_neg fun h => hother h.1]
        cases p with
        | nil =>
            rw [removeTree]
            split
            · exact lookup_update_ne hz
            · rfl
        | cons y rest =>
            rw [removeTree]
            split
            · exact lookup_update_ne hz
            · rfl

end FileTree
