import Bole.Lib.FileTree

/-!
The directories of a file tree and the walk that lists its files, over arbitrary segments and
contents.

* `blocked_iff`: a path is blocked by a file on its way or by a directory in its place;
* `isDir_write`, `isDir_remove`: a write makes the parents of its path directories, and no
  directory ever goes away;
* `blocked_congr`: two trees that agree on both block the same paths;
* `Small`: directories of finitely many entries, as they are on a disk;
* `mem_walk`, `nodup_walk`: a walk meets every file once, whatever the order in which the
  system lists a directory.
-/

namespace FileTree

variable {κ α : Type}

/-! ### Directories -/

/-- The path leads to a directory. -/
def IsDir : List κ → Dir κ α → Prop
  | [], _ => True
  | x :: rest, d =>
      match d x with
      | some (.dir e) => IsDir rest e
      | _ => False

/-- The first path is a directory on the way to the second. -/
def Above (q p : List κ) : Prop := q <+: p ∧ q ≠ p

lemma above_cons {x y : κ} {q p : List κ} : Above (x :: q) (y :: p) ↔ x = y ∧ Above q p := by
  simp only [Above, List.cons_prefix_cons, ne_eq, List.cons.injEq]
  tauto

lemma nil_above {y : κ} {p : List κ} : Above [] (y :: p) := ⟨List.nil_prefix, by simp⟩

lemma not_above_nil {q : List κ} : ¬ Above q [] := fun h => h.2 (List.prefix_nil.mp h.1)

lemma isDir_cons {x : κ} {rest : List κ} {d : Dir κ α} :
    IsDir (x :: rest) d ↔ ∃ e, d x = some (.dir e) ∧ IsDir rest e := by
  rw [IsDir]
  split
  · next e he => simp [he]
  · next hno =>
      constructor
      · exact False.elim
      · rintro ⟨e, he, -⟩
        exact hno e he

@[simp] lemma lookup_nil (d : Dir κ α) : lookup [] d = none := rfl

/-- A file is seen through the directories above it. -/
lemma lookup_cons {x : κ} {rest : List κ} {d : Dir κ α} {a : α} :
    lookup (x :: rest) d = some a ↔
      (rest = [] ∧ d x = some (.file a)) ∨ ∃ e, d x = some (.dir e) ∧ lookup rest e = some a := by
  cases rest with
  | nil =>
      rw [lookup, read]
      cases hx : d x with
      | none => simp
      | some n => cases n <;> simp
  | cons y rest =>
      rw [lookup, read]
      cases hx : d x with
      | none => simp
      | some n =>
          cases n with
          | file b => simp
          | dir e => simp [lookup]

/-- **What blocks a path**: a directory in its place or a file on its way. -/
theorem blocked_iff {p : List κ} {d : Dir κ α} :
    Blocked p d ↔ IsDir p d ∨ ∃ q, Above q p ∧ ∃ a, lookup q d = some a := by
  induction p generalizing d with
  | nil => simp [Blocked, read, IsDir]
  | cons x rest ih =>
      -- a file on the way is the first segment or lies below it
      have hway : (∃ q, Above q (x :: rest) ∧ ∃ a, lookup q d = some a) ↔
          (rest ≠ [] ∧ ∃ a, d x = some (.file a)) ∨
            ∃ e, d x = some (.dir e) ∧ ∃ q, Above q rest ∧ ∃ a, lookup q e = some a := by
        constructor
        · rintro ⟨q, hq, a, ha⟩
          cases q with
          | nil => simp at ha
          | cons z q =>
              obtain ⟨rfl, hbelow⟩ := above_cons.mp hq
              rcases lookup_cons.mp ha with ⟨rfl, hx⟩ | ⟨e, hx, ha⟩
              · exact Or.inl ⟨Ne.symm hbelow.2, a, hx⟩
              · exact Or.inr ⟨e, hx, q, hbelow, a, ha⟩
        · rintro (⟨hrest, a, hx⟩ | ⟨e, hx, q, hq, a, ha⟩)
          · obtain ⟨y, rest, rfl⟩ := List.exists_cons_of_ne_nil hrest
            exact ⟨[x], above_cons.mpr ⟨rfl, nil_above⟩, a, lookup_cons.mpr (Or.inl ⟨rfl, hx⟩)⟩
          · exact ⟨x :: q, above_cons.mpr ⟨rfl, hq⟩, a, lookup_cons.mpr (Or.inr ⟨e, hx, ha⟩)⟩
      rw [isDir_cons, hway]
      cases rest with
      | nil =>
          cases hx : d x with
          | none => simp [Blocked, read, hx]
          | some n => cases n <;> simp [Blocked, read, hx, IsDir, not_above_nil]
      | cons y rest =>
          cases hx : d x with
          | none => simp [Blocked, read, hx]
          | some n =>
              cases n with
              | file b => simp [Blocked, read, hx]
              | dir e =>
                  have hblocked : Blocked (x :: y :: rest) d ↔ Blocked (y :: rest) e := by
                    rw [Blocked, Blocked, read_cons_dir hx]
                  rw [hblocked, ih]
                  simp

lemma isDir_emptyDir {p : List κ} : IsDir p (emptyDir : Dir κ α) ↔ p = [] := by
  cases p with
  | nil => simp [IsDir]
  | cons x rest => simp [isDir_cons, emptyDir]

variable [DecidableEq κ]

/-- **A write makes directories of the parents of its path**, and keeps those there are. -/
theorem isDir_write {a : α} {p : List κ} {d d' : Dir κ α} (h : write p a d = .ok d')
    (q : List κ) : IsDir q d' ↔ IsDir q d ∨ Above q p := by
  induction p generalizing d d' q with
  | nil => simp [write] at h
  | cons x p ih =>
      cases q with
      | nil => simp [IsDir]
      | cons z q =>
          cases p with
          | nil =>
              obtain ⟨hno, rfl⟩ := write_single h
              simp only [isDir_cons, above_cons, not_above_nil, and_false, or_false]
              by_cases hz : z = x
              · subst hz
                simp [hno]
              · simp [Function.update_of_ne hz]
          | cons y p =>
              obtain ⟨e, e', hx, hw, rfl⟩ := write_cons h
              simp only [isDir_cons, above_cons]
              by_cases hz : z = x
              · subst hz
                have hdir : (∃ e, d z = some (.dir e) ∧ IsDir q e) ↔ IsDir q e ∧ d z ≠ none := by
                  rcases hx with hx | ⟨hx, -⟩ <;> simp [hx]
                simp only [Function.update_self, Option.some.injEq, Node.dir.injEq,
                  exists_eq_left', true_and, ih hw q, hdir]
                rcases hx with hx | ⟨hx, rfl⟩
                · simp [hx]
                · -- the new directory itself is above the path
                  simp only [hx, ne_eq, not_true_eq_false, and_false, false_or, isDir_emptyDir,
                    or_iff_right_iff_imp]
                  rintro rfl
                  exact nil_above
              · simp [hz]

/-- **No directory goes away.** -/
theorem isDir_remove {p : List κ} {d d' : Dir κ α} (h : remove p d = .ok d') (q : List κ) :
    IsDir q d' ↔ IsDir q d := by
  induction p generalizing d d' q with
  | nil => simp [remove] at h
  | cons x p ih =>
      cases q with
      | nil => simp [IsDir]
      | cons z q =>
          rcases remove_cons h with ⟨-, rfl⟩ | ⟨-, ⟨a, hx⟩, rfl⟩ | ⟨e, e', hx, hw, rfl⟩
          · rfl
          · by_cases hz : z = x
            · subst hz
              simp [isDir_cons, hx]
            · simp [isDir_cons, Function.update_of_ne hz]
          · by_cases hz : z = x
            · subst hz
              simp [isDir_cons, hx, ih hw q]
            · simp [isDir_cons, Function.update_of_ne hz]

/-- Creating parents makes directories on the way to the path only. -/
lemma isDir_mkdirs {p q : List κ} {d : Dir κ α} (h : ¬ Above q p) :
    IsDir q (mkdirs p d) ↔ IsDir q d := by
  induction p generalizing q d with
  | nil => rfl
  | cons x p ih =>
      cases p with
      | nil => rfl
      | cons y p =>
          cases q with
          | nil => simp [IsDir]
          | cons z q =>
              rw [above_cons, not_and] at h
              rw [mkdirs]
              by_cases hz : z = x
              · subst hz
                have hq := h rfl
                cases hx : d z with
                | none =>
                    simp only [isDir_cons, hx, Function.update_self, Option.some.injEq,
                      Node.dir.injEq, exists_eq_left', ih hq, isDir_emptyDir, reduceCtorEq,
                      false_and, exists_false, iff_false]
                    rintro rfl
                    exact hq nil_above
                | some n =>
                    cases n with
                    | file a => rfl
                    | dir e => simp [isDir_cons, hx, ih hq]
              · cases hx : d x with
                | none => simp [isDir_cons, Function.update_of_ne hz]
                | some n =>
                    cases n with
                    | file a => rfl
                    | dir e => simp [isDir_cons, Function.update_of_ne hz]

omit [DecidableEq κ] in
/-- Whether a path is blocked depends on the directories in its place and the files on its
way. -/
lemma blocked_congr {p : List κ} {d d' : Dir κ α} (hdir : IsDir p d' ↔ IsDir p d)
    (hfiles : ∀ q, Above q p → lookup q d' = lookup q d) : Blocked p d' ↔ Blocked p d := by
  rw [blocked_iff, blocked_iff, hdir]
  refine or_congr_right (exists_congr fun q => and_congr_right fun hq => ?_)
  rw [hfiles q hq]

/-- **What a write blocks**: the paths above its own and below it. -/
theorem blocked_write {a : α} {p q : List κ} {d d' : Dir κ α} (h : write p a d = .ok d') :
    Blocked q d' ↔ Blocked q d ∨ Above q p ∨ Above p q := by
  rw [blocked_iff, blocked_iff, isDir_write h]
  have hfiles : (∃ r, Above r q ∧ ∃ b, lookup r d' = some b) ↔
      Above p q ∨ ∃ r, Above r q ∧ ∃ b, lookup r d = some b := by
    constructor
    · rintro ⟨r, hr, b, hb⟩
      rw [lookup_write h] at hb
      split_ifs at hb with hrp
      · exact Or.inl (hrp ▸ hr)
      · exact Or.inr ⟨r, hr, b, hb⟩
    · rintro (hp | ⟨r, hr, b, hb⟩)
      · exact ⟨p, hp, a, by rw [lookup_write h, if_pos rfl]⟩
      · refine ⟨r, hr, ?_⟩
        rw [lookup_write h]
        split_ifs
        · exact ⟨a, rfl⟩
        · exact ⟨b, hb⟩
  rw [hfiles]
  constructor
  · rintro ((hdir | hq) | hp | hr)
    exacts [Or.inl (Or.inl hdir), Or.inr (Or.inl hq), Or.inr (Or.inr hp), Or.inl (Or.inr hr)]
  · rintro ((hdir | hr) | hq | hp)
    exacts [Or.inl (Or.inl hdir), Or.inr (Or.inr hr), Or.inl (Or.inr hq), Or.inr (Or.inl hp)]

/-! ### Listing -/

/-- Finitely many entries in every directory. -/
inductive Small : Node κ α → Prop where
  | file (a : α) : Small (.file a)
  | dir {entries : Dir κ α} (hfin : {x | entries x ≠ none}.Finite)
      (h : ∀ x n, entries x = some n → Small n) : Small (.dir entries)

omit [DecidableEq κ] in
lemma small_emptyDir : Small (.dir (emptyDir : Dir κ α)) :=
  .dir (by simp [emptyDir]) (by simp [emptyDir])

/-- A change of one entry keeps a tree small. -/
lemma Small.update {d : Dir κ α} (hd : Small (.dir d)) (x : κ) {n : Option (Node κ α)}
    (hn : ∀ n', n = some n' → Small n') : Small (.dir (Function.update d x n)) := by
  cases hd with
  | dir hfin h =>
      refine .dir ((hfin.insert x).subset fun z hz => ?_) fun z n' hz => ?_
      · by_cases hzx : z = x
        · exact Or.inl hzx
        · refine Or.inr ?_
          simpa [Function.update_of_ne hzx] using hz
      · by_cases hzx : z = x
        · subst hzx
          rw [Function.update_self] at hz
          exact hn n' hz
        · rw [Function.update_of_ne hzx] at hz
          exact h z n' hz

omit [DecidableEq κ] in
lemma Small.sub {d e : Dir κ α} {x : κ} (hd : Small (.dir d)) (hx : d x = some (.dir e)) :
    Small (.dir e) := by
  cases hd with
  | dir _ h => exact h x _ hx

lemma small_write {a : α} {p : List κ} {d d' : Dir κ α} (hd : Small (.dir d))
    (h : write p a d = .ok d') : Small (.dir d') := by
  induction p generalizing d d' with
  | nil => simp [write] at h
  | cons x p ih =>
      cases p with
      | nil =>
          obtain ⟨-, rfl⟩ := write_single h
          refine hd.update x ?_
          rintro n' ⟨⟩
          exact .file a
      | cons y p =>
          obtain ⟨e, e', hx, hw, rfl⟩ := write_cons h
          refine hd.update x ?_
          rintro n' ⟨⟩
          rcases hx with hx | ⟨-, rfl⟩
          · exact ih (hd.sub hx) hw
          · exact ih small_emptyDir hw

lemma small_remove {p : List κ} {d d' : Dir κ α} (hd : Small (.dir d))
    (h : remove p d = .ok d') : Small (.dir d') := by
  induction p generalizing d d' with
  | nil => simp [remove] at h
  | cons x p ih =>
      rcases remove_cons h with ⟨-, rfl⟩ | ⟨-, -, rfl⟩ | ⟨e, e', hx, hw, rfl⟩
      · exact hd
      · exact hd.update x (by simp)
      · refine hd.update x ?_
        rintro n' ⟨⟩
        exact ih (hd.sub hx) hw

/-- The order in which the system lists a directory. -/
structure Reader (κ α : Type) where
  readDir : Dir κ α → List κ
  nodup : ∀ d, (readDir d).Nodup
  mem_readDir : ∀ d, {x | d x ≠ none}.Finite → ∀ x, x ∈ readDir d ↔ d x ≠ none

open Classical in
omit [DecidableEq κ] in
/-- There is such an order. -/
instance : Nonempty (Reader κ α) :=
  ⟨{ readDir := fun d => if h : {x | d x ≠ none}.Finite then h.toFinset.toList else []
     nodup := fun d => by
      split_ifs
      · exact Finset.nodup_toList _
      · exact List.nodup_nil
     mem_readDir := fun d h x => by simp [h] }⟩

mutual

/-- The paths of the files at and below a node, without those below a skipped name. -/
def walkNode (r : Reader κ α) (skip : κ → Bool) : Node κ α → List (List κ)
  | .file _ => [[]]
  | .dir entries =>
      (r.readDir entries).flatMap fun x =>
        if skip x then [] else (walkEntry r skip (entries x)).map (x :: ·)

/-- The same for an entry. -/
def walkEntry (r : Reader κ α) (skip : κ → Bool) : Option (Node κ α) → List (List κ)
  | none => []
  | some n => walkNode r skip n

end

variable {r : Reader κ α} {skip : κ → Bool}

omit [DecidableEq κ] in
/-- **A walk meets the files that no skipped name leads to.** -/
theorem mem_walk {d : Dir κ α} (hd : Small (.dir d)) {p : List κ} :
    p ∈ walkNode r skip (.dir d) ↔ (∃ a, lookup p d = some a) ∧ ∀ x ∈ p, skip x = false := by
  induction p generalizing d with
  | nil =>
      rw [walkNode]
      simp only [List.mem_flatMap, lookup_nil, reduceCtorEq, exists_false, false_and, iff_false]
      rintro ⟨x, -, hx⟩
      split_ifs at hx <;> simp at hx
  | cons x p ih =>
      cases hd with
      | dir hfin hsub =>
          rw [walkNode]
          have hmem : ∀ z, x :: p ∈ (if skip z then [] else
              (walkEntry r skip (d z)).map (z :: ·)) ↔
                z = x ∧ skip x = false ∧ p ∈ walkEntry r skip (d x) := by
            intro z
            split_ifs with hz
            · constructor
              · simp
              · rintro ⟨rfl, hx, -⟩
                simp [hz] at hx
            · simp only [List.mem_map, List.cons.injEq]
              constructor
              · rintro ⟨q, hq, rfl, rfl⟩
                exact ⟨rfl, by simpa using hz, hq⟩
              · rintro ⟨rfl, -, hq⟩
                exact ⟨p, hq, rfl, rfl⟩
          simp only [List.mem_flatMap, hmem, r.mem_readDir d hfin]
          have hentry : p ∈ walkEntry r skip (d x) ↔
              (∃ a, lookup (x :: p) d = some a) ∧ ∀ y ∈ p, skip y = false := by
            simp only [lookup_cons]
            cases hx : d x with
            | none => simp [walkEntry]
            | some n =>
                cases n with
                | file a => simp +contextual [walkEntry, walkNode]
                | dir e =>
                    rw [walkEntry, ih (hsub x _ hx)]
                    simp
          simp only [hentry, List.forall_mem_cons]
          constructor
          · rintro ⟨z, -, rfl, hskip, ha, hrest⟩
            exact ⟨ha, hskip, hrest⟩
          · rintro ⟨ha, hskip, hrest⟩
            refine ⟨x, ?_, rfl, hskip, ha, hrest⟩
            obtain ⟨a, ha⟩ := ha
            rcases lookup_cons.mp ha with ⟨-, hx⟩ | ⟨e, hx, -⟩ <;> simp [hx]

omit [DecidableEq κ] in
/-- **It meets each of them once.** -/
theorem nodup_walk {n : Node κ α} (hn : Small n) : (walkNode r skip n).Nodup := by
  induction hn with
  | file a => simp [walkNode]
  | @dir entries hfin _ ih =>
      rw [walkNode, List.nodup_flatMap]
      refine ⟨fun x _ => ?_, ?_⟩
      · split_ifs
        · exact List.nodup_nil
        · refine List.Nodup.map (List.cons_injective (a := x)) ?_
          cases hx : entries x with
          | none => simp [walkEntry]
          | some n => exact ih x n hx
      · refine (r.nodup entries).imp fun {x z} hne => ?_
        simp only [Function.onFun]
        split_ifs
        · simp
        · simp
        · simp
        · intro p hp hp'
          obtain ⟨q, -, rfl⟩ := List.mem_map.mp hp
          obtain ⟨q', -, hq'⟩ := List.mem_map.mp hp'
          exact hne (List.cons.inj hq').1.symm

end FileTree
