import Bole.Lib.Utf8
import Bole.Lib.Words
import Bole.Repo.GitProjection

/-!
What git reads in the trees of an export.

* `readTree`, `gitPaths`: git's grammar of trees, and the files below a tree;
* `readTree_encodeTree`: a tree that is written reads as its entries;
* `encodeTree_sorted`: they are strictly increasing in git's order;
* `writeGitTree_faithful`: the files below a written tree are the blobs of the path map.
-/

namespace Bole

open FileTree

/-! ### Git's grammar of trees -/

/-- An entry of a tree, as its bytes say. -/
structure GitTreeEntry where
  mode : Bytes
  name : Bytes
  oid : GitId
deriving DecidableEq

/-- The modes of directories and of plain files. -/
def dirMode : Bytes := strBytes "40000"

def fileMode : Bytes := strBytes "100644"

/-- An entry: its mode up to a blank, its name up to a NUL, which is not empty, and the 20 bytes of
an id. -/
def readTreeEntry (data : Bytes) : Option (GitTreeEntry × Bytes) :=
  match Words.upTo 32 data with
  | none => none
  | some (mode, rest) =>
      match Words.upTo 0 rest with
      | none => none
      | some (name, rest) =>
          if name = [] ∨ rest.length < 20 then none
          else some (⟨mode, name, ⟨rest.take 20⟩⟩, rest.drop 20)

/-- So many entries at most, up to the end. -/
def readTreeEntries : ℕ → Bytes → Option (List GitTreeEntry)
  | _, [] => some []
  | 0, _ :: _ => none
  | fuel + 1, data =>
      match readTreeEntry data with
      | none => none
      | some (e, rest) => (readTreeEntries fuel rest).map (e :: ·)

/-- The entries of a tree. -/
def readTree (data : Bytes) : Option (List GitTreeEntry) := readTreeEntries data.length data

/-- What git sorts by: directories are compared with a slash behind their name. -/
def GitTreeEntry.key (e : GitTreeEntry) : Bytes :=
  if e.mode = dirMode then e.name ++ [47] else e.name

/-- The files of an entry with their paths, where `below` gives those of a tree. -/
def entryPaths (find : GitId → Option GitData) (below : GitId → Option (List (Bytes × Bytes)))
    (e : GitTreeEntry) : Option (List (Bytes × Bytes)) :=
  if e.mode = dirMode then (below e.oid).map (·.map fun p => (e.name ++ 47 :: p.1, p.2))
  else if e.mode = fileMode then
    match find e.oid with
    | some (.blob, data) => some [(e.name, data)]
    | _ => none
  else none

/-- The files below a tree of an object database, with their paths; trees are nested less deeply
than the number. -/
def gitPaths (find : GitId → Option GitData) : ℕ → GitId → Option (List (Bytes × Bytes))
  | 0, _ => none
  | fuel + 1, id =>
      match find id with
      | some (.tree, data) =>
          ((readTree data).bind (·.mapM (entryPaths find (gitPaths find fuel)))).map List.flatten
      | _ => none

/-! ### Reading what is written -/

lemma nul_notMem_strBytes {s : String} (h : '\x00' ∉ s.toList) : (0 : UInt8) ∉ strBytes s :=
  fun hmem => h ((Utf8.mem_encode_iff (by decide)).mp hmem)

lemma strBytes_ne_nil {s : String} (h : s.toList ≠ []) : strBytes s ≠ [] := by
  obtain ⟨c, cs, hcs⟩ := List.exists_cons_of_ne_nil h
  rw [strBytes, hcs, List.flatMap_cons]
  exact fun hnil => String.utf8EncodeChar_ne_nil (List.append_eq_nil_iff.mp hnil).1

lemma slash_notMem_strBytes {s : String} (h : '/' ∉ s.toList) : (47 : UInt8) ∉ strBytes s :=
  fun hmem => h ((Utf8.mem_encode_iff (by decide)).mp hmem)

/-- The mode, the name and the id of an entry that is written. -/
def rawEntry (entry : String × Bool × GitId) : GitTreeEntry :=
  ⟨if entry.2.1 then dirMode else fileMode, strBytes entry.1, entry.2.2⟩

/-- The name is not empty and holds no NUL, and the id has 20 bytes. -/
structure EntryReadable (entry : String × Bool × GitId) : Prop where
  nonempty : entry.1.toList ≠ []
  name : '\x00' ∉ entry.1.toList
  oid : entry.2.2.bytes.length = 20

lemma encodeTreeEntry_eq (entry : String × Bool × GitId) :
    encodeTreeEntry entry = (rawEntry entry).mode ++ 32 :: ((rawEntry entry).name ++
      0 :: (rawEntry entry).oid.bytes) := by
  rw [encodeTreeEntry, rawEntry]
  cases entry.2.1 <;> simp [dirMode, fileMode]

lemma rawEntry_mode (entry : String × Bool × GitId) : (rawEntry entry).mode = dirMode ∨
    (rawEntry entry).mode = fileMode := by
  rw [rawEntry]
  cases entry.2.1
  · exact .inr rfl
  · exact .inl rfl

lemma readTreeEntry_encode {entry : String × Bool × GitId} (h : EntryReadable entry)
    (rest : Bytes) :
    readTreeEntry (encodeTreeEntry entry ++ rest) = some (rawEntry entry, rest) := by
  have hmode : (32 : UInt8) ∉ (rawEntry entry).mode := by
    rcases rawEntry_mode entry with hm | hm <;> rw [hm] <;> decide
  have hname : (0 : UInt8) ∉ (rawEntry entry).name := nul_notMem_strBytes h.name
  have hne : (rawEntry entry).name ≠ [] := strBytes_ne_nil h.nonempty
  have hoid : (rawEntry entry).oid.bytes.length = 20 := h.oid
  rw [encodeTreeEntry_eq, readTreeEntry, List.append_assoc, List.cons_append,
    Words.upTo_append hmode]
  dsimp only
  rw [List.append_assoc, List.cons_append, Words.upTo_append hname]
  dsimp only
  have hlong : ¬ ((rawEntry entry).name = [] ∨
      ((rawEntry entry).oid.bytes ++ rest).length < 20) := by
    rw [List.length_append, not_or]
    exact ⟨hne, by omega⟩
  rw [if_neg hlong, List.take_left' hoid, List.drop_left' hoid]

lemma encodeTreeEntry_length (entry : String × Bool × GitId) :
    0 < (encodeTreeEntry entry).length := by
  rw [encodeTreeEntry_eq, List.length_append, List.length_cons]
  omega

lemma readTreeEntries_encode {entries : List (String × Bool × GitId)}
    (h : ∀ e ∈ entries, EntryReadable e) {fuel : ℕ} (hfuel : entries.length ≤ fuel) :
    readTreeEntries fuel (entries.flatMap encodeTreeEntry) = some (entries.map rawEntry) := by
  induction entries generalizing fuel with
  | nil => rw [List.flatMap_nil, readTreeEntries, List.map_nil]
  | cons e rest ih =>
      obtain ⟨hread, hrest⟩ := List.forall_mem_cons.mp h
      cases fuel with
      | zero => simp at hfuel
      | succ fuel =>
          obtain ⟨b, bs, hb⟩ := List.exists_cons_of_length_pos (encodeTreeEntry_length e)
          have hentry := readTreeEntry_encode hread (rest.flatMap encodeTreeEntry)
          rw [List.flatMap_cons, hb, List.cons_append] at *
          rw [readTreeEntries, hentry]
          · dsimp only
            rw [ih hrest (by simpa using hfuel), Option.map_some, List.map_cons]
          · exact List.cons_ne_nil _ _

lemma length_le_flatMap (entries : List (String × Bool × GitId)) :
    entries.length ≤ (entries.flatMap encodeTreeEntry).length := by
  induction entries with
  | nil => exact Nat.zero_le _
  | cons e rest ih =>
      have hpos := encodeTreeEntry_length e
      rw [List.flatMap_cons, List.length_append, List.length_cons]
      omega

/-- The entries in the order in which they are written. -/
def sortedEntries (entries : List (String × Bool × GitId)) : List (String × Bool × GitId) :=
  entries.mergeSort fun a b => (compare (treeKey a) (treeKey b)).isLE

lemma encodeTree_eq (entries : List (String × Bool × GitId)) :
    encodeTree entries = (sortedEntries entries).flatMap encodeTreeEntry := rfl

lemma mem_sortedEntries {entries : List (String × Bool × GitId)} {e : String × Bool × GitId} :
    e ∈ sortedEntries entries ↔ e ∈ entries := (List.mergeSort_perm _ _).mem_iff

lemma nodup_sortedEntries {entries : List (String × Bool × GitId)}
    (h : (entries.map Prod.fst).Nodup) : ((sortedEntries entries).map Prod.fst).Nodup :=
  ((List.mergeSort_perm _ _).map Prod.fst).nodup_iff.mpr h

/-- **A tree that is written reads as its entries.** -/
theorem readTree_encodeTree {entries : List (String × Bool × GitId)}
    (h : ∀ e ∈ entries, EntryReadable e) :
    readTree (encodeTree entries) = some ((sortedEntries entries).map rawEntry) := by
  rw [readTree, encodeTree_eq]
  exact readTreeEntries_encode (fun e he => h e (mem_sortedEntries.mp he)) (length_le_flatMap _)

/-! ### The order of the entries -/

lemma key_rawEntry (entry : String × Bool × GitId) :
    (rawEntry entry).key = strBytes (treeKey entry) := by
  rw [GitTreeEntry.key, rawEntry, treeKey]
  cases entry.2.1 with
  | true =>
      have hslash : strBytes "/" = [47] := by decide
      have hname : strBytes (entry.1 ++ "/") = strBytes entry.1 ++ strBytes "/" := by
        rw [strBytes, String.toList_append, List.flatMap_append]
        rfl
      rw [if_pos rfl, hslash.symm]
      exact hname.symm
  | false =>
      have hmode : fileMode ≠ dirMode := by decide
      exact if_neg hmode

/-- The entries of a level: no two have a name in common, and no name holds a slash. -/
structure Named (entries : List (String × Bool × GitId)) : Prop where
  names : (entries.map Prod.fst).Nodup
  slash : ∀ e ∈ entries, '/' ∉ e.1.toList

/-- A directory is not compared like a file. -/
lemma treeKey_inj {a b : String × Bool × GitId} (ha : '/' ∉ a.1.toList) (hb : '/' ∉ b.1.toList)
    (h : treeKey a = treeKey b) : a.1 = b.1 := by
  have hdir : ∀ name : String, '/' ∈ (name ++ "/").toList := by
    intro name
    rw [String.toList_append]
    exact List.mem_append_right _ (List.mem_singleton_self _)
  rw [treeKey, treeKey] at h
  split_ifs at h
  · exact (String.append_left_inj _).mp h
  · exact absurd (h ▸ hdir a.1) hb
  · exact absurd (h ▸ hdir b.1) ha
  · exact h

/-- **Written entries are strictly increasing in git's order.** -/
theorem sortedEntries_sorted {entries : List (String × Bool × GitId)} (h : Named entries) :
    ((sortedEntries entries).map rawEntry).Pairwise fun a b => a.key < b.key := by
  have hsorted : (sortedEntries entries).Pairwise fun a b =>
      (compare (treeKey a) (treeKey b)).isLE = true := by
    refine List.pairwise_mergeSort (fun _ _ _ => Std.TransCmp.isLE_trans) (fun a b => ?_) _
    by_cases hab : (compare (treeKey a) (treeKey b)).isLE = true
    · simp [hab]
    · simp [Std.OrientedCmp.lt_of_not_isLE hab]
  have hnames : (sortedEntries entries).Pairwise fun a b => a.1 ≠ b.1 :=
    List.pairwise_map.mp (nodup_sortedEntries h.names)
  refine List.pairwise_map.mpr (List.Pairwise.imp_of_mem ?_ (hsorted.and hnames))
  rintro a b ha hb ⟨hle, hne⟩
  have hkey : treeKey a ≠ treeKey b := fun heq => hne (treeKey_inj
    (h.slash a (mem_sortedEntries.mp ha)) (h.slash b (mem_sortedEntries.mp hb)) heq)
  rw [key_rawEntry, key_rawEntry]
  have hlt : treeKey a < treeKey b := by
    cases hcmp : compare (treeKey a) (treeKey b) with
    | lt => exact compareOfLessAndEq_eq_lt.mp hcmp
    | eq => exact absurd (Std.LawfulEqOrd.eq_of_compare hcmp) hkey
    | gt =>
        rw [hcmp] at hle
        cases hle
  exact Utf8.encode_lt (String.lt_iff_toList_lt.mp hlt)

/-! ### One level -/

section Level

variable (L : Linked) (gix : Gix) (objects : ObjectStore)

/-- What the loop of a level does with the files and directories that are left: the entries that
it makes and the objects that are written. -/
inductive LevelWrites (sub : BTreeMap String ObjectId → Result GitId × List GitData)
    (flat : BTreeMap String ObjectId) : List (String × ObjectId) → List String →
      List (String × Bool × GitId) → List GitData → Prop where
  | done {seen : List String} : LevelWrites sub flat [] seen [] []
  | again {path dir : String} {id : ObjectId} {rest : List (String × ObjectId)}
      {seen : List String} {made : List (String × Bool × GitId)} {written : List GitData}
      (hdir : firstDir path = some dir) (hseen : dir ∈ seen)
      (h : LevelWrites sub flat rest seen made written) :
      LevelWrites sub flat ((path, id) :: rest) seen made written
  | dir {path dir : String} {id : ObjectId} {rest : List (String × ObjectId)}
      {seen : List String} {made : List (String × Bool × GitId)} {subId : GitId}
      {below written : List GitData} (hdir : firstDir path = some dir) (hseen : dir ∉ seen)
      (hsub : sub (subFlat flat dir) = (.ok subId, below))
      (h : LevelWrites sub flat rest (dir :: seen) made written) :
      LevelWrites sub flat ((path, id) :: rest) seen ((dir, true, subId) :: made)
        (below ++ written)
  | file {path : String} {id : ObjectId} {data : Bytes} {rest : List (String × ObjectId)}
      {seen : List String} {made : List (String × Bool × GitId)} {written : List GitData}
      (hdir : firstDir path = none) (hget : objects.get L id = .ok (some (.blob data)))
      (h : LevelWrites sub flat rest seen made written) :
      LevelWrites sub flat ((path, id) :: rest) seen ((path, false, gix.hash .blob data) :: made)
        ((.blob, data) :: written)
  | other {path : String} {id : ObjectId} {rest : List (String × ObjectId)}
      {seen : List String} {made : List (String × Bool × GitId)} {written : List GitData}
      (hdir : firstDir path = none) (hget : ∀ data, objects.get L id ≠ .ok (some (.blob data)))
      (h : LevelWrites sub flat rest seen made written) :
      LevelWrites sub flat ((path, id) :: rest) seen made written

variable {L gix objects} {sub : BTreeMap String ObjectId → Result GitId × List GitData}
  {flat : BTreeMap String ObjectId} {es : List (String × ObjectId)} {seen : List String}
  {entries out made : List (String × Bool × GitId)} {written : List GitData}

lemma levelWrites_of_ok
    (h : writeTreeEntries L gix objects sub flat es seen entries = (.ok out, written)) :
    ∃ made, out = entries ++ made ∧ LevelWrites L gix objects sub flat es seen made written := by
  induction es generalizing seen entries written with
  | nil =>
      cases h
      exact ⟨[], by simp, .done⟩
  | cons e rest ih =>
      obtain ⟨path, id⟩ := e
      rw [writeTreeEntries] at h
      cases hdir : firstDir path with
      | some dir =>
          rw [hdir] at h
          dsimp only at h
          split_ifs at h with hseen
          · obtain ⟨made, hout, hmade⟩ := ih h
            exact ⟨made, hout, .again hdir hseen hmade⟩
          · cases hsub : sub (subFlat flat dir) with
            | mk result below =>
                rw [hsub] at h
                cases result with
                | error e => cases h
                | ok subId =>
                    obtain ⟨hout, rfl⟩ := Prod.mk.inj h
                    obtain ⟨made, rfl, hmade⟩ := ih (Prod.ext hout rfl)
                    exact ⟨_, by rw [List.append_assoc]; rfl, .dir hdir hseen hsub hmade⟩
      | none =>
          rw [hdir] at h
          dsimp only at h
          -- a file whose object is no blob is passed over
          have hother (hget : ∀ data, objects.get L id ≠ .ok (some (.blob data)))
              (h : writeTreeEntries L gix objects sub flat rest seen entries = (.ok out, written)) :
              ∃ made, out = entries ++ made ∧
                LevelWrites L gix objects sub flat ((path, id) :: rest) seen made written := by
            obtain ⟨made, hout, hmade⟩ := ih h
            exact ⟨made, hout, .other hdir hget hmade⟩
          cases hget : objects.get L id with
          | error e =>
              rw [hget] at h
              cases h
          | ok found =>
              rw [hget] at h hother
              cases found with
              | none => exact hother (by simp) h
              | some obj =>
                  cases obj with
                  | blob data =>
                      obtain ⟨hout, rfl⟩ := Prod.mk.inj h
                      obtain ⟨made, rfl, hmade⟩ := ih (Prod.ext hout rfl)
                      exact ⟨_, by rw [List.append_assoc]; rfl, .file hdir hget hmade⟩
                  | _ => exact hother (by simp) h

/-- **The entries of a level**: its blobs, and the directories that were not seen before. -/
lemma LevelWrites.mem_made (h : LevelWrites L gix objects sub flat es seen made written)
    {e : String × Bool × GitId} : e ∈ made ↔
      (firstDir e.1 = none ∧ ∃ id data, (e.1, id) ∈ es ∧
        objects.get L id = .ok (some (.blob data)) ∧ e.2 = (false, gix.hash .blob data)) ∨
      (e.1 ∉ seen ∧ ∃ subId, (∃ f ∈ es, firstDir f.1 = some e.1) ∧
        (sub (subFlat flat e.1)).1 = .ok subId ∧ e.2 = (true, subId)) := by
  obtain ⟨name, isDir, oid⟩ := e
  induction h with
  | done => simp
  | @again path dir id rest seen made written hdir hseen h ih =>
      rw [ih]
      simp only [List.mem_cons, Prod.mk.injEq]
      grind
  | @dir path dir id rest seen made subId below written hdir hseen hsub h ih =>
      rw [List.mem_cons, ih]
      constructor
      · rintro (heq | ⟨hfile, i, data, hmem, hget, heq⟩ | ⟨hname, i, ⟨f, hf, hfdir⟩, hi, heq⟩)
        · cases heq
          exact .inr ⟨hseen, oid, ⟨_, List.mem_cons_self, hdir⟩, by rw [hsub], rfl⟩
        · exact .inl ⟨hfile, i, data, List.mem_cons_of_mem _ hmem, hget, heq⟩
        · exact .inr ⟨fun hin => hname (List.mem_cons_of_mem _ hin), i,
            ⟨f, List.mem_cons_of_mem _ hf, hfdir⟩, hi, heq⟩
      · rintro (⟨hfile, i, data, hmem, hget, heq⟩ | ⟨hname, i, ⟨f, hf, hfdir⟩, hi, heq⟩)
        · rcases List.mem_cons.mp hmem with hmem | hmem
          · cases hmem
            rw [hdir] at hfile
            cases hfile
          · exact .inr (.inl ⟨hfile, i, data, hmem, hget, heq⟩)
        · by_cases hd : name = dir
          · subst hd
            rw [hsub] at hi
            cases hi
            cases heq
            exact .inl rfl
          · rcases List.mem_cons.mp hf with rfl | hf
            · rw [hdir] at hfdir
              exact absurd (Option.some.inj hfdir).symm hd
            · exact .inr (.inr ⟨by simp [hd, hname], i, ⟨f, hf, hfdir⟩, hi, heq⟩)
  | @file path id data rest seen made written hdir hget h ih =>
      rw [List.mem_cons, ih]
      simp only [List.mem_cons, Prod.mk.injEq]
      grind
  | @other path id rest seen made written hdir hget h ih =>
      rw [ih]
      simp only [List.mem_cons, Prod.mk.injEq]
      grind

/-- **What is written**: the same blobs, and what is written for those directories. -/
lemma LevelWrites.mem_written (h : LevelWrites L gix objects sub flat es seen made written)
    {x : GitData} : x ∈ written ↔
      (∃ path id data, (path, id) ∈ es ∧ firstDir path = none ∧
        objects.get L id = .ok (some (.blob data)) ∧ x = (.blob, data)) ∨
      ∃ dir ∉ seen, (∃ f ∈ es, firstDir f.1 = some dir) ∧ x ∈ (sub (subFlat flat dir)).2 := by
  induction h with
  | done => simp
  | @again path dir id rest seen made written hdir hseen h ih =>
      rw [ih]
      simp only [List.mem_cons, Prod.mk.injEq]
      grind
  | @dir path dir id rest seen made subId below written hdir hseen hsub h ih =>
      rw [List.mem_append, ih]
      simp only [List.mem_cons, Prod.mk.injEq]
      grind
  | @file path id data rest seen made written hdir hget h ih =>
      rw [List.mem_cons, ih]
      simp only [List.mem_cons, Prod.mk.injEq]
      grind
  | @other path id rest seen made written hdir hget h ih =>
      rw [ih]
      simp only [List.mem_cons, Prod.mk.injEq]
      grind

/-- No two entries of a level have a name in common, where no file has the name of a
directory. -/
lemma LevelWrites.names_nodup (h : LevelWrites L gix objects sub flat es seen made written)
    (hnodup : (es.map Prod.fst).Nodup)
    (hapart : ∀ f ∈ es, ∀ g ∈ es, firstDir f.1 ≠ some g.1) : (made.map Prod.fst).Nodup := by
  induction h with
  | done => exact List.nodup_nil
  | again hdir hseen h ih =>
      exact ih (List.nodup_cons.mp hnodup).2 fun f hf g hg =>
        hapart f (List.mem_cons_of_mem _ hf) g (List.mem_cons_of_mem _ hg)
  | @dir path dir id rest seen made subId below written hdir hseen hsub h ih =>
      refine List.nodup_cons.mpr ⟨fun hin => ?_, ih (List.nodup_cons.mp hnodup).2 fun f hf g hg =>
        hapart f (List.mem_cons_of_mem _ hf) g (List.mem_cons_of_mem _ hg)⟩
      obtain ⟨e, he, rfl⟩ := List.mem_map.mp hin
      rcases h.mem_made.mp he with ⟨-, i, data, hmem, -⟩ | ⟨hname, -⟩
      · exact hapart _ List.mem_cons_self _ (List.mem_cons_of_mem _ hmem) hdir
      · exact hname List.mem_cons_self
  | @file path id data rest seen made written hdir hget h ih =>
      refine List.nodup_cons.mpr ⟨fun hin => ?_, ih (List.nodup_cons.mp hnodup).2 fun f hf g hg =>
        hapart f (List.mem_cons_of_mem _ hf) g (List.mem_cons_of_mem _ hg)⟩
      obtain ⟨e, he, rfl⟩ := List.mem_map.mp hin
      rcases h.mem_made.mp he with ⟨-, i, data, hmem, -⟩ | ⟨-, i, ⟨f, hf, hfdir⟩, -⟩
      · exact (List.nodup_cons.mp hnodup).1 (List.mem_map.mpr ⟨_, hmem, rfl⟩)
      · exact hapart f (List.mem_cons_of_mem _ hf) _ List.mem_cons_self hfdir
  | other hdir hget h ih =>
      exact ih (List.nodup_cons.mp hnodup).2 fun f hf g hg =>
        hapart f (List.mem_cons_of_mem _ hf) g (List.mem_cons_of_mem _ hg)

end Level

/-! ### The whole tree -/

/-- The paths of a tree: no segment is empty, none holds a NUL, and no path is a directory of
another. -/
structure TreePaths (flat : BTreeMap String ObjectId) : Prop where
  segments : ∀ e ∈ flat.toList, ∀ seg ∈ e.1.toList.splitOn '/', seg ≠ [] ∧ '\x00' ∉ seg
  apart : ∀ e ∈ flat.toList, ∀ f ∈ flat.toList, ∀ rest, f.1 ≠ e.1 ++ "/" ++ rest

/-- An object database with SHA-1 ids that finds what was written. -/
structure GitFinds (gix : Gix) (written : List GitData) (find : GitId → Option GitData) :
    Prop where
  length : ∀ x ∈ written, (gix.hash x.1 x.2).bytes.length = 20
  found : ∀ x ∈ written, find (gix.hash x.1 x.2) = some x

lemma GitFinds.mono {gix : Gix} {written written' : List GitData}
    {find : GitId → Option GitData} (h : GitFinds gix written find)
    (hsub : ∀ x ∈ written', x ∈ written) : GitFinds gix written' find :=
  ⟨fun x hx => h.length x (hsub x hx), fun x hx => h.found x (hsub x hx)⟩

section Whole

variable {L : Linked} {gix : Gix} {objects : ObjectStore} {flat : BTreeMap String ObjectId}
  {find : GitId → Option GitData} {dir name : String}

lemma slash_notMem_of_firstDir (h : firstDir name = some dir) : '/' ∉ dir.toList := by
  rw [firstDir] at h
  split_ifs at h
  obtain rfl := Option.some.inj h
  rw [String.toList_ofList]
  intro hmem
  simpa using List.mem_takeWhile_imp hmem

lemma slash_notMem_of_none (h : firstDir name = none) : '/' ∉ name.toList := by
  rw [firstDir] at h
  split_ifs at h with hslash
  exact hslash

lemma splitOn_below (hdir : '/' ∉ dir.toList) :
    (dir ++ "/" ++ name).toList.splitOn '/' = dir.toList :: name.toList.splitOn '/' := by
  have hlist : (dir ++ "/" ++ name).toList = dir.toList ++ '/' :: name.toList := by simp
  rw [hlist, List.splitOn_append_cons_self, List.splitOn_eq_singleton hdir, List.singleton_append]

/-- What is below a directory is a tree again. -/
lemma TreePaths.subFlat (h : TreePaths flat) (hdir : '/' ∉ dir.toList) :
    TreePaths (subFlat flat dir) where
  segments e he seg hseg := by
    refine h.segments _ (mem_subFlat.mp he) seg ?_
    rw [splitOn_below hdir]
    exact List.mem_cons_of_mem _ hseg
  apart e he f hf rest heq := by
    refine h.apart _ (mem_subFlat.mp he) _ (mem_subFlat.mp hf) rest ?_
    rw [heq]
    simp only [String.append_assoc]

lemma splitOn_of_none (h : firstDir name = none) : name.toList.splitOn '/' = [name.toList] :=
  List.splitOn_eq_singleton (slash_notMem_of_none h)

/-- The names of the files and directories of a level. -/
lemma TreePaths.entry {path : String} {id : ObjectId} (h : TreePaths flat)
    (hmem : (path, id) ∈ flat.toList) (hname : (firstDir path = none ∧ name = path) ∨
      firstDir path = some name) : name.toList ≠ [] ∧ '\x00' ∉ name.toList := by
  refine h.segments _ hmem _ ?_
  rcases hname with ⟨hnone, rfl⟩ | hdir
  · rw [splitOn_of_none hnone]
    exact List.mem_singleton_self _
  · obtain ⟨rest, rfl⟩ := eq_of_firstDir hdir
    rw [splitOn_below (slash_notMem_of_firstDir hdir)]
    exact List.mem_cons_self

lemma strBytes_below (path : String) :
    strBytes (dir ++ "/" ++ path) = strBytes dir ++ 47 :: strBytes path := by
  have hslash : "/".toList.flatMap String.utf8EncodeChar = [47] := by decide
  simp only [strBytes, String.toList_append, List.flatMap_append, hslash, List.append_assoc,
    List.singleton_append]

/-- Lists that are all there, one behind the other. -/
lemma mapM_flatten {α β : Type} {f : α → Option (List β)} {l : List α}
    (h : ∀ a ∈ l, ∃ b, f a = some b) :
    (l.mapM f).map List.flatten = some (l.flatMap fun a => (f a).getD []) := by
  have hall : l.mapM f = some (l.map fun a => (f a).getD []) := by
    induction l with
    | nil => rfl
    | cons a l ih =>
        obtain ⟨b, hb⟩ := h a List.mem_cons_self
        rw [List.mapM_cons, hb, ih fun c hc => h c (List.mem_cons_of_mem _ hc)]
        simp [hb]
  rw [hall, Option.map_some, List.flatMap_def]

lemma firstDir_below (hdir : '/' ∉ dir.toList) : firstDir (dir ++ "/" ++ name) = some dir := by
  have hlist : (dir ++ "/" ++ name).toList = dir.toList ++ '/' :: name.toList := by simp
  rw [firstDir, hlist, if_pos (by simp), List.takeWhile_append_of_pos fun c hc => ?_]
  · simp
  · simpa using ne_of_mem_of_not_mem hc hdir

/-- The blobs of a map, under the bytes of their paths. -/
def BlobAt (L : Linked) (objects : ObjectStore) (flat : BTreeMap String ObjectId) (p : Bytes)
    (data : Bytes) : Prop :=
  ∃ path id, (path, id) ∈ flat.toList ∧ p = strBytes path ∧
    objects.get L id = .ok (some (.blob data))

/-- What git reads in a tree that was written for a map: the files below the root are the blobs of
the map, each once, under its path and with its bytes; the entries of every tree are strictly
increasing, no two of one name; and every blob that was written is one of the map. -/
structure ReadsAs (L : Linked) (objects : ObjectStore) (find : GitId → Option GitData) (depth : ℕ)
    (flat : BTreeMap String ObjectId) (root : GitId) (written : List GitData) : Prop where
  files : ∃ listing, gitPaths find depth root = some listing ∧ (listing.map Prod.fst).Nodup ∧
    ∀ p data, (p, data) ∈ listing ↔ BlobAt L objects flat p data
  trees : ∀ data, (.tree, data) ∈ written → ∃ entries, readTree data = some entries ∧
    (entries.Pairwise fun a b => a.key < b.key) ∧ (entries.map GitTreeEntry.name).Nodup
  blobs : ∀ data, (.blob, data) ∈ written → ∃ p, BlobAt L objects flat p data

/-- The files of one entry of a level. -/
structure EntryReads (L : Linked) (objects : ObjectStore) (find : GitId → Option GitData)
    (depth : ℕ) (flat : BTreeMap String ObjectId) (e : String × Bool × GitId)
    (part : List (Bytes × Bytes)) : Prop where
  reads : entryPaths find (gitPaths find depth) (rawEntry e) = some part
  nodup : (part.map Prod.fst).Nodup
  first : ∀ p ∈ part, p.1.takeWhile (· ≠ 47) = strBytes e.1
  mem : ∀ p data, (p, data) ∈ part ↔ ∃ path id, (path, id) ∈ flat.toList ∧ p = strBytes path ∧
    objects.get L id = .ok (some (.blob data)) ∧
      ((firstDir path = none ∧ e.1 = path) ∨ firstDir path = some e.1)

lemma takeWhile_of_notMem {l : Bytes} (h : (47 : UInt8) ∉ l) : l.takeWhile (· ≠ 47) = l :=
  List.takeWhile_eq_self_iff.mpr fun b hb => by simpa using ne_of_mem_of_not_mem hb h

/-- A file of a level. -/
lemma EntryReads.file {path : String} {id : ObjectId} {data : Bytes} {depth : ℕ} {gitId : GitId}
    (hmem : (path, id) ∈ flat.toList) (hdir : firstDir path = none)
    (hget : objects.get L id = .ok (some (.blob data))) (hfind : find gitId = some (.blob, data))
    (hapart : ∀ f ∈ flat.toList, firstDir f.1 ≠ some path) :
    EntryReads L objects find depth flat (path, false, gitId) [(strBytes path, data)] where
  reads := by
    have hmode : fileMode ≠ dirMode := by decide
    simp [entryPaths, rawEntry, hmode, hfind]
  nodup := List.nodup_singleton _
  first p hp := by
    rw [List.mem_singleton.mp hp]
    exact takeWhile_of_notMem (slash_notMem_strBytes (slash_notMem_of_none hdir))
  mem p data' := by
    rw [List.mem_singleton, Prod.mk.injEq]
    constructor
    · rintro ⟨rfl, rfl⟩
      exact ⟨path, id, hmem, rfl, hget, .inl ⟨hdir, rfl⟩⟩
    · rintro ⟨path', id', hmem', rfl, hget', ⟨-, rfl⟩ | hbelow⟩
      · have hid := Std.ExtTreeMap.mem_toList_iff_getElem?_eq_some.mp hmem
        rw [Std.ExtTreeMap.mem_toList_iff_getElem?_eq_some.mp hmem'] at hid
        obtain rfl := Option.some.inj hid
        rw [hget] at hget'
        cases hget'
        exact ⟨rfl, rfl⟩
      · exact absurd hbelow (hapart _ hmem')

/-- A directory of a level. -/
lemma EntryReads.directory {depth : ℕ} {subId : GitId} {below : List GitData}
    (hdir : '/' ∉ dir.toList) (hsub : ReadsAs L objects find depth (subFlat flat dir) subId below)
    (hapart : ∀ id, (dir, id) ∉ flat.toList) :
    ∃ part, EntryReads L objects find depth flat (dir, true, subId) part := by
  obtain ⟨listing, hlisting, hnodup, hmem⟩ := hsub.files
  refine ⟨listing.map fun p => (strBytes dir ++ 47 :: p.1, p.2), ?_, ?_, ?_, fun p data => ?_⟩
  · rw [entryPaths, rawEntry, if_pos (if_pos rfl), hlisting, Option.map_some]
  · have hinj : Function.Injective fun p : Bytes => strBytes dir ++ 47 :: p := fun p q heq =>
      (List.cons.inj (List.append_cancel_left heq)).2
    simpa [List.map_map, Function.comp_def] using hnodup.map hinj
  · intro p hp
    obtain ⟨q, -, rfl⟩ := List.mem_map.mp hp
    have hslash := slash_notMem_strBytes hdir
    rw [List.takeWhile_append_of_pos fun b hb => by simpa using ne_of_mem_of_not_mem hb hslash]
    simp
  · rw [List.mem_map]
    constructor
    · rintro ⟨⟨q, data'⟩, hq, heq⟩
      obtain ⟨rfl, rfl⟩ := Prod.mk.inj heq
      obtain ⟨path, id, hpath, rfl, hget⟩ := (hmem q data').mp hq
      exact ⟨_, id, mem_subFlat.mp hpath, (strBytes_below path).symm, hget,
        .inr (firstDir_below hdir)⟩
    · rintro ⟨path, id, hpath, rfl, hget, ⟨-, rfl⟩ | hfirst⟩
      · exact absurd hpath (hapart id)
      · obtain ⟨rest, rfl⟩ := eq_of_firstDir hfirst
        exact ⟨(strBytes rest, data), (hmem _ _).mpr ⟨rest, id, mem_subFlat.mpr hpath, rfl, hget⟩,
          by rw [strBytes_below]⟩

/-- The files of a level are those of its entries. -/
lemma files_of_entries {depth : ℕ} {made : List (String × Bool × GitId)} {root : GitId}
    (hnames : (made.map Prod.fst).Nodup)
    (hread : readTree (encodeTree made) = some ((sortedEntries made).map rawEntry))
    (hfind : find root = some (.tree, encodeTree made))
    (hparts : ∀ e ∈ made, ∃ part, EntryReads L objects find depth flat e part)
    (hall : ∀ path id data, (path, id) ∈ flat.toList →
      objects.get L id = .ok (some (.blob data)) → ∃ e ∈ made,
        (firstDir path = none ∧ e.1 = path) ∨ firstDir path = some e.1) :
    ∃ listing, gitPaths find (depth + 1) root = some listing ∧ (listing.map Prod.fst).Nodup ∧
      ∀ p data, (p, data) ∈ listing ↔ BlobAt L objects flat p data := by
  let part (e : String × Bool × GitId) : List (Bytes × Bytes) :=
    (entryPaths find (gitPaths find depth) (rawEntry e)).getD []
  have hpart : ∀ e ∈ sortedEntries made, EntryReads L objects find depth flat e (part e) := by
    intro e he
    obtain ⟨l, hl⟩ := hparts e (mem_sortedEntries.mp he)
    have heq : part e = l := by simp only [part, hl.reads, Option.getD_some]
    rwa [heq]
  have hlisting : gitPaths find (depth + 1) root = some ((sortedEntries made).flatMap part) := by
    rw [gitPaths, hfind]
    dsimp only
    rw [hread, Option.bind_some, mapM_flatten, List.flatMap_map]
    intro raw hraw
    obtain ⟨e, he, rfl⟩ := List.mem_map.mp hraw
    exact ⟨_, (hpart e he).reads⟩
  refine ⟨_, hlisting, ?_, fun p data => ?_⟩
  · -- paths below different names differ before their first slash
    rw [List.map_flatMap, List.nodup_flatMap]
    refine ⟨fun e he => (hpart e he).nodup, ?_⟩
    have hpairs : (sortedEntries made).Pairwise fun a b => a.1 ≠ b.1 :=
      List.pairwise_map.mp (nodup_sortedEntries hnames)
    refine hpairs.imp_of_mem fun {a b} ha hb hne p hpa hpb => ?_
    obtain ⟨x, hx, rfl⟩ := List.mem_map.mp hpa
    obtain ⟨y, hy, heq⟩ := List.mem_map.mp hpb
    have hfirst := (hpart a ha).first x hx
    rw [← heq, (hpart b hb).first y hy] at hfirst
    exact hne (Postcard.strBytes_injective hfirst).symm
  · rw [List.mem_flatMap]
    constructor
    · rintro ⟨e, he, hmem⟩
      obtain ⟨path, id, hpath, hp, hget, -⟩ := ((hpart e he).mem p data).mp hmem
      exact ⟨path, id, hpath, hp, hget⟩
    · rintro ⟨path, id, hpath, hp, hget⟩
      obtain ⟨e, he, hname⟩ := hall path id data hpath hget
      have he := mem_sortedEntries.mpr he
      exact ⟨e, he, ((hpart e he).mem p data).mpr ⟨path, id, hpath, hp, hget, hname⟩⟩

/-- The levels below the directories of a map were written, with everything else in `written`, and
are read as they were. -/
def LevelsBelow (L : Linked) (gix : Gix) (objects : ObjectStore)
    (find : GitId → Option GitData) (fuel : ℕ) (flat : BTreeMap String ObjectId)
    (written : List GitData) : Prop :=
  ∀ f ∈ flat.toList, ∀ dir, firstDir f.1 = some dir → ∃ subId below,
    writeGitTreeLevel L gix objects fuel (subFlat flat dir) = (.ok subId, below) ∧
      (∀ x ∈ below, x ∈ written) ∧ ReadsAs L objects find fuel (subFlat flat dir) subId below ∧
      ∃ data, (.tree, data) ∈ below ∧ subId = gix.hash .tree data

section Step

variable {fuel : ℕ} {made : List (String × Bool × GitId)} {written : List GitData}

lemma TreePaths.firstDir_ne (h : TreePaths flat) {f g : String × ObjectId} (hf : f ∈ flat.toList)
    (hg : g ∈ flat.toList) : firstDir f.1 ≠ some g.1 := by
  intro hdir
  obtain ⟨rest, hrest⟩ := eq_of_firstDir hdir
  exact h.apart g hg f hf rest hrest

lemma nodup_paths (flat : BTreeMap String ObjectId) : (flat.toList.map Prod.fst).Nodup := by
  rw [Std.ExtTreeMap.map_fst_toList_eq_keys]
  exact Std.ExtTreeMap.nodup_keys

/-- Every entry of a level can be read, with the files below it. -/
lemma entry_reads (hpaths : TreePaths flat) (hfind : GitFinds gix written find)
    (hmade : LevelWrites L gix objects (writeGitTreeLevel L gix objects fuel) flat flat.toList []
      made written)
    (hbelow : LevelsBelow L gix objects find fuel flat written) {e : String × Bool × GitId}
    (he : e ∈ made) :
    EntryReadable e ∧ '/' ∉ e.1.toList ∧ ∃ part, EntryReads L objects find fuel flat e part := by
  obtain ⟨name, isDir, oid⟩ := e
  rcases hmade.mem_made.mp he with ⟨hnone, id, data, hmem, hget, heq⟩ | ⟨-, oid', hf, hsub, heq⟩
  · obtain ⟨rfl, rfl⟩ := Prod.mk.inj heq
    have hwritten : (.blob, data) ∈ written :=
      hmade.mem_written.mpr (.inl ⟨name, id, data, hmem, hnone, hget, rfl⟩)
    obtain ⟨hne, hnul⟩ := hpaths.entry hmem (.inl ⟨hnone, rfl⟩)
    exact ⟨⟨hne, hnul, hfind.length _ hwritten⟩, slash_notMem_of_none hnone, _,
      .file hmem hnone hget (hfind.found _ hwritten) fun f hf => hpaths.firstDir_ne hf hmem⟩
  · obtain ⟨rfl, rfl⟩ := Prod.mk.inj heq
    obtain ⟨f, hf, hdir⟩ := hf
    obtain ⟨subId, below, hresult, hin, hreads, data, hdata, hid⟩ := hbelow f hf name hdir
    rw [hresult] at hsub
    obtain rfl := Except.ok.inj hsub
    obtain ⟨hne, hnul⟩ := hpaths.entry hf (.inr hdir)
    have hslash := slash_notMem_of_firstDir hdir
    have hlength : subId.bytes.length = 20 := hid ▸ hfind.length _ (hin _ hdata)
    exact ⟨⟨hne, hnul, hlength⟩, hslash, EntryReads.directory hslash hreads fun id hmem =>
      hpaths.firstDir_ne hf hmem hdir⟩

/-- Every blob of a map is in an entry of its level. -/
lemma entry_of_blob
    (hmade : LevelWrites L gix objects (writeGitTreeLevel L gix objects fuel) flat flat.toList []
      made written)
    (hbelow : LevelsBelow L gix objects find fuel flat written) {path : String} {id : ObjectId}
    {data : Bytes} (hmem : (path, id) ∈ flat.toList)
    (hget : objects.get L id = .ok (some (.blob data))) : ∃ e ∈ made,
      (firstDir path = none ∧ e.1 = path) ∨ firstDir path = some e.1 := by
  cases hdir : firstDir path with
  | none =>
      exact ⟨(path, false, gix.hash .blob data),
        hmade.mem_made.mpr (.inl ⟨hdir, id, data, hmem, hget, rfl⟩), .inl ⟨rfl, rfl⟩⟩
  | some dir =>
      obtain ⟨subId, below, hresult, -⟩ := hbelow _ hmem dir hdir
      exact ⟨(dir, true, subId), hmade.mem_made.mpr (.inr ⟨List.not_mem_nil, subId,
        ⟨_, hmem, hdir⟩, by rw [hresult], rfl⟩), .inr rfl⟩

/-- What was written at a level: a blob of the map, or something below one of its directories. -/
lemma written_cases
    (hmade : LevelWrites L gix objects (writeGitTreeLevel L gix objects fuel) flat flat.toList []
      made written)
    (hbelow : LevelsBelow L gix objects find fuel flat written) {x : GitData} (hx : x ∈ written) :
    (∃ p data, BlobAt L objects flat p data ∧ x = (.blob, data)) ∨
      ∃ dir subId below,
        ReadsAs L objects find fuel (subFlat flat dir) subId below ∧ x ∈ below := by
  rcases hmade.mem_written.mp hx with ⟨path, id, data, hmem, -, hget, rfl⟩ |
    ⟨dir, -, ⟨f, hf, hdir⟩, hx⟩
  · exact .inl ⟨_, data, ⟨path, id, hmem, rfl, hget⟩, rfl⟩
  · obtain ⟨subId, below, hresult, -, hreads, -⟩ := hbelow f hf dir hdir
    rw [hresult] at hx
    exact .inr ⟨dir, subId, below, hreads, hx⟩

/-- **A level is read as it is written**, when the levels below it are. -/
lemma level_readsAs (hpaths : TreePaths flat)
    (hfind : GitFinds gix (written ++ [(.tree, encodeTree made)]) find)
    (hmade : LevelWrites L gix objects (writeGitTreeLevel L gix objects fuel) flat flat.toList []
      made written)
    (hbelow : LevelsBelow L gix objects find fuel flat written) :
    ReadsAs L objects find (fuel + 1) flat (gix.hash .tree (encodeTree made))
      (written ++ [(.tree, encodeTree made)]) := by
  have hentry := fun e (he : e ∈ made) => entry_reads hpaths
    (hfind.mono fun x hx => List.mem_append_left _ hx) hmade hbelow he
  have hnames := hmade.names_nodup (nodup_paths flat) fun f hf g hg => hpaths.firstDir_ne hf hg
  have hread := readTree_encodeTree fun e he => (hentry e he).1
  constructor
  · exact files_of_entries hnames hread (hfind.found _
      (List.mem_append_right _ (List.mem_singleton_self _))) (fun e he => (hentry e he).2.2)
      fun path id data hmem hget => entry_of_blob hmade hbelow hmem hget
  · intro data hdata
    rcases List.mem_append.mp hdata with hdata | hdata
    · rcases written_cases hmade hbelow hdata with ⟨p, b, -, heq⟩ | ⟨dir, subId, below, hreads, hx⟩
      · cases heq
      · exact hreads.trees data hx
    · cases List.mem_singleton.mp hdata
      refine ⟨_, hread, sortedEntries_sorted ⟨hnames, fun e he => (hentry e he).2.1⟩, ?_⟩
      simpa [List.map_map, Function.comp_def, rawEntry] using
        (nodup_sortedEntries hnames).map Postcard.strBytes_injective
  · intro data hdata
    rcases List.mem_append.mp hdata with hdata | hdata
    · rcases written_cases hmade hbelow hdata with ⟨p, b, hblob, heq⟩ |
        ⟨dir, subId, below, hreads, hx⟩
      · cases heq
        exact ⟨p, hblob⟩
      · obtain ⟨p, path, id, hmem, -, hget⟩ := hreads.blobs data hx
        exact ⟨_, _, id, mem_subFlat.mp hmem, rfl, hget⟩
    · cases List.mem_singleton.mp hdata

/-- Every level is, by induction on the depth. -/
lemma writeGitTreeLevel_readsAs {root : GitId} (hpaths : TreePaths flat)
    (hfind : GitFinds gix written find)
    (h : writeGitTreeLevel L gix objects fuel flat = (.ok root, written)) :
    ReadsAs L objects find fuel flat root written ∧
      ∃ data, (.tree, data) ∈ written ∧ root = gix.hash .tree data := by
  induction fuel generalizing flat root written with
  | zero => cases h
  | succ fuel ih =>
      rw [writeGitTreeLevel] at h
      split at h
      · cases h
      next made w hw =>
      obtain ⟨hroot, rfl⟩ := Prod.mk.inj h
      obtain rfl := Except.ok.inj hroot
      obtain ⟨made', hout, hmade⟩ := levelWrites_of_ok hw
      rw [List.nil_append] at hout
      subst hout
      refine ⟨level_readsAs hpaths hfind hmade fun f hf dir hdir => ?_, _, by simp, rfl⟩
      obtain ⟨subId, hsubId⟩ :=
        (((writeTreeEntries_ok_iff).mp ⟨made, congrArg Prod.fst hw⟩ f hf).2 dir hdir).resolve_left
          List.not_mem_nil
      have hin : ∀ x ∈ (writeGitTreeLevel L gix objects fuel (subFlat flat dir)).2, x ∈ w :=
        fun x hx => hmade.mem_written.mpr (.inr ⟨dir, List.not_mem_nil, ⟨f, hf, hdir⟩, hx⟩)
      have hresult : writeGitTreeLevel L gix objects fuel (subFlat flat dir) =
        (.ok subId, (writeGitTreeLevel L gix objects fuel (subFlat flat dir)).2) :=
        Prod.ext hsubId rfl
      obtain ⟨hreads, hdata⟩ := ih (hpaths.subFlat (slash_notMem_of_firstDir hdir))
        (hfind.mono fun x hx => List.mem_append_left _ (hin x hx)) hresult
      exact ⟨subId, _, hresult, hin, hreads, hdata⟩

end Step

/-- **The git trees of a path map are faithful.**  They are written when every object of the map
can be read, and then git reads in them the blobs of the map. -/
theorem writeGitTree_faithful (hpaths : TreePaths flat) :
    ((∃ root, (writeGitTree L gix objects flat).1 = .ok root) ↔
        ∀ e ∈ flat.toList, ∃ o, objects.get L e.2 = .ok o) ∧
      ∀ root written find, writeGitTree L gix objects flat = (.ok root, written) →
        GitFinds gix written find → ReadsAs L objects find (pathBound flat) flat root written :=
  ⟨writeGitTree_ok_iff, fun _ _ _ h hfind => (writeGitTreeLevel_readsAs hpaths hfind h).1⟩

end Whole

/-! ### A file in a directory -/

def hiFile : Object := .blob [104, 105]

def hiLinked : Linked := .over [hiFile]

def hiPaths : BTreeMap String ObjectId := (∅ : BTreeMap String ObjectId).insert "d/b" hiFile.refId

/-- The ids that git gives to the file, to the directory and to the tree. -/
def hiBlobId : GitId :=
  ⟨[0x32, 0xf9, 0x5c, 0x0d, 0x12, 0x44, 0xa7, 0x8b, 0x2b, 0xe1, 0xba, 0xb8, 0xde, 0x17, 0x90, 0x6f,
    0xab, 0xb2, 0xc4, 0xa8]⟩

def hiDirId : GitId :=
  ⟨[0xa2, 0xe1, 0x68, 0x70, 0x0c, 0x79, 0x34, 0xc9, 0x79, 0x0b, 0x27, 0xd9, 0x3b, 0x39, 0xdb, 0x48,
    0x07, 0x7f, 0x5e, 0xe8]⟩

def hiTreeId : GitId :=
  ⟨[0x2f, 0xbf, 0xc1, 0xe3, 0x95, 0xe1, 0xeb, 0xde, 0x06, 0x3e, 0xaa, 0x79, 0x28, 0x50, 0x98, 0x8d,
    0x29, 0x57, 0x56, 0xaa]⟩

/-- What is written for them. -/
def hiWritten : List GitData :=
  [(.blob, [104, 105]), (.tree, encodeTree [("b", false, hiBlobId)]),
    (.tree, encodeTree [("d", true, hiDirId)])]

def hiGix : Gix where
  hash kind bytes :=
    if (kind, bytes) = (.blob, [104, 105]) then hiBlobId
    else if (kind, bytes) = (.tree, encodeTree [("b", false, hiBlobId)]) then hiDirId
    else if (kind, bytes) = (.tree, encodeTree [("d", true, hiDirId)]) then hiTreeId
    else ⟨bytes⟩
  initBare := emptyDir
  open_ _ := .error "not read"
  init_refs p := lookup_emptyDir _
  init_dirs p h := absurd h (by simp [IsDir, emptyDir])
  init_head h := by simp [IsDir, emptyDir] at h

lemma hiPaths_written : hiPaths.toList = [("d/b", hiFile.refId)] ∧
    writeGitTree hiLinked hiGix (.holding hiLinked [hiFile]) hiPaths = (.ok hiTreeId, hiWritten) ∧
    ∀ x ∈ hiWritten, (hiGix.hash x.1 x.2).bytes.length = 20 ∧
      hiWritten.find? (fun y => hiGix.hash y.1 y.2 = hiGix.hash x.1 x.2) = some x := by
  decide +kernel

lemma treePaths_hi : TreePaths hiPaths where
  segments := by
    rw [hiPaths_written.1]
    decide
  apart e he f hf rest heq := by
    rw [hiPaths_written.1] at he hf
    rw [List.mem_singleton.mp he, List.mem_singleton.mp hf] at heq
    have hlength := congrArg (fun s : String => s.toList.length) heq
    simp at hlength

/-- What git reads in it. -/
theorem writeGitTree_faithful_hi :
    ReadsAs hiLinked (.holding hiLinked [hiFile])
      (fun id => hiWritten.find? fun x => hiGix.hash x.1 x.2 = id) (pathBound hiPaths) hiPaths
      hiTreeId hiWritten :=
  (writeGitTree_faithful treePaths_hi).2 _ _ _ hiPaths_written.2.1
    ⟨fun x hx => (hiPaths_written.2.2 x hx).1, fun x hx => (hiPaths_written.2.2 x hx).2⟩

end Bole
