import Bole.Lib.Utf8
import Bole.Postcard
import Bole.Repo.GitImport

/-!
The files of imported git trees (`translate_tree` in `src/repo/git_import.rs`).

* `Stands`: what is recorded is what it stands for; translations preserve it;
* `sameFiles_iff`: one level of a tree keeps its files if each entry that has some is the last of
  its name;
* `translateTree_files_iff`: a translated tree has the files of the git tree, each once, exactly if
  that is so in every tree below it.
-/

namespace Bole

/-! ### What git holds -/

/-- An entry of a git tree, with the bytes of its name. -/
structure RawEntry where
  mode : GitMode
  filename : Bytes
  oid : GitId
deriving DecidableEq

/-- `entry.filename().to_string()`: what is not UTF-8 is replaced. -/
def RawEntry.name (e : RawEntry) : String := String.ofList (Utf8.lossy e.filename)

/-- What the loop over the tree sees. -/
def RawEntry.entry (e : RawEntry) : GitEntry := ⟨e.mode, e.name, e.oid⟩

/-- The blobs and the trees of a git repository. -/
structure GitContents where
  blob : GitId → Option Bytes
  tree : GitId → Option (List RawEntry)

namespace GitContents

/-- An object of the mode of an entry that names it. -/
def Has (G : GitContents) : GitMode → GitId → Prop
  | .blob, x => (G.blob x).isSome
  | .tree, x => (G.tree x).isSome
  | .commit, _ => True

/-- No object is of two kinds, and the entries of trees name objects of their modes. -/
structure WF (G : GitContents) : Prop where
  apart : ∀ x data, G.blob x = some data → G.tree x = none
  has : ∀ x es, G.tree x = some es → ∀ e ∈ es, G.Has e.mode e.oid

/-- The entries of a tree as they are converted. -/
def converted (es : List RawEntry) : List (Except String GitEntry) := es.map fun e => .ok e.entry

/-- The files of an object: the numbers and the names of the entries on the way, and the data. -/
inductive File (G : GitContents) : GitMode → GitId → List ℕ → List RawEntry → Bytes → Prop where
  | blob {x : GitId} {data : Bytes} : G.blob x = some data → File G .blob x [] [] data
  | tree {x : GitId} {es : List RawEntry} {i : ℕ} {e : RawEntry} {is : List ℕ}
      {path : List RawEntry} {data : Bytes} : G.tree x = some es → es[i]? = some e →
      File G e.mode e.oid is path data → File G .tree x (i :: is) (e :: path) data

/-- The object is a blob, or a tree with one below it. -/
def Occupied (G : GitContents) (mode : GitMode) (x : GitId) : Prop :=
  ∃ is path data, G.File mode x is path data

/-- The entry is not a submodule, and no later one has the name that it is converted to. -/
def Last (es : List RawEntry) (i : ℕ) (e : RawEntry) : Prop :=
  es[i]? = some e ∧ e.mode ≠ .commit ∧
    ∀ j e', i < j → es[j]? = some e' → e'.mode ≠ .commit → e'.name ≠ e.name

/-- Every entry of the tree that is a blob, or a tree with one below it, is the last of its name. -/
def Distinct (G : GitContents) (es : List RawEntry) : Prop :=
  ∀ i e, es[i]? = some e → G.Occupied e.mode e.oid → Last es i e

/-- One tree names the other. -/
def Names (G : GitContents) (x y : GitId) : Prop :=
  ∃ es e, G.tree x = some es ∧ e ∈ es ∧ e.mode = .tree ∧ e.oid = y

/-- So it is in every tree from the given one downwards. -/
def Separated (G : GitContents) (x : GitId) : Prop :=
  ∀ y es, Relation.ReflTransGen G.Names x y → G.tree y = some es → G.Distinct es

/-- What an object becomes, given the recorded ids of what it names. -/
inductive Becomes (G : GitContents) (m : IdentityMap) (x : GitId) : Object → Prop where
  | blob {data : Bytes} : G.blob x = some data → Becomes G m x (.blob data)
  | tree {es : List RawEntry} : G.tree x = some es →
      (∀ y ∈ treeChildren (converted es), (m.boleForGit y).isSome) →
      Becomes G m x (.tree ⟨(converted es).foldl (addEntry m.idOf) ∅⟩)

end GitContents

/-- What `gix` returns for the blobs and the trees of a repository; a commit is neither, and names
a tree. -/
structure GitRepo.Reads (g : GitRepo) (G : GitContents) : Prop where
  blob : ∀ x data, G.blob x = some data → ∃ o, g.findObject x = .ok o ∧ o.data = data
  tree : ∀ x es, G.tree x = some es →
    ∃ o, g.findObject x = .ok o ∧ o.tryIntoTree = .ok (GitContents.converted es)
  commit : ∀ x o c, g.findObject x = .ok o → o.tryIntoCommit = .ok c →
    G.blob x = none ∧ G.tree x = none ∧ ∀ root, c.treeId = .ok root → (G.tree root).isSome

/-- The files of an object of a store: the names on the way, and the data. -/
inductive StoredFile (L : Linked) (s : ObjectStore) :
    EntryKind → ObjectId → List String → Bytes → Prop where
  | blob {id : ObjectId} {data : Bytes} : s.object L id = some (.blob data) →
      StoredFile L s .blob id [] data
  | tree {id : ObjectId} {t : Tree} {name : String} {e : TreeEntry} {path : List String}
      {data : Bytes} : s.object L id = some (.tree t) → t.entries[name]? = some e →
      StoredFile L s e.kind e.id path data → StoredFile L s .tree id (name :: path) data

/-- The kind of an entry that is not a submodule. -/
def GitMode.kind : GitMode → EntryKind
  | .tree => .tree
  | _ => .blob

/-- An object of the store has the files of a git object under their names, each once. -/
structure SameFiles (L : Linked) (s : ObjectStore) (G : GitContents) (mode : GitMode) (x : GitId)
    (id : ObjectId) : Prop where
  files : ∀ names data, StoredFile L s mode.kind id names data ↔
    ∃ is path, G.File mode x is path data ∧ names = path.map RawEntry.name
  once : ∀ is path data is' path' data', G.File mode x is path data →
    G.File mode x is' path' data' → path.map RawEntry.name = path'.map RawEntry.name → is = is'

/-- What is recorded is what it stands for. -/
def Stands (L : Linked) (G : GitContents) (s : ObjectStore) (m : IdentityMap) : Prop :=
  ∀ x id, m.boleForGit x = some id → (G.blob x).isSome ∨ (G.tree x).isSome →
    ∃ obj, G.Becomes m x obj ∧ s.object L id = some obj

variable {L : Linked} {g : GitRepo} {G : GitContents} {mtime : Option ℕ}

/-! ### Records -/

namespace GitContents

lemma Becomes.mono {m m' : IdentityMap} (hm : m.Below m') {x : GitId} {obj : Object}
    (h : G.Becomes m x obj) : G.Becomes m' x obj := by
  cases h with
  | blob hblob => exact .blob hblob
  | @tree es htree hall =>
      rw [foldl_addEntry_congr fun y hy => (hm.idOf_eq (hall y hy)).symm]
      refine .tree htree fun y hy => ?_
      obtain ⟨id, hid⟩ := Option.isSome_iff_exists.mp (hall y hy)
      rw [hm y id hid]
      rfl

lemma mem_converted {es : List RawEntry} {e : GitEntry} :
    .ok e ∈ converted es ↔ ∃ raw ∈ es, raw.entry = e := by
  simp [converted]

end GitContents

open GitContents

lemma stands_new (s : ObjectStore) : Stands L G s .new := by
  intro x id hid
  cases hid

lemma Stands.grows {s s' : ObjectStore} {m : IdentityMap} (h : Stands L G s m)
    (hs : s.Grows L s') : Stands L G s' m := by
  intro x id hid hhas
  obtain ⟨obj, hbecomes, hget⟩ := h x id hid hhas
  exact ⟨obj, hbecomes, hs _ _ hget⟩

/-- A record of an object that is neither a blob nor a tree. -/
lemma Stands.insert_other {s : ObjectStore} {m : IdentityMap} (h : Stands L G s m) {x : GitId}
    (hx : m.boleForGit x = none) (hblob : G.blob x = none) (htree : G.tree x = none)
    (id : ObjectId) : Stands L G s (m.insert x id) := by
  intro y id' hid' hhas
  rw [IdentityMap.boleForGit_insert] at hid'
  split_ifs at hid' with hyx
  · subst hyx
    rw [hblob, htree] at hhas
    simp at hhas
  · obtain ⟨obj, hbecomes, hget⟩ := h y id' hid' hhas
    exact ⟨obj, hbecomes.mono (IdentityMap.below_insert hx id), hget⟩

/-- A record of what an object becomes. -/
lemma Stands.insert {s : ObjectStore} {m : IdentityMap} (h : Stands L G s m) {x : GitId}
    (hx : m.boleForGit x = none) {obj : Object} (hbecomes : G.Becomes m x obj) {id : ObjectId}
    (hget : s.object L id = some obj) : Stands L G s (m.insert x id) := by
  have hbelow := IdentityMap.below_insert hx id
  intro y id' hid' hhas
  rw [IdentityMap.boleForGit_insert] at hid'
  split_ifs at hid' with hyx
  · subst hyx
    obtain rfl := Option.some.inj hid'
    exact ⟨obj, hbecomes.mono hbelow, hget⟩
  · obtain ⟨obj', hbecomes', hget'⟩ := h y id' hid' hhas
    exact ⟨obj', hbecomes'.mono hbelow, hget'⟩

/-! ### Translations preserve the records -/

variable {rank : GitId → ℕ} {t t' : Translation} {x : GitId} {id : ObjectId} {m : IdentityMap}

/-- The records stand, and the given objects, those written from here on among them, read back. -/
structure Sound (L : Linked) (G : GitContents) (m : IdentityMap) (objs : Set Object)
    (t : Translation) : Prop where
  stands : Stands L G t.objects t.map
  faithful : t.objects.Faithful L objs
  mem : ∀ y obj, G.Becomes m y obj → obj ∈ objs

variable {objs : Set Object}

/-- The end of a translation, if it stored and recorded the object. -/
lemma Translation.write_eq_ok {obj : Object} {count : ImportSummary → ImportSummary}
    (h : t.write L mtime false x obj count = (.ok id, t')) :
    ∃ s, t.objects.put L obj mtime = (.ok id, s) ∧
      t' = ⟨s, t.map.insert x id, count t.summary⟩ := by
  rw [write, writeObject] at h
  split at h
  · cases h
  · next id' s hput =>
      obtain ⟨hid, rfl⟩ := Prod.mk.inj h
      obtain rfl := Except.ok.inj hid
      exact ⟨s, hput, rfl⟩

lemma Sound.write {obj : Object} {count : ImportSummary → ImportSummary} (h : Sound L G m objs t)
    (hx : t.map.boleForGit x = none) (hbecomes : G.Becomes t.map x obj)
    (hwrite : t.write L mtime false x obj count = (.ok id, t')) (hm : t'.map.Below m) :
    Sound L G m objs t' := by
  obtain ⟨s, hput, rfl⟩ := Translation.write_eq_ok hwrite
  have hbelow : t.map.Below m := (IdentityMap.below_insert hx id).trans hm
  have hok : (t.objects.put L obj mtime).1 = .ok id := by rw [hput]
  obtain ⟨hfaithful, hget⟩ := h.faithful.put (h.mem x obj (hbecomes.mono hbelow)) hok
  have hgrows := ObjectStore.put_grows L t.objects obj mtime
  rw [hput] at hfaithful hget hgrows
  exact ⟨(h.stands.grows hgrows).insert hx hbecomes (ObjectStore.object_eq_some.mpr hget),
    hfaithful, h.mem⟩

lemma translateBlob_sound (hg : g.Reads G) (hblob : (G.blob x).isSome) (h : Sound L G m objs t)
    (htrans : translateBlob L g mtime false x t = (.ok id, t')) (hm : t'.map.Below m) :
    Sound L G m objs t' := by
  obtain ⟨data, hdata⟩ := Option.isSome_iff_exists.mp hblob
  obtain ⟨o, ho, rfl⟩ := hg.blob x data hdata
  rw [translateBlob] at htrans
  split at htrans
  · obtain ⟨-, rfl⟩ := Prod.mk.inj htrans
    exact h
  · next hx =>
      rw [ho] at htrans
      exact h.write hx (.blob hdata) htrans hm

/-- The loop over the entries, given what the translation of the trees inside does. -/
lemma translateEntries_sound {subtree : GitId → Translation → Result ObjectId × Translation}
    (hg : g.Reads G)
    (hrec : ∀ y u u' id, subtree y u = (.ok id, u') → Translated L g mtime rank y u u' id)
    (hsub : ∀ y u u' id, (G.tree y).isSome → Sound L G m objs u → subtree y u = (.ok id, u') →
      u'.map.Below m → Sound L G m objs u')
    {es : List RawEntry} (hhas : ∀ e ∈ es, G.Has e.mode e.oid)
    {acc out : BTreeMap String TreeEntry} (h : Sound L G m objs t)
    (htrans : translateEntries L g mtime false subtree (converted es) acc t = (.ok out, t'))
    (hm : t'.map.Below m) : Sound L G m objs t' := by
  induction es generalizing acc t with
  | nil =>
      obtain ⟨-, rfl⟩ := Prod.mk.inj htrans
      exact h
  | cons e rest ih =>
      obtain ⟨hhere, hrest⟩ := List.forall_mem_cons.mp hhas
      have hbelow : ∀ {u : Translation} {acc : BTreeMap String TreeEntry},
          translateEntries L g mtime false subtree (converted rest) acc u = (.ok out, t') →
          u.map.Below m := fun hu =>
        (translateEntries_recording hrec hu).1.map_below.trans hm
      rw [converted, List.map_cons, translateEntries] at htrans
      dsimp only [RawEntry.entry] at htrans
      cases hmode : e.mode with
      | commit =>
          simp only [hmode] at htrans
          exact ih hrest h htrans
      | tree =>
          simp only [hmode] at htrans
          split at htrans
          · cases htrans
          · next id u hu =>
              rw [hmode] at hhere
              exact ih hrest (hsub _ _ _ _ hhere h hu (hbelow htrans)) htrans
      | blob =>
          simp only [hmode] at htrans
          split at htrans
          · cases htrans
          · next id u hu =>
              rw [hmode] at hhere
              exact ih hrest (translateBlob_sound hg hhere h hu (hbelow htrans)) htrans

/-- **The translation of a tree preserves the records.** -/
lemma translateTree_sound (hG : G.WF) (hg : g.Reads G) (hrank : g.Ranked rank) {depth : ℕ}
    (htree : (G.tree x).isSome) (h : Sound L G m objs t)
    (htrans : translateTree L g mtime false depth x t = (.ok id, t')) (hm : t'.map.Below m) :
    Sound L G m objs t' := by
  induction depth generalizing x t t' id with
  | zero => cases htrans
  | succ depth ih =>
      obtain ⟨es, hes⟩ := Option.isSome_iff_exists.mp htree
      obtain ⟨o, ho, hconv⟩ := hg.tree x es hes
      have hrec : ∀ y u u' id, translateTree L g mtime false depth y u = (.ok id, u') →
          Translated L g mtime rank y u u' id := fun y u u' id hu =>
        translateTree_translated hrank hu
      have hentries :
          gitResult (g.findObject x >>= GitObject.tryIntoTree) = .ok (converted es) := by
        rw [ho]
        exact congrArg gitResult hconv
      rw [translateTree] at htrans
      split at htrans
      · obtain ⟨-, rfl⟩ := Prod.mk.inj htrans
        exact h
      · next hx =>
          rw [hentries] at htrans
          dsimp only at htrans
          split at htrans
          · cases htrans
          · next out u hu =>
              obtain ⟨hrecording, habove, hsome, rfl⟩ := translateEntries_recording hrec hu
              have hxu : u.map.boleForGit x = none := by
                rw [habove x fun y hy => hrank x y ?_, hx]
                simp only [GitRepo.children, ho, hconv, List.mem_append]
                exact Or.inr hy
              have hum : u.map.Below m := by
                obtain ⟨s, -, rfl⟩ := Translation.write_eq_ok htrans
                exact (IdentityMap.below_insert hxu id).trans hm
              have hu' := translateEntries_sound hg hrec
                (fun y u u' id hy hs hu hum => ih hy hs hu hum) (hG.has x es hes) h hu hum
              exact hu'.write hxu (.tree hes hsome) htrans hm

/-! ### One level -/

section Level

variable {es : List RawEntry} {e e' : RawEntry} {i : ℕ}

lemma getElem?_concat : (es ++ [e'])[i]? = some e ↔ es[i]? = some e ∨ i = es.length ∧ e = e' := by
  rw [List.getElem?_append]
  split_ifs with hi
  · exact ⟨.inl, fun h => h.resolve_right fun heq => absurd heq.1 hi.ne⟩
  · rw [List.getElem?_eq_none (Nat.le_of_not_lt hi), List.getElem?_singleton]
    have hlength : i - es.length = 0 ↔ i = es.length := by omega
    simp [hlength, eq_comm]

lemma last_append_commit (h : e'.mode = .commit) : Last (es ++ [e']) i e ↔ Last es i e := by
  constructor
  · rintro ⟨hi, hmode, hlast⟩
    refine ⟨(getElem?_concat.mp hi).resolve_right ?_, hmode, fun j f hj hf =>
      hlast j f hj (getElem?_concat.mpr (.inl hf))⟩
    rintro ⟨-, rfl⟩
    exact hmode h
  · rintro ⟨hi, hmode, hlast⟩
    refine ⟨getElem?_concat.mpr (.inl hi), hmode, fun j f hj hf hne => ?_⟩
    rcases getElem?_concat.mp hf with hf | ⟨-, rfl⟩
    · exact hlast j f hj hf hne
    · exact absurd h hne

lemma last_append (h : e'.mode ≠ .commit) :
    Last (es ++ [e']) i e ↔ Last es i e ∧ e'.name ≠ e.name ∨ i = es.length ∧ e = e' := by
  constructor
  · rintro ⟨hi, hmode, hlast⟩
    rcases getElem?_concat.mp hi with hi | hi
    · have hlt : i < es.length := (List.getElem?_eq_some_iff.mp hi).1
      exact .inl ⟨⟨hi, hmode, fun j f hj hf => hlast j f hj (getElem?_concat.mpr (.inl hf))⟩,
        hlast es.length e' hlt (getElem?_concat.mpr (.inr ⟨rfl, rfl⟩)) h⟩
    · exact .inr hi
  · rintro (⟨⟨hi, hmode, hlast⟩, hname⟩ | ⟨rfl, rfl⟩)
    · refine ⟨getElem?_concat.mpr (.inl hi), hmode, fun j f hj hf hne => ?_⟩
      rcases getElem?_concat.mp hf with hf | ⟨-, rfl⟩
      · exact hlast j f hj hf hne
      · exact hname
    · refine ⟨getElem?_concat.mpr (.inr ⟨rfl, rfl⟩), h, fun j f hj hf hne => ?_⟩
      rcases getElem?_concat.mp hf with hf | ⟨rfl, -⟩
      · exact absurd (List.getElem?_eq_some_iff.mp hf).1 (by omega)
      · exact absurd hj (lt_irrefl _)

lemma addEntry_entry (f : GitId → ObjectId) (entries : BTreeMap String TreeEntry)
    (h : e.mode ≠ .commit) :
    addEntry f entries (.ok e.entry) = entries.insert e.name ⟨f e.oid, e.mode.kind⟩ := by
  cases hmode : e.mode with
  | commit => exact absurd hmode h
  | tree => simp only [addEntry, RawEntry.entry, hmode, GitMode.kind]
  | blob => simp only [addEntry, RawEntry.entry, hmode, GitMode.kind]

/-- **What a name stands for** in the translated tree: its last entry. -/
lemma getElem?_entries (f : GitId → ObjectId) {name : String} {v : TreeEntry} :
    ((converted es).foldl (addEntry f) ∅)[name]? = some v ↔
      ∃ i e, Last es i e ∧ e.name = name ∧ v = ⟨f e.oid, e.mode.kind⟩ := by
  induction es using List.reverseRecOn with
  | nil => simp [converted, Last]
  | append_singleton es e' ih =>
      have hfold : (converted (es ++ [e'])).foldl (addEntry f) ∅ =
          addEntry f ((converted es).foldl (addEntry f) ∅) (.ok e'.entry) := by
        rw [converted, List.map_append, List.foldl_append]
        rfl
      rw [hfold]
      by_cases hmode : e'.mode = .commit
      · simp only [last_append_commit hmode, ← ih]
        simp only [addEntry, RawEntry.entry, hmode]
      · rw [addEntry_entry f _ hmode, Std.ExtTreeMap.getElem?_insert]
        simp only [last_append hmode]
        split_ifs with hname
        · rw [Std.LawfulEqCmp.compare_eq_iff_eq] at hname
          subst hname
          constructor
          · intro hv
            exact ⟨es.length, e', .inr ⟨rfl, rfl⟩, rfl, (Option.some.inj hv).symm⟩
          · rintro ⟨i, e, ⟨-, hne⟩ | ⟨-, rfl⟩, heq, rfl⟩
            · exact absurd heq.symm hne
            · rfl
        · rw [Std.LawfulEqCmp.compare_eq_iff_eq] at hname
          rw [ih]
          constructor
          · rintro ⟨i, e, hlast, rfl, rfl⟩
            exact ⟨i, e, .inl ⟨hlast, hname⟩, rfl, rfl⟩
          · rintro ⟨i, e, ⟨hlast, -⟩ | ⟨-, rfl⟩, heq, rfl⟩
            · exact ⟨i, e, hlast, heq, rfl⟩
            · exact absurd heq hname

/-- Of two entries of a name only one is the last. -/
lemma GitContents.Last.unique {j : ℕ} (h : Last es i e) (h' : Last es j e')
    (hname : e.name = e'.name) : i = j := by
  rcases lt_trichotomy i j with hij | hij | hji
  · exact absurd hname.symm (h.2.2 j e' hij h'.1 h'.2.1)
  · exact hij
  · exact absurd hname (h'.2.2 i e hji h.1 h.2.1)

end Level

lemma file_tree {es : List RawEntry} (hes : G.tree x = some es) {is : List ℕ}
    {path : List RawEntry} {data : Bytes} : G.File .tree x is path data ↔
      ∃ i e is' path', is = i :: is' ∧ path = e :: path' ∧ es[i]? = some e ∧
        G.File e.mode e.oid is' path' data := by
  constructor
  · intro h
    cases h with
    | tree hes' hi hfile =>
        obtain rfl := Option.some.inj (hes'.symm.trans hes)
        exact ⟨_, _, _, _, rfl, rfl, hi, hfile⟩
  · rintro ⟨i, e, is', path', rfl, rfl, hi, hfile⟩
    exact .tree hes hi hfile

lemma storedFile_tree {s : ObjectStore} {tree : Tree} (htree : s.object L id = some (.tree tree))
    {names : List String} {data : Bytes} : StoredFile L s .tree id names data ↔
      ∃ name v names', names = name :: names' ∧ tree.entries[name]? = some v ∧
        StoredFile L s v.kind v.id names' data := by
  constructor
  · intro h
    cases h with
    | tree htree' hv hfile =>
        obtain rfl := Object.tree.inj (Option.some.inj (htree'.symm.trans htree))
        exact ⟨_, _, _, rfl, hv, hfile⟩
  · rintro ⟨name, v, names', rfl, hv, hfile⟩
    exact .tree htree hv hfile

lemma GitContents.Occupied.not_commit {mode : GitMode} (h : G.Occupied mode x) :
    mode ≠ .commit := by
  rintro rfl
  obtain ⟨is, path, data, hfile⟩ := h
  cases hfile

section Stored

variable {s : ObjectStore}

lemma Stands.blob (h : Stands L G s m) (hG : G.WF) (hid : m.boleForGit x = some id) {data : Bytes}
    (hdata : G.blob x = some data) : s.object L id = some (.blob data) := by
  obtain ⟨obj, hbecomes, hget⟩ := h x id hid (.inl (by rw [hdata]; rfl))
  cases hbecomes with
  | blob hdata' =>
      obtain rfl := Option.some.inj (hdata'.symm.trans hdata)
      exact hget
  | tree hes _ =>
      rw [hG.apart x data hdata] at hes
      cases hes

lemma Stands.tree (h : Stands L G s m) (hG : G.WF) (hid : m.boleForGit x = some id)
    {es : List RawEntry} (hes : G.tree x = some es) :
    s.object L id = some (.tree ⟨(converted es).foldl (addEntry m.idOf) ∅⟩) ∧
      ∀ e ∈ es, e.mode ≠ .commit → m.boleForGit e.oid = some (m.idOf e.oid) := by
  obtain ⟨obj, hbecomes, hget⟩ := h x id hid (.inr (by rw [hes]; rfl))
  cases hbecomes with
  | blob hdata =>
      rw [hG.apart x _ hdata] at hes
      cases hes
  | tree hes' hall =>
      obtain rfl := Option.some.inj (hes'.symm.trans hes)
      refine ⟨hget, fun e he hmode => ?_⟩
      obtain ⟨id', hid'⟩ := Option.isSome_iff_exists.mp (hall e.oid
        (mem_treeChildren.mpr ⟨e.entry, mem_converted.mpr ⟨e, he, rfl⟩, hmode, rfl⟩))
      rw [IdentityMap.idOf, hid']
      rfl

/-- **Every stored file is one of git's.** -/
lemma Stands.file_of_stored (h : Stands L G s m) (hG : G.WF) {mode : GitMode}
    (hhas : G.Has mode x) (hmode : mode ≠ .commit) (hid : m.boleForGit x = some id)
    {names : List String} {data : Bytes} (hfile : StoredFile L s mode.kind id names data) :
    ∃ is path, G.File mode x is path data ∧ names = path.map RawEntry.name := by
  generalize hkind : mode.kind = kind at hfile
  induction hfile generalizing mode x with
  | @blob id data hdata =>
      cases mode with
      | tree => cases hkind
      | commit => exact absurd rfl hmode
      | blob =>
          obtain ⟨data', hdata'⟩ := Option.isSome_iff_exists.mp hhas
          have hsame := (h.blob hG hid hdata').symm.trans hdata
          obtain rfl := Object.blob.inj (Option.some.inj hsame)
          exact ⟨[], [], .blob hdata', rfl⟩
  | @tree id t name v names data htree hv hfile ih =>
      cases mode with
      | blob => cases hkind
      | commit => cases hkind
      | tree =>
          obtain ⟨es, hes⟩ := Option.isSome_iff_exists.mp hhas
          obtain ⟨hget, hrecorded⟩ := h.tree hG hid hes
          obtain rfl := Object.tree.inj (Option.some.inj (htree.symm.trans hget))
          obtain ⟨i, e, hlast, rfl, rfl⟩ := (getElem?_entries _).mp hv
          have he : e ∈ es := List.mem_of_getElem? hlast.1
          obtain ⟨is, path, hgit, rfl⟩ := ih (hG.has x es hes e he) hlast.2.1
            (hrecorded e he hlast.2.1) rfl
          exact ⟨i :: is, e :: path, .tree hes hlast.1 hgit, rfl⟩

lemma Stands.sameFiles_blob (h : Stands L G s m) (hG : G.WF) (hhas : G.Has .blob x)
    (hid : m.boleForGit x = some id) : SameFiles L s G .blob x id := by
  obtain ⟨data, hdata⟩ := Option.isSome_iff_exists.mp hhas
  refine ⟨fun names data' => ⟨h.file_of_stored hG hhas (by simp) hid, ?_⟩, ?_⟩
  · rintro ⟨is, path, hfile, rfl⟩
    cases hfile with
    | blob hdata' => exact .blob (h.blob hG hid hdata')
  · rintro is path d is' path' d' hfile hfile' -
    cases hfile
    cases hfile'
    rfl

variable {es : List RawEntry}

/-- An entry that is the last of its name has its files where the name leads. -/
lemma storedFile_last {f : GitId → ObjectId} {i : ℕ} {e : RawEntry}
    (htree : s.object L id = some (.tree ⟨(converted es).foldl (addEntry f) ∅⟩))
    (hlast : Last es i e) {names : List String} {data : Bytes} :
    StoredFile L s .tree id (e.name :: names) data ↔
      StoredFile L s e.mode.kind (f e.oid) names data := by
  have hv := (getElem?_entries f).mpr ⟨i, e, hlast, rfl, rfl⟩
  rw [storedFile_tree htree]
  constructor
  · rintro ⟨name, v, names', heq, hv', hfile⟩
    obtain ⟨rfl, rfl⟩ := List.cons.inj heq
    obtain rfl := Option.some.inj (hv'.symm.trans hv)
    exact hfile
  · exact fun hfile => ⟨_, _, _, rfl, hv, hfile⟩

/-- A tree keeps its files if its entries do and those with files are the last of their names. -/
lemma Stands.sameFiles_tree (h : Stands L G s m) (hG : G.WF) (hid : m.boleForGit x = some id)
    (hes : G.tree x = some es) (hdistinct : G.Distinct es)
    (hentries : ∀ e ∈ es, e.mode ≠ .commit → SameFiles L s G e.mode e.oid (m.idOf e.oid)) :
    SameFiles L s G .tree x id := by
  obtain ⟨hget, -⟩ := h.tree hG hid hes
  have hhas : G.Has .tree x := by
    rw [Has, hes]
    rfl
  refine ⟨fun names data => ⟨h.file_of_stored hG hhas (by simp) hid, ?_⟩, ?_⟩
  · rintro ⟨is, path, hfile, rfl⟩
    obtain ⟨i, e, is, path, rfl, rfl, hi, hfile⟩ := (file_tree hes).mp hfile
    have hlast := hdistinct i e hi ⟨_, _, _, hfile⟩
    exact (storedFile_last hget hlast).mpr
      (((hentries e (List.mem_of_getElem? hi) hlast.2.1).files _ _).mpr ⟨_, _, hfile, rfl⟩)
  · intro is path data is' path' data' hfile hfile' hnames
    obtain ⟨i, e, is, path, rfl, rfl, hi, hbelow⟩ := (file_tree hes).mp hfile
    obtain ⟨i', e', is', path', rfl, rfl, hi', hbelow'⟩ := (file_tree hes).mp hfile'
    obtain ⟨hname, hrest⟩ := List.cons.inj hnames
    have hlast := hdistinct i e hi ⟨_, _, _, hbelow⟩
    obtain rfl := hlast.unique (hdistinct i' e' hi' ⟨_, _, _, hbelow'⟩) hname
    obtain rfl := Option.some.inj (hi.symm.trans hi')
    rw [(hentries e (List.mem_of_getElem? hi) hlast.2.1).once _ _ _ _ _ _ hbelow hbelow' hrest]

/-- Where a tree keeps its files, the entries with files are the last of their names. -/
lemma Stands.distinct (h : Stands L G s m) (hG : G.WF) (hid : m.boleForGit x = some id)
    (hes : G.tree x = some es) (hsame : SameFiles L s G .tree x id) : G.Distinct es := by
  obtain ⟨hget, hrecorded⟩ := h.tree hG hid hes
  rintro i e hi ⟨is, path, data, hfile⟩
  have hgit : G.File .tree x (i :: is) (e :: path) data := .tree hes hi hfile
  -- the file is stored under the last entry of the name, and that entry has it
  obtain ⟨name, v, names, hnames, hv, hstored⟩ :=
    (storedFile_tree hget).mp ((hsame.files _ _).mpr ⟨_, _, hgit, rfl⟩)
  obtain ⟨rfl, rfl⟩ := List.cons.inj hnames
  obtain ⟨k, e', hlast, hname, rfl⟩ := (getElem?_entries _).mp hv
  have he' : e' ∈ es := List.mem_of_getElem? hlast.1
  obtain ⟨is', path', hfile', hpath⟩ := h.file_of_stored hG (hG.has x es hes e' he') hlast.2.1
    (hrecorded e' he' hlast.2.1) hstored
  have hgit' : G.File .tree x (k :: is') (e' :: path') data := .tree hes hlast.1 hfile'
  have hindex := hsame.once _ _ _ _ _ _ hgit hgit'
    (by rw [List.map_cons, List.map_cons, hname, hpath])
  obtain ⟨rfl, -⟩ := List.cons.inj hindex
  obtain rfl := Option.some.inj (hi.symm.trans hlast.1)
  exact hlast

/-- Where a tree keeps its files, so do the entries that have some. -/
lemma Stands.sameFiles_entry (h : Stands L G s m) (hG : G.WF) (hid : m.boleForGit x = some id)
    (hes : G.tree x = some es) (hsame : SameFiles L s G .tree x id) {i : ℕ} {e : RawEntry}
    (hi : es[i]? = some e) (hoccupied : G.Occupied e.mode e.oid) :
    SameFiles L s G e.mode e.oid (m.idOf e.oid) := by
  obtain ⟨hget, -⟩ := h.tree hG hid hes
  have hdistinct := h.distinct hG hid hes hsame
  have hlast := hdistinct i e hi hoccupied
  constructor
  · intro names data
    rw [← storedFile_last hget hlast]
    refine (hsame.files (e.name :: names) data).trans ?_
    constructor
    · rintro ⟨is, path, hfile, hnames⟩
      obtain ⟨k, e', is', path', rfl, rfl, hk, hfile'⟩ := (file_tree hes).mp hfile
      obtain ⟨hname, rfl⟩ := List.cons.inj hnames
      obtain rfl := hlast.unique (hdistinct k e' hk ⟨_, _, _, hfile'⟩) hname
      obtain rfl := Option.some.inj (hi.symm.trans hk)
      exact ⟨is', path', hfile', rfl⟩
    · rintro ⟨is, path, hfile, rfl⟩
      exact ⟨i :: is, e :: path, .tree hes hi hfile, rfl⟩
  · intro is path data is' path' data' hfile hfile' hnames
    have hindex := hsame.once _ _ _ _ _ _ (.tree hes hi hfile) (.tree hes hi hfile')
      (by rw [List.map_cons, List.map_cons, hnames])
    exact (List.cons.inj hindex).2

end Stored

/-! ### All levels -/

lemma GitContents.separated_iff : G.Separated x ↔
    (∀ es, G.tree x = some es → G.Distinct es) ∧ ∀ y, G.Names x y → G.Separated y := by
  constructor
  · exact fun h => ⟨fun es => h x es .refl, fun y hy z es hz => h z es (.head hy hz)⟩
  · rintro ⟨hhere, hbelow⟩ y es hy hes
    rcases hy.cases_head with rfl | ⟨z, hz, hzy⟩
    · exact hhere es hes
    · exact hbelow z hz y es hzy hes

lemma GitContents.Occupied.of_names {y : GitId} (h : G.Occupied .tree y) (hxy : G.Names x y) :
    G.Occupied .tree x := by
  obtain ⟨es, e, hes, he, hmode, rfl⟩ := hxy
  obtain ⟨is, path, data, hfile⟩ := h
  obtain ⟨i, hi⟩ := List.mem_iff_getElem?.mp he
  exact ⟨i :: is, e :: path, data, .tree hes hi (hmode ▸ hfile)⟩

/-- Below a tree without files there is nothing to keep apart. -/
lemma GitContents.separated_of_not_occupied (h : ¬ G.Occupied .tree x) : G.Separated x := by
  intro y es hy hes i e hi hoccupied
  refine absurd ?_ h
  have hhere : G.Occupied .tree y := by
    obtain ⟨is, path, data, hfile⟩ := hoccupied
    exact ⟨i :: is, e :: path, data, .tree hes hi hfile⟩
  clear hes
  induction hy with
  | refl => exact hhere
  | tail _ hstep ih => exact ih (hhere.of_names hstep)

lemma GitRepo.Reads.names_children (hg : g.Reads G) {y : GitId} (h : G.Names x y) :
    y ∈ g.children x := by
  obtain ⟨es, e, hes, he, hmode, rfl⟩ := h
  obtain ⟨o, ho, hconv⟩ := hg.tree x es hes
  simp only [GitRepo.children, ho, hconv, List.mem_append]
  exact Or.inr (mem_treeChildren.mpr
    ⟨e.entry, mem_converted.mpr ⟨e, he, rfl⟩, by simp [RawEntry.entry, hmode], rfl⟩)

/-- **A recorded tree** has its files, each once, exactly if names are kept apart all the way. -/
theorem Stands.sameFiles_iff {s : ObjectStore} (hG : G.WF) (hg : g.Reads G) (hrank : g.Ranked rank)
    (h : Stands L G s m) (hhas : G.Has .tree x) (hid : m.boleForGit x = some id) :
    SameFiles L s G .tree x id ↔ G.Separated x := by
  induction hn : rank x using Nat.strong_induction_on generalizing x id with
  | _ n ih =>
      obtain ⟨es, hes⟩ := Option.isSome_iff_exists.mp hhas
      obtain ⟨hget, hrecorded⟩ := h.tree hG hid hes
      -- the trees that are named are lower
      have hbelow : ∀ e ∈ es, e.mode = .tree →
          (SameFiles L s G .tree e.oid (m.idOf e.oid) ↔ G.Separated e.oid) := by
        intro e he hmode
        have hnames : G.Names x e.oid := ⟨es, e, hes, he, hmode, rfl⟩
        have hlt : rank e.oid < n := hn ▸ hrank x e.oid (hg.names_children hnames)
        exact ih _ hlt (hmode ▸ hG.has x es hes e he) (hrecorded e he (by simp [hmode])) rfl
      rw [separated_iff]
      constructor
      · intro hsame
        refine ⟨fun es' hes' => ?_, ?_⟩
        · obtain rfl := Option.some.inj (hes.symm.trans hes')
          exact h.distinct hG hid hes hsame
        · rintro y ⟨es', e, hes', he, hmode, rfl⟩
          obtain rfl := Option.some.inj (hes.symm.trans hes')
          by_cases hoccupied : G.Occupied .tree e.oid
          · obtain ⟨i, hi⟩ := List.mem_iff_getElem?.mp he
            have hentry := h.sameFiles_entry hG hid hes hsame hi (hmode ▸ hoccupied)
            rw [hmode] at hentry
            exact (hbelow e he hmode).mp hentry
          · exact separated_of_not_occupied hoccupied
      · rintro ⟨hhere, hrest⟩
        refine h.sameFiles_tree hG hid hes (hhere es hes) fun e he hmode => ?_
        cases hm : e.mode with
        | commit => exact absurd hm hmode
        | blob => exact h.sameFiles_blob hG (hm ▸ hG.has x es hes e he) (hrecorded e he hmode)
        | tree => exact (hbelow e he hm).mpr (hrest _ ⟨es, e, hes, he, hm, rfl⟩)

/-! ### Imported trees -/

/-- The loop over the entries depends on the translation of the trees that they name. -/
lemma translateEntries_congr {sub sub' : GitId → Translation → Result ObjectId × Translation}
    {entries : List (Except String GitEntry)}
    (h : ∀ y ∈ treeChildren entries, ∀ u, sub y u = sub' y u)
    (acc : BTreeMap String TreeEntry) (t : Translation) :
    translateEntries L g mtime false sub entries acc t =
      translateEntries L g mtime false sub' entries acc t := by
  induction entries generalizing acc t with
  | nil => rfl
  | cons first rest ih =>
      cases first with
      | error msg => rfl
      | ok entry =>
          have hrest : ∀ y ∈ treeChildren rest, ∀ u, sub y u = sub' y u := by
            intro y hy u
            obtain ⟨e, he, hmode, rfl⟩ := mem_treeChildren.mp hy
            exact h _ (mem_treeChildren.mpr ⟨e, List.mem_cons_of_mem _ he, hmode, rfl⟩) u
          rw [translateEntries, translateEntries]
          cases hmode : entry.mode with
          | commit => exact ih hrest acc t
          | tree =>
              dsimp only
              rw [h entry.oid
                (mem_treeChildren.mpr ⟨entry, List.mem_cons_self, by simp [hmode], rfl⟩)]
              split
              · rfl
              · exact ih hrest _ _
          | blob =>
              dsimp only
              split
              · rfl
              · exact ih hrest _ _

/-- **Any depth above the rank of a tree** will do. -/
theorem translateTree_depth (hrank : g.Ranked rank) {depth depth' : ℕ} (h : rank x < depth)
    (h' : rank x < depth') (t : Translation) :
    translateTree L g mtime false depth x t = translateTree L g mtime false depth' x t := by
  induction depth generalizing x depth' t with
  | zero => exact absurd h (Nat.not_lt_zero _)
  | succ depth ih =>
      cases depth' with
      | zero => exact absurd h' (Nat.not_lt_zero _)
      | succ depth' =>
          rw [translateTree, translateTree]
          split
          · rfl
          · split
            · rfl
            · next entries hentries =>
                obtain ⟨o, ho, hconv⟩ := gitResult_bind_eq_ok hentries
                rw [translateEntries_congr fun y hy u => ?_]
                have hy' : y ∈ g.children x := by
                  simp only [GitRepo.children, ho, hconv, List.mem_append]
                  exact Or.inr hy
                have hlt := hrank x y hy'
                exact ih (by omega) (by omega) u

/-- **A translated tree has the files of the git tree**, each once, exactly if in no tree below it
an entry with files is followed by one of the same converted name. -/
theorem translateTree_files_iff (hG : G.WF) (hg : g.Reads G) (hrank : g.Ranked rank) {depth : ℕ}
    (hhas : (G.tree x).isSome) (hstands : Stands L G t.objects t.map)
    (h : translateTree L g mtime false depth x t = (.ok id, t'))
    (hfaithful : t.objects.Faithful L {obj | ∃ y, G.Becomes t'.map y obj}) :
    SameFiles L t'.objects G .tree x id ↔ G.Separated x := by
  have hsound := translateTree_sound hG hg hrank hhas
    ⟨hstands, hfaithful, fun y obj hbecomes => ⟨y, hbecomes⟩⟩ h (.refl _)
  exact hsound.stands.sameFiles_iff hG hg hrank hhas (translateTree_translated hrank h).recorded

lemma GitRepo.Reads.translates (hg : g.Reads G) {obj : Object} (h : G.Becomes m x obj) :
    Translates g m x obj := by
  cases h with
  | blob hdata =>
      obtain ⟨o, ho, rfl⟩ := hg.blob x _ hdata
      exact .blob ho
  | tree hes hall =>
      obtain ⟨o, ho, hconv⟩ := hg.tree x _ hes
      exact .tree ho hconv hall

/-- The end of a translation of what is neither a blob nor a tree. -/
lemma Sound.write_other {obj : Object} {count : ImportSummary → ImportSummary}
    (h : Sound L G m objs t) (hx : t.map.boleForGit x = none) (hblob : G.blob x = none)
    (htree : G.tree x = none) (hobj : obj ∈ objs)
    (hwrite : t.write L mtime false x obj count = (.ok id, t')) : Sound L G m objs t' := by
  obtain ⟨s, hput, rfl⟩ := Translation.write_eq_ok hwrite
  have hok : (t.objects.put L obj mtime).1 = .ok id := by rw [hput]
  obtain ⟨hfaithful, -⟩ := h.faithful.put hobj hok
  have hgrows := ObjectStore.put_grows L t.objects obj mtime
  rw [hput] at hfaithful hgrows
  exact ⟨(h.stands.grows hgrows).insert_other hx hblob htree id, hfaithful, h.mem⟩

/-- The translation of a commit preserves the records. -/
lemma translateCommit_sound (hG : G.WF) (hg : g.Reads G) (hrank : g.Ranked rank) {depth : ℕ}
    (h : Sound L G m {obj | ∃ y, Translates g m y obj} t)
    (htrans : translateCommit L g mtime false depth x t = (.ok id, t')) (hm : t'.map.Below m) :
    Sound L G m {obj | ∃ y, Translates g m y obj} t' := by
  rw [translateCommit] at htrans
  split at htrans
  · obtain ⟨-, rfl⟩ := Prod.mk.inj htrans
    exact ⟨h.stands, h.faithful, h.mem⟩
  · next hx =>
      split at htrans
      · cases htrans
      next commit hcommit =>
      obtain ⟨o, ho, hc⟩ := gitResult_bind_eq_ok hcommit
      obtain ⟨hblob, htree, hroot⟩ := hg.commit x o commit ho hc
      split at htrans
      · cases htrans
      next treeOid htreeOid =>
      split at htrans
      · cases htrans
      next root u hu =>
      split at htrans
      · cases htrans
      next parents hparents =>
      split at htrans
      · cases htrans
      next author hauthor =>
      have htranslated := translateTree_translated hrank hu
      obtain ⟨hsome, rfl⟩ := translateParents_eq_ok hparents
      have hchildren : ∀ y ∈ commitChildren commit, (u.map.boleForGit y).isSome := by
        intro y hy
        rw [commitChildren, gitResult_eq_ok htreeOid] at hy
        rcases List.mem_append.mp hy with hy | hy
        · obtain rfl : y = treeOid := by simpa [Except.toOption] using hy
          rw [htranslated.recorded]
          rfl
        · exact hsome y hy
      have hxu : u.map.boleForGit x = none := by
        rw [htranslated.above x (hrank x treeOid ?_), hx]
        have htree : treeOid ∈ commitChildren commit := by
          rw [commitChildren, gitResult_eq_ok htreeOid]
          simp [Except.toOption]
        simp only [GitRepo.children, ho, hc, List.mem_append]
        exact Or.inl htree
      obtain ⟨s, hput, ht'⟩ := Translation.write_eq_ok htrans
      have hum : u.map.Below m := by
        rw [ht'] at hm
        exact (IdentityMap.below_insert hxu id).trans hm
      have hu' := translateTree_sound hG hg hrank
        (hroot treeOid (gitResult_eq_ok htreeOid)) h hu hum
      have hid : u.map.idOf treeOid = root := by
        rw [IdentityMap.idOf, htranslated.recorded]
        rfl
      refine hu'.write_other hxu hblob htree ⟨x, Translates.mono hum ?_⟩ htrans
      rw [← hid]
      exact .commit ho hc (gitResult_eq_ok htreeOid) (gitResult_eq_ok hauthor) hchildren

/-- **After the loop over the commits**, a recorded tree has the files of the git tree, each once,
exactly if names are kept apart in it. -/
theorem translateCommits_files_iff (hG : G.WF) (hg : g.Reads G) (hrank : g.Ranked rank) {depth : ℕ}
    {commits : List GitId} (hstands : Stands L G t.objects t.map)
    (h : translateCommits L g mtime false depth commits t = (.ok (), t'))
    (hfaithful : t.objects.Faithful L {obj | ∃ y, Translates g t'.map y obj})
    (hhas : (G.tree x).isSome) (hid : t'.map.boleForGit x = some id) :
    SameFiles L t'.objects G .tree x id ↔ G.Separated x := by
  have hsound : Sound L G t'.map {obj | ∃ y, Translates g t'.map y obj} t :=
    ⟨hstands, hfaithful, fun y obj hbecomes => ⟨y, hg.translates hbecomes⟩⟩
  clear hstands hfaithful
  suffices Sound L G t'.map {obj | ∃ y, Translates g t'.map y obj} t' from
    this.stands.sameFiles_iff hG hg hrank hhas hid
  generalize hm : t'.map = m at hsound ⊢
  clear hhas hid
  induction commits generalizing t with
  | nil =>
      obtain ⟨-, rfl⟩ := Prod.mk.inj h
      exact hsound
  | cons oid rest ih =>
      rw [translateCommits] at h
      split at h
      · cases h
      · next id u hu =>
          have hbelow : u.map.Below m := hm ▸ (translateCommits_recording hrank h).map_below
          exact ih h (translateCommit_sound hG hg hrank hsound hu hbelow)

/-! ### Names that are texts -/

/-- In every tree from the given one downwards the names are texts, and no two are the same. -/
def GitContents.Textual (G : GitContents) (x : GitId) : Prop :=
  ∀ y es, Relation.ReflTransGen G.Names x y → G.tree y = some es →
    (es.map RawEntry.filename).Nodup ∧ ∀ e ∈ es, ∃ text, e.filename = Utf8.encode text

/-- **Names that are UTF-8** are kept apart. -/
lemma GitContents.Textual.separated (h : G.Textual x) : G.Separated x := by
  intro y es hy hes i e hi hoccupied
  obtain ⟨hnodup, htexts⟩ := h y es hy hes
  refine ⟨hi, hoccupied.not_commit, fun j e' hij hj _ hname => ?_⟩
  obtain ⟨text, htext⟩ := htexts e (List.mem_of_getElem? hi)
  obtain ⟨text', htext'⟩ := htexts e' (List.mem_of_getElem? hj)
  rw [RawEntry.name, RawEntry.name, htext, htext', Utf8.lossy_encode, Utf8.lossy_encode] at hname
  have hsame : e'.filename = e.filename := by
    rw [htext, htext', String.ofList_injective hname]
  have hfilename : ∀ (k : ℕ) (f : RawEntry), es[k]? = some f →
      (es.map RawEntry.filename)[k]? = some f.filename := by
    intro k f hk
    rw [List.getElem?_map, hk]
    rfl
  have hlt : j < (es.map RawEntry.filename).length := by
    rw [List.length_map]
    exact (List.getElem?_eq_some_iff.mp hj).1
  refine List.nodup_iff_getElem?_ne_getElem?.mp hnodup i j hij hlt ?_
  rw [hfilename i e hi, hfilename j e' hj, hsame]

/-! ### A tree of two files -/

namespace ImportTrees

def oneId : GitId := ⟨[1]⟩
def twoId : GitId := ⟨[2]⟩
def treeId : GitId := ⟨[3]⟩

/-- Two files, and the tree that has them under the given names. -/
def contents (a b : Bytes) : GitContents where
  blob x := if x = oneId then some (ascii "one") else if x = twoId then some (ascii "two") else none
  tree x := if x = treeId then some [⟨.blob, a, oneId⟩, ⟨.blob, b, twoId⟩] else none

def git (a b : Bytes) : GitRepo where
  references := .ok []
  findObject x :=
    match (contents a b).blob x, (contents a b).tree x with
    | some data, _ => .ok ⟨data, .error "none", .error "none", none⟩
    | none, some es => .ok ⟨ascii "tree", .error "none", .ok (converted es), none⟩
    | none, none => .error "none"
  directTarget _ := none

def one : Object := .blob (ascii "one")
def two : Object := .blob (ascii "two")

def tree (a b : Bytes) : Object :=
  .tree ⟨(converted [⟨.blob, a, oneId⟩, ⟨.blob, b, twoId⟩]).foldl
    (addEntry fun x => if x = oneId then one.refId else two.refId) ∅⟩

/-- The crates with a codec for these objects. -/
def linked (a b : Bytes) : Linked := .over [one, two, tree a b]

/-- The translation of the tree into an empty store. -/
def translated (a b : Bytes) : Result ObjectId × Translation :=
  translateTree (linked a b) (git a b) none false 2 treeId ⟨⟨.memory ∅⟩, .new, .default⟩

variable {a b : Bytes}

lemma translated_ok {id : ObjectId} (h : (translated a b).1 = .ok id) :
    translateTree (linked a b) (git a b) none false 2 treeId ⟨⟨.memory ∅⟩, .new, .default⟩ =
      (.ok id, (translated a b).2) := by
  rw [← h]
  rfl

lemma blob_cases {x : GitId} {data : Bytes} (h : (contents a b).blob x = some data) :
    (x = oneId ∧ data = ascii "one") ∨ (x = twoId ∧ data = ascii "two") := by
  simp only [contents] at h
  split_ifs at h with h1 h2
  · exact .inl ⟨h1, (Option.some.inj h).symm⟩
  · exact .inr ⟨h2, (Option.some.inj h).symm⟩

lemma tree_cases {x : GitId} {es : List RawEntry} (h : (contents a b).tree x = some es) :
    x = treeId ∧ es = [⟨.blob, a, oneId⟩, ⟨.blob, b, twoId⟩] := by
  simp only [contents] at h
  split_ifs at h with hx
  exact ⟨hx, (Option.some.inj h).symm⟩

lemma contents_wf : (contents a b).WF := by
  constructor
  · intro x data hdata
    obtain ⟨rfl, -⟩ | ⟨rfl, -⟩ := blob_cases hdata <;> rfl
  · intro x es hes e he
    obtain ⟨-, rfl⟩ := tree_cases hes
    simp only [List.mem_cons, List.not_mem_nil, or_false] at he
    rcases he with rfl | rfl <;> rfl

lemma git_reads : (git a b).Reads (contents a b) where
  blob x data hdata := by
    obtain ⟨rfl, rfl⟩ | ⟨rfl, rfl⟩ := blob_cases hdata <;> exact ⟨_, rfl, rfl⟩
  tree x es hes := by
    obtain ⟨rfl, rfl⟩ := tree_cases hes
    exact ⟨_, rfl, rfl⟩
  commit x o c ho hc := by
    simp only [git] at ho
    split at ho
    · obtain rfl := Except.ok.inj ho
      cases hc
    · obtain rfl := Except.ok.inj ho
      cases hc
    · cases ho

lemma git_ranked : (git a b).Ranked fun x => (x.bytes.headD 0).toNat := by
  intro x y hy
  rw [GitRepo.children] at hy
  simp only [git] at hy
  split at hy
  · cases hy
  · next o ho =>
      split at ho
      · obtain rfl := Except.ok.inj ho
        simp [Except.toOption] at hy
      · next es _ hes =>
          obtain rfl := Except.ok.inj ho
          obtain ⟨rfl, rfl⟩ := tree_cases hes
          obtain rfl | rfl : y = oneId ∨ y = twoId := by
            simpa [Except.toOption, treeChildren, converted, RawEntry.entry] using hy
          · decide
          · decide
      · cases ho

/-- What the translation writes, if the files are recorded under their ids. -/
lemma mem_objects {m : IdentityMap} (hone : m.idOf oneId = one.refId)
    (htwo : m.idOf twoId = two.refId) {x : GitId} {obj : Object}
    (h : (contents a b).Becomes m x obj) : obj ∈ [one, two, tree a b] := by
  cases h with
  | blob hdata =>
      obtain ⟨-, rfl⟩ | ⟨-, rfl⟩ := blob_cases hdata <;> simp [one, two]
  | tree hes _ =>
      obtain ⟨-, rfl⟩ := tree_cases hes
      have hids : ∀ y ∈ treeChildren (converted [⟨.blob, a, oneId⟩, ⟨.blob, b, twoId⟩]),
          m.idOf y = if y = oneId then one.refId else two.refId := by
        intro y hy
        obtain rfl | rfl : y = oneId ∨ y = twoId := by
          simpa [treeChildren, converted, RawEntry.entry] using hy
        · exact hone
        · exact htwo
      rw [foldl_addEntry_congr hids]
      simp [tree]

lemma letters_evaluated :
    (translated (Utf8.encode ['a']) (Utf8.encode ['b'])).1 =
        .ok (tree (Utf8.encode ['a']) (Utf8.encode ['b'])).refId ∧
      (translated (Utf8.encode ['a']) (Utf8.encode ['b'])).2.map.idOf oneId = one.refId ∧
      (translated (Utf8.encode ['a']) (Utf8.encode ['b'])).2.map.idOf twoId = two.refId ∧
      ([one, two, tree (Utf8.encode ['a']) (Utf8.encode ['b'])].map Postcard.object).Nodup ∧
      ([one, two, tree (Utf8.encode ['a']) (Utf8.encode ['b'])].map Object.refId).Nodup := by
  decide +kernel

end ImportTrees

open ImportTrees in
/-- Two names that are texts. -/
theorem translateTree_files_letters :
    SameFiles (linked (Utf8.encode ['a']) (Utf8.encode ['b']))
      (translated (Utf8.encode ['a']) (Utf8.encode ['b'])).2.objects
      (contents (Utf8.encode ['a']) (Utf8.encode ['b'])) .tree treeId
      (tree (Utf8.encode ['a']) (Utf8.encode ['b'])).refId := by
  obtain ⟨hid, hone, htwo, hbytes, hids⟩ := letters_evaluated
  refine (translateTree_files_iff contents_wf git_reads git_ranked rfl (stands_new _)
    (translated_ok hid) ?_).mpr (Textual.separated ?_)
  · refine (ObjectStore.faithful_over hbytes hids fun o _ h => ?_).mono ?_
    · simp [ObjectStore.exists_, StorageBackend.exists_] at h
    · rintro obj ⟨y, hy⟩
      exact mem_objects hone htwo hy
  · rintro y es - hes
    obtain ⟨-, rfl⟩ := tree_cases hes
    refine ⟨by decide, fun e he => ?_⟩
    simp only [List.mem_cons, List.not_mem_nil, or_false] at he
    rcases he with rfl | rfl
    · exact ⟨_, rfl⟩
    · exact ⟨_, rfl⟩

open ImportTrees in
/-- **Two names that are no texts collapse**: of the two files one is left. -/
theorem translateTree_collapses :
    (translated [0xfe] [0xff]).1 = .ok (tree [0xfe] [0xff]).refId ∧
      ¬ SameFiles (linked [0xfe] [0xff]) (translated [0xfe] [0xff]).2.objects
        (contents [0xfe] [0xff]) .tree treeId (tree [0xfe] [0xff]).refId := by
  refine ⟨by decide +kernel, fun h => ?_⟩
  have hfirst : (contents [0xfe] [0xff]).File .tree treeId [0] [⟨.blob, [0xfe], oneId⟩]
      (ascii "one") := .tree rfl rfl (.blob rfl)
  have hsecond : (contents [0xfe] [0xff]).File .tree treeId [1] [⟨.blob, [0xff], twoId⟩]
      (ascii "two") := .tree rfl rfl (.blob rfl)
  have hnames : [(⟨.blob, [0xfe], oneId⟩ : RawEntry)].map RawEntry.name =
      [(⟨.blob, [0xff], twoId⟩ : RawEntry)].map RawEntry.name := by decide
  have hsame := h.once _ _ _ _ _ _ hfirst hsecond hnames
  cases hsame

end Bole
