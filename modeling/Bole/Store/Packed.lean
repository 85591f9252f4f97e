import Bole.Store.PackIndex

/-!
The packed store (`src/store/disk.rs`, `src/store/packed.rs`): a directory of loose objects
and a directory of immutable packs.

A state holds both directories and the packs the process has loaded.  Every operation returns
its result together with the state it leaves, also when it fails.  The order in which a
directory lists its loose files is part of the state.  Input and output do what they are asked
to do; an operation can still fail on what it reads, or panic.

* `loadPacks_eq_ok`, `mem_loaded`: which packs a load finds;
* `get_eq_some`, `mem_list`: what reads and what is listed;
* `gather_eq_ok`, `mem_kept`: the objects that a repack copies.
-/

namespace Bole

open ByteString

/-! ### Loose objects -/

/-- A loose file: its zstd bytes and its modification time, if the system has one. -/
structure LooseFile where
  compressed : Bytes
  mtime : Option ℕ
deriving DecidableEq

/-- `DiskBackend`: the files under `objects/`, in listing order. -/
structure DiskBackend where
  files : AList fun _ : ObjectId => LooseFile

namespace DiskBackend

/-- `put`, at the time `mtime`. -/
def put (C : Crates) (d : DiskBackend) (id : ObjectId) (data : Bytes) (mtime : Option ℕ) :
    DiskBackend :=
  if id ∈ d.files then d else ⟨d.files.insert id ⟨C.zstd.encodeAll data, mtime⟩⟩

/-- `get`. -/
def get (C : Crates) (d : DiskBackend) (id : ObjectId) : Result (Option Bytes) :=
  match d.files.lookup id with
  | none => .ok none
  | some f =>
      match C.zstd.decodeAll f.compressed with
      | none => .error (.storage "zstd decode")
      | some data => .ok (some data)

/-- `exists`. -/
def exists_ (d : DiskBackend) (id : ObjectId) : Bool := decide (id ∈ d.files)

/-- `delete`. -/
def delete (d : DiskBackend) (id : ObjectId) : DiskBackend := ⟨d.files.erase id⟩

/-- `list`. -/
def list (d : DiskBackend) : List ObjectId := d.files.keys

end DiskBackend

/-! ### The backend -/

/-- `Pack`: a parsed index and the stem of the two files it stands for. -/
structure Pack where
  idx : PackIndex
  stem : String
deriving DecidableEq

/-- `PackedDiskBackend`: the loose files, the files of `packs/` by stem and extension, and
the packs loaded in memory. -/
structure PackedDiskBackend where
  loose : DiskBackend
  packFiles : BTreeMap String Bytes
  idxFiles : BTreeMap String Bytes
  packs : List Pack

/-- The order of the index paths: by file name. -/
def StemLe (a b : String) : Prop := (compare (a ++ ".idx") (b ++ ".idx")).isLE = true

instance : DecidableRel StemLe := fun a b =>
  inferInstanceAs (Decidable ((compare (a ++ ".idx") (b ++ ".idx")).isLE = true))

/-- The loop of `load_packs` over the sorted index paths; an index without its pack is
skipped. -/
def loadLoop (C : Crates) (packFiles idxFiles : BTreeMap String Bytes) :
    List String → Result (List Pack)
  | [] => .ok []
  | stem :: rest =>
      match idxFiles[stem]? with
      | none => .error (.io .notFound)
      | some bytes => do
          let idx ← PackIndex.parse C bytes
          let packs ← loadLoop C packFiles idxFiles rest
          if stem ∈ packFiles then .ok (⟨idx, stem⟩ :: packs) else .ok packs

/-- `load_packs`: newest first by file name. -/
def loadPacks (C : Crates) (packFiles idxFiles : BTreeMap String Bytes) : Result (List Pack) :=
  loadLoop C packFiles idxFiles (idxFiles.keys.insertionSort StemLe).reverse

/-- The stem of the pack with the given digest, `pack-<hex>`. -/
def packStem (digest : Digest) : String := "pack-" ++ digest.hex

namespace PackedDiskBackend

/-- `open` on what the directories hold. -/
def open_ (C : Crates) (loose : DiskBackend) (packFiles idxFiles : BTreeMap String Bytes) :
    Result PackedDiskBackend := do
  let packs ← loadPacks C packFiles idxFiles
  .ok ⟨loose, packFiles, idxFiles, packs⟩

/-- `reload_packs`. -/
def reloadPacks (C : Crates) (s : PackedDiskBackend) : Result Unit × PackedDiskBackend :=
  match loadPacks C s.packFiles s.idxFiles with
  | .error e => (.error e, s)
  | .ok packs => (.ok (), { s with packs := packs })

/-- The loop of `in_any_pack`. -/
def probe (id : ObjectId) : List Pack → Result (Option (String × ℕ × ℕ))
  | [] => .ok none
  | p :: rest => do
      match ← p.idx.lookup id with
      | some (off, len) => .ok (some (p.stem, off, len))
      | none => probe id rest

/-- `in_any_pack`. -/
def inAnyPack (s : PackedDiskBackend) (id : ObjectId) : Result (Option (String × ℕ × ℕ)) :=
  probe id s.packs

/-- `read_pack_frame`. -/
def readPackFrame (C : Crates) (s : PackedDiskBackend) (stem : String) (offset len : ℕ) :
    Result Bytes :=
  match s.packFiles[stem]? with
  | none => .error (.io .notFound)
  | some file =>
      if maxVecLen ≤ len then .error (.panic "capacity overflow")
      else if file.length < offset + len then .error (.io .unexpectedEof)
      else do
        let (_, canonical) ← decodeFrame C (slice file offset len)
        .ok canonical

/-- `get`: loose first, then the packs. -/
def get (C : Crates) (s : PackedDiskBackend) (id : ObjectId) : Result (Option Bytes) := do
  match ← s.loose.get C id with
  | some b => .ok (some b)
  | none =>
      match ← s.inAnyPack id with
      | some (stem, off, len) => do
          let canonical ← s.readPackFrame C stem off len
          .ok (some canonical)
      | none => .ok none

/-- `exists`. -/
def exists_ (s : PackedDiskBackend) (id : ObjectId) : Result Bool :=
  if s.loose.exists_ id then .ok true
  else do
    let hit ← s.inAnyPack id
    .ok hit.isSome

/-- `put`: no loose copy of what a pack holds. -/
def put (C : Crates) (s : PackedDiskBackend) (id : ObjectId) (data : Bytes)
    (mtime : Option ℕ) : Result Unit × PackedDiskBackend :=
  match s.inAnyPack id with
  | .error e => (.error e, s)
  | .ok (some _) => (.ok (), s)
  | .ok none => (.ok (), { s with loose := s.loose.put C id data mtime })

/-- `list`: the ids of both halves, each once, in order. -/
def list (s : PackedDiskBackend) : List ObjectId :=
  (Std.ExtTreeSet.ofList (s.loose.list ++ s.packs.flatMap fun p => p.idx.ids) compare).toList

/-- The loose objects that no pack holds. -/
def looseExtra (packs : List Pack) : List ObjectId → Result ℕ
  | [] => .ok 0
  | id :: rest => do
      let hit ← probe id packs
      let n ← looseExtra packs rest
      .ok (if hit.isSome then n else n + 1)

/-- `count`. -/
def count (s : PackedDiskBackend) : Result ℕ := do
  let extra ← looseExtra s.packs s.loose.list
  .ok ((s.packs.map fun p => p.idx.count).sum + extra)

/-! ### Repack, compact and sweep -/

/-- Whether `keep` lets an id through; without a set everything is kept. -/
def keeps (keep : Option (Finset ObjectId)) (id : ObjectId) : Bool :=
  match keep with
  | none => true
  | some k => decide (id ∈ k)

/-- The gathering loop of `repack_keeping`: every listed id once, if it is kept. -/
def gatherLoop (C : Crates) (s : PackedDiskBackend) (keep : Option (Finset ObjectId)) :
    List ObjectId → Finset ObjectId → Result (List (ObjectId × Bytes))
  | [], _ => .ok []
  | id :: rest, seen =>
      if id ∈ seen then gatherLoop C s keep rest seen
      else if keeps keep id then do
        let got ← s.get C id
        let objects ← gatherLoop C s keep rest (insert id seen)
        match got with
        | some bytes => .ok ((id, bytes) :: objects)
        | none => .ok objects
      else gatherLoop C s keep rest (insert id seen)

/-- The objects `repack_keeping` copies forward: loose ids in listing order, then the ids of
the packs in probe order. -/
def gather (C : Crates) (s : PackedDiskBackend) (keep : Option (Finset ObjectId)) :
    Result (List (ObjectId × Bytes)) :=
  gatherLoop C s keep (s.loose.list ++ s.packs.flatMap fun p => p.idx.ids) ∅

/-- `write_pack_atomic`. -/
def writePackAtomic (s : PackedDiskBackend) (stem : String) (pack idx : Bytes) :
    PackedDiskBackend :=
  { s with packFiles := s.packFiles.insert stem pack, idxFiles := s.idxFiles.insert stem idx }

/-- Unlinking the two files of every given pack. -/
def unlinkPacks (s : PackedDiskBackend) (stems : List String) : PackedDiskBackend :=
  { s with
    packFiles := stems.foldl (fun m stem => m.erase stem) s.packFiles
    idxFiles := stems.foldl (fun m stem => m.erase stem) s.idxFiles }

/-- `retire_all_packs`. -/
def retireAllPacks (C : Crates) (s : PackedDiskBackend) : Result Unit × PackedDiskBackend :=
  reloadPacks C (s.unlinkPacks (s.packs.map Pack.stem))

/-- The loop that removes the loose copies of the packed objects. -/
def deleteLoose (s : PackedDiskBackend) (ids : List ObjectId) : PackedDiskBackend :=
  { s with loose := ids.foldl DiskBackend.delete s.loose }

/-- `repack_keeping`. -/
def repackKeeping (C : Crates) (s : PackedDiskBackend) (keep : Option (Finset ObjectId)) :
    Result (Option Digest) × PackedDiskBackend :=
  match s.gather C keep with
  | .error e => (.error e, s)
  | .ok [] =>
      if keep.isSome then
        match s.retireAllPacks C with
        | (.error e, s) => (.error e, s)
        | (.ok (), s) => (.ok none, s)
      else (.ok none, s)
  | .ok (o :: os) =>
      match PackBuilder.finish C ⟨o :: os⟩ with
      | .error e => (.error e, s)
      | .ok (pack, entries, digest) =>
          let written := s.writePackAtomic (packStem digest) pack
            ((PackIndex.build entries digest).encode C)
          -- superseded packs are retired only after the new one is written
          match (written.unlinkPacks (s.packs.map Pack.stem)).reloadPacks C with
          | (.error e, s) => (.error e, s)
          | (.ok (), s) => (.ok (some digest), s.deleteLoose ((o :: os).map Prod.fst))

/-- `repack`. -/
def repack (C : Crates) (s : PackedDiskBackend) : Result (Option Digest) × PackedDiskBackend :=
  s.repackKeeping C none

/-- `compact`: the number of loose objects packed. -/
def compact (C : Crates) (s : PackedDiskBackend) : Result ℕ × PackedDiskBackend :=
  match s.repack C with
  | (.error e, t) => (.error e, t)
  | (.ok _, t) => (.ok s.loose.list.length, t)

/-- Whether a loose file is protected by the grace window. -/
def withinGrace (f : LooseFile) (graceSecs now : ℕ) : Bool :=
  match f.mtime with
  | none => false
  | some mtime => decide (now < saturatingAdd mtime graceSecs)

/-- The deleting loop of `sweep` over the loose ids. -/
def sweepLoop (reachable : Finset ObjectId) (graceSecs now : ℕ) :
    List ObjectId → DiskBackend → DiskBackend
  | [], d => d
  | id :: rest, d =>
      if id ∈ reachable then sweepLoop reachable graceSecs now rest d
      else if (d.files.lookup id).any fun f => withinGrace f graceSecs now then
        sweepLoop reachable graceSecs now rest d
      else sweepLoop reachable graceSecs now rest (d.delete id)

/-- The second half of `sweep`. -/
def sweepLoose (s : PackedDiskBackend) (reachable : Finset ObjectId) (graceSecs now : ℕ) :
    PackedDiskBackend :=
  { s with loose := sweepLoop reachable graceSecs now s.loose.list s.loose }

/-- `sweep`. -/
def sweep (C : Crates) (s : PackedDiskBackend) (reachable : Finset ObjectId)
    (graceSecs now : ℕ) : Result ℕ × PackedDiskBackend :=
  match s.count with
  | .error e => (.error e, s)
  | .ok before =>
      match s.repackKeeping C (some reachable) with
      | (.error e, t) => (.error e, t)
      | (.ok _, t) =>
          let u := t.sweepLoose reachable graceSecs now
          match u.count with
          | .error e => (.error e, u)
          | .ok after => (.ok (before - after), u)

/-! ### Loading -/

/-- The index the file of a stem holds, if it parses. -/
def indexOf (C : Crates) (idxFiles : BTreeMap String Bytes) (stem : String) :
    Option PackIndex :=
  idxFiles[stem]?.bind fun bytes => (PackIndex.parse C bytes).toOption

/-- The pack a stem stands for, if both its files are there. -/
def packOf (C : Crates) (packFiles idxFiles : BTreeMap String Bytes) (stem : String) :
    Option Pack :=
  if stem ∈ packFiles then (indexOf C idxFiles stem).map fun idx => ⟨idx, stem⟩ else none

variable {C : Crates} {packFiles idxFiles : BTreeMap String Bytes}

lemma loadLoop_eq_ok {stems : List String} {packs : List Pack} :
    loadLoop C packFiles idxFiles stems = .ok packs ↔
      (∀ stem ∈ stems, (indexOf C idxFiles stem).isSome) ∧
        packs = stems.filterMap (packOf C packFiles idxFiles) := by
  induction stems generalizing packs with
  | nil =>
      simp only [loadLoop, Except.ok.injEq, List.not_mem_nil, false_implies, implies_true,
        List.filterMap_nil, true_and]
      exact eq_comm
  | cons stem rest ih =>
      rw [loadLoop]
      cases hb : idxFiles[stem]? with
      | none => simp [indexOf, hb]
      | some bytes =>
          cases hp : PackIndex.parse C bytes with
          | error e => simp [indexOf, hb, hp, bind, Except.bind, Except.toOption]
          | ok idx =>
              have hidx : indexOf C idxFiles stem = some idx := by
                simp [indexOf, hb, hp, Except.toOption]
              simp only [hp, Result.bind_eq_ok, Except.ok.injEq, exists_eq_left', ih]
              simp only [List.forall_mem_cons, hidx, Option.isSome_some, true_and]
              by_cases hm : stem ∈ packFiles
              · have hpo : packOf C packFiles idxFiles stem = some ⟨idx, stem⟩ := by
                  simp [packOf, hm, hidx]
                rw [List.filterMap_cons_some hpo]
                constructor
                · rintro ⟨ps, ⟨hall, rfl⟩, h⟩
                  exact ⟨hall, by simpa [hm, eq_comm] using h⟩
                · rintro ⟨hall, rfl⟩
                  exact ⟨_, ⟨hall, rfl⟩, by simp [hm]⟩
              · have hpo : packOf C packFiles idxFiles stem = none := by simp [packOf, hm]
                rw [List.filterMap_cons_none hpo]
                constructor
                · rintro ⟨ps, ⟨hall, rfl⟩, h⟩
                  exact ⟨hall, by simpa [hm, eq_comm] using h⟩
                · rintro ⟨hall, rfl⟩
                  exact ⟨_, ⟨hall, rfl⟩, by simp [hm]⟩

/-- Loading succeeds when every index file parses, and loads the stems that have both. -/
lemma loadPacks_eq_ok {packs : List Pack} :
    loadPacks C packFiles idxFiles = .ok packs ↔
      (∀ stem ∈ idxFiles, (indexOf C idxFiles stem).isSome) ∧
        packs = ((idxFiles.keys.insertionSort StemLe).reverse).filterMap
          (packOf C packFiles idxFiles) := by
  rw [loadPacks, loadLoop_eq_ok]
  simp

lemma packOf_stem {stem : String} {p : Pack}
    (h : packOf C packFiles idxFiles stem = some p) : p.stem = stem := by
  rw [packOf] at h
  split_ifs at h
  obtain ⟨idx, -, rfl⟩ := Option.map_eq_some_iff.mp h
  rfl

/-- A loaded pack is what its stem stands for, and every such pack is loaded. -/
lemma mem_loaded {packs : List Pack} (h : loadPacks C packFiles idxFiles = .ok packs)
    {p : Pack} : p ∈ packs ↔ packOf C packFiles idxFiles p.stem = some p := by
  obtain ⟨-, rfl⟩ := loadPacks_eq_ok.mp h
  rw [List.mem_filterMap]
  constructor
  · rintro ⟨stem, -, hp⟩
    rw [packOf_stem hp]
    exact hp
  · intro hp
    refine ⟨p.stem, ?_, hp⟩
    rw [packOf] at hp
    split_ifs at hp
    obtain ⟨idx, hidx, -⟩ := Option.map_eq_some_iff.mp hp
    obtain ⟨b, hb, -⟩ := Option.bind_eq_some_iff.mp hidx
    have hmem : p.stem ∈ idxFiles := by simp [Std.ExtTreeMap.mem_iff_isSome_getElem?, hb]
    simpa using hmem

lemma loaded_nodup {packs : List Pack} (h : loadPacks C packFiles idxFiles = .ok packs) :
    packs.Nodup := by
  obtain ⟨-, rfl⟩ := loadPacks_eq_ok.mp h
  refine List.Nodup.filterMap ?_ ?_
  · intro a b p ha hb
    rw [← packOf_stem ha, ← packOf_stem hb]
  · rw [List.nodup_reverse]
    exact (List.perm_insertionSort _ _).nodup_iff.mpr Std.ExtTreeMap.nodup_keys

/-- Nothing is loaded when no stem has both its files. -/
lemma loadPacks_eq_nil (hall : ∀ stem ∈ idxFiles, (indexOf C idxFiles stem).isSome)
    (hnone : ∀ stem, packOf C packFiles idxFiles stem = none) :
    loadPacks C packFiles idxFiles = .ok [] := by
  refine loadPacks_eq_ok.mpr ⟨hall, ?_⟩
  simp [hnone]

/-- One pack is loaded when exactly one stem has both its files. -/
lemma loadPacks_eq_singleton (hall : ∀ stem ∈ idxFiles, (indexOf C idxFiles stem).isSome)
    {p : Pack} (hp : packOf C packFiles idxFiles p.stem = some p)
    (honly : ∀ stem, stem ≠ p.stem → packOf C packFiles idxFiles stem = none) :
    loadPacks C packFiles idxFiles = .ok [p] := by
  obtain ⟨packs, hpacks⟩ : ∃ packs, loadPacks C packFiles idxFiles = .ok packs :=
    ⟨_, loadPacks_eq_ok.mpr ⟨hall, rfl⟩⟩
  have hmem : p ∈ packs := (mem_loaded hpacks).mpr hp
  have hall' : ∀ q ∈ packs, q = p := by
    intro q hq
    have hq' := (mem_loaded hpacks).mp hq
    have hstem : q.stem = p.stem := by
      by_contra hne
      rw [honly q.stem hne] at hq'
      cases hq'
    rw [hstem, hp] at hq'
    exact (Option.some.inj hq').symm
  have hnodup := loaded_nodup hpacks
  rw [hpacks]
  cases packs with
  | nil => simp at hmem
  | cons q rest =>
      have hq := hall' q (by simp)
      subst hq
      cases rest with
      | nil => rfl
      | cons r rest =>
          have hr := hall' r (by simp)
          subst hr
          simp at hnodup

lemma getElem?_foldl_erase (stems : List String) (m : BTreeMap String Bytes) (k : String) :
    (stems.foldl (fun m stem => m.erase stem) m)[k]? = if k ∈ stems then none else m[k]? := by
  induction stems generalizing m with
  | nil => simp
  | cons stem rest ih =>
      rw [List.foldl_cons, ih, Std.ExtTreeMap.getElem?_erase]
      by_cases hk : k ∈ rest
      · simp [hk]
      · by_cases hs : stem = k
        · simp [hk, hs]
        · simp [hk, hs, Ne.symm hs]

/-! ### Reading -/

lemma probe_mem {id : ObjectId} {packs : List Pack} {stem : String} {off len : ℕ}
    (h : probe id packs = .ok (some (stem, off, len))) :
    ∃ p ∈ packs, p.stem = stem ∧ p.idx.lookup id = .ok (some (off, len)) := by
  induction packs with
  | nil => simp [probe] at h
  | cons p rest ih =>
      rw [probe, Result.bind_eq_ok] at h
      obtain ⟨hit, hl, h⟩ := h
      cases hit with
      | none =>
          obtain ⟨q, hq, hrest⟩ := ih h
          exact ⟨q, List.mem_cons_of_mem _ hq, hrest⟩
      | some r =>
          obtain ⟨o, l⟩ := r
          simp only [Except.ok.injEq, Option.some.injEq, Prod.mk.injEq] at h
          obtain ⟨rfl, rfl, rfl⟩ := h
          exact ⟨p, by simp, rfl, hl⟩

/-- A read that finds something found it loose, or else in a pack. -/
lemma get_eq_some {s : PackedDiskBackend} {id : ObjectId} {b : Bytes} :
    s.get C id = .ok (some b) ↔ s.loose.get C id = .ok (some b) ∨
      (s.loose.get C id = .ok none ∧ ∃ stem off len,
        s.inAnyPack id = .ok (some (stem, off, len)) ∧
          s.readPackFrame C stem off len = .ok b) := by
  rw [get, Result.bind_eq_ok]
  constructor
  · rintro ⟨l, hl, h⟩
    cases l with
    | some x => exact Or.inl (by simpa [hl] using h)
    | none =>
        refine Or.inr ⟨hl, ?_⟩
        rw [Result.bind_eq_ok] at h
        obtain ⟨hit, hhit, h⟩ := h
        cases hit with
        | none => simp at h
        | some r =>
            obtain ⟨stem, off, len⟩ := r
            simp only [Result.bind_eq_ok, Except.ok.injEq, Option.some.injEq] at h
            obtain ⟨x, hx, rfl⟩ := h
            exact ⟨stem, off, len, hhit, hx⟩
  · rintro (hl | ⟨hl, stem, off, len, hhit, hread⟩)
    · exact ⟨some b, hl, rfl⟩
    · refine ⟨none, hl, ?_⟩
      simp only [Result.bind_eq_ok]
      exact ⟨_, hhit, by simp [hread, bind, Except.bind]⟩

lemma loose_get_of_lookup {d : DiskBackend} {id : ObjectId}
    (h : d.files.lookup id = none) : d.get C id = .ok none := by
  simp [DiskBackend.get, h]

lemma loose_get_congr {d d' : DiskBackend} {id : ObjectId}
    (h : d.files.lookup id = d'.files.lookup id) : d.get C id = d'.get C id := by
  simp [DiskBackend.get, h]

lemma lookup_of_loose_get {d : DiskBackend} {id : ObjectId} {b : Bytes}
    (h : d.get C id = .ok (some b)) : id ∈ d.list := by
  rw [DiskBackend.list, ← AList.mem_keys, ← AList.lookup_isSome]
  rw [DiskBackend.get] at h
  cases hl : d.files.lookup id with
  | none => simp [hl] at h
  | some f => rfl

lemma mem_list {s : PackedDiskBackend} {id : ObjectId} : id ∈ s.list ↔
    id ∈ s.loose.files ∨ id ∈ s.packs.flatMap fun p => p.idx.ids := by
  rw [list, Std.ExtTreeSet.mem_toList, Std.ExtTreeSet.mem_ofList, List.contains_iff_mem,
    List.mem_append, DiskBackend.list, AList.mem_keys]

/-- Every id the store can read is among the ids a repack lists. -/
lemma listed_of_get {s : PackedDiskBackend} {id : ObjectId} {b : Bytes}
    (h : s.get C id = .ok (some b)) :
    id ∈ s.loose.list ++ s.packs.flatMap fun p => p.idx.ids := by
  rw [List.mem_append]
  rcases get_eq_some.mp h with hl | ⟨-, stem, off, len, hhit, -⟩
  · exact Or.inl (lookup_of_loose_get hl)
  · obtain ⟨p, hp, -, hlook⟩ := probe_mem hhit
    refine Or.inr (List.mem_flatMap.mpr ⟨p, hp, ?_⟩)
    exact List.mem_map.mpr ⟨_, PackIndex.lookup_mem hlook, rfl⟩

/-- What reads is there. -/
lemma exists_of_get {s : PackedDiskBackend} {id : ObjectId} {b : Bytes}
    (h : s.get C id = .ok (some b)) : s.exists_ id = .ok true := by
  rw [exists_]
  by_cases hloose : s.loose.exists_ id = true
  · rw [if_pos hloose]
  · rw [if_neg hloose]
    rcases get_eq_some.mp h with hl | ⟨-, stem, off, len, hhit, -⟩
    · refine absurd ?_ hloose
      rw [DiskBackend.exists_, decide_eq_true_eq]
      exact AList.mem_keys.mpr (lookup_of_loose_get hl)
    · rw [hhit]
      rfl

/-! ### What a repack gathers -/

/-- The first occurrence of every id of a list, outside a given set. -/
def firstOccurrences : List ObjectId → Finset ObjectId → List ObjectId
  | [], _ => []
  | id :: rest, seen =>
      if id ∈ seen then firstOccurrences rest seen
      else id :: firstOccurrences rest (insert id seen)

lemma mem_firstOccurrences {l : List ObjectId} {seen : Finset ObjectId} {id : ObjectId} :
    id ∈ firstOccurrences l seen ↔ id ∈ l ∧ id ∉ seen := by
  induction l generalizing seen with
  | nil => simp [firstOccurrences]
  | cons x rest ih =>
      rw [firstOccurrences]
      split_ifs with hx
      · rw [ih, List.mem_cons]
        constructor
        · exact fun h => ⟨Or.inr h.1, h.2⟩
        · rintro ⟨rfl | h, hn⟩
          · exact absurd hx hn
          · exact ⟨h, hn⟩
      · rw [List.mem_cons, ih, List.mem_cons, Finset.mem_insert, not_or]
        constructor
        · rintro (rfl | ⟨h1, h2, h3⟩)
          · exact ⟨Or.inl rfl, hx⟩
          · exact ⟨Or.inr h1, h3⟩
        · rintro ⟨h, hn⟩
          by_cases he : id = x
          · exact Or.inl he
          · exact Or.inr ⟨h.resolve_left he, he, hn⟩

lemma nodup_firstOccurrences (l : List ObjectId) (seen : Finset ObjectId) :
    (firstOccurrences l seen).Nodup := by
  induction l generalizing seen with
  | nil => simp [firstOccurrences]
  | cons x rest ih =>
      rw [firstOccurrences]
      split_ifs with hx
      · exact ih seen
      · refine List.nodup_cons.mpr ⟨?_, ih _⟩
        rw [mem_firstOccurrences]
        simp

/-- What the store reads under an id, with the id; nothing when the read fails. -/
def readable (C : Crates) (s : PackedDiskBackend) (id : ObjectId) : Option (ObjectId × Bytes) :=
  match s.get C id with
  | .ok (some b) => some (id, b)
  | _ => none

/-- The objects the store keeps, in the order in which a repack comes to them: loose objects
in listing order, then packed ones in probe order. -/
def kept (C : Crates) (s : PackedDiskBackend) (keep : Option (Finset ObjectId)) :
    List (ObjectId × Bytes) :=
  ((firstOccurrences (s.loose.list ++ s.packs.flatMap fun p => p.idx.ids) ∅).filter
    (keeps keep)).filterMap (s.readable C)

lemma gatherLoop_eq_ok {s : PackedDiskBackend} {keep : Option (Finset ObjectId)}
    {l : List ObjectId} {seen : Finset ObjectId} {objects : List (ObjectId × Bytes)}
    (h : s.gatherLoop C keep l seen = .ok objects) :
    objects = ((firstOccurrences l seen).filter (keeps keep)).filterMap (s.readable C) := by
  induction l generalizing seen objects with
  | nil => simpa [gatherLoop, firstOccurrences, eq_comm] using h
  | cons x rest ih =>
      rw [gatherLoop] at h
      rw [firstOccurrences]
      split_ifs at h ⊢ with hx hk
      · exact ih h
      · rw [Result.bind_eq_ok] at h
        obtain ⟨got, hgot, h⟩ := h
        rw [Result.bind_eq_ok] at h
        obtain ⟨rest', hrest, h⟩ := h
        rw [List.filter_cons_of_pos hk]
        cases got with
        | none =>
            have hr : s.readable C x = none := by simp [readable, hgot]
            rw [List.filterMap_cons_none hr, ← ih hrest]
            simpa [eq_comm] using h
        | some b =>
            have hr : s.readable C x = some (x, b) := by simp [readable, hgot]
            rw [List.filterMap_cons_some hr, ← ih hrest]
            simpa [eq_comm] using h
      · rw [List.filter_cons_of_neg hk]
        exact ih h

/-- **A repack gathers exactly what the store keeps.** -/
lemma gather_eq_ok {s : PackedDiskBackend} {keep : Option (Finset ObjectId)}
    {objects : List (ObjectId × Bytes)} (h : s.gather C keep = .ok objects) :
    objects = s.kept C keep := gatherLoop_eq_ok h

lemma readable_eq_some {s : PackedDiskBackend} {id : ObjectId} {p : ObjectId × Bytes} :
    s.readable C id = some p ↔ p.1 = id ∧ s.get C id = .ok (some p.2) := by
  obtain ⟨id', b⟩ := p
  rw [readable]
  split
  · next b' h =>
      rw [h]
      simp [eq_comm]
  · next hne =>
      simp only [reduceCtorEq, false_iff, not_and]
      intro _ hb
      exact hne b hb

lemma mem_kept {s : PackedDiskBackend} {keep : Option (Finset ObjectId)} {id : ObjectId}
    {b : Bytes} : (id, b) ∈ s.kept C keep ↔
      (∀ k, keep = some k → id ∈ k) ∧ s.get C id = .ok (some b) := by
  simp only [kept, List.mem_filterMap, List.mem_filter, readable_eq_some, mem_firstOccurrences]
  constructor
  · rintro ⟨id', ⟨⟨-, -⟩, hk⟩, rfl, hb⟩
    refine ⟨fun k hkeep => ?_, hb⟩
    simpa [hkeep, keeps] using hk
  · rintro ⟨hk, hb⟩
    refine ⟨id, ⟨⟨listed_of_get hb, by simp⟩, ?_⟩, rfl, hb⟩
    cases keep with
    | none => rfl
    | some k => simpa [keeps] using hk k rfl

lemma nodup_kept (s : PackedDiskBackend) (keep : Option (Finset ObjectId)) :
    ((s.kept C keep).map Prod.fst).Nodup := by
  have hsub : List.Sublist ((s.kept C keep).map Prod.fst)
      (firstOccurrences (s.loose.list ++ s.packs.flatMap fun p => p.idx.ids) ∅) := by
    rw [kept]
    generalize (firstOccurrences (s.loose.list ++ s.packs.flatMap fun p => p.idx.ids) ∅) = l
    induction l with
    | nil => simp
    | cons x rest ih =>
        by_cases hk : keeps keep x = true
        · rw [List.filter_cons_of_pos hk]
          cases hr : s.readable C x with
          | none =>
              rw [List.filterMap_cons_none hr]
              exact ih.cons x
          | some p =>
              rw [List.filterMap_cons_some hr, List.map_cons, (readable_eq_some.mp hr).1]
              exact ih.cons_cons x
        · rw [List.filter_cons_of_neg hk]
          exact ih.cons x
  exact (nodup_firstOccurrences _ _).sublist hsub

end PackedDiskBackend

end Bole
