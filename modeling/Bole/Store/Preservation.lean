import Bole.Reference
import Bole.Store.Packed
import Bole.Lib.Run

/-!
What the packed store keeps over runs of `repack`, `compact` and `sweep`.

A rewrite names the new pack by its digest and then unlinks every pack that was loaded.  When
what it keeps is, byte for byte, what a loaded pack already holds, the new pack takes the name
of the old one and is unlinked with it.

* `WF`: the state a process is in after it has opened the store;
* `Safe`: the condition on the state before a step under which it loses nothing;
* `repackKeeping_spec`: one safe rewrite;
* `packed_run_preserves`: a run of safe steps keeps every object that each of them keeps;
* `packed_repack_twice_loses`: a second repack with nothing written in between.
-/

namespace Bole

open ByteString Transition

namespace PackedDiskBackend

/-! ### States -/

/-- The bytes of a pack file before its trailer. -/
def packFileBody (file : Bytes) : Bytes := file.take (file.length - trailerLen)

/-- A state in which the loaded packs are those on disk, every pack file carries the name of
its digest, and what reads under an id hashes to it. -/
structure WF (C : Crates) (s : PackedDiskBackend) : Prop where
  loaded : loadPacks C s.packFiles s.idxFiles = .ok s.packs
  named : ∀ stem file, s.packFiles[stem]? = some file →
    stem = packStem (C.blake3 (packFileBody file))
  looseAddressed : ∀ id b, s.loose.get C id = .ok (some b) → C.fromContent b = id
  packAddressed : ∀ id stem off len b, s.inAnyPack id = .ok (some (stem, off, len)) →
    s.readPackFrame C stem off len = .ok b → C.fromContent b = id

/-- The state in which the rewrite of the kept objects loses nothing: no loaded pack is byte
for byte what the rewrite would write, every kept object is within the decoder's cap, and
they are fewer than the index can count.  The last field is the absence of a hash collision
between a loaded pack and the new one. -/
structure Safe (C : Crates) (s : PackedDiskBackend) (keep : Option (Finset ObjectId)) :
    Prop where
  fresh : ∀ p ∈ s.packs, ∀ file, s.packFiles[p.stem]? = some file →
    packFileBody file ≠ packBody C (s.kept C keep)
  small : ∀ p ∈ s.kept C keep, p.2.length ≤ maxObjectLen
  few : (s.kept C keep).length < 2 ^ 32
  noCollision : ∀ p ∈ s.packs, ∀ file, s.packFiles[p.stem]? = some file →
    C.blake3 (packFileBody file) = C.blake3 (packBody C (s.kept C keep)) →
    packFileBody file = packBody C (s.kept C keep)

variable {C : Crates} {s t : PackedDiskBackend} {keep : Option (Finset ObjectId)}

lemma packStem_injective : Function.Injective packStem := by
  intro a b h
  exact Digest.hex_injective ((String.append_right_inj _).mp h)

lemma WF.getAddressed (h : s.WF C) {id : ObjectId} {b : Bytes}
    (hget : s.get C id = .ok (some b)) : C.fromContent b = id := by
  rcases get_eq_some.mp hget with hl | ⟨-, stem, off, len, hhit, hread⟩
  · exact h.looseAddressed id b hl
  · exact h.packAddressed id stem off len b hhit hread

/-- In a safe state the new pack takes no loaded pack's name. -/
lemma Safe.stem_fresh (hwf : s.WF C) (hs : s.Safe C keep) :
    packStem (C.blake3 (packBody C (s.kept C keep))) ∉ s.packs.map Pack.stem := by
  intro hmem
  obtain ⟨p, hp, hstem⟩ := List.mem_map.mp hmem
  have hpo := (mem_loaded hwf.loaded).mp hp
  rw [packOf] at hpo
  split_ifs at hpo with hin
  obtain ⟨file, hfile⟩ := Option.isSome_iff_exists.mp
    (Std.ExtTreeMap.mem_iff_isSome_getElem?.mp hin)
  have hname := hwf.named p.stem file hfile
  rw [hstem] at hname
  exact hs.fresh p hp file hfile
    (hs.noCollision p hp file hfile (packStem_injective hname.symm))

/-! ### Loose deletions -/

lemma lookup_foldl_delete (ids : List ObjectId) (d : DiskBackend) (id : ObjectId) :
    (ids.foldl DiskBackend.delete d).files.lookup id =
      if id ∈ ids then none else d.files.lookup id := by
  induction ids generalizing d with
  | nil => simp
  | cons x rest ih =>
      rw [List.foldl_cons, ih]
      by_cases hr : id ∈ rest
      · simp [hr]
      · by_cases hx : id = x
        · subst hx
          simp [hr, DiskBackend.delete]
        · simp [hr, hx, DiskBackend.delete, AList.lookup_erase_ne hx]

/-- Whether the second half of a sweep leaves a loose file alone. -/
def spared (reachable : Finset ObjectId) (graceSecs now : ℕ) (d : DiskBackend)
    (id : ObjectId) : Prop :=
  id ∈ reachable ∨ ∃ f, d.files.lookup id = some f ∧ withinGrace f graceSecs now = true

lemma spared_delete {reachable : Finset ObjectId} {graceSecs now : ℕ} {d : DiskBackend}
    {id x : ObjectId} (hx : id ≠ x) :
    spared reachable graceSecs now (d.delete x) id ↔ spared reachable graceSecs now d id := by
  simp only [spared, DiskBackend.delete, AList.lookup_erase_ne hx]

/-- One turn of the deleting loop. -/
lemma sweepLoop_cons (reachable : Finset ObjectId) (graceSecs now : ℕ) (x : ObjectId)
    (rest : List ObjectId) (d : DiskBackend) :
    (spared reachable graceSecs now d x ∧ sweepLoop reachable graceSecs now (x :: rest) d =
        sweepLoop reachable graceSecs now rest d) ∨
      (¬ spared reachable graceSecs now d x ∧ sweepLoop reachable graceSecs now (x :: rest) d =
        sweepLoop reachable graceSecs now rest (d.delete x)) := by
  rw [sweepLoop]
  split_ifs with h1 h2
  · exact Or.inl ⟨Or.inl h1, rfl⟩
  · exact Or.inl ⟨Or.inr (by simpa [Option.any_eq_true] using h2), rfl⟩
  · refine Or.inr ⟨?_, rfl⟩
    rintro (h | ⟨f, hf, hg⟩)
    · exact h1 h
    · exact h2 (by simp [hf, hg])

/-- **What the deleting loop leaves**: a listed file goes unless it is spared. -/
lemma sweepLoop_lookup {reachable : Finset ObjectId} {graceSecs now : ℕ}
    (ids : List ObjectId) (d : DiskBackend) (id : ObjectId) :
    (sweepLoop reachable graceSecs now ids d).files.lookup id = d.files.lookup id ∨
      (¬ spared reachable graceSecs now d id ∧
        (sweepLoop reachable graceSecs now ids d).files.lookup id = none) := by
  induction ids generalizing d with
  | nil => exact Or.inl rfl
  | cons x rest ih =>
      rcases sweepLoop_cons reachable graceSecs now x rest d with ⟨-, h⟩ | ⟨hx, h⟩
      · rw [h]
        exact ih d
      · rw [h]
        by_cases hid : id = x
        · subst hid
          refine Or.inr ⟨hx, ?_⟩
          have hdel : (d.delete id).files.lookup id = none := AList.lookup_erase id d.files
          rcases ih (d.delete id) with h' | ⟨-, h'⟩
          · rw [h', hdel]
          · exact h'
        · have hsame : (d.delete x).files.lookup id = d.files.lookup id :=
            AList.lookup_erase_ne hid
          rw [← hsame, ← spared_delete hid]
          exact ih (d.delete x)

/-- A listed file that is not spared is deleted. -/
lemma sweepLoop_deleted {reachable : Finset ObjectId} {graceSecs now : ℕ}
    {ids : List ObjectId} {d : DiskBackend} {id : ObjectId} (hmem : id ∈ ids)
    (hs : ¬ spared reachable graceSecs now d id) :
    (sweepLoop reachable graceSecs now ids d).files.lookup id = none := by
  induction ids generalizing d with
  | nil => simp at hmem
  | cons x rest ih =>
      rcases sweepLoop_cons reachable graceSecs now x rest d with ⟨hx, h⟩ | ⟨hx, h⟩
      · have hid : id ≠ x := fun he => hs (he ▸ hx)
        rw [h]
        exact ih ((List.mem_cons.mp hmem).resolve_left hid) hs
      · rw [h]
        by_cases hid : id = x
        · subst hid
          have hdel : (d.delete id).files.lookup id = none := AList.lookup_erase id d.files
          rcases sweepLoop_lookup rest (d.delete id) id with h' | ⟨-, h'⟩
          · rw [h', hdel]
          · exact h'
        · exact ih ((List.mem_cons.mp hmem).resolve_left hid)
            (mt (spared_delete hid).mp hs)

/-! ### The new pack in place of the old ones -/

/-- The directories after the new pack is written and the loaded ones are unlinked. -/
def installed (s : PackedDiskBackend) (stem : String) (pack idx : Bytes) : PackedDiskBackend :=
  (s.writePackAtomic stem pack idx).unlinkPacks (s.packs.map Pack.stem)

lemma installed_packFiles (s : PackedDiskBackend) (stem k : String) (pack idx : Bytes) :
    (s.installed stem pack idx).packFiles[k]? =
      if k ∈ s.packs.map Pack.stem then none
      else if stem = k then some pack else s.packFiles[k]? := by
  simp only [installed, unlinkPacks, writePackAtomic, getElem?_foldl_erase,
    Std.ExtTreeMap.getElem?_insert, compare_eq_iff_eq]

lemma installed_idxFiles (s : PackedDiskBackend) (stem k : String) (pack idx : Bytes) :
    (s.installed stem pack idx).idxFiles[k]? =
      if k ∈ s.packs.map Pack.stem then none
      else if stem = k then some idx else s.idxFiles[k]? := by
  simp only [installed, unlinkPacks, writePackAtomic, getElem?_foldl_erase,
    Std.ExtTreeMap.getElem?_insert, compare_eq_iff_eq]

/-- A stem that is not loaded does not have both its files. -/
lemma WF.packOf_unloaded (hwf : s.WF C) {stem : String}
    (h : stem ∉ s.packs.map Pack.stem) : packOf C s.packFiles s.idxFiles stem = none := by
  cases hp : packOf C s.packFiles s.idxFiles stem with
  | none => rfl
  | some p =>
      have hstem := packOf_stem hp
      refine absurd (List.mem_map.mpr ⟨p, ?_, hstem⟩) h
      rw [mem_loaded hwf.loaded, hstem, hp]

lemma packOf_congr {pf pf' xf xf' : BTreeMap String Bytes} {stem : String}
    (h1 : pf[stem]? = pf'[stem]?) (h2 : xf[stem]? = xf'[stem]?) :
    packOf C pf xf stem = packOf C pf' xf' stem := by
  simp only [packOf, indexOf, Std.ExtTreeMap.mem_iff_isSome_getElem?, h1, h2]

lemma packOf_missing {pf xf : BTreeMap String Bytes} {stem : String} (h : pf[stem]? = none) :
    packOf C pf xf stem = none := by
  simp [packOf, Std.ExtTreeMap.mem_iff_isSome_getElem?, h]

/-- Every index file left after the new one is installed parses. -/
lemma WF.installed_parses (hwf : s.WF C) {stem : String} {pack idxBytes : Bytes}
    {idx : PackIndex} (hparse : PackIndex.parse C idxBytes = .ok idx) :
    ∀ k ∈ (s.installed stem pack idxBytes).idxFiles,
      (indexOf C (s.installed stem pack idxBytes).idxFiles k).isSome := by
  intro k hk
  rw [Std.ExtTreeMap.mem_iff_isSome_getElem?, installed_idxFiles] at hk
  rw [indexOf, installed_idxFiles]
  split_ifs at hk ⊢ with h1 h2
  · simp at hk
  · simp [hparse, Except.toOption]
  · have hall := (loadPacks_eq_ok.mp hwf.loaded).1 k
      (Std.ExtTreeMap.mem_iff_isSome_getElem?.mpr hk)
    simpa [indexOf] using hall

/-- Under a fresh name the new pack is the only one loaded. -/
lemma WF.load_installed (hwf : s.WF C) {stem : String} (pack : Bytes) {idxBytes : Bytes}
    {idx : PackIndex} (hparse : PackIndex.parse C idxBytes = .ok idx)
    (hfresh : stem ∉ s.packs.map Pack.stem) :
    loadPacks C (s.installed stem pack idxBytes).packFiles
      (s.installed stem pack idxBytes).idxFiles = .ok [⟨idx, stem⟩] := by
  refine loadPacks_eq_singleton (hwf.installed_parses hparse) ?_ ?_
  · have h1 := installed_packFiles s stem stem pack idxBytes
    have h2 := installed_idxFiles s stem stem pack idxBytes
    rw [if_neg hfresh, if_pos rfl] at h1 h2
    simp only [packOf, indexOf, Std.ExtTreeMap.mem_iff_isSome_getElem?, h1, h2, hparse,
      Option.isSome_some, if_true, Option.bind_some, Except.toOption, Option.map_some]
  · intro k hk
    by_cases hmem : k ∈ s.packs.map Pack.stem
    · refine packOf_missing ?_
      rw [installed_packFiles, if_pos hmem]
    · rw [← hwf.packOf_unloaded hmem]
      refine packOf_congr ?_ ?_
      · rw [installed_packFiles, if_neg hmem, if_neg (Ne.symm hk)]
      · rw [installed_idxFiles, if_neg hmem, if_neg (Ne.symm hk)]

/-- Under the name of a loaded pack the new one is unlinked with it, and nothing is loaded. -/
lemma WF.load_installed_repeat (hwf : s.WF C) {stem : String} (pack : Bytes)
    {idxBytes : Bytes} {idx : PackIndex} (hparse : PackIndex.parse C idxBytes = .ok idx)
    (hrepeat : stem ∈ s.packs.map Pack.stem) :
    loadPacks C (s.installed stem pack idxBytes).packFiles
      (s.installed stem pack idxBytes).idxFiles = .ok [] := by
  refine loadPacks_eq_nil (hwf.installed_parses hparse) fun k => ?_
  by_cases hmem : k ∈ s.packs.map Pack.stem
  · refine packOf_missing ?_
    rw [installed_packFiles, if_pos hmem]
  · have hk : stem ≠ k := fun he => hmem (he ▸ hrepeat)
    rw [← hwf.packOf_unloaded hmem]
    refine packOf_congr ?_ ?_
    · rw [installed_packFiles, if_neg hmem, if_neg hk]
    · rw [installed_idxFiles, if_neg hmem, if_neg hk]

/-- With every loaded pack unlinked, nothing is loaded. -/
lemma WF.load_unlinked (hwf : s.WF C) :
    loadPacks C (s.unlinkPacks (s.packs.map Pack.stem)).packFiles
      (s.unlinkPacks (s.packs.map Pack.stem)).idxFiles = .ok [] := by
  refine loadPacks_eq_nil (fun k hk => ?_) fun k => ?_
  · simp only [unlinkPacks, Std.ExtTreeMap.mem_iff_isSome_getElem?,
      getElem?_foldl_erase] at hk
    simp only [unlinkPacks, indexOf, getElem?_foldl_erase]
    split_ifs at hk ⊢ with h1
    · simp at hk
    · have hall := (loadPacks_eq_ok.mp hwf.loaded).1 k
        (Std.ExtTreeMap.mem_iff_isSome_getElem?.mpr hk)
      simpa [indexOf] using hall
  · by_cases hmem : k ∈ s.packs.map Pack.stem
    · refine packOf_missing ?_
      simp only [unlinkPacks, getElem?_foldl_erase, if_pos hmem]
    · rw [← hwf.packOf_unloaded hmem]
      refine packOf_congr ?_ ?_ <;> simp only [unlinkPacks, getElem?_foldl_erase, if_neg hmem]

/-! ### Reading the new pack -/

section NewPack

variable {objects : List (ObjectId × Bytes)} {pack : Bytes} {entries : List PackEntry}
  {digest : Digest}

/-- The index of a built pack survives its file. -/
lemma parse_built (hf : PackBuilder.finish C ⟨objects⟩ = .ok (pack, entries, digest))
    (hfew : objects.length < 2 ^ 32) :
    PackIndex.parse C ((PackIndex.build entries digest).encode C) =
      .ok (PackIndex.build entries digest) := by
  have hids := map_id_entriesFrom C objects headerLen
  obtain ⟨-, hentries, -, -⟩ := finish_eq_ok.mp hf
  have hlen : entries.length = objects.length := by
    have := congrArg List.length hids
    rw [← hentries] at this
    simpa using this
  refine PackIndex.parse_encode C ?_ fun e he => ?_
  · simpa [PackIndex.build, hlen] using hfew
  · obtain ⟨h1, h2⟩ := finish_entry_bound hf e (PackIndex.mem_build.mp he)
    simp only [maxVecLen] at h2
    omega

/-- A packed object within the cap is read from the new pack. -/
lemma read_built (hf : PackBuilder.finish C ⟨objects⟩ = .ok (pack, entries, digest))
    (hnodup : (objects.map Prod.fst).Nodup)
    (ht : t.packs = [⟨PackIndex.build entries digest, packStem digest⟩])
    (hfile : t.packFiles[packStem digest]? = some pack) {p : ObjectId × Bytes}
    (hp : p ∈ objects) (hsmall : p.2.length ≤ maxObjectLen) :
    ∃ off len, t.inAnyPack p.1 = .ok (some (packStem digest, off, len)) ∧
      t.readPackFrame C (packStem digest) off len =
        if C.fromContent p.2 = p.1 then .ok p.2
        else .error (.storage "pack: frame id does not match content") := by
  obtain ⟨e, he, hid, hlen, hslice⟩ := finish_entry hf hp
  have hbound := finish_entry_bound hf e he
  have hentries : (entries.map PackEntry.id).Nodup := by
    obtain ⟨-, rfl, -, -⟩ := finish_eq_ok.mp hf
    rw [map_id_entriesFrom]
    exact hnodup
  refine ⟨e.offset, e.len, ?_, ?_⟩
  · rw [inAnyPack, ht, probe, ← hid, PackIndex.lookup_build hentries he]
    rfl
  · have hframe : (encodeFrame C p.1 p.2).length < maxVecLen := by omega
    have h64 : p.2.length < 2 ^ 64 := by
      simp only [maxObjectLen] at hsmall
      omega
    simp only [readPackFrame, hfile]
    rw [if_neg (by omega), if_neg (by omega), hslice, decodeFrame_encodeFrame C hframe h64,
      if_neg (by omega)]
    by_cases hc : C.fromContent p.2 = p.1
    · rw [if_neg (not_not.mpr hc), if_pos hc]
      rfl
    · rw [if_pos hc, if_neg hc]
      rfl

/-- An id that is read from the new pack is one of the packed objects. -/
lemma mem_of_built (hf : PackBuilder.finish C ⟨objects⟩ = .ok (pack, entries, digest))
    (ht : t.packs = [⟨PackIndex.build entries digest, packStem digest⟩]) {id : ObjectId}
    {stem : String} {off len : ℕ} (h : t.inAnyPack id = .ok (some (stem, off, len))) :
    ∃ p ∈ objects, p.1 = id := by
  obtain ⟨q, hq, -, hlook⟩ := probe_mem h
  rw [ht, List.mem_singleton] at hq
  subst hq
  have hmem := PackIndex.mem_build.mp (PackIndex.lookup_mem hlook)
  obtain ⟨-, rfl, -, -⟩ := finish_eq_ok.mp hf
  have hid : id ∈ (entriesFrom C headerLen objects).map PackEntry.id :=
    List.mem_map.mpr ⟨_, hmem, rfl⟩
  rw [map_id_entriesFrom] at hid
  exact List.mem_map.mp hid

end NewPack

/-! ### One rewrite -/

/-- What a rewrite owes: the state stays well formed, every kept object reads as before, and
no loose file that is not kept is touched. -/
structure Preserved (C : Crates) (keep : Option (Finset ObjectId)) (s t : PackedDiskBackend) :
    Prop where
  wf : t.WF C
  reads : ∀ id b, s.get C id = .ok (some b) → keeps keep id = true →
    t.get C id = .ok (some b)
  loose : ∀ id, keeps keep id = false → t.loose.files.lookup id = s.loose.files.lookup id

lemma Preserved.refl (hwf : s.WF C) : Preserved C keep s s :=
  ⟨hwf, fun _ _ h _ => h, fun _ _ => rfl⟩

lemma keeps_iff {id : ObjectId} : keeps keep id = true ↔ ∀ k, keep = some k → id ∈ k := by
  cases keep with
  | none => simp [keeps]
  | some k => simp [keeps]

/-- With nothing kept, retiring the packs is a rewrite that preserves. -/
lemma retire_preserved (hwf : s.WF C) (hnone : s.kept C keep = []) :
    Preserved C keep s { s.unlinkPacks (s.packs.map Pack.stem) with packs := [] } := by
  refine ⟨⟨hwf.load_unlinked, ?_, hwf.looseAddressed, ?_⟩, ?_, fun _ _ => rfl⟩
  · intro stem file hfile
    simp only [unlinkPacks, getElem?_foldl_erase] at hfile
    split_ifs at hfile
    exact hwf.named stem file hfile
  · intro id stem off len b hhit
    simp [inAnyPack, probe] at hhit
  · intro id b hget hkeep
    have hmem : (id, b) ∈ s.kept C keep := mem_kept.mpr ⟨keeps_iff.mp hkeep, hget⟩
    rw [hnone] at hmem
    simp at hmem

/-- The state a rewrite under a fresh name ends in. -/
def rewritten (C : Crates) (s : PackedDiskBackend) (objects : List (ObjectId × Bytes))
    (pack : Bytes) (entries : List PackEntry) (digest : Digest) : PackedDiskBackend :=
  deleteLoose { s.installed (packStem digest) pack ((PackIndex.build entries digest).encode C)
    with packs := [⟨PackIndex.build entries digest, packStem digest⟩] } (objects.map Prod.fst)

lemma rewritten_preserved (hwf : s.WF C) (hs : s.Safe C keep) {pack : Bytes}
    {entries : List PackEntry} {digest : Digest}
    (hf : PackBuilder.finish C ⟨s.kept C keep⟩ = .ok (pack, entries, digest)) :
    Preserved C keep s (s.rewritten C (s.kept C keep) pack entries digest) := by
  obtain ⟨hpack, -, hdigest, -⟩ := finish_eq_ok.mp hf
  have hfresh := hs.stem_fresh hwf
  rw [← hdigest] at hfresh
  set t := s.rewritten C (s.kept C keep) pack entries digest with htdef
  have hpacks : t.packs = [⟨PackIndex.build entries digest, packStem digest⟩] := rfl
  have hfiles : ∀ k, t.packFiles[k]? = if k ∈ s.packs.map Pack.stem then none
      else if packStem digest = k then some pack else s.packFiles[k]? := fun k =>
    installed_packFiles s (packStem digest) k pack _
  have hfile : t.packFiles[packStem digest]? = some pack := by
    rw [hfiles, if_neg hfresh, if_pos rfl]
  have hlook : ∀ id, t.loose.files.lookup id =
      if id ∈ (s.kept C keep).map Prod.fst then none else s.loose.files.lookup id := fun id =>
    lookup_foldl_delete _ _ id
  have hread := fun p hp => read_built hf (nodup_kept s keep) hpacks hfile (p := p) hp
    (hs.small p hp)
  refine ⟨⟨?_, ?_, ?_, ?_⟩, ?_, ?_⟩
  · exact hwf.load_installed pack (parse_built hf hs.few) hfresh
  · intro stem file hfile'
    rw [hfiles] at hfile'
    split_ifs at hfile' with h1 h2
    · cases hfile'
      rw [← h2, hpack, packFileBody, take_body, hdigest]
    · exact hwf.named stem file hfile'
  · intro id b hget
    have hin := lookup_of_loose_get hget
    refine hwf.looseAddressed id b ?_
    rw [← hget]
    refine loose_get_congr ?_
    rw [hlook]
    split_ifs with h
    · rw [loose_get_of_lookup (by rw [hlook, if_pos h])] at hget
      cases hget
    · rfl
  · intro id stem off len b hhit hb
    obtain ⟨p, hp, rfl⟩ := mem_of_built hf hpacks hhit
    obtain ⟨off', len', hhit', hb'⟩ := hread p hp
    rw [hhit'] at hhit
    simp only [Except.ok.injEq, Option.some.injEq, Prod.mk.injEq] at hhit
    obtain ⟨rfl, rfl, rfl⟩ := hhit
    rw [hb'] at hb
    split_ifs at hb with hc
    cases hb
    exact hc
  · intro id b hget hkeep
    have hmem : (id, b) ∈ s.kept C keep := mem_kept.mpr ⟨keeps_iff.mp hkeep, hget⟩
    obtain ⟨off, len, hhit, hb⟩ := hread (id, b) hmem
    rw [if_pos (hwf.getAddressed hget)] at hb
    refine get_eq_some.mpr (Or.inr ⟨loose_get_of_lookup ?_, _, off, len, hhit, hb⟩)
    rw [hlook, if_pos (List.mem_map.mpr ⟨_, hmem, rfl⟩)]
  · intro id hkeep
    rw [hlook, if_neg]
    intro hmem
    obtain ⟨⟨id', b⟩, hp, rfl⟩ := List.mem_map.mp hmem
    have := keeps_iff.mpr (mem_kept.mp hp).1
    rw [hkeep] at this
    cases this

/-- **One safe rewrite loses nothing**, whatever it returns. -/
theorem repackKeeping_spec (hwf : s.WF C) (hs : s.Safe C keep) :
    Preserved C keep s (s.repackKeeping C keep).2 := by
  rw [repackKeeping]
  split
  · exact .refl hwf
  · next hg =>
      have hnone := (gather_eq_ok hg).symm
      split_ifs
      · have hload := hwf.load_unlinked
        simp only [retireAllPacks, reloadPacks, hload]
        exact retire_preserved hwf hnone
      · exact .refl hwf
  · next o os hg =>
      have hobj := gather_eq_ok hg
      rw [hobj]
      split
      · exact .refl hwf
      · next pack entries digest hf =>
          have hfresh := hs.stem_fresh hwf
          rw [← (finish_eq_ok.mp hf).2.2.1] at hfresh
          have hload := hwf.load_installed pack (parse_built hf hs.few) hfresh
          dsimp only
          rw [← installed, reloadPacks, hload]
          exact rewritten_preserved hwf hs hf

/-- A rewrite under a fresh name returns its digest. -/
lemma repackKeeping_fresh (hwf : s.WF C) {objects : List (ObjectId × Bytes)}
    (hg : s.gather C keep = .ok objects) (hne : objects ≠ []) {pack : Bytes}
    {entries : List PackEntry} {digest : Digest}
    (hf : PackBuilder.finish C ⟨objects⟩ = .ok (pack, entries, digest))
    (hfew : objects.length < 2 ^ 32) (hfresh : packStem digest ∉ s.packs.map Pack.stem) :
    s.repackKeeping C keep =
      (.ok (some digest), s.rewritten C objects pack entries digest) := by
  have hload := hwf.load_installed pack (parse_built hf hfew) hfresh
  cases objects with
  | nil => exact absurd rfl hne
  | cons o os =>
      simp only [repackKeeping, hg, hf]
      rw [← installed, reloadPacks, hload]
      rfl

/-- A rewrite under the name of a loaded pack returns its digest too, and leaves no pack. -/
lemma repackKeeping_repeat (hwf : s.WF C) {objects : List (ObjectId × Bytes)}
    (hg : s.gather C keep = .ok objects) (hne : objects ≠ []) {pack : Bytes}
    {entries : List PackEntry} {digest : Digest}
    (hf : PackBuilder.finish C ⟨objects⟩ = .ok (pack, entries, digest))
    (hfew : objects.length < 2 ^ 32) (hrepeat : packStem digest ∈ s.packs.map Pack.stem) :
    ∃ t, s.repackKeeping C keep = (.ok (some digest), t) ∧ t.packs = [] ∧
      ∀ id, t.loose.files.lookup id =
        if id ∈ objects.map Prod.fst then none else s.loose.files.lookup id := by
  have hload := hwf.load_installed_repeat pack (parse_built hf hfew) hrepeat
  cases objects with
  | nil => exact absurd rfl hne
  | cons o os =>
      refine ⟨deleteLoose { s.installed (packStem digest) pack
        ((PackIndex.build entries digest).encode C) with packs := [] }
        ((o :: os).map Prod.fst), ?_, rfl, fun id => lookup_foldl_delete _ _ id⟩
      simp only [repackKeeping, hg, hf]
      rw [← installed, reloadPacks, hload]

/-- **A rewrite that repeats a loaded pack loses everything it kept.** -/
theorem repackKeeping_repeat_loses (hwf : s.WF C) {objects : List (ObjectId × Bytes)}
    (hg : s.gather C keep = .ok objects) (hne : objects ≠ []) {pack : Bytes}
    {entries : List PackEntry} {digest : Digest}
    (hf : PackBuilder.finish C ⟨objects⟩ = .ok (pack, entries, digest))
    (hfew : objects.length < 2 ^ 32) (hrepeat : packStem digest ∈ s.packs.map Pack.stem) :
    ∃ t, s.repackKeeping C keep = (.ok (some digest), t) ∧
      ∀ p ∈ objects, t.get C p.1 = .ok none := by
  obtain ⟨t, ht, hpacks, hlook⟩ := repackKeeping_repeat hwf hg hne hf hfew hrepeat
  refine ⟨t, ht, fun p hp => ?_⟩
  have hl : t.loose.get C p.1 = .ok none :=
    loose_get_of_lookup (by rw [hlook, if_pos (List.mem_map.mpr ⟨p, hp, rfl⟩)])
  rw [get, hl]
  simp [bind, Except.bind, inAnyPack, hpacks, probe]

/-! ### Runs -/

/-- The operations of a run: rewrites, sweeps, writes of new objects, and a change of the
order in which the loose directory lists its files. -/
inductive Op where
  | repack
  | compact
  | sweep (keep : Finset ObjectId) (graceSecs now : ℕ)
  | put (data : Bytes) (mtime : Option ℕ)
  | relist (files : AList fun _ : ObjectId => LooseFile)

/-- One operation, whatever it returns. -/
inductive Step (C : Crates) : PackedDiskBackend → Op → PackedDiskBackend → Prop where
  | repack (s : PackedDiskBackend) : Step C s .repack (s.repack C).2
  | compact (s : PackedDiskBackend) : Step C s .compact (s.compact C).2
  | sweep (s : PackedDiskBackend) (keep : Finset ObjectId) (graceSecs now : ℕ) :
      Step C s (.sweep keep graceSecs now) (s.sweep C keep graceSecs now).2
  | put (s : PackedDiskBackend) (data : Bytes) (mtime : Option ℕ) :
      Step C s (.put data mtime) (s.put C (C.fromContent data) data mtime).2
  | relist (s : PackedDiskBackend) (files : AList fun _ : ObjectId => LooseFile) :
      files.entries.Perm s.loose.files.entries →
      Step C s (.relist files) { s with loose := ⟨files⟩ }

/-- The condition on the state before an operation. -/
def Op.SafeAt (C : Crates) (s : PackedDiskBackend) : Op → Prop
  | .repack => s.Safe C none
  | .compact => s.Safe C none
  | .sweep keep _ _ => s.Safe C (some keep)
  | .put _ _ => True
  | .relist _ => True

/-- Whether an operation is to keep an object: a sweep keeps what is in its set and the loose
objects within the grace window. -/
def Op.KeepsAt (s : PackedDiskBackend) (id : ObjectId) : Op → Prop
  | .sweep keep graceSecs now => spared keep graceSecs now s.loose id
  | _ => True

/-- A read depends on the loose half only through the file of its id. -/
lemma get_congr_loose {d : DiskBackend} {id : ObjectId}
    (h : d.files.lookup id = s.loose.files.lookup id) :
    get C { s with loose := d } id = s.get C id := by
  rw [get, get, loose_get_congr (C := C) h]
  rfl

lemma put_preserves (hwf : s.WF C) (data : Bytes) (mtime : Option ℕ) :
    (s.put C (C.fromContent data) data mtime).2.WF C ∧
      ∀ id b, s.get C id = .ok (some b) →
        (s.put C (C.fromContent data) data mtime).2.get C id = .ok (some b) := by
  rw [put]
  split
  · exact ⟨hwf, fun _ _ h => h⟩
  · exact ⟨hwf, fun _ _ h => h⟩
  · next hnone =>
      rw [DiskBackend.put]
      split_ifs with hin
      · exact ⟨hwf, fun _ _ h => h⟩
      · have hlook : ∀ id, id ≠ C.fromContent data →
            (s.loose.files.insert (C.fromContent data)
              ⟨C.zstd.encodeAll data, mtime⟩).lookup id = s.loose.files.lookup id :=
          fun id hid => AList.lookup_insert_ne hid
        refine ⟨⟨hwf.loaded, hwf.named, ?_, hwf.packAddressed⟩, ?_⟩
        · intro id b hget
          by_cases hid : id = C.fromContent data
          · subst hid
            simp only [DiskBackend.get, AList.lookup_insert, C.zstd.decodeAll_encodeAll,
              Except.ok.injEq, Option.some.injEq] at hget
            rw [hget]
          · refine hwf.looseAddressed id b ?_
            rw [← hget]
            exact loose_get_congr (hlook id hid).symm
        · intro id b hget
          have hid : id ≠ C.fromContent data := by
            rintro rfl
            rcases get_eq_some.mp hget with hl | ⟨-, stem, off, len, hhit, -⟩
            · have hmem := lookup_of_loose_get hl
              rw [DiskBackend.list, ← AList.mem_keys] at hmem
              exact hin hmem
            · rw [hnone] at hhit
              cases hhit
          rw [← hget]
          exact get_congr_loose (hlook id hid)

/-- Deleting loose files keeps a state well formed. -/
lemma WF.of_loose (hwf : s.WF C) {d : DiskBackend}
    (hd : ∀ id, d.files.lookup id = s.loose.files.lookup id ∨ d.files.lookup id = none) :
    WF C { s with loose := d } := by
  refine ⟨hwf.loaded, hwf.named, fun id b hget => ?_, hwf.packAddressed⟩
  rcases hd id with h | h
  · exact hwf.looseAddressed id b (by rw [← hget]; exact (loose_get_congr h).symm)
  · have hget' : d.get C id = .ok (some b) := hget
    rw [loose_get_of_lookup h] at hget'
    cases hget'

/-- What a rewrite owes to an object a sweep is to keep: a young loose file is neither packed
nor touched. -/
lemma Preserved.spared {reachable : Finset ObjectId} {graceSecs now : ℕ}
    (hp : Preserved C (some reachable) s t) {id : ObjectId} {b : Bytes}
    (hget : s.get C id = .ok (some b))
    (hsp : spared reachable graceSecs now s.loose id) :
    t.get C id = .ok (some b) ∧ PackedDiskBackend.spared reachable graceSecs now t.loose id := by
  by_cases hin : id ∈ reachable
  · exact ⟨hp.reads id b hget (by simpa [keeps] using hin), Or.inl hin⟩
  · obtain ⟨f, hf, hyoung⟩ := hsp.resolve_left hin
    have hloose := hp.loose id (by simpa [keeps] using hin)
    have hl : s.loose.get C id = .ok (some b) := by
      rcases get_eq_some.mp hget with hl | ⟨hl, -⟩
      · exact hl
      · rw [DiskBackend.get, hf] at hl
        dsimp only at hl
        split at hl <;> cases hl
    refine ⟨get_eq_some.mpr (Or.inl ?_), Or.inr ⟨f, by rw [hloose, hf], hyoung⟩⟩
    rw [← hl]
    exact loose_get_congr hloose

/-- What a sweep leaves, given what its rewrite owes. -/
lemma sweepLoose_preserves {reachable : Finset ObjectId} (graceSecs now : ℕ)
    (hp : Preserved C (some reachable) s t) :
    (t.sweepLoose reachable graceSecs now).WF C ∧
      ∀ id b, s.get C id = .ok (some b) → spared reachable graceSecs now s.loose id →
        (t.sweepLoose reachable graceSecs now).get C id = .ok (some b) := by
  refine ⟨hp.wf.of_loose fun id => ?_, fun id b hget hsp => ?_⟩
  · exact (sweepLoop_lookup t.loose.list t.loose id).imp (fun h => h) fun h => h.2
  · obtain ⟨hread, hsp'⟩ := hp.spared hget hsp
    rw [← hread]
    exact get_congr_loose
      ((sweepLoop_lookup t.loose.list t.loose id).resolve_right fun h => h.1 hsp')

lemma compact_snd (C : Crates) (s : PackedDiskBackend) :
    (s.compact C).2 = (s.repackKeeping C none).2 := by
  rw [compact, repack]
  split <;> simp_all

/-- A safe step keeps the state well formed and every object it is to keep. -/
lemma step_preserves {op : Op} (hwf : s.WF C) (hs : op.SafeAt C s) (hstep : Step C s op t) :
    t.WF C ∧ ∀ id b, s.get C id = .ok (some b) → op.KeepsAt s id →
      t.get C id = .ok (some b) := by
  cases hstep with
  | repack =>
      have hp := repackKeeping_spec hwf hs
      exact ⟨hp.wf, fun id b hget _ => hp.reads id b hget rfl⟩
  | compact =>
      have hp := repackKeeping_spec hwf hs
      rw [compact_snd]
      exact ⟨hp.wf, fun id b hget _ => hp.reads id b hget rfl⟩
  | sweep keep graceSecs now =>
      have hp := repackKeeping_spec hwf hs
      have hsweep := sweepLoose_preserves graceSecs now hp
      rw [sweep]
      split
      · exact ⟨hwf, fun _ _ h _ => h⟩
      · split
        · next e u he =>
            rw [he] at hp
            exact ⟨hp.wf, fun id b hget hk => (hp.spared hget hk).1⟩
        · next r u hr =>
            rw [hr] at hsweep
            dsimp only
            split
            · exact hsweep
            · exact hsweep
  | put data mtime =>
      obtain ⟨h1, h2⟩ := put_preserves hwf data mtime
      exact ⟨h1, fun id b hget _ => h2 id b hget⟩
  | relist files hperm =>
      have hlook : ∀ id, files.lookup id = s.loose.files.lookup id := fun id =>
        AList.perm_lookup hperm
      refine ⟨hwf.of_loose fun id => Or.inl (hlook id), fun id b hget _ => ?_⟩
      rw [← hget]
      exact get_congr_loose (hlook id)

/-- **A run of safe steps loses nothing**: from a well-formed state, an object that reads and
that every step of the run is to keep reads the same bytes in the state reached. -/
theorem packed_run_preserves {steps : List (PackedDiskBackend × Op)} (hwf : s.WF C)
    (hrun : Run (Step C) s steps t) (hsafe : ∀ p ∈ steps, p.2.SafeAt C p.1) :
    t.WF C ∧ ∀ id b, s.get C id = .ok (some b) → (∀ p ∈ steps, p.2.KeepsAt p.1 id) →
      t.get C id = .ok (some b) := by
  have hwft : t.WF C := hrun.invariant (WF C) (fun s op => op.SafeAt C s)
    (fun s op t hs hok h => (step_preserves hs hok h).1) hsafe hwf
  refine ⟨hwft, ?_⟩
  intro id b hget hkeeps
  -- the invariant of the run: well formed, and the object still reads
  have hinv := hrun.invariant (fun s => s.WF C ∧ s.get C id = .ok (some b))
    (fun s op => op.SafeAt C s ∧ op.KeepsAt s id)
    (fun s op t hs hok h =>
      ⟨(step_preserves hs.1 hok.1 h).1, (step_preserves hs.1 hok.1 h).2 id b hs.2 hok.2⟩)
    (fun p hp => ⟨hsafe p hp, hkeeps p hp⟩) ⟨hwf, hget⟩
  exact hinv.2

/-! ### One object, packed twice -/

/-- The empty store. -/
def empty : PackedDiskBackend := ⟨⟨∅⟩, ∅, ∅, []⟩

/-- The empty store after one object is written. -/
def single (C : Crates) (x : Bytes) : PackedDiskBackend :=
  (empty.put C (C.fromContent x) x none).2

lemma empty_wf (C : Crates) : empty.WF C where
  loaded := loadPacks_eq_nil (by simp [empty]) fun stem => packOf_missing (by simp [empty])
  named := by simp [empty]
  looseAddressed := by simp [empty, DiskBackend.get]
  packAddressed := by simp [empty, inAnyPack, probe]

lemma single_eq (C : Crates) (x : Bytes) : single C x =
    ⟨⟨AList.singleton (C.fromContent x) ⟨C.zstd.encodeAll x, none⟩⟩, ∅, ∅, []⟩ := by
  simp [single, put, empty, inAnyPack, probe, DiskBackend.put]

lemma single_wf (C : Crates) (x : Bytes) : (single C x).WF C :=
  (put_preserves (empty_wf C) x none).1

lemma single_get (C : Crates) (x : Bytes) :
    (single C x).get C (C.fromContent x) = .ok (some x) := by
  refine get_eq_some.mpr (Or.inl ?_)
  rw [single_eq]
  simp [DiskBackend.get, AList.singleton, AList.lookup, C.zstd.decodeAll_encodeAll]

/-- Gathering from a listing of one readable id. -/
lemma gather_of_listing {id : ObjectId} {x : Bytes}
    (hl : s.loose.list ++ s.packs.flatMap (fun p => p.idx.ids) = [id])
    (hget : s.get C id = .ok (some x)) : s.gather C none = .ok [(id, x)] := by
  rw [gather, hl]
  simp [gatherLoop, keeps, hget, bind, Except.bind]

/-- What the first repack of a single loose object leaves: one pack, and nothing loose. -/
structure PackedOne (C : Crates) (id : ObjectId) (x : Bytes) (t : PackedDiskBackend) : Prop where
  wf : t.WF C
  get : t.get C id = .ok (some x)
  loose : t.loose.list = []
  packs : ∃ idx : PackIndex, idx.ids = [id] ∧
    t.packs = [⟨idx, packStem (C.blake3 (packBody C [(id, x)]))⟩]

lemma repack_once {id : ObjectId} {x : Bytes} (hx : x.length ≤ maxObjectLen) (hwf : s.WF C)
    (hpacks : s.packs = []) (hlist : s.loose.list = [id]) (hget : s.get C id = .ok (some x)) :
    ∃ t, s.repack C = (.ok (some (C.blake3 (packBody C [(id, x)]))), t) ∧ PackedOne C id x t := by
  obtain ⟨pack, entries, digest, hf⟩ := finish_single C id hx
  have hg : s.gather C none = .ok [(id, x)] := gather_of_listing (by simp [hlist, hpacks]) hget
  have hfirst := repackKeeping_fresh hwf hg (by simp) hf (by simp) (by simp [hpacks])
  have hkept := gather_eq_ok hg
  have hsafe : s.Safe C none := by
    refine ⟨by simp [hpacks], ?_, ?_, by simp [hpacks]⟩
    · rw [← hkept]
      simpa using hx
    · rw [← hkept]
      simp
  have hpres := repackKeeping_spec hwf hsafe
  rw [hfirst] at hpres
  obtain ⟨-, hentries, hdigest, -⟩ := finish_eq_ok.mp hf
  subst hentries hdigest
  refine ⟨_, hfirst, hpres.wf, hpres.reads id x hget rfl, ?_, ?_⟩
  · have hloose : (s.loose.delete id).list = s.loose.list.erase id := AList.keys_erase id _
    have hempty : (s.loose.delete id).list = [] := by rw [hloose, hlist, List.erase_cons_head]
    exact hempty
  · exact ⟨_, by simp [PackIndex.ids, PackIndex.build, entriesFrom], rfl⟩

/-- A second repack of a store with one object, with nothing written in between. -/
lemma repack_twice (C : Crates) {x : Bytes} (hx : x.length ≤ maxObjectLen) :
    ∃ d t u, (single C x).repack C = (.ok (some d), t) ∧ t.repack C = (.ok (some d), u) ∧
      t.get C (C.fromContent x) = .ok (some x) ∧ u.get C (C.fromContent x) = .ok none := by
  set id := C.fromContent x with hid
  have hget := single_get C x
  rw [← hid] at hget
  have hlist : (single C x).loose.list = [id] := by
    rw [single_eq]
    simp [DiskBackend.list, hid]
  obtain ⟨t, hfirst, hone⟩ := repack_once hx (single_wf C x) (by rw [single_eq]) hlist hget
  obtain ⟨idx, hids, hpacks⟩ := hone.packs
  obtain ⟨pack, entries, digest, hf⟩ := finish_single C id hx
  obtain ⟨-, -, hdigest, -⟩ := finish_eq_ok.mp hf
  have hg : t.gather C none = .ok [(id, x)] :=
    gather_of_listing (by simp [hone.loose, hpacks, hids]) hone.get
  obtain ⟨u, hu, hlost⟩ := repackKeeping_repeat_loses hone.wf hg (by simp) hf (by simp)
    (by simp [hpacks, hdigest])
  exact ⟨digest, t, u, hdigest ▸ hfirst, hu, hone.get, hlost (id, x) (by simp)⟩

/-- A store that holds one object loses it in the second of two repacks, both of which return
`Ok`. -/
theorem packed_repack_twice_loses :
    ¬ ∀ (s t u : PackedDiskBackend) (d d' : Option Digest), s.WF Crates.reference →
      s.repack Crates.reference = (.ok d, t) → t.repack Crates.reference = (.ok d', u) →
      ∀ id b, s.get Crates.reference id = .ok (some b) →
        u.get Crates.reference id = .ok (some b) := by
  intro h
  obtain ⟨d, t, u, h1, h2, -, hlost⟩ :=
    repack_twice Crates.reference (x := ascii "hello") (by decide)
  have := h _ t u _ _ (single_wf _ _) h1 h2 _ _ (single_get _ (ascii "hello"))
  rw [hlost] at this
  cases this

/-- The store with one object, repacked once. -/
theorem packed_run_preserves_repack :
    (single Crates.reference (ascii "hello")).WF Crates.reference ∧
      ((single Crates.reference (ascii "hello")).repack Crates.reference).2.get
        Crates.reference (Crates.reference.fromContent (ascii "hello")) =
          .ok (some (ascii "hello")) := by
  refine ⟨single_wf _ _, ?_⟩
  have hsafe : (single Crates.reference (ascii "hello")).Safe Crates.reference none := by
    have hkept : (single Crates.reference (ascii "hello")).gather Crates.reference none =
        .ok [(Crates.reference.fromContent (ascii "hello"), ascii "hello")] := by
      refine gather_of_listing ?_ (single_get _ _)
      rw [single_eq]
      simp [DiskBackend.list]
    refine ⟨by simp [single_eq], ?_, ?_, by simp [single_eq]⟩
    · rw [← gather_eq_ok hkept]
      simp [ascii, maxObjectLen]
    · rw [← gather_eq_ok hkept]
      simp
  refine (packed_run_preserves (single_wf _ _) (Run.single (Step.repack _)) ?_).2 _ _
    (single_get _ _) ?_
  · simpa [Op.SafeAt] using hsafe
  · simp [Op.KeepsAt]

end PackedDiskBackend

end Bole
