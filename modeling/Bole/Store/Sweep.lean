import Bole.Store.Preservation

/-!
When one sweep of the packed store keeps what it is told to keep.

A sweep rewrites the kept objects into one new pack, retires the old packs and deletes the
loose objects that are neither kept nor young.

* `RewriteSafe`: the new pack has a name of its own, and its decoder and its index can hold
  what is kept;
* `sweep_spares`: what a sweep that returns `Ok` keeps then;
* `sweep_unkept`, `sweep_deletes`: outside its set it keeps what is loose and young, and deletes
  the rest, in any case;
* `rewriteSafe_of_keeps`: it keeps every object of its set only if its rewrite is safe.
-/

namespace Bole

namespace PackedDiskBackend

variable {C : Crates} {s t u : PackedDiskBackend}

/-! ### The condition -/

/-- Nothing is kept, or the new pack has a name of its own, every kept object is within the
decoder's cap, and they are fewer than the index can count. -/
def RewriteSafe (C : Crates) (s : PackedDiskBackend) (keep : Finset ObjectId) : Prop :=
  s.kept C (some keep) = [] ∨
    (packStem (C.blake3 (packBody C (s.kept C (some keep)))) ∉ s.packs.map Pack.stem ∧
      (∀ p ∈ s.kept C (some keep), p.2.length ≤ maxObjectLen) ∧
      (s.kept C (some keep)).length < 2 ^ 32)

/-- A pack with a name of its own repeats no loaded one. -/
lemma safe_of_fresh (hwf : s.WF C) {keep : Finset ObjectId}
    (hfresh : packStem (C.blake3 (packBody C (s.kept C (some keep)))) ∉ s.packs.map Pack.stem)
    (hsmall : ∀ p ∈ s.kept C (some keep), p.2.length ≤ maxObjectLen)
    (hfew : (s.kept C (some keep)).length < 2 ^ 32) : s.Safe C (some keep) := by
  have hname : ∀ p ∈ s.packs, ∀ file, s.packFiles[p.stem]? = some file →
      C.blake3 (packFileBody file) ≠ C.blake3 (packBody C (s.kept C (some keep))) := by
    intro p hp file hfile heq
    refine hfresh (List.mem_map.mpr ⟨p, hp, ?_⟩)
    rw [hwf.named _ _ hfile, heq]
  exact ⟨fun p hp file hfile heq => hname p hp file hfile (by rw [heq]), hsmall, hfew,
    fun p hp file hfile heq => absurd heq (hname p hp file hfile)⟩

/-! ### What a rewrite that returns leaves -/

/-- A rewrite with a set that returns `Ok` retired every pack, or loaded what it installed. -/
lemma repackKeeping_ok (hwf : s.WF C) {keep : Finset ObjectId} {d : Option Digest}
    (h : s.repackKeeping C (some keep) = (.ok d, t)) :
    (s.kept C (some keep) = [] ∧ t.packs = [] ∧ t.loose = s.loose) ∨
      ∃ pack entries digest, s.kept C (some keep) ≠ [] ∧
        PackBuilder.finish C ⟨s.kept C (some keep)⟩ = .ok (pack, entries, digest) ∧
        loadPacks C
          (s.installed (packStem digest) pack
            ((PackIndex.build entries digest).encode C)).packFiles
          (s.installed (packStem digest) pack
            ((PackIndex.build entries digest).encode C)).idxFiles = .ok t.packs ∧
        ∀ id, t.loose.files.lookup id =
          if id ∈ (s.kept C (some keep)).map Prod.fst then none
          else s.loose.files.lookup id := by
  rw [repackKeeping] at h
  split at h
  · cases h
  · next hg =>
      have hnone := (gather_eq_ok hg).symm
      have hload := hwf.load_unlinked
      simp only [Option.isSome_some, if_true, retireAllPacks, reloadPacks, hload,
        Prod.mk.injEq] at h
      obtain ⟨-, rfl⟩ := h
      exact Or.inl ⟨hnone, rfl, rfl⟩
  · next o os hg =>
      have hobj := gather_eq_ok hg
      rw [hobj] at h
      split at h
      · cases h
      · next pack entries digest hf =>
          dsimp only at h
          rw [← installed, reloadPacks] at h
          refine Or.inr ⟨pack, entries, digest, by rw [← hobj]; simp, hf, ?_⟩
          split at h
          · next hr =>
              split at hr
              · cases h
              · cases hr
          · next r hr =>
              split at hr
              · cases hr
              · next packs hload =>
                  cases hr
                  cases h
                  exact ⟨hload, fun id => lookup_foldl_delete _ _ id⟩

/-- After an install every loaded pack carries the new name and the new index. -/
lemma WF.installed_stem (hwf : s.WF C) {stem : String} {pack idxBytes : Bytes}
    {packs : List Pack} (h : loadPacks C (s.installed stem pack idxBytes).packFiles
      (s.installed stem pack idxBytes).idxFiles = .ok packs) :
    (∀ p ∈ packs, p.stem = stem ∧ stem ∉ s.packs.map Pack.stem ∧
      PackIndex.parse C idxBytes = .ok p.idx) ∧ packs.length ≤ 1 := by
  have hstem : ∀ p ∈ packs, p.stem = stem ∧ stem ∉ s.packs.map Pack.stem ∧
      PackIndex.parse C idxBytes = .ok p.idx := by
    intro p hp
    have hof := (mem_loaded h).mp hp
    have hold : p.stem ∉ s.packs.map Pack.stem := by
      intro hmem
      rw [packOf_missing (by rw [installed_packFiles, if_pos hmem])] at hof
      cases hof
    have heq : p.stem = stem := by
      by_contra hne
      have hsame : packOf C (s.installed stem pack idxBytes).packFiles
          (s.installed stem pack idxBytes).idxFiles p.stem =
          packOf C s.packFiles s.idxFiles p.stem :=
        packOf_congr (by rw [installed_packFiles, if_neg hold, if_neg (Ne.symm hne)])
          (by rw [installed_idxFiles, if_neg hold, if_neg (Ne.symm hne)])
      rw [hsame, hwf.packOf_unloaded hold] at hof
      cases hof
    refine ⟨heq, heq ▸ hold, ?_⟩
    rw [packOf] at hof
    split_ifs at hof
    obtain ⟨idx, hidx, hp'⟩ := Option.map_eq_some_iff.mp hof
    rw [← hp']
    rw [indexOf, installed_idxFiles, if_neg hold, if_pos heq.symm, Option.bind_some] at hidx
    cases hparse : PackIndex.parse C idxBytes with
    | error e => simp [hparse, Except.toOption] at hidx
    | ok idx' =>
        obtain rfl : idx' = idx := by simpa [hparse, Except.toOption] using hidx
        rfl
  refine ⟨hstem, ?_⟩
  have hnodup := loaded_nodup h
  rcases packs with _ | ⟨p, _ | ⟨q, rest⟩⟩
  · simp
  · simp
  · have hp := (mem_loaded h).mp (show p ∈ p :: q :: rest by simp)
    have hq := (mem_loaded h).mp (show q ∈ p :: q :: rest by simp)
    rw [(hstem p (by simp)).1] at hp
    rw [(hstem q (by simp)).1, hp] at hq
    cases hq
    simp at hnodup

/-! ### What a sweep that returns keeps -/

variable {keep : Finset ObjectId} {graceSecs now removed : ℕ}

/-- A sweep that returns `Ok` is a rewrite that returns `Ok` and the deleting loop. -/
lemma sweep_ok (h : s.sweep C keep graceSecs now = (.ok removed, u)) :
    ∃ d t, s.repackKeeping C (some keep) = (.ok d, t) ∧ u = t.sweepLoose keep graceSecs now := by
  rw [sweep] at h
  split at h
  · cases h
  · split at h
    · cases h
    · next d t hr =>
        dsimp only at h
        split at h
        · cases h
        · exact ⟨d, t, hr, (Prod.mk.inj h).2.symm⟩

/-- A safe rewrite preserves, also when it keeps nothing. -/
lemma RewriteSafe.preserved (hwf : s.WF C) (hs : s.RewriteSafe C keep) :
    Preserved C (some keep) s (s.repackKeeping C (some keep)).2 := by
  rcases hs with hnone | ⟨hfresh, hsmall, hfew⟩
  · rw [repackKeeping]
    split
    · exact .refl hwf
    · have hload := hwf.load_unlinked
      simp only [Option.isSome_some, if_true, retireAllPacks, reloadPacks, hload]
      exact retire_preserved hwf hnone
    · next o os hg =>
        rw [← gather_eq_ok hg] at hnone
        cases hnone
  · exact repackKeeping_spec hwf (safe_of_fresh hwf hfresh hsmall hfew)

/-- **A safe sweep keeps** the objects of its set and the young loose ones. -/
theorem sweep_spares (hwf : s.WF C) (hs : s.RewriteSafe C keep)
    (h : s.sweep C keep graceSecs now = (.ok removed, u)) {id : ObjectId} {b : Bytes}
    (hget : s.get C id = .ok (some b)) (hsp : spared keep graceSecs now s.loose id) :
    u.get C id = .ok (some b) := by
  obtain ⟨d, t, hr, rfl⟩ := sweep_ok h
  have hp := hs.preserved hwf
  rw [hr] at hp
  exact (sweepLoose_preserves graceSecs now hp).2 id b hget hsp

/-- **Outside its set** a rewrite leaves the loose files alone, and no pack holds the id. -/
lemma repackKeeping_unkept (hwf : s.WF C) {d : Option Digest}
    (h : s.repackKeeping C (some keep) = (.ok d, t)) {id : ObjectId} (hid : id ∉ keep) :
    t.loose.files.lookup id = s.loose.files.lookup id ∧ ∀ q ∈ t.packs, id ∉ q.idx.ids := by
  have hunkept : id ∉ (s.kept C (some keep)).map Prod.fst := by
    intro hmem
    obtain ⟨p, hp, rfl⟩ := List.mem_map.mp hmem
    exact hid ((mem_kept.mp hp).1 keep rfl)
  rcases repackKeeping_ok hwf h with ⟨-, hpacks, hloose⟩ |
    ⟨pack, entries, digest, -, hf, hload, hlook⟩
  · rw [hpacks, hloose]
    exact ⟨rfl, by simp⟩
  · rw [hlook, if_neg hunkept]
    refine ⟨rfl, fun q hq hmem => hunkept ?_⟩
    have hparse := ((hwf.installed_stem hload).1 q hq).2.2
    rw [PackIndex.ids_of_parse_encode hparse] at hmem
    obtain ⟨e, he, rfl⟩ := List.mem_map.mp (List.mem_of_mem_take hmem)
    have hid : e.id ∈ (entriesFrom C headerLen (s.kept C (some keep))).map PackEntry.id := by
      rw [← (finish_eq_ok.mp hf).2.1]
      exact List.mem_map.mpr ⟨e, PackIndex.mem_build.mp he, rfl⟩
    rwa [map_id_entriesFrom] at hid

/-- What reads after the deleting loop is loose still, or read from a pack. -/
lemma get_sweepLoose {id : ObjectId} {b : Bytes}
    (h : (t.sweepLoose keep graceSecs now).get C id = .ok (some b)) :
    (spared keep graceSecs now t.loose id ∧ ∃ f, t.loose.files.lookup id = some f) ∨
      ∃ stem off len, t.inAnyPack id = .ok (some (stem, off, len)) ∧
        t.readPackFrame C stem off len = .ok b := by
  rcases get_eq_some.mp h with hl | ⟨-, stem, off, len, hhit, hread⟩
  · have hmem := lookup_of_loose_get hl
    rw [DiskBackend.list, ← AList.mem_keys, ← AList.lookup_isSome, Option.isSome_iff_exists] at hmem
    obtain ⟨f, hf⟩ := hmem
    have hf' : (sweepLoop keep graceSecs now t.loose.list t.loose).files.lookup id = some f := hf
    rcases sweepLoop_lookup t.loose.list t.loose id with hsame | ⟨-, hgone⟩
    · rw [hsame] at hf'
      refine Or.inl ⟨?_, f, hf'⟩
      by_contra hn
      have hlisted : id ∈ t.loose.list := by
        rw [DiskBackend.list, ← AList.mem_keys, ← AList.lookup_isSome, hf']
        rfl
      rw [sweepLoop_deleted hlisted hn, hf'] at hsame
      cases hsame
    · rw [hgone] at hf'
      cases hf'
  · exact Or.inr ⟨stem, off, len, hhit, hread⟩

/-- A loose file is all that a read looks at. -/
lemma get_of_loose {id : ObjectId} {f : LooseFile} (hs : s.loose.files.lookup id = some f)
    (hu : u.loose.files.lookup id = some f) : u.get C id = s.get C id := by
  simp only [get, DiskBackend.get, hs, hu]
  cases C.zstd.decodeAll f.compressed with
  | none => rfl
  | some data => rfl

/-- **Outside its set** a sweep keeps what is loose and young, and nothing else. -/
theorem sweep_unkept (hwf : s.WF C) (h : s.sweep C keep graceSecs now = (.ok removed, u))
    {id : ObjectId} (hid : id ∉ keep) {b : Bytes} :
    u.get C id = .ok (some b) ↔ s.get C id = .ok (some b) ∧
      ∃ f, s.loose.files.lookup id = some f ∧ withinGrace f graceSecs now = true := by
  obtain ⟨d, t, hr, rfl⟩ := sweep_ok h
  obtain ⟨hloose, hpacks⟩ := repackKeeping_unkept hwf hr hid
  have hstays {f : LooseFile} (hf : t.loose.files.lookup id = some f)
      (hsp : spared keep graceSecs now t.loose id) :
      (t.sweepLoose keep graceSecs now).loose.files.lookup id = some f := by
    rcases sweepLoop_lookup t.loose.list t.loose id with hsame | ⟨hn, -⟩
    · exact hsame.trans hf
    · exact absurd hsp hn
  constructor
  · intro hget
    rcases get_sweepLoose hget with ⟨hsp, f, hf⟩ | ⟨stem, off, len, hhit, -⟩
    · obtain ⟨f', hf', hyoung⟩ := hsp.resolve_left hid
      rw [hf] at hf'
      cases hf'
      have hold := hloose ▸ hf
      exact ⟨get_of_loose hold (hstays hf hsp) ▸ hget, f, hold, hyoung⟩
    · obtain ⟨q, hq, -, hlook⟩ := probe_mem hhit
      exact absurd (List.mem_map.mpr ⟨_, PackIndex.lookup_mem hlook, rfl⟩) (hpacks q hq)
  · rintro ⟨hget, f, hf, hyoung⟩
    have hf' := hloose.trans hf
    rw [get_of_loose hf (hstays hf' (Or.inr ⟨f, hf', hyoung⟩))]
    exact hget

/-- **A sweep deletes** what it can read outside its set, unless it is young and loose. -/
theorem sweep_deletes (hwf : s.WF C) (h : s.sweep C keep graceSecs now = (.ok removed, u))
    {id : ObjectId} (hsp : ¬ spared keep graceSecs now s.loose id) (b : Bytes) :
    u.get C id ≠ .ok (some b) := by
  intro hget
  have hid : id ∉ keep := fun hin => hsp (Or.inl hin)
  exact hsp (Or.inr ((sweep_unkept hwf h hid).mp hget).2)

/-- A sweep that keeps every object of its set is safe: the kept objects are read from the one
new pack. -/
lemma rewriteSafe_of_keeps (hwf : s.WF C)
    (h : s.sweep C keep graceSecs now = (.ok removed, u))
    (hkeeps : ∀ id ∈ keep, ∀ b, s.get C id = .ok (some b) → u.get C id = .ok (some b)) :
    s.RewriteSafe C keep := by
  obtain ⟨d, t, hr, rfl⟩ := sweep_ok h
  rcases repackKeeping_ok hwf hr with ⟨hnone, -⟩ | ⟨pack, entries, digest, hne, hf, hload, hlook⟩
  · exact Or.inl hnone
  · obtain ⟨hstems, hone⟩ := hwf.installed_stem hload
    -- every kept object is read from a pack: its loose copy is gone
    have hpacked : ∀ p ∈ s.kept C (some keep), ∃ stem off len,
        t.inAnyPack p.1 = .ok (some (stem, off, len)) ∧
          t.readPackFrame C stem off len = .ok p.2 := by
      rintro ⟨id, b⟩ hp
      obtain ⟨hin, hget⟩ := mem_kept.mp hp
      rcases get_sweepLoose (hkeeps id (hin keep rfl) b hget) with ⟨-, f, hlf⟩ | hpack
      · rw [hlook, if_pos (List.mem_map.mpr ⟨_, hp, rfl⟩)] at hlf
        cases hlf
      · exact hpack
    obtain ⟨o, ho⟩ := List.exists_mem_of_ne_nil _ hne
    obtain ⟨stem, off, len, hhit, -⟩ := hpacked o ho
    obtain ⟨q, hq, -, -⟩ := probe_mem hhit
    have hfresh := (hstems q hq).2.1
    have hpacks : t.packs = [q] := by
      match hp : t.packs, hone, hq with
      | [], _, hq => simp at hq
      | [q'], _, hq => simp_all
      | _ :: _ :: _, hone, _ => simp at hone
    have hsub : (s.kept C (some keep)).map Prod.fst ⊆ q.idx.ids := by
      intro id hid
      obtain ⟨p, hp, rfl⟩ := List.mem_map.mp hid
      obtain ⟨stem, off, len, hhit, -⟩ := hpacked p hp
      obtain ⟨q', hq', -, hlk⟩ := probe_mem hhit
      rw [hpacks, List.mem_singleton] at hq'
      rw [← hq']
      exact List.mem_map.mpr ⟨_, PackIndex.lookup_mem hlk, rfl⟩
    refine Or.inr ⟨by rw [← (finish_eq_ok.mp hf).2.2.1]; exact hfresh, fun p hp => ?_, ?_⟩
    · obtain ⟨stem, off, len, -, hread⟩ := hpacked p hp
      rw [readPackFrame] at hread
      split at hread
      · cases hread
      · split_ifs at hread
        rw [Result.bind_eq_ok] at hread
        obtain ⟨⟨id, x⟩, hdec, hx⟩ := hread
        cases hx
        exact (decodeFrame_ok hdec).1
    · calc (s.kept C (some keep)).length
          = ((s.kept C (some keep)).map Prod.fst).length := by rw [List.length_map]
        _ ≤ q.idx.ids.length := ((nodup_kept s (some keep)).subperm hsub).length_le
        _ = q.idx.entries.length := by rw [PackIndex.ids, List.length_map]
        _ < 2 ^ 32 := PackIndex.parse_length_lt (hstems q hq).2.2

end PackedDiskBackend

end Bole
