import Bole.Reference
import Bole.Store.Integrity
import Bole.Store.Sweep

/-!
What a packed store says that it holds (`list`, `count` and `exists` of `src/store/packed.rs`),
where packs overlap as well: a crash inside a rewrite leaves the new pack beside the old ones.

* `exists_eq`: where every loaded table is in order, an id exists exactly when it is listed;
* `count_eq`: the ids of the packs are counted once for each pack;
* `count_distinct_iff`: so the count is the number of distinct ids exactly when no two packs share
  an id;
* `reached_ordered`: the tables are in order in every state that operations, crashes and re-opens
  reach, and `interrupted_overlaps`: after some of the crashes the packs share an id.
-/

namespace Bole

/-! ### Tables in order -/

namespace PackIndex

variable {idx : PackIndex}

/-- The ids of the table are ascending, each once. -/
def Ascending (idx : PackIndex) : Prop :=
  idx.ids.Pairwise fun a b => compare a.asBytes b.asBytes = .lt

lemma Ascending.sorted (h : idx.Ascending) : idx.entries.Pairwise PackEntry.Le := by
  refine (List.pairwise_map.mp h).imp fun {a b} hlt => ?_
  rw [PackEntry.Le, hlt]
  rfl

lemma Ascending.nodup (h : idx.Ascending) : idx.ids.Nodup := by
  refine h.imp fun {a b} hlt heq => ?_
  rw [heq, Std.ReflOrd.compare_self] at hlt
  cases hlt

/-- A table that is built from entries with different ids. -/
lemma ascending_build {entries : List PackEntry} (hnodup : (entries.map PackEntry.id).Nodup)
    (d : Digest) : (build entries d).Ascending := by
  have hids : (build entries d).ids.Nodup :=
    ((List.perm_insertionSort PackEntry.Le entries).map PackEntry.id).nodup_iff.mpr hnodup
  refine List.pairwise_map.mpr ((build_sorted entries d).imp₂ (fun {a b} hle hne => ?_)
    (List.pairwise_map.mp hids))
  cases hcmp : compare a.id.asBytes b.id.asBytes with
  | lt => rfl
  | eq => exact absurd (ObjectId.asBytes_injective (Std.LawfulEqOrd.eq_of_compare hcmp)) hne
  | gt =>
      rw [PackEntry.Le, hcmp] at hle
      cases hle

/-- What is read back from the file of a table in order is in order. -/
lemma Ascending.of_parse_encode {C : Crates} {idx' : PackIndex} (h : idx.Ascending)
    (hparse : parse C (idx.encode C) = .ok idx') : idx'.Ascending := by
  rw [Ascending, ids_of_parse_encode hparse]
  exact h.sublist (List.take_sublist _ _)

/-- The search in a table in order returns, and finds the ids of the table. -/
lemma Ascending.lookup (h : idx.Ascending) (id : ObjectId) :
    ∃ hit, idx.lookup id = .ok hit ∧ (hit.isSome ↔ id ∈ idx.ids) := by
  have hlook := lookup_of_sorted h.sorted id
  split_ifs at hlook with hmem
  · obtain ⟨off, len, hlook⟩ := hlook
    exact ⟨_, hlook, by simp [hmem]⟩
  · exact ⟨none, hlook, by simp [hmem]⟩

end PackIndex

namespace PackedDiskBackend

/-! ### Listing and counting -/

/-- Every loaded table is in order. -/
def Indexed (s : PackedDiskBackend) : Prop := ∀ p ∈ s.packs, p.idx.Ascending

/-- No two loaded packs share an id. -/
def DisjointPacks (s : PackedDiskBackend) : Prop :=
  s.packs.Pairwise fun p q => List.Disjoint p.idx.ids q.idx.ids

/-- The ids of the loaded packs, each as often as there are packs with it. -/
def packedIds (s : PackedDiskBackend) : List ObjectId := s.packs.flatMap fun p => p.idx.ids

variable {C : Crates} {s t : PackedDiskBackend}

lemma probe_eq {packs : List Pack} (h : ∀ p ∈ packs, p.idx.Ascending) (id : ObjectId) :
    ∃ hit, probe id packs = .ok hit ∧ (hit.isSome ↔ id ∈ packs.flatMap fun p => p.idx.ids) := by
  induction packs with
  | nil => exact ⟨none, rfl, by simp⟩
  | cons p rest ih =>
      obtain ⟨hit, hlook, hmem⟩ := (h p (by simp)).lookup id
      obtain ⟨hit', hprobe, hmem'⟩ := ih fun q hq => h q (List.mem_cons_of_mem _ hq)
      rw [List.flatMap_cons, List.mem_append, probe, hlook]
      cases hit with
      | some r => exact ⟨_, rfl, by simpa using Or.inl (hmem.mp rfl)⟩
      | none =>
          have hnot : id ∉ p.idx.ids := fun hin => absurd (hmem.mpr hin) (by simp)
          exact ⟨hit', hprobe, by simp [hmem', hnot]⟩

/-- **An id exists** exactly when it is listed. -/
lemma exists_eq (h : s.Indexed) (id : ObjectId) : s.exists_ id = .ok (decide (id ∈ s.list)) := by
  obtain ⟨hit, hprobe, hmem⟩ := probe_eq h id
  rw [exists_, inAnyPack, hprobe]
  by_cases hloose : id ∈ s.loose.files
  · rw [if_pos (by simpa [DiskBackend.exists_] using hloose)]
    simp [mem_list, hloose]
  · rw [if_neg (by simpa [DiskBackend.exists_] using hloose)]
    simp only [mem_list, hloose, false_or, ← hmem, bind, Except.bind, Bool.decide_eq_true]

lemma looseExtra_eq {packs : List Pack} (h : ∀ p ∈ packs, p.idx.Ascending) (ids : List ObjectId) :
    looseExtra packs ids =
      .ok (ids.filter fun id => id ∉ packs.flatMap fun p => p.idx.ids).length := by
  induction ids with
  | nil => rfl
  | cons id rest ih =>
      obtain ⟨hit, hprobe, hmem⟩ := probe_eq h id
      rw [looseExtra, hprobe, ih, List.filter_cons]
      by_cases hin : id ∈ packs.flatMap fun p => p.idx.ids
      · simp [bind, Except.bind, hmem.mpr hin, hin]
      · have hnone : hit.isSome = false := by simpa using mt hmem.mp hin
        simp [bind, Except.bind, hnone, hin]

/-- **What is counted**: the ids of each pack, and the loose ids that are in no pack. -/
lemma count_eq (h : s.Indexed) : s.count =
    .ok (s.packedIds.length + (s.loose.list.filter fun id => id ∉ s.packedIds).length) := by
  have hsum : (s.packs.map fun p => p.idx.count).sum = s.packedIds.length := by
    rw [packedIds, List.length_flatMap]
    simp [PackIndex.count, PackIndex.ids]
  rw [count, looseExtra_eq h, hsum]
  rfl

/-- The distinct ids of the listing. -/
lemma card_list (s : PackedDiskBackend) : s.list.toFinset.card =
    s.packedIds.toFinset.card + (s.loose.list.filter fun id => id ∉ s.packedIds).length := by
  have hloose : s.loose.list.Nodup := s.loose.files.nodupKeys
  have hunion : s.list.toFinset =
      s.packedIds.toFinset ∪ (s.loose.list.filter fun id => id ∉ s.packedIds).toFinset := by
    ext id
    rw [List.mem_toFinset, mem_list, Finset.mem_union, List.mem_toFinset, List.mem_toFinset,
      List.mem_filter, DiskBackend.list, AList.mem_keys, packedIds]
    by_cases hin : id ∈ s.packs.flatMap fun p => p.idx.ids
    · simp [hin]
    · simp [hin]
  rw [hunion, Finset.card_union_of_disjoint, List.toFinset_card_of_nodup (hloose.filter _)]
  rw [Finset.disjoint_left]
  intro id hpacked hrest
  have hnot := (List.mem_filter.mp (List.mem_toFinset.mp hrest)).2
  simp only [List.mem_toFinset] at hpacked
  simp [hpacked] at hnot

/-- The packs share no id exactly when none is there twice. -/
lemma nodup_packedIds (h : s.Indexed) : s.packedIds.Nodup ↔ s.DisjointPacks := by
  rw [packedIds, List.nodup_flatMap, DisjointPacks]
  exact and_iff_right fun p hp => (h p hp).nodup

/-- **Listing, counting and looking up.**  Where every loaded table is in order, an id exists
exactly when it is listed, and the count is the number of distinct ids exactly when no two packs
share an id. -/
theorem count_distinct_iff (h : s.Indexed) :
    (∀ id, s.exists_ id = .ok (decide (id ∈ s.list))) ∧
      (s.count = .ok s.list.toFinset.card ↔ s.DisjointPacks) := by
  refine ⟨exists_eq h, ?_⟩
  rw [count_eq h, card_list, ← nodup_packedIds h, Except.ok.injEq, Nat.add_right_cancel_iff,
    eq_comm]
  exact Multiset.toFinset_card_eq_card_iff_nodup (m := (s.packedIds : Multiset ObjectId))

/-- One pack of two objects. -/
def onePack : PackedDiskBackend :=
  ⟨⟨∅⟩, ∅, ∅, [⟨.build PackIndex.outermost (.replicate 7), packStem (.replicate 7)⟩]⟩

/-- Its objects are counted and listed alike. -/
theorem count_distinct_iff_onePack :
    onePack.count = .ok onePack.list.toFinset.card ∧
      ∀ id, onePack.exists_ id = .ok (decide (id ∈ onePack.list)) := by
  have hindexed : onePack.Indexed := by
    intro p hp
    rw [List.mem_singleton.mp hp]
    exact PackIndex.ascending_build (by decide) _
  obtain ⟨hexists, hcount⟩ := count_distinct_iff hindexed
  exact ⟨hcount.mpr (List.pairwise_singleton _ _), hexists⟩

/-! ### Crashes -/

/-- The directories with the first of the loaded packs and of their indexes unlinked. -/
def unlinkFirst (s : PackedDiskBackend) (i j : ℕ) : PackedDiskBackend :=
  { s with
    packFiles := ((s.packs.map Pack.stem).take i).foldl (fun m stem => m.erase stem) s.packFiles
    idxFiles := ((s.packs.map Pack.stem).take j).foldl (fun m stem => m.erase stem) s.idxFiles }

/-- What a crash inside a rewrite can leave in the directories: nothing new, the new pack without
its index, or both, and then some of the old files unlinked and some loose copies deleted. -/
inductive Leftover (C : Crates) (s : PackedDiskBackend) (keep : Option (Finset ObjectId)) :
    PackedDiskBackend → Prop where
  | retiring (i j : ℕ) : s.kept C keep = [] → Leftover C s keep (s.unlinkFirst i j)
  | unindexed {pack : Bytes} {entries : List PackEntry} {digest : Digest} :
      PackBuilder.finish C ⟨s.kept C keep⟩ = .ok (pack, entries, digest) →
      Leftover C s keep { s with packFiles := s.packFiles.insert (packStem digest) pack }
  | written {pack : Bytes} {entries : List PackEntry} {digest : Digest} (i j k : ℕ) :
      PackBuilder.finish C ⟨s.kept C keep⟩ = .ok (pack, entries, digest) →
      Leftover C s keep (((s.writePackAtomic (packStem digest) pack
        ((PackIndex.build entries digest).encode C)).unlinkFirst i j).deleteLoose
          (((s.kept C keep).map Prod.fst).take k))

/-- The states of a store that was empty once. -/
inductive Reached (C : Crates) : PackedDiskBackend → Prop where
  | empty : Reached C empty
  | step {s t : PackedDiskBackend} {op : Op} : Reached C s → Step C s op t → Reached C t
  | reopen {s d t : PackedDiskBackend} {keep : Option (Finset ObjectId)} : Reached C s →
      Leftover C s keep d → open_ C d.loose d.packFiles d.idxFiles = .ok t → Reached C t

/-- The indexes in the directory are in order, as far as they parse. -/
def OrderedFiles (C : Crates) (idxFiles : BTreeMap String Bytes) : Prop :=
  ∀ (stem : String) bytes idx, idxFiles[stem]? = some bytes →
    PackIndex.parse C bytes = .ok idx → idx.Ascending

/-- The loaded tables are in order, and so are those that would be loaded. -/
structure Ordered (C : Crates) (s : PackedDiskBackend) : Prop where
  packs : s.Indexed
  files : OrderedFiles C s.idxFiles

/-- The indexes of a directory are those of another one, or were written by a rewrite. -/
def IndexesFrom (C : Crates) (old new : BTreeMap String Bytes) : Prop :=
  ∀ (stem : String) bytes, new[stem]? = some bytes → old[stem]? = some bytes ∨
    ∃ entries d, (entries.map PackEntry.id).Nodup ∧ bytes = (PackIndex.build entries d).encode C

lemma OrderedFiles.from {old new : BTreeMap String Bytes} (h : OrderedFiles C old)
    (hfrom : IndexesFrom C old new) : OrderedFiles C new := by
  intro stem bytes idx hbytes hparse
  rcases hfrom stem bytes hbytes with hold | ⟨entries, d, hnodup, rfl⟩
  · exact h stem bytes idx hold hparse
  · exact (PackIndex.ascending_build hnodup d).of_parse_encode hparse

/-- What is loaded from them is in order. -/
lemma OrderedFiles.loaded {packFiles idxFiles : BTreeMap String Bytes} {packs : List Pack}
    (h : OrderedFiles C idxFiles) (hload : loadPacks C packFiles idxFiles = .ok packs) :
    ∀ p ∈ packs, p.idx.Ascending := by
  intro p hp
  have hof := (mem_loaded hload).mp hp
  rw [packOf] at hof
  split_ifs at hof
  obtain ⟨idx, hidx, heq⟩ := Option.map_eq_some_iff.mp hof
  obtain ⟨bytes, hbytes, hparse⟩ := Option.bind_eq_some_iff.mp hidx
  rw [← heq]
  cases hr : PackIndex.parse C bytes with
  | error e => simp [hr, Except.toOption] at hparse
  | ok idx' =>
      obtain rfl : idx' = idx := by simpa [hr, Except.toOption] using hparse
      exact h _ _ _ hbytes hr

/-- A reload keeps a state in order, also when it fails. -/
lemma Ordered.reloadPacks (h : s.Indexed) (hfiles : OrderedFiles C s.idxFiles) :
    (s.reloadPacks C).2.Ordered C := by
  rw [PackedDiskBackend.reloadPacks]
  split
  · exact ⟨h, hfiles⟩
  · next packs hload => exact ⟨hfiles.loaded hload, hfiles⟩

lemma indexesFrom_erase (m : BTreeMap String Bytes) (stems : List String) :
    IndexesFrom C m (stems.foldl (fun m stem => m.erase stem) m) := by
  intro stem bytes h
  rw [getElem?_foldl_erase] at h
  split_ifs at h
  exact Or.inl h

/-- The index of a new pack, whatever is unlinked afterwards. -/
lemma indexesFrom_written {keep : Option (Finset ObjectId)} {pack : Bytes}
    {entries : List PackEntry} {digest : Digest}
    (hf : PackBuilder.finish C ⟨s.kept C keep⟩ = .ok (pack, entries, digest))
    (stems : List String) :
    IndexesFrom C s.idxFiles (stems.foldl (fun m stem => m.erase stem)
      (s.idxFiles.insert (packStem digest) ((PackIndex.build entries digest).encode C))) := by
  intro stem bytes h
  rw [getElem?_foldl_erase, Std.ExtTreeMap.getElem?_insert] at h
  split_ifs at h
  · refine Or.inr ⟨entries, digest, ?_, (Option.some.inj h).symm⟩
    rw [(finish_eq_ok.mp hf).2.1, map_id_entriesFrom]
    exact nodup_kept s keep
  · exact Or.inl h

/-- **A rewrite keeps the tables in order**, whatever it returns. -/
lemma Ordered.repackKeeping (h : s.Ordered C) (keep : Option (Finset ObjectId)) :
    (s.repackKeeping C keep).2.Ordered C := by
  rw [PackedDiskBackend.repackKeeping]
  split
  · exact h
  · split_ifs
    · have hretired : ((s.unlinkPacks (s.packs.map Pack.stem)).reloadPacks C).2.Ordered C :=
        .reloadPacks h.packs (h.files.from (indexesFrom_erase _ _))
      rw [retireAllPacks]
      split <;> simp_all
    · exact h
  · next o os hg =>
      rw [gather_eq_ok hg]
      split
      · exact h
      · next pack entries digest hf =>
          have hinstalled := Ordered.reloadPacks (C := C)
            (s := (s.writePackAtomic (packStem digest) pack
              ((PackIndex.build entries digest).encode C)).unlinkPacks (s.packs.map Pack.stem))
            h.packs (h.files.from (indexesFrom_written hf _))
          dsimp only
          split
          · next heq =>
              rw [heq] at hinstalled
              exact hinstalled
          · next heq =>
              rw [heq] at hinstalled
              exact ⟨hinstalled.packs, hinstalled.files⟩

/-- Every operation does. -/
lemma Ordered.step {op : Op} (h : s.Ordered C) (hstep : Step C s op t) : t.Ordered C := by
  cases hstep with
  | repack => exact h.repackKeeping none
  | compact =>
      rw [compact_snd]
      exact h.repackKeeping none
  | sweep keep graceSecs now =>
      have hrewrite := h.repackKeeping (some keep)
      rw [sweep]
      split
      · exact h
      · split
        · next heq =>
            rw [heq] at hrewrite
            exact hrewrite
        · next heq =>
            rw [heq] at hrewrite
            dsimp only
            split
            · exact ⟨hrewrite.packs, hrewrite.files⟩
            · exact ⟨hrewrite.packs, hrewrite.files⟩
  | put data mtime =>
      rw [put]
      split
      · exact h
      · exact h
      · exact ⟨h.packs, h.files⟩
  | relist files hperm => exact ⟨h.packs, h.files⟩

/-- **In every state of a store that was empty once** the tables are in order. -/
lemma reached_ordered (h : Reached C s) : s.Ordered C := by
  induction h with
  | empty =>
      refine ⟨fun p hp => ?_, fun stem bytes idx hbytes => ?_⟩
      · cases hp
      · rw [PackedDiskBackend.empty] at hbytes
        simp at hbytes
  | step _ hstep ih => exact ih.step hstep
  | @reopen s d t keep _ hleft hopen ih =>
      have hfiles : OrderedFiles C d.idxFiles := by
        cases hleft with
        | retiring i j hnone => exact ih.files.from (indexesFrom_erase _ _)
        | unindexed hf => exact ih.files
        | written i j k hf => exact ih.files.from (indexesFrom_written hf _)
      obtain ⟨packs, hload, hopen⟩ := Result.bind_eq_ok.mp hopen
      cases hopen
      exact ⟨hfiles.loaded hload, hfiles⟩

/-- A crash of `repack` after `write_pack_atomic`, before any old file is unlinked. -/
def interrupted (C : Crates) (s : PackedDiskBackend) : Result PackedDiskBackend :=
  match PackBuilder.finish C ⟨s.kept C none⟩ with
  | .error e => .error e
  | .ok (pack, entries, digest) =>
      let written := s.writePackAtomic (packStem digest) pack
        ((PackIndex.build entries digest).encode C)
      open_ C written.loose written.packFiles written.idxFiles

lemma Reached.interrupted (h : Reached C s) (ht : s.interrupted C = .ok t) : Reached C t := by
  rw [PackedDiskBackend.interrupted] at ht
  cases hf : PackBuilder.finish C ⟨s.kept C none⟩ with
  | error e => simp [hf] at ht
  | ok built =>
      obtain ⟨pack, entries, digest⟩ := built
      rw [hf] at ht
      exact h.reopen (.written 0 0 0 hf) ht

/-- **Such a crash leaves packs that share an id** whenever the new pack has a name of its own and
one of the old ones holds an object that reads. -/
lemma interrupted_overlaps (hwf : s.WF C) (hfew : (s.kept C none).length < 2 ^ 32)
    (hfresh : packStem (C.blake3 (packBody C (s.kept C none))) ∉ s.packs.map Pack.stem)
    (ht : s.interrupted C = .ok t) {p : Pack} (hp : p ∈ s.packs) {id : ObjectId} {b : Bytes}
    (hid : id ∈ p.idx.ids) (hget : s.get C id = .ok (some b)) : ¬ t.DisjointPacks := by
  rw [PackedDiskBackend.interrupted] at ht
  cases hf : PackBuilder.finish C ⟨s.kept C none⟩ with
  | error e => simp [hf] at ht
  | ok built =>
      obtain ⟨pack, entries, digest⟩ := built
      obtain ⟨-, hentries, hdigest, -⟩ := finish_eq_ok.mp hf
      rw [← hdigest] at hfresh
      rw [hf] at ht
      obtain ⟨packs, hload, ht⟩ := Result.bind_eq_ok.mp ht
      cases ht
      have hne : packStem digest ≠ p.stem := fun heq =>
        hfresh (heq ▸ List.mem_map.mpr ⟨p, hp, rfl⟩)
      have hold : p ∈ packs := by
        rw [mem_loaded hload, ← (mem_loaded hwf.loaded).mp hp]
        refine packOf_congr ?_ ?_ <;>
          simp [writePackAtomic, Std.ExtTreeMap.getElem?_insert, hne]
      have hnew : ⟨PackIndex.build entries digest, packStem digest⟩ ∈ packs := by
        rw [mem_loaded hload, packOf, indexOf]
        simp [writePackAtomic, parse_built hf hfew, Except.toOption]
      have hkept : (id, b) ∈ s.kept C none := mem_kept.mpr ⟨by simp, hget⟩
      have hid' : id ∈ (PackIndex.build entries digest).ids := by
        have hmem : id ∈ entries.map PackEntry.id := by
          rw [hentries, map_id_entriesFrom]
          exact List.mem_map.mpr ⟨_, hkept, rfl⟩
        obtain ⟨e, he, rfl⟩ := List.mem_map.mp hmem
        exact List.mem_map.mpr ⟨e, PackIndex.mem_build.mpr he, rfl⟩
      intro hdisjoint
      have : Std.Symm fun p q : Pack => List.Disjoint p.idx.ids q.idx.ids := ⟨fun _ _ h => h.symm⟩
      have hapart := hdisjoint.forall hold hnew fun heq => hne (congrArg Pack.stem heq).symm
      exact hapart hid hid'

/-- After such a crash the store opens. -/
lemma interrupted_ok (hwf : s.WF C) {pack : Bytes} {entries : List PackEntry} {digest : Digest}
    (hf : PackBuilder.finish C ⟨s.kept C none⟩ = .ok (pack, entries, digest))
    (hfew : (s.kept C none).length < 2 ^ 32) : ∃ t, s.interrupted C = .ok t := by
  have hparses : ∀ stem ∈ s.idxFiles.insert (packStem digest)
      ((PackIndex.build entries digest).encode C), (indexOf C (s.idxFiles.insert (packStem digest)
        ((PackIndex.build entries digest).encode C)) stem).isSome := by
    intro stem hstem
    rw [indexOf, Std.ExtTreeMap.getElem?_insert]
    split_ifs with hnew
    · simp [parse_built hf hfew, Except.toOption]
    · rw [Std.ExtTreeMap.mem_insert] at hstem
      exact (loadPacks_eq_ok.mp hwf.loaded).1 stem (hstem.resolve_left hnew)
  rw [interrupted, hf]
  dsimp only
  rw [open_, writePackAtomic, loadPacks_eq_ok.mpr ⟨hparses, rfl⟩]
  exact ⟨_, rfl⟩

/-- A written object. -/
def writtenOnce : PackedDiskBackend :=
  (empty.put Crates.reference (Crates.reference.fromContent (ascii "a")) (ascii "a") (some 0)).2

/-- It is packed, and another one is written. -/
def packedOnce : PackedDiskBackend :=
  ((writtenOnce.repack Crates.reference).2.put Crates.reference
    (Crates.reference.fromContent (ascii "b")) (ascii "b") (some 0)).2

lemma packedOnce_reached : Reached Crates.reference packedOnce := by
  rw [packedOnce, writtenOnce]
  exact ((Reached.empty.step (.put _ _ _)).step (.repack _)).step (.put _ _ _)

/-- The objects of the two writes. -/
def firstObject : ObjectId × Bytes := (Crates.reference.fromContent (ascii "a"), ascii "a")

def secondObject : ObjectId × Bytes := (Crates.reference.fromContent (ascii "b"), ascii "b")

lemma packedOnce_eq : packedOnce = ((writtenOnce.repack Crates.reference).2.put Crates.reference
    (Crates.reference.fromContent secondObject.2) secondObject.2 (some 0)).2 := by
  have hsecond : secondObject.2 = ascii "b" := rfl
  rw [packedOnce, hsecond]

/-- They have different ids, and so have a pack of the first and a pack of both. -/
lemma packed_apart : secondObject.1 ≠ firstObject.1 ∧
    Crates.reference.blake3 (packBody Crates.reference [secondObject, firstObject]) ≠
      Crates.reference.blake3 (packBody Crates.reference [firstObject]) := by decide +kernel

/-- A write of an object that is in no pack. -/
lemma put_absent (h : s.Indexed) {id : ObjectId} (hid : id ∉ s.packedIds) (data : Bytes)
    (mtime : Option ℕ) :
    (s.put C id data mtime).2 = { s with loose := s.loose.put C id data mtime } := by
  obtain ⟨hit, hprobe, hmem⟩ := probe_eq h id
  cases hit with
  | some at_ => exact absurd (hmem.mp rfl) hid
  | none => rw [put, inAnyPack, hprobe]

/-- The first object is packed. -/
lemma repacked_once : PackedOne Crates.reference firstObject.1 firstObject.2
    (writtenOnce.repack Crates.reference).2 := by
  have hwf : writtenOnce.WF Crates.reference := (put_preserves (empty_wf _) _ _).1
  have hstore : writtenOnce = { empty with
      loose := DiskBackend.put Crates.reference ⟨∅⟩ firstObject.1 firstObject.2 (some 0) } := rfl
  have hget : writtenOnce.get Crates.reference firstObject.1 = .ok (some firstObject.2) := by
    refine get_eq_some.mpr (.inl ?_)
    rw [hstore, DiskBackend.get, DiskBackend.put, if_neg (AList.notMem_empty _),
      AList.lookup_insert]
    dsimp only
    rw [Crates.reference.zstd.decodeAll_encodeAll]
  have hlist : writtenOnce.loose.list = [firstObject.1] := by
    rw [hstore]
    simp [DiskBackend.list, DiskBackend.put]
  obtain ⟨t, hrepack, hone⟩ := repack_once (by decide) hwf rfl hlist hget
  rw [hrepack]
  exact hone

/-- A write beside a pack of one object. -/
lemma PackedOne.put {id : ObjectId} {x y : Bytes} (hone : PackedOne C id x s) (hs : s.Indexed)
    (hy : C.fromContent y ≠ id) (mtime : Option ℕ) :
    (s.put C (C.fromContent y) y mtime).2.packs = s.packs ∧
      (s.put C (C.fromContent y) y mtime).2.kept C none = [(C.fromContent y, y), (id, x)] := by
  obtain ⟨idx, hids, hpacks⟩ := hone.packs
  have hput := put_absent (C := C) hs (by simpa [packedIds, hpacks, hids] using hy) y mtime
  have hfirst := (put_preserves hone.wf y mtime).2 _ _ hone.get
  have hnew : C.fromContent y ∉ s.loose.files := by
    have hmem : C.fromContent y ∉ s.loose.list := hone.loose ▸ List.not_mem_nil
    exact hmem
  have hsecond : (s.put C (C.fromContent y) y mtime).2.get C (C.fromContent y) =
      .ok (some y) := by
    refine get_eq_some.mpr (.inl ?_)
    rw [hput, DiskBackend.get, DiskBackend.put, if_neg hnew, AList.lookup_insert]
    dsimp only
    rw [C.zstd.decodeAll_encodeAll]
  have hlisted : (s.put C (C.fromContent y) y mtime).2.loose.list = [C.fromContent y] := by
    have hkeys : (s.loose.files.insert (C.fromContent y) ⟨C.zstd.encodeAll y, mtime⟩).keys =
        C.fromContent y :: s.loose.list.erase (C.fromContent y) := AList.keys_insert _
    rw [hput, DiskBackend.list, DiskBackend.put, if_neg hnew, hkeys, hone.loose, List.erase_nil]
  have hgather : (s.put C (C.fromContent y) y mtime).2.gather C none =
      .ok [(C.fromContent y, y), (id, x)] := by
    have hids' : (s.put C (C.fromContent y) y mtime).2.packs.flatMap (fun p => p.idx.ids) =
        [id] := by rw [hput, hpacks, List.flatMap_singleton, hids]
    rw [gather, hlisted, hids']
    simp [gatherLoop, keeps, hfirst, hsecond, bind, Except.bind, Ne.symm hy]
  exact ⟨by rw [hput], (gather_eq_ok hgather).symm⟩

/-- Its next repack crashes, and leaves a store whose packs share an object. -/
lemma packedOnce_interrupted : ∃ t, packedOnce.interrupted Crates.reference = .ok t ∧
    ¬ t.DisjointPacks := by
  have hone := repacked_once
  obtain ⟨idx, hids, hpacks⟩ := hone.packs
  obtain ⟨hwf, hgets⟩ := put_preserves hone.wf secondObject.2 (some 0)
  have hget := hgets _ _ hone.get
  have hindexed : (writtenOnce.repack Crates.reference).2.Indexed :=
    (reached_ordered ((Reached.empty.step (.put _ _ _)).step (.repack _))).packs
  obtain ⟨hput, hkept⟩ := hone.put (y := secondObject.2) hindexed packed_apart.1 (some 0)
  rw [← packedOnce_eq] at hwf hget hput hkept
  change packedOnce.kept Crates.reference none = [secondObject, firstObject] at hkept
  obtain ⟨pack, entries, digest, hf⟩ :=
    @finish_of_caps [secondObject, firstObject] Crates.reference (by decide) (by decide)
  rw [← hkept] at hf
  have hfew : (packedOnce.kept Crates.reference none).length < 2 ^ 32 := by
    rw [hkept]
    decide
  obtain ⟨t, ht⟩ := interrupted_ok hwf hf hfew
  rw [hpacks] at hput
  have hid : firstObject.1 ∈ idx.ids := by
    rw [hids]
    exact List.mem_singleton_self _
  refine ⟨t, ht, interrupted_overlaps hwf hfew ?_ ht (hput ▸ List.mem_singleton_self _) hid hget⟩
  rw [hkept, hput, List.map_singleton, List.mem_singleton]
  exact fun heq => packed_apart.2 (packStem_injective heq)

/-- When its next repack crashes, the object in both packs is counted twice. -/
theorem count_interrupted :
    ¬ ∀ (C : Crates) (s : PackedDiskBackend), Reached C s →
      s.count = .ok s.list.toFinset.card := by
  intro h
  obtain ⟨t, ht, hshared⟩ := packedOnce_interrupted
  have hreached := packedOnce_reached.interrupted ht
  exact hshared ((count_distinct_iff (reached_ordered hreached).packs).2.mp (h _ t hreached))

end PackedDiskBackend

end Bole
