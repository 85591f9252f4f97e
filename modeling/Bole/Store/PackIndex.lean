import Bole.Reference
import Bole.Store.Pack
import Bole.Lib.BinarySearch

/-!
The index of a pack (`PackIndex` in `src/store/pack.rs`): a table sorted by id, searched
through a fanout on the first byte.

* `lookup_mem`: a hit is an entry of the table, on any table;
* `lookup_build`: on a built index every entry is found under its id, and nothing else is;
* `parse_encode`: an index of fewer than `2 ^ 32` entries is read back from its file;
* `lookup_linear_iff`: the search is a linear search over the entries, and an index of more
  entries is not read back.
-/

namespace Bole

open ByteString BinarySearch

/-! ### The table and its search -/

/-- `IDX_MAGIC`. -/
def idxMagic : Bytes := ascii "BOLEIDX" ++ [0]

/-- `IDX_VERSION`. -/
def idxVersion : ℕ := 1

/-- `PackIndex`. -/
structure PackIndex where
  entries : List PackEntry
  packDigest : Digest
deriving DecidableEq

/-- The first byte of an id, `id.as_bytes()[0]`. -/
def ObjectId.firstByte (id : ObjectId) : ℕ := (id.asBytes.headD 0).toNat

/-- The order of the table. -/
def PackEntry.Le (a b : PackEntry) : Prop := (compare a.id.asBytes b.id.asBytes).isLE = true

instance : DecidableRel PackEntry.Le := fun a b =>
  inferInstanceAs (Decidable ((compare a.id.asBytes b.id.asBytes).isLE = true))

instance : Std.Total PackEntry.Le where
  total a b := by
    simp only [PackEntry.Le]
    cases h : compare a.id.asBytes b.id.asBytes with
    | lt => simp
    | eq => simp
    | gt => simp [Std.OrientedCmp.lt_of_gt h]

instance : IsTrans PackEntry PackEntry.Le where
  trans _ _ _ := Std.TransCmp.isLE_trans

namespace PackIndex

/-- `build`: the entries, sorted by id. -/
def build (entries : List PackEntry) (packDigest : Digest) : PackIndex :=
  ⟨entries.insertionSort PackEntry.Le, packDigest⟩

/-- `ids`. -/
def ids (idx : PackIndex) : List ObjectId := idx.entries.map PackEntry.id

/-- `count`. -/
def count (idx : PackIndex) : ℕ := idx.entries.length

/-- `fanout_at`: the number of entries whose first byte is at most `byte`. -/
def fanoutAt (idx : PackIndex) (byte : ℕ) : ℕ :=
  partitionPoint (fun e => decide (e.id.firstByte ≤ byte)) idx.entries

/-- `lookup`.  On a table that is not sorted the fanout can give an empty range from the wrong
side, and slicing it panics. -/
def lookup (idx : PackIndex) (id : ObjectId) : Result (Option (ℕ × ℕ)) :=
  let first := id.firstByte
  let lo := if first = 0 then 0 else idx.fanoutAt (first - 1)
  let hi := idx.fanoutAt first
  if hi < lo then .error (.panic "slice index starts after its end")
  else
    let range := slice idx.entries lo (hi - lo)
    match binarySearchBy (fun e => compare e.id.asBytes id.asBytes) range with
    | .error _ => .ok none
    | .ok i =>
        match range[i]? with
        | none => .error (.panic "index out of bounds")
        | some e => .ok (some (e.offset, e.len))

/-- A hit is an entry of the table. -/
lemma lookup_mem {idx : PackIndex} {id : ObjectId} {off len : ℕ}
    (h : idx.lookup id = .ok (some (off, len))) : ⟨id, off, len⟩ ∈ idx.entries := by
  simp only [lookup] at h
  split_ifs at h
  all_goals
    split at h
    · cases h
    · next i hi =>
        obtain ⟨e, he, heq⟩ := binarySearchBy_ok hi
        rw [he] at h
        have hid : e.id = id :=
          ObjectId.asBytes_injective (Std.LawfulEqOrd.eq_of_compare heq)
        obtain ⟨hoff, hlen⟩ : e.offset = off ∧ e.len = len := by simpa using h
        subst hid hoff hlen
        exact List.mem_of_mem_drop (List.mem_of_mem_take (List.mem_of_getElem? he))

lemma build_sorted (entries : List PackEntry) (d : Digest) :
    (build entries d).entries.Pairwise PackEntry.Le :=
  List.pairwise_insertionSort _ entries

lemma mem_build {entries : List PackEntry} {d : Digest} {e : PackEntry} :
    e ∈ (build entries d).entries ↔ e ∈ entries :=
  List.mem_insertionSort _

/-- Entries in table order have ordered first bytes. -/
lemma firstByte_mono {a b : PackEntry} (h : a.Le b) : a.id.firstByte ≤ b.id.firstByte := by
  simp only [PackEntry.Le] at h
  have ha := a.id.length_asBytes
  have hb := b.id.length_asBytes
  simp only [ObjectId.firstByte]
  cases hxs : a.id.asBytes with
  | nil => simp [hxs] at ha
  | cons x xs =>
      cases hys : b.id.asBytes with
      | nil => simp [hys] at hb
      | cons y ys =>
          rw [hxs, hys, List.compare_cons_cons] at h
          have hxy : (compare x y).isLE = true := by
            cases hc : compare x y with
            | lt => rfl
            | eq => rfl
            | gt => simp [hc] at h
          exact UInt8.le_iff_toNat_le.mp (Std.isLE_compare.mp hxy)

lemma rel_of_lt {l : List PackEntry} (hs : l.Pairwise PackEntry.Le) {i j : ℕ}
    {x y : PackEntry} (hij : i < j) (hx : l[i]? = some x) (hy : l[j]? = some y) : x.Le y := by
  obtain ⟨hi, rfl⟩ := List.getElem?_eq_some_iff.mp hx
  obtain ⟨hj, rfl⟩ := List.getElem?_eq_some_iff.mp hy
  exact List.pairwise_iff_getElem.mp hs i j hi hj hij

/-- The order of the first bytes. -/
def ByFirstByte (idx : PackIndex) : Prop :=
  idx.entries.Pairwise fun a b => a.id.firstByte ≤ b.id.firstByte

lemma byFirstByte_of_sorted {idx : PackIndex} (hs : idx.entries.Pairwise PackEntry.Le) :
    idx.ByFirstByte := hs.imp firstByte_mono

lemma partitioned_firstByte {idx : PackIndex} (hs : idx.ByFirstByte) (byte : ℕ) :
    Partitioned (fun e : PackEntry => decide (e.id.firstByte ≤ byte)) idx.entries := by
  intro i j x y hij hx hy hle
  have hle' : y.id.firstByte ≤ byte := by simpa using hle
  rcases Nat.lt_or_eq_of_le hij with hlt | rfl
  · obtain ⟨hi, rfl⟩ := List.getElem?_eq_some_iff.mp hx
    obtain ⟨hj, rfl⟩ := List.getElem?_eq_some_iff.mp hy
    have hbyte := List.pairwise_iff_getElem.mp hs i j hi hj hlt
    exact decide_eq_true (by omega)
  · rw [hx] at hy
    cases hy
    exact hle

/-- Where the first bytes are sorted the fanout counts exactly the entries up to the byte. -/
lemma fanoutAt_spec {idx : PackIndex} (hs : idx.ByFirstByte) (byte : ℕ) :
    idx.fanoutAt byte ≤ idx.entries.length ∧
      ∀ (j : ℕ) (e : PackEntry), idx.entries[j]? = some e →
        (e.id.firstByte ≤ byte ↔ j < idx.fanoutAt byte) := by
  obtain ⟨h1, h2⟩ := partitionPoint_spec (partitioned_firstByte hs byte)
  exact ⟨h1, fun j e he => by simpa [fanoutAt] using h2 j e he⟩

/-- The range `lookup` searches. -/
def window (idx : PackIndex) (id : ObjectId) : ℕ × ℕ :=
  (if id.firstByte = 0 then 0 else idx.fanoutAt (id.firstByte - 1), idx.fanoutAt id.firstByte)

/-- Then the range holds every entry that shares the first byte. -/
lemma window_spec {idx : PackIndex} (hs : idx.ByFirstByte) (id : ObjectId) :
    (idx.window id).1 ≤ (idx.window id).2 ∧
      ∀ (j : ℕ) (e : PackEntry), idx.entries[j]? = some e →
        e.id.firstByte = id.firstByte → (idx.window id).1 ≤ j ∧ j < (idx.window id).2 := by
  have hhi := fanoutAt_spec hs id.firstByte
  simp only [window]
  split_ifs with h0
  · exact ⟨Nat.zero_le _, fun j e he hf => ⟨Nat.zero_le _, (hhi.2 j e he).mp (by omega)⟩⟩
  · have hlo := fanoutAt_spec hs (id.firstByte - 1)
    refine ⟨?_, fun j e he hf => ⟨?_, (hhi.2 j e he).mp (by omega)⟩⟩
    · -- an entry at the upper fanout would have a first byte both above and below
      by_contra hlt
      have hlen : idx.fanoutAt id.firstByte < idx.entries.length := by omega
      have he := List.getElem?_eq_getElem hlen
      have h1 := (hlo.2 _ _ he).mpr (by omega)
      have h2 := mt (hhi.2 _ _ he).mp (by omega)
      omega
    · by_contra hlt
      have := (hlo.2 j e he).mpr (by omega)
      omega

/-- The comparisons with any id are ordered along a sorted table. -/
lemma ordered_of_sorted {l : List PackEntry} (hs : l.Pairwise PackEntry.Le) (id : ObjectId) :
    Ordered (fun e => compare e.id.asBytes id.asBytes) l := by
  intro i j x y hij hx hy
  rcases Nat.lt_or_eq_of_le hij with hlt | rfl
  · have hle := rel_of_lt hs hlt hx hy
    refine ⟨fun hgt => ?_, fun heq hlt' => ?_⟩
    · have h1 := Std.TransCmp.lt_of_lt_of_isLE (Std.OrientedCmp.lt_of_gt hgt) hle
      exact Std.OrientedCmp.gt_of_lt h1
    · have h1 := Std.TransCmp.lt_of_isLE_of_lt hle hlt'
      exact absurd (heq.symm.trans h1) (by simp)
  · rw [hx] at hy
    cases hy
    exact ⟨fun h => h, fun heq hlt => absurd (heq.symm.trans hlt) (by simp)⟩

/-- On a sorted table an entry is found under its id, and an id without an entry is not. -/
lemma lookup_of_sorted {idx : PackIndex} (hs : idx.entries.Pairwise PackEntry.Le)
    (id : ObjectId) :
    if id ∈ idx.ids then ∃ off len, idx.lookup id = .ok (some (off, len))
    else idx.lookup id = .ok none := by
  obtain ⟨hle, hwin⟩ := window_spec (byFirstByte_of_sorted hs) id
  have hunfold : idx.lookup id =
      match binarySearchBy (fun e => compare e.id.asBytes id.asBytes)
        (slice idx.entries (idx.window id).1 ((idx.window id).2 - (idx.window id).1)) with
      | .error _ => .ok none
      | .ok i =>
          match (slice idx.entries (idx.window id).1
            ((idx.window id).2 - (idx.window id).1))[i]? with
          | none => .error (.panic "index out of bounds")
          | some e => .ok (some (e.offset, e.len)) := by
    simp only [lookup, window] at hle ⊢
    rw [if_neg (by omega)]
  have hsub : (slice idx.entries (idx.window id).1
      ((idx.window id).2 - (idx.window id).1)).Pairwise PackEntry.Le :=
    (hs.sublist (List.drop_sublist _ _)).sublist (List.take_sublist _ _)
  split_ifs with hmem
  · obtain ⟨e, he, hid⟩ := List.mem_map.mp hmem
    obtain ⟨j, hj⟩ := List.mem_iff_getElem?.mp he
    obtain ⟨hlo, hhi⟩ := hwin j e hj (by rw [hid])
    have hrange : (slice idx.entries (idx.window id).1
        ((idx.window id).2 - (idx.window id).1))[j - (idx.window id).1]? = some e := by
      rw [slice, List.getElem?_take, if_pos (by omega), List.getElem?_drop,
        Nat.add_sub_cancel' hlo, hj]
    cases hb : binarySearchBy (fun e => compare e.id.asBytes id.asBytes)
        (slice idx.entries (idx.window id).1
          ((idx.window id).2 - (idx.window id).1)) with
    | error i =>
        have hsplit := binarySearchBy_err (ordered_of_sorted hsub id) hb _ _ hrange
        have heq : compare e.id.asBytes id.asBytes = .eq := by
          rw [hid]
          exact Std.ReflOrd.compare_self
        rw [heq] at hsplit
        split_ifs at hsplit
    | ok i =>
        obtain ⟨e', he', -⟩ := binarySearchBy_ok hb
        exact ⟨e'.offset, e'.len, by rw [hunfold, hb]; simp only [he']⟩
  · rw [hunfold]
    cases hb : binarySearchBy (fun e => compare e.id.asBytes id.asBytes)
        (slice idx.entries (idx.window id).1
          ((idx.window id).2 - (idx.window id).1)) with
    | error i => rfl
    | ok i =>
        obtain ⟨e, he, heq⟩ := binarySearchBy_ok hb
        refine absurd (List.mem_map.mpr ⟨e, ?_, ?_⟩) hmem
        · exact List.mem_of_mem_drop (List.mem_of_mem_take (List.mem_of_getElem? he))
        · exact ObjectId.asBytes_injective (Std.LawfulEqOrd.eq_of_compare heq)

/-- **Every entry of a built index is found under its id** when no id is entered twice. -/
theorem lookup_build {entries : List PackEntry} {d : Digest}
    (hnodup : (entries.map PackEntry.id).Nodup) {e : PackEntry} (he : e ∈ entries) :
    (build entries d).lookup e.id = .ok (some (e.offset, e.len)) := by
  have hmem : e.id ∈ (build entries d).ids :=
    List.mem_map.mpr ⟨e, mem_build.mpr he, rfl⟩
  have h := lookup_of_sorted (build_sorted entries d) e.id
  rw [if_pos hmem] at h
  obtain ⟨off, len, hl⟩ := h
  have hin := mem_build.mp (lookup_mem hl)
  have heq : (⟨e.id, off, len⟩ : PackEntry) = e := List.inj_on_of_nodup_map hnodup hin he rfl
  rw [hl, ← heq]

/-- An id that was not entered is not found. -/
lemma lookup_build_none {entries : List PackEntry} {d : Digest} {id : ObjectId}
    (h : id ∉ entries.map PackEntry.id) : (build entries d).lookup id = .ok none := by
  have hmem : id ∉ (build entries d).ids := by
    rw [ids, List.mem_map]
    rintro ⟨e, he, rfl⟩
    exact h (List.mem_map.mpr ⟨e, mem_build.mp he, rfl⟩)
  have := lookup_of_sorted (build_sorted entries d) id
  rwa [if_neg hmem] at this

/-! ### The file -/

/-- `encode` without its trailing digest. -/
def encodeHead (idx : PackIndex) : Bytes :=
  idxMagic ++ (leBytes 4 idxVersion ++ (leBytes 4 idx.entries.length ++
    ((List.range 256).flatMap (fun b => leBytes 4 (idx.fanoutAt b)) ++
      (idx.entries.flatMap (fun e => e.id.asBytes) ++
        (idx.entries.flatMap (fun e => leBytes 8 e.offset) ++
          (idx.entries.flatMap (fun e => leBytes 8 e.len) ++ idx.packDigest.bytes))))))

/-- `encode`. -/
def encode (C : Crates) (idx : PackIndex) : Bytes :=
  idx.encodeHead ++ (C.blake3 idx.encodeHead).bytes

/-- Where the columns start: after magic, version, count and fanout. -/
def tableStart : ℕ := 16 + 256 * 4

/-- The `i`-th row of the three columns, `n` rows each, that start at `idsStart`. -/
def parseEntry (head : Bytes) (n idsStart i : ℕ) : Result PackEntry := do
  let offsetsStart := idsStart + n * 32
  let lensStart := offsetsStart + n * 8
  let id ← objectIdOfBytes (slice head (idsStart + i * 32) 32)
  .ok ⟨id, ofLeBytes (slice head (offsetsStart + i * 8) 8),
    ofLeBytes (slice head (lensStart + i * 8) 8)⟩

/-- `parse`. -/
def parse (C : Crates) (data : Bytes) : Result PackIndex :=
  if data.length < 16 then .error (.storage "idx: truncated")
  else if slice data 0 8 ≠ idxMagic then .error (.storage "idx: bad magic")
  else if ofLeBytes (slice data 8 4) ≠ idxVersion then
    .error (.storage ("idx: unsupported version " ++ toString (ofLeBytes (slice data 8 4))))
  else
    let n := ofLeBytes (slice data 12 4)
    if data.length < 32 then .error (.storage "idx: truncated")
    else
      let head := data.take (data.length - 32)
      if (C.blake3 head).bytes ≠ data.drop (data.length - 32) then
        .error (.storage "idx: digest mismatch")
      else
        let pos := tableStart
        if head.length < pos + (n * 32 + n * 8 + n * 8 + 32) then
          .error (.storage "idx: truncated")
        else do
          let entries ← (List.range n).mapM (parseEntry head n pos)
          let packDigest ← objectIdOfBytes (slice head (pos + n * 32 + n * 8 + n * 8) 32)
          .ok ⟨entries, packDigest.digest⟩

@[simp] lemma length_idxMagic : idxMagic.length = 8 := by simp [idxMagic, ascii]

/-- The three columns and the digest, where `parse` looks for them. -/
lemma encodeHead_columns (idx : PackIndex) :
    ∃ pre, idx.encodeHead = pre ++ (idx.entries.flatMap (fun e => e.id.asBytes) ++
        (idx.entries.flatMap (fun e => leBytes 8 e.offset) ++
          (idx.entries.flatMap (fun e => leBytes 8 e.len) ++ idx.packDigest.bytes))) ∧
      pre.length = tableStart ∧ slice pre 0 8 = idxMagic ∧
      slice pre 8 4 = leBytes 4 idxVersion ∧
      slice pre 12 4 = leBytes 4 idx.entries.length := by
  have hfan : ((List.range 256).flatMap fun b => leBytes 4 (idx.fanoutAt b)).length = 256 * 4 := by
    rw [length_flatMap_const (w := 4) (by simp), List.length_range]
  refine ⟨idxMagic ++ (leBytes 4 idxVersion ++ (leBytes 4 idx.entries.length ++
    (List.range 256).flatMap (fun b => leBytes 4 (idx.fanoutAt b)))), ?_, ?_, ?_, ?_, ?_⟩
  · simp only [encodeHead, List.append_assoc]
  · simp only [List.length_append, hfan, length_idxMagic, length_leBytes, tableStart]
  · exact slice_first length_idxMagic.symm
  · exact slice_middle _ _ _ length_idxMagic.symm (by simp)
  · rw [← List.append_assoc idxMagic]
    exact slice_middle _ _ _ (by simp) (by simp)

/-- The lengths of the columns. -/
lemma length_columns (idx : PackIndex) :
    (idx.entries.flatMap fun e => e.id.asBytes).length = idx.entries.length * 32 ∧
      (idx.entries.flatMap fun e => leBytes 8 e.offset).length = idx.entries.length * 8 ∧
      (idx.entries.flatMap fun e => leBytes 8 e.len).length = idx.entries.length * 8 :=
  ⟨length_flatMap_const (fun e => e.id.length_asBytes) _, length_flatMap_const (by simp) _,
    length_flatMap_const (by simp) _⟩

lemma length_encodeHead (idx : PackIndex) : idx.encodeHead.length = tableStart +
    (idx.entries.length * 32 + idx.entries.length * 8 + idx.entries.length * 8 + 32) := by
  obtain ⟨pre, hhead, hpre, -⟩ := encodeHead_columns idx
  obtain ⟨hl1, hl2, hl3⟩ := length_columns idx
  rw [hhead]
  simp only [List.length_append, hl1, hl2, hl3, hpre, idx.packDigest.length_eq]
  omega

/-- The id of a row, in the column of the ids. -/
lemma slice_ids {idx : PackIndex} {i : ℕ} {e : PackEntry} (he : idx.entries[i]? = some e) :
    slice idx.encodeHead (tableStart + i * 32) 32 = e.id.asBytes := by
  have hi : i < idx.entries.length := (List.getElem?_eq_some_iff.mp he).1
  obtain ⟨pre, hhead, hpre, -⟩ := encodeHead_columns idx
  have hlen := (length_columns idx).1
  rw [hhead, ← hpre, slice_append_right, slice_append_left _ (by omega),
    slice_flatMap (fun e => e.id.length_asBytes) he]

/-- The digest behind the columns. -/
lemma slice_packDigest (idx : PackIndex) :
    slice idx.encodeHead (tableStart + idx.entries.length * 32 + idx.entries.length * 8 +
      idx.entries.length * 8) 32 = idx.packDigest.bytes := by
  obtain ⟨pre, hhead, hpre, -⟩ := encodeHead_columns idx
  obtain ⟨hl1, hl2, hl3⟩ := length_columns idx
  have hlast := slice_middle (pre ++ (idx.entries.flatMap (fun e => e.id.asBytes) ++
    (idx.entries.flatMap (fun e => leBytes 8 e.offset) ++
      idx.entries.flatMap (fun e => leBytes 8 e.len)))) idx.packDigest.bytes [] rfl
    idx.packDigest.length_eq.symm
  simp only [List.length_append, List.append_assoc, List.append_nil, hl1, hl2, hl3, hpre,
    ← hhead, ← Nat.add_assoc] at hlast
  exact hlast

lemma length_encode (C : Crates) (idx : PackIndex) :
    (idx.encode C).length = idx.encodeHead.length + 32 := by
  rw [encode, List.length_append, (C.blake3 idx.encodeHead).length_eq]

/-- The file before its trailing digest. -/
lemma take_encode (C : Crates) (idx : PackIndex) :
    (idx.encode C).take ((idx.encode C).length - 32) = idx.encodeHead := by
  rw [length_encode, Nat.add_sub_cancel, encode, List.take_left' rfl]

/-- The trailing digest. -/
lemma drop_encode (C : Crates) (idx : PackIndex) :
    (idx.encode C).drop ((idx.encode C).length - 32) = (C.blake3 idx.encodeHead).bytes := by
  rw [length_encode, Nat.add_sub_cancel, encode, List.drop_left' rfl]

/-- The fields before the fanout.  The count in the file is the count of the table in 32 bits. -/
lemma fields_encode (C : Crates) (idx : PackIndex) :
    slice (idx.encode C) 0 8 = idxMagic ∧ ofLeBytes (slice (idx.encode C) 8 4) = idxVersion ∧
      ofLeBytes (slice (idx.encode C) 12 4) = idx.entries.length % 2 ^ 32 := by
  obtain ⟨pre, hhead, hpre, hmagic, hversion, hcount⟩ := encodeHead_columns idx
  have hfield : ∀ i w, i + w ≤ 16 → slice (idx.encode C) i w = slice pre i w := by
    intro i w hiw
    have hle : i + w ≤ pre.length := by
      rw [hpre, tableStart]
      omega
    rw [encode, hhead, List.append_assoc, slice_append_left _ hle]
  refine ⟨(hfield 0 8 (by omega)).trans hmagic, ?_, ?_⟩
  · rw [hfield 8 4 (by omega), hversion, ofLeBytes_leBytes (by simp [idxVersion])]
  · rw [hfield 12 4 (by omega), hcount, ofLeBytes_leBytes_mod]
    norm_num

/-- A row of the columns is read back. -/
lemma parseEntry_encode {idx : PackIndex} {pre : Bytes} {i : ℕ} {e : PackEntry}
    (he : idx.entries[i]? = some e) (hoff : e.offset < 2 ^ 64) (hlen : e.len < 2 ^ 64) :
    parseEntry (pre ++ (idx.entries.flatMap (fun e => e.id.asBytes) ++
        (idx.entries.flatMap (fun e => leBytes 8 e.offset) ++
          (idx.entries.flatMap (fun e => leBytes 8 e.len) ++ idx.packDigest.bytes))))
      idx.entries.length pre.length i = .ok e := by
  have hi : i < idx.entries.length := (List.getElem?_eq_some_iff.mp he).1
  obtain ⟨hl1, hl2, hl3⟩ := length_columns idx
  have h1 := slice_flatMap (f := fun e : PackEntry => e.id.asBytes) (w := 32)
    (fun e => e.id.length_asBytes) he
  have h2 := slice_flatMap (f := fun e : PackEntry => leBytes 8 e.offset) (w := 8) (by simp) he
  have h3 := slice_flatMap (f := fun e : PackEntry => leBytes 8 e.len) (w := 8) (by simp) he
  have hid : objectIdOfBytes e.id.asBytes = .ok e.id := by
    rw [objectIdOfBytes, dif_pos e.id.length_asBytes]
    rfl
  have ho : ofLeBytes (leBytes 8 e.offset) = e.offset := ofLeBytes_leBytes (by omega)
  have hn : ofLeBytes (leBytes 8 e.len) = e.len := ofLeBytes_leBytes (by omega)
  simp only [parseEntry]
  rw [slice_append_right, slice_append_left _ (by omega), h1, hid,
    show pre.length + idx.entries.length * 32 + i * 8 =
      pre.length + (idx.entries.length * 32 + i * 8) by omega,
    slice_append_right, ← hl1, slice_append_right, slice_append_left _ (by omega), h2, ho, hl1,
    show pre.length + idx.entries.length * 32 + idx.entries.length * 8 + i * 8 =
      pre.length + (idx.entries.length * 32 + (idx.entries.length * 8 + i * 8)) by omega,
    slice_append_right, ← hl1, slice_append_right, ← hl2, slice_append_right,
    slice_append_left _ (by omega), h3, hn]
  rfl

/-- Every row of the table is read back, so the loop returns the table. -/
lemma rows_encode {idx : PackIndex} (he : ∀ e ∈ idx.entries, e.offset < 2 ^ 64 ∧ e.len < 2 ^ 64) :
    (List.range idx.entries.length).mapM
      (parseEntry idx.encodeHead idx.entries.length tableStart) = .ok idx.entries := by
  obtain ⟨pre, hhead, hpre, -⟩ := encodeHead_columns idx
  have hrow : ∀ i ∈ List.range idx.entries.length,
      parseEntry idx.encodeHead idx.entries.length tableStart i =
        .ok (idx.entries[i]?.getD ⟨default, 0, 0⟩) := by
    intro i hi
    have hi' : i < idx.entries.length := by simpa using hi
    have hget := List.getElem?_eq_getElem hi'
    obtain ⟨h1, h2⟩ := he _ (List.getElem_mem hi')
    rw [hhead, ← hpre, parseEntry_encode hget h1 h2, hget]
    rfl
  rw [Result.mapM_eq_ok hrow]
  refine congrArg Except.ok (List.ext_getElem (by simp) fun i h1 h2 => ?_)
  simp [List.getElem?_eq_getElem h2]

/-- **An index file is read back**: fewer than `2 ^ 32` entries, all within `u64`. -/
theorem parse_encode (C : Crates) {idx : PackIndex} (hn : idx.entries.length < 2 ^ 32)
    (he : ∀ e ∈ idx.entries, e.offset < 2 ^ 64 ∧ e.len < 2 ^ 64) :
    parse C (idx.encode C) = .ok idx := by
  obtain ⟨hmagic, hversion, hcount⟩ := fields_encode C idx
  have hlen := length_encode C idx
  have hhead := length_encodeHead idx
  have hstart : 16 ≤ tableStart := by simp [tableStart]
  have hdigest : objectIdOfBytes (slice idx.encodeHead (tableStart + idx.entries.length * 32 +
      idx.entries.length * 8 + idx.entries.length * 8) 32) = .ok ⟨idx.packDigest⟩ := by
    rw [slice_packDigest, objectIdOfBytes, dif_pos idx.packDigest.length_eq]
  rw [Nat.mod_eq_of_lt hn] at hcount
  rw [parse, if_neg (by omega), hmagic, if_neg (not_not.mpr rfl), hversion,
    if_neg (not_not.mpr rfl)]
  simp only [hcount, take_encode, drop_encode]
  rw [if_neg (by omega), if_neg (not_not.mpr rfl), if_neg (by omega), rows_encode he]
  simp only [bind, Except.bind, hdigest]

/-- What a file that parses holds: as many rows as its count. -/
lemma parse_rows {C : Crates} {data : Bytes} {idx : PackIndex} (h : parse C data = .ok idx) :
    (List.range (ofLeBytes (slice data 12 4))).mapM (parseEntry (data.take (data.length - 32))
      (ofLeBytes (slice data 12 4)) tableStart) = .ok idx.entries := by
  simp only [parse] at h
  split_ifs at h
  obtain ⟨entries, hentries, h⟩ := Result.bind_eq_ok.mp h
  obtain ⟨digest, -, h⟩ := Result.bind_eq_ok.mp h
  cases h
  exact hentries

/-- A parsed index has a count that fits its field. -/
lemma parse_length_lt {C : Crates} {data : Bytes} {idx : PackIndex}
    (h : parse C data = .ok idx) : idx.entries.length < 2 ^ 32 := by
  have hlen := (Result.forall₂_mapM (parse_rows h)).length_eq
  rw [List.length_range] at hlen
  have hle : (slice data 12 4).length ≤ 4 := by
    rw [slice, List.length_take]
    exact min_le_left _ _
  have hlt := ofLeBytes_lt (slice data 12 4)
  calc idx.entries.length = ofLeBytes (slice data 12 4) := hlen.symm
    _ < 256 ^ (slice data 12 4).length := hlt
    _ ≤ 256 ^ 4 := Nat.pow_le_pow_right (by norm_num) hle
    _ = 2 ^ 32 := by norm_num

/-- **Whatever is read back** from the file of an index, its ids are the first ids of the index, as
many as the count in the file says. -/
lemma ids_of_parse_encode {C : Crates} {idx idx' : PackIndex}
    (h : parse C (idx.encode C) = .ok idx') :
    idx'.ids = idx.ids.take (idx.entries.length % 2 ^ 32) := by
  have hrows := parse_rows h
  rw [take_encode, (fields_encode C idx).2.2] at hrows
  obtain ⟨hlen, hrow⟩ := List.forall₂_iff_get.mp (Result.forall₂_mapM hrows)
  rw [List.length_range] at hlen
  have hle := Nat.mod_le idx.entries.length (2 ^ 32)
  refine List.ext_getElem ?_ fun i hi hi' => ?_
  · rw [List.length_take, ids, ids, List.length_map, List.length_map]
    omega
  · have hi₁ : i < idx'.entries.length := by simpa [ids] using hi
    have hi₂ : i < idx.entries.length := by omega
    have hparse := hrow i (by rwa [List.length_range, hlen]) hi₁
    simp only [List.get_eq_getElem, List.getElem_range, parseEntry] at hparse
    obtain ⟨id, hid, hparse⟩ := Result.bind_eq_ok.mp hparse
    rw [slice_ids (List.getElem?_eq_getElem hi₂), objectIdOfBytes_eq_ok] at hid
    simp only [ids, List.getElem_map, List.getElem_take]
    rw [← Except.ok.inj hparse, ObjectId.asBytes_injective hid]

/-! ### The index as a table -/

section Table

variable {entries : List PackEntry} {d : Digest}

/-- The linear search over the entries. -/
def linearSearch (entries : List PackEntry) (id : ObjectId) : Option (ℕ × ℕ) :=
  (entries.find? fun e => e.id = id).map fun e => (e.offset, e.len)

/-- **The search through the fanout finds** what a linear search over the entries finds, in
whatever order they are. -/
lemma lookup_eq_linearSearch (hnodup : (entries.map PackEntry.id).Nodup) (d : Digest)
    (id : ObjectId) : (build entries d).lookup id = .ok (linearSearch entries id) := by
  rw [linearSearch]
  cases hfind : entries.find? fun e => e.id = id with
  | none =>
      refine lookup_build_none fun hmem => ?_
      obtain ⟨e, he, heq⟩ := List.mem_map.mp hmem
      simpa [heq] using List.find?_eq_none.mp hfind e he
  | some e =>
      have heq : e.id = id := by simpa using List.find?_some hfind
      rw [← heq]
      exact lookup_build hnodup (List.mem_of_find?_eq_some hfind)

/-- The file of an index gives the table back. -/
def FileKeeps (C : Crates) (entries : List PackEntry) (d : Digest) : Prop :=
  ∃ idx, parse C ((build entries d).encode C) = .ok idx ∧ (∀ e, e ∈ idx.entries ↔ e ∈ entries) ∧
    ∀ id, idx.lookup id = .ok (linearSearch entries id)

/-- No file of an index gives back a table whose count does not fit its field. -/
lemma FileKeeps.length_lt {C : Crates} (h : FileKeeps C entries d)
    (hnodup : (entries.map PackEntry.id).Nodup) : entries.length < 2 ^ 32 := by
  obtain ⟨idx, hparse, hmem, -⟩ := h
  have hsub : entries ⊆ idx.entries := fun e he => (hmem e).mpr he
  calc entries.length ≤ idx.entries.length := (hnodup.of_map.subperm hsub).length_le
    _ < 2 ^ 32 := parse_length_lt hparse

/-- **The index is the table of its entries.**  Over entries with different ids the search through
the fanout is the linear search, and the file gives the table back exactly when the entries are
fewer than `2 ^ 32`. -/
theorem lookup_linear_iff (C : Crates) (d : Digest) (hnodup : (entries.map PackEntry.id).Nodup)
    (hwidth : ∀ e ∈ entries, e.offset < 2 ^ 64 ∧ e.len < 2 ^ 64) :
    (∀ id, (build entries d).lookup id = .ok (linearSearch entries id)) ∧
      (FileKeeps C entries d ↔ entries.length < 2 ^ 32) := by
  refine ⟨lookup_eq_linearSearch hnodup d, fun h => h.length_lt hnodup, fun hfew => ?_⟩
  have hlen : (build entries d).entries.length < 2 ^ 32 := by
    rwa [build, List.length_insertionSort]
  exact ⟨build entries d, parse_encode C hlen fun e he => hwidth e (mem_build.mp he),
    fun e => mem_build, lookup_eq_linearSearch hnodup d⟩

end Table

/-- Ids with the last and the first of the first bytes, in the wrong order. -/
def outermost : List PackEntry :=
  [⟨⟨.replicate 255⟩, 32, 60⟩, ⟨⟨.replicate 0⟩, 92, 45⟩]

/-- They are found, also in the index that is read back from its file. -/
theorem lookup_linear_iff_outermost :
    FileKeeps Crates.reference outermost (.replicate 7) ∧
      ∀ id, (build outermost (.replicate 7)).lookup id =
        .ok (linearSearch outermost id) := by
  have hnodup : (outermost.map PackEntry.id).Nodup := by decide
  obtain ⟨hlookup, hfile⟩ := lookup_linear_iff Crates.reference (.replicate 7) hnodup
    (by simp [outermost])
  exact ⟨hfile.mpr (by decide), hlookup⟩

/-- The given number of entries, under the ids that are numbers. -/
def numbered (n : ℕ) : List PackEntry :=
  (List.range n).map fun i => ⟨⟨⟨leBytes 32 i, length_leBytes 32 i⟩⟩, headerLen, 0⟩

lemma length_numbered (n : ℕ) : (numbered n).length = n := by
  rw [numbered, List.length_map, List.length_range]

lemma nodup_numbered {n : ℕ} (hn : n ≤ 256 ^ 32) : ((numbered n).map PackEntry.id).Nodup := by
  rw [numbered, List.map_map]
  refine List.nodup_range.map_on fun i hi j hj heq => ?_
  have hbytes : leBytes 32 i = leBytes 32 j := congrArg ObjectId.asBytes heq
  rw [← ofLeBytes_leBytes ((List.mem_range.mp hi).trans_le hn), hbytes,
    ofLeBytes_leBytes ((List.mem_range.mp hj).trans_le hn)]

/-- The file of an index with `2 ^ 32` entries does not give them back: `n as u32` is zero. -/
theorem index_file_loses :
    ¬ ∀ (C : Crates) (entries : List PackEntry) (d : Digest),
      (entries.map PackEntry.id).Nodup → (∀ e ∈ entries, e.offset < 2 ^ 64 ∧ e.len < 2 ^ 64) →
      FileKeeps C entries d := by
  intro h
  have hnodup : ((numbered (2 ^ 32)).map PackEntry.id).Nodup := nodup_numbered (by norm_num)
  have hkeeps := h Crates.reference (numbered (2 ^ 32)) (.replicate 0) hnodup ?_
  · have hlt := hkeeps.length_lt hnodup
    rw [length_numbered] at hlt
    exact lt_irrefl _ hlt
  · intro e he
    obtain ⟨i, -, rfl⟩ := List.mem_map.mp he
    simp [headerLen]

end PackIndex

end Bole
