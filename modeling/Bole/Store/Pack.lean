import Bole.Store.Varint

/-!
The pack format (`src/store/pack.rs`): frames, the builder and the two readers.

* `decodeFrame_encodeFrame`: a frame decodes to its object exactly when the object is within
  the length cap and hashes to its id;
* `finish_locates`: the entries the builder records locate the frames of its objects;
* `decodePack_finish`: what `decode_pack` returns on a built pack is the list of objects the
  pack was built from.
-/

namespace Bole

open ByteString

/-! ### Constants -/

/-- `PACK_MAGIC`. -/
def packMagic : Bytes := ascii "BOLEPACK"

/-- `END_MAGIC`. -/
def endMagic : Bytes := ascii "BOLEPKND"

/-- `PACK_VERSION`. -/
def packVersion : ℕ := 1

/-- `RECORD_OBJECT`. -/
def recordObject : UInt8 := 0x01

/-- `HEADER_LEN`. -/
def headerLen : ℕ := 32

/-- `TRAILER_LEN`. -/
def trailerLen : ℕ := 40

/-- `MAX_OBJECT_LEN`. -/
def maxObjectLen : ℕ := 128 * 1024 * 1024

/-- `MAX_PACK_OBJECTS`. -/
def maxPackObjects : ℕ := 8000000

/-- `MAX_PACK_TOTAL_LEN`. -/
def maxPackTotalLen : ℕ := 1024 * 1024 * 1024

/-- No `Vec<u8>` reaches `isize::MAX + 1` bytes: growing one that far panics. -/
def maxVecLen : ℕ := 2 ^ 63

/-- `{:#x}` on one byte. -/
def hexLiteral (b : UInt8) : String := "0x" ++ String.ofList (Nat.toDigits 16 b.toNat)

/-- The refusal of a record that is no object. -/
def unknownRecordType (rt : UInt8) : Error :=
  .storage ("pack: unknown record type " ++ hexLiteral rt)

/-- The refusal of a declared length beyond the cap. -/
def lengthExceedsCap (ulen : ℕ) : Error :=
  .storage ("pack: object length " ++ toString ulen ++ " exceeds cap " ++ toString maxObjectLen)

/-! ### Frames -/

/-- The frame `PackBuilder::finish` appends for one object. -/
def encodeFrame (C : Crates) (id : ObjectId) (canonical : Bytes) : Bytes :=
  let zstd := C.zstd.encodeAll canonical
  recordObject ::
    (id.asBytes ++ (writeVarint canonical.length ++ (writeVarint zstd.length ++ zstd)))

/-- `zstd_decode_bounded`. -/
def zstdDecodeBounded (C : Crates) (zstd : Bytes) (maxOut : ℕ) : Result Bytes :=
  match C.zstd.decodeTake zstd (maxOut + 1) with
  | none => .error (.storage "pack: zstd decode")
  | some canonical => .ok canonical

/-- `slice.get(i..i + n)`. -/
def getRange (data : Bytes) (i n : ℕ) : Option Bytes :=
  if i + n ≤ data.length then some (slice data i n) else none

/-- `ObjectId::new` on the bytes of a range; every call site passes 32 of them. -/
def objectIdOfBytes (b : Bytes) : Result ObjectId :=
  if h : b.length = 32 then .ok ⟨⟨b, h⟩⟩
  else .error (.panic "source slice length does not match destination slice length")

lemma objectIdOfBytes_eq_ok {b : Bytes} {id : ObjectId} :
    objectIdOfBytes b = .ok id ↔ id.asBytes = b := by
  rw [objectIdOfBytes]
  constructor
  · intro h
    split_ifs at h
    cases h
    rfl
  · rintro rfl
    rw [dif_pos id.length_asBytes]
    rfl

/-- The tail of `decode_frame`: the body at `pos`, `slen` bytes long, for an object declared
to have `ulen` bytes. -/
def decodeBody (C : Crates) (frame : Bytes) (id : ObjectId) (pos ulen slen : ℕ) :
    Result (ObjectId × Bytes) :=
  if 2 ^ 64 ≤ pos + slen then .error (.panic "attempt to add with overflow")
  else
    match getRange frame pos slen with
    | none => .error (.storage "pack: frame body truncated")
    | some zstd => do
        let canonical ← zstdDecodeBounded C zstd ulen
        if canonical.length ≠ ulen then
          .error (.storage "pack: uncompressed length mismatch")
        else if C.fromContent canonical ≠ id then
          .error (.storage "pack: frame id does not match content")
        else .ok (id, canonical)

/-- `decode_frame`. -/
def decodeFrame (C : Crates) (frame : Bytes) : Result (ObjectId × Bytes) :=
  match frame[0]? with
  | none => .error (.storage "pack: empty frame")
  | some rt =>
      if rt ≠ recordObject then .error (unknownRecordType rt)
      else
        match getRange frame 1 32 with
        | none => .error (.storage "pack: frame id truncated")
        | some idBytes => do
            let id ← objectIdOfBytes idBytes
            let (ulen, pos) ← readVarint frame 33
            if maxObjectLen < ulen then .error (lengthExceedsCap ulen)
            else
              let (slen, pos) ← readVarint frame pos
              decodeBody C frame id pos ulen slen

/-- **A decoded frame** is within the length cap, and its object hashes to its id. -/
lemma decodeFrame_ok {C : Crates} {frame : Bytes} {id : ObjectId} {x : Bytes}
    (h : decodeFrame C frame = .ok (id, x)) : x.length ≤ maxObjectLen ∧ C.fromContent x = id := by
  rw [decodeFrame] at h
  split at h
  · cases h
  · split_ifs at h
    split at h
    · cases h
    · rw [Result.bind_eq_ok] at h
      obtain ⟨i, -, h⟩ := h
      rw [Result.bind_eq_ok] at h
      obtain ⟨⟨ulen, pos⟩, -, h⟩ := h
      dsimp only at h
      split_ifs at h with hcap
      rw [Result.bind_eq_ok] at h
      obtain ⟨⟨slen, pos'⟩, -, h⟩ := h
      dsimp only at h
      rw [decodeBody] at h
      split_ifs at h
      split at h
      · cases h
      · rw [Result.bind_eq_ok] at h
        obtain ⟨canonical, -, h⟩ := h
        split_ifs at h with hlen hid
        cases h
        exact ⟨by omega, not_not.mp hid⟩

/-- The parts of a frame, as positions in any byte string the frame stands in. -/
lemma frame_layout {C : Crates} {id : ObjectId} {x data post : Bytes} {pos : ℕ}
    (hd : data.drop pos = encodeFrame C id x ++ post)
    (hlen : (encodeFrame C id x).length < maxVecLen) (hx : x.length < 2 ^ 64) :
    data[pos]? = some recordObject ∧
      slice data (pos + 1) 32 = id.asBytes ∧
      ∃ p, readVarint data (pos + 33) = .ok (x.length, p) ∧
        ∃ q, readVarint data p = .ok ((C.zstd.encodeAll x).length, q) ∧
          q + (C.zstd.encodeAll x).length = pos + (encodeFrame C id x).length ∧
          slice data q (C.zstd.encodeAll x).length = C.zstd.encodeAll x := by
  set z := C.zstd.encodeAll x with hz
  have hframe : encodeFrame C id x =
      recordObject :: (id.asBytes ++ (writeVarint x.length ++ (writeVarint z.length ++ z))) :=
    rfl
  rw [hframe] at hd hlen ⊢
  simp only [List.length_cons, List.length_append, ObjectId.length_asBytes] at hlen ⊢
  have hzlen : z.length < 2 ^ 64 := by
    simp only [maxVecLen] at hlen
    omega
  have hd1 : data.drop (pos + 1) =
      id.asBytes ++ (writeVarint x.length ++ (writeVarint z.length ++ (z ++ post))) := by
    rw [← List.drop_drop, hd]
    simp
  have hd2 : data.drop (pos + 33) =
      writeVarint x.length ++ (writeVarint z.length ++ (z ++ post)) := by
    rw [show pos + 33 = (pos + 1) + 32 by omega, ← List.drop_drop, hd1,
      List.drop_left' (by simp)]
  have hd3 : data.drop (pos + 33 + (writeVarint x.length).length) =
      writeVarint z.length ++ (z ++ post) := by
    rw [← List.drop_drop, hd2, List.drop_left' rfl]
  have hd4 : data.drop
      (pos + 33 + (writeVarint x.length).length + (writeVarint z.length).length) =
      z ++ post := by
    rw [← List.drop_drop, hd3, List.drop_left' rfl]
  refine ⟨?_, ?_, _, readVarint_writeVarint hx hd2, _, readVarint_writeVarint hzlen hd3,
    by omega, ?_⟩
  · rw [← List.head?_drop, hd]
    simp
  · rw [slice, hd1, List.take_left' (by simp)]
  · rw [slice, hd4, List.take_left' rfl]

/-- **A frame decodes to its object** when the object is within the length cap and hashes to
its id, and is refused otherwise. -/
theorem decodeFrame_encodeFrame (C : Crates) {id : ObjectId} {x : Bytes}
    (hlen : (encodeFrame C id x).length < maxVecLen) (hx : x.length < 2 ^ 64) :
    decodeFrame C (encodeFrame C id x) =
      if maxObjectLen < x.length then .error (lengthExceedsCap x.length)
      else if C.fromContent x ≠ id then
        .error (.storage "pack: frame id does not match content")
      else .ok (id, x) := by
  obtain ⟨h0, hid, p, hp, q, hq, hend, hbody⟩ :=
    frame_layout (show (encodeFrame C id x).drop 0 = encodeFrame C id x ++ [] by simp) hlen hx
  simp only [Nat.zero_add] at hid hp hend
  have h33 : 1 + 32 ≤ (encodeFrame C id x).length := by
    simp only [encodeFrame, List.length_cons, List.length_append, ObjectId.length_asBytes]
    omega
  have hrange : getRange (encodeFrame C id x) 1 32 = some id.asBytes := by
    rw [getRange, if_pos h33, hid]
  have hobj : objectIdOfBytes id.asBytes = .ok id := by
    rw [objectIdOfBytes, dif_pos id.length_asBytes]
    rfl
  have hz : getRange (encodeFrame C id x) q (C.zstd.encodeAll x).length =
      some (C.zstd.encodeAll x) := by
    rw [getRange, if_pos (by omega), hbody]
  have hdec : zstdDecodeBounded C (C.zstd.encodeAll x) x.length = .ok x := by
    rw [zstdDecodeBounded, C.zstd.decodeTake_encodeAll, List.take_of_length_le (by omega)]
  have hov : ¬ 2 ^ 64 ≤ q + (C.zstd.encodeAll x).length := by
    simp only [maxVecLen] at hlen
    omega
  simp only [decodeFrame, h0, ne_eq, not_true_eq_false, if_false, hrange, hobj, hp, bind,
    Except.bind]
  split_ifs with h1 h2
  · rfl
  · simp only [hq, decodeBody, hov, if_false, hz, hdec, bind, Except.bind, ne_eq,
      not_true_eq_false, h2]
  · simp only [hq, decodeBody, hov, if_false, hz, hdec, bind, Except.bind, ne_eq,
      not_true_eq_false, h2]
    rfl

/-! ### The builder -/

/-- One object's location inside a pack. -/
structure PackEntry where
  id : ObjectId
  offset : ℕ
  len : ℕ
deriving DecidableEq

/-- `PackBuilder`: the objects queued so far. -/
structure PackBuilder where
  objects : List (ObjectId × Bytes)

/-- The header `finish` writes. -/
def packHeader (count : ℕ) : Bytes :=
  packMagic ++ (leBytes 4 packVersion ++ (leBytes 4 0 ++ (leBytes 8 count ++
    List.replicate 8 0)))

/-- The loop of `finish` over the queued objects. -/
def frameLoop (C : Crates) :
    List (ObjectId × Bytes) → Bytes → List PackEntry → Bytes × List PackEntry
  | [], buf, entries => (buf, entries)
  | (id, canonical) :: rest, buf, entries =>
      let offset := buf.length
      let buf := buf ++ encodeFrame C id canonical
      frameLoop C rest buf (entries ++ [⟨id, offset, buf.length - offset⟩])

/-- `PackBuilder::finish`: the pack, its index entries and its digest. -/
def PackBuilder.finish (C : Crates) (b : PackBuilder) :
    Result (Bytes × List PackEntry × Digest) :=
  let (buf, entries) := frameLoop C b.objects (packHeader b.objects.length) []
  let digest := C.blake3 buf
  let pack := buf ++ (endMagic ++ digest.bytes)
  if maxVecLen ≤ pack.length then .error (.panic "capacity overflow")
  else .ok (pack, entries, digest)

/-- The body of the pack of a list of objects: the header and one frame for each. -/
def packBody (C : Crates) (objects : List (ObjectId × Bytes)) : Bytes :=
  packHeader objects.length ++ objects.flatMap fun p => encodeFrame C p.1 p.2

/-- The entries of frames laid out one after the other from `offset` on. -/
def entriesFrom (C : Crates) : ℕ → List (ObjectId × Bytes) → List PackEntry
  | _, [] => []
  | offset, p :: rest =>
      ⟨p.1, offset, (encodeFrame C p.1 p.2).length⟩ ::
        entriesFrom C (offset + (encodeFrame C p.1 p.2).length) rest

@[simp] lemma length_packHeader (n : ℕ) : (packHeader n).length = headerLen := by
  simp [packHeader, packMagic, ascii, headerLen]

lemma frameLoop_eq (C : Crates) (objects : List (ObjectId × Bytes)) (buf : Bytes)
    (entries : List PackEntry) :
    frameLoop C objects buf entries =
      (buf ++ objects.flatMap (fun p => encodeFrame C p.1 p.2),
        entries ++ entriesFrom C buf.length objects) := by
  induction objects generalizing buf entries with
  | nil => simp [frameLoop, entriesFrom]
  | cons p rest ih =>
      obtain ⟨id, x⟩ := p
      rw [frameLoop, ih]
      simp [entriesFrom, List.append_assoc]

/-- What `finish` returns. -/
lemma finish_eq_ok {C : Crates} {objects : List (ObjectId × Bytes)} {pack : Bytes}
    {entries : List PackEntry} {digest : Digest} :
    PackBuilder.finish C ⟨objects⟩ = .ok (pack, entries, digest) ↔
      pack = packBody C objects ++ (endMagic ++ digest.bytes) ∧
        entries = entriesFrom C headerLen objects ∧
        digest = C.blake3 (packBody C objects) ∧ pack.length < maxVecLen := by
  have hbody : packHeader objects.length ++
      objects.flatMap (fun p => encodeFrame C p.1 p.2) = packBody C objects := rfl
  simp only [PackBuilder.finish, frameLoop_eq, length_packHeader, List.nil_append, hbody]
  split_ifs with h
  · simp only [false_iff]
    rintro ⟨rfl, -, rfl, hlt⟩
    exact absurd hlt (by omega)
  · simp only [Except.ok.injEq, Prod.mk.injEq]
    constructor
    · rintro ⟨rfl, rfl, rfl⟩
      exact ⟨rfl, rfl, rfl, by omega⟩
    · rintro ⟨rfl, rfl, rfl, -⟩
      exact ⟨rfl, rfl, rfl⟩

/-- A frame is longer than its object by a bounded overhead. -/
lemma length_encodeFrame_le (C : Crates) (id : ObjectId) (x : Bytes) :
    (encodeFrame C id x).length ≤ 2 * x.length + 1077 := by
  have h1 := length_writeVarintLoop_le 10 x.length
  have h2 := length_writeVarintLoop_le 10 (C.zstd.encodeAll x).length
  have h3 := C.zstd.length_encodeAll_le x
  simp only [encodeFrame, writeVarint, List.length_cons, List.length_append,
    ObjectId.length_asBytes]
  omega

/-- The pack of one object within the cap can be built. -/
lemma finish_single (C : Crates) (id : ObjectId) {x : Bytes} (hx : x.length ≤ maxObjectLen) :
    ∃ pack entries digest, PackBuilder.finish C ⟨[(id, x)]⟩ = .ok (pack, entries, digest) := by
  refine ⟨_, _, _, finish_eq_ok.mpr ⟨rfl, rfl, rfl, ?_⟩⟩
  have h1 := length_encodeFrame_le C id x
  have h2 := (C.blake3 (packBody C [(id, x)])).length_eq
  simp only [packBody, List.length_append, length_packHeader, List.flatMap_cons,
    List.flatMap_nil, List.append_nil, maxVecLen, headerLen,
    maxObjectLen] at hx ⊢
  have h3 : endMagic.length = 8 := by simp [endMagic, ascii]
  simp only [packBody, List.flatMap_cons, List.flatMap_nil, List.append_nil] at h2
  omega

lemma map_id_entriesFrom (C : Crates) (objects : List (ObjectId × Bytes)) (offset : ℕ) :
    (entriesFrom C offset objects).map PackEntry.id = objects.map Prod.fst := by
  induction objects generalizing offset with
  | nil => rfl
  | cons p rest ih => simp [entriesFrom, ih]

/-- The entry locates the frame of the object. -/
def Locates (C : Crates) (data : Bytes) (p : ObjectId × Bytes) (e : PackEntry) : Prop :=
  e.id = p.1 ∧ e.len = (encodeFrame C p.1 p.2).length ∧
    slice data e.offset e.len = encodeFrame C p.1 p.2

/-- Every entry lies where its frame was written. -/
lemma entriesFrom_locates {C : Crates} {data post : Bytes} {objects : List (ObjectId × Bytes)}
    {offset : ℕ}
    (hd : data.drop offset = objects.flatMap (fun p => encodeFrame C p.1 p.2) ++ post) :
    List.Forall₂ (Locates C data) objects (entriesFrom C offset objects) := by
  induction objects generalizing offset with
  | nil => exact .nil
  | cons p rest ih =>
      rw [List.flatMap_cons, List.append_assoc] at hd
      refine .cons ⟨rfl, rfl, ?_⟩ (ih ?_)
      · rw [slice, hd, List.take_left' rfl]
      · rw [← List.drop_drop, hd, List.drop_left' rfl]

/-- **The entries of a built pack locate its objects**, one by one. -/
theorem finish_locates {C : Crates} {objects : List (ObjectId × Bytes)} {pack : Bytes}
    {entries : List PackEntry} {digest : Digest}
    (h : PackBuilder.finish C ⟨objects⟩ = .ok (pack, entries, digest)) :
    List.Forall₂ (Locates C pack) objects entries := by
  obtain ⟨rfl, rfl, -, -⟩ := finish_eq_ok.mp h
  have hd : (packBody C objects ++ (endMagic ++ digest.bytes)).drop headerLen =
      objects.flatMap (fun p => encodeFrame C p.1 p.2) ++ (endMagic ++ digest.bytes) := by
    rw [packBody, List.append_assoc, List.drop_left' (length_packHeader _)]
  exact entriesFrom_locates hd

/-- Every object of a built pack is located by an entry. -/
lemma finish_entry {C : Crates} {objects : List (ObjectId × Bytes)} {pack : Bytes}
    {entries : List PackEntry} {digest : Digest}
    (h : PackBuilder.finish C ⟨objects⟩ = .ok (pack, entries, digest)) {p : ObjectId × Bytes}
    (hp : p ∈ objects) : ∃ e ∈ entries, Locates C pack p e := by
  obtain ⟨i, hi, rfl⟩ := List.mem_iff_getElem.mp hp
  have hall := finish_locates h
  have hi' : i < entries.length := hall.length_eq ▸ hi
  exact ⟨entries[i], List.getElem_mem hi', List.Forall₂.get hall hi hi'⟩

/-- The ranges of the entries lie in the pack. -/
lemma entriesFrom_bound {C : Crates} :
    ∀ {objects : List (ObjectId × Bytes)} {offset : ℕ}, ∀ e ∈ entriesFrom C offset objects,
      e.offset + e.len ≤
        offset + (objects.flatMap fun p => encodeFrame C p.1 p.2).length
  | [], _, e, he => by simp [entriesFrom] at he
  | p :: rest, offset, e, he => by
      rw [List.flatMap_cons, List.length_append]
      rcases List.mem_cons.mp he with rfl | he
      · dsimp only
        omega
      · have := entriesFrom_bound e he
        omega

lemma finish_entry_bound {C : Crates} {objects : List (ObjectId × Bytes)} {pack : Bytes}
    {entries : List PackEntry} {digest : Digest}
    (h : PackBuilder.finish C ⟨objects⟩ = .ok (pack, entries, digest)) :
    ∀ e ∈ entries, e.offset + e.len ≤ pack.length ∧ pack.length < maxVecLen := by
  obtain ⟨rfl, rfl, -, hlen⟩ := finish_eq_ok.mp h
  intro e he
  refine ⟨?_, hlen⟩
  have := entriesFrom_bound e he
  simp only [packBody, List.length_append, length_packHeader]
  omega

/-! ### Reading a whole pack -/

/-- `a.saturating_add(b)` on `u64`. -/
def saturatingAdd (a b : ℕ) : ℕ := min (a + b) (2 ^ 64 - 1)

/-- The refusal of a pack beyond the total budget. -/
def totalExceedsCap : Error :=
  .storage ("pack: total uncompressed size exceeds cap " ++ toString maxPackTotalLen)

/-- The loop of `decode_pack` over the frames of the body.  Every turn consumes at least one
byte, so a fuel of one turn for each byte never runs out. -/
def decodeLoop (C : Crates) (body : Bytes) :
    ℕ → ℕ → ℕ → List (ObjectId × Bytes) → Result (List (ObjectId × Bytes))
  | 0, _, _, out => .ok out
  | fuel + 1, pos, totalOut, out =>
      match body[pos]? with
      | none => .ok out
      | some rt =>
          if rt ≠ recordObject then .error (unknownRecordType rt)
          else if body.length < pos + 33 then .error (.storage "pack: frame id truncated")
          else do
            let (_, p) ← readVarint body (pos + 33)
            let (slen, q) ← readVarint body p
            if body.length < q + slen then .error (.storage "pack: frame body truncated")
            else
              let (id, canonical) ← decodeFrame C (slice body pos (q + slen - pos))
              let totalOut := saturatingAdd totalOut canonical.length
              if maxPackTotalLen < totalOut then .error totalExceedsCap
              else decodeLoop C body fuel (q + slen) totalOut (out ++ [(id, canonical)])

/-- `decode_pack`. -/
def decodePack (C : Crates) (pack : Bytes) : Result (List (ObjectId × Bytes)) :=
  if pack.length < headerLen + trailerLen then
    .error (.storage "pack: shorter than header+trailer")
  else if slice pack 0 8 ≠ packMagic then .error (.storage "pack: bad magic")
  else if ofLeBytes (slice pack 8 4) ≠ packVersion then
    .error (.storage ("pack: unsupported version " ++ toString (ofLeBytes (slice pack 8 4))))
  else
    let count := ofLeBytes (slice pack 16 8)
    if maxPackObjects < count then
      .error (.storage
        ("pack: object count " ++ toString count ++ " exceeds cap " ++ toString maxPackObjects))
    else
      let bodyEnd := pack.length - trailerLen
      let trailer := pack.drop bodyEnd
      if slice trailer 0 8 ≠ endMagic then .error (.storage "pack: bad end magic")
      else
        let body := pack.take bodyEnd
        if (C.blake3 body).bytes ≠ slice trailer 8 32 then
          .error (.storage "pack: digest mismatch")
        else do
          let out ← decodeLoop C body body.length headerLen 0 []
          if out.length ≠ count then .error (.storage "pack: object count mismatch")
          else .ok out

/-- One turn of the loop on a frame the builder wrote. -/
lemma decodeLoop_frame {C : Crates} {body post : Bytes} {id : ObjectId} {x : Bytes}
    {fuel pos totalOut : ℕ} {out : List (ObjectId × Bytes)}
    (hd : body.drop pos = encodeFrame C id x ++ post)
    (hlen : (encodeFrame C id x).length < maxVecLen) (hx : x.length < 2 ^ 64) :
    decodeLoop C body (fuel + 1) pos totalOut out =
      (decodeFrame C (encodeFrame C id x) >>= fun p =>
        if maxPackTotalLen < saturatingAdd totalOut p.2.length then
          .error totalExceedsCap
        else
          decodeLoop C body fuel (pos + (encodeFrame C id x).length)
            (saturatingAdd totalOut p.2.length) (out ++ [p])) := by
  obtain ⟨h0, -, p, hp, q, hq, hend, -⟩ := frame_layout hd hlen hx
  have hfit : pos + (encodeFrame C id x).length ≤ body.length := by
    have := congrArg List.length hd
    have hpos : 33 ≤ (encodeFrame C id x).length := by
      simp only [encodeFrame, List.length_cons, List.length_append, ObjectId.length_asBytes]
      omega
    simp only [List.length_drop, List.length_append] at this
    omega
  have h33 : 33 ≤ (encodeFrame C id x).length := by
    simp only [encodeFrame, List.length_cons, List.length_append, ObjectId.length_asBytes]
    omega
  have hslice : slice body pos (q + (C.zstd.encodeAll x).length - pos) =
      encodeFrame C id x := by
    rw [hend, Nat.add_sub_cancel_left, slice, hd, List.take_left' rfl]
  rw [decodeLoop, h0]
  dsimp only
  rw [if_neg (by simp), if_neg (by omega)]
  simp only [hp, hq, bind, Except.bind]
  rw [if_neg (by omega), hslice, hend]

/-- The frames of a list of objects, read back: the loop returns nothing but these objects. -/
lemma decodeLoop_sound {C : Crates} {body : Bytes} :
    ∀ {objects : List (ObjectId × Bytes)} {fuel pos totalOut : ℕ}
      {out r : List (ObjectId × Bytes)},
      body.drop pos = objects.flatMap (fun p => encodeFrame C p.1 p.2) →
      body.length < maxVecLen → (∀ p ∈ objects, p.2.length < 2 ^ 64) →
      objects.length ≤ fuel →
      decodeLoop C body fuel pos totalOut out = .ok r → r = out ++ objects
  | [], fuel, pos, totalOut, out, r, hd, _, _, _, h => by
      have hpos : body[pos]? = none := by simpa using hd
      cases fuel with
      | zero => simpa [decodeLoop, eq_comm] using h
      | succ n => simpa [decodeLoop, hpos, eq_comm] using h
  | p :: rest, 0, _, _, _, _, _, _, _, hf, _ => by simp at hf
  | p :: rest, fuel + 1, pos, totalOut, out, r, hd, hb, hx, hf, h => by
      rw [List.flatMap_cons] at hd
      have hlen : (encodeFrame C p.1 p.2).length < maxVecLen := by
        have := congrArg List.length hd
        simp only [List.length_drop, List.length_append] at this
        omega
      rw [decodeLoop_frame hd hlen (hx p (by simp)), Result.bind_eq_ok] at h
      obtain ⟨p', hp', h⟩ := h
      split_ifs at h with hcap
      rw [decodeFrame_encodeFrame C hlen (hx p (by simp))] at hp'
      split_ifs at hp' with h1 h2
      have hpp : (p.1, p.2) = p' := by simpa using hp'
      subst hpp
      have hd' : body.drop (pos + (encodeFrame C p.1 p.2).length) =
          rest.flatMap (fun p => encodeFrame C p.1 p.2) := by
        rw [← List.drop_drop, hd, List.drop_left' rfl]
      have := decodeLoop_sound hd' hb (fun p hp => hx p (List.mem_cons_of_mem _ hp))
        (by simpa using hf) h
      simpa using this

/-- The frames of objects within the caps are all read back. -/
lemma decodeLoop_complete {C : Crates} {body : Bytes} :
    ∀ {objects : List (ObjectId × Bytes)} {fuel pos totalOut : ℕ}
      {out : List (ObjectId × Bytes)},
      body.drop pos = objects.flatMap (fun p => encodeFrame C p.1 p.2) →
      body.length < maxVecLen →
      (∀ p ∈ objects, p.2.length ≤ maxObjectLen ∧ C.fromContent p.2 = p.1) →
      totalOut + (objects.map (fun p => p.2.length)).sum ≤ maxPackTotalLen →
      objects.length ≤ fuel →
      decodeLoop C body fuel pos totalOut out = .ok (out ++ objects)
  | [], fuel, pos, totalOut, out, hd, _, _, _, _ => by
      have hpos : body[pos]? = none := by simpa using hd
      cases fuel with
      | zero => simp [decodeLoop]
      | succ n => simp [decodeLoop, hpos]
  | p :: rest, 0, _, _, _, _, _, _, _, hf => by simp at hf
  | p :: rest, fuel + 1, pos, totalOut, out, hd, hb, hx, ht, hf => by
      rw [List.flatMap_cons] at hd
      have hlen : (encodeFrame C p.1 p.2).length < maxVecLen := by
        have := congrArg List.length hd
        simp only [List.length_drop, List.length_append] at this
        omega
      obtain ⟨hmax, hid⟩ := hx p (by simp)
      have h64 : p.2.length < 2 ^ 64 := by
        simp only [maxObjectLen] at hmax
        omega
      have hd' : body.drop (pos + (encodeFrame C p.1 p.2).length) =
          rest.flatMap (fun p => encodeFrame C p.1 p.2) := by
        rw [← List.drop_drop, hd, List.drop_left' rfl]
      simp only [List.map_cons, List.sum_cons] at ht
      have hsat : saturatingAdd totalOut p.2.length = totalOut + p.2.length := by
        simp only [saturatingAdd, maxPackTotalLen] at ht ⊢
        omega
      rw [decodeLoop_frame hd hlen h64, decodeFrame_encodeFrame C hlen h64,
        if_neg (by omega), if_neg (by simpa using hid)]
      simp only [bind, Except.bind, hsat]
      rw [if_neg (by omega), decodeLoop_complete hd' hb
        (fun p hp => hx p (List.mem_cons_of_mem _ hp)) (by omega) (by simpa using hf)]
      simp

/-- The body of a built pack is what lies before its trailer. -/
lemma take_body (C : Crates) (objects : List (ObjectId × Bytes)) (digest : Digest) :
    (packBody C objects ++ (endMagic ++ digest.bytes)).take
      ((packBody C objects ++ (endMagic ++ digest.bytes)).length - trailerLen) =
      packBody C objects := by
  have h : (endMagic ++ digest.bytes).length = trailerLen := by
    simp [endMagic, ascii, trailerLen, digest.length_eq]
  rw [List.length_append, h, Nat.add_sub_cancel, List.take_left' rfl]

lemma drop_header (C : Crates) (objects : List (ObjectId × Bytes)) :
    (packBody C objects).drop headerLen =
      objects.flatMap fun p => encodeFrame C p.1 p.2 := by
  rw [packBody, List.drop_left' (length_packHeader _)]

/-- A frame is longer than the object count it stands for. -/
lemma length_le_packBody (C : Crates) (objects : List (ObjectId × Bytes)) :
    objects.length ≤ (packBody C objects).length := by
  have h : ∀ l : List (ObjectId × Bytes),
      l.length ≤ (l.flatMap fun p => encodeFrame C p.1 p.2).length := by
    intro l
    induction l with
    | nil => simp
    | cons p rest ih =>
        rw [List.flatMap_cons, List.length_append, List.length_cons]
        have : 1 ≤ (encodeFrame C p.1 p.2).length := by simp [encodeFrame]
        omega
  rw [packBody, List.length_append]
  exact le_trans (h objects) (by omega)

/-- **Whatever `decode_pack` returns on a built pack is what it was built from.** -/
theorem decodePack_finish_sound {C : Crates} {objects out : List (ObjectId × Bytes)}
    {pack : Bytes} {entries : List PackEntry} {digest : Digest}
    (h : PackBuilder.finish C ⟨objects⟩ = .ok (pack, entries, digest))
    (hx : ∀ p ∈ objects, p.2.length < 2 ^ 64) (hout : decodePack C pack = .ok out) :
    out = objects := by
  obtain ⟨rfl, -, -, hlen⟩ := finish_eq_ok.mp h
  rw [decodePack] at hout
  split_ifs at hout
  dsimp only at hout
  split_ifs at hout
  rw [take_body, Result.bind_eq_ok] at hout
  obtain ⟨r, hr, hout⟩ := hout
  split_ifs at hout
  have hrout : r = out := by simpa using hout
  subst hrout
  have hb : (packBody C objects).length < maxVecLen := by
    rw [List.length_append] at hlen
    omega
  simpa using decodeLoop_sound (drop_header C objects) hb hx (length_le_packBody C objects) hr

/-- The fields of the header, where `decode_pack` looks for them. -/
lemma header_fields (n : ℕ) (post : Bytes) :
    slice (packHeader n ++ post) 0 8 = packMagic ∧
      slice (packHeader n ++ post) 8 4 = leBytes 4 packVersion ∧
      slice (packHeader n ++ post) 16 8 = leBytes 8 n := by
  have hmagic : packMagic.length = 8 := by simp [packMagic, ascii]
  refine ⟨?_, ?_, ?_⟩
  · rw [slice_append_left _ (by simp [headerLen]), packHeader]
    exact slice_first hmagic.symm
  · rw [slice_append_left _ (by simp [headerLen]), packHeader]
    exact slice_middle _ _ _ hmagic.symm (by simp)
  · rw [slice_append_left _ (by simp [headerLen])]
    have hassoc : packHeader n = (packMagic ++ (leBytes 4 packVersion ++ leBytes 4 0)) ++
        (leBytes 8 n ++ List.replicate 8 0) := by
      simp [packHeader]
    rw [hassoc]
    exact slice_middle _ _ _ (by simp [hmagic]) (by simp)

/-- **A built pack within the caps is read back whole.** -/
theorem decodePack_finish {C : Crates} {objects : List (ObjectId × Bytes)}
    {pack : Bytes} {entries : List PackEntry} {digest : Digest}
    (h : PackBuilder.finish C ⟨objects⟩ = .ok (pack, entries, digest))
    (hx : ∀ p ∈ objects, p.2.length ≤ maxObjectLen ∧ C.fromContent p.2 = p.1)
    (hcount : objects.length ≤ maxPackObjects)
    (htotal : (objects.map (fun p => p.2.length)).sum ≤ maxPackTotalLen) :
    decodePack C pack = .ok objects := by
  obtain ⟨rfl, -, rfl, hlen⟩ := finish_eq_ok.mp h
  set digest := C.blake3 (packBody C objects)
  have htrailer : (endMagic ++ digest.bytes).length = trailerLen := by
    simp [endMagic, ascii, trailerLen, digest.length_eq]
  have hb : (packBody C objects).length < maxVecLen := by
    rw [List.length_append] at hlen
    omega
  have hhead : headerLen ≤ (packBody C objects).length := by
    rw [packBody, List.length_append, length_packHeader]
    omega
  obtain ⟨hmagic, hversion, hn⟩ := header_fields objects.length
    ((objects.flatMap fun p => encodeFrame C p.1 p.2) ++ (endMagic ++ digest.bytes))
  rw [← List.append_assoc, ← packBody] at hmagic hversion hn
  have hcountEq : ofLeBytes (leBytes 8 objects.length) = objects.length := by
    refine ofLeBytes_leBytes ?_
    simp only [maxPackObjects] at hcount
    omega
  have hversionEq : ofLeBytes (leBytes 4 packVersion) = packVersion :=
    ofLeBytes_leBytes (by simp [packVersion])
  have hdrop : (packBody C objects ++ (endMagic ++ digest.bytes)).drop
      ((packBody C objects ++ (endMagic ++ digest.bytes)).length - trailerLen) =
      endMagic ++ digest.bytes := by
    rw [List.length_append, htrailer, Nat.add_sub_cancel, List.drop_left' rfl]
  have hend : slice (endMagic ++ digest.bytes) 0 8 = endMagic :=
    slice_first (by simp [endMagic, ascii])
  have hdig : slice (endMagic ++ digest.bytes) 8 32 = digest.bytes := by
    have hmid : slice (endMagic ++ (digest.bytes ++ [])) 8 32 = digest.bytes :=
      slice_middle _ _ _ (by simp [endMagic, ascii]) digest.length_eq.symm
    simpa using hmid
  have hloop : decodeLoop C (packBody C objects) (packBody C objects).length headerLen 0 [] =
      .ok ([] ++ objects) :=
    decodeLoop_complete (drop_header C objects) hb hx (by omega) (length_le_packBody C objects)
  rw [decodePack, if_neg (by rw [List.length_append, htrailer]; omega), hmagic,
    if_neg (by simp), hversion, hversionEq, if_neg (by simp)]
  simp only [hn, hcountEq, hdrop, hend, take_body, hdig]
  rw [if_neg (by omega), if_neg (by simp), if_neg (not_not.mpr rfl), hloop]
  simp [bind, Except.bind]

end Bole
