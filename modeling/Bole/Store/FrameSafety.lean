import Bole.Store.PackSafety

/-!
Reading one frame where an index says that it stands (`decode_frame` and `read_frame_at` of
`src/store/pack.rs`, `read_pack_frame` of `src/store/packed.rs`).

`read_frame_at` adds the two numbers of the index with a check, and so does `decode_pack` with the
lengths that a frame declares.  `decode_frame` adds the declared length of the body as it is: a
varint holds any number below `2 ^ 64`, and the sum leaves the range of an address.

* `decodeFrame_iff`: what decodes is what begins with a frame;
* `frame_reads_safe_iff`: the readers stay within the range of an address, and refuse what is no
  frame, exactly when the header does not declare such a length.
-/

namespace Bole

open ByteString

/-! ### The readers -/

/-- `read_frame_at`, its operations checked. -/
def Checked.readFrameAt (C : Crates) (pack : Bytes) (offset len : ℕ) :
    Result (ObjectId × Bytes) :=
  match addWithin offset len pack.length with
  | none => .error (.storage "pack: frame range out of bounds")
  | some stop => do
      let frame ← range pack offset stop
      decodeFrame C frame

/-- The range of `read_frame_at` is in bounds. -/
lemma Checked.readFrameAt_eq (C : Crates) {pack : Bytes} (hpack : pack.length < maxVecLen)
    (offset len : ℕ) : readFrameAt C pack offset len = Bole.readFrameAt C pack offset len := by
  have haddress := hpack
  simp only [maxVecLen] at haddress
  rw [readFrameAt, Bole.readFrameAt]
  by_cases hfit : offset + len ≤ pack.length
  · have hframe : (slice pack offset len).length < maxVecLen := by
      rw [length_slice hfit]
      omega
    have hrange : range pack offset (offset + len) = .ok (slice pack offset len) := by
      rw [range_eq (by omega) hfit, Nat.add_sub_cancel_left]
    rw [addWithin_eq hfit (by omega), if_pos hfit]
    dsimp only
    rw [hrange, ← decodeFrame_eq C hframe]
    rfl
  · rw [addWithin_eq_none (by omega), if_neg hfit]

/-! ### Frames -/

section Frames

variable {C : Crates} {data : Bytes}

/-- The bytes begin with the frame of an object, which is within the cap and has the hash that the
header says. -/
def BeginsWithFrame (C : Crates) (data : Bytes) (o : ObjectId × Bytes) : Prop :=
  ∃ frame rest, data = frame ++ rest ∧ IsFrame C frame o ∧ o.2.length ≤ maxObjectLen ∧
    C.fromContent o.2 = o.1

/-- What begins with a frame begins with its header, and the body is there. -/
lemma BeginsWithFrame.header {o : ObjectId × Bytes} (h : BeginsWithFrame C data o) :
    ∃ header zstd rest, data = header ++ (zstd ++ rest) ∧
      IsHeader header o.1.asBytes o.2.length zstd.length ∧
      zstdDecodeBounded C zstd o.2.length = .ok o.2 := by
  obtain ⟨-, rest, rfl, ⟨ulen, slen, zstd, rfl, hulen, hslen, hdecode⟩, -, -⟩ := h
  exact ⟨_, zstd, rest, by simp, ⟨ulen, slen, rfl, o.1.length_asBytes, hulen, hslen⟩, hdecode⟩

/-- **What decodes is what begins with a frame.** -/
lemma decodeFrame_iff (hdata : data.length < maxVecLen) {o : ObjectId × Bytes} :
    decodeFrame C data = .ok o ↔ BeginsWithFrame C data o := by
  constructor
  · intro h
    obtain ⟨-, -, -, p, slen, q, hulen, hslen, -, -⟩ := decodeFrame_eq_ok h
    obtain ⟨hcap, hhash⟩ := decodeFrame_ok h
    exact ⟨data.take (q + slen), data.drop (q + slen), (List.take_append_drop _ _).symm,
      isFrame_of_decodeFrame h hulen hslen, hcap, hhash⟩
  · intro h
    obtain ⟨header, zstd, rest, rfl, hheader, hdecode⟩ := h.header
    obtain ⟨-, -, -, -, hcap, hhash⟩ := h
    obtain ⟨hrt, hrange, p, hulen, hslen⟩ := hheader.read (zstd ++ rest)
    have hid : objectIdOfBytes o.1.asBytes = .ok o.1 := objectIdOfBytes_eq_ok.mpr rfl
    have hbody : getRange (header ++ (zstd ++ rest)) header.length zstd.length = some zstd := by
      rw [getRange, if_pos (by simp), slice]
      simp
    have haddress : ¬ 2 ^ 64 ≤ header.length + zstd.length := by
      simp only [maxVecLen, List.length_append] at hdata
      omega
    rw [decodeFrame, hrt]
    dsimp only
    rw [if_neg (not_not.mpr rfl), hrange]
    simp only [hid, hulen, hslen, bind, Except.bind]
    rw [if_neg (not_lt.mpr hcap), decodeBody, if_neg haddress, hbody]
    simp only [hdecode, bind, Except.bind]
    rw [if_neg (not_not.mpr rfl), if_neg (not_not.mpr hhash)]

/-- **Without the checks of the language** the end of the body wraps round to before its start, and
the range is refused. -/
lemma wrapped_body_none (hdata : data.length < maxVecLen) {p slen q : ℕ}
    (hslen : readVarint data p = .ok (slen, q)) (hover : 2 ^ 64 ≤ q + slen) :
    Checked.getRange data q ((q + slen) % 2 ^ 64) = none := by
  have hq := (readVarint_bounds hslen).2
  have hlt := readVarint_lt hslen
  simp only [maxVecLen] at hdata
  rw [Checked.getRange, if_neg (by omega)]

end Frames

/-! ### Safe readers -/

/-- The call computes nothing that goes wrong, and fails on what is not well formed. -/
structure SafeRead {α : Type} (wellFormed : Prop) (r : Result α) : Prop where
  quiet : NoPanic r
  refuses : ¬ wellFormed → ∃ e, r = .error e

section Safe

variable {C : Crates} {data : Bytes}

/-- **`decode_frame` is safe** exactly when the declared body ends at an address. -/
lemma decodeFrame_safe_iff (hdata : data.length < maxVecLen) :
    SafeRead (∃ o, BeginsWithFrame C data o) (decodeFrame C data) ↔ ¬ LengthOverflows data := by
  constructor
  · intro hsafe hover
    exact hsafe.quiet _ (decodeFrame_overflow hover)
  · intro h
    refine ⟨decodeFrame_noPanic h, fun hmalformed => ?_⟩
    cases hread : decodeFrame C data with
    | error e => exact ⟨e, rfl⟩
    | ok o => exact absurd ⟨o, (decodeFrame_iff hdata).mp hread⟩ hmalformed

/-- **`read_frame_at` is safe** exactly when the frame it is led to is, if it is led to one. -/
lemma readFrameAt_safe_iff (hdata : data.length < maxVecLen) (offset len : ℕ) :
    SafeRead (offset + len ≤ data.length ∧ ∃ o, BeginsWithFrame C (slice data offset len) o)
        (readFrameAt C data offset len) ↔
      (offset + len ≤ data.length → ¬ LengthOverflows (slice data offset len)) := by
  rw [readFrameAt]
  by_cases hfit : offset + len ≤ data.length
  · have hframe : (slice data offset len).length < maxVecLen := by
      rw [length_slice hfit]
      omega
    simp only [hfit, true_and, forall_const]
    exact decodeFrame_safe_iff hframe
  · simp only [hfit, false_and, false_implies, iff_true]
    exact ⟨noPanic_storage _, fun _ => ⟨_, rfl⟩⟩

/-- **`read_pack_frame`** allocates the length of the index before it reads, and adds up the same
frame. -/
lemma PackedDiskBackend.readPackFrame_noPanic_iff {s : PackedDiskBackend} {stem : String}
    {offset len : ℕ} : NoPanic (s.readPackFrame C stem offset len) ↔
      ∀ file, s.packFiles[stem]? = some file → len < maxVecLen ∧
        (offset + len ≤ file.length → ¬ LengthOverflows (slice file offset len)) := by
  rw [readPackFrame]
  cases s.packFiles[stem]? with
  | none => simp [NoPanic]
  | some file =>
      simp only [Option.some.injEq, forall_eq']
      split_ifs with hvec hrange
      · exact ⟨fun h => absurd rfl (h "capacity overflow"), fun h => absurd h.1 (not_lt.mpr hvec)⟩
      · simp [NoPanic, not_le.mpr hrange, not_le.mp hvec]
      · simp only [not_le.mp hvec, not_lt.mp hrange, true_and, forall_const]
        constructor
        · intro h hover
          rw [decodeFrame_overflow hover] at h
          exact h _ rfl
        · intro h
          exact NoPanic.bind (decodeFrame_noPanic h) fun _ _ => noPanic_ok _

end Safe

/-- **The arithmetic of the frame readers.** On bytes of any length that memory can hold, and at any
two numbers of an index, `decode_frame` and `read_frame_at` compute no address out of range, slice
nothing out of bounds and refuse what is not a frame exactly when the frame they look at does not
declare a body that ends beyond the last address. -/
theorem frame_reads_safe_iff (C : Crates) {data : Bytes} (hdata : data.length < maxVecLen) :
    (SafeRead (∃ o, BeginsWithFrame C data o) (Checked.decodeFrame C data) ↔
      ¬ LengthOverflows data) ∧
    ∀ offset len,
      SafeRead (offset + len ≤ data.length ∧ ∃ o, BeginsWithFrame C (slice data offset len) o)
          (Checked.readFrameAt C data offset len) ↔
        (offset + len ≤ data.length → ¬ LengthOverflows (slice data offset len)) := by
  rw [Checked.decodeFrame_eq C hdata]
  refine ⟨decodeFrame_safe_iff hdata, fun offset len => ?_⟩
  rw [Checked.readFrameAt_eq C hdata]
  exact readFrameAt_safe_iff hdata offset len

/-- The frame of a small file, with a byte before it and one after it. -/
def placedFrame : Bytes :=
  0 :: (encodeFrame Crates.reference (Crates.reference.fromContent (ascii "a")) (ascii "a") ++ [0])

/-- It is read safely at its place, and what lies beside it is refused safely. -/
theorem frame_reads_safe_placed : placedFrame.length < maxVecLen ∧
    Checked.readFrameAt Crates.reference placedFrame 1 (placedFrame.length - 2) =
      .ok (Crates.reference.named (ascii "a")) ∧
    SafeRead (∃ o, BeginsWithFrame Crates.reference placedFrame o)
      (Checked.decodeFrame Crates.reference placedFrame) ∧
    SafeRead (1 + (placedFrame.length - 2) ≤ placedFrame.length ∧ ∃ o, BeginsWithFrame
        Crates.reference (slice placedFrame 1 (placedFrame.length - 2)) o)
      (Checked.readFrameAt Crates.reference placedFrame 1 (placedFrame.length - 2)) := by
  have hplaced : placedFrame.length < maxVecLen := by decide
  have hread : Checked.readFrameAt Crates.reference placedFrame 1 (placedFrame.length - 2) =
      .ok (Crates.reference.named (ascii "a")) := by decide +kernel
  obtain ⟨hdecode, hat⟩ := frame_reads_safe_iff Crates.reference hplaced
  refine ⟨hplaced, hread, hdecode.mpr ?_, (hat 1 (placedFrame.length - 2)).mpr fun _ hover => ?_⟩
  · rintro ⟨header, rest, id, v, w, hparts, hheader, -⟩
    have hrt := (hheader.read rest).1
    rw [← hparts] at hrt
    exact absurd hrt (by decide)
  · rw [Checked.readFrameAt_eq _ hplaced, readFrameAt, if_pos (by decide),
      decodeFrame_overflow hover] at hread
    cases hread

/-- The header of an object of no bytes whose body is said to have `2 ^ 64 - 1` of them. -/
def boundlessFrame : Bytes :=
  recordObject :: (List.replicate 32 0 ++ ([0] ++ (List.replicate 9 255 ++ [1])))

/-- **It is added up and not refused**, wherever it is read. -/
theorem decodeFrame_adds_up :
    ¬ ∀ (C : Crates) (data : Bytes), data.length < maxVecLen →
      SafeRead (∃ o, BeginsWithFrame C data o) (Checked.decodeFrame C data) ∧
      ∀ offset len,
        SafeRead (offset + len ≤ data.length ∧ ∃ o, BeginsWithFrame C (slice data offset len) o)
          (Checked.readFrameAt C data offset len) := by
  intro h
  have hsafe := (h Crates.reference boundlessFrame (by decide)).1.quiet
  have hpanic : Checked.decodeFrame Crates.reference boundlessFrame =
      .error (.panic "attempt to add with overflow") := by decide +kernel
  exact hsafe _ hpanic

end Bole
