import Bole.Store.Integrity

/-!
Reading a pack that anyone may have written (`decode_pack` of `src/store/pack.rs`).

The readers are given once more with every addition, subtraction, shift, index and range of the
source checked, as the checks of the language do it: one that goes wrong panics.

* `decodePack_checked`: none of them goes wrong;
* `decodePack_frames`: a pack that is read is its header, one frame for each object and its
  trailer, and nothing else;
* `decodePack_safe`: the two together, with the caps and the ids.
-/

namespace Bole

open ByteString

/-! ### Checked operations -/

namespace Checked

/-- `a + b` on unsigned numbers of the given width. -/
def add (bits a b : ℕ) : Result ℕ :=
  if a + b < 2 ^ bits then .ok (a + b) else .error (.panic "attempt to add with overflow")

/-- `a - b` on unsigned numbers. -/
def sub (a b : ℕ) : Result ℕ :=
  if b ≤ a then .ok (a - b) else .error (.panic "attempt to subtract with overflow")

/-- `a << b` on `u64`. -/
def shl (a b : ℕ) : Result ℕ :=
  if b < 64 then .ok (a <<< b % 2 ^ 64)
  else .error (.panic "attempt to shift left with overflow")

/-- `data[i]`. -/
def index (data : Bytes) (i : ℕ) : Result UInt8 :=
  match data[i]? with
  | none => .error (.panic "index out of bounds")
  | some b => .ok b

/-- `&data[i..j]`. -/
def range (data : Bytes) (i j : ℕ) : Result Bytes :=
  if i ≤ j ∧ j ≤ data.length then .ok (slice data i (j - i))
  else .error (.panic "range out of bounds")

/-- `data.get(i..j)`. -/
def getRange (data : Bytes) (i j : ℕ) : Option Bytes :=
  if i ≤ j ∧ j ≤ data.length then some (slice data i (j - i)) else none

/-- `a.checked_add(b).filter(|x| *x <= n)`. -/
def addWithin (a b n : ℕ) : Option ℕ :=
  if a + b < 2 ^ 64 ∧ a + b ≤ n then some (a + b) else none

/-- `from_le_bytes(b.try_into().unwrap())`, for a number of `w` bytes. -/
def fromLeBytes (w : ℕ) (b : Bytes) : Result ℕ :=
  if b.length = w then .ok (ofLeBytes b) else .error (.panic "unwrap on an Err value")

/-! ### The readers -/

/-- The loop of `read_varint`. -/
def readVarintLoop (data : Bytes) : ℕ → ℕ → ℕ → ℕ → Result (ℕ × ℕ)
  | 0, _, _, _ => .error (.panic "out of fuel")
  | fuel + 1, pos, result, shift =>
      match data[pos]? with
      | none => .error (.storage "pack: varint truncated")
      | some byte => do
          let pos ← add 64 pos 1
          let group ← shl (byte.toNat % 128) shift
          if byte.toNat < 128 then .ok (result ||| group, pos)
          else do
            let shift ← add 32 shift 7
            if 64 ≤ shift then .error (.storage "pack: varint overflow")
            else readVarintLoop data fuel pos (result ||| group) shift

/-- `read_varint`. -/
def readVarint (data : Bytes) (pos : ℕ) : Result (ℕ × ℕ) := readVarintLoop data 10 pos 0 0

/-- `decode_frame`. -/
def decodeFrame (C : Crates) (frame : Bytes) : Result (ObjectId × Bytes) :=
  match frame[0]? with
  | none => .error (.storage "pack: empty frame")
  | some rt => do
      let pos ← add 64 0 1
      if rt ≠ recordObject then .error (unknownRecordType rt)
      else do
        let stop ← add 64 pos 32
        match getRange frame pos stop with
        | none => .error (.storage "pack: frame id truncated")
        | some idBytes => do
            let id ← objectIdOfBytes idBytes
            let pos ← add 64 pos 32
            let (ulen, pos) ← readVarint frame pos
            if maxObjectLen < ulen then .error (lengthExceedsCap ulen)
            else do
              let (slen, pos) ← readVarint frame pos
              let stop ← add 64 pos slen
              match getRange frame pos stop with
              | none => .error (.storage "pack: frame body truncated")
              | some zstd => do
                  let _ ← add 64 ulen 1
                  let canonical ← zstdDecodeBounded C zstd ulen
                  if canonical.length ≠ ulen then
                    .error (.storage "pack: uncompressed length mismatch")
                  else if C.fromContent canonical ≠ id then
                    .error (.storage "pack: frame id does not match content")
                  else .ok (id, canonical)

/-- The loop of `decode_pack`. -/
def decodeLoop (C : Crates) (body : Bytes) :
    ℕ → ℕ → ℕ → List (ObjectId × Bytes) → Result (List (ObjectId × Bytes))
  | 0, _, _, _ => .error (.panic "out of fuel")
  | fuel + 1, pos, totalOut, out =>
      if body.length ≤ pos then .ok out
      else do
        let rt ← index body pos
        let next ← add 64 pos 1
        if rt ≠ recordObject then .error (unknownRecordType rt)
        else
          match addWithin next 32 body.length with
          | none => .error (.storage "pack: frame id truncated")
          | some next => do
              let (_, next) ← readVarint body next
              let (slen, next) ← readVarint body next
              match addWithin next slen body.length with
              | none => .error (.storage "pack: frame body truncated")
              | some frameEnd => do
                  let frame ← range body pos frameEnd
                  let (id, canonical) ← decodeFrame C frame
                  let totalOut := saturatingAdd totalOut canonical.length
                  if maxPackTotalLen < totalOut then .error totalExceedsCap
                  else decodeLoop C body fuel frameEnd totalOut (out ++ [(id, canonical)])

/-- `decode_pack`. -/
def decodePack (C : Crates) (pack : Bytes) : Result (List (ObjectId × Bytes)) :=
  if pack.length < headerLen + trailerLen then
    .error (.storage "pack: shorter than header+trailer")
  else do
    let magic ← range pack 0 8
    if magic ≠ packMagic then .error (.storage "pack: bad magic")
    else do
      let version ← range pack 8 12
      let version ← fromLeBytes 4 version
      if version ≠ packVersion then
        .error (.storage ("pack: unsupported version " ++ toString version))
      else do
        let count ← range pack 16 24
        let count ← fromLeBytes 8 count
        if maxPackObjects < count then
          .error (.storage ("pack: object count " ++ toString count ++ " exceeds cap " ++
            toString maxPackObjects))
        else do
          let bodyEnd ← sub pack.length trailerLen
          let trailer ← range pack bodyEnd pack.length
          let magic ← range trailer 0 8
          if magic ≠ endMagic then .error (.storage "pack: bad end magic")
          else do
            let body ← range pack 0 bodyEnd
            let digest ← range trailer 8 40
            if (C.blake3 body).bytes ≠ digest then .error (.storage "pack: digest mismatch")
            else do
              let out ← decodeLoop C body body.length headerLen 0 []
              if out.length ≠ count then .error (.storage "pack: object count mismatch")
              else .ok out

/-! ### None of them goes wrong -/

lemma add_eq {bits a b : ℕ} (h : a + b < 2 ^ bits) : add bits a b = .ok (a + b) := if_pos h

lemma range_eq {data : Bytes} {i j : ℕ} (hij : i ≤ j) (hj : j ≤ data.length) :
    range data i j = .ok (slice data i (j - i)) := if_pos ⟨hij, hj⟩

lemma addWithin_eq {a b n : ℕ} (hn : a + b ≤ n) (h : n < 2 ^ 64) :
    addWithin a b n = some (a + b) := if_pos ⟨by omega, hn⟩

lemma addWithin_eq_none {a b n : ℕ} (h : n < a + b) : addWithin a b n = none :=
  if_neg (by omega)

lemma shl_eq {a b : ℕ} (h : b < 64) : shl a b = .ok (a <<< b % 2 ^ 64) := if_pos h

lemma fromLeBytes_eq {w : ℕ} {b : Bytes} (h : b.length = w) :
    fromLeBytes w b = .ok (ofLeBytes b) := if_pos h

/-- The shift stays below the width, and the position within the data. -/
lemma readVarintLoop_eq {data : Bytes} (hdata : data.length < maxVecLen) :
    ∀ {fuel pos result shift : ℕ}, 0 < fuel → shift + 7 * fuel = 70 →
      readVarintLoop data fuel pos result shift =
        Bole.readVarintLoop data fuel pos result shift := by
  intro fuel
  induction fuel with
  | zero => intro _ _ _ h; exact absurd h (lt_irrefl 0)
  | succ fuel ih =>
      intro pos result shift _ hshift
      rw [readVarintLoop, Bole.readVarintLoop]
      cases hbyte : data[pos]? with
      | none => rfl
      | some byte =>
          have hpos : pos < data.length := (List.getElem?_eq_some_iff.mp hbyte).1
          simp only [maxVecLen] at hdata
          have hadd : add 64 pos 1 = .ok (pos + 1) := add_eq (by omega)
          have hshl : shl (byte.toNat % 128) shift = .ok _ := shl_eq (by omega)
          have hnext : add 32 shift 7 = .ok (shift + 7) := add_eq (by omega)
          simp only [hadd, hshl, hnext, bind, Except.bind]
          split_ifs with hlast hover
          · rfl
          · rfl
          · exact ih (by omega) (by omega)

lemma readVarint_eq {data : Bytes} (hdata : data.length < maxVecLen) (pos : ℕ) :
    readVarint data pos = Bole.readVarint data pos :=
  readVarintLoop_eq hdata (by omega) (by omega)

/-- `get` of a range given by its end. -/
lemma getRange_eq (data : Bytes) (i n : ℕ) :
    getRange data i (i + n) = Bole.getRange data i n := by
  rw [getRange, Bole.getRange, Nat.add_sub_cancel_left]
  simp

/-- **One frame** is read with the same result.  The sum that may go wrong, the end of a body of any
declared length, does so in both readers. -/
lemma decodeFrame_eq (C : Crates) {frame : Bytes} (hframe : frame.length < maxVecLen) :
    decodeFrame C frame = Bole.decodeFrame C frame := by
  have hpos : add 64 0 1 = .ok 1 := add_eq (by omega)
  have hid : add 64 1 32 = .ok 33 := add_eq (by omega)
  rw [decodeFrame, Bole.decodeFrame]
  cases frame[0]? with
  | none => rfl
  | some rt =>
      simp only [hpos, hid, bind, Except.bind, getRange_eq frame 1 32, readVarint_eq hframe]
      split_ifs with hrt
      · rfl
      · cases Bole.getRange frame 1 32 with
        | none => rfl
        | some idBytes =>
            dsimp only
            cases objectIdOfBytes idBytes with
            | error e => rfl
            | ok id =>
                dsimp only
                cases Bole.readVarint frame 33 with
                | error e => rfl
                | ok r =>
                    obtain ⟨ulen, pos⟩ := r
                    dsimp only
                    split_ifs with hcap
                    · rfl
                    · cases Bole.readVarint frame pos with
                      | error e => rfl
                      | ok r =>
                          obtain ⟨slen, pos⟩ := r
                          have hout : add 64 ulen 1 = .ok (ulen + 1) :=
                            add_eq (by simp only [maxObjectLen] at hcap; omega)
                          dsimp only
                          rw [decodeBody]
                          by_cases hover : pos + slen < 2 ^ 64
                          · rw [add_eq hover, if_neg (by omega)]
                            dsimp only
                            rw [getRange_eq, hout]
                            rfl
                          · rw [add, if_neg hover, if_pos (by omega)]

end Checked

/-! ### Positions -/

lemma getElem?_slice {l : Bytes} {i n k : ℕ} (hk : k < n) : (slice l i n)[k]? = l[i + k]? := by
  rw [slice, List.getElem?_take_of_lt hk, List.getElem?_drop]

lemma length_slice {l : Bytes} {i n : ℕ} (h : i + n ≤ l.length) : (slice l i n).length = n := by
  rw [slice, List.length_take, List.length_drop]
  omega

lemma slice_one {l : Bytes} {i : ℕ} {b : UInt8} (h : l[i]? = some b) : slice l i 1 = [b] := by
  rw [slice, List.take_one, List.head?_drop, h]
  rfl

/-- Two ranges next to each other. -/
lemma slice_add (l : Bytes) (i m n : ℕ) : slice l i (m + n) = slice l i m ++ slice l (i + m) n := by
  rw [slice, slice, slice, List.take_add, List.drop_drop]

/-- A varint within a range. -/
lemma readVarint_slice {data : Bytes} {pos v p i n : ℕ} (h : readVarint data pos = .ok (v, p))
    (hi : i ≤ pos) (hn : p ≤ i + n) : readVarint (slice data i n) (pos - i) = .ok (v, p - i) := by
  have hlt := (readVarint_bounds h).1
  have hdrop : (slice data i n).drop (pos - i) = slice data pos (n - (pos - i)) := by
    rw [slice, List.drop_take, List.drop_drop, Nat.add_sub_cancel' hi, slice]
  have hend : pos - i + (p - pos) = p - i := by omega
  rw [readVarint_move h (hdrop ▸ List.take_prefix_take_left (by omega)), hend]

/-! ### Frames -/

/-- A frame of an object: the record type, the id, the two lengths and the compressed bytes. -/
def IsFrame (C : Crates) (frame : Bytes) (o : ObjectId × Bytes) : Prop :=
  ∃ ulen slen zstd, frame = recordObject :: (o.1.asBytes ++ (ulen ++ (slen ++ zstd))) ∧
    readVarint ulen 0 = .ok (o.2.length, ulen.length) ∧
    readVarint slen 0 = .ok (zstd.length, slen.length) ∧
    zstdDecodeBounded C zstd o.2.length = .ok o.2

lemma getRange_eq_some {data b : Bytes} {i n : ℕ} :
    getRange data i n = some b ↔ i + n ≤ data.length ∧ slice data i n = b := by
  rw [getRange]
  split_ifs with h <;> simp [h]

/-- **What a frame that decodes is made of.** -/
lemma decodeFrame_eq_ok {C : Crates} {frame : Bytes} {o : ObjectId × Bytes}
    (h : decodeFrame C frame = .ok o) :
    frame[0]? = some recordObject ∧ 33 ≤ frame.length ∧ slice frame 1 32 = o.1.asBytes ∧
      ∃ p slen q, readVarint frame 33 = .ok (o.2.length, p) ∧
        readVarint frame p = .ok (slen, q) ∧ q + slen ≤ frame.length ∧
        zstdDecodeBounded C (slice frame q slen) o.2.length = .ok o.2 := by
  rw [decodeFrame] at h
  split at h
  · cases h
  · next rt hrt =>
      split_ifs at h with hrecord
      split at h
      · cases h
      · next idBytes hrange =>
          obtain ⟨id, hid, h⟩ := Result.bind_eq_ok.mp h
          obtain ⟨⟨ulen, p⟩, hulen, h⟩ := Result.bind_eq_ok.mp h
          dsimp only at h
          split_ifs at h with hcap
          obtain ⟨⟨slen, q⟩, hslen, h⟩ := Result.bind_eq_ok.mp h
          dsimp only at h
          rw [decodeBody] at h
          split_ifs at h
          split at h
          · cases h
          · next zstd hbody =>
              obtain ⟨canonical, hdecode, h⟩ := Result.bind_eq_ok.mp h
              split_ifs at h with hlen hhash
              cases h
              obtain ⟨hfit, hslice⟩ := getRange_eq_some.mp hrange
              obtain ⟨hfit', hslice'⟩ := getRange_eq_some.mp hbody
              have hlen' : canonical.length = ulen := not_not.mp hlen
              rw [not_not.mp hrecord] at hrt
              refine ⟨hrt, hfit, hslice.trans (objectIdOfBytes_eq_ok.mp hid).symm, p, slen, q, ?_,
                hslen, hfit', ?_⟩
              · rw [hulen, hlen']
              · rw [hslice', hlen']
                exact hdecode

/-- The header of a frame: the record type, an id, and the two lengths that it declares. -/
def IsHeader (header id : Bytes) (v w : ℕ) : Prop :=
  ∃ ulen slen, header = recordObject :: (id ++ (ulen ++ slen)) ∧ id.length = 32 ∧
    readVarint ulen 0 = .ok (v, ulen.length) ∧ readVarint slen 0 = .ok (w, slen.length)

/-- A varint between other bytes. -/
lemma readVarint_append {b : Bytes} {v : ℕ} (h : readVarint b 0 = .ok (v, b.length))
    (front rest : Bytes) :
    readVarint (front ++ (b ++ rest)) front.length = .ok (v, front.length + b.length) := by
  have hall : slice b 0 (b.length - 0) = b := slice_zero_length b
  refine readVarint_move h ?_
  rw [hall, List.drop_left]
  exact List.prefix_append _ _

/-- **A header that comes first** is read. -/
lemma IsHeader.read {header id : Bytes} {v w : ℕ} (h : IsHeader header id v w) (rest : Bytes) :
    (header ++ rest)[0]? = some recordObject ∧ getRange (header ++ rest) 1 32 = some id ∧
      ∃ p, readVarint (header ++ rest) 33 = .ok (v, p) ∧
        readVarint (header ++ rest) p = .ok (w, header.length) := by
  obtain ⟨ulen, slen, rfl, hid, hulen, hslen⟩ := h
  have hread := readVarint_append hulen (recordObject :: id) (slen ++ rest)
  have hread' := readVarint_append hslen (recordObject :: (id ++ ulen)) rest
  have hfront : (recordObject :: id).length = 33 := by rw [List.length_cons, hid]
  rw [hfront] at hread
  refine ⟨rfl, ?_, 33 + ulen.length, ?_, ?_⟩
  · rw [getRange, if_pos (by simp; omega), slice]
    simp [← hid]
  · simpa using hread
  · have hlen : (recordObject :: (id ++ ulen)).length = 33 + ulen.length := by
      rw [List.length_cons, List.length_append, hid]
      omega
    have hend : 33 + ulen.length + slen.length =
        (recordObject :: (id ++ (ulen ++ slen))).length := by
      simp only [List.length_cons, List.length_append, hid]
      omega
    rw [hlen, hend] at hread'
    simpa using hread'

/-- **What has been read as a header** is one. -/
lemma isHeader_take {frame : Bytes} {v p w q : ℕ} (hrt : frame[0]? = some recordObject)
    (hulen : readVarint frame 33 = .ok (v, p)) (hslen : readVarint frame p = .ok (w, q)) :
    IsHeader (frame.take q) (slice frame 1 32) v w := by
  obtain ⟨hp, hplen⟩ := readVarint_bounds hulen
  obtain ⟨hq, hqlen⟩ := readVarint_bounds hslen
  have hread := readVarint_slice (n := p - 33) hulen le_rfl (by omega)
  have hread' := readVarint_slice (n := q - p) hslen le_rfl (by omega)
  rw [Nat.sub_self] at hread hread'
  refine ⟨slice frame 33 (p - 33), slice frame p (q - p), ?_, length_slice (by omega), ?_, ?_⟩
  · have hsplit : q = 1 + (32 + ((p - 33) + (q - p))) := by omega
    have hp' : 33 + (p - 33) = p := by omega
    calc frame.take q = slice frame 0 q := rfl
      _ = slice frame 0 1 ++ (slice frame 1 32 ++ (slice frame 33 (p - 33) ++
            slice frame p (q - p))) := by
        conv_lhs => rw [hsplit, slice_add, slice_add, slice_add]
        simp only [Nat.zero_add, hp', Nat.reduceAdd]
      _ = recordObject :: (slice frame 1 32 ++ (slice frame 33 (p - 33) ++
            slice frame p (q - p))) := by
        rw [slice_one hrt]
        rfl
  · rw [hread, length_slice (by omega)]
  · rw [hread', length_slice (by omega)]

/-- **A frame that decodes** begins with nothing but the parts of a frame, up to the end of its
body. -/
lemma isFrame_of_decodeFrame {C : Crates} {frame : Bytes} {o : ObjectId × Bytes}
    (h : decodeFrame C frame = .ok o) {v p slen q : ℕ} (hulen : readVarint frame 33 = .ok (v, p))
    (hslen : readVarint frame p = .ok (slen, q)) : IsFrame C (frame.take (q + slen)) o := by
  obtain ⟨hrt, -, hid, p', slen', q', hulen', hslen', hend, hdecode⟩ := decodeFrame_eq_ok h
  obtain ⟨rfl, rfl⟩ : v = o.2.length ∧ p = p' := by simpa [hulen] using hulen'
  obtain ⟨rfl, rfl⟩ : slen = slen' ∧ q = q' := by simpa [hslen] using hslen'
  obtain ⟨ulen, slen', hheader, -, hread, hread'⟩ := isHeader_take hrt hulen hslen
  refine ⟨ulen, slen', slice frame q slen, ?_, hread, ?_, hdecode⟩
  · calc frame.take (q + slen) = frame.take q ++ slice frame q slen := List.take_add
      _ = recordObject :: (o.1.asBytes ++ (ulen ++ (slen' ++ slice frame q slen))) := by
        rw [hheader, hid, List.cons_append, List.append_assoc, List.append_assoc]
  · rw [hread', length_slice hend]

section Loop

variable {C : Crates} {body : Bytes} {pos ulen p slen q : ℕ}

/-- The lengths of a frame that the loop has found, read in the frame. -/
lemma turn_frame (hulen : readVarint body (pos + 33) = .ok (ulen, p))
    (hslen : readVarint body p = .ok (slen, q)) (hq : q + slen ≤ body.length) :
    pos + 33 < q ∧ readVarint (slice body pos (q + slen - pos)) 33 = .ok (ulen, p - pos) ∧
      readVarint (slice body pos (q + slen - pos)) (p - pos) = .ok (slen, q - pos) ∧
      q - pos + slen = (slice body pos (q + slen - pos)).length := by
  have hp := (readVarint_bounds hulen).1
  have hpq := (readVarint_bounds hslen).1
  have hread := readVarint_slice (i := pos) (n := q + slen - pos) hulen (by omega) (by omega)
  have hread' := readVarint_slice (i := pos) (n := q + slen - pos) hslen (by omega) (by omega)
  rw [Nat.add_sub_cancel_left] at hread
  refine ⟨by omega, hread, hread', ?_⟩
  rw [length_slice (by omega)]
  omega

/-- **The loop reads frames** and nothing else, up to the end of the body. -/
lemma decodeLoop_frames {fuel : ℕ} :
    ∀ {pos totalOut : ℕ} {out r : List (ObjectId × Bytes)}, body.length < pos + fuel →
      totalOut ≤ maxPackTotalLen → decodeLoop C body fuel pos totalOut out = .ok r →
      ∃ frames objects, r = out ++ objects ∧ body.drop pos = List.flatten frames ∧
        List.Forall₂ (IsFrame C) frames objects ∧
        (∀ o ∈ objects, o.2.length ≤ maxObjectLen ∧ C.fromContent o.2 = o.1) ∧
        totalOut + (objects.map fun o => o.2.length).sum ≤ maxPackTotalLen := by
  induction fuel with
  | zero =>
      intro pos totalOut out r hfuel htotal h
      cases h
      refine ⟨[], [], by simp, ?_, .nil, by simp, by simpa⟩
      exact List.drop_eq_nil_of_le (by omega)
  | succ fuel ih =>
      intro pos totalOut out r hfuel htotal h
      rw [decodeLoop] at h
      cases hrt : body[pos]? with
      | none =>
          simp only [hrt] at h
          cases h
          exact ⟨[], [], by simp, List.drop_eq_nil_of_le (List.getElem?_eq_none_iff.mp hrt), .nil,
            by simp, by simpa⟩
      | some rt =>
          simp only [hrt] at h
          split_ifs at h with hrecord hshort
          obtain ⟨⟨ulen, p⟩, hulen, h⟩ := Result.bind_eq_ok.mp h
          obtain ⟨⟨slen, q⟩, hslen, h⟩ := Result.bind_eq_ok.mp h
          dsimp only at h
          split_ifs at h with hbody
          obtain ⟨⟨id, x⟩, hframe, h⟩ := Result.bind_eq_ok.mp h
          dsimp only at h
          split_ifs at h with hcap
          obtain ⟨hpos, hulen', hslen', hend⟩ := turn_frame hulen hslen (by omega)
          have hsat : saturatingAdd totalOut x.length = totalOut + x.length := by
            simp only [saturatingAdd, maxPackTotalLen] at hcap ⊢
            omega
          rw [hsat] at hcap h
          obtain ⟨frames, objects, rfl, hrest, hframes, hobjects, hsum⟩ :=
            ih (by omega) (by omega) h
          have hisFrame := isFrame_of_decodeFrame hframe hulen' hslen'
          rw [hend, List.take_length] at hisFrame
          refine ⟨slice body pos (q + slen - pos) :: frames, (id, x) :: objects, by simp, ?_,
            .cons hisFrame hframes, ?_, ?_⟩
          · rw [List.flatten_cons, ← hrest, slice]
            have hnext : q + slen = pos + (q + slen - pos) := by omega
            conv_rhs => rw [hnext, ← List.drop_drop, Nat.add_sub_cancel_left]
            exact (List.take_append_drop _ _).symm
          · intro o ho
            rcases List.mem_cons.mp ho with rfl | ho
            · exact decodeFrame_ok hframe
            · exact hobjects o ho
          · rw [List.map_cons, List.sum_cons]
            dsimp only
            omega

/-! ### No panic -/

/-- The call does not panic. -/
def NoPanic {α : Type} (r : Result α) : Prop := ∀ msg, r ≠ .error (.panic msg)

lemma noPanic_ok {α : Type} (a : α) : NoPanic (.ok a : Result α) := fun _ h => by cases h

lemma noPanic_storage {α : Type} (msg : String) : NoPanic (.error (.storage msg) : Result α) :=
  fun _ h => by cases h

/-- A failure that is passed on. -/
lemma NoPanic.error {α β : Type} {x : Result α} {e : Error} (hx : NoPanic x) (h : x = .error e) :
    NoPanic (.error e : Result β) :=
  fun msg he => hx msg (h.trans (congrArg _ (Except.error.inj he)))

lemma NoPanic.bind {α β : Type} {x : Result α} {f : α → Result β} (hx : NoPanic x)
    (hf : ∀ a, x = .ok a → NoPanic (f a)) : NoPanic (x >>= f) := by
  cases h : x with
  | error e => exact hx.error h
  | ok a => exact hf a h

lemma readVarintLoop_noPanic {data : Bytes} {fuel : ℕ} :
    ∀ {pos result shift : ℕ}, NoPanic (readVarintLoop data fuel pos result shift) := by
  induction fuel with
  | zero => exact noPanic_storage _
  | succ fuel ih =>
      intro pos result shift
      rw [readVarintLoop]
      split
      · exact noPanic_storage _
      · dsimp only
        split_ifs
        · exact noPanic_ok _
        · exact noPanic_storage _
        · exact ih

/-- The body that a frame declares ends beyond the last address: its header is one that is read,
and the declared length of what follows does not fit above it. -/
def LengthOverflows (frame : Bytes) : Prop :=
  ∃ header rest id v w, frame = header ++ rest ∧ IsHeader header id v w ∧ v ≤ maxObjectLen ∧
    2 ^ 64 ≤ header.length + w

/-- **The end of such a body** is a sum that goes wrong. -/
lemma decodeFrame_overflow {frame : Bytes} (h : LengthOverflows frame) :
    decodeFrame C frame = .error (.panic "attempt to add with overflow") := by
  obtain ⟨header, rest, id, v, w, rfl, hheader, hcap, hover⟩ := h
  obtain ⟨hrt, hrange, p, hulen, hslen⟩ := hheader.read rest
  have hid : id.length = 32 := by
    obtain ⟨-, -, -, hid, -⟩ := hheader
    exact hid
  rw [decodeFrame, hrt]
  dsimp only
  rw [if_neg (not_not.mpr rfl), hrange]
  simp only [objectIdOfBytes, dif_pos hid, hulen, hslen, bind, Except.bind]
  rw [if_neg (by omega), decodeBody, if_pos hover]

/-- **Every other frame** is read without a panic. -/
lemma decodeFrame_noPanic {frame : Bytes} (h : ¬ LengthOverflows frame) :
    NoPanic (decodeFrame C frame) := by
  rw [decodeFrame]
  split
  · exact noPanic_storage _
  · next rt hrt =>
      split_ifs with hrecord
      · exact noPanic_storage _
      · rw [not_not.mp hrecord] at hrt
        split
        · exact noPanic_storage _
        · next idBytes hrange =>
            obtain ⟨hfit, rfl⟩ := getRange_eq_some.mp hrange
            refine NoPanic.bind (fun msg he => ?_) fun id _ => ?_
            · rw [objectIdOfBytes, dif_pos (length_slice hfit)] at he
              cases he
            · refine NoPanic.bind readVarintLoop_noPanic fun up hulen => ?_
              obtain ⟨ulen, p⟩ := up
              dsimp only
              split_ifs with hcap
              · exact noPanic_storage _
              · refine NoPanic.bind readVarintLoop_noPanic fun sq hslen => ?_
                obtain ⟨slen, q⟩ := sq
                have hqlen := (readVarint_bounds hslen).2
                have hfits : ¬ 2 ^ 64 ≤ q + slen := fun hover =>
                  h ⟨frame.take q, frame.drop q, _, ulen, slen, (List.take_append_drop q _).symm,
                    isHeader_take hrt hulen hslen, by omega, by
                      rw [List.length_take]
                      omega⟩
                dsimp only
                rw [decodeBody, if_neg hfits]
                split
                · exact noPanic_storage _
                · refine NoPanic.bind (fun msg he => ?_) fun canonical _ => ?_
                  · rw [zstdDecodeBounded] at he
                    split at he <;> cases he
                  · split_ifs
                    · exact noPanic_storage _
                    · exact noPanic_storage _
                    · exact noPanic_ok _

/-- A body that ends with the frame does not overflow. -/
lemma not_lengthOverflows {frame : Bytes} (hframe : frame.length < maxVecLen)
    (hulen : readVarint frame 33 = .ok (ulen, p)) (hslen : readVarint frame p = .ok (slen, q))
    (hend : q + slen = frame.length) : ¬ LengthOverflows frame := by
  rintro ⟨header, rest, id, v, w, rfl, hheader, -, hover⟩
  obtain ⟨-, -, p', hulen', hslen'⟩ := hheader.read rest
  obtain ⟨-, rfl⟩ : ulen = v ∧ p = p' := by simpa [hulen] using hulen'
  obtain ⟨rfl, rfl⟩ : slen = w ∧ q = header.length := by simpa [hslen] using hslen'
  simp only [maxVecLen] at hframe
  omega

/-- The frame of a turn is in range, and is read without a panic. -/
lemma turn_checked (C : Crates) (hlen : body.length < maxVecLen)
    (hulen : readVarint body (pos + 33) = .ok (ulen, p)) (hslen : readVarint body p = .ok (slen, q))
    (hq : q + slen ≤ body.length) :
    Checked.range body pos (q + slen) = .ok (slice body pos (q + slen - pos)) ∧
      Checked.decodeFrame C (slice body pos (q + slen - pos)) =
        decodeFrame C (slice body pos (q + slen - pos)) ∧
      NoPanic (decodeFrame C (slice body pos (q + slen - pos))) := by
  obtain ⟨hpos, hulen', hslen', hend⟩ := turn_frame hulen hslen hq
  have hframe : (slice body pos (q + slen - pos)).length < maxVecLen := by
    simp only [maxVecLen] at hlen ⊢
    omega
  exact ⟨Checked.range_eq (by omega) hq, Checked.decodeFrame_eq C hframe,
    decodeFrame_noPanic (not_lengthOverflows hframe hulen' hslen' hend)⟩

/-- **The loop does not panic**, and no check of it goes wrong. -/
lemma decodeLoop_checked (hlen : body.length < maxVecLen) {fuel : ℕ} :
    ∀ {pos totalOut : ℕ} {out : List (ObjectId × Bytes)}, body.length < pos + fuel →
      pos ≤ body.length →
      NoPanic (decodeLoop C body fuel pos totalOut out) ∧
        Checked.decodeLoop C body fuel pos totalOut out =
          decodeLoop C body fuel pos totalOut out := by
  induction fuel with
  | zero => intro pos _ _ hfuel hpos; omega
  | succ fuel ih =>
      intro pos totalOut out hfuel hpos
      rw [Checked.decodeLoop, decodeLoop]
      have hbody := hlen
      simp only [maxVecLen] at hlen
      by_cases hdone : body.length ≤ pos
      · rw [if_pos hdone, List.getElem?_eq_none hdone]
        exact ⟨noPanic_ok _, rfl⟩
      · have hget : body[pos]? = some body[pos] := List.getElem?_eq_getElem (by omega)
        have hindex : Checked.index body pos = .ok body[pos] := by rw [Checked.index, hget]
        have hadd : Checked.add 64 pos 1 = .ok (pos + 1) := Checked.add_eq (by omega)
        rw [if_neg hdone, hget, hindex]
        simp only [hadd, bind, Except.bind]
        split_ifs with hrecord hshort
        · exact ⟨noPanic_storage _, rfl⟩
        · rw [Checked.addWithin_eq_none (by omega)]
          exact ⟨noPanic_storage _, rfl⟩
        · rw [Checked.addWithin_eq (by omega) (by omega)]
          have hsum : pos + 1 + 32 = pos + 33 := by omega
          simp only [hsum, Checked.readVarint_eq hbody]
          cases hulen : readVarint body (pos + 33) with
          | error e =>
              have hquiet : NoPanic (readVarint body (pos + 33)) := readVarintLoop_noPanic
              exact ⟨hquiet.error hulen, rfl⟩
          | ok r =>
              obtain ⟨ulen, p⟩ := r
              dsimp only
              cases hslen : readVarint body p with
              | error e =>
                  have hquiet : NoPanic (readVarint body p) := readVarintLoop_noPanic
                  exact ⟨hquiet.error hslen, rfl⟩
              | ok r =>
                  obtain ⟨slen, q⟩ := r
                  dsimp only
                  by_cases hfit : body.length < q + slen
                  · rw [if_pos hfit, Checked.addWithin_eq_none hfit]
                    exact ⟨noPanic_storage _, rfl⟩
                  · obtain ⟨hpos', -⟩ := turn_frame hulen hslen (by omega)
                    obtain ⟨hrange, hchecked, hquiet⟩ := turn_checked C hbody hulen hslen (by omega)
                    rw [if_neg hfit, Checked.addWithin_eq (by omega) (by omega)]
                    simp only [hrange, hchecked]
                    cases hobject : decodeFrame C (slice body pos (q + slen - pos)) with
                    | error e => exact ⟨hquiet.error hobject, rfl⟩
                    | ok o =>
                        dsimp only
                        split_ifs
                        · exact ⟨noPanic_storage _, rfl⟩
                        · exact ih (by omega) (by omega)

end Loop

/-! ### Packs -/

section Packs

variable {C : Crates} {pack : Bytes}

/-- What precedes the trailer. -/
def beforeTrailer (pack : Bytes) : Bytes := pack.take (pack.length - trailerLen)

lemma length_beforeTrailer (pack : Bytes) :
    (beforeTrailer pack).length = pack.length - trailerLen := by
  rw [beforeTrailer, List.length_take]
  omega

/-- **What a pack that decodes has passed.** -/
lemma decodePack_eq_ok {out : List (ObjectId × Bytes)} (h : decodePack C pack = .ok out) :
    headerLen + trailerLen ≤ pack.length ∧
      decodeLoop C (beforeTrailer pack) (beforeTrailer pack).length headerLen 0 [] = .ok out ∧
      out.length = ofLeBytes (slice pack 16 8) := by
  rw [decodePack] at h
  split_ifs at h with hlen hmagic hversion
  dsimp only at h
  split_ifs at h with hcount hend hdigest
  obtain ⟨r, hr, h⟩ := Result.bind_eq_ok.mp h
  split_ifs at h with hmatch
  cases h
  exact ⟨by omega, hr, not_not.mp hmatch⟩

/-- **Nothing else is in the pack.** A pack that decodes is a header, one frame for each object and
a trailer. -/
lemma decodePack_frames {out : List (ObjectId × Bytes)} (h : decodePack C pack = .ok out) :
    ∃ header frames trailer, pack = header ++ (List.flatten frames ++ trailer) ∧
      header.length = headerLen ∧ trailer.length = trailerLen ∧
      List.Forall₂ (IsFrame C) frames out ∧
      (∀ o ∈ out, o.2.length ≤ maxObjectLen ∧ C.fromContent o.2 = o.1) ∧
      (out.map fun o => o.2.length).sum ≤ maxPackTotalLen := by
  obtain ⟨hlen, hloop, -⟩ := decodePack_eq_ok h
  have hbody := length_beforeTrailer pack
  obtain ⟨frames, objects, hout, hrest, hframes, hobjects, hsum⟩ :=
    decodeLoop_frames (by simp only [headerLen]; omega) (by simp [maxPackTotalLen]) hloop
  rw [List.nil_append] at hout
  subst hout
  refine ⟨(beforeTrailer pack).take headerLen, frames, pack.drop (pack.length - trailerLen), ?_,
    ?_, ?_, hframes, hobjects, by simpa using hsum⟩
  · calc pack = beforeTrailer pack ++ pack.drop (pack.length - trailerLen) :=
          (List.take_append_drop _ _).symm
      _ = (beforeTrailer pack).take headerLen ++ (List.flatten frames ++
            pack.drop (pack.length - trailerLen)) := by
        rw [← hrest, ← List.append_assoc, List.take_append_drop]
  · rw [List.length_take]
    omega
  · rw [List.length_drop]
    omega

/-- **No check goes wrong**, and nothing else panics. -/
lemma decodePack_checked (C : Crates) (hpack : pack.length < maxVecLen) :
    NoPanic (decodePack C pack) ∧ Checked.decodePack C pack = decodePack C pack := by
  rw [Checked.decodePack, decodePack]
  by_cases hshort : pack.length < headerLen + trailerLen
  · rw [if_pos hshort, if_pos hshort]
    exact ⟨noPanic_storage _, rfl⟩
  · rw [if_neg hshort, if_neg hshort]
    have hlen : headerLen + trailerLen ≤ pack.length := not_lt.mp hshort
    simp only [headerLen] at hlen
    have hbody := length_beforeTrailer pack
    have htrailer : (pack.drop (pack.length - trailerLen)).length = 40 := by
      rw [List.length_drop]
      simp only [trailerLen] at hlen ⊢
      omega
    have hmagic : Checked.range pack 0 8 = .ok (slice pack 0 8) :=
      Checked.range_eq (by omega) (by omega)
    have hversion : Checked.range pack 8 12 = .ok (slice pack 8 4) :=
      Checked.range_eq (by omega) (by omega)
    have hcount : Checked.range pack 16 24 = .ok (slice pack 16 8) :=
      Checked.range_eq (by omega) (by omega)
    have hbodyEnd : Checked.sub pack.length trailerLen = .ok (pack.length - trailerLen) :=
      if_pos (by omega)
    have htail : Checked.range pack (pack.length - trailerLen) pack.length =
        .ok (pack.drop (pack.length - trailerLen)) := by
      rw [Checked.range_eq (by omega) le_rfl, slice, List.take_of_length_le]
      rw [List.length_drop]
    have hend : Checked.range (pack.drop (pack.length - trailerLen)) 0 8 = .ok _ :=
      Checked.range_eq (by omega) (by omega)
    have hfront : Checked.range pack 0 (pack.length - trailerLen) =
        .ok (pack.take (pack.length - trailerLen)) :=
      Checked.range_eq (by omega) (by omega)
    have hdigest : Checked.range (pack.drop (pack.length - trailerLen)) 8 40 = .ok _ :=
      Checked.range_eq (by omega) (by omega)
    have hversion' : Checked.fromLeBytes 4 (slice pack 8 4) = .ok (ofLeBytes (slice pack 8 4)) :=
      Checked.fromLeBytes_eq (length_slice (by omega))
    have hcount' : Checked.fromLeBytes 8 (slice pack 16 8) = .ok (ofLeBytes (slice pack 16 8)) :=
      Checked.fromLeBytes_eq (length_slice (by omega))
    obtain ⟨hquiet, hloop⟩ : NoPanic (decodeLoop C (beforeTrailer pack)
          (beforeTrailer pack).length headerLen 0 []) ∧
        Checked.decodeLoop C (beforeTrailer pack) (beforeTrailer pack).length headerLen 0 [] =
          decodeLoop C (beforeTrailer pack) (beforeTrailer pack).length headerLen 0 [] :=
      decodeLoop_checked (by omega) (by simp only [headerLen]; omega)
        (by simp only [headerLen]; omega)
    rw [beforeTrailer] at hquiet hloop
    simp only [hmagic, hversion, hversion', hcount, hcount', hbodyEnd, htail, hend, hfront,
      hdigest, hloop, bind, Except.bind, and_true]
    split_ifs
    · exact noPanic_storage _
    · exact noPanic_storage _
    · exact noPanic_storage _
    · exact noPanic_storage _
    · exact noPanic_storage _
    · refine NoPanic.bind hquiet fun out _ => ?_
      split_ifs
      · exact noPanic_storage _
      · exact noPanic_ok _

/-- **Reading a hostile pack.** Whatever the bytes, every addition, subtraction, shift, index and
range of `decode_pack` is in bounds, and what it returns is as many objects as the header counts,
each within its cap and under its own hash, all of them within the total cap, in frames that fill
the pack between its header and its trailer. -/
theorem decodePack_safe (C : Crates) {pack : Bytes} (hpack : pack.length < maxVecLen) :
    Checked.decodePack C pack = decodePack C pack ∧ NoPanic (Checked.decodePack C pack) ∧
      ∀ out, decodePack C pack = .ok out →
        out.length = ofLeBytes (slice pack 16 8) ∧
        (∀ o ∈ out, o.1 = C.fromContent o.2 ∧ o.2.length ≤ maxObjectLen) ∧
        (out.map fun o => o.2.length).sum ≤ maxPackTotalLen ∧
        ∃ header frames trailer, pack = header ++ (List.flatten frames ++ trailer) ∧
          header.length = headerLen ∧ trailer.length = trailerLen ∧
          List.Forall₂ (IsFrame C) frames out := by
  obtain ⟨hquiet, hchecked⟩ := decodePack_checked C hpack
  refine ⟨hchecked, hchecked ▸ hquiet, fun out hout => ?_⟩
  obtain ⟨-, -, hcount⟩ := decodePack_eq_ok hout
  obtain ⟨header, frames, trailer, hparts, hheader, htrailer, hframes, hobjects, htotal⟩ :=
    decodePack_frames hout
  exact ⟨hcount, fun o ho => ⟨(hobjects o ho).2.symm, (hobjects o ho).1⟩, htotal,
    header, frames, trailer, hparts, hheader, htrailer, hframes⟩

end Packs

/-- The pack of two files, one of them twice. -/
theorem decodePack_safe_repeated :
    ∃ pack, decodePack Crates.reference pack = .ok repeated ∧
      NoPanic (Checked.decodePack Crates.reference pack) ∧ ofLeBytes (slice pack 16 8) = 3 ∧
      ∃ header frames trailer, pack = header ++ (List.flatten frames ++ trailer) ∧
        header.length = 32 ∧ trailer.length = 40 ∧ frames.length = 3 := by
  obtain ⟨pack, entries, digest, hfinish⟩ : ∃ pack entries digest,
      PackBuilder.finish Crates.reference ⟨repeated⟩ = .ok (pack, entries, digest) :=
    finish_of_caps Crates.reference (by decide) (by decide)
  obtain ⟨-, -, -, hlen⟩ := finish_eq_ok.mp hfinish
  have hdecode : decodePack Crates.reference pack = .ok repeated :=
    decodePack_finish hfinish (by simp [repeated, Crates.named, ascii, maxObjectLen]) (by decide)
      (by decide)
  obtain ⟨-, hquiet, hok⟩ := decodePack_safe Crates.reference hlen
  obtain ⟨hcount, -, -, header, frames, trailer, hparts, hheader, htrailer, hframes⟩ :=
    hok repeated hdecode
  exact ⟨pack, hdecode, hquiet, hcount.symm, header, frames, trailer, hparts, hheader, htrailer,
    hframes.length_eq⟩

end Bole
