import Bole.Basic
import Bole.Lib.Bytes
import Bole.Lib.Stream

/-!
Messages on a byte stream: `frame` and `deframe` of `src/sync/wire.rs`, `TcpConn::recv` of
`src/sync/transport.rs`.

A connection keeps what it has read and a cursor into it.  Now and then it drops what lies before
the cursor.  What is left for it to read does not depend on how the stream was cut.

* `recv_eq`: a call answers as the decoder of frames does on everything that is left;
* `recv_ok`: a message that is returned was a whole frame within the limit, and is used up;
* `recv_frames`: the bodies that were sent are received in order, and nothing behind them.
-/

namespace Bole

open ByteString

/-! ### Frames -/

/-- `MAX_FRAME_LEN`. -/
def maxFrameLen : ℕ := 256 * 1024 * 1024

/-- `frame`: four bytes with the length as a `u32`, and the body. -/
def frame (body : Bytes) : Bytes := leBytes 4 body.length ++ body

@[simp] lemma length_frame (body : Bytes) : (frame body).length = 4 + body.length := by
  simp [frame]

/-- `deframe`: the body that starts at the cursor, and the cursor behind it. -/
def deframe (buf : Bytes) (pos : ℕ) : Result (Option (Bytes × ℕ)) :=
  if buf.length < pos + 4 then .ok none
  else
    let len := ofLeBytes (slice buf pos 4)
    if maxFrameLen < len then
      .error (.storage ("frame length " ++ toString len ++ " exceeds cap " ++
        toString maxFrameLen))
    else if buf.length < pos + 4 + len then .ok none
    else .ok (some (slice buf (pos + 4) len, pos + 4 + len))

/-! ### Connections -/

/-- `TcpConn`.  The stream is what `read` returns from here on; when there is no more, it
returns nothing. -/
structure TcpConn where
  stream : List Bytes
  rbuf : Bytes
  rpos : ℕ

namespace TcpConn

/-- `TcpConn::new`. -/
def new (stream : List Bytes) : TcpConn := ⟨stream, [], 0⟩

/-- What `recv` drops after a message. -/
def compact (c : TcpConn) : TcpConn :=
  if 2 ^ 16 < c.rpos then { c with rbuf := c.rbuf.drop c.rpos, rpos := 0 } else c

/-- The message at the cursor, if it is there. -/
def take {μ : Type} (decode : Bytes → Result μ) (c : TcpConn) : Option (Result μ × TcpConn) :=
  match deframe c.rbuf c.rpos with
  | .error e => some (.error e, c)
  | .ok (some (body, pos)) => some (decode body, compact { c with rpos := pos })
  | .ok none => none

/-- The loop of `recv`. -/
def recvLoop {μ : Type} (decode : Bytes → Result μ) (rbuf : Bytes) (rpos : ℕ) :
    List Bytes → Result μ × TcpConn
  | [] => (take decode ⟨[], rbuf, rpos⟩).getD
      (.error (.storage "connection closed"), ⟨[], rbuf, rpos⟩)
  | chunk :: stream =>
      match take decode ⟨chunk :: stream, rbuf, rpos⟩ with
      | some r => r
      | none =>
          if chunk = [] then (.error (.storage "connection closed"), ⟨stream, rbuf, rpos⟩)
          else recvLoop decode (rbuf ++ chunk) rpos stream

/-- `TcpConn::recv`. -/
def recv {μ : Type} (decode : Bytes → Result μ) (c : TcpConn) : Result μ × TcpConn :=
  recvLoop decode c.rbuf c.rpos c.stream

/-- A number of calls, one after another. -/
def recvs {μ : Type} (decode : Bytes → Result μ) : ℕ → TcpConn → List (Result μ) × TcpConn
  | 0, c => ([], c)
  | n + 1, c =>
      let (m, c) := c.recv decode
      let (ms, c) := recvs decode n c
      (m :: ms, c)

end TcpConn

/-! ### The decoder of frames -/

/-- `deframe` at the beginning of a buffer. -/
def lookFrame (buf : Bytes) : Stream.Look UInt8 Bytes Error :=
  match deframe buf 0 with
  | .error e => .bad e
  | .ok none => .more
  | .ok (some (body, pos)) => .item body (buf.drop pos)

/-- The cursor only moves the beginning of the buffer. -/
lemma deframe_drop {buf : Bytes} {pos : ℕ} (hpos : pos ≤ buf.length) :
    deframe buf pos = (deframe (buf.drop pos) 0).map (Option.map fun p => (p.1, pos + p.2)) := by
  have hslice : ∀ i n, slice (buf.drop pos) i n = slice buf (pos + i) n := by
    intro i n
    rw [slice, slice, List.drop_drop]
  have hlt : ∀ n, (buf.drop pos).length < n ↔ buf.length < pos + n := by
    intro n
    rw [List.length_drop]
    omega
  rw [deframe, deframe]
  simp only [hslice, hlt, Nat.add_zero, Nat.zero_add, ← Nat.add_assoc]
  split_ifs
  · rfl
  · rfl
  · rfl
  · simp [Except.map, Nat.add_assoc]

/-- A frame in front of a buffer is found. -/
lemma deframe_frame {body : Bytes} (hlen : body.length ≤ maxFrameLen) (rest : Bytes) :
    deframe (frame body ++ rest) 0 = .ok (some (body, 4 + body.length)) := by
  have hprefix : ofLeBytes (slice (frame body ++ rest) 0 4) = body.length := by
    rw [frame, List.append_assoc, slice_first (length_leBytes 4 _).symm]
    refine ofLeBytes_leBytes (lt_of_le_of_lt hlen ?_)
    norm_num [maxFrameLen]
  have hbody : slice (frame body ++ rest) 4 body.length = body := by
    rw [frame, List.append_assoc]
    exact slice_middle _ _ _ (length_leBytes 4 _).symm rfl
  have hsize : (frame body ++ rest).length = 4 + body.length + rest.length := by
    simp [frame, Nat.add_assoc]
  rw [deframe]
  simp only [Nat.zero_add, hprefix, hbody, hsize]
  rw [if_neg (by omega), if_neg (by omega), if_neg (by omega)]

/-- What is found is a whole frame within the limit. -/
lemma deframe_eq_some {buf body : Bytes} {pos : ℕ}
    (h : deframe buf 0 = .ok (some (body, pos))) :
    body.length ≤ maxFrameLen ∧ pos = 4 + body.length ∧ buf = frame body ++ buf.drop pos := by
  rw [deframe] at h
  simp only [Nat.zero_add] at h
  split_ifs at h with h4 hmax hlen
  · cases h
  · cases h
  simp only [Except.ok.injEq, Option.some.injEq, Prod.mk.injEq] at h
  obtain ⟨rfl, rfl⟩ := h
  generalize hn : ofLeBytes (slice buf 0 4) = n at hmax hlen
  have hbody : (slice buf 4 n).length = n := by
    simp only [slice, List.length_take, List.length_drop]
    omega
  have hhead : leBytes 4 n = slice buf 0 4 := by
    have hfour : (slice buf 0 4).length = 4 := by
      simp only [slice, List.length_take, List.length_drop]
      omega
    rw [← hn]
    have := leBytes_ofLeBytes (slice buf 0 4)
    rwa [hfour] at this
  refine ⟨by omega, by rw [hbody], ?_⟩
  rw [frame, hbody, hhead, slice, slice, List.drop_zero, List.append_assoc, ← List.drop_drop,
    List.take_append_drop, List.take_append_drop]

/-- An answer of `deframe` lasts. -/
lemma deframe_append {buf : Bytes} (h : deframe buf 0 ≠ .ok none) (more : Bytes) :
    deframe (buf ++ more) 0 = deframe buf 0 := by
  rw [deframe] at h ⊢
  simp only [Nat.zero_add] at h ⊢
  split_ifs at h with h4 hmax hlen
  · exact absurd rfl h
  · have hfour : slice (buf ++ more) 0 4 = slice buf 0 4 := slice_append_left _ (by omega)
    rw [hfour, if_neg (by simp; omega), if_pos hmax, deframe]
    simp only [Nat.zero_add]
    rw [if_neg h4, if_pos hmax]
  · exact absurd rfl h
  · have hfour : slice (buf ++ more) 0 4 = slice buf 0 4 := slice_append_left _ (by omega)
    have hbody : slice (buf ++ more) 4 (ofLeBytes (slice buf 0 4)) =
        slice buf 4 (ofLeBytes (slice buf 0 4)) := slice_append_left _ (by omega)
    rw [hfour, hbody, if_neg (by simp; omega), if_neg hmax, if_neg (by simp; omega), deframe]
    simp only [Nat.zero_add]
    rw [if_neg h4, if_neg hmax, if_neg hlen]

lemma lookFrame_bad {buf : Bytes} {e : Error} :
    lookFrame buf = .bad e ↔ deframe buf 0 = .error e := by
  rw [lookFrame]
  split <;> simp_all

lemma lookFrame_item {buf body rest : Bytes} :
    lookFrame buf = .item body rest ↔
      ∃ pos, deframe buf 0 = .ok (some (body, pos)) ∧ buf.drop pos = rest := by
  rw [lookFrame]
  split <;> simp_all

/-- A frame in front, by the decoder. -/
lemma lookFrame_frame {body : Bytes} (hlen : body.length ≤ maxFrameLen) (rest : Bytes) :
    lookFrame (frame body ++ rest) = .item body rest := by
  refine lookFrame_item.mpr ⟨_, deframe_frame hlen rest, ?_⟩
  rw [List.drop_left' (by simp [frame])]

/-- Frames, as a decoder. -/
def frameDecoder : Stream.Decoder UInt8 Bytes Error where
  look := lookFrame
  bad_append {l e} h m := by
    rw [lookFrame_bad] at h ⊢
    rw [deframe_append (by simp [h]), h]
  item_append {l b rest} h m := by
    obtain ⟨pos, hpos, rfl⟩ := lookFrame_item.mp h
    obtain ⟨-, hend, hbuf⟩ := deframe_eq_some hpos
    refine lookFrame_item.mpr ⟨pos, by rw [deframe_append (by simp [hpos]), hpos], ?_⟩
    have hle : pos ≤ l.length := by
      have := congrArg List.length hbuf
      rw [List.length_append, List.length_drop, length_frame] at this
      omega
    exact List.drop_append_of_le_length hle

/-! ### What a call does -/

namespace TcpConn

variable {μ : Type} {decode : Bytes → Result μ} {c : TcpConn}

/-- What has been read and not used. -/
def pending (c : TcpConn) : Bytes := c.rbuf.drop c.rpos

/-- What is left to be received. -/
def left (c : TcpConn) : Bytes := c.pending ++ c.stream.flatten

/-- The cursor lies in the buffer, and no read returns nothing before the stream ends. -/
structure WF (c : TcpConn) : Prop where
  cursor : c.rpos ≤ c.rbuf.length
  reads : ∀ chunk ∈ c.stream, chunk ≠ []

lemma new_wf {stream : List Bytes} (h : ∀ chunk ∈ stream, chunk ≠ []) : (new stream).WF :=
  ⟨le_rfl, h⟩

@[simp] lemma left_new (stream : List Bytes) : (new stream).left = stream.flatten := rfl

@[simp] lemma compact_stream (c : TcpConn) : c.compact.stream = c.stream := by
  rw [compact]
  split_ifs <;> rfl

@[simp] lemma compact_pending (c : TcpConn) : c.compact.pending = c.pending := by
  rw [compact]
  split_ifs
  · simp [pending]
  · rfl

lemma WF.compact (h : c.WF) : c.compact.WF := by
  rw [TcpConn.compact]
  split_ifs
  · exact ⟨Nat.zero_le _, h.reads⟩
  · exact h

/-- The connection behind a message. -/
def behind (c : TcpConn) (body : Bytes) : TcpConn :=
  TcpConn.compact { c with rpos := c.rpos + (4 + body.length) }

@[simp] lemma behind_stream (c : TcpConn) (body : Bytes) : (c.behind body).stream = c.stream :=
  compact_stream _

/-- Behind a message lies what the decoder leaves of the buffer. -/
lemma behind_item {body rest : Bytes} (h : c.WF) (hitem : lookFrame c.pending = .item body rest) :
    (c.behind body).WF ∧ (c.behind body).pending = rest := by
  obtain ⟨pos, hpos, rfl⟩ := lookFrame_item.mp hitem
  obtain ⟨-, rfl, hbuf⟩ := deframe_eq_some hpos
  have hin : c.rpos + (4 + body.length) ≤ c.rbuf.length := by
    have := congrArg List.length hbuf
    rw [List.length_append, List.length_drop, length_frame, pending, List.length_drop] at this
    have := h.cursor
    omega
  refine ⟨WF.compact ⟨hin, h.reads⟩, ?_⟩
  rw [behind, compact_pending, pending, pending, List.drop_drop]

/-- The message at the cursor, by the decoder of frames. -/
lemma take_eq (h : c.WF) :
    c.take decode = match lookFrame c.pending with
      | .more => none
      | .bad e => some (.error e, c)
      | .item body _ => some (decode body, c.behind body) := by
  have hpending : c.rbuf.drop c.rpos = c.pending := rfl
  rw [take, deframe_drop h.cursor, hpending, lookFrame]
  cases hd : deframe c.pending 0 with
  | error e => rfl
  | ok o =>
      cases o with
      | none => rfl
      | some p =>
          obtain ⟨-, hpos, -⟩ := deframe_eq_some (hd.trans (by rw [Prod.mk.eta]))
          simp [Except.map, hpos, behind]

/-- What a call returns, by what the decoder's loop comes to. -/
def answered (decode : Bytes → Result μ) : Option (Except Error Bytes) → Result μ
  | none => .error (.storage "connection closed")
  | some (.error e) => .error e
  | some (.ok body) => decode body

/-- The loop of `recv` is the loop of the decoder of frames. -/
lemma recvLoop_next {stream : List Bytes} {rbuf : Bytes} {rpos : ℕ}
    (h : WF ⟨stream, rbuf, rpos⟩) :
    (recvLoop decode rbuf rpos stream).1 =
        answered decode (Stream.next frameDecoder (rbuf.drop rpos) stream).answer ∧
      (recvLoop decode rbuf rpos stream).2.WF ∧
      (recvLoop decode rbuf rpos stream).2.left =
        (Stream.next frameDecoder (rbuf.drop rpos) stream).left := by
  induction stream generalizing rbuf with
  | nil =>
      rw [recvLoop, Stream.next, take_eq h]
      rw [show frameDecoder.look (rbuf.drop rpos) = lookFrame (pending ⟨[], rbuf, rpos⟩) from rfl]
      cases hlook : lookFrame (pending ⟨[], rbuf, rpos⟩) with
      | more => exact ⟨rfl, h, rfl⟩
      | bad e => exact ⟨rfl, h, rfl⟩
      | item body rest =>
          obtain ⟨hwf, hrest⟩ := behind_item h hlook
          refine ⟨rfl, hwf, ?_⟩
          simp [left, Stream.Reading.left, hrest]
  | cons chunk stream ih =>
      rw [recvLoop, Stream.next, take_eq h]
      rw [show frameDecoder.look (rbuf.drop rpos) =
        lookFrame (pending ⟨chunk :: stream, rbuf, rpos⟩) from rfl]
      cases hlook : lookFrame (pending ⟨chunk :: stream, rbuf, rpos⟩) with
      | more =>
          have hchunk : chunk ≠ [] := h.reads chunk List.mem_cons_self
          have hnext : WF ⟨stream, rbuf ++ chunk, rpos⟩ :=
            ⟨h.cursor.trans (by simp), fun c hc => h.reads c (List.mem_cons_of_mem _ hc)⟩
          have hdrop : (rbuf ++ chunk).drop rpos = rbuf.drop rpos ++ chunk :=
            List.drop_append_of_le_length h.cursor
          simp only [if_neg hchunk]
          rw [← hdrop]
          exact ih hnext
      | bad e => exact ⟨rfl, h, rfl⟩
      | item body rest =>
          obtain ⟨hwf, hrest⟩ := behind_item h hlook
          refine ⟨rfl, hwf, ?_⟩
          simp [left, Stream.Reading.left, hrest]

/-- **A call answers as the decoder does on everything that is left**, however the stream was
cut. -/
theorem recv_eq (decode : Bytes → Result μ) (h : c.WF) :
    match lookFrame c.left with
    | .more => (c.recv decode).1 = .error (.storage "connection closed")
    | .bad e => (c.recv decode).1 = .error e
    | .item body rest => (c.recv decode).1 = decode body ∧ (c.recv decode).2.WF ∧
        (c.recv decode).2.left = rest := by
  obtain ⟨hanswer, hwf, hleft⟩ : (c.recv decode).1 = _ ∧ (c.recv decode).2.WF ∧ _ :=
    recvLoop_next h
  have hlook : frameDecoder.look (c.pending ++ c.stream.flatten) = lookFrame c.left := rfl
  have hwhole := Stream.next_whole frameDecoder c.pending c.stream
  rw [hlook] at hwhole
  cases hl : lookFrame c.left with
  | more =>
      rw [hl] at hwhole
      exact hanswer.trans (congrArg (answered decode) hwhole)
  | bad e =>
      rw [hl] at hwhole
      exact hanswer.trans (congrArg (answered decode) hwhole)
  | item body rest =>
      rw [hl] at hwhole
      exact ⟨hanswer.trans (congrArg (answered decode) hwhole.1), hwf, hleft.trans hwhole.2⟩

lemma WF.recv (h : c.WF) : (c.recv decode).2.WF :=
  (recvLoop_next h).2.1

lemma WF.recvs (h : c.WF) (n : ℕ) : (c.recvs decode n).2.WF := by
  induction n generalizing c with
  | zero => exact h
  | succ n ih => exact ih h.recv

/-- The next frame is received. -/
lemma recv_frame {body rest : Bytes} (h : c.WF) (hlen : body.length ≤ maxFrameLen)
    (hleft : c.left = frame body ++ rest) :
    (c.recv decode).1 = decode body ∧ (c.recv decode).2.left = rest := by
  have hrecv := recv_eq decode h
  rw [hleft, lookFrame_frame hlen] at hrecv
  exact ⟨hrecv.1, hrecv.2.2⟩

/-- A message that is returned was a whole frame within the limit, and no more than that is
used up. -/
lemma recv_ok {m : μ} (h : c.WF) (hm : (c.recv decode).1 = .ok m) :
    ∃ body : Bytes, body.length ≤ maxFrameLen ∧ decode body = .ok m ∧
      c.left = frame body ++ (c.recv decode).2.left := by
  have hrecv := recv_eq decode h
  cases hl : lookFrame c.left with
  | more =>
      rw [hl] at hrecv
      cases hrecv.symm.trans hm
  | bad e =>
      rw [hl] at hrecv
      cases hrecv.symm.trans hm
  | item body rest =>
      rw [hl] at hrecv
      obtain ⟨hbody, -, hrest⟩ := hrecv
      obtain ⟨pos, hpos, hdrop⟩ := lookFrame_item.mp hl
      obtain ⟨hlen, -, hbuf⟩ := deframe_eq_some hpos
      refine ⟨body, hlen, hbody.symm.trans hm, ?_⟩
      rw [hrest, ← hdrop]
      exact hbuf

/-- Frames are received one after another. -/
lemma recvs_frames (decode : Bytes → Result μ) {bodies : List Bytes} {tail : Bytes} (h : c.WF)
    (hlen : ∀ body ∈ bodies, body.length ≤ maxFrameLen)
    (hleft : c.left = bodies.flatMap frame ++ tail) :
    (c.recvs decode bodies.length).1 = bodies.map decode ∧
      (c.recvs decode bodies.length).2.left = tail := by
  induction bodies generalizing c with
  | nil => exact ⟨rfl, hleft⟩
  | cons body bodies ih =>
      rw [List.flatMap_cons, List.append_assoc] at hleft
      obtain ⟨hbody, hrest⟩ := recv_frame h (hlen body List.mem_cons_self) hleft
      obtain ⟨hbodies, htail⟩ :=
        ih h.recv (fun b hb => hlen b (List.mem_cons_of_mem _ hb)) hrest
      exact ⟨congrArg₂ List.cons hbody hbodies, htail⟩

/-- **What is sent is received.**  The frames of a stream come out in order, however its bytes
are cut into reads, and what lies behind them is still there; no call, early or late, returns
anything but a whole frame within the limit. -/
theorem recv_frames (decode : Bytes → Result μ) (stream bodies : List Bytes) (tail : Bytes)
    (hreads : ∀ chunk ∈ stream, chunk ≠ [])
    (hlen : ∀ body ∈ bodies, body.length ≤ maxFrameLen)
    (hsent : stream.flatten = bodies.flatMap frame ++ tail) :
    ((new stream).recvs decode bodies.length).1 = bodies.map decode ∧
      ((new stream).recvs decode bodies.length).2.left = tail ∧
      ∀ n m, (((new stream).recvs decode n).2.recv decode).1 = .ok m →
        ∃ body : Bytes, body.length ≤ maxFrameLen ∧ decode body = .ok m ∧
          ((new stream).recvs decode n).2.left =
            frame body ++ (((new stream).recvs decode n).2.recv decode).2.left := by
  have hwf : (new stream).WF := new_wf hreads
  obtain ⟨hbodies, htail⟩ := recvs_frames decode hwf hlen hsent
  exact ⟨hbodies, htail, fun n m hm => recv_ok (hwf.recvs n) hm⟩

/-- Two frames and one more byte, in reads that cut the length of the second. -/
def cutReads : List Bytes := [[1, 0, 0, 0, 7, 2, 0], [0, 0, 8, 9, 5]]

/-- Bodies as they are. -/
def decodeBody (body : Bytes) : Result Bytes := .ok body

theorem recv_frames_cutReads :
    ((new cutReads).recvs decodeBody 2).1 = [.ok [7], .ok [8, 9]] ∧
      ((new cutReads).recvs decodeBody 2).2.left = [5] := by
  obtain ⟨hbodies, htail, -⟩ := recv_frames decodeBody cutReads [[7], [8, 9]] [5] (by decide)
    (by decide) (by decide)
  exact ⟨hbodies, htail⟩

end TcpConn

end Bole
