import Bole.Basic
import Bole.Lib.Bytes

/-!
Concrete crates: BLAKE3 itself in its hash mode, and a zstd that stores its input in one raw
block, as the real encoder does with inputs too small to compress.

The model never depends on them.  They are the values at which its parameters are
instantiated where a result is shown on a concrete store.
-/

namespace Bole

open ByteString

/-! ### BLAKE3 -/

namespace Blake3

/-- The initialisation vector. -/
def iv : List ℕ :=
  [0x6A09E667, 0xBB67AE85, 0x3C6EF372, 0xA54FF53A, 0x510E527F, 0x9B05688C, 0x1F83D9AB,
    0x5BE0CD19]

/-- A word rotated to the right, `p` being two to the number of places and `q` its
complement to `2 ^ 32`. -/
def rotr (x p q : ℕ) : ℕ := x / p + x % p * q

/-- The four words a quarter round works on. -/
structure Column where
  a : ℕ
  b : ℕ
  c : ℕ
  d : ℕ

/-- The quarter round. -/
def g (a b c d mx my : ℕ) : Column :=
  let a := (a + b + mx) % 4294967296
  let d := rotr (Nat.xor d a) 65536 65536
  let c := (c + d) % 4294967296
  let b := rotr (Nat.xor b c) 4096 1048576
  let a := (a + b + my) % 4294967296
  let d := rotr (Nat.xor d a) 256 16777216
  let c := (c + d) % 4294967296
  let b := rotr (Nat.xor b c) 128 33554432
  ⟨a, b, c, d⟩

/-- One round: the four columns, then the four diagonals. -/
def round : List ℕ → List ℕ → List ℕ
  | [v0, v1, v2, v3, v4, v5, v6, v7, v8, v9, v10, v11, v12, v13, v14, v15],
    [m0, m1, m2, m3, m4, m5, m6, m7, m8, m9, m10, m11, m12, m13, m14, m15] =>
      let p := g v0 v4 v8 v12 m0 m1
      let q := g v1 v5 v9 v13 m2 m3
      let r := g v2 v6 v10 v14 m4 m5
      let s := g v3 v7 v11 v15 m6 m7
      let t := g p.a q.b r.c s.d m8 m9
      let u := g q.a r.b s.c p.d m10 m11
      let v := g r.a s.b p.c q.d m12 m13
      let w := g s.a p.b q.c r.d m14 m15
      [t.a, u.a, v.a, w.a, w.b, t.b, u.b, v.b, v.c, w.c, t.c, u.c, u.d, v.d, w.d, t.d]
  | v, _ => v

/-- The order in which a round reads the message words of the one before. -/
def permute : List ℕ → List ℕ
  | [m0, m1, m2, m3, m4, m5, m6, m7, m8, m9, m10, m11, m12, m13, m14, m15] =>
      [m2, m6, m3, m10, m7, m0, m4, m13, m1, m11, m12, m5, m9, m14, m15, m8]
  | m => m

/-- `n` rounds, the message permuted after each. -/
def rounds : ℕ → List ℕ → List ℕ → List ℕ
  | 0, v, _ => v
  | n + 1, v, m => rounds n (round v m) (permute m)

/-- The compression function, truncated to its chaining value. -/
def compress (cv m : List ℕ) (counter blockLen flags : ℕ) : List ℕ :=
  let v := rounds 7 (cv ++ iv.take 4 ++
    [counter % 4294967296, counter / 4294967296 % 4294967296, blockLen, flags]) m
  List.zipWith Nat.xor (v.take 8) (v.drop 8)

/-- The words of a block, its length a multiple of four. -/
def words : Bytes → List ℕ
  | b0 :: b1 :: b2 :: b3 :: rest =>
      (b0.toNat + 256 * (b1.toNat + 256 * (b2.toNat + 256 * b3.toNat))) :: words rest
  | _ => []

/-- A block, padded with zeros. -/
def padded (block : Bytes) : Bytes := block ++ List.replicate (64 - block.length) 0

def chunkStart : ℕ := 1
def chunkEnd : ℕ := 2
def parent : ℕ := 4
def root : ℕ := 8

/-- The blocks of one chunk. -/
def chunkLoop (counter last : ℕ) : ℕ → Bytes → List ℕ → ℕ → List ℕ
  | 0, _, cv, _ => cv
  | fuel + 1, data, cv, start =>
      if data.length ≤ 64 then
        compress cv (words (padded data)) counter data.length (start + chunkEnd + last)
      else
        chunkLoop counter last fuel (data.drop 64)
          (compress cv (words (data.take 64)) counter 64 start) 0

/-- The tree over the chunks; `last` is the root flag for the topmost node and zero below. -/
def subtree : ℕ → ℕ → Bytes → ℕ → List ℕ
  | 0, _, _, _ => iv
  | fuel + 1, counter, data, last =>
      if data.length ≤ 1024 then chunkLoop counter last 16 data iv chunkStart
      else
        let left := 2 ^ Nat.log2 ((data.length - 1) / 1024)
        let l := subtree fuel counter (data.take (left * 1024)) 0
        let r := subtree fuel (counter + left) (data.drop (left * 1024)) 0
        compress iv (l ++ r) 0 64 (parent + last)

/-- The hash of a byte string: eight words. -/
def hash (data : Bytes) : Digest :=
  let out := (subtree (data.length + 1) 0 data root).flatMap fun w => leBytes 4 w
  if h : out.length = 32 then ⟨out, h⟩ else default

end Blake3

/-- The published digest of the empty input. -/
example : (Blake3.hash []).hex =
    "af1349b9f5f9a1a6a0404dea36dcc9499bcb25c9adc112b7cc9a93cae41f3262" := by
  decide +kernel

/-! ### zstd -/

/-- Magic number, frame header and the header of one last raw block. -/
def rawFrameHeader (n : ℕ) : Bytes := [0x28, 0xB5, 0x2F, 0xFD, 0x00, 0x58] ++ leBytes 3 (8 * n + 1)

@[simp] lemma length_rawFrameHeader (n : ℕ) : (rawFrameHeader n).length = 9 := by
  simp [rawFrameHeader]

/-- A zstd that stores. -/
def Zstd.stored : Zstd where
  encodeAll x := rawFrameHeader x.length ++ x
  decodeAll z := some (z.drop 9)
  decodeTake z m := some ((z.drop 9).take m)
  decodeAll_encodeAll x := by rw [List.drop_left' (length_rawFrameHeader _)]
  decodeTake_encodeAll x m := by rw [List.drop_left' (length_rawFrameHeader _)]
  length_encodeAll_le x := by
    rw [List.length_append, length_rawFrameHeader]
    omega

/-- BLAKE3 and the storing zstd. -/
def Crates.reference : Crates := ⟨Blake3.hash, Zstd.stored⟩

end Bole
