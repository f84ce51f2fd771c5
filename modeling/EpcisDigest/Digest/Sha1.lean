import EpcisDigest.Digest.Bytes

namespace EpcisDigest.Digest.Sha1

structure State where
  a : UInt32
  b : UInt32
  c : UInt32
  d : UInt32
  e : UInt32

def rotate (x n : UInt32) : UInt32 :=
  (x <<< n) ||| (x >>> (32 - n))

def initial : State := ⟨0x67452301, 0xefcdab89, 0x98badcfe, 0x10325476, 0xc3d2e1f0⟩

def extend : Nat → Array UInt32 → Array UInt32
  | 0, words => words
  | count + 1, words =>
    let back (k : Nat) := words.getD (words.size - k) 0
    extend count (words.push (rotate (back 3 ^^^ back 8 ^^^ back 14 ^^^ back 16) 1))

def mix (round : Nat) (s : State) : UInt32 :=
  if round < 20 then ((s.b &&& s.c) ||| (~~~s.b &&& s.d)) + 0x5a827999
  else if round < 40 then (s.b ^^^ s.c ^^^ s.d) + 0x6ed9eba1
  else if round < 60 then ((s.b &&& s.c) ||| (s.b &&& s.d) ||| (s.c &&& s.d)) + 0x8f1bbcdc
  else (s.b ^^^ s.c ^^^ s.d) + 0xca62c1d6

def step (s : State) (word : UInt32 × Nat) : State :=
  ⟨rotate s.a 5 + mix word.2 s + s.e + word.1, s.a, rotate s.b 30, s.c, s.d⟩

def compress (s : State) (block : List UInt8) : State :=
  let words := (blocks 4 block).map fun b => UInt32.ofNat (ofBigEndian b)
  let t := (extend 64 words.toArray).toList.zipIdx.foldl step s
  ⟨s.a + t.a, s.b + t.b, s.c + t.c, s.d + t.d, s.e + t.e⟩

def digest (bytes : List UInt8) : List UInt8 :=
  let s := (blocks 64 (padWith 64 (bigEndian 8 (8 * bytes.length)) bytes)).foldl compress initial
  [s.a, s.b, s.c, s.d, s.e].flatMap fun w => bigEndian 4 w.toNat

end EpcisDigest.Digest.Sha1
