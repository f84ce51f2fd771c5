import EpcisDigest.Digest.Bytes

namespace EpcisDigest.Digest.Sha2

structure State (W : Type) where
  a : W
  b : W
  c : W
  d : W
  e : W
  f : W
  g : W
  h : W

structure Family (W : Type) where
  wordBytes : Nat
  ofNat : Nat → W
  toNat : W → Nat
  rotate : W → Nat → W
  shift : W → Nat → W
  upperA : Nat × Nat × Nat
  upperE : Nat × Nat × Nat
  lower15 : Nat × Nat × Nat
  lower2 : Nat × Nat × Nat
  constants : List W

variable {W : Type} [Add W] [XorOp W] [AndOp W] [Complement W]

def Family.upper (family : Family W) (by3 : Nat × Nat × Nat) (x : W) : W :=
  family.rotate x by3.1 ^^^ family.rotate x by3.2.1 ^^^ family.rotate x by3.2.2

def Family.lower (family : Family W) (by3 : Nat × Nat × Nat) (x : W) : W :=
  family.rotate x by3.1 ^^^ family.rotate x by3.2.1 ^^^ family.shift x by3.2.2

def Family.extend (family : Family W) : Nat → Array W → Array W
  | 0, words => words
  | count + 1, words =>
    let back (k : Nat) := words.getD (words.size - k) (family.ofNat 0)
    family.extend count
      (words.push (family.lower family.lower2 (back 2) + back 7 +
        family.lower family.lower15 (back 15) + back 16))

def Family.step (family : Family W) (s : State W) (word : W × W) : State W :=
  let t := s.h + family.upper family.upperE s.e + ((s.e &&& s.f) ^^^ (~~~s.e &&& s.g)) +
    word.1 + word.2
  let u := family.upper family.upperA s.a + ((s.a &&& s.b) ^^^ (s.a &&& s.c) ^^^ (s.b &&& s.c))
  ⟨t + u, s.a, s.b, s.c, s.d + t, s.e, s.f, s.g⟩

def Family.compress (family : Family W) (s : State W) (block : List UInt8) : State W :=
  let words := (blocks family.wordBytes block).map fun b => family.ofNat (ofBigEndian b)
  let schedule := family.extend (family.constants.length - 16) words.toArray
  let t := (family.constants.zip schedule.toList).foldl family.step s
  ⟨s.a + t.a, s.b + t.b, s.c + t.c, s.d + t.d, s.e + t.e, s.f + t.f, s.g + t.g, s.h + t.h⟩

def Family.digest (family : Family W) (initial : State W) (bytes : List UInt8) : List UInt8 :=
  let size := 16 * family.wordBytes
  let padded := padWith size (bigEndian (2 * family.wordBytes) (8 * bytes.length)) bytes
  let s := (blocks size padded).foldl family.compress initial
  [s.a, s.b, s.c, s.d, s.e, s.f, s.g, s.h].flatMap fun w => bigEndian family.wordBytes (family.toNat w)

def State.map {V : Type} (f : W → V) (s : State W) : State V :=
  ⟨f s.a, f s.b, f s.c, f s.d, f s.e, f s.f, f s.g, f s.h⟩

/-- The first 64 bits behind the point of the cube roots of the first eighty primes. -/
def constants : List UInt64 :=
  [0x428a2f98d728ae22, 0x7137449123ef65cd, 0xb5c0fbcfec4d3b2f, 0xe9b5dba58189dbbc, 0x3956c25bf348b538,
   0x59f111f1b605d019, 0x923f82a4af194f9b, 0xab1c5ed5da6d8118, 0xd807aa98a3030242, 0x12835b0145706fbe,
   0x243185be4ee4b28c, 0x550c7dc3d5ffb4e2, 0x72be5d74f27b896f, 0x80deb1fe3b1696b1, 0x9bdc06a725c71235,
   0xc19bf174cf692694, 0xe49b69c19ef14ad2, 0xefbe4786384f25e3, 0x0fc19dc68b8cd5b5, 0x240ca1cc77ac9c65,
   0x2de92c6f592b0275, 0x4a7484aa6ea6e483, 0x5cb0a9dcbd41fbd4, 0x76f988da831153b5, 0x983e5152ee66dfab,
   0xa831c66d2db43210, 0xb00327c898fb213f, 0xbf597fc7beef0ee4, 0xc6e00bf33da88fc2, 0xd5a79147930aa725,
   0x06ca6351e003826f, 0x142929670a0e6e70, 0x27b70a8546d22ffc, 0x2e1b21385c26c926, 0x4d2c6dfc5ac42aed,
   0x53380d139d95b3df, 0x650a73548baf63de, 0x766a0abb3c77b2a8, 0x81c2c92e47edaee6, 0x92722c851482353b,
   0xa2bfe8a14cf10364, 0xa81a664bbc423001, 0xc24b8b70d0f89791, 0xc76c51a30654be30, 0xd192e819d6ef5218,
   0xd69906245565a910, 0xf40e35855771202a, 0x106aa07032bbd1b8, 0x19a4c116b8d2d0c8, 0x1e376c085141ab53,
   0x2748774cdf8eeb99, 0x34b0bcb5e19b48a8, 0x391c0cb3c5c95a63, 0x4ed8aa4ae3418acb, 0x5b9cca4f7763e373,
   0x682e6ff3d6b2b8a3, 0x748f82ee5defb2fc, 0x78a5636f43172f60, 0x84c87814a1f0ab72, 0x8cc702081a6439ec,
   0x90befffa23631e28, 0xa4506cebde82bde9, 0xbef9a3f7b2c67915, 0xc67178f2e372532b, 0xca273eceea26619c,
   0xd186b8c721c0c207, 0xeada7dd6cde0eb1e, 0xf57d4f7fee6ed178, 0x06f067aa72176fba, 0x0a637dc5a2c898a6,
   0x113f9804bef90dae, 0x1b710b35131c471b, 0x28db77f523047d84, 0x32caab7b40c72493, 0x3c9ebe0a15c9bebc,
   0x431d67c49c100d4c, 0x4cc5d4becb3e42b6, 0x597f299cfc657e2a, 0x5fcb6fab3ad6faec, 0x6c44198c4a475817]

/-- The first 64 bits behind the point of the square roots of the first eight primes. -/
def firstRoots : State UInt64 :=
  ⟨0x6a09e667f3bcc908, 0xbb67ae8584caa73b, 0x3c6ef372fe94f82b, 0xa54ff53a5f1d36f1,
   0x510e527fade682d1, 0x9b05688c2b3e6c1f, 0x1f83d9abfb41bd6b, 0x5be0cd19137e2179⟩

def nextRoots : State UInt64 :=
  ⟨0xcbbb9d5dc1059ed8, 0x629a292a367cd507, 0x9159015a3070dd17, 0x152fecd8f70e5939,
   0x67332667ffc00b31, 0x8eb44a8768581511, 0xdb0c2e0d64f98fa7, 0x47b5481dbefa4fa4⟩

def upperHalf (x : UInt64) : UInt32 := (x >>> 32).toUInt32

def narrow : Family UInt32 where
  wordBytes := 4
  ofNat := UInt32.ofNat
  toNat := UInt32.toNat
  rotate x n := (x >>> UInt32.ofNat n) ||| (x <<< UInt32.ofNat (32 - n))
  shift x n := x >>> UInt32.ofNat n
  upperA := (2, 13, 22)
  upperE := (6, 11, 25)
  lower15 := (7, 18, 3)
  lower2 := (17, 19, 10)
  constants := (constants.take 64).map upperHalf

def wide : Family UInt64 where
  wordBytes := 8
  ofNat := UInt64.ofNat
  toNat := UInt64.toNat
  rotate x n := (x >>> UInt64.ofNat n) ||| (x <<< UInt64.ofNat (64 - n))
  shift x n := x >>> UInt64.ofNat n
  upperA := (28, 34, 39)
  upperE := (14, 18, 41)
  lower15 := (1, 8, 7)
  lower2 := (19, 61, 6)
  constants := constants

def digest224 (bytes : List UInt8) : List UInt8 :=
  (narrow.digest (nextRoots.map UInt64.toUInt32) bytes).take 28

def digest256 (bytes : List UInt8) : List UInt8 :=
  narrow.digest (firstRoots.map upperHalf) bytes

def digest384 (bytes : List UInt8) : List UInt8 :=
  (wide.digest nextRoots bytes).take 48

def digest512 (bytes : List UInt8) : List UInt8 :=
  wide.digest firstRoots bytes

end EpcisDigest.Digest.Sha2
