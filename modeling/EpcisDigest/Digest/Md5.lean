import EpcisDigest.Digest.Bytes

namespace EpcisDigest.Digest.Md5

structure State where
  a : UInt32
  b : UInt32
  c : UInt32
  d : UInt32

def rotate (x n : UInt32) : UInt32 :=
  (x <<< n) ||| (x >>> (32 - n))

def initial : State := ⟨0x67452301, 0xefcdab89, 0x98badcfe, 0x10325476⟩

/-- The first 32 bits behind the point of the sines of 1 to 64. -/
def constants : List UInt32 :=
  [0xd76aa478, 0xe8c7b756, 0x242070db, 0xc1bdceee, 0xf57c0faf, 0x4787c62a, 0xa8304613, 0xfd469501,
   0x698098d8, 0x8b44f7af, 0xffff5bb1, 0x895cd7be, 0x6b901122, 0xfd987193, 0xa679438e, 0x49b40821,
   0xf61e2562, 0xc040b340, 0x265e5a51, 0xe9b6c7aa, 0xd62f105d, 0x02441453, 0xd8a1e681, 0xe7d3fbc8,
   0x21e1cde6, 0xc33707d6, 0xf4d50d87, 0x455a14ed, 0xa9e3e905, 0xfcefa3f8, 0x676f02d9, 0x8d2a4c8a,
   0xfffa3942, 0x8771f681, 0x6d9d6122, 0xfde5380c, 0xa4beea44, 0x4bdecfa9, 0xf6bb4b60, 0xbebfbc70,
   0x289b7ec6, 0xeaa127fa, 0xd4ef3085, 0x04881d05, 0xd9d4d039, 0xe6db99e5, 0x1fa27cf8, 0xc4ac5665,
   0xf4292244, 0x432aff97, 0xab9423a7, 0xfc93a039, 0x655b59c3, 0x8f0ccc92, 0xffeff47d, 0x85845dd1,
   0x6fa87e4f, 0xfe2ce6e0, 0xa3014314, 0x4e0811a1, 0xf7537e82, 0xbd3af235, 0x2ad7d2bb, 0xeb86d391]

def rotations : Array UInt32 :=
  #[7, 12, 17, 22, 5, 9, 14, 20, 4, 11, 16, 23, 6, 10, 15, 21]

def turns (round : Nat) : UInt32 :=
  rotations.getD (4 * (round / 16) + round % 4) 0

def mix (round : Nat) (s : State) : UInt32 × Nat :=
  match round / 16 with
  | 0 => ((s.b &&& s.c) ||| (~~~s.b &&& s.d), round)
  | 1 => ((s.d &&& s.b) ||| (~~~s.d &&& s.c), (5 * round + 1) % 16)
  | 2 => (s.b ^^^ s.c ^^^ s.d, (3 * round + 5) % 16)
  | _ => (s.c ^^^ (s.b ||| ~~~s.d), (7 * round) % 16)

def step (words : Array UInt32) (s : State) (constant : UInt32 × Nat) : State :=
  let (mixed, index) := mix constant.2 s
  let sum := mixed + s.a + constant.1 + words.getD index 0
  ⟨s.d, s.b + rotate sum (turns constant.2), s.b, s.c⟩

def compress (s : State) (block : List UInt8) : State :=
  let words := ((blocks 4 block).map fun b => UInt32.ofNat (ofLittleEndian b)).toArray
  let t := constants.zipIdx.foldl (step words) s
  ⟨s.a + t.a, s.b + t.b, s.c + t.c, s.d + t.d⟩

def digest (bytes : List UInt8) : List UInt8 :=
  let s := (blocks 64 (padWith 64 (littleEndian 8 (8 * bytes.length)) bytes)).foldl compress initial
  [s.a, s.b, s.c, s.d].flatMap fun w => littleEndian 4 w.toNat

end EpcisDigest.Digest.Md5
