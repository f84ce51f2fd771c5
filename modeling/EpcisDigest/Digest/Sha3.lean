import EpcisDigest.Digest.Bytes

namespace EpcisDigest.Digest.Sha3

abbrev Lanes := Array UInt64

def lane (s : Lanes) (x y : Nat) : UInt64 :=
  s.getD (x % 5 + 5 * (y % 5)) 0

def ofLanes (f : Nat → Nat → UInt64) : Lanes :=
  Array.ofFn fun (i : Fin 25) => f (i.val % 5) (i.val / 5)

def rotate (x : UInt64) (n : Nat) : UInt64 :=
  (x <<< UInt64.ofNat n) ||| (x >>> UInt64.ofNat (64 - n))

def roundConstants : List UInt64 :=
  [0x0000000000000001, 0x0000000000008082, 0x800000000000808a, 0x8000000080008000,
   0x000000000000808b, 0x0000000080000001, 0x8000000080008081, 0x8000000000008009,
   0x000000000000008a, 0x0000000000000088, 0x0000000080008009, 0x000000008000000a,
   0x000000008000808b, 0x800000000000008b, 0x8000000000008089, 0x8000000000008003,
   0x8000000000008002, 0x8000000000000080, 0x000000000000800a, 0x800000008000000a,
   0x8000000080008081, 0x8000000000008080, 0x0000000080000001, 0x8000000080008008]

def rotations : Array Nat :=
  #[0, 1, 62, 28, 27, 36, 44, 6, 55, 20, 3, 10, 43, 25, 39, 41, 45, 15, 21, 8, 18, 2, 61, 56, 14]

def theta (s : Lanes) : Lanes :=
  let column := Array.ofFn fun (x : Fin 5) =>
    lane s x 0 ^^^ lane s x 1 ^^^ lane s x 2 ^^^ lane s x 3 ^^^ lane s x 4
  let parity (x : Nat) := column.getD (x % 5) 0
  ofLanes fun x y => lane s x y ^^^ parity (x + 4) ^^^ rotate (parity (x + 1)) 1

def rhoPi (s : Lanes) : Lanes :=
  ofLanes fun x y =>
    rotate (lane s (x + 3 * y) x) (rotations.getD ((x + 3 * y) % 5 + 5 * x) 0)

def chi (s : Lanes) : Lanes :=
  ofLanes fun x y => lane s x y ^^^ (~~~lane s (x + 1) y &&& lane s (x + 2) y)

def round (s : Lanes) (constant : UInt64) : Lanes :=
  (chi (rhoPi (theta s))).modify 0 (· ^^^ constant)

def permute (s : Lanes) : Lanes :=
  roundConstants.foldl round s

def absorb (s : Lanes) (block : List UInt8) : Lanes :=
  let words := ((blocks 8 block).map fun b => UInt64.ofNat (ofLittleEndian b)).toArray
  permute (ofLanes fun x y => lane s x y ^^^ words.getD (x + 5 * y) 0)

/-- Appends the bits 01 and the padding that starts and ends with a one bit. -/
def pad (rate : Nat) (bytes : List UInt8) : List UInt8 :=
  match rate - bytes.length % rate with
  | 0 => bytes
  | 1 => bytes ++ [0x86]
  | missing + 2 => bytes ++ 0x06 :: (List.replicate missing 0 ++ [0x80])

def digest (size : Nat) (bytes : List UInt8) : List UInt8 :=
  let rate := 200 - 2 * size
  let s := (blocks rate (pad rate bytes)).foldl absorb (Array.replicate 25 0)
  (s.toList.flatMap fun w => littleEndian 8 w.toNat).take size

end EpcisDigest.Digest.Sha3
