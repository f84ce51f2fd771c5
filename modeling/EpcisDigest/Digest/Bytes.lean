import EpcisDigest.Text.Hex

namespace EpcisDigest.Digest

def takeBlocks (size : Nat) : Nat → List UInt8 → List (List UInt8)
  | 0, _ => []
  | count + 1, bytes => bytes.take size :: takeBlocks size count (bytes.drop size)

def blocks (size : Nat) (bytes : List UInt8) : List (List UInt8) :=
  takeBlocks size (bytes.length / size) bytes

def littleEndian (width : Nat) (n : Nat) : List UInt8 :=
  (List.range width).map fun i => UInt8.ofNat (n >>> (8 * i))

def bigEndian (width : Nat) (n : Nat) : List UInt8 :=
  (littleEndian width n).reverse

def ofBigEndian (bytes : List UInt8) : Nat :=
  bytes.foldl (fun n b => n * 256 + b.toNat) 0

def ofLittleEndian (bytes : List UInt8) : Nat :=
  ofBigEndian bytes.reverse

/-- Appends a one bit, zero bits, and the given last bytes, up to a whole number of blocks. -/
def padWith (size : Nat) (last bytes : List UInt8) : List UInt8 :=
  let used := bytes.length + 1 + last.length
  bytes ++ 0x80 :: (List.replicate ((size - used % size) % size) 0 ++ last)

def hex (bytes : List UInt8) : String :=
  String.ofList (bytes.flatMap fun b => [Text.hexDigit (b.toNat / 16), Text.hexDigit (b.toNat % 16)])

end EpcisDigest.Digest
