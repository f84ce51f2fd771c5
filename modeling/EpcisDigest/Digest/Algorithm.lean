import EpcisDigest.Text.Blank
import EpcisDigest.Text.Pieces
import EpcisDigest.Digest.Sha1
import EpcisDigest.Digest.Sha2
import EpcisDigest.Digest.Sha3
import EpcisDigest.Digest.Md2
import EpcisDigest.Digest.Md5

namespace EpcisDigest

inductive Algorithm where
  | sha1 | sha224 | sha256 | sha384 | sha512
  | sha3_224 | sha3_256 | sha3_384 | sha3_512
  | md2 | md5
  deriving DecidableEq

namespace Algorithm

def all : List Algorithm :=
  [sha1, sha224, sha256, sha384, sha512, sha3_224, sha3_256, sha3_384, sha3_512, md2, md5]

def name : Algorithm → String
  | sha1 => "sha-1"
  | sha224 => "sha-224"
  | sha256 => "sha-256"
  | sha384 => "sha-384"
  | sha512 => "sha-512"
  | sha3_224 => "sha3-224"
  | sha3_256 => "sha3-256"
  | sha3_384 => "sha3-384"
  | sha3_512 => "sha3-512"
  | md2 => "md2"
  | md5 => "md5"

def withName? (name : String) : Option Algorithm :=
  all.find? fun algorithm => algorithm.name == name

def ofName? (name : String) : Option Algorithm :=
  withName? (Text.lowerAscii (Text.trim name))

/-- An unknown name stands for SHA-256. -/
def ofName (name : String) : Algorithm :=
  (ofName? name).getD sha256

def digest : Algorithm → List UInt8 → List UInt8
  | sha1 => Digest.Sha1.digest
  | sha224 => Digest.Sha2.digest224
  | sha256 => Digest.Sha2.digest256
  | sha384 => Digest.Sha2.digest384
  | sha512 => Digest.Sha2.digest512
  | sha3_224 => Digest.Sha3.digest 28
  | sha3_256 => Digest.Sha3.digest 32
  | sha3_384 => Digest.Sha3.digest 48
  | sha3_512 => Digest.Sha3.digest 64
  | md2 => Digest.Md2.digest
  | md5 => Digest.Md5.digest

def hexDigest (algorithm : Algorithm) (bytes : List UInt8) : String :=
  Digest.hex (algorithm.digest bytes)

theorem withName?_name (algorithm : Algorithm) : withName? algorithm.name = some algorithm := by
  cases algorithm <;> decide

end Algorithm

end EpcisDigest
