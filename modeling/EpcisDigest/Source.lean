namespace EpcisDigest

/-- What a reader is given: some bytes, and then the end or a failure with its text. -/
structure Source where
  bytes : List UInt8
  failure : Option String
  deriving DecidableEq

namespace Source

def whole (bytes : List UInt8) : Source := ⟨bytes, none⟩

def broken (bytes : List UInt8) (count : Nat) (failure : String) : Source :=
  ⟨bytes.take count, some failure⟩

end Source

end EpcisDigest
