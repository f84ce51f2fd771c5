namespace EpcisDigest.Text

def bytesOf (s : String) : List UInt8 :=
  s.toList.flatMap String.utf8EncodeChar

def ofBytes? (bytes : List UInt8) : Option String :=
  String.fromUTF8? ⟨bytes.toArray⟩

def leadByte? (b : UInt8) : Option (Nat × UInt8 × UInt8) :=
  if b < 0xC2 then none
  else if b < 0xE0 then some (1, 0x80, 0xBF)
  else if b = 0xE0 then some (2, 0xA0, 0xBF)
  else if b = 0xED then some (2, 0x80, 0x9F)
  else if b < 0xF0 then some (2, 0x80, 0xBF)
  else if b = 0xF0 then some (3, 0x90, 0xBF)
  else if b < 0xF4 then some (3, 0x80, 0xBF)
  else if b = 0xF4 then some (3, 0x80, 0x8F)
  else none

def isContinuation (b : UInt8) : Bool :=
  0x80 ≤ b && b ≤ 0xBF

def runLength (b : UInt8) (rest : List UInt8) : Nat :=
  match leadByte? b, rest with
  | some (more, low, high), second :: rest =>
    if low ≤ second && second ≤ high
    then 1 + ((rest.take (more - 1)).takeWhile isContinuation).length
    else 0
  | _, _ => 0

/-- Reads UTF-8 and puts U+FFFD for every longest run that is no whole character. -/
def ofBytesLossy : List UInt8 → List Char
  | [] => []
  | b :: rest =>
    ((ofBytes? (b :: rest.take (runLength b rest))).getD "\uFFFD").toList ++
      ofBytesLossy (rest.drop (runLength b rest))
termination_by bytes => bytes.length
decreasing_by simp only [List.length_drop, List.length_cons]; omega

def latin1 (b : UInt8) : Char :=
  Char.ofNat b.toNat

def byte (c : Char) : UInt8 :=
  c.toUInt8

end EpcisDigest.Text
