namespace EpcisDigest.Text

def cut? (sep : Char) (s : String) : Option (String × String) :=
  match s.toList.dropWhile (· != sep) with
  | [] => none
  | _ :: rest => some (String.ofList (s.toList.takeWhile (· != sep)), String.ofList rest)

def piecesOf (sep : Char) : List Char → List (List Char)
  | [] => [[]]
  | c :: cs =>
    if c = sep then [] :: piecesOf sep cs
    else match piecesOf sep cs with
      | [] => [[c]]
      | piece :: pieces => (c :: piece) :: pieces

def pieces (sep : Char) (s : String) : List String :=
  (piecesOf sep s.toList).map String.ofList

theorem piecesOf_ne_nil (sep : Char) (cs : List Char) : piecesOf sep cs ≠ [] := by
  cases cs with
  | nil => simp [piecesOf]
  | cons c cs =>
    simp only [piecesOf]
    split
    · simp
    · split <;> simp

def startsWith (lead s : String) : Bool :=
  lead.toList.isPrefixOf s.toList

def after? (lead s : String) : Option String :=
  if startsWith lead s then some (String.ofList (s.toList.drop lead.toList.length)) else none

def contains (c : Char) (s : String) : Bool :=
  s.toList.contains c

def upperAscii (s : String) : String :=
  String.ofList (s.toList.map Char.toUpper)

def lowerAscii (s : String) : String :=
  String.ofList (s.toList.map Char.toLower)

end EpcisDigest.Text
