import EpcisDigest.Digest.Algorithm
import EpcisDigest.Entries
import EpcisDigest.Text.Utf8
import EpcisDigest.Version

namespace EpcisDigest

structure CanonicalForm where
  lines : List String
  deriving DecidableEq

namespace CanonicalForm

def joined (form : CanonicalForm) (separator : String) : String :=
  separator.intercalate form.lines

def digestInput (form : CanonicalForm) : String :=
  form.joined ""

def text (form : CanonicalForm) : String :=
  form.joined "\n"

end CanonicalForm

def digestUri (algorithm : Algorithm) (text : String) (version : Version) : String :=
  "ni:///" ++ algorithm.name ++ ";" ++ algorithm.hexDigest (Text.bytesOf text) ++
    "?ver=" ++ version.tag

inductive Output where
  | prehash
  | digest (requested : String) (algorithm : Algorithm)
  deriving DecidableEq

namespace Output

def prehashName : String := "prehash"

def ofName (name : String) : Output :=
  let trimmed := Text.trim name
  if Text.lowerAscii trimmed = prehashName then prehash
  else digest trimmed (Algorithm.ofName trimmed)

def key : Output → String
  | prehash => prehashName
  | digest requested _ => requested

def render (output : Output) (form : CanonicalForm) (separator : String) (version : Version) : String :=
  match output with
  | prehash => form.joined separator
  | digest _ algorithm => digestUri algorithm form.digestInput version

end Output

structure Results where
  entries : Entries String
  deriving DecidableEq

namespace Results

def empty : Results := ⟨[]⟩

def put (results : Results) (key value : String) : Results :=
  ⟨Entries.put key value results.entries⟩

def get? (results : Results) (key : String) : Option String :=
  Entries.get? key results.entries

def size (results : Results) : Nat :=
  results.entries.length

def first? (results : Results) : Option String :=
  results.entries.head?.map Prod.snd

def ofForm (form : CanonicalForm) (outputs : List Output) (separator : String) (version : Version) :
    Results :=
  outputs.foldl (fun results output => results.put output.key (output.render form separator version)) empty

end Results

end EpcisDigest
