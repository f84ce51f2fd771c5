namespace EpcisDigest.Xml

inductive Cause where
  | source
  | malformed
  | misnested
  | badAttribute
  | badEncoding
  | badReference
  deriving DecidableEq

inductive Refusal where
  | doctype
  | textOutside
  | unclosed
  deriving DecidableEq

def Refusal.message : Refusal → String
  | doctype => "DOCTYPE declarations are not accepted"
  | textOutside => "text outside the document element"
  | unclosed => "document ended inside an open element"

inductive ReadError where
  | markup (position : Nat) (cause : Cause)
  | refused (refusal : Refusal)
  deriving DecidableEq

def ReadError.message : ReadError → String
  | markup position _ => "XML error at position " ++ toString position
  | refused refusal => "XML not accepted: " ++ refusal.message

end EpcisDigest.Xml
