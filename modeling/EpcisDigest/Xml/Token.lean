import EpcisDigest.Source
import EpcisDigest.Text.Utf8
import EpcisDigest.Xml.Error

namespace EpcisDigest.Xml

def isSpace (b : UInt8) : Bool :=
  b == 0x20 || b == 0x09 || b == 0x0D || b == 0x0A

inductive Token where
  | opening (content : List UInt8)
  | empty (content : List UInt8)
  | closing
  | text (content : List UInt8)
  | verbatim (content : List UInt8)
  | ignored
  deriving DecidableEq

/-- A document that is cut into tokens: what is left of it, where that begins, and the names of the
    open elements, the innermost first. -/
structure Lexer where
  rest : List UInt8
  failure : Option String
  offset : Nat
  openNames : List (List UInt8)
  deriving DecidableEq

namespace Lexer

def ofSource (source : Source) : Lexer :=
  let mark := [0xEF, 0xBB, 0xBF]
  let bytes := if mark.isPrefixOf source.bytes then source.bytes.drop 3 else source.bytes
  ⟨bytes, source.failure, 0, []⟩

def advance (count : Nat) (lexer : Lexer) : Lexer :=
  { lexer with rest := lexer.rest.drop count, offset := lexer.offset + count }

def shortage (lexer : Lexer) : Cause :=
  if lexer.failure.isSome then .source else .malformed

end Lexer

def tagLength? (quote : Option UInt8) (length : Nat) : List UInt8 → Option Nat
  | [] => none
  | b :: rest =>
    match quote with
    | some mark => tagLength? (if b = mark then none else some mark) (length + 1) rest
    | none =>
      if b = 0x3E then some length
      else tagLength? (if b = 0x22 ∨ b = 0x27 then some b else none) (length + 1) rest

/-- The number of bytes before the first `>` that is at least the `least`-th and follows `tail`, of
    which the last byte comes first; `seen` are the bytes before, the last one first. -/
def lengthBefore? (tail : List UInt8) (least length : Nat) (seen : List UInt8) :
    List UInt8 → Option Nat
  | [] => none
  | b :: rest =>
    if b = 0x3E ∧ least ≤ length ∧ tail.isPrefixOf seen then some length
    else lengthBefore? tail least (length + 1) (b :: seen) rest

def balancedLength? (level length : Nat) : List UInt8 → Option Nat
  | [] => none
  | b :: rest =>
    if b = 0x3C then balancedLength? (level + 1) (length + 1) rest
    else if b = 0x3E then
      match level with
      | 0 => some length
      | level + 1 => balancedLength? level (length + 1) rest
    else balancedLength? level (length + 1) rest

def nameOf (content : List UInt8) : List UInt8 :=
  content.takeWhile (!isSpace ·)

def closingName (content : List UInt8) : List UInt8 :=
  match content.reverse.dropWhile isSpace with
  | [] => content
  | kept => kept.reverse

def capital (b : UInt8) : UInt8 :=
  if 0x61 ≤ b && b ≤ 0x7A then b - 0x20 else b

def verbatimToken (content : List UInt8) : Except Cause Token :=
  let lead := Text.bytesOf "![CDATA["
  if lead.isPrefixOf content then .ok (.verbatim ((content.drop lead.length).dropLast.dropLast))
  else .error .malformed

def commentToken (content : List UInt8) : Except Cause Token :=
  if (Text.bytesOf "!--").isPrefixOf content then .ok .ignored else .error .malformed

namespace Lexer

inductive Cut where
  | token (token : Token) (lexer : Lexer)
  | finished
  | failed (cause : Cause)
  | doctype
  deriving DecidableEq

def cut (lexer : Lexer) (length : Option Nat) (token : List UInt8 → Except Cause Token) : Cut :=
  match length with
  | none => .failed lexer.shortage
  | some length =>
    match token (lexer.rest.take length) with
    | .ok token => .token token (lexer.advance (length + 1))
    | .error cause => .failed cause

def declaration (lexer : Lexer) : Cut :=
  match lexer.rest with
  | _ :: b :: _ =>
    if b = 0x5B then lexer.cut (lengthBefore? [0x5D, 0x5D] 0 0 [] lexer.rest) verbatimToken
    else if b = 0x2D then lexer.cut (lengthBefore? [0x2D, 0x2D] 5 0 [] lexer.rest) commentToken
    else if capital b = 0x44 then
      match balancedLength? 0 0 lexer.rest with
      | none => .failed lexer.shortage
      | some length =>
        let content := lexer.rest.take length
        let lead := Text.bytesOf "!DOCTYPE"
        if lead.isPrefixOf (content.map capital) then
          if (content.drop lead.length).all isSpace then .failed .misnested else .doctype
        else .failed .malformed
    else .failed .malformed
  | _ => .failed lexer.shortage

def closing (lexer : Lexer) : Cut :=
  match tagLength? none 0 lexer.rest with
  | none => .failed lexer.shortage
  | some length =>
    match lexer.openNames with
    | [] => .failed .misnested
    | name :: names =>
      if closingName ((lexer.rest.take length).drop 1) = name
      then .token .closing { lexer.advance (length + 1) with openNames := names }
      else .failed .misnested

def opening (lexer : Lexer) : Cut :=
  match tagLength? none 0 lexer.rest with
  | none => .failed lexer.shortage
  | some length =>
    let content := lexer.rest.take length
    let after := lexer.advance (length + 1)
    if content.getLast? = some 0x2F then .token (.empty content.dropLast) after
    else .token (.opening content) { after with openNames := nameOf content :: lexer.openNames }

def instructionToken (content : List UInt8) : Except Cause Token :=
  if 1 < content.length then .ok .ignored else .error .malformed

def markup (lexer : Lexer) : Cut :=
  match lexer.rest with
  | [] => .failed lexer.shortage
  | b :: _ =>
    if b = 0x21 then lexer.declaration
    else if b = 0x2F then lexer.closing
    else if b = 0x3F then lexer.cut (lengthBefore? [0x3F] 0 0 [] lexer.rest) instructionToken
    else lexer.opening

def trimmedEnd (content : List UInt8) : List UInt8 :=
  (content.reverse.dropWhile isSpace).reverse

def next (lexer : Lexer) : Cut :=
  let lexer := lexer.advance (lexer.rest.takeWhile isSpace).length
  match lexer.rest with
  | [] => if lexer.failure.isSome then .failed .source else .finished
  | b :: rest =>
    if b = 0x3C then markup (lexer.advance 1)
    else
      let content := b :: rest.takeWhile (· != 0x3C)
      if (rest.dropWhile (· != 0x3C)).isEmpty ∧ lexer.failure.isSome then .failed .source
      else .token (.text (trimmedEnd content)) (lexer.advance content.length)

end Lexer

end EpcisDigest.Xml
