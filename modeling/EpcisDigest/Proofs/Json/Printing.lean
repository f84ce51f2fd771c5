import EpcisDigest.Json.Print
import EpcisDigest.Proofs.Json.Meaning

namespace EpcisDigest.Json

theorem encodeChar_hexDigit : ∀ digit : Fin 16,
    String.utf8EncodeChar (Text.hexDigit digit.val) = [HexDigit.byte ⟨digit, false⟩] := by
  decide

theorem exists_coded {c : Char} (control : c.toNat < 0x20) : ∃ written : WrittenChar,
    written.bytes = ['\\', 'u', '0', '0', Text.hexDigit (c.toNat / 16), Text.hexDigit (c.toNat % 16)].flatMap
      String.utf8EncodeChar ∧ written.char = c := by
  let high : Fin 16 := ⟨c.toNat / 16, by omega⟩
  let low : Fin 16 := ⟨c.toNat % 16, by omega⟩
  let code : HexCode := ⟨⟨0, false⟩, ⟨0, false⟩, ⟨high, false⟩, ⟨low, false⟩⟩
  have value : code.value = c.toNat := by
    simp only [code, HexCode.value, high, low, Fin.val_zero]
    omega
  have single : isHighSurrogate code.value = false ∧ isLowSurrogate code.value = false := by
    simp only [value, isHighSurrogate, isLowSurrogate, Bool.and_eq_false_iff, decide_eq_false_iff_not]
    omega
  refine ⟨.coded code single, ?_, ?_⟩
  · have first : String.utf8EncodeChar (Text.hexDigit (c.toNat / 16)) = _ := encodeChar_hexDigit high
    have second : String.utf8EncodeChar (Text.hexDigit (c.toNat % 16)) = _ := encodeChar_hexDigit low
    simp only [List.flatMap_cons, List.flatMap_nil, List.append_nil, first, second]
    rfl
  · rw [WrittenChar.char, value, Char.ofNat_toNat]

theorem exists_writtenChar (c : Char) :
    ∃ written : WrittenChar, written.bytes = (escaped c).flatMap String.utf8EncodeChar ∧ written.char = c := by
  unfold escaped
  split
  · exact ⟨.short .quote, by decide, rfl⟩
  · exact ⟨.short .backslash, by decide, rfl⟩
  · exact ⟨.short .backspace, by decide, rfl⟩
  · exact ⟨.short .formFeed, by decide, rfl⟩
  · exact ⟨.short .lineFeed, by decide, rfl⟩
  · exact ⟨.short .carriageReturn, by decide, rfl⟩
  · exact ⟨.short .tab, by decide, rfl⟩
  · rename_i quote backslash _ _ _ _ _
    split
    · rename_i control
      exact exists_coded control
    · rename_i visible
      exact ⟨.plain c ⟨by omega, quote, backslash⟩, by rw [List.flatMap_singleton]; rfl, rfl⟩

theorem exists_writtenString (text : String) :
    ∃ string : WrittenString, string.quoted = Text.bytesOf (quoted text) ∧ string.text = text := by
  have characters : ∀ cs : List Char, ∃ string : WrittenString,
      string.bytes = (cs.flatMap escaped).flatMap String.utf8EncodeChar ∧ string.map WrittenChar.char = cs := by
    intro cs
    induction cs with
    | nil => exact ⟨[], rfl, rfl⟩
    | cons c cs ih =>
      obtain ⟨first, bytes, char⟩ := exists_writtenChar c
      obtain ⟨string, others, chars⟩ := ih
      refine ⟨first :: string, ?_, by rw [List.map_cons, char, chars]⟩
      rw [WrittenString.bytes, List.flatMap_cons, List.flatMap_cons, List.flatMap_append, bytes, ← others]
      rfl
  obtain ⟨string, bytes, chars⟩ := characters text.toList
  refine ⟨string, ?_, ?_⟩
  · rw [WrittenString.quoted, bytes, quoted, Text.bytesOf_ofList, List.cons_append, List.flatMap_cons,
      List.flatMap_append]
    rfl
  · rw [WrittenString.text, chars, String.ofList_toList]

def newline (indent : Nat) : Blanks :=
  ⟨0x0A :: List.replicate indent 0x20, by
    intro b member
    rcases List.mem_cons.mp member with rfl | member
    · rfl
    · rw [List.eq_of_mem_replicate member]
      rfl⟩

theorem bytesOf_pad (indent : Nat) :
    0x0A :: Text.bytesOf (String.ofList (List.replicate indent ' ')) = (newline indent).val := by
  have blanks : ∀ n, (List.replicate n ' ').flatMap String.utf8EncodeChar = List.replicate n 0x20 := by
    intro n
    induction n with
    | zero => rfl
    | succ n ih =>
      rw [List.replicate_succ, List.flatMap_cons, ih]
      rfl
  rw [Text.bytesOf_ofList, blanks]
  rfl

def laid (before last : Blanks) (first : Bool) : List (List UInt8) → List UInt8
  | [] => []
  | [part] => separator first ++ (before.val ++ (part ++ last.val))
  | part :: parts => separator first ++ (before.val ++ (part ++ laid before last false parts))

theorem laid_cons (before last : Blanks) (first : Bool) (part next : List UInt8) (parts : List (List UInt8)) :
    laid before last first (part :: next :: parts) =
      separator first ++ (before.val ++ (part ++ 0x2C :: laid before last true (next :: parts))) := by
  cases parts <;> rfl

theorem bytesOf_block (opening closing : String) (indent : Nat) (parts : List String) :
    Text.bytesOf (Value.block opening closing indent parts) = Text.bytesOf opening ++
      (laid (newline (indent + 2)) (newline indent) true (parts.map Text.bytesOf) ++ Text.bytesOf closing) := by
  have lines : ∀ (part : String) (parts : List String),
      0x0A :: (Text.bytesOf (",\n".intercalate ((part :: parts).map
          (String.ofList (List.replicate (indent + 2) ' ') ++ ·))) ++ (newline indent).val) =
        laid (newline (indent + 2)) (newline indent) true ((part :: parts).map Text.bytesOf) := by
    intro part parts
    induction parts generalizing part with
    | nil =>
      rw [List.map_singleton, String.intercalate_singleton, List.map_singleton, laid, ← bytesOf_pad (indent + 2)]
      simp only [Text.bytesOf, String.toList_append, List.flatMap_append, List.append_assoc, separator, ite_true,
        List.nil_append, List.cons_append]
    | cons next parts ih =>
      rw [List.map_cons, List.map_cons, String.intercalate_cons_cons, List.map_cons, List.map_cons, laid_cons,
        ← List.map_cons (f := Text.bytesOf), ← ih next, ← bytesOf_pad (indent + 2)]
      simp only [Text.bytesOf, String.toList_append, List.flatMap_append, List.append_assoc, separator, ite_true,
        List.nil_append, List.cons_append, List.map_cons]
      rfl
  cases parts with
  | nil => simp [Value.block, Text.bytesOf, laid]
  | cons part parts =>
    rw [← lines, ← bytesOf_pad indent]
    simp only [Value.block, Text.bytesOf, String.toList_append, List.flatMap_append, List.append_assoc,
      List.cons_append]
    rfl

def spread (before last : Blanks) : List Written → WrittenItems
  | [] => []
  | [value] => [⟨before, value, last⟩]
  | value :: values => ⟨before, value, .none⟩ :: spread before last values

def spreadMembers (before last : Blanks) : List (WrittenString × Written) → WrittenMembers
  | [] => []
  | [(name, value)] => [(⟨before, name, .none⟩, ⟨⟨[0x20], by simp [isSpace]⟩, value, last⟩)]
  | (name, value) :: members =>
    (⟨before, name, .none⟩, ⟨⟨[0x20], by simp [isSpace]⟩, value, .none⟩) :: spreadMembers before last members

section Spread

variable (before last : Blanks)

theorem itemsBytes_spread (first : Bool) (values : List Written) :
    itemsBytes first (spread before last values) = laid before last first (values.map Written.bytes) := by
  induction values generalizing first with
  | nil => rfl
  | cons value values ih =>
    cases values with
    | nil => simp [spread, itemsBytes, laid]
    | cons next values =>
      rw [spread, itemsBytes, ih]
      · rfl
      · simp

theorem plainItems_spread (values : List Written) :
    plainItems (spread before last values) = values.map Written.plain := by
  induction values with
  | nil => rfl
  | cons value values ih =>
    cases values with
    | nil => rfl
    | cons next values =>
      rw [spread, plainItems, ih]
      · rfl
      · simp

def memberLine (member : WrittenString × Written) : List UInt8 :=
  member.1.quoted ++ 0x3A :: 0x20 :: member.2.bytes

theorem membersBytes_spread (first : Bool) (members : List (WrittenString × Written)) :
    membersBytes first (spreadMembers before last members) = laid before last first (members.map memberLine) := by
  induction members generalizing first with
  | nil => rfl
  | cons member members ih =>
    cases members with
    | nil => simp [spreadMembers, membersBytes, nameBytes, memberLine, laid, Blanks.none]
    | cons next members =>
      rw [spreadMembers, membersBytes, ih]
      · simp [nameBytes, memberLine, laid, Blanks.none]
      · simp

theorem plainMembers_spread (members : List (WrittenString × Written)) :
    plainMembers (spreadMembers before last members) = members.map fun member => (member.1.text, member.2.plain) := by
  induction members with
  | nil => rfl
  | cons member members ih =>
    cases members with
    | nil => rfl
    | cons next members =>
      rw [spreadMembers, plainMembers, ih]
      · rfl
      · simp

end Spread

mutual

def Value.Literal : Value → Prop
  | .number literal => ∃ number : WrittenNumber, number.bytes = Text.bytesOf literal ∧ number.literal = literal
  | .array items => ItemsLiteral items
  | .object members => MembersLiteral members
  | _ => True

def ItemsLiteral : List Value → Prop
  | [] => True
  | item :: items => item.Literal ∧ ItemsLiteral items

def MembersLiteral : List (String × Value) → Prop
  | [] => True
  | (_, value) :: members => value.Literal ∧ MembersLiteral members

end

mutual

/-- A value is printed as a text that says it. -/
theorem exists_written (indent : Nat) : ∀ value : Value, value.Literal →
    ∃ written : Written, written.bytes = Text.bytesOf (value.pretty indent) ∧ written.plain = value
  | .null, _ => ⟨.null, rfl, rfl⟩
  | .bool true, _ => ⟨.bool true, rfl, rfl⟩
  | .bool false, _ => ⟨.bool false, rfl, rfl⟩
  | .number literal, ⟨number, bytes, same⟩ => ⟨.number number, bytes, congrArg Value.number same⟩
  | .string text, _ => by
    obtain ⟨string, bytes, same⟩ := exists_writtenString text
    exact ⟨.string string, bytes, congrArg Value.string same⟩
  | .array items, literal => by
    obtain ⟨values, bytes, plain⟩ := exists_writtenItems (indent + 2) items literal
    refine ⟨.array .none (spread (newline (indent + 2)) (newline indent) values), ?_, ?_⟩
    · rw [Value.pretty, bytesOf_block, ← bytes, Written.bytes, itemsBytes_spread]
      rfl
    · rw [Written.plain, plainItems_spread, plain]
  | .object members, literal => by
    obtain ⟨values, bytes, plain⟩ := exists_writtenMembers (indent + 2) members literal
    refine ⟨.object .none (spreadMembers (newline (indent + 2)) (newline indent) values), ?_, ?_⟩
    · rw [Value.pretty, bytesOf_block, ← bytes, Written.bytes, membersBytes_spread]
      rfl
    · rw [Written.plain, plainMembers_spread, plain]

theorem exists_writtenItems (indent : Nat) : ∀ items : List Value, ItemsLiteral items →
    ∃ values : List Written, values.map Written.bytes = (Value.prettyItems indent items).map Text.bytesOf ∧
      values.map Written.plain = items
  | [], _ => ⟨[], rfl, rfl⟩
  | item :: items, ⟨literal, others⟩ => by
    obtain ⟨value, bytes, plain⟩ := exists_written indent item literal
    obtain ⟨values, bytes', plain'⟩ := exists_writtenItems indent items others
    refine ⟨value :: values, ?_, ?_⟩
    · rw [List.map_cons, bytes, bytes', Value.prettyItems, List.map_cons]
    · rw [List.map_cons, plain, plain']

theorem exists_writtenMembers (indent : Nat) : ∀ members : List (String × Value), MembersLiteral members →
    ∃ values : List (WrittenString × Written),
      values.map memberLine = (Value.prettyMembers indent members).map Text.bytesOf ∧
      values.map (fun member => (member.1.text, member.2.plain)) = members
  | [], _ => ⟨[], rfl, rfl⟩
  | (name, value) :: members, ⟨literal, others⟩ => by
    obtain ⟨string, named, text⟩ := exists_writtenString name
    obtain ⟨written, bytes, plain⟩ := exists_written indent value literal
    obtain ⟨values, bytes', plain'⟩ := exists_writtenMembers indent members others
    refine ⟨(string, written) :: values, ?_, ?_⟩
    · rw [List.map_cons, bytes', Value.prettyMembers, List.map_cons, memberLine, named, bytes]
      simp only [Text.bytesOf, String.toList_append, List.flatMap_append, List.append_assoc]
      rfl
    · rw [List.map_cons, text, plain, plain']

end

/-- What is printed, with a line end behind it, says the value and nothing else. -/
theorem denotes_pretty {value : Value} (literal : value.Literal) {found : Value} :
    Denotes (value.pretty 0 ++ "\n") found ↔ found = value := by
  obtain ⟨written, bytes, plain⟩ := exists_written 0 value literal
  have denotes : Denotes (value.pretty 0 ++ "\n") value := by
    refine ⟨⟨.none, written, newline 0⟩, ?_, plain⟩
    simp only [bytes, Text.bytesOf, String.toList_append, List.flatMap_append]
    rfl
  constructor
  · intro other
    exact other.unique denotes
  · rintro rfl
    exact denotes

end EpcisDigest.Json
