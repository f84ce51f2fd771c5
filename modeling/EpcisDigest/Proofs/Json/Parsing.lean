import EpcisDigest.Json.Input
import EpcisDigest.Proofs.Json.Written

namespace EpcisDigest.Json

theorem skipSpaces_blanks (blank : Blanks) (bytes : List UInt8) :
    skipSpaces (blank.val ++ bytes) = skipSpaces bytes :=
  List.dropWhile_append_of_pos blank.property

theorem skipSpaces_cons {b : UInt8} {bytes : List UInt8} (space : isSpace b = false) :
    skipSpaces (b :: bytes) = b :: bytes := by
  simp only [skipSpaces, List.dropWhile_cons, space, Bool.false_eq_true, ite_false]

theorem skipSpaces_written (written : Written) (rest : List UInt8) :
    skipSpaces (written.bytes ++ rest) = written.bytes ++ rest := by
  obtain ⟨b, tail, split, leads⟩ := written.exists_lead
  rw [split, List.cons_append, skipSpaces_cons leads.starts.1]

def Delimited (rest : List UInt8) : Prop := ∀ b ∈ rest.head?, endsLiteral b = true

theorem delimited_cons {b : UInt8} {rest : List UInt8} (ends : endsLiteral b = true) :
    Delimited (b :: rest) := by
  intro c head
  cases head
  exact ends

theorem delimited_blanks (blank : Blanks) {rest : List UInt8} (delimited : Delimited rest) :
    Delimited (blank.val ++ rest) := by
  obtain ⟨bytes, spaces⟩ := blank
  cases bytes with
  | nil => exact delimited
  | cons b bytes =>
    apply delimited_cons
    simp only [endsLiteral, spaces b List.mem_cons_self, Bool.or_true]

theorem delimited_items (items : WrittenItems) (rest : List UInt8) :
    Delimited (itemsBytes false items ++ 0x5D :: rest) := by
  cases items <;> exact delimited_cons rfl

theorem delimited_members (members : WrittenMembers) (rest : List UInt8) :
    Delimited (membersBytes false members ++ 0x7D :: rest) := by
  cases members <;> exact delimited_cons rfl

theorem Delimited.endsNumber {rest : List UInt8} (delimited : Delimited rest) : EndsNumber rest := by
  intro b head
  have ends := delimited b head
  simp only [endsLiteral, isSpace, Bool.or_eq_true, beq_iff_eq] at ends
  rcases ends with ((rfl | rfl) | rfl) | (((rfl | rfl) | rfl) | rfl) <;> decide

theorem keyword?_written (word : String) (value : Value) (rest : List UInt8) :
    keyword? word value (Text.bytesOf word ++ rest) = some (value, rest) := by
  have found : (Text.bytesOf word).isPrefixOf (Text.bytesOf word ++ rest) = true :=
    List.isPrefixOf_iff_prefix.mpr (List.prefix_append _ _)
  simp only [keyword?, found, ite_true, List.drop_left]

theorem string?_written (string : WrittenString) (rest : List UInt8) :
    string? (string.bytes ++ 0x22 :: rest) = some (string.text, rest) := by
  have behind : string.bytes ++ 0x22 :: rest = (string.bytes ++ [0x22]) ++ rest := by simp
  simp only [string?, scanString_writtenString]
  rw [behind, ← List.length_singleton (a := (0x22 : UInt8)), ← List.length_append, List.drop_left]

def Written.IsScalar : Written → Prop
  | .array _ _ | .object _ _ => False
  | _ => True

theorem Written.Leads.scalar {written : Written} {b : UInt8} (leads : written.Leads b) (isScalar : written.IsScalar) :
    b ≠ 0x5B ∧ b ≠ 0x7B := by
  cases written with
  | bool value => cases value <;> (cases leads; decide)
  | number number =>
    rcases leads with rfl | digit
    · decide
    · refine ⟨?_, ?_⟩ <;> (rintro rfl; exact absurd digit (by decide))
  | array blank items => exact isScalar.elim
  | object blank members => exact isScalar.elim
  | _ => cases leads; decide

theorem scalar?_written {written : Written} (isScalar : written.IsScalar) {rest : List UInt8}
    (delimited : Delimited rest) : scalar? (written.bytes ++ rest) = some (written.value, rest) := by
  cases written with
  | null => exact keyword?_written "null" .null rest
  | bool value =>
    cases value with
    | true => exact keyword?_written "true" (.bool true) rest
    | false => exact keyword?_written "false" (.bool false) rest
  | string string =>
    simp only [Written.bytes, WrittenString.quoted, List.cons_append, List.append_assoc,
      List.nil_append, scalar?, string?_written, Option.map_some, Written.value]
  | number number =>
    have read := number?_written number delimited.endsNumber
    obtain ⟨b, tail, split, leads⟩ := (Written.number number).exists_lead
    rw [split]
    rw [Written.bytes] at split
    rw [split] at read
    have plain : b ≠ 0x22 ∧ b ≠ 0x6E ∧ b ≠ 0x74 ∧ b ≠ 0x66 := by
      rcases leads with rfl | digit
      · decide
      · refine ⟨?_, ?_, ?_, ?_⟩ <;> (rintro rfl; exact absurd digit (by decide))
    obtain ⟨quote, null, yes, no⟩ := plain
    simp only [List.cons_append] at read ⊢
    unfold scalar?
    split
    · rename_i same; cases same
    · rename_i same; injection same with same; exact absurd same quote
    · rename_i same; injection same with same; exact absurd same null
    · rename_i same; injection same with same; exact absurd same yes
    · rename_i same; injection same with same; exact absurd same no
    · rw [read, Option.map_some, Written.value]
  | array blank items => exact isScalar.elim
  | object blank members => exact isScalar.elim

theorem value?_blanks (count depth : Nat) (blank : Blanks) (bytes : List UInt8) :
    value? count depth (blank.val ++ bytes) = value? count depth bytes := by
  cases depth <;> simp only [value?, skipSpaces_blanks]

theorem value?_scalar {written : Written} (isScalar : written.IsScalar) (count depth : Nat)
    {rest : List UInt8} (delimited : Delimited rest) :
    value? count depth (written.bytes ++ rest) = some (written.value, rest) := by
  have read := scalar?_written isScalar delimited
  cases depth with
  | zero => rw [value?, skipSpaces_written, read]
  | succ depth =>
    obtain ⟨b, tail, split, leads⟩ := written.exists_lead
    have plain := leads.scalar isScalar
    unfold value?
    rw [skipSpaces_written]
    split
    · rename_i same
      rw [split, List.cons_append] at same
      injection same with same
      exact absurd same plain.1
    · rename_i same
      rw [split, List.cons_append] at same
      injection same with same
      exact absurd same plain.2
    · exact read

theorem member?_named (value : Reader Value) (name : Padded WrittenString) (bytes : List UInt8) :
    member? value (nameBytes name ++ bytes) =
      (value bytes).map fun found => ((name.inner.text, found.1), found.2) := by
  have quoted : skipSpaces (nameBytes name ++ bytes) =
      0x22 :: (name.inner.bytes ++ 0x22 :: (name.after.val ++ 0x3A :: bytes)) := by
    simp only [nameBytes, WrittenString.quoted, List.append_assoc, List.cons_append, List.nil_append,
      skipSpaces_blanks]
    exact skipSpaces_cons rfl
  have colon : skipSpaces (name.after.val ++ 0x3A :: bytes) = 0x3A :: bytes := by
    rw [skipSpaces_blanks, skipSpaces_cons rfl]
  simp only [member?, quoted, string?_written, bind, Option.bind, colon, pure]
  cases value bytes <;> rfl

theorem member?_written {value : Reader Value} (name : Padded WrittenString) {bytes rest : List UInt8}
    {found : Value} (read : value bytes = some (found, rest)) :
    member? value (nameBytes name ++ bytes) = some ((name.inner.text, found), rest) := by
  rw [member?_named, read, Option.map_some]

section Parts

variable {α : Type} {part : Reader α} {closing : UInt8}

theorem parts?_succ (count : Nat) {bytes rest : List UInt8} {first : α} {after : Blanks} {b : UInt8}
    (read : part bytes = some (first, after.val ++ b :: rest)) (space : isSpace b = false) :
    parts? part closing (count + 1) bytes =
      if b = closing then some ([first], rest)
      else if b = 0x2C then
        (parts? part closing count rest).map fun others => (first :: others.1, others.2)
      else none := by
  simp only [parts?, read, bind, Option.bind, skipSpaces_blanks, skipSpaces_cons space, pure]
  cases parts? part closing count rest <;> rfl

theorem parts?_blanks (skips : ∀ (blank : Blanks) bytes, part (blank.val ++ bytes) = part bytes)
    (count : Nat) (blank : Blanks) (bytes : List UInt8) :
    parts? part closing count (blank.val ++ bytes) = parts? part closing count bytes := by
  cases count <;> simp only [parts?, skips]

theorem contents?_closed (count : Nat) (blank : Blanks) (space : isSpace closing = false)
    (rest : List UInt8) :
    contents? part closing count (blank.val ++ closing :: rest) = some ([], rest) := by
  simp only [contents?, skipSpaces_blanks, skipSpaces_cons space, ite_true]

theorem contents?_parts (skips : ∀ (blank : Blanks) bytes, part (blank.val ++ bytes) = part bytes)
    (count : Nat) (blank before : Blanks) {b : UInt8} {bytes : List UInt8} (space : isSpace b = false)
    (open_ : b ≠ closing) :
    contents? part closing count (blank.val ++ (before.val ++ b :: bytes)) =
      parts? part closing count (before.val ++ b :: bytes) := by
  simp only [contents?, skipSpaces_blanks, skipSpaces_cons space, open_, ite_false]
  rw [parts?_blanks skips]

end Parts

theorem member?_blanks (value : Reader Value) (blank : Blanks) (bytes : List UInt8) :
    member? value (blank.val ++ bytes) = member? value bytes := by
  simp only [member?, skipSpaces_blanks]

theorem itemsBytes_false {item : Padded Written} {items : WrittenItems} :
    itemsBytes false (item :: items) = 0x2C :: itemsBytes true (item :: items) := rfl

theorem membersBytes_false {member : Padded WrittenString × Padded Written} {members : WrittenMembers} :
    membersBytes false (member :: members) = 0x2C :: membersBytes true (member :: members) := rfl

theorem length_le_itemsBytes (first : Bool) (items : WrittenItems) :
    items.length ≤ (itemsBytes first items).length := by
  induction items generalizing first with
  | nil => exact Nat.zero_le _
  | cons item items ih =>
    obtain ⟨before, value, after⟩ := item
    have positive := value.bytes_length_pos
    have tail := ih false
    simp only [itemsBytes, List.length_append, List.length_cons]
    omega

theorem length_le_membersBytes (first : Bool) (members : WrittenMembers) :
    members.length ≤ (membersBytes first members).length := by
  induction members generalizing first with
  | nil => exact Nat.zero_le _
  | cons member members ih =>
    obtain ⟨name, before, value, after⟩ := member
    have positive := value.bytes_length_pos
    have tail := ih false
    simp only [membersBytes, List.length_append, List.length_cons]
    omega

mutual

/-- A readable value that is not nested too deep is read as what it means. -/
theorem value?_written (count depth : Nat) {rest : List UInt8} (delimited : Delimited rest) :
    ∀ written : Written, written.Readable → written.depth ≤ depth → written.bytes.length ≤ count →
      value? count depth (written.bytes ++ rest) = some (written.value, rest)
  | .null, _, _, _ => @value?_scalar .null trivial count depth _ delimited
  | .bool value, _, _, _ => @value?_scalar (.bool value) trivial count depth _ delimited
  | .number number, _, _, _ => @value?_scalar (.number number) trivial count depth _ delimited
  | .string string, _, _, _ => @value?_scalar (.string string) trivial count depth _ delimited
  | .array blank items, readable, deep, fits => by
    rw [Written.depth] at deep
    obtain ⟨below, rfl⟩ : ∃ below, depth = below + 1 := ⟨depth - 1, by omega⟩
    have inside := contents?_items count below rest items blank readable (Nat.le_of_succ_le_succ deep)
      (by simp only [Written.bytes, List.length_cons, List.length_append] at fits; omega)
    simp only [Written.bytes, List.cons_append, List.append_assoc, List.nil_append, value?,
      skipSpaces_cons (show isSpace 0x5B = false from rfl), inside, Option.map_some, Written.value]
  | .object blank members, readable, deep, fits => by
    rw [Written.depth] at deep
    obtain ⟨below, rfl⟩ : ∃ below, depth = below + 1 := ⟨depth - 1, by omega⟩
    obtain ⟨only, readable⟩ := readable
    have inside := contents?_members count below rest members blank readable
      (Nat.le_of_succ_le_succ deep)
      (by simp only [Written.bytes, List.length_cons, List.length_append] at fits; omega)
    have meant : ofMembers? (memberValues members) = some (ofMembers (memberValues members)) := by
      rcases ofMembers?_eq (memberValues members) with ⟨found, _⟩ | ⟨_, not⟩
      · exact found
      · exact absurd only not
    simp only [Written.bytes, List.cons_append, List.append_assoc, List.nil_append, value?,
      skipSpaces_cons (show isSpace 0x7B = false from rfl), inside, bind, Option.bind, meant, pure,
      Written.value]

theorem contents?_items (count depth : Nat) (rest : List UInt8) :
    ∀ (items : WrittenItems) (blank : Blanks), ItemsReadable items → itemsDepth items ≤ depth →
      (itemsBytes true items).length ≤ count →
      contents? (value? count depth) 0x5D count (blank.val ++ (itemsBytes true items ++ 0x5D :: rest)) =
        some (itemValues items, rest)
  | [], blank, _, _, _ => contents?_closed count blank rfl rest
  | ⟨before, value, after⟩ :: items, blank, readable, deep, fits => by
    have read := parts?_items count depth rest (⟨before, value, after⟩ :: items) readable deep fits
      (List.cons_ne_nil _ _) count (Nat.le_trans (length_le_itemsBytes true _) fits)
    obtain ⟨b, tail, split, leads⟩ := value.exists_lead
    simp only [itemsBytes, separator, ite_true, List.nil_append, split, List.cons_append,
      List.append_assoc] at read ⊢
    rw [contents?_parts (value?_blanks count depth) count blank before leads.starts.1
      leads.starts.2.2.1, read]

theorem parts?_items (count depth : Nat) (rest : List UInt8) :
    ∀ items : WrittenItems, ItemsReadable items → itemsDepth items ≤ depth →
      (itemsBytes true items).length ≤ count → items ≠ [] → ∀ parts, items.length ≤ parts →
      parts? (value? count depth) 0x5D parts (itemsBytes true items ++ 0x5D :: rest) =
        some (itemValues items, rest)
  | [], _, _, _, present, _, _ => absurd rfl present
  | ⟨before, value, after⟩ :: items, ⟨readable, others⟩, deep, fits, _, parts, enough => by
    rw [itemsDepth] at deep
    have sizes : value.bytes.length ≤ count ∧ (itemsBytes false items).length ≤ count := by
      simp only [itemsBytes, List.length_append] at fits
      omega
    have read := value?_written count depth
      (delimited_blanks after (delimited_items items rest)) value readable (by omega) sizes.1
    rw [← value?_blanks count depth before] at read
    obtain ⟨left, rfl⟩ : ∃ left, parts = left + 1 := by
      rw [List.length_cons] at enough
      exact ⟨parts - 1, by omega⟩
    simp only [itemsBytes, separator, ite_true, List.nil_append, List.append_assoc]
    cases items with
    | nil => rw [parts?_succ left read rfl, if_pos rfl]; rfl
    | cons next items =>
      have tail := parts?_items count depth rest (next :: items) others (by omega)
        (by rw [itemsBytes_false, List.length_cons] at sizes; omega) (List.cons_ne_nil _ _) left
        (Nat.le_of_succ_le_succ enough)
      rw [itemsBytes_false, List.cons_append] at read ⊢
      rw [parts?_succ left read rfl, if_neg (by decide), if_pos rfl, tail]
      rfl

theorem contents?_members (count depth : Nat) (rest : List UInt8) :
    ∀ (members : WrittenMembers) (blank : Blanks), MembersReadable members →
      membersDepth members ≤ depth → (membersBytes true members).length ≤ count →
      contents? (member? (value? count depth)) 0x7D count
          (blank.val ++ (membersBytes true members ++ 0x7D :: rest)) =
        some (memberValues members, rest)
  | [], blank, _, _, _ => contents?_closed count blank rfl rest
  | (name, ⟨before, value, after⟩) :: members, blank, readable, deep, fits => by
    have read := parts?_members count depth rest ((name, ⟨before, value, after⟩) :: members) readable
      deep fits (List.cons_ne_nil _ _) count (Nat.le_trans (length_le_membersBytes true _) fits)
    simp only [membersBytes, separator, ite_true, List.nil_append, nameBytes, WrittenString.quoted,
      List.cons_append, List.append_assoc] at read ⊢
    rw [contents?_parts (member?_blanks _) count blank name.before rfl (by decide), read]

theorem parts?_members (count depth : Nat) (rest : List UInt8) :
    ∀ members : WrittenMembers, MembersReadable members → membersDepth members ≤ depth →
      (membersBytes true members).length ≤ count → members ≠ [] → ∀ parts, members.length ≤ parts →
      parts? (member? (value? count depth)) 0x7D parts (membersBytes true members ++ 0x7D :: rest) =
        some (memberValues members, rest)
  | [], _, _, _, present, _, _ => absurd rfl present
  | (name, ⟨before, value, after⟩) :: members, ⟨readable, others⟩, deep, fits, _, parts, enough => by
    rw [membersDepth] at deep
    have sizes : value.bytes.length ≤ count ∧ (membersBytes false members).length ≤ count := by
      simp only [membersBytes, List.length_append] at fits
      omega
    have read := value?_written count depth
      (delimited_blanks after (delimited_members members rest)) value readable (by omega) sizes.1
    rw [← value?_blanks count depth before] at read
    have read := member?_written name read
    obtain ⟨left, rfl⟩ : ∃ left, parts = left + 1 := by
      rw [List.length_cons] at enough
      exact ⟨parts - 1, by omega⟩
    simp only [membersBytes, separator, ite_true, List.nil_append, List.append_assoc]
    cases members with
    | nil => rw [parts?_succ left read rfl, if_pos rfl]; rfl
    | cons next members =>
      have tail := parts?_members count depth rest (next :: members) others (by omega)
        (by rw [membersBytes_false, List.length_cons] at sizes; omega) (List.cons_ne_nil _ _) left
        (Nat.le_of_succ_le_succ enough)
      rw [membersBytes_false, List.cons_append] at read ⊢
      rw [parts?_succ left read rfl, if_neg (by decide), if_pos rfl, tail]
      rfl

end

end EpcisDigest.Json
