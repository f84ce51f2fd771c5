import EpcisDigest.Proofs.Json.Written

namespace EpcisDigest.Json

/-- What may stand between the quotes of a string. A code may be half of a surrogate pair that has no
    other half, so that there are such texts of no `WrittenString`. -/
inductive Quotable : List UInt8 → Prop where
  | nil : Quotable []
  | plain {bytes : List UInt8} (c : Char) (allowed : 0x20 ≤ c.toNat ∧ c ≠ '"' ∧ c ≠ '\\')
      (others : Quotable bytes) : Quotable (String.utf8EncodeChar c ++ bytes)
  | short {bytes : List UInt8} (escape : ShortEscape) (others : Quotable bytes) :
      Quotable (0x5C :: escape.letter :: bytes)
  | code {bytes : List UInt8} (code : HexCode) (others : Quotable bytes) :
      Quotable (0x5C :: 0x75 :: (code.bytes ++ bytes))

def inQuotes (bytes : List UInt8) : List UInt8 := 0x22 :: (bytes ++ [0x22])

inductive Part where
  | value
  | items (first : Bool)
  | members (first : Bool)

inductive Wellformed : Part → List UInt8 → Prop where
  | null : Wellformed .value (Text.bytesOf "null")
  | bool (value : Bool) : Wellformed .value (Text.bytesOf (if value then "true" else "false"))
  | number (number : WrittenNumber) : Wellformed .value number.bytes
  | string {text : List UInt8} (body : Quotable text) : Wellformed .value (inQuotes text)
  | array {items : List UInt8} (blank : Blanks) (inside : Wellformed (.items true) items) :
      Wellformed .value (0x5B :: (blank.val ++ items ++ [0x5D]))
  | object {members : List UInt8} (blank : Blanks) (inside : Wellformed (.members true) members) :
      Wellformed .value (0x7B :: (blank.val ++ members ++ [0x7D]))
  | noItems {first : Bool} : Wellformed (.items first) []
  | item {first : Bool} {value items : List UInt8} (before after : Blanks) (one : Wellformed .value value)
      (others : Wellformed (.items false) items) :
      Wellformed (.items first) (separator first ++ (before.val ++ (value ++ (after.val ++ items))))
  | noMembers {first : Bool} : Wellformed (.members first) []
  | member {first : Bool} {name value members : List UInt8} (outer inner before after : Blanks)
      (named : Quotable name) (one : Wellformed .value value)
      (others : Wellformed (.members false) members) :
      Wellformed (.members first) (separator first ++ (outer.val ++ (inQuotes name ++ (inner.val ++ (0x3A ::
        (before.val ++ (value ++ (after.val ++ members))))))))

theorem quotable_of_writtenString (string : WrittenString) : Quotable string.bytes := by
  induction string with
  | nil => exact .nil
  | cons c string ih =>
    have bytes : WrittenString.bytes (c :: string) = c.bytes ++ WrittenString.bytes string := rfl
    rw [bytes]
    cases c with
    | plain c allowed => exact .plain c allowed ih
    | short escape => exact .short escape ih
    | coded code single => exact .code code ih
    | paired high low surrogates =>
      simp only [WrittenChar.bytes, List.cons_append, List.append_assoc]
      exact .code high (.code low ih)

mutual

theorem Written.wellformed : ∀ written : Written, Wellformed .value written.bytes
  | .null => .null
  | .bool true => .bool true
  | .bool false => .bool false
  | .number number => .number number
  | .string string => .string (quotable_of_writtenString string)
  | .array blank items => by
    rw [Written.bytes, ← List.append_assoc]
    exact .array blank (wellformed_items true items)
  | .object blank members => by
    rw [Written.bytes, ← List.append_assoc]
    exact .object blank (wellformed_members true members)

theorem wellformed_items : ∀ (first : Bool) (items : WrittenItems),
    Wellformed (.items first) (itemsBytes first items)
  | _, [] => .noItems
  | _, ⟨before, value, after⟩ :: items => .item before after value.wellformed (wellformed_items false items)

theorem wellformed_members : ∀ (first : Bool) (members : WrittenMembers),
    Wellformed (.members first) (membersBytes first members)
  | _, [] => .noMembers
  | first, (name, ⟨before, value, after⟩) :: members => by
    have others := wellformed_members false members
    have named := quotable_of_writtenString name.inner
    have whole := @Wellformed.member first _ _ _ name.before name.after before after named value.wellformed others
    simpa only [membersBytes, nameBytes, WrittenString.quoted, inQuotes, List.cons_append, List.append_assoc,
      List.nil_append] using whole

end

end EpcisDigest.Json
