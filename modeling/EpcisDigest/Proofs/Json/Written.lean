import EpcisDigest.Json.Parse
import EpcisDigest.Proofs.Json.Numeral
import EpcisDigest.Proofs.Json.StringScan

namespace EpcisDigest.Json

abbrev Blanks := { bytes : List UInt8 // ∀ b ∈ bytes, isSpace b = true }

structure Padded (α : Type) where
  before : Blanks
  inner : α
  after : Blanks

inductive Written where
  | null
  | bool (value : Bool)
  | number (number : WrittenNumber)
  | string (string : WrittenString)
  | array (blank : Blanks) (items : List (Padded Written))
  | object (blank : Blanks) (members : List (Padded WrittenString × Padded Written))

abbrev WrittenItems := List (Padded Written)

abbrev WrittenMembers := List (Padded WrittenString × Padded Written)

def WrittenString.quoted (string : WrittenString) : List UInt8 :=
  0x22 :: (string.bytes ++ [0x22])

def separator (first : Bool) : List UInt8 := if first then [] else [0x2C]

def nameBytes (name : Padded WrittenString) : List UInt8 :=
  name.before.val ++ (name.inner.quoted ++ (name.after.val ++ [0x3A]))

mutual

def Written.bytes : Written → List UInt8
  | .null => Text.bytesOf "null"
  | .bool true => Text.bytesOf "true"
  | .bool false => Text.bytesOf "false"
  | .number number => number.bytes
  | .string string => string.quoted
  | .array blank items => 0x5B :: (blank.val ++ (itemsBytes true items ++ [0x5D]))
  | .object blank members => 0x7B :: (blank.val ++ (membersBytes true members ++ [0x7D]))

def itemsBytes (first : Bool) : WrittenItems → List UInt8
  | [] => []
  | ⟨before, value, after⟩ :: items =>
    separator first ++ (before.val ++ (value.bytes ++ (after.val ++ itemsBytes false items)))

def membersBytes (first : Bool) : WrittenMembers → List UInt8
  | [] => []
  | (name, ⟨before, value, after⟩) :: members =>
    separator first ++ (nameBytes name ++ (before.val ++ (value.bytes ++
      (after.val ++ membersBytes false members))))

end

mutual

def Written.depth : Written → Nat
  | .array _ items => itemsDepth items + 1
  | .object _ members => membersDepth members + 1
  | _ => 0

def itemsDepth : WrittenItems → Nat
  | [] => 0
  | ⟨_, value, _⟩ :: items => max value.depth (itemsDepth items)

def membersDepth : WrittenMembers → Nat
  | [] => 0
  | (_, ⟨_, value, _⟩) :: members => max value.depth (membersDepth members)

end

/-- The literal of the number that an object stands for: its only member has the name for numbers and
    holds the text of one. -/
def numberText? : List (String × Value) → Option String
  | [(name, .string text)] => if name = numberName then literal? text else none
  | _ => none

def ofMembers (members : List (String × Value)) : Value :=
  match numberText? members with
  | some literal => .number literal
  | none => .object (Entries.ofList members)

mutual

def Written.value : Written → Value
  | .null => .null
  | .bool value => .bool value
  | .number number => .number number.literal
  | .string string => .string string.text
  | .array _ items => .array (itemValues items)
  | .object _ members => ofMembers (memberValues members)

def itemValues : WrittenItems → List Value
  | [] => []
  | ⟨_, value, _⟩ :: items => value.value :: itemValues items

def memberValues : WrittenMembers → List (String × Value)
  | [] => []
  | (name, ⟨_, value, _⟩) :: members => (name.inner.text, value.value) :: memberValues members

end

def NumberOnly (members : List (String × Value)) : Prop :=
  members.head?.map Prod.fst = some numberName → (numberText? members).isSome

mutual

/-- The name for numbers comes first in no object that does not stand for a number. -/
def Written.Readable : Written → Prop
  | .array _ items => ItemsReadable items
  | .object _ members => NumberOnly (memberValues members) ∧ MembersReadable members
  | _ => True

def ItemsReadable : WrittenItems → Prop
  | [] => True
  | ⟨_, value, _⟩ :: items => value.Readable ∧ ItemsReadable items

def MembersReadable : WrittenMembers → Prop
  | [] => True
  | (_, ⟨_, value, _⟩) :: members => value.Readable ∧ MembersReadable members

end

def Written.Leads (b : UInt8) : Written → Prop
  | .null => b = 0x6E
  | .bool true => b = 0x74
  | .bool false => b = 0x66
  | .number _ => b = 0x2D ∨ isDigit b = true
  | .string _ => b = 0x22
  | .array _ _ => b = 0x5B
  | .object _ _ => b = 0x7B

theorem Written.exists_lead (written : Written) :
    ∃ b tail, written.bytes = b :: tail ∧ written.Leads b := by
  cases written with
  | null => exact ⟨_, _, rfl, rfl⟩
  | bool value => cases value <;> exact ⟨_, _, rfl, rfl⟩
  | number number =>
    obtain ⟨b, digits, split⟩ := List.exists_cons_of_ne_nil number.whole.property.1
    have bytes : (Written.number number).bytes = number.signBytes ++ b :: (digits ++
        (fractionBytes number.fraction ++ number.exponent.elim [] WrittenExponent.bytes)) := by
      simp only [Written.bytes, WrittenNumber.bytes, split, List.append_assoc, List.cons_append]
    rw [bytes, WrittenNumber.signBytes]
    cases number.isNegative with
    | true => exact ⟨_, _, rfl, .inl rfl⟩
    | false => exact ⟨_, _, rfl, .inr (isDigit_head split)⟩
  | string string => exact ⟨_, _, by rw [Written.bytes, WrittenString.quoted], rfl⟩
  | array blank items => exact ⟨_, _, by rw [Written.bytes], rfl⟩
  | object blank members => exact ⟨_, _, by rw [Written.bytes], rfl⟩

theorem Written.bytes_length_pos (written : Written) : 0 < written.bytes.length := by
  obtain ⟨b, tail, split, _⟩ := written.exists_lead
  rw [split]
  exact Nat.succ_pos _

theorem Written.Leads.starts {written : Written} {b : UInt8} (leads : written.Leads b) :
    isSpace b = false ∧ b ≠ 0x2C ∧ b ≠ 0x5D ∧ b ≠ 0x7D := by
  cases written with
  | bool value => cases value <;> (cases leads; decide)
  | number number =>
    rcases leads with rfl | digit
    · decide
    · have bounds : 0x30 ≤ b.toNat ∧ b.toNat ≤ 0x39 := by
        simpa [isDigit, UInt8.le_iff_toNat_le] using digit
      simp only [isSpace, Bool.or_eq_false_iff, beq_eq_false_iff_ne, ne_eq, ← UInt8.toNat_inj,
        UInt8.reduceToNat]
      omega
  | _ => cases leads; decide

theorem ofMembers?_eq (members : List (String × Value)) :
    ofMembers? members = some (ofMembers members) ∧ NumberOnly members ∨
      ofMembers? members = none ∧ ¬ NumberOnly members := by
  cases members with
  | nil => exact .inl ⟨rfl, fun h => by cases h⟩
  | cons member others =>
    obtain ⟨name, value⟩ := member
    by_cases isNumber : name = numberName
    · subst isNumber
      cases read : numberText? ((numberName, value) :: others) with
      | none =>
        right
        refine ⟨?_, fun only => by simpa [read] using only rfl⟩
        cases value with
        | string text =>
          cases others with
          | nil =>
            simp only [numberText?, ite_true] at read
            simp only [ofMembers?, ite_true, read, Option.map_none]
          | cons other others => simp only [ofMembers?, ite_true]
        | _ => simp only [ofMembers?, ite_true]
      | some literal =>
        left
        refine ⟨?_, fun _ => by rw [read]; rfl⟩
        unfold numberText? at read
        split at read
        · rename_i same
          injection same with head tail
          injection head with name_eq value_eq
          subst name_eq value_eq tail
          rw [if_pos rfl] at read
          simp only [ofMembers?, ite_true, read, Option.map_some, ofMembers, numberText?]
        · cases read
    · left
      have plain : numberText? ((name, value) :: others) = none := by
        unfold numberText?
        split
        · rename_i same
          injection same with head tail
          injection head with name_eq _
          rw [← name_eq, if_neg isNumber]
        · rfl
      refine ⟨?_, fun h => absurd (Option.some.inj h) isNumber⟩
      simp only [ofMembers?, isNumber, ite_false, ofMembers, plain]

end EpcisDigest.Json
