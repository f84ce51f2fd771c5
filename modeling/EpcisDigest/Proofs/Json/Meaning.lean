import EpcisDigest.Proofs.Json.Reading

namespace EpcisDigest.Json

mutual

/-- What a text says by the grammar alone: every member of an object counts, in its place, and no name is special. -/
def Written.plain : Written → Value
  | .null => .null
  | .bool value => .bool value
  | .number number => .number number.literal
  | .string string => .string string.text
  | .array _ items => .array (plainItems items)
  | .object _ members => .object (plainMembers members)

def plainItems : WrittenItems → List Value
  | [] => []
  | ⟨_, value, _⟩ :: items => value.plain :: plainItems items

def plainMembers : WrittenMembers → List (String × Value)
  | [] => []
  | (name, ⟨_, value, _⟩) :: members => (name.inner.text, value.plain) :: plainMembers members

end

theorem Written.IsScalar.plain {written : Written} (isScalar : written.IsScalar) : written.plain = written.value := by
  cases written with
  | array blank items => exact isScalar.elim
  | object blank members => exact isScalar.elim
  | _ => rfl

namespace Written.Leads

variable {written : Written} {b : UInt8}

theorem array (leads : written.Leads 0x5B) : ∃ blank items, written = .array blank items := by
  cases written with
  | array blank items => exact ⟨blank, items, rfl⟩
  | bool value => cases value <;> cases leads
  | number number => rcases leads with same | digit <;> contradiction
  | _ => cases leads

theorem object (leads : written.Leads 0x7B) : ∃ blank members, written = .object blank members := by
  cases written with
  | object blank members => exact ⟨blank, members, rfl⟩
  | bool value => cases value <;> cases leads
  | number number => rcases leads with same | digit <;> contradiction
  | _ => cases leads

theorem isScalar (leads : written.Leads b) (other : b ≠ 0x5B ∧ b ≠ 0x7B) : written.IsScalar := by
  cases written with
  | array blank items => exact other.1 leads
  | object blank members => exact other.2 leads
  | _ => trivial

end Written.Leads

section Cancel

variable {rest rest' : List UInt8}

theorem skipSpaces_congr {blank blank' : Blanks} (same : blank.val ++ rest = blank'.val ++ rest') :
    skipSpaces rest = skipSpaces rest' := by
  have skipped := congrArg skipSpaces same
  rwa [skipSpaces_blanks, skipSpaces_blanks] at skipped

theorem cons_inj_blanks {blank blank' : Blanks} {b b' : UInt8} (space : isSpace b = false) (space' : isSpace b' = false)
    (same : blank.val ++ b :: rest = blank'.val ++ b' :: rest') : b = b' ∧ rest = rest' := by
  have skipped := skipSpaces_congr same
  rw [skipSpaces_cons space, skipSpaces_cons space'] at skipped
  exact List.cons.inj skipped

theorem exists_leads (written written' : Written) (same : written.bytes ++ rest = written'.bytes ++ rest') :
    ∃ b, written.Leads b ∧ written'.Leads b := by
  obtain ⟨b, tail, split, leads⟩ := written.exists_lead
  obtain ⟨b', tail', split', leads'⟩ := written'.exists_lead
  rw [split, split', List.cons_append, List.cons_append] at same
  obtain ⟨rfl, -⟩ := List.cons.inj same
  exact ⟨b, leads, leads'⟩

theorem nameBytes_inj {name name' : Padded WrittenString}
    (same : skipSpaces (nameBytes name ++ rest) = skipSpaces (nameBytes name' ++ rest')) :
    name.inner.text = name'.inner.text ∧ rest = rest' := by
  have skipped : ∀ (value : Reader Value) bytes, member? value bytes = member? value (skipSpaces bytes) := by
    intro value bytes
    obtain ⟨blank, split⟩ := exists_blanks bytes
    conv => lhs; rw [split]
    exact member?_blanks value blank _
  have read := congrArg (member? fun bytes => some (.null, bytes)) same
  rw [← skipped, ← skipped, member?_named, member?_named] at read
  injection read with read
  injection read with named behind
  exact ⟨congrArg Prod.fst named, behind⟩

end Cancel

section Parts

variable {blank blank' : Blanks} {rest rest' : List UInt8} {first : Bool}

theorem ne_closing_items (item : Padded Written) (items : WrittenItems) :
    blank.val ++ 0x5D :: rest ≠ blank'.val ++ (itemsBytes first (item :: items) ++ rest') := by
  intro same
  obtain ⟨before, value, after⟩ := item
  have skipped := skipSpaces_congr same
  rw [skipSpaces_cons rfl] at skipped
  cases first with
  | true =>
    obtain ⟨b, tail, split, leads⟩ := value.exists_lead
    simp only [itemsBytes, separator, ite_true, List.nil_append, List.append_assoc, skipSpaces_blanks,
      skipSpaces_written] at skipped
    rw [split, List.cons_append] at skipped
    exact leads.starts.2.2.1 (List.cons.inj skipped).1.symm
  | false =>
    rw [itemsBytes_false, List.cons_append, skipSpaces_cons rfl] at skipped
    cases (List.cons.inj skipped).1

theorem ne_closing_members (member : Padded WrittenString × Padded Written) (members : WrittenMembers) :
    blank.val ++ 0x7D :: rest ≠ blank'.val ++ (membersBytes first (member :: members) ++ rest') := by
  intro same
  obtain ⟨name, before, value, after⟩ := member
  have skipped := skipSpaces_congr same
  rw [skipSpaces_cons rfl] at skipped
  cases first with
  | true =>
    simp only [membersBytes, separator, ite_true, List.nil_append, List.append_assoc, nameBytes, skipSpaces_blanks,
      WrittenString.quoted, List.cons_append] at skipped
    rw [skipSpaces_cons rfl] at skipped
    cases (List.cons.inj skipped).1
  | false =>
    rw [membersBytes_false, List.cons_append, skipSpaces_cons rfl] at skipped
    cases (List.cons.inj skipped).1

theorem items_begin {item item' : Padded Written} {items items' : WrittenItems}
    (same : blank.val ++ (itemsBytes first (item :: items) ++ rest) =
      blank'.val ++ (itemsBytes first (item' :: items') ++ rest')) :
    skipSpaces (itemsBytes true (item :: items) ++ rest) = skipSpaces (itemsBytes true (item' :: items') ++ rest') := by
  cases first with
  | true => exact skipSpaces_congr same
  | false =>
    rw [itemsBytes_false, itemsBytes_false] at same
    exact congrArg skipSpaces (cons_inj_blanks rfl rfl same).2

theorem members_begin {member member' : Padded WrittenString × Padded Written} {members members' : WrittenMembers}
    (same : blank.val ++ (membersBytes first (member :: members) ++ rest) =
      blank'.val ++ (membersBytes first (member' :: members') ++ rest')) :
    skipSpaces (membersBytes true (member :: members) ++ rest) =
      skipSpaces (membersBytes true (member' :: members') ++ rest') := by
  cases first with
  | true => exact skipSpaces_congr same
  | false =>
    rw [membersBytes_false, membersBytes_false] at same
    exact congrArg skipSpaces (cons_inj_blanks rfl rfl same).2

end Parts

theorem plain_unique_scalar {written written' : Written} (isScalar : written.IsScalar) {rest rest' : List UInt8}
    (delimited : Delimited rest) (delimited' : Delimited rest')
    (same : written.bytes ++ rest = written'.bytes ++ rest') : written.plain = written'.plain ∧ rest = rest' := by
  obtain ⟨b, leads, leads'⟩ := exists_leads _ _ same
  have isScalar' := leads'.isScalar (leads.scalar isScalar)
  have read := scalar?_written isScalar delimited
  rw [same, scalar?_written isScalar' delimited'] at read
  injection read with read
  injection read with value_eq rest_eq
  exact ⟨by rw [isScalar.plain, isScalar'.plain, value_eq], rest_eq.symm⟩

mutual

/-- No text says two things, and where it ends is clear from the byte behind it. -/
theorem plain_unique : ∀ (written written' : Written) {rest rest' : List UInt8}, Delimited rest → Delimited rest' →
    written.bytes ++ rest = written'.bytes ++ rest' → written.plain = written'.plain ∧ rest = rest'
  | .array blank items, written', rest, rest', _, _, same => by
    obtain ⟨b, leads, leads'⟩ := exists_leads _ _ same
    cases leads
    obtain ⟨blank', items', rfl⟩ := leads'.array
    simp only [Written.bytes, List.cons_append, List.append_assoc, List.nil_append, List.cons.injEq, true_and] at same
    obtain ⟨values, rest_eq⟩ := plainItems_unique true items items' same
    exact ⟨congrArg Value.array values, rest_eq⟩
  | .object blank members, written', rest, rest', _, _, same => by
    obtain ⟨b, leads, leads'⟩ := exists_leads _ _ same
    cases leads
    obtain ⟨blank', members', rfl⟩ := leads'.object
    simp only [Written.bytes, List.cons_append, List.append_assoc, List.nil_append, List.cons.injEq, true_and] at same
    obtain ⟨values, rest_eq⟩ := plainMembers_unique true members members' same
    exact ⟨congrArg Value.object values, rest_eq⟩
  | .null, _, _, _, delimited, delimited', same => @plain_unique_scalar (.null) _ trivial _ _ delimited delimited' same
  | .bool part, _, _, _, delimited, delimited', same => @plain_unique_scalar (.bool part) _ trivial _ _ delimited delimited' same
  | .number part, _, _, _, delimited, delimited', same => @plain_unique_scalar (.number part) _ trivial _ _ delimited delimited' same
  | .string part, _, _, _, delimited, delimited', same => @plain_unique_scalar (.string part) _ trivial _ _ delimited delimited' same

theorem plainItems_unique (first : Bool) : ∀ (items items' : WrittenItems) {blank blank' : Blanks}
    {rest rest' : List UInt8}, blank.val ++ (itemsBytes first items ++ 0x5D :: rest) =
      blank'.val ++ (itemsBytes first items' ++ 0x5D :: rest') → plainItems items = plainItems items' ∧ rest = rest'
  | [], [], _, _, _, _, same => ⟨rfl, (cons_inj_blanks rfl rfl same).2⟩
  | [], item :: items, _, _, _, _, same => absurd same (ne_closing_items item items)
  | item :: items, [], _, _, _, _, same => absurd same.symm (ne_closing_items item items)
  | ⟨before, value, after⟩ :: items, ⟨before', value', after'⟩ :: items', _, _, rest, rest', same => by
    have begun := items_begin same
    simp only [itemsBytes, separator, ite_true, List.nil_append, List.append_assoc, skipSpaces_blanks,
      skipSpaces_written] at begun
    obtain ⟨value_eq, behind⟩ := plain_unique value value' (delimited_blanks after (delimited_items items rest))
      (delimited_blanks after' (delimited_items items' rest')) begun
    obtain ⟨values, rest_eq⟩ := plainItems_unique false items items' behind
    exact ⟨by rw [plainItems, plainItems, value_eq, values], rest_eq⟩

theorem plainMembers_unique (first : Bool) : ∀ (members members' : WrittenMembers) {blank blank' : Blanks}
    {rest rest' : List UInt8}, blank.val ++ (membersBytes first members ++ 0x7D :: rest) =
      blank'.val ++ (membersBytes first members' ++ 0x7D :: rest') →
    plainMembers members = plainMembers members' ∧ rest = rest'
  | [], [], _, _, _, _, same => ⟨rfl, (cons_inj_blanks rfl rfl same).2⟩
  | [], member :: members, _, _, _, _, same => absurd same (ne_closing_members member members)
  | member :: members, [], _, _, _, _, same => absurd same.symm (ne_closing_members member members)
  | (name, ⟨before, value, after⟩) :: members, (name', ⟨before', value', after'⟩) :: members', _, _, rest, rest',
      same => by
    have begun := members_begin same
    simp only [membersBytes, separator, ite_true, List.nil_append, List.append_assoc] at begun
    obtain ⟨name_eq, valued⟩ := nameBytes_inj begun
    have valued := skipSpaces_congr valued
    rw [skipSpaces_written, skipSpaces_written] at valued
    obtain ⟨value_eq, behind⟩ := plain_unique value value' (delimited_blanks after (delimited_members members rest))
      (delimited_blanks after' (delimited_members members' rest')) valued
    obtain ⟨values, rest_eq⟩ := plainMembers_unique false members members' behind
    exact ⟨by rw [plainMembers, plainMembers, name_eq, value_eq, values], rest_eq⟩

end

def Denotes (text : String) (value : Value) : Prop :=
  ∃ padded : Padded Written, Text.bytesOf text = padded.before.val ++ (padded.inner.bytes ++ padded.after.val) ∧
    padded.inner.plain = value

theorem delimited_end (blank : Blanks) : Delimited blank.val := by
  have ends := delimited_blanks blank (show Delimited [] from fun b head => by cases head)
  rwa [List.append_nil] at ends

theorem Denotes.unique {text : String} {value value' : Value} (denotes : Denotes text value)
    (denotes' : Denotes text value') : value = value' := by
  obtain ⟨⟨before, written, after⟩, split, rfl⟩ := denotes
  obtain ⟨⟨before', written', after'⟩, split', rfl⟩ := denotes'
  have same := skipSpaces_congr (split.symm.trans split')
  rw [skipSpaces_written, skipSpaces_written] at same
  exact (plain_unique written written' (delimited_end after) (delimited_end after') same).1

end EpcisDigest.Json
