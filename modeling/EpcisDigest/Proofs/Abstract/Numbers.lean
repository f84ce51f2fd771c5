import EpcisDigest.Proofs.Abstract.Agreement
import EpcisDigest.Proofs.Json.MemberOrder
import EpcisDigest.Proofs.Json.Reading

namespace EpcisDigest.Json

open Value (Within)

theorem latin1_injective : Function.Injective Text.latin1 := by
  intro b c same
  have small : (Text.latin1 c).toNat < 256 := by
    have bound := c.toNat_lt
    rw [Text.latin1, Char.ofNat, dif_pos (Or.inl (by omega))]
    exact bound
  exact ((ShortEscape.latin1_eq_iff small).mp same).trans ((ShortEscape.latin1_eq_iff small).mp rfl).symm

def WrittenExponent.isSettled (exponent : WrittenExponent) : Bool :=
  !exponent.isUpper && exponent.isNegative.isSome

namespace WrittenNumber

def isSettled (number : WrittenNumber) : Bool := number.exponent.all WrittenExponent.isSettled

def text (number : WrittenNumber) : String := String.ofList (number.bytes.map Text.latin1)

/-- Only an exponent with a large letter or without a sign is not kept as it is written. -/
theorem literal_eq_text_iff (number : WrittenNumber) : number.literal = number.text ↔ number.isSettled = true := by
  obtain ⟨isNegative, whole, leading, fraction, exponent⟩ := number
  rw [literal, text, bytes, String.ofList_inj, List.map_inj_right fun _ _ same => latin1_injective same,
    List.append_cancel_left_eq, isSettled]
  cases exponent with
  | none => simp
  | some exponent =>
    obtain ⟨isUpper, sign, digits⟩ := exponent
    rcases sign with _ | _ | _ <;> cases isUpper <;>
      simp [WrittenExponent.literalBytes, WrittenExponent.bytes, WrittenExponent.letter, WrittenExponent.isSettled]

theorem parse?_bytes (number : WrittenNumber) : parse? number.bytes = some (.number number.literal) := by
  refine parse?_eq_some_iff.mpr ⟨⟨.none, .number number, .none⟩, ?_, Nat.zero_le _, trivial, rfl⟩
  exact (List.append_nil _).symm

end WrittenNumber

inductive Unquoted (literal : String) : Value → Value → Prop where
  | text : Unquoted literal (.string literal) (.number literal)

/-- In some places, at any depth, this text is written without quotes. -/
def Bared (literal : String) : Value → Value → Prop := Relation.ReflTransGen (Within (Unquoted literal))

section Bared

variable (settings : Settings) {literal : String}

structure SameFields (value value' : Value) : Prop where
  member : ∀ name, memberFields settings name value' = memberFields settings name value
  item : ∀ style name, itemFields settings style name [value'] = itemFields settings style name [value]

theorem Related.sameFields {value value' : Value} (related : Related settings Eq Eq value value') :
    SameFields settings value value' :=
  ⟨fun name => (related.memberFields congruence_eq name).symm,
    fun style name => (related.itemFields congruence_eq style name).symm⟩

theorem sameFields_members (before after : List (String × Value)) (name : String) {value value' : Value}
    (same : SameFields settings value value') :
    objectFields settings (before ++ (name, value') :: after) = objectFields settings (before ++ (name, value) :: after) := by
  rw [objectFields_append, objectFields_append, objectFields, objectFields, same.member]

theorem sameFields_items (before after : List Value) {value value' : Value} (same : SameFields settings value value')
    (style : ListStyle) (name : String) :
    itemFields settings style name (before ++ value' :: after) = itemFields settings style name (before ++ value :: after) := by
  rw [itemFields_append, itemFields_append, itemFields_cons, itemFields_cons settings style name value, same.item]

theorem sameFields_within {value value' : Value} (within : Within (Unquoted literal) value value') :
    SameFields settings value value' := by
  induction within with
  | here unquoted =>
    cases unquoted
    refine ⟨fun _ => rfl, fun style name => ?_⟩
    cases style <;> rfl
  | member before after name within ih =>
    exact Related.sameFields settings (.object (sameFields_members settings before after name ih).symm)
  | item before after within ih =>
    exact Related.sameFields settings (.array fun style name => (sameFields_items settings before after ih style name).symm)

theorem get?_eq_none_iff (name : String) (members : List (String × Value)) :
    Entries.get? name members = none ↔ ∀ member ∈ members, member.1 ≠ name := by
  simp [Entries.get?]

theorem eventTree_contextless (namespaces : Namespaces) {members : List (String × Value)}
    (contextless : Entries.get? "@context" members = none) :
    eventTree settings namespaces (.object members) =
      .ok (EventTree.ofFields namespaces (objectFields settings members)) := by
  have absent : Value.member? "@context" (.object members) = none := contextless
  rw [eventTree, absent]

theorem eventTree_bared (namespaces : Namespaces) {members : List (String × Value)}
    (contextless : Entries.get? "@context" members = none) {value : Value} (bared : Bared literal (.object members) value) :
    eventTree settings namespaces value = eventTree settings namespaces (.object members) := by
  have shape : ∃ members', value = .object members' ∧ Entries.get? "@context" members' = none ∧
      objectFields settings members' = objectFields settings members := by
    induction bared with
    | refl => exact ⟨members, rfl, contextless, rfl⟩
    | tail _ within ih =>
      obtain ⟨between, rfl, contextless, fields⟩ := ih
      cases within with
      | here unquoted => cases unquoted
      | member before after name within =>
        rw [get?_eq_none_iff] at contextless
        have other := contextless (name, _) List.mem_append_cons_self
        refine ⟨_, rfl, (get?_eq_none_iff _ _).mpr (forall_mem_replaced contextless other), ?_⟩
        exact (sameFields_members settings before after name (sameFields_within settings within)).trans fields
  obtain ⟨members', rfl, contextless', fields⟩ := shape
  rw [eventTree_contextless settings namespaces contextless', eventTree_contextless settings namespaces contextless, fields]

end Bared

end EpcisDigest.Json

namespace EpcisDigest.Abstract

open Json (Bared WrittenNumber)

/-- A number in JSON, whatever its length, counts as the text in XML that is written in the same way, but for the
    exponent, which counts as one with a small letter and a sign. -/
theorem formats_agree_number (settings : Settings) (namespaces : Namespaces) (number : WrittenNumber) {event : Event}
    (wellFormed : event.WellFormed namespaces) (keeps : event.KeepsPairs settings) (depth : Nat) {value : Json.Value}
    (bared : Bared number.literal event.value value) :
    Json.parse? number.bytes = some (.number number.literal) ∧
    (number.literal = number.text ↔ number.isSettled = true) ∧
    ∃ fromXml fromJson,
      Xml.Builder.run settings ⟨namespaces, [], depth, 0⟩ event.element.steps =
        ([fromXml], none, ⟨namespaces, [], depth, 0⟩) ∧
      Json.eventTree settings namespaces value = .ok fromJson ∧
      fromXml.canonicalForm settings = fromJson.canonicalForm settings ∧
      hashTree settings fromXml = hashValue settings namespaces value := by
  refine ⟨number.parse?_bytes, number.literal_eq_text_iff, ?_⟩
  obtain ⟨fromXml, fromJson, inXml, inJson, _, forms⟩ := event_agrees settings namespaces wellFormed keeps depth
  have contextless : Entries.get? "@context" (("type", .string event.type) :: memberValues event.members) = none := by
    rw [Json.get?_eq_none_iff, List.forall_mem_cons]
    have typed : "type" ≠ "@context" := by decide
    exact ⟨typed, (Json.get?_eq_none_iff _ _).mp (Abstract.contextless namespaces wellFormed.2)⟩
  have same := Json.eventTree_bared settings namespaces contextless bared
  have tree : Json.eventTree settings namespaces value = .ok fromJson := same.trans inJson
  refine ⟨fromXml, fromJson, inXml, tree, forms, ?_⟩
  rw [hashValue, tree]
  exact hashTree_congr settings forms

def sensorEvent (text : String) : Event where
  type := "ObjectEvent"
  members := [.objects "sensorElementList" [⟨[], [.object "sensorReport" ⟨[("value", text)], []⟩]⟩]]

def sensorValue (value : Json.Value) : Json.Value :=
  .object [("type", .string "ObjectEvent"),
    ("sensorElementList", .array [.object [("sensorReport", .object [("value", value)])]])]

theorem sensorEvent_bared (literal : String) :
    Bared literal (sensorEvent literal).value (sensorValue (.number literal)) := by
  refine Relation.ReflTransGen.single (.member [("type", .string "ObjectEvent")] [] _ (.item [] [] ?_))
  exact .member [] [] _ (.member [] [] _ (.here .text))

theorem sensorEvent_wellFormed (text : String) : (sensorEvent text).WellFormed NameTable.empty := by
  have report : IsPlain NameTable.empty "sensorReport" := isPlain_of_unbound (by decide +kernel) (by decide +kernel)
  have value : IsPlain NameTable.empty "value" := isPlain_of_unbound (by decide +kernel) (by decide +kernel)
  have written : ∀ written ∈ [("value", text)], IsPlain NameTable.empty written.1 := by
    intro written member
    rw [List.mem_singleton.mp member]
    exact value
  have attributeless : ∀ written ∈ ([] : List (String × String)), IsPlain NameTable.empty written.1 := by
    intro written member
    cases member
  have named : isEventType "ObjectEvent" = true := by decide
  exact ⟨named, ⟨Or.inr (by decide), ⟨attributeless, ⟨report, written, trivial⟩, trivial⟩, trivial⟩, trivial⟩

theorem sensorEvent_keepsPairs (text : String) : (sensorEvent text).KeepsPairs Settings.standard :=
  ⟨⟨⟨trivial, trivial⟩, trivial⟩, trivial⟩

def smallNumber : WrittenNumber where
  isNegative := true
  whole := ⟨[0x31, 0x32], by decide, List.all_eq_true.mp rfl⟩
  leading := by decide
  fraction := some ⟨[0x35, 0x30], by decide, List.all_eq_true.mp rfl⟩
  exponent := some ⟨false, some true, ⟨[0x33], by decide, List.all_eq_true.mp rfl⟩⟩

theorem formats_agree_number_sensorEvent :
    smallNumber.literal = "-12.50e-3" ∧
    (sensorEvent smallNumber.literal).WellFormed NameTable.empty ∧
    (sensorEvent smallNumber.literal).KeepsPairs Settings.standard ∧
    Bared smallNumber.literal (sensorEvent smallNumber.literal).value (sensorValue (.number smallNumber.literal)) ∧
    Json.parse? smallNumber.bytes = some (.number smallNumber.literal) ∧
    (smallNumber.literal = smallNumber.text ↔ smallNumber.isSettled = true) ∧
    ∃ fromXml fromJson,
      Xml.Builder.run Settings.standard ⟨NameTable.empty, [], 1, 0⟩ (sensorEvent smallNumber.literal).element.steps =
        ([fromXml], none, ⟨NameTable.empty, [], 1, 0⟩) ∧
      Json.eventTree Settings.standard NameTable.empty (sensorValue (.number smallNumber.literal)) = .ok fromJson ∧
      fromXml.canonicalForm Settings.standard = fromJson.canonicalForm Settings.standard ∧
      hashTree Settings.standard fromXml =
        hashValue Settings.standard NameTable.empty (sensorValue (.number smallNumber.literal)) := by
  have wellFormed := sensorEvent_wellFormed smallNumber.literal
  have keeps := sensorEvent_keepsPairs smallNumber.literal
  have bared := sensorEvent_bared smallNumber.literal
  exact ⟨by decide +kernel, wellFormed, keeps, bared,
    formats_agree_number Settings.standard NameTable.empty smallNumber wellFormed keeps 1 bared⟩

theorem isDigit_one : ([0x31] : List UInt8) ≠ [] ∧ ∀ b ∈ ([0x31] : List UInt8), Json.isDigit b = true :=
  ⟨List.cons_ne_nil _ _, List.all_eq_true.mp rfl⟩

def largeNumber : WrittenNumber where
  isNegative := false
  whole := ⟨[0x31], isDigit_one⟩
  leading := fun _ => rfl
  fraction := none
  exponent := some ⟨true, none, ⟨[0x35], by decide, List.all_eq_true.mp rfl⟩⟩

/-- A number in JSON does not keep its exponent as it is written, and the text in XML does. -/
theorem not_formats_agree_largeNumber :
    largeNumber.text = "1E5" ∧
    (sensorEvent largeNumber.text).WellFormed NameTable.empty ∧
    Json.parse? largeNumber.bytes = some (.number largeNumber.literal) ∧
    ¬ ∃ fromXml fromJson,
      Xml.Builder.run Settings.standard ⟨NameTable.empty, [], 1, 0⟩ (sensorEvent largeNumber.text).element.steps =
        ([fromXml], none, ⟨NameTable.empty, [], 1, 0⟩) ∧
      Json.eventTree Settings.standard NameTable.empty (sensorValue (.number largeNumber.literal)) = .ok fromJson ∧
      fromXml.canonicalForm Settings.standard = fromJson.canonicalForm Settings.standard := by
  refine ⟨by decide +kernel, sensorEvent_wellFormed _, largeNumber.parse?_bytes, ?_⟩
  rintro ⟨fromXml, fromJson, inXml, inJson, same⟩
  have lines : ((Xml.Builder.run Settings.standard ⟨NameTable.empty, [], 1, 0⟩
        (sensorEvent largeNumber.text).element.steps).1.map fun tree => tree.canonicalForm Settings.standard) ≠
      ((Json.eventTree Settings.standard NameTable.empty (sensorValue (.number largeNumber.literal))).toOption.toList.map
        fun tree => tree.canonicalForm Settings.standard) := by
    decide +kernel
  rw [inXml, inJson] at lines
  exact lines (congrArg (fun form => [form]) same)

end EpcisDigest.Abstract
