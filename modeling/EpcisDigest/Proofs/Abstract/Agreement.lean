import EpcisDigest.Hashing
import EpcisDigest.Proofs.Abstract.Elements
import EpcisDigest.Proofs.Event.OfFields
import EpcisDigest.Proofs.Xml.Document

namespace EpcisDigest.Abstract

open EpcisDigest.Field
open Json (Value ListStyle memberFields objectFields itemFields unlessExcluded objectFields_append)
open Xml (Content)
open Xml.Content (fields fieldsOf textOf AllBindless Declareless)

section Textless

theorem textOf_texts (name : String) (texts : List String) :
    textOf (texts.map fun text => .element name [] (textContent text)) = "" := by
  induction texts with
  | nil => rfl
  | cons text texts ih => exact ih

theorem textOf_pairs (name : String) (entries : List (Option String × String)) :
    textOf (entries.map (pairElement name)) = "" := by
  induction entries with
  | nil => rfl
  | cons pair entries ih => exact ih

theorem textOf_objectElements (name : String) (objects : List Object) : textOf (objectElements name objects) = "" := by
  induction objects with
  | nil => rfl
  | cons object objects ih =>
    cases object
    rw [objectElements, Object.element]
    exact ih

theorem textOf_arrayContent (name : String) {entries : String → List Content}
    (textless : ∀ entry, textOf (entries entry) = "") : textOf (arrayContent name entries) = "" := by
  rw [arrayContent]
  split
  · rfl
  · exact textless name

theorem textOf_member (member : Member) : textOf member.content = "" := by
  cases member with
  | text name text => rfl
  | texts name texts => exact textOf_arrayContent name fun entry => textOf_texts entry texts
  | object name object =>
    cases object
    rfl
  | objects name entries => exact textOf_arrayContent name fun entry => textOf_objectElements entry entries
  | pairs name entries => rfl

theorem textOf_memberContent (members : List Member) : textOf (memberContent members) = "" := by
  induction members with
  | nil => rfl
  | cons member members ih =>
    rw [memberContent, Xml.textOf_append, textOf_member, ih]
    rfl

end Textless

theorem flat_texts {texts : List String} : ∀ item ∈ texts.map Value.string, ∀ nested, item ≠ Value.array nested := by
  intro item member nested
  obtain ⟨text, _, rfl⟩ := List.mem_map.mp member
  exact Value.noConfusion

theorem flat_objects {objects : List Object} : ∀ item ∈ objectValues objects, ∀ nested, item ≠ Value.array nested := by
  induction objects with
  | nil =>
    intro item member
    cases member
  | cons object objects ih =>
    intro item member nested
    rw [objectValues] at member
    rcases List.mem_cons.mp member with rfl | others
    · exact Value.noConfusion
    · exact ih item others nested

section Fields

variable (settings : Settings) (namespaces : Namespaces)

theorem texts_agree {host name : String} {texts : List String}
    (agree : ∀ text ∈ texts, tidyAll (fields settings namespaces host (.element name [] (textContent text))) =
      tidyAll (memberFields settings name (.string text))) :
    tidyAll (fieldsOf settings namespaces host (texts.map fun text => .element name [] (textContent text))) =
      tidyAll ((texts.map Value.string).flatMap (memberFields settings name)) := by
  induction texts with
  | nil => rfl
  | cons text texts ih =>
    have own := agree text List.mem_cons_self
    have others := ih fun other member => agree other (List.mem_cons_of_mem _ member)
    rw [List.map_cons, List.map_cons, List.flatMap_cons, fieldsOf, tidyAll_append, tidyAll_append, own, others]

theorem pairs_agree {name : String} (isList : unnamedEntryLists.contains name = true)
    (shown : settings.isExcluded (pairName name) = false) {entries : List (Option String × String)}
    (trimmed : ∀ pair ∈ entries, IsTrimmed pair.2) :
    fieldsOf settings namespaces name (entries.map (pairElement (pairName name))) =
      itemFields settings .unnamed name (entries.map (pairValue (pairName name))) := by
  obtain ⟨_, notValueList, _, literal⟩ := pairList_names isList
  induction entries with
  | nil => rfl
  | cons pair entries ih =>
    have own := fields_pair settings namespaces isList notValueList (literal.isKept namespaces) shown
      (trimmed pair List.mem_cons_self)
    have others := ih fun other member => trimmed other (List.mem_cons_of_mem _ member)
    rw [List.map_cons, List.map_cons, fieldsOf, own, others]
    rfl

mutual

theorem member_agrees : ∀ (member : Member) {host : String}, HoldsNodes host → member.WellFormed namespaces →
    member.KeepsPairs settings → tidyAll (fieldsOf settings namespaces host member.content) =
      tidyAll (memberFields settings member.name member.value)
  | .text name text, host, holds, wellFormed, _ => by
    simp only [Member.WellFormed] at wellFormed
    rw [Member.content, fieldsOf, fieldsOf, List.append_nil]
    exact fields_text settings namespaces holds wellFormed.1.isKept wellFormed.2
  | .texts name texts, host, holds, wellFormed, _ => by
    simp only [Member.WellFormed] at wellFormed
    obtain ⟨plain | isList, trimmed⟩ := wellFormed
    · apply array_agrees settings namespaces holds plain.isKept plain.notPairList
        (fun entry => textOf_texts entry texts) flat_texts
      · intro entry named
        rw [plain.entryName] at named
        cases named
      · intro _
        apply texts_agree
        exact fun text member => fields_text settings namespaces holds plain.isKept (trimmed text member)
    · obtain ⟨literal, notPairList, entry, _, entryName, entryLiteral⟩ := valueList_names isList
      apply array_agrees settings namespaces holds (literal.isKept namespaces) notPairList
        (fun entry => textOf_texts entry texts) flat_texts
      · intro entry' named
        rw [entryName] at named
        cases named
        apply texts_agree
        intro text member
        rw [fields_value settings namespaces isList (entryLiteral.isKept namespaces) (trimmed text member)]
      · intro unnamed
        rw [entryName] at unnamed
        cases unnamed
  | .object name object, host, holds, wellFormed, keeps => by
    simp only [Member.WellFormed] at wellFormed
    simp only [Member.KeepsPairs] at keeps
    rw [Member.content, fieldsOf, fieldsOf, List.append_nil]
    exact object_agrees object holds wellFormed.1.isKept wellFormed.1.holdsNodes wellFormed.2 keeps
  | .objects name entries, host, holds, wellFormed, keeps => by
    simp only [Member.WellFormed] at wellFormed
    simp only [Member.KeepsPairs] at keeps
    obtain ⟨plain | isList, wellFormed⟩ := wellFormed
    · apply array_agrees settings namespaces holds plain.isKept plain.notPairList
        (fun entry => textOf_objectElements entry entries) flat_objects
      · intro entry named
        rw [plain.entryName] at named
        cases named
      · exact fun _ => objects_agree entries holds plain.isKept plain.holdsNodes wellFormed keeps
    · obtain ⟨literal, notValueList, notPairList, entry, _, entryName, entryLiteral, entryNames⟩ :=
        objectList_names isList
      apply array_agrees settings namespaces holds (literal.isKept namespaces) notPairList
        (fun entry => textOf_objectElements entry entries) flat_objects
      · intro entry' named
        rw [entryName] at named
        cases named
        exact objects_agree entries ⟨notValueList, notPairList⟩ (entryLiteral.isKept namespaces)
          ⟨entryNames.1, entryNames.2⟩ wellFormed keeps
      · intro unnamed
        rw [entryName] at unnamed
        cases unnamed
  | .pairs name entries, host, holds, wellFormed, keeps => by
    simp only [Member.WellFormed] at wellFormed
    simp only [Member.KeepsPairs] at keeps
    obtain ⟨isList, trimmed⟩ := wellFormed
    obtain ⟨literal, _, entryName, _⟩ := pairList_names isList
    have style : ListStyle.ofName name = .unnamed := by
      rw [style_of_entryName, entryName, isList]
      rfl
    have element := fields_node settings namespaces holds (literal.isKept namespaces) []
      (textOf_pairs (pairName name) entries)
    have agree : settings.isExcluded name = true ∨
        fieldsOf settings namespaces name (entries.map (pairElement (pairName name))) =
          itemFields settings .unnamed name (entries.map (pairValue (pairName name))) := by
      rcases keeps with rfl | excluded | shown
      · exact Or.inr rfl
      · exact Or.inl excluded
      · exact Or.inr (pairs_agree settings namespaces isList shown trimmed)
    rw [Member.content, fieldsOf, fieldsOf, List.append_nil, element, Member.name, Member.value, memberFields, style]
    rcases agree with excluded | agree
    · rw [unlessExcluded, unlessExcluded, if_pos excluded, if_pos excluded]
    · rw [agree]
      rfl

theorem object_agrees : ∀ (object : Object) {host name : String}, HoldsNodes host → IsKept namespaces name →
    HoldsNodes name → object.WellFormed namespaces → object.KeepsPairs settings →
    tidyAll (fields settings namespaces host (object.element name)) =
      tidyAll (memberFields settings name (.object object.values))
  | ⟨attributes, members⟩, host, name, holds, kept, inside, wellFormed, keeps => by
    simp only [Object.WellFormed] at wellFormed
    simp only [Object.KeepsPairs] at keeps
    have agree := members_agree members inside wellFormed.2 keeps
    have enclosed : tidyAll [Field.node name (objectFields settings (attributes.map textMember) ++
        fieldsOf settings namespaces name (memberContent members))] =
        tidyAll [Field.node name (objectFields settings (attributes.map textMember ++ memberValues members))] := by
      simp only [Field.node, tidyAll, tidy, objectFields_append, tidyAll_append, agree]
    rw [Object.element, Object.values, fields_node settings namespaces holds kept attributes
      (textOf_memberContent members), attributeFields_plain settings namespaces wellFormed.1, memberFields,
      tidyAll_unlessExcluded, tidyAll_unlessExcluded, enclosed]

theorem members_agree : ∀ (members : List Member) {host : String}, HoldsNodes host →
    AllMembersWellFormed namespaces members → AllMembersKeepPairs settings members →
    tidyAll (fieldsOf settings namespaces host (memberContent members)) =
      tidyAll (objectFields settings (memberValues members))
  | [], _, _, _, _ => rfl
  | member :: members, host, holds, wellFormed, keeps => by
    simp only [AllMembersWellFormed] at wellFormed
    simp only [AllMembersKeepPairs] at keeps
    have own := member_agrees member holds wellFormed.1 keeps.1
    have others := members_agree members holds wellFormed.2 keeps.2
    rw [memberContent, memberValues, objectFields, Xml.fieldsOf_append, tidyAll_append, tidyAll_append, own, others]

theorem objects_agree : ∀ (objects : List Object) {host name : String}, HoldsNodes host → IsKept namespaces name →
    HoldsNodes name → AllObjectsWellFormed namespaces objects → AllObjectsKeepPairs settings objects →
    tidyAll (fieldsOf settings namespaces host (objectElements name objects)) =
      tidyAll ((objectValues objects).flatMap (memberFields settings name))
  | [], _, _, _, _, _, _, _ => rfl
  | object :: objects, host, name, holds, kept, inside, wellFormed, keeps => by
    simp only [AllObjectsWellFormed] at wellFormed
    simp only [AllObjectsKeepPairs] at keeps
    have own := object_agrees object holds kept inside wellFormed.1 keeps.1
    have others := objects_agree objects holds kept inside wellFormed.2 keeps.2
    rw [objectElements, objectValues, fieldsOf, List.flatMap_cons, tidyAll_append, tidyAll_append, own, others]

end

end Fields

section Bindless

theorem allBindless_append {first others : List Content} (bindless : AllBindless first) (more : AllBindless others) :
    AllBindless (first ++ others) := by
  induction first with
  | nil => exact more
  | cons part first ih => exact ⟨bindless.1, ih bindless.2⟩

theorem allBindless_map {α : Type} {element : α → Content} (bindless : ∀ a, (element a).Bindless) (items : List α) :
    AllBindless (items.map element) := by
  induction items with
  | nil => trivial
  | cons item items ih => exact ⟨bindless item, ih⟩

theorem allBindless_textContent (text : String) : AllBindless (textContent text) := by
  rw [textContent]
  split
  · trivial
  · exact ⟨trivial, trivial⟩

theorem declareless_nil : Declareless [] := by
  intro written member
  cases member

theorem bindless_text (name text : String) : (Content.element name [] (textContent text)).Bindless := by
  rw [Xml.Content.Bindless]
  exact ⟨declareless_nil, allBindless_textContent text⟩

theorem bindless_pair (name : String) (pair : Option String × String) : (pairElement name pair).Bindless := by
  obtain ⟨type, text⟩ := pair
  rw [pairElement, Xml.Content.Bindless]
  refine ⟨?_, allBindless_textContent text⟩
  intro written member
  cases type with
  | none => cases member
  | some type =>
    rw [List.mem_singleton.mp member]
    exact (by decide +kernel : Text.startsWith "xmlns:" "type" = false)

theorem allBindless_array (name : String) {entries : String → List Content}
    (bindless : ∀ entry, AllBindless (entries entry)) : AllBindless (arrayContent name entries) := by
  rw [arrayContent]
  split
  · rw [AllBindless, Xml.Content.Bindless]
    exact ⟨⟨declareless_nil, bindless _⟩, trivial⟩
  · exact bindless name

variable (namespaces : Namespaces)

mutual

theorem member_bindless : ∀ member : Member, member.WellFormed namespaces → AllBindless member.content
  | .text name text, _ => ⟨bindless_text name text, trivial⟩
  | .texts name texts, _ =>
    allBindless_array name fun entry => allBindless_map (fun text => bindless_text entry text) texts
  | .object name object, wellFormed => by
    simp only [Member.WellFormed] at wellFormed
    exact ⟨object_bindless object name wellFormed.2, trivial⟩
  | .objects name entries, wellFormed => by
    simp only [Member.WellFormed] at wellFormed
    exact allBindless_array name fun entry => objects_bindless entries entry wellFormed.2
  | .pairs name entries, _ => by
    rw [Member.content, AllBindless, Xml.Content.Bindless]
    exact ⟨⟨declareless_nil, allBindless_map (fun pair => bindless_pair (pairName name) pair) entries⟩, trivial⟩

theorem object_bindless : ∀ (object : Object) (name : String), object.WellFormed namespaces →
    (object.element name).Bindless
  | ⟨attributes, members⟩, name, wellFormed => by
    simp only [Object.WellFormed] at wellFormed
    rw [Object.element, Xml.Content.Bindless]
    refine ⟨?_, members_bindless members wellFormed.2⟩
    intro written member
    have plain := (wellFormed.1 written member).notDeclaration
    rw [Xml.Builder.isDeclaration, Bool.or_eq_false_iff] at plain
    exact plain.2

theorem members_bindless : ∀ members : List Member, AllMembersWellFormed namespaces members →
    AllBindless (memberContent members)
  | [], _ => trivial
  | member :: members, wellFormed => by
    simp only [AllMembersWellFormed] at wellFormed
    rw [memberContent]
    exact allBindless_append (member_bindless member wellFormed.1) (members_bindless members wellFormed.2)

theorem objects_bindless : ∀ (objects : List Object) (name : String), AllObjectsWellFormed namespaces objects →
    AllBindless (objectElements name objects)
  | [], _, _ => trivial
  | object :: objects, name, wellFormed => by
    simp only [AllObjectsWellFormed] at wellFormed
    exact ⟨object_bindless object name wellFormed.1, objects_bindless objects name wellFormed.2⟩

end

end Bindless

section Events

variable (settings : Settings) (namespaces : Namespaces)

theorem ne_of_isList {isList : String → Bool} {name other : String} (listed : isList name = true)
    (unlisted : isList other = false) : name ≠ other := by
  rintro rfl
  rw [listed] at unlisted
  cases unlisted

theorem Member.WellFormed.notContext {member : Member} (wellFormed : member.WellFormed namespaces) :
    member.name ≠ "@context" := by
  cases member with
  | text name text =>
    simp only [Member.WellFormed] at wellFormed
    exact wellFormed.1.notContext
  | texts name texts =>
    simp only [Member.WellFormed] at wellFormed
    obtain ⟨plain | isList, _⟩ := wellFormed
    · exact plain.notContext
    · exact ne_of_isList isList (by decide)
  | object name object =>
    simp only [Member.WellFormed] at wellFormed
    exact wellFormed.1.notContext
  | objects name entries =>
    simp only [Member.WellFormed] at wellFormed
    obtain ⟨plain | isList, _⟩ := wellFormed
    · exact plain.notContext
    · exact ne_of_isList isList (by decide)
  | pairs name entries =>
    simp only [Member.WellFormed] at wellFormed
    exact ne_of_isList wellFormed.1 (by decide)

theorem contextless {members : List Member} (wellFormed : AllMembersWellFormed namespaces members) :
    Entries.get? "@context" (memberValues members) = none := by
  induction members with
  | nil => rfl
  | cons member members ih =>
    simp only [AllMembersWellFormed] at wellFormed
    have own : (member.name == "@context") = false := beq_eq_false_iff_ne.mpr wellFormed.1.notContext
    have others := ih wellFormed.2
    rw [Entries.get?] at others ⊢
    rw [memberValues, List.find?_cons, own]
    exact others

theorem eventTree_value {event : Event} (wellFormed : event.WellFormed namespaces) :
    Json.eventTree settings namespaces event.value = .ok (EventTree.ofFields namespaces
      (unlessExcluded settings "type" [Field.leaf "type" event.type] ++
        objectFields settings (memberValues event.members))) := by
  have own := contextless namespaces wellFormed.2
  have absent : Value.member? "@context"
      (.object (("type", .string event.type) :: memberValues event.members)) = none := by
    rw [Value.member?]
    rw [Entries.get?] at own ⊢
    rw [List.find?_cons]
    exact own
  rw [Event.value, Json.eventTree, absent]
  rfl

theorem shownFields_unlessExcluded (name text : String) {fields others : List Field}
    (same : tidyAll fields = tidyAll others) :
    shownFields settings (Field.leaf name text :: fields) =
      shownFields settings (unlessExcluded settings name [Field.leaf name text] ++ others) := by
  rw [shownFields, shownFields, unlessExcluded, tidyAll, same]
  split
  · rename_i excluded
    have hidden : isShown settings (Field.leaf name text).tidy ≠ true := by
      have named : isExcluded settings (Field.leaf name text).tidy.name = true := excluded
      rw [isShown, named]
      decide
    rw [List.filter_cons_of_neg hidden]
    rfl
  · rfl

theorem event_agrees {event : Event} (wellFormed : event.WellFormed namespaces) (keeps : event.KeepsPairs settings)
    (depth : Nat) :
    ∃ fromXml fromJson,
      Xml.Builder.run settings ⟨namespaces, [], depth, 0⟩ event.element.steps =
        ([fromXml], none, ⟨namespaces, [], depth, 0⟩) ∧
      Json.eventTree settings namespaces event.value = .ok fromJson ∧
      shownFields settings fromXml.fields = shownFields settings fromJson.fields ∧
      fromXml.canonicalForm settings = fromJson.canonicalForm settings := by
  have inXml := Xml.run_event settings namespaces wellFormed.1 declareless_nil
    (members_bindless namespaces event.members wellFormed.2) depth
  have inJson := eventTree_value settings namespaces wellFormed
  have root : HoldsNodes "" := ⟨by decide, by decide⟩
  have agree := members_agree settings namespaces event.members root wellFormed.2 keeps
  have shown := shownFields_unlessExcluded settings "type" event.type agree
  have forms : canonicalForm settings namespaces (Field.leaf "type" event.type ::
        fieldsOf settings namespaces "" (memberContent event.members)) =
      canonicalForm settings namespaces (unlessExcluded settings "type" [Field.leaf "type" event.type] ++
        objectFields settings (memberValues event.members)) := by
    rw [← canonicalForm_shownFields, shown, canonicalForm_shownFields]
  rw [← EventTree.canonicalForm_ofFields, ← EventTree.canonicalForm_ofFields] at forms
  refine ⟨_, _, inXml, inJson, ?_, forms⟩
  rw [EventTree.fields_ofFields, EventTree.fields_ofFields]
  exact shown

theorem hashTree_congr {tree tree' : EventTree} (forms : tree.canonicalForm settings = tree'.canonicalForm settings) :
    hashTree settings tree = hashTree settings tree' := by
  rw [hashTree, hashTree, EventTree.results, EventTree.results, forms]

/-- An event gives the same tree, but for empty values and what is excluded, and so the same canonical form
    and the same results, whether it is read from XML or from JSON. -/
theorem formats_agree {event : Event} (wellFormed : event.WellFormed namespaces) (keeps : event.KeepsPairs settings)
    (depth : Nat) :
    ∃ fromXml fromJson,
      Xml.Builder.run settings ⟨namespaces, [], depth, 0⟩ event.element.steps =
        ([fromXml], none, ⟨namespaces, [], depth, 0⟩) ∧
      Json.eventTree settings namespaces event.value = .ok fromJson ∧
      shownFields settings fromXml.fields = shownFields settings fromJson.fields ∧
      fromXml.canonicalForm settings = fromJson.canonicalForm settings ∧
      hashTree settings fromXml = hashValue settings namespaces event.value := by
  obtain ⟨fromXml, fromJson, inXml, inJson, shown, forms⟩ := event_agrees settings namespaces wellFormed keeps depth
  refine ⟨fromXml, fromJson, inXml, inJson, shown, forms, ?_⟩
  rw [hashValue, inJson]
  exact hashTree_congr settings forms

end Events

def listsEvent : Event where
  type := "ObjectEvent"
  members :=
    [.text "action" "OBSERVE",
      .texts "epcList" ["urn:epc:id:sgtin:0614141.107346.2017"],
      .objects "quantityList" [⟨[("quantity", "5")], [.texts "note" ["a", "b"]]⟩],
      .object "ilmd" ⟨[], [.text "example:lot" ""]⟩,
      .pairs "bizTransactionList" [(some "po", "urn:epcglobal:cbv:bt:0614141073467:1152"), (none, "b")]]

theorem formats_agree_listsEvent :
    listsEvent.WellFormed NameTable.empty ∧ listsEvent.KeepsPairs Settings.standard ∧
    ∃ fromXml fromJson,
      Xml.Builder.run Settings.standard ⟨NameTable.empty, [], 1, 0⟩ listsEvent.element.steps =
        ([fromXml], none, ⟨NameTable.empty, [], 1, 0⟩) ∧
      Json.eventTree Settings.standard NameTable.empty listsEvent.value = .ok fromJson ∧
      shownFields Settings.standard fromXml.fields = shownFields Settings.standard fromJson.fields ∧
      fromXml.canonicalForm Settings.standard = fromJson.canonicalForm Settings.standard ∧
      hashTree Settings.standard fromXml = hashValue Settings.standard NameTable.empty listsEvent.value := by
  have plain : ∀ name ∈ ["action", "quantity", "note", "ilmd", "example:lot"], IsPlain NameTable.empty name := by
    intro name member
    have unbound : ∀ name ∈ ["action", "quantity", "note", "ilmd", "example:lot"],
        Xml.boundUri? NameTable.empty name = none := by
      decide +kernel
    have ordinary : ∀ name ∈ ["action", "quantity", "note", "ilmd", "example:lot"],
        isValueList name = false ∧ isObjectList name = false ∧ unnamedEntryLists.contains name = false ∧
          isSynthetic name = false ∧ Xml.Builder.isDeclaration name = false ∧ name ≠ "@context" := by
      decide +kernel
    exact isPlain_of_unbound (unbound name member) (ordinary name member)
  have wellFormed : listsEvent.WellFormed NameTable.empty :=
    ⟨by decide, ⟨plain _ (by decide), by decide +kernel⟩, ⟨Or.inr (by decide), by decide +kernel⟩,
      ⟨Or.inr (by decide), ⟨by simpa using plain "quantity" (by decide),
        ⟨Or.inl (plain _ (by decide)), by decide +kernel⟩, trivial⟩, trivial⟩,
      ⟨plain _ (by decide), by simp, ⟨plain _ (by decide), by decide +kernel⟩, trivial⟩,
      ⟨by decide, by decide +kernel⟩, trivial⟩
  have keeps : listsEvent.KeepsPairs Settings.standard :=
    ⟨trivial, trivial, ⟨⟨trivial, trivial⟩, trivial⟩, ⟨trivial, trivial⟩, Or.inr (Or.inr (by decide +kernel)), trivial⟩
  exact ⟨wellFormed, keeps, formats_agree Settings.standard NameTable.empty wellFormed keeps 1⟩

def withoutTransactions : Settings :=
  { Settings.standard with excluded := NameSet.ofNames ["bizTransaction"] }

def typedPairEvent : Event where
  type := "ObjectEvent"
  members := [.pairs "bizTransactionList" [(some "po", "a")]]

/-- In JSON the type of a pair is left when its text is excluded, and in XML it is not. -/
theorem not_formats_agree_typedPairEvent :
    typedPairEvent.WellFormed NameTable.empty ∧
    ¬ ∃ fromXml fromJson,
      Xml.Builder.run withoutTransactions ⟨NameTable.empty, [], 1, 0⟩ typedPairEvent.element.steps =
        ([fromXml], none, ⟨NameTable.empty, [], 1, 0⟩) ∧
      Json.eventTree withoutTransactions NameTable.empty typedPairEvent.value = .ok fromJson ∧
      fromXml.canonicalForm withoutTransactions = fromJson.canonicalForm withoutTransactions := by
  constructor
  · exact ⟨by decide +kernel, ⟨by decide +kernel, by decide +kernel⟩, trivial⟩
  · rintro ⟨fromXml, fromJson, inXml, inJson, same⟩
    have trees : (Xml.Builder.run withoutTransactions ⟨NameTable.empty, [], 1, 0⟩ typedPairEvent.element.steps).1 =
        [EventTree.ofFields NameTable.empty
          [Field.leaf "type" "ObjectEvent", Field.node "bizTransactionList" []]] := by
      decide +kernel
    have tree : (Json.eventTree withoutTransactions NameTable.empty typedPairEvent.value).toOption =
        some (EventTree.ofFields NameTable.empty [Field.leaf "type" "ObjectEvent",
          Field.node "bizTransactionList" [Field.wrapper [Field.leaf "type" "po"]]]) := by
      decide +kernel
    rw [inXml] at trees
    rw [inJson] at tree
    cases trees
    cases tree
    have differs : ((EventTree.ofFields NameTable.empty
          [Field.leaf "type" "ObjectEvent", Field.node "bizTransactionList" []]).canonicalForm
          withoutTransactions).toOption ≠
        ((EventTree.ofFields NameTable.empty [Field.leaf "type" "ObjectEvent",
          Field.node "bizTransactionList" [Field.wrapper [Field.leaf "type" "po"]]]).canonicalForm
          withoutTransactions).toOption := by
      decide +kernel
    exact differs (congrArg Except.toOption same)

end EpcisDigest.Abstract
