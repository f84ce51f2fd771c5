import EpcisDigest.Proofs.Abstract.Event
import EpcisDigest.Proofs.Event.EmptyValues
import EpcisDigest.Proofs.Json.Fields

namespace EpcisDigest.Abstract

open EpcisDigest.Field
open Json (Value ListStyle memberFields objectFields itemFields unlessExcluded objectFields_append
  memberFields_of_excluded itemFields_named itemFields_repeated)
open Xml (Content Frame fill_nil fill_text)
open Xml.Content (fields fieldsOf textOf AllBindless Declareless)

theorem style_of_entryName (name : String) : ListStyle.ofName name =
    match entryName? name with
    | some entry => .named entry
    | none => if unnamedEntryLists.contains name then .unnamed else .repeated := by
  rw [ListStyle.ofName, entryName?]
  by_cases identifiers : identifierLists.contains name = true
  · simp only [identifiers, ite_true]
  · by_cases corrective : name = "correctiveEventIDs"
    · subst corrective
      decide
    · simp only [identifiers, corrective, ite_false, Bool.false_eq_true]
      split
      · rfl
      · split
        · rfl
        · rfl

theorem isPlain_of_unbound {namespaces : Namespaces} {name : String} (unbound : Xml.boundUri? namespaces name = none)
    (ordinary : isValueList name = false ∧ isObjectList name = false ∧ unnamedEntryLists.contains name = false ∧
      isSynthetic name = false ∧ Xml.Builder.isDeclaration name = false ∧ name ≠ "@context") :
    IsPlain namespaces name := by
  obtain ⟨notValueList, notObjectList, notPairList, notSynthetic, notDeclaration, notContext⟩ := ordinary
  refine ⟨notValueList, notObjectList, notPairList, notSynthetic, notDeclaration, notContext, ?_⟩
  intro uri bound
  rw [unbound] at bound
  cases bound

theorem IsPlain.stripped {namespaces : Namespaces} {name : String} (plain : IsPlain namespaces name) :
    Xml.strippedName namespaces name = name := by
  have unbound := plain.unbound
  rw [Xml.boundUri?] at unbound
  rw [Xml.strippedName]
  cases cut : Text.cut? ':' name with
  | none => rfl
  | some parts =>
    rw [cut] at unbound
    cases bound : namespaces.get? parts.1 with
    | none => simp only [bound]
    | some uri =>
      have standard := (unbound uri bound).1
      simp only [bound, standard, Bool.false_eq_true, ite_false]

theorem IsPlain.notSchema {namespaces : Namespaces} {name : String} (plain : IsPlain namespaces name) :
    Xml.isSchemaInstance namespaces name = false := by
  rw [Xml.isSchemaInstance]
  cases bound : Xml.boundUri? namespaces name with
  | none => rfl
  | some uri => simpa using (plain.unbound uri bound).2

theorem IsPlain.entryName {namespaces : Namespaces} {name : String} (plain : IsPlain namespaces name) :
    entryName? name = none := by
  have notValueList := plain.notValueList
  have notObjectList := plain.notObjectList
  simp only [isValueList, isObjectList, Bool.or_eq_false_iff, beq_eq_false_iff_ne] at notValueList notObjectList
  simp only [entryName?, notValueList.1, notValueList.2, notObjectList.1, notObjectList.2, Bool.false_eq_true, ite_false]

theorem tidyAll_unlessExcluded (settings : Settings) (name : String) (fields : List Field) :
    tidyAll (unlessExcluded settings name fields) = unlessExcluded settings name (tidyAll fields) := by
  rw [unlessExcluded, unlessExcluded]
  split <;> rfl

structure IsKept (namespaces : Namespaces) (name : String) : Prop where
  stripped : Xml.strippedName namespaces name = name
  notSynthetic : isSynthetic name = false

theorem IsPlain.isKept {namespaces : Namespaces} {name : String} (plain : IsPlain namespaces name) :
    IsKept namespaces name :=
  ⟨plain.stripped, plain.notSynthetic⟩

def IsLiteral (name : String) : Prop := Text.cut? ':' name = none ∧ isSynthetic name = false

instance (name : String) : Decidable (IsLiteral name) := inferInstanceAs (Decidable (_ ∧ _))

theorem IsLiteral.isKept {name : String} (literal : IsLiteral name) (namespaces : Namespaces) :
    IsKept namespaces name :=
  ⟨Xml.strippedName_of_unprefixed namespaces literal.1, literal.2⟩

structure HoldsNodes (host : String) : Prop where
  notValueList : isValueList host = false
  notPairList : unnamedEntryLists.contains host = false

theorem IsPlain.holdsNodes {namespaces : Namespaces} {name : String} (plain : IsPlain namespaces name) :
    HoldsNodes name :=
  ⟨plain.notValueList, plain.notPairList⟩

section Elements

variable (settings : Settings) (namespaces : Namespaces)

theorem attributeFields_plain {attributes : List (String × String)}
    (plain : ∀ written ∈ attributes, IsPlain namespaces written.1) :
    Xml.Builder.attributeFields settings namespaces attributes =
      objectFields settings (attributes.map textMember) := by
  induction attributes with
  | nil => rfl
  | cons written attributes ih =>
    have own := plain written List.mem_cons_self
    have others := ih fun other member => plain other (List.mem_cons_of_mem _ member)
    rw [Xml.Builder.attributeFields] at others ⊢
    rw [List.map_cons, List.filterMap_cons, others]
    simp only [own.notDeclaration, own.notSchema, own.stripped, Bool.false_or, textMember, objectFields, memberFields,
      unlessExcluded]
    cases settings.isExcluded written.1 <;> rfl

theorem fields_element {name : String} (stripped : Xml.strippedName namespaces name = name) (host : String)
    (attributes : List (String × String)) (content : List Content) :
    fields settings namespaces host (.element name attributes content) =
      unlessExcluded settings name (Xml.Builder.closedFields
        ((Xml.Builder.frameIn settings namespaces host name attributes).fill settings namespaces content)) := by
  rw [fields, stripped]
  rfl

theorem fields_node {host name : String} (holds : HoldsNodes host) (kept : IsKept namespaces name)
    (attributes : List (String × String)) {content : List Content} (textless : textOf content = "") :
    fields settings namespaces host (.element name attributes content) =
      unlessExcluded settings name [Field.node name
        (Xml.Builder.attributeFields settings namespaces attributes ++ fieldsOf settings namespaces name content)] := by
  have framed : Xml.Builder.frameIn settings namespaces host name attributes =
      Frame.add ⟨.node name, name, "", []⟩ (Xml.Builder.attributeFields settings namespaces attributes) := by
    simp only [Xml.Builder.frameIn, kept.notSynthetic, holds.notValueList, holds.notPairList, Bool.false_eq_true, ite_false]
  have closed : Xml.Builder.closedFields
      ⟨.node name, name, "" ++ "", (fieldsOf settings namespaces name content).reverse ++
        ((Xml.Builder.attributeFields settings namespaces attributes).reverse ++ [])⟩ =
      [Field.node name (Xml.Builder.attributeFields settings namespaces attributes ++
        fieldsOf settings namespaces name content)] := by
    rw [List.append_nil, ← List.reverse_append]
    exact congrArg (fun added => [Field.node name added]) (List.reverse_reverse _)
  rw [fields_element settings namespaces kept.stripped, framed, Frame.fill, textless]
  exact congrArg (unlessExcluded settings name) closed

theorem fill_textContent (frame : Frame) (text : String) :
    frame.fill settings namespaces (textContent text) = { frame with text := frame.text ++ text } := by
  rw [textContent]
  split
  · rename_i empty
    rw [empty, fill_nil, String.append_empty]
  · rw [fill_text, fill_nil]

theorem fields_text {host name text : String} (holds : HoldsNodes host) (kept : IsKept namespaces name)
    (trimmed : IsTrimmed text) :
    tidyAll (fields settings namespaces host (.element name [] (textContent text))) =
      tidyAll (memberFields settings name (.string text)) := by
  have framed : Xml.Builder.frameIn settings namespaces host name [] = ⟨.node name, name, "", []⟩ := by
    simp only [Xml.Builder.frameIn, kept.notSynthetic, holds.notValueList, holds.notPairList, Bool.false_eq_true, ite_false]
    rfl
  have closed : tidyAll (Xml.Builder.closedFields ⟨.node name, name, text, []⟩) = tidyAll [Field.leaf name text] := by
    rw [IsTrimmed] at trimmed
    rw [Xml.Builder.closedFields, trimmed]
    by_cases empty : text = ""
    · subst empty
      rfl
    · simp only [empty, ite_false]
      rfl
  rw [fields_element settings namespaces kept.stripped, framed, fill_textContent, String.empty_append, memberFields,
    tidyAll_unlessExcluded, tidyAll_unlessExcluded, closed]

theorem fields_value {host name text : String} (holdsValues : isValueList host = true) (kept : IsKept namespaces name)
    (trimmed : IsTrimmed text) :
    fields settings namespaces host (.element name [] (textContent text)) =
      memberFields settings name (.string text) := by
  have framed : Xml.Builder.frameIn settings namespaces host name [] = ⟨.value name, host, "", []⟩ := by
    simp only [Xml.Builder.frameIn, kept.notSynthetic, holdsValues, Bool.false_eq_true, ite_false, ite_true]
  have closed : Xml.Builder.closedFields ⟨.value name, host, text, []⟩ = [Field.leaf name text] := by
    rw [IsTrimmed] at trimmed
    rw [Xml.Builder.closedFields, trimmed]
    rfl
  rw [fields_element settings namespaces kept.stripped, framed, fill_textContent, String.empty_append, memberFields, closed]

theorem isPlain_type : IsPlain namespaces "type" := by
  have unprefixed : Text.cut? ':' "type" = none := by decide +kernel
  apply isPlain_of_unbound
  · rw [Xml.boundUri?, unprefixed]
    rfl
  · decide

theorem fields_pair {host name : String} (holdsPairs : unnamedEntryLists.contains host = true)
    (notValueList : isValueList host = false) (kept : IsKept namespaces name) (shown : settings.isExcluded name = false)
    {pair : Option String × String} (trimmed : IsTrimmed pair.2) :
    fields settings namespaces host (pairElement name pair) =
      [Field.wrapper (objectFields settings ((typeMember pair.1 ++ [(name, pair.2)]).map textMember))] := by
  obtain ⟨type, text⟩ := pair
  have types : Xml.Builder.attributeFields settings namespaces (typeMember type) =
      objectFields settings ((typeMember type).map textMember) := by
    apply attributeFields_plain
    intro written member
    cases type with
    | none => cases member
    | some type =>
      rw [List.mem_singleton.mp member]
      exact isPlain_type namespaces
  have framed : Xml.Builder.frameIn settings namespaces host name (typeMember type) =
      Frame.add ⟨.entry name, "", "", []⟩ (objectFields settings ((typeMember type).map textMember)) := by
    simp only [Xml.Builder.frameIn, kept.notSynthetic, notValueList, holdsPairs, types, Bool.false_eq_true, ite_false,
      ite_true]
  have closed : Xml.Builder.closedFields
      ⟨.entry name, "", "" ++ text, (objectFields settings ((typeMember type).map textMember)).reverse ++ []⟩ =
      [Field.wrapper (objectFields settings ((typeMember type).map textMember) ++ [Field.leaf name text])] := by
    rw [IsTrimmed] at trimmed
    rw [Xml.Builder.closedFields, String.empty_append, trimmed, List.append_nil]
    exact congrArg (fun fields => [Field.wrapper (fields ++ [Field.leaf name text])]) (List.reverse_reverse _)
  have own : objectFields settings [textMember (name, text)] = [Field.leaf name text] := by
    simp only [textMember, objectFields, memberFields, unlessExcluded, shown, Bool.false_eq_true, ite_false,
      List.append_nil]
  rw [List.map_append, objectFields_append, List.map_singleton, own, ← closed, pairElement,
    fields_element settings namespaces kept.stripped, framed, fill_textContent, unlessExcluded, shown]
  rfl

end Elements

section Lists

variable {name : String}

theorem valueList_names (isList : isValueList name = true) : IsLiteral name ∧ unnamedEntryLists.contains name = false ∧
    ∃ entry ∈ ["epc", "correctiveEventID"], entryName? name = some entry ∧ IsLiteral entry := by
  have all : ∀ name ∈ "correctiveEventIDs" :: identifierLists,
      IsLiteral name ∧ unnamedEntryLists.contains name = false ∧
        ∃ entry ∈ ["epc", "correctiveEventID"], entryName? name = some entry ∧ IsLiteral entry := by
    decide +kernel
  apply all
  rw [isValueList, Bool.or_eq_true, beq_iff_eq] at isList
  rcases isList with identifiers | rfl
  · exact List.mem_cons_of_mem _ (List.contains_iff_mem.mp identifiers)
  · exact List.mem_cons_self

theorem objectList_names (isList : isObjectList name = true) : IsLiteral name ∧ isValueList name = false ∧
    unnamedEntryLists.contains name = false ∧
    ∃ entry ∈ ["quantityElement", "sensorElement"], entryName? name = some entry ∧ IsLiteral entry ∧
      isValueList entry = false ∧ unnamedEntryLists.contains entry = false := by
  have all : ∀ name ∈ "sensorElementList" :: quantityLists, IsLiteral name ∧ isValueList name = false ∧
      unnamedEntryLists.contains name = false ∧
      ∃ entry ∈ ["quantityElement", "sensorElement"], entryName? name = some entry ∧ IsLiteral entry ∧
        isValueList entry = false ∧ unnamedEntryLists.contains entry = false := by
    decide +kernel
  apply all
  rw [isObjectList, Bool.or_eq_true, beq_iff_eq] at isList
  rcases isList with quantities | rfl
  · exact List.mem_cons_of_mem _ (List.contains_iff_mem.mp quantities)
  · exact List.mem_cons_self

theorem pairList_names (isList : unnamedEntryLists.contains name = true) : IsLiteral name ∧ isValueList name = false ∧
    entryName? name = none ∧ IsLiteral (pairName name) := by
  have all : ∀ name ∈ unnamedEntryLists, IsLiteral name ∧ isValueList name = false ∧ entryName? name = none ∧
      IsLiteral (pairName name) := by
    decide +kernel
  exact all name (List.contains_iff_mem.mp isList)

end Lists

section Arrays

variable (settings : Settings) (namespaces : Namespaces)

/-- An array in JSON and the elements of its items agree when the items do. -/
theorem array_agrees {host name : String} (holds : HoldsNodes host) (kept : IsKept namespaces name)
    (notPairList : unnamedEntryLists.contains name = false) {entries : String → List Content} {items : List Value}
    (textless : ∀ entry, textOf (entries entry) = "") (flat : ∀ item ∈ items, ∀ nested, item ≠ Value.array nested)
    (named : ∀ entry, entryName? name = some entry →
      tidyAll (fieldsOf settings namespaces name (entries entry)) =
        tidyAll (items.flatMap (memberFields settings entry)))
    (repeated : entryName? name = none →
      tidyAll (fieldsOf settings namespaces host (entries name)) =
        tidyAll (items.flatMap (memberFields settings name))) :
    tidyAll (fieldsOf settings namespaces host (arrayContent name entries)) =
      tidyAll (memberFields settings name (.array items)) := by
  have style := style_of_entryName name
  rw [arrayContent, memberFields]
  cases entryName : entryName? name with
  | some entry =>
    rw [entryName] at style
    dsimp only at style ⊢
    have element := fields_node settings namespaces holds kept [] (textless entry)
    have agree := named entry entryName
    have enclosed : tidyAll [Field.node name (fieldsOf settings namespaces name (entries entry))] =
        tidyAll [Field.node name (items.flatMap (memberFields settings entry))] := by
      simp only [Field.node, tidyAll, tidy, agree]
    rw [style, itemFields_named, fieldsOf, fieldsOf, List.append_nil, element, tidyAll_unlessExcluded,
      tidyAll_unlessExcluded]
    exact congrArg (unlessExcluded settings name) enclosed
  | none =>
    rw [entryName, notPairList] at style
    dsimp only at style ⊢
    rw [if_neg Bool.false_ne_true] at style
    rw [style, itemFields_repeated settings name flat, repeated entryName, tidyAll_unlessExcluded, unlessExcluded]
    split
    · rename_i excluded
      have nothing : items.flatMap (memberFields settings name) = [] :=
        List.flatMap_eq_nil_iff.mpr fun item _ => memberFields_of_excluded settings excluded item
      rw [nothing]
      rfl
    · rfl

end Arrays

end EpcisDigest.Abstract
