import EpcisDigest.Hashing
import EpcisDigest.Proofs.Json.Fields
import EpcisDigest.Proofs.Xml.Document

namespace EpcisDigest

variable (settings : Settings)

namespace Json

open Value (Within)

inductive Added : Value → Value → Prop where
  | object (before after : List (String × Value)) {name : String} (value : Value)
      (excluded : settings.isExcluded name = true) :
      Added (.object (before ++ after)) (.object (before ++ (name, value) :: after))

def SameShown : Value → Value → Prop := Relation.EqvGen (Within (Added settings))

variable {settings}

theorem related_added {value value' : Value} (within : Within (Added settings) value value') :
    Related settings Eq Eq value value' := by
  have inherited : Inherited settings fun _ => True := ⟨fun _ _ _ => trivial, fun _ _ => trivial⟩
  apply within.related congruence_eq inherited _ trivial
  intro value value' _ added
  cases added with
  | object before after value excluded =>
    apply Related.object
    rw [objectFields_append, objectFields_append, objectFields, memberFields_of_excluded settings excluded]
    rfl

theorem SameShown.fields_eq {event event' : Value} (same : SameShown settings event event') :
    event.kind = event'.kind ∧ objectFields settings event.members = objectFields settings event'.members := by
  induction same with
  | rel event event' within =>
    cases related_added within with
    | object fields => exact ⟨rfl, fields⟩
    | array fields => exact ⟨rfl, rfl⟩
  | refl event => exact ⟨rfl, rfl⟩
  | symm event event' _ ih => exact ⟨ih.1.symm, ih.2.symm⟩
  | trans event middle event' _ _ first second => exact ⟨first.1.trans second.1, first.2.trans second.2⟩

theorem eventTree_sameShown {event event' : Value} (same : SameShown settings event event')
    (context : event.member? "@context" = event'.member? "@context") (namespaces : Namespaces) :
    eventTree settings namespaces event = eventTree settings namespaces event' := by
  obtain ⟨kind, fields⟩ := same.fields_eq
  rw [eventTree_eq, eventTree_eq, eventNamespaces, eventNamespaces, kind, fields, context]

end Json

namespace Xml

open Content

/-- Content, and the same one with something excluded more inside an event: an element that binds no prefix, or
    an attribute that does not. `inEvent` tells whether the content is inside an event. -/
inductive Added : Bool → Namespaces → List Content → List Content → Prop where
  | child {namespaces : Namespaces} {content : List Content} (name : String)
      (attributes : List (String × String)) (inside : List Content)
      (excluded : settings.isExcluded (strippedName namespaces name) = true)
      (bindless : (Content.element name attributes inside).Bindless) :
      Added true namespaces content (.element name attributes inside :: content)
  | mark {namespaces : Namespaces} (name : String) (before after : List (String × String)) {key : String}
      (value : String) (inside content : List Content) (declares : Text.startsWith "xmlns:" key = false)
      (excluded :
        settings.isExcluded (strippedName (Builder.declare namespaces (before ++ after)) key) = true) :
      Added true namespaces (.element name (before ++ after) inside :: content)
        (.element name (before ++ (key, value) :: after) inside :: content)
  | within {inEvent : Bool} {namespaces : Namespaces} (name : String) (attributes : List (String × String))
      {inside inside' : List Content} (content : List Content)
      (added : Added (inEvent || isEventType (strippedName (Builder.declare namespaces attributes) name))
        (Builder.declare namespaces attributes) inside inside') :
      Added inEvent namespaces (.element name attributes inside :: content) (.element name attributes inside' :: content)
  | later {inEvent : Bool} {namespaces : Namespaces} (part : Content) {content content' : List Content}
      (added : Added inEvent (part.bound namespaces) content content') :
      Added inEvent namespaces (part :: content) (part :: content')

def SameShown : List Content → List Content → Prop := Relation.EqvGen (Added settings false NameTable.empty)

variable {settings}

theorem declare_insert (namespaces : Namespaces) (before after : List (String × String)) {key : String}
    (value : String) (declares : Text.startsWith "xmlns:" key = false) :
    Builder.declare namespaces (before ++ (key, value) :: after) = Builder.declare namespaces (before ++ after) := by
  have kept : Text.after? "xmlns:" key = none := by
    rw [Text.after?, declares]
    rfl
  rw [Builder.declare, Builder.declare, List.foldl_append, List.foldl_append, List.foldl_cons, kept]

theorem attributeFields_insert (namespaces : Namespaces) (before after : List (String × String)) {key : String}
    (value : String) (excluded : settings.isExcluded (strippedName namespaces key) = true) :
    Builder.attributeFields settings namespaces (before ++ (key, value) :: after) =
      Builder.attributeFields settings namespaces (before ++ after) := by
  simp [Builder.attributeFields, List.filterMap_append, excluded]

variable {inEvent : Bool} {namespaces : Namespaces} {content content' : List Content}

theorem Added.bound_eq (added : Added settings inEvent namespaces content content') :
    boundOf namespaces content = boundOf namespaces content' := by
  induction added with
  | child name attributes inside excluded bindless => rw [boundOf, bound_bindless _ _ bindless]
  | mark name before after value inside content declares excluded =>
    rw [boundOf, boundOf, bound, bound, declare_insert _ before after value declares]
  | within name attributes content added ih => rw [boundOf, boundOf, bound, bound, ih]
  | later part added ih => rw [boundOf, boundOf, ih]

theorem Added.text_eq (added : Added settings inEvent namespaces content content') :
    textOf content = textOf content' := by
  induction added with
  | child name attributes inside excluded bindless => rfl
  | mark name before after value inside content declares excluded => rfl
  | within name attributes content added ih => rfl
  | later part added ih => cases part <;> simp only [textOf, ih]

theorem elementFields_congr (host name : String) {attributes attributes' : List (String × String)}
    {inside inside' : List Content}
    (declared : Builder.declare namespaces attributes = Builder.declare namespaces attributes')
    (kept : Builder.attributeFields settings (Builder.declare namespaces attributes) attributes =
      Builder.attributeFields settings (Builder.declare namespaces attributes) attributes')
    (text : textOf inside = textOf inside')
    (fields : ∀ host, contentFields settings (Builder.declare namespaces attributes) host inside =
      contentFields settings (Builder.declare namespaces attributes) host inside') :
    (Content.element name attributes inside).elementFields settings namespaces host =
      (Content.element name attributes' inside').elementFields settings namespaces host := by
  rw [elementFields, elementFields, ← declared]
  simp only [kept, text, fields]

theorem Added.fields_eq (added : Added settings inEvent namespaces content content') (isInside : inEvent = true)
    (host : String) :
    contentFields settings namespaces host content = contentFields settings namespaces host content' := by
  induction added generalizing host with
  | @child namespaces content name attributes inside excluded bindless =>
    have plain := bindless
    simp only [Bindless] at plain
    have nothing : (Content.element name attributes inside).elementFields settings namespaces host = [] := by
      rw [elementFields_eq, declare_declareless namespaces plain.1, if_pos excluded]
    rw [contentFields, bound_bindless namespaces _ bindless, nothing, List.nil_append]
  | @mark namespaces name before after key value inside content declares excluded =>
    have declared := declare_insert namespaces before after value declares
    have kept := attributeFields_insert (Builder.declare namespaces (before ++ after)) before after value excluded
    rw [contentFields, contentFields, bound, bound, declared]
    rw [elementFields_congr host name declared.symm kept.symm rfl fun _ => rfl]
  | within name attributes content added ih =>
    subst isInside
    have same := elementFields_congr host name rfl rfl added.text_eq fun host => ih (Bool.true_or _) host
    rw [contentFields, contentFields, same, bound, bound, added.bound_eq]
  | later part added ih => rw [contentFields, contentFields, ih isInside]

theorem Added.run_eq (added : Added settings inEvent namespaces content content') (isOutside : inEvent = false)
    (depth : Nat) (rest : List Step) :
    Builder.run settings ⟨namespaces, [], depth, 0⟩ (stepsOf content ++ rest) =
      Builder.run settings ⟨namespaces, [], depth, 0⟩ (stepsOf content' ++ rest) := by
  induction added generalizing depth rest with
  | child name attributes inside excluded bindless => cases isOutside
  | mark name before after value inside content declares excluded => cases isOutside
  | @within inEvent namespaces name attributes inside inside' content added ih =>
    subst isOutside
    apply run_within_congr settings name attributes content namespaces depth rest added.bound_eq added.text_eq
    · exact fun isEvent => added.fields_eq (Bool.or_eq_true_iff.mpr (Or.inr isEvent)) ""
    · exact fun isOther => ih (Bool.or_eq_false_iff.mpr ⟨rfl, isOther⟩) (depth + 1)
  | later part added ih => exact run_later_congr settings part (ih isOutside depth rest)

theorem run_sameShown {steps steps' : List Step} (same : SameShown settings content content')
    (spells : Spells steps content) (spells' : Spells steps' content') :
    Builder.empty.run settings steps = Builder.empty.run settings steps' := by
  apply run_of_eqvGen settings _ same spells spells'
  intro content content' added
  have whole := added.run_eq rfl 0 []
  rwa [List.append_nil, List.append_nil] at whole

end Xml

/-- What is excluded has no effect: events, and documents, that differ only in it give the same trees. -/
theorem excluded_without_effect :
    (∀ (namespaces : Namespaces) (event event' : Json.Value), Json.SameShown settings event event' →
      event.member? "@context" = event'.member? "@context" →
      Json.eventTree settings namespaces event = Json.eventTree settings namespaces event' ∧
        hashValue settings namespaces event = hashValue settings namespaces event') ∧
    ∀ (content content' : List Xml.Content) (steps steps' : List Xml.Step), Xml.SameShown settings content content' →
      Xml.Spells steps content → Xml.Spells steps' content' →
      Xml.Builder.empty.run settings steps = Xml.Builder.empty.run settings steps' := by
  constructor
  · intro namespaces event event' same context
    have trees := Json.eventTree_sameShown same context namespaces
    exact ⟨trees, by rw [hashValue, hashValue, trees]⟩
  · exact fun _ _ _ _ same spells spells' => Xml.run_sameShown same spells spells'

def shownParts : Json.Value :=
  .object [("type", .string "ObjectEvent"), ("example:parts", .array [.object [("b", .string "1")]])]

def timedParts : Json.Value :=
  .object [("type", .string "ObjectEvent"),
    ("example:parts", .array [.object [("recordTime", .null), ("b", .string "1")]])]

theorem sameShown_parts : Json.SameShown Settings.standard shownParts timedParts :=
  .rel _ _ (.member [("type", .string "ObjectEvent")] [] "example:parts"
    (.item [] [] (.here (.object [] [("b", .string "1")] .null (by decide +kernel)))))

def shownContent : List Xml.Content :=
  [.element "list" [("xmlns:e", "urn:epcglobal:epcis:xsd:1")] [.element "e:ObjectEvent" [] [.element "note" [] []]]]

theorem sameShown_noted : Xml.SameShown Settings.standard shownContent Xml.notedContent := by
  apply Relation.EqvGen.rel
  apply Xml.Added.within
  apply Xml.Added.within
  have inEvent : (false || isEventType (Xml.strippedName (Xml.Builder.declare NameTable.empty
      [("xmlns:e", "urn:epcglobal:epcis:xsd:1")]) "list") ||
      isEventType (Xml.strippedName (Xml.Builder.declare (Xml.Builder.declare NameTable.empty
        [("xmlns:e", "urn:epcglobal:epcis:xsd:1")]) []) "e:ObjectEvent")) = true := by
    decide +kernel
  rw [inEvent]
  apply Xml.Added.later
  apply Xml.Added.child
  · decide +kernel
  · simp [Xml.Content.Bindless, Xml.Content.AllBindless, Xml.Content.Declareless]

theorem excluded_without_effect_parts :
    (Json.SameShown Settings.standard shownParts timedParts ∧
      shownParts.member? "@context" = timedParts.member? "@context" ∧
      Xml.SameShown Settings.standard shownContent Xml.notedContent ∧
      Xml.Spells Xml.notedSteps Xml.notedContent ∧ Xml.Spells (Xml.Content.stepsOf shownContent) shownContent) ∧
    Json.eventTree Settings.standard NameTable.empty shownParts =
      Json.eventTree Settings.standard NameTable.empty timedParts ∧
    hashValue Settings.standard NameTable.empty shownParts = hashValue Settings.standard NameTable.empty timedParts ∧
    Xml.Builder.empty.run Settings.standard (Xml.Content.stepsOf shownContent) =
      Xml.Builder.empty.run Settings.standard Xml.notedSteps := by
  have context : shownParts.member? "@context" = timedParts.member? "@context" := rfl
  have spells : Xml.Spells (Xml.Content.stepsOf shownContent) shownContent :=
    .element "list" _ (.element "e:ObjectEvent" [] (.element "note" [] .nil .nil) .nil) .nil
  have effect := excluded_without_effect Settings.standard
  have trees := effect.1 NameTable.empty shownParts timedParts sameShown_parts context
  have runs := effect.2 shownContent Xml.notedContent _ _ sameShown_noted spells Xml.spells_noted
  exact ⟨⟨sameShown_parts, context, sameShown_noted, Xml.spells_noted, spells⟩, trees.1, trees.2, runs⟩

end EpcisDigest
