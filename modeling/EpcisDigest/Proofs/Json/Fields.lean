import EpcisDigest.Json.EventFields

namespace EpcisDigest.Json

namespace Value

def members : Value → List (String × Value)
  | object members => members
  | _ => []

def isScalar : Value → Bool
  | array _ => false
  | object _ => false
  | _ => true

/-- One value became another one by a change to it or to one value somewhere in it. -/
inductive Within (change : Value → Value → Prop) : Value → Value → Prop where
  | here {value value' : Value} (changed : change value value') : Within change value value'
  | member {value value' : Value} (before after : List (String × Value)) (name : String)
      (within : Within change value value') :
      Within change (object (before ++ (name, value) :: after)) (object (before ++ (name, value') :: after))
  | item {value value' : Value} (before after : List Value) (within : Within change value value') :
      Within change (array (before ++ value :: after)) (array (before ++ value' :: after))

end Value

section Fields

variable (settings : Settings)

theorem objectFields_append (first others : List (String × Value)) :
    objectFields settings (first ++ others) = objectFields settings first ++ objectFields settings others := by
  induction first with
  | nil => rfl
  | cons member first ih => rw [List.cons_append, objectFields, objectFields, ih, List.append_assoc]

theorem itemFields_cons (style : ListStyle) (name : String) (item : Value) (items : List Value) :
    itemFields settings style name (item :: items) =
      itemFields settings style name [item] ++ itemFields settings style name items := by
  cases style <;> cases item <;> simp [itemFields]

theorem itemFields_append (style : ListStyle) (name : String) (first others : List Value) :
    itemFields settings style name (first ++ others) =
      itemFields settings style name first ++ itemFields settings style name others := by
  induction first with
  | nil => rfl
  | cons item first ih =>
    rw [List.cons_append, itemFields_cons, ih, itemFields_cons settings style name item first, List.append_assoc]

theorem itemFields_named (name entry : String) (items : List Value) :
    itemFields settings (.named entry) name items = items.flatMap (memberFields settings entry) := by
  induction items with
  | nil => rfl
  | cons item items ih => rw [itemFields, ih, List.flatMap_cons]

theorem itemFields_repeated (name : String) {items : List Value}
    (flat : ∀ item ∈ items, ∀ nested, item ≠ Value.array nested) :
    itemFields settings .repeated name items = items.flatMap (memberFields settings name) := by
  induction items with
  | nil => rfl
  | cons item items ih =>
    have others := ih fun other member => flat other (List.mem_cons_of_mem _ member)
    have own := flat item List.mem_cons_self
    cases item with
    | array nested => exact absurd rfl (own nested)
    | _ => simp only [itemFields, others, List.flatMap_cons]

def valueFields (name : String) : Value → List Field
  | .object members => [Field.node name (objectFields settings members)]
  | .array items => (ListStyle.ofName name).enclose name (itemFields settings (ListStyle.ofName name) name items)
  | .null => [Field.node name []]
  | .string text => [Field.leaf name text]
  | .number literal => [Field.leaf name literal]
  | .bool true => [Field.leaf name "true"]
  | .bool false => [Field.leaf name "false"]

theorem memberFields_eq (name : String) (value : Value) :
    memberFields settings name value = unlessExcluded settings name (valueFields settings name value) := by
  cases value with
  | bool value => cases value <;> rfl
  | _ => rfl

theorem memberFields_of_excluded {name : String} (excluded : settings.isExcluded name = true) (value : Value) :
    memberFields settings name value = [] := by
  rw [memberFields_eq, unlessExcluded, if_pos excluded]

def eventNamespaces (namespaces : Namespaces) (event : Value) : Namespaces :=
  match event.member? "@context" with
  | some context => mergeContext namespaces context
  | none => namespaces

theorem eventTree_eq (namespaces : Namespaces) (event : Value) :
    eventTree settings namespaces event =
      if event.kind = "an object" then
        .ok (EventTree.ofFields (eventNamespaces namespaces event) (objectFields settings event.members))
      else .error ⟨event.kind⟩ := by
  cases event with
  | object members =>
    rw [Value.kind, if_pos rfl]
    rfl
  | _ => simp [eventTree, Value.kind]

end Fields

/-- Two relations between fields: the first one is kept when these stand beside or below others, and then
    the second one suffices. -/
structure Congruence (same below : List Field → List Field → Prop) : Prop where
  refl : ∀ fields, same fields fields
  append : ∀ {fields others more more'}, same fields others → same more more' → same (fields ++ more) (others ++ more')
  weaken : ∀ {fields others}, same fields others → below fields others
  node : ∀ name value {fields others}, below fields others → same [⟨name, value, fields⟩] [⟨name, value, others⟩]

theorem congruence_eq : Congruence Eq Eq where
  refl _ := rfl
  append first second := first ▸ second ▸ rfl
  weaken same := same
  node _ _ _ _ same := same ▸ rfl

variable {settings : Settings} {same below : List Field → List Field → Prop}

variable (settings same below) in
inductive Related : Value → Value → Prop where
  | object {members members' : List (String × Value)}
      (fields : below (objectFields settings members) (objectFields settings members')) :
      Related (.object members) (.object members')
  | array {items items' : List Value}
      (fields : ∀ style name, same (itemFields settings style name items) (itemFields settings style name items')) :
      Related (.array items) (.array items')

namespace Related

variable {value value' : Value} (congruence : Congruence same below)

include congruence

theorem enclose (style : ListStyle) (name : String) {fields others : List Field} (related : same fields others) :
    same (style.enclose name fields) (style.enclose name others) := by
  cases style with
  | repeated => exact related
  | named entry => exact congruence.node _ _ (congruence.weaken related)
  | unnamed => exact congruence.node _ _ (congruence.weaken related)

theorem valueFields (related : Related settings same below value value') (name : String) :
    same (valueFields settings name value) (valueFields settings name value') := by
  cases related with
  | object fields => exact congruence.node _ _ fields
  | array fields => exact enclose congruence _ name (fields _ name)

theorem memberFields (related : Related settings same below value value') (name : String) :
    same (memberFields settings name value) (memberFields settings name value') := by
  rw [memberFields_eq, memberFields_eq, unlessExcluded, unlessExcluded]
  split
  · exact congruence.refl []
  · exact related.valueFields congruence name

theorem itemFields (related : Related settings same below value value') (style : ListStyle) (name : String) :
    same (itemFields settings style name [value]) (itemFields settings style name [value']) := by
  have own := related.memberFields congruence
  cases related with
  | object fields =>
    cases style with
    | named entry => simpa [Json.itemFields] using own entry
    | unnamed => simpa [Json.itemFields, Field.wrapper] using congruence.node none none fields
    | repeated => simpa [Json.itemFields] using own name
  | array fields =>
    cases style with
    | named entry => simpa [Json.itemFields] using own entry
    | unnamed => simpa [Json.itemFields] using own name
    | repeated =>
      have inside := enclose congruence (ListStyle.ofName name) name (fields (ListStyle.ofName name) name)
      simpa [Json.itemFields, Field.wrapper] using congruence.node none none (congruence.weaken inside)

end Related

structure Inherited (settings : Settings) (holds : Value → Prop) : Prop where
  member : ∀ {members name value}, holds (.object members) → (name, value) ∈ members →
    settings.isExcluded name = false → holds value
  item : ∀ {items item}, holds (.array items) → item ∈ items → holds item

/-- A change somewhere in a value relates the fields when it does so by itself. -/
theorem Value.Within.related {change : Value → Value → Prop} {holds : Value → Prop} {value value' : Value}
    (congruence : Congruence same below) (inherited : Inherited settings holds)
    (changes : ∀ value value', holds value → change value value' → Related settings same below value value')
    (within : Within change value value') (held : holds value) : Related settings same below value value' := by
  induction within with
  | here changed => exact changes _ _ held changed
  | member before after name within ih =>
    apply Related.object
    rw [objectFields_append, objectFields_append, objectFields, objectFields]
    apply congruence.weaken
    apply congruence.append (congruence.refl _)
    apply congruence.append _ (congruence.refl _)
    by_cases excluded : settings.isExcluded name = true
    · rw [memberFields_of_excluded settings excluded, memberFields_of_excluded settings excluded]
      exact congruence.refl []
    · have inside := inherited.member held List.mem_append_cons_self (Bool.eq_false_iff.mpr excluded)
      exact (ih inside).memberFields congruence name
  | item before after within ih =>
    apply Related.array
    intro style name
    have inside := inherited.item held List.mem_append_cons_self
    rw [List.append_cons, itemFields_append, itemFields_append, List.append_cons, itemFields_append, itemFields_append]
    apply congruence.append _ (congruence.refl _)
    exact congruence.append (congruence.refl _) ((ih inside).itemFields congruence style name)

end EpcisDigest.Json
