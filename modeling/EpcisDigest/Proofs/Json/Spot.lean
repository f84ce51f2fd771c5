import EpcisDigest.Proofs.Event.StandardAlike
import EpcisDigest.Proofs.Json.MemberOrder

namespace EpcisDigest.Json

/-- Where a value stands in an event: an object the members of which are the fields of a place, or the value of such
    a member. -/
inductive Spot where
  | object (lineage : Lineage)
  | member (lineage : Lineage) (name : String)

namespace Spot

def lineage : Spot → Lineage
  | object lineage => lineage
  | member lineage _ => lineage

def path : Spot → List String
  | object lineage => lineage.path
  | member lineage name => Lineage.path (some name :: lineage)

def fields (settings : Settings) : Spot → Value → List Field
  | object _, value => objectFields settings value.members
  | member _ name, value => valueFields settings name value

def view : Spot → List Entry → Option (List Entry)
  | object _ => Entry.sorted?
  | member _ _ => some

end Spot

namespace ListStyle

def lineage (style : ListStyle) (lineage : Lineage) (name : String) : Lineage :=
  match style with
  | .repeated => lineage
  | _ => some name :: lineage

def spot (style : ListStyle) (lineage : Lineage) (name : String) (item : Value) : Spot :=
  match style, item with
  | .named entry, _ => .member (style.lineage lineage name) entry
  | .unnamed, .object _ => .object (none :: style.lineage lineage name)
  | .repeated, .array _ => .member (none :: style.lineage lineage name) name
  | _, _ => .member (style.lineage lineage name) name

end ListStyle

inductive ChangedIn (change : Lineage → List (String × Value) → List (String × Value) → Prop) :
    Spot → Value → Value → Prop where
  | here {lineage : Lineage} {members members' : List (String × Value)} (changed : change lineage members members') :
      ChangedIn change (.object lineage) (.object members) (.object members')
  | member {lineage : Lineage} {value value' : Value} (before after : List (String × Value)) (name : String)
      (inside : ChangedIn change (.member lineage name) value value') :
      ChangedIn change (.object lineage) (.object (before ++ (name, value) :: after))
        (.object (before ++ (name, value') :: after))
  | object {lineage : Lineage} {name : String} {members members' : List (String × Value)}
      (inside : ChangedIn change (.object (some name :: lineage)) (.object members) (.object members')) :
      ChangedIn change (.member lineage name) (.object members) (.object members')
  | item {lineage : Lineage} {name : String} {value value' : Value} (before after : List Value)
      (inside : ChangedIn change ((ListStyle.ofName name).spot lineage name value) value value') :
      ChangedIn change (.member lineage name) (.array (before ++ value :: after)) (.array (before ++ value' :: after))

variable {change : Lineage → List (String × Value) → List (String × Value) → Prop} {spot : Spot} {value value' : Value}

theorem ChangedIn.shape (changed : ChangedIn change spot value value') :
    (∃ members members', value = .object members ∧ value' = .object members') ∨
      ∃ items items', value = .array items ∧ value' = .array items' := by
  cases changed with
  | here changed => exact .inl ⟨_, _, rfl, rfl⟩
  | member before after name inside => exact .inl ⟨_, _, rfl, rfl⟩
  | object inside => exact .inl ⟨_, _, rfl, rfl⟩
  | item before after inside => exact .inr ⟨_, _, rfl, rfl⟩

theorem ListStyle.isSome_lookup?_above (style : ListStyle) {lineage : Lineage} {name : String} (item : Value)
    (found : (Catalog.lookup? (style.spot lineage name item).path).isSome = true) :
    (Catalog.lookup? (Lineage.path (some name :: lineage))).isSome = true := by
  have unwrapped : ∀ lineage : Lineage, Lineage.path (some name :: none :: lineage) = Lineage.path (some name :: lineage) := by
    intro lineage
    rw [path_append, path_append, path_append]
    exact congrArg (· ++ _) (List.append_nil _)
  cases style with
  | named entry => exact EpcisDigest.isSome_lookup?_above found
  | unnamed => cases item <;> exact EpcisDigest.isSome_lookup?_above found
  | repeated =>
    cases item with
    | array nested => exact unwrapped lineage ▸ found
    | _ => exact found

/-- Where only objects in places of the catalog are changed, nothing else is. -/
theorem ChangedIn.found (located : ∀ lineage members members', change lineage members members' →
      members = members' ∨ (Catalog.lookup? lineage.path).isSome = true)
    (changed : ChangedIn change spot value value') :
    value = value' ∨ (Catalog.lookup? spot.path).isSome = true := by
  induction changed with
  | here changed => exact (located _ _ _ changed).imp_left (congrArg Value.object)
  | member before after name inside ih =>
    refine ih.imp (fun same => ?_) isSome_lookup?_above
    rw [same]
  | object inside ih => exact ih
  | item before after inside ih =>
    refine ih.imp (fun same => ?_) (ListStyle.isSome_lookup?_above _ _)
    rw [same]

section KeptAt

variable (settings : Settings) (namespaces : Namespaces)

def KeptAt (view : List Entry → Option (List Entry)) (lineage : Lineage) (fields others : List Field) : Prop :=
  fields = others ∨ StandardAlike settings namespaces view lineage fields others

variable {settings namespaces} {lineage : Lineage} {fields others : List Field}

namespace KeptAt

theorem between (kept : KeptAt settings namespaces some lineage fields others) (before after : List Field) :
    KeptAt settings namespaces some lineage (before ++ (fields ++ after)) (before ++ (others ++ after)) := by
  rcases kept with rfl | alike
  · exact .inl rfl
  · exact .inr (alike.between before after)

theorem sorted (kept : KeptAt settings namespaces some lineage fields others) :
    KeptAt settings namespaces Entry.sorted? lineage fields others :=
  kept.imp id StandardAlike.sorted

theorem node {name : Option String} (kept : KeptAt settings namespaces Entry.sorted? (name :: lineage) fields others)
    (value : Option String) :
    KeptAt settings namespaces some lineage [⟨name, value, fields⟩] [⟨name, value, others⟩] := by
  rcases kept with rfl | alike
  · exact .inl rfl
  · exact .inr (alike.node value)

theorem unlessExcluded (kept : KeptAt settings namespaces some lineage fields others) (name : String) :
    KeptAt settings namespaces some lineage (unlessExcluded settings name fields)
      (Json.unlessExcluded settings name others) := by
  rw [Json.unlessExcluded, Json.unlessExcluded]
  split
  · exact .inl rfl
  · exact kept

theorem enclose {style : ListStyle} {name : String}
    (kept : KeptAt settings namespaces some (style.lineage lineage name) fields others) :
    KeptAt settings namespaces some lineage (style.enclose name fields) (style.enclose name others) := by
  cases style with
  | repeated => exact kept
  | named entry => exact kept.sorted.node none
  | unnamed => exact kept.sorted.node none

theorem siblings_eq (kept : KeptAt settings namespaces Entry.sorted? lineage fields others) :
    SameSiblings settings namespaces Entry.sorted? lineage fields others := by
  rcases kept with rfl | alike
  · exact rfl
  · exact alike.siblings

end KeptAt

theorem itemFields_object (style : ListStyle) (name : String) (members : List (String × Value)) :
    itemFields settings style name [.object members] =
      match style with
      | .named entry => memberFields settings entry (.object members)
      | .unnamed => [Field.wrapper (objectFields settings members)]
      | .repeated => memberFields settings name (.object members) := by
  cases style <;> simp [itemFields]

theorem itemFields_array (style : ListStyle) (name : String) (nested : List Value) :
    itemFields settings style name [.array nested] =
      match style with
      | .named entry => memberFields settings entry (.array nested)
      | .unnamed => memberFields settings name (.array nested)
      | .repeated => [Field.wrapper (valueFields settings name (.array nested))] := by
  cases style <;> simp [itemFields, valueFields]

theorem kept_itemFields {style : ListStyle} {name : String} {value value' : Value}
    (shape : (∃ members members', value = .object members ∧ value' = .object members') ∨
      ∃ items items', value = .array items ∧ value' = .array items')
    (kept : KeptAt settings namespaces (style.spot lineage name value).view (style.spot lineage name value).lineage
      ((style.spot lineage name value).fields settings value)
      ((style.spot lineage name value).fields settings value')) :
    KeptAt settings namespaces some (style.lineage lineage name) (itemFields settings style name [value])
      (itemFields settings style name [value']) := by
  rcases shape with ⟨members, members', rfl, rfl⟩ | ⟨nested, nested', rfl, rfl⟩
  · rw [itemFields_object, itemFields_object]
    cases style with
    | named entry =>
      rw [memberFields_eq, memberFields_eq]
      exact kept.unlessExcluded entry
    | unnamed => exact kept.node none
    | repeated =>
      rw [memberFields_eq, memberFields_eq]
      exact kept.unlessExcluded name
  · rw [itemFields_array, itemFields_array]
    cases style with
    | named entry =>
      rw [memberFields_eq, memberFields_eq]
      exact kept.unlessExcluded entry
    | unnamed =>
      rw [memberFields_eq, memberFields_eq]
      exact kept.unlessExcluded name
    | repeated => exact kept.sorted.node none

/-- What is kept where an object is changed is kept at every spot around it. -/
theorem ChangedIn.kept (keeps : ∀ lineage members members', change lineage members members' →
      KeptAt settings namespaces Entry.sorted? lineage (objectFields settings members) (objectFields settings members'))
    (changed : ChangedIn change spot value value') :
    KeptAt settings namespaces spot.view spot.lineage (spot.fields settings value) (spot.fields settings value') := by
  -- Each way up leaves what stands beside the change as it is, and a field around it in its region.
  induction changed with
  | here changed => exact keeps _ _ _ changed
  | member before after name inside ih =>
    simp only [Spot.fields, Value.members, objectFields_append, objectFields, memberFields_eq]
    exact ((ih.unlessExcluded name).between _ _).sorted
  | object inside ih => exact ih.node none
  | @item lineage name value value' before after inside ih =>
    have own := kept_itemFields inside.shape ih
    have all : ∀ item, itemFields settings (ListStyle.ofName name) name (before ++ item :: after) =
        itemFields settings (ListStyle.ofName name) name before ++
          (itemFields settings (ListStyle.ofName name) name [item] ++
            itemFields settings (ListStyle.ofName name) name after) := by
      intro item
      rw [itemFields_append, itemFields_cons]
    simp only [Spot.fields, valueFields, all]
    exact (own.between _ _).enclose

end KeptAt

theorem ChangedIn.eventNamespaces_eq {members : List (String × Value)} {event' : Value}
    (located : ∀ lineage members members', change lineage members members' →
      members = members' ∨ (Catalog.lookup? lineage.path).isSome = true)
    (bound : ∀ members members', change [none] members members' → ∀ namespaces,
      eventNamespaces namespaces (.object members) = eventNamespaces namespaces (.object members'))
    (changed : ChangedIn change (.object [none]) (.object members) event') (namespaces : Namespaces) :
    eventNamespaces namespaces (.object members) = eventNamespaces namespaces event' := by
  generalize written : Value.object members = event at changed
  cases changed with
  | here changed => exact bound _ _ changed namespaces
  | member before after name inside =>
    apply eventNamespaces_member
    rintro rfl
    rcases inside.found located with same | found
    · rw [same]
    · exact absurd found (by decide +kernel)

end EpcisDigest.Json
