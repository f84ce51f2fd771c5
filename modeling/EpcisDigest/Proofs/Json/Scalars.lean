import EpcisDigest.Proofs.Abstract.Elements
import EpcisDigest.Proofs.Event.Preorder
import EpcisDigest.Proofs.Json.Numbering

namespace EpcisDigest.Json

open Abstract (entryName?)
open EpcisDigest.Field

def isHidden (settings : Settings) (name : String) : Value → Bool
  | .array _ => settings.isExcluded name || (entryName? name).any settings.isExcluded
  | _ => settings.isExcluded name

section Texts

variable (settings : Settings)

mutual

/-- The texts of the strings, numbers and truth values in a value in document order, apart from those in hidden
    members. -/
def valueTexts : Value → List String
  | .null => []
  | .bool true => ["true"]
  | .bool false => ["false"]
  | .number literal => [literal]
  | .string text => [text]
  | .array items => itemTexts items
  | .object members => memberTexts members

def itemTexts : List Value → List String
  | [] => []
  | item :: items => valueTexts item ++ itemTexts items

def memberTexts : List (String × Value) → List String
  | [] => []
  | (name, value) :: members => (if isHidden settings name value then [] else valueTexts value) ++ memberTexts members

end

end Texts

theorem valuesOf_leaf (name text : String) : valuesOf [Field.leaf name text] = [text] := rfl

theorem valuesOf_node (name : String) (fields : List Field) : valuesOf [Field.node name fields] = valuesOf fields := by
  rw [Field.node, valuesOf, values, valuesOf, List.append_nil]
  rfl

theorem valuesOf_wrapper (fields : List Field) : valuesOf [Field.wrapper fields] = valuesOf fields := by
  rw [Field.wrapper, valuesOf, values, valuesOf, List.append_nil]
  rfl

theorem valuesOf_enclose (style : ListStyle) (name : String) (fields : List Field) :
    valuesOf (style.enclose name fields) = valuesOf fields := by
  cases style with
  | repeated => rfl
  | named entry => exact valuesOf_node name fields
  | unnamed => exact valuesOf_node name fields

theorem entryName_named {name entry : String} (named : ListStyle.ofName name = .named entry) :
    entryName? name = some entry := by
  rw [Abstract.style_of_entryName] at named
  cases entryName : entryName? name with
  | none =>
    rw [entryName] at named
    dsimp only at named
    split at named <;> cases named
  | some other =>
    rw [entryName] at named
    cases named
    rfl

theorem entryName_unnamed {name : String} (unnamed : ∀ entry, ListStyle.ofName name ≠ .named entry) :
    entryName? name = none := by
  rw [Abstract.style_of_entryName] at unnamed
  cases entryName : entryName? name with
  | none => rfl
  | some entry => exact absurd (by rw [entryName]) (unnamed entry)

theorem entryName_entry {list entry : String} (isEntry : entryName? list = some entry) : entryName? entry = none := by
  unfold entryName? at isEntry
  split_ifs at isEntry <;> cases isEntry <;> decide

section Values

variable (settings : Settings)

theorem valuesOf_unlessExcluded (name : String) (fields : List Field) :
    valuesOf (unlessExcluded settings name fields) = if settings.isExcluded name then [] else valuesOf fields := by
  rw [unlessExcluded]
  split <;> rfl

theorem isHidden_unlisted {name : String} (unlisted : entryName? name = none) (value : Value) :
    isHidden settings name value = settings.isExcluded name := by
  cases value with
  | array items => rw [isHidden, unlisted, Option.any_none, Bool.or_false]
  | _ => rfl

mutual

theorem values_memberFields (name : String) : ∀ value, valuesOf (memberFields settings name value) =
    if isHidden settings name value then [] else valueTexts settings value
  | .null => by
    rw [memberFields, valuesOf_unlessExcluded, valuesOf_node]
    rfl
  | .bool true => by
    rw [memberFields, valuesOf_unlessExcluded, valuesOf_leaf]
    rfl
  | .bool false => by
    rw [memberFields, valuesOf_unlessExcluded, valuesOf_leaf]
    rfl
  | .number literal => by
    rw [memberFields, valuesOf_unlessExcluded, valuesOf_leaf]
    rfl
  | .string text => by
    rw [memberFields, valuesOf_unlessExcluded, valuesOf_leaf]
    rfl
  | .array items => by
    rw [memberFields, valuesOf_unlessExcluded, valuesOf_enclose, isHidden, valueTexts]
    cases excluded : settings.isExcluded name with
    | true => rfl
    | false => exact values_itemFields name excluded _ rfl items
  | .object members => by
    rw [memberFields, valuesOf_unlessExcluded, valuesOf_node, values_objectFields members]
    rfl

theorem values_itemFields (name : String) (kept : settings.isExcluded name = false) (style : ListStyle)
    (isStyle : ListStyle.ofName name = style) : ∀ items, valuesOf (itemFields settings style name items) =
      if (entryName? name).any settings.isExcluded then [] else itemTexts settings items
  | [] => by
    rw [itemFields, itemTexts, ite_self]
    rfl
  | item :: items => by
    have others := values_itemFields name kept style isStyle items
    unfold itemFields
    rw [valuesOf_append, others, itemTexts]
    cases style with
    | named entry =>
      have listed := entryName_named isStyle
      have own := values_memberFields entry item
      rw [isHidden_unlisted settings (entryName_entry listed)] at own
      dsimp only
      rw [own, listed, Option.any_some]
      split <;> rfl
    | unnamed =>
      have unlisted : entryName? name = none := entryName_unnamed (by simp [isStyle])
      rw [unlisted]
      cases item with
      | object members =>
        dsimp only
        rw [valuesOf_wrapper, values_objectFields members]
        rfl
      | _ =>
        dsimp only
        rw [values_memberFields, isHidden_unlisted settings unlisted, kept]
        rfl
    | repeated =>
      have unlisted : entryName? name = none := entryName_unnamed (by simp [isStyle])
      rw [unlisted]
      cases item with
      | array nested =>
        have inside := values_itemFields name kept _ rfl nested
        rw [unlisted] at inside
        dsimp only
        rw [valuesOf_wrapper, valuesOf_enclose, inside]
        rfl
      | _ =>
        dsimp only
        rw [values_memberFields, isHidden_unlisted settings unlisted, kept]
        rfl

theorem values_objectFields : ∀ members, valuesOf (objectFields settings members) = memberTexts settings members
  | [] => rfl
  | (name, value) :: members => by
    rw [objectFields, valuesOf_append, values_memberFields name value, values_objectFields members, memberTexts]

end

/-- The values in the tree of an event are the texts of its scalars in document order, each once, but for those
    that are hidden; and a walk through the tree comes across its nodes in the order in which they were added. -/
theorem eventTree_keeps_scalars (namespaces : Namespaces) (members : List (String × Value)) :
    ∃ tree, eventTree settings namespaces (.object members) = .ok tree ∧
      tree = addMembers settings (EventTree.empty (eventNamespaces namespaces (.object members))) 0 members ∧
      tree.preorder = List.range tree.size ∧
      tree.preorder.filterMap tree.value? = memberTexts settings members := by
  refine ⟨_, rfl, ?_, EventTree.preorder_ofFields _ _, ?_⟩
  · exact Except.ok.inj (eventTree_added settings namespaces members)
  · rw [EventTree.values_ofFields, values_objectFields]

end Values

end EpcisDigest.Json
