import EpcisDigest.Proofs.Event.OfFields
import EpcisDigest.Proofs.Json.Fields

namespace EpcisDigest

namespace EventTree

theorem addFields_append (tree : EventTree) (parent : Nat) (first others : List Field) :
    addFields tree parent (first ++ others) = addFields (addFields tree parent first) parent others := by
  induction first generalizing tree with
  | nil => rw [List.nil_append, addFields]
  | cons field first ih => rw [List.cons_append, addFields, addFields, ih]

theorem addFields_single (tree : EventTree) (parent : Nat) (name value : Option String) (children : List Field) :
    addFields tree parent [⟨name, value, children⟩] =
      addFields (tree.add parent name value).1 (tree.add parent name value).2 children := by
  rw [addFields, addFields, addField]

theorem addFields_leaf (tree : EventTree) (parent : Nat) (name value : String) :
    addFields tree parent [Field.leaf name value] = (tree.addLeaf parent name value).1 := by
  rw [Field.leaf, addFields_single, addFields]
  rfl

theorem addFields_node (tree : EventTree) (parent : Nat) (name : String) (children : List Field) :
    addFields tree parent [Field.node name children] =
      addFields (tree.addNode parent name).1 (tree.addNode parent name).2 children :=
  addFields_single tree parent (some name) none children

theorem addFields_wrapper (tree : EventTree) (parent : Nat) (children : List Field) :
    addFields tree parent [Field.wrapper children] =
      addFields (tree.addWrapper parent).1 (tree.addWrapper parent).2 children :=
  addFields_single tree parent none none children

end EventTree

namespace Json

open EventTree (addFields addFields_append addFields_leaf addFields_node addFields_wrapper)

def ListStyle.addList (style : ListStyle) (tree : EventTree) (parent : Nat) (name : String) : EventTree × Nat :=
  match style with
  | .repeated => (tree, parent)
  | _ => tree.addNode parent name

section Adding

variable (settings : Settings)

mutual

def addMember (tree : EventTree) (parent : Nat) (name : String) : Value → EventTree
  | .object members =>
    if settings.isExcluded name then tree
    else addMembers (tree.addNode parent name).1 (tree.addNode parent name).2 members
  | .array items =>
    if settings.isExcluded name then tree
    else
      let list := (ListStyle.ofName name).addList tree parent name
      addItems list.1 list.2 (ListStyle.ofName name) name items
  | .null => if settings.isExcluded name then tree else (tree.addNode parent name).1
  | .string text => if settings.isExcluded name then tree else (tree.addLeaf parent name text).1
  | .number literal => if settings.isExcluded name then tree else (tree.addLeaf parent name literal).1
  | .bool true => if settings.isExcluded name then tree else (tree.addLeaf parent name "true").1
  | .bool false => if settings.isExcluded name then tree else (tree.addLeaf parent name "false").1

def addMembers (tree : EventTree) (parent : Nat) : List (String × Value) → EventTree
  | [] => tree
  | (name, value) :: members => addMembers (addMember tree parent name value) parent members

def addItems (tree : EventTree) (parent : Nat) (style : ListStyle) (name : String) : List Value → EventTree
  | [] => tree
  | item :: items =>
    addItems
      (match style, item with
        | .named entry, item => addMember tree parent entry item
        | .unnamed, .object members => addMembers (tree.addWrapper parent).1 (tree.addWrapper parent).2 members
        | .repeated, .array nested =>
          let wrapper := tree.addWrapper parent
          let list := (ListStyle.ofName name).addList wrapper.1 wrapper.2 name
          addItems list.1 list.2 (ListStyle.ofName name) name nested
        | _, item => addMember tree parent name item)
      parent style name items

end

theorem addFields_enclose (style : ListStyle) (tree : EventTree) (parent : Nat) (name : String) (fields : List Field) :
    addFields tree parent (style.enclose name fields) =
      addFields (style.addList tree parent name).1 (style.addList tree parent name).2 fields := by
  cases style with
  | repeated => rfl
  | named entry => exact addFields_node tree parent name fields
  | unnamed => exact addFields_node tree parent name fields

theorem addFields_unlessExcluded (tree : EventTree) (parent : Nat) (name : String) (fields : List Field) :
    addFields tree parent (unlessExcluded settings name fields) =
      if settings.isExcluded name then tree else addFields tree parent fields := by
  rw [unlessExcluded]
  split
  · rw [addFields]
  · rfl

mutual

theorem addMember_eq (tree : EventTree) (parent : Nat) (name : String) : ∀ value,
    addMember settings tree parent name value = addFields tree parent (memberFields settings name value)
  | .object members => by
    rw [addMember, memberFields, addFields_unlessExcluded, addFields_node, addMembers_eq _ _ members]
  | .array items => by
    rw [addMember, memberFields, addFields_unlessExcluded, addFields_enclose]
    dsimp only
    rw [addItems_eq _ _ _ name items]
  | .null => by
    rw [addMember, memberFields, addFields_unlessExcluded, addFields_node, addFields]
  | .string text => by
    rw [addMember, memberFields, addFields_unlessExcluded, addFields_leaf]
  | .number literal => by
    rw [addMember, memberFields, addFields_unlessExcluded, addFields_leaf]
  | .bool true => by
    rw [addMember, memberFields, addFields_unlessExcluded, addFields_leaf]
  | .bool false => by
    rw [addMember, memberFields, addFields_unlessExcluded, addFields_leaf]

theorem addMembers_eq (tree : EventTree) (parent : Nat) : ∀ members,
    addMembers settings tree parent members = addFields tree parent (objectFields settings members)
  | [] => by
    rw [addMembers, objectFields, addFields]
  | (name, value) :: members => by
    rw [addMembers, objectFields, addFields_append, addMember_eq tree parent name value, addMembers_eq _ parent members]

theorem addItems_eq (tree : EventTree) (parent : Nat) (style : ListStyle) (name : String) : ∀ items,
    addItems settings tree parent style name items = addFields tree parent (itemFields settings style name items)
  | [] => by
    rw [itemFields, addFields]
    rfl
  | item :: items => by
    have behind := fun tree => addItems_eq tree parent style name items
    cases style with
    | named entry =>
      change addItems settings (addMember settings tree parent entry item) parent _ name items =
        addFields tree parent (memberFields settings entry item ++ _)
      rw [behind, addMember_eq tree parent entry item, addFields_append]
    | unnamed =>
      cases item with
      | object members =>
        change addItems settings (addMembers settings (tree.addWrapper parent).1 (tree.addWrapper parent).2 members)
            parent _ name items =
          addFields tree parent ([Field.wrapper (objectFields settings members)] ++ _)
        rw [behind, addMembers_eq _ _ members, addFields_append, addFields_wrapper]
      | _ =>
        change addItems settings (addMember settings tree parent name _) parent _ name items =
          addFields tree parent (memberFields settings name _ ++ _)
        rw [behind, addMember_eq tree parent name _, addFields_append]
    | repeated =>
      cases item with
      | array nested =>
        have list := addFields_enclose (ListStyle.ofName name) (tree.addWrapper parent).1 (tree.addWrapper parent).2 name
          (itemFields settings (ListStyle.ofName name) name nested)
        change addItems settings
            (addItems settings ((ListStyle.ofName name).addList (tree.addWrapper parent).1 (tree.addWrapper parent).2 name).1
              ((ListStyle.ofName name).addList (tree.addWrapper parent).1 (tree.addWrapper parent).2 name).2
              (ListStyle.ofName name) name nested) parent _ name items =
          addFields tree parent ([Field.wrapper ((ListStyle.ofName name).enclose name _)] ++ _)
        rw [behind, addItems_eq _ _ _ name nested, addFields_append, addFields_wrapper, list]
      | _ =>
        change addItems settings (addMember settings tree parent name _) parent _ name items =
          addFields tree parent (memberFields settings name _ ++ _)
        rw [behind, addMember_eq tree parent name _, addFields_append]

end

/-- The nodes of the tree of an event are numbered in the order in which its members and items are read. -/
theorem eventTree_added (namespaces : Namespaces) (members : List (String × Value)) :
    eventTree settings namespaces (.object members) =
      .ok (addMembers settings (EventTree.empty (eventNamespaces namespaces (.object members))) 0 members) := by
  rw [addMembers_eq]
  rfl

end Adding

end Json

end EpcisDigest
