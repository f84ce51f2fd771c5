import EpcisDigest.Event.Canonical

namespace EpcisDigest

structure Slot where
  name : Option String
  value : Option String
  parent : Option Nat
  children : Array Nat
  deriving DecidableEq

/-- An event as numbered nodes. Node 0 is the event itself, and a node is numbered when it is added. -/
structure EventTree where
  slots : Array Slot
  namespaces : Namespaces
  deriving DecidableEq

namespace EventTree

def empty (namespaces : Namespaces) : EventTree :=
  ⟨#[⟨none, none, none, #[]⟩], namespaces⟩

def size (tree : EventTree) : Nat := tree.slots.size

def isEmpty (tree : EventTree) : Bool := tree.size == 1

def add (tree : EventTree) (parent : Nat) (name value : Option String) : EventTree × Nat :=
  let node := tree.size
  let slots := tree.slots.modify parent fun slot => { slot with children := slot.children.push node }
  ({ tree with slots := slots.push ⟨name, value, some parent, #[]⟩ }, node)

def addNode (tree : EventTree) (parent : Nat) (name : String) : EventTree × Nat :=
  tree.add parent (some name) none

def addLeaf (tree : EventTree) (parent : Nat) (name value : String) : EventTree × Nat :=
  tree.add parent (some name) (some value)

def addWrapper (tree : EventTree) (parent : Nat) : EventTree × Nat :=
  tree.add parent none none

def setValue (tree : EventTree) (node : Nat) (value : String) : EventTree :=
  { tree with slots := tree.slots.modify node fun slot => { slot with value := some value } }

def setNamespaces (tree : EventTree) (namespaces : Namespaces) : EventTree :=
  { tree with namespaces }

def name? (tree : EventTree) (node : Nat) : Option String :=
  tree.slots[node]?.bind Slot.name

def value? (tree : EventTree) (node : Nat) : Option String :=
  tree.slots[node]?.bind Slot.value

def children (tree : EventTree) (node : Nat) : List Nat :=
  (tree.slots[node]?.map fun slot => slot.children.toList).getD []

def parent? (tree : EventTree) (node : Nat) : Option Nat :=
  tree.slots[node]?.bind Slot.parent

def ancestorsWithin (tree : EventTree) : Nat → Nat → List Nat
  | 0, _ => []
  | steps + 1, node =>
    match tree.parent? node with
    | none => []
    | some parent => parent :: ancestorsWithin tree steps parent

def ancestors (tree : EventTree) (node : Nat) : List Nat :=
  tree.ancestorsWithin tree.size node

def lineage (tree : EventTree) (node : Nat) : Lineage :=
  (tree.ancestors node).map tree.name?

def fieldPath (tree : EventTree) (node : Nat) : List String :=
  Lineage.path (tree.name? node :: tree.lineage node)

def parentField? (tree : EventTree) (node : Nat) : Option String :=
  (tree.lineage node).parentField?

def isUnderIlmd (tree : EventTree) (node : Nat) : Bool :=
  (tree.lineage node).isUnderIlmd

def isStandard (tree : EventTree) (node : Nat) : Bool :=
  (tree.lineage node).isStandard (tree.name? node)

def fieldWithin (tree : EventTree) : Nat → Nat → Field
  | 0, node => ⟨tree.name? node, tree.value? node, []⟩
  | depth + 1, node =>
    ⟨tree.name? node, tree.value? node, (tree.children node).map (fieldWithin tree depth)⟩

def field (tree : EventTree) (node : Nat) : Field :=
  tree.fieldWithin tree.size node

def fields (tree : EventTree) : List Field :=
  (tree.field 0).children

mutual

def addField (tree : EventTree) (parent : Nat) : Field → EventTree
  | ⟨name, value, children⟩ =>
    let (tree, node) := tree.add parent name value
    addFields tree node children

def addFields (tree : EventTree) (parent : Nat) : List Field → EventTree
  | [] => tree
  | field :: fields => addFields (addField tree parent field) parent fields

end

def ofFields (namespaces : Namespaces) (fields : List Field) : EventTree :=
  addFields (empty namespaces) 0 fields

def canonicalForm (settings : Settings) (tree : EventTree) :
    Except CanonicalFault CanonicalForm :=
  EpcisDigest.canonicalForm settings tree.namespaces tree.fields

def results (settings : Settings) (tree : EventTree) : Except CanonicalFault Results :=
  (tree.canonicalForm settings).map fun form =>
    Results.ofForm form settings.outputs settings.separator settings.version

end EventTree

end EpcisDigest
