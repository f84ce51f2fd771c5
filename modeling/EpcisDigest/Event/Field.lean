import EpcisDigest.Catalog
import EpcisDigest.NameTable
import EpcisDigest.Text.Pieces

namespace EpcisDigest

/-- A field of an event. Fields without a name hold one entry of a list. -/
structure Field where
  name : Option String
  value : Option String
  children : List Field

namespace Field

def leaf (name value : String) : Field := ⟨some name, some value, []⟩

def node (name : String) (children : List Field) : Field := ⟨some name, none, children⟩

def wrapper (children : List Field) : Field := ⟨none, none, children⟩

def hasChildren (field : Field) : Bool := !field.children.isEmpty

end Field

mutual

def Field.size : Field → Nat
  | ⟨_, _, children⟩ => Field.sizes children + 1

def Field.sizes : List Field → Nat
  | [] => 0
  | field :: fields => field.size + Field.sizes fields

end

/-- The names of a field's ancestors, the nearest first and the event itself last. -/
abbrev Lineage := List (Option String)

def isSynthetic (name : String) : Bool :=
  name == "extension" || name == "baseExtension"

def pathName? (name : Option String) : Option String :=
  name.filter fun name => !isSynthetic name

namespace Lineage

def path (lineage : Lineage) : List String :=
  (lineage.filterMap pathName?).reverse

def parentField? (lineage : Lineage) : Option String :=
  (lineage.filterMap pathName?).head?

def isUnderIlmd (lineage : Lineage) : Bool :=
  List.contains lineage (some "ilmd")

def isStandard (lineage : Lineage) (name : Option String) : Bool :=
  (pathName? name).isNone || lineage.isUnderIlmd || (Catalog.lookup? (path (name :: lineage))).isSome

end Lineage

def qualifiedName (namespaces : Namespaces) (name : String) : String :=
  match Text.cut? ':' name with
  | none => name
  | some (lead, localName) =>
    match namespaces.get? lead with
    | none => name
    | some uri => "\x7b" ++ uri ++ "\x7d" ++ localName

def extensionText (namespaces : Namespaces) (name value : Option String) : String :=
  let shown := (name.map (qualifiedName namespaces)).getD ""
  match value with
  | none => shown
  | some value => if value = "" then shown else shown ++ "=" ++ value

end EpcisDigest
