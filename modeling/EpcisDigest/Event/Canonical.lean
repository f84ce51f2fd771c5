import EpcisDigest.Event.Leaf
import EpcisDigest.Sort.Stable

namespace EpcisDigest

open Time (InvalidTimestamp)

/-- Why an event has no lines. A sorting that breaks down is no error that anyone is handed: the run ends in it. -/
inductive CanonicalFault where
  | timestamp (fault : InvalidTimestamp)
  | unsortable
  deriving DecidableEq

inductive Rank where
  | standard (position : Option Nat)
  | ilmd (key : String)
  | extension (key : String)
  deriving DecidableEq

structure Rendered where
  placed : List String
  hoisted : List String
  deriving DecidableEq

structure Entry where
  rank : Rank
  hasChildren : Bool
  rendered : Rendered
  deriving DecidableEq

def comparePositions : Option Nat → Option Nat → Ordering
  | some a, some b => compare a b
  | some _, none => .lt
  | none, some _ => .gt
  | none, none => .eq

namespace Entry

def text (entry : Entry) : String :=
  "".intercalate (entry.rendered.placed ++ entry.rendered.hoisted)

def tieBreak (a b : Entry) : Ordering :=
  if a.hasChildren && b.hasChildren then compare a.text b.text else .eq

def compare (a b : Entry) : Ordering :=
  match a.rank, b.rank with
  | .extension x, .extension y => (Ord.compare x y).then (a.tieBreak b)
  | .ilmd x, .ilmd y => (Ord.compare x y).then (a.tieBreak b)
  | .standard x, .standard y => (comparePositions x y).then (a.tieBreak b)
  | .extension _, _ => .gt
  | _, .extension _ => .lt
  | .standard _, .ilmd _ => .eq
  | .ilmd _, .standard _ => .eq

/-- Whether an entry may stand before another one. Leaves of one name may stand on either side of fields
    of that name with children, though these have an order of their own. -/
def le (a b : Entry) : Bool :=
  !(b.compare a).isLT

/-- The sorted entries. Where the comparison is no order, the sorting may break down. -/
def sort (entries : List Entry) : Except CanonicalFault (List Entry) :=
  match Sort.stable le entries with
  | some sorted => .ok sorted
  | none => .error .unsortable

def arrange (placement : Placement) (entries : List Entry) : Rendered where
  placed := entries.flatMap fun entry =>
    match placement, entry.rank with
    | .hoisted, .extension _ => []
    | _, _ => entry.rendered.placed
  hoisted := entries.flatMap fun entry =>
    match placement, entry.rank with
    | .hoisted, .extension _ => entry.rendered.placed ++ entry.rendered.hoisted
    | _, _ => entry.rendered.hoisted

end Entry

mutual

def holdsOnlyExtensions (lineage : Lineage) : Field → Bool
  | ⟨name, _, children⟩ =>
    (pathName? name).isNone && !children.isEmpty && !lineage.isUnderIlmd &&
      areExtensions (name :: lineage) children

def areExtensions (lineage : Lineage) : List Field → Bool
  | [] => true
  | field :: fields =>
    (!lineage.isStandard field.name || holdsOnlyExtensions lineage field) &&
      areExtensions lineage fields

end

inductive Region where
  | standard | ilmd | extension
  deriving DecidableEq

def regionOf (lineage : Lineage) (field : Field) : Region :=
  if !lineage.isStandard field.name || holdsOnlyExtensions lineage field then .extension
  else if lineage.isUnderIlmd then .ilmd
  else .standard

def isExcluded (settings : Settings) (name : Option String) : Bool :=
  name.any settings.isExcluded

def extensionKey (namespaces : Namespaces) (field : Field) (lines : List String) : String :=
  match pathName? field.name with
  | some _ => extensionText namespaces field.name field.value
  | none => lines.head?.getD ""

mutual

def extensionLines (settings : Settings) (namespaces : Namespaces) :
    Field → Except CanonicalFault (List String)
  | ⟨name, value, children⟩ =>
    if children.isEmpty then pure [extensionText namespaces name value]
    else do
      let entries ← extensionEntries settings namespaces children
      let sorted ← Entry.sort entries
      pure (((pathName? name).map (qualifiedName namespaces)).toList ++ sorted.flatMap (·.rendered.placed))

def extensionEntries (settings : Settings) (namespaces : Namespaces) :
    List Field → Except CanonicalFault (List Entry)
  | [] => pure []
  | field :: fields =>
    if isExcluded settings field.name then extensionEntries settings namespaces fields
    else do
      let lines ← extensionLines settings namespaces field
      let entries ← extensionEntries settings namespaces fields
      pure (⟨.extension (extensionKey namespaces field lines), field.hasChildren, ⟨lines, []⟩⟩ :: entries)

end

mutual

def standardLines (settings : Settings) (namespaces : Namespaces) (lineage : Lineage) :
    Field → Except CanonicalFault Rendered
  | ⟨name, value, children⟩ =>
    if children.isEmpty then do
      let line ← (Leaf.line? settings lineage name value).mapError .timestamp
      pure ⟨line.toList, []⟩
    else do
      let entries ← siblingEntries settings namespaces (name :: lineage) children
      let sorted ← Entry.sort entries
      let rendered := Entry.arrange settings.version.placement sorted
      pure { rendered with placed := (pathName? name).toList ++ rendered.placed }

def siblingEntries (settings : Settings) (namespaces : Namespaces) (lineage : Lineage) :
    List Field → Except CanonicalFault (List Entry)
  | [] => pure []
  | field :: fields =>
    if isExcluded settings field.name then siblingEntries settings namespaces lineage fields
    else do
      let entry ←
        match regionOf lineage field with
        | .extension => do
          let lines ← extensionLines settings namespaces field
          pure ⟨.extension (extensionKey namespaces field lines), field.hasChildren, ⟨lines, []⟩⟩
        | .ilmd => do
          let lines ← extensionLines settings namespaces field
          pure ⟨.ilmd (extensionText namespaces field.name field.value), field.hasChildren, ⟨lines, []⟩⟩
        | .standard => do
          let position := Catalog.position? (Lineage.path (field.name :: lineage))
          let rendered ← standardLines settings namespaces lineage field
          pure ⟨.standard position, field.hasChildren, rendered⟩
      let entries ← siblingEntries settings namespaces lineage fields
      pure (entry :: entries)

end

def withoutLineEnds (line : String) : String :=
  String.ofList (line.toList.filter fun c => c != '\n' && c != '\r')

def canonicalForm (settings : Settings) (namespaces : Namespaces) (fields : List Field) :
    Except CanonicalFault CanonicalForm := do
  let entries ← siblingEntries settings namespaces [none] fields
  let sorted ← Entry.sort entries
  let rendered := Entry.arrange settings.version.placement sorted
  pure ⟨((rendered.placed ++ rendered.hoisted).map withoutLineEnds).filter (· != "")⟩

end EpcisDigest
