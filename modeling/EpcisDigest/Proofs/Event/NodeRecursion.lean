import EpcisDigest.Proofs.Event.Operations
import EpcisDigest.Proofs.Event.SiblingLines

namespace EpcisDigest.EventTree

open List

/-- A recursion over nodes, given by what is done at one node when it can be called at others. It gives nothing where
    more than `depth` calls would be nested. -/
def recurse {α : Type} (body : (Nat → Option α) → Nat → Option α) : Nat → Nat → Option α
  | 0 => fun _ => none
  | depth + 1 => body (recurse body depth)

section Bodies

variable (settings : Settings) (tree : EventTree)

def wrapsBody (call : Nat → Option Bool) (node : Nat) : Option Bool :=
  if (pathName? (tree.name? node)).isNone && tree.hasChildren node && !tree.isUnderIlmd node then
    (tree.children node).allM fun child => if tree.isStandard child then call child else some true
  else some false

def shownChildren (node : Nat) : List Nat :=
  (tree.children node).filter fun child => !isExcluded settings (tree.name? child)

def keyOf (node : Nat) (lines : List String) : String :=
  match pathName? (tree.name? node) with
  | some _ => tree.display node
  | none => lines.head?.getD ""

def extensionChild (call : Nat → Option (Except CanonicalFault (List String))) (child : Nat) :
    ExceptT CanonicalFault Option Entry := do
  let lines ← ExceptT.mk (call child)
  pure ⟨.extension (tree.keyOf child lines), tree.hasChildren child, ⟨lines, []⟩⟩

def extensionBody (call : Nat → Option (Except CanonicalFault (List String))) (node : Nat) :
    Option (Except CanonicalFault (List String)) := ExceptT.run do
  if tree.hasChildren node then
    let entries ← (tree.shownChildren settings node).mapM (tree.extensionChild call)
    let sorted ← liftExcept (Entry.sort entries)
    pure (((pathName? (tree.name? node)).map (qualifiedName tree.namespaces)).toList ++
      sorted.flatMap (·.rendered.placed))
  else pure [tree.display node]

def childEntry (call : Nat → Option (Except CanonicalFault Rendered)) (child : Nat) :
    ExceptT CanonicalFault Option Entry := do
  let wraps ← ExceptT.lift (recurse tree.wrapsBody tree.size child)
  if !tree.isStandard child || wraps then
    tree.extensionChild (recurse (tree.extensionBody settings) tree.size) child
  else if tree.isUnderIlmd child then
    let lines ← ExceptT.mk (recurse (tree.extensionBody settings) tree.size child)
    pure ⟨.ilmd (tree.display child), tree.hasChildren child, ⟨lines, []⟩⟩
  else
    let rendered ←
      if tree.hasChildren child then do
        let below ← ExceptT.mk (call child)
        pure { below with placed := (pathName? (tree.name? child)).toList ++ below.placed }
      else do
        let line ← liftExcept ((Leaf.line? settings (tree.lineage child) (tree.name? child)
          (tree.value? child)).mapError CanonicalFault.timestamp)
        pure ⟨line.toList, []⟩
    pure ⟨.standard (Catalog.position? (tree.fieldPath child)), tree.hasChildren child, rendered⟩

def renderBody (call : Nat → Option (Except CanonicalFault Rendered)) (node : Nat) :
    Option (Except CanonicalFault Rendered) := ExceptT.run do
  let entries ← (tree.shownChildren settings node).mapM (tree.childEntry settings call)
  let sorted ← liftExcept (Entry.sort entries)
  pure (Entry.arrange settings.version.placement sorted)

end Bodies

section Collecting

variable {α β ε : Type} {items : List α}

theorem run_mapM_eq_some {f : α → ExceptT ε Option β} {g : α → Except ε β}
    (same : ∀ item ∈ items, f item = ExceptT.mk (some (g item))) :
    items.mapM f = ExceptT.mk (some (items.mapM g)) := by
  induction items with
  | nil => rfl
  | cons item items ih =>
    obtain ⟨first, others⟩ := forall_mem_cons.mp same
    rw [mapM_cons, mapM_cons, first, ih others]
    cases g item with
    | error fault => rfl
    | ok result => cases items.mapM g <;> rfl

theorem run_sorted_eq (collected : Except CanonicalFault (List Entry)) (write : List Entry → β) :
    ExceptT.run (do
      let entries ← ExceptT.mk (some collected)
      let sorted ← liftExcept (Entry.sort entries)
      pure (write sorted) : ExceptT CanonicalFault Option β) = some (do
        let entries ← collected
        let sorted ← Entry.sort entries
        pure (write sorted)) := by
  cases collected with
  | error fault => rfl
  | ok entries =>
    change ExceptT.run (liftExcept (Entry.sort entries) >>= _) = some (Entry.sort entries >>= _)
    cases Entry.sort entries <;> rfl

theorem allM_eq_some {p : α → Option Bool} {q : α → Bool} (same : ∀ item ∈ items, p item = some (q item)) :
    items.allM p = some (items.all q) := by
  induction items with
  | nil => rfl
  | cons item items ih =>
    obtain ⟨first, others⟩ := forall_mem_cons.mp same
    rw [allM_cons, first, all_cons]
    cases q item with
    | false => rfl
    | true => exact ih others

end Collecting

def renderedBelow (settings : Settings) (tree : EventTree) (node : Nat) : Except CanonicalFault Rendered := do
  let entries ← siblingEntries settings tree.namespaces (tree.name? node :: tree.lineage node)
    ((tree.children node).map tree.field)
  let sorted ← Entry.sort entries
  pure (Entry.arrange settings.version.placement sorted)

theorem canonicalForm_renderedBelow {tree : EventTree} (ordered : tree.Ordered) (settings : Settings) :
    tree.canonicalForm settings = (tree.renderedBelow settings 0).map fun rendered =>
      ⟨((rendered.placed ++ rendered.hoisted).map withoutLineEnds).filter (· != "")⟩ := by
  rw [canonicalForm, EpcisDigest.canonicalForm, renderedBelow, ordered.rootName, ordered.lineage_root,
    ← ordered.fields_eq]
  cases siblingEntries settings tree.namespaces [none] tree.fields with
  | error fault => rfl
  | ok entries =>
    change Entry.sort entries >>= _ = Except.map _ (Entry.sort entries >>= _)
    cases Entry.sort entries <;> rfl

namespace Ordered

variable {tree : EventTree} (ordered : tree.Ordered)

include ordered

/-- A recursion that needs no more than what it gives for the children of a node gives something for every node,
    and its calls are nested at most as deep as there are nodes from this one on. -/
theorem recurse_isSome {α : Type} {body : (Nat → Option α) → Nat → Option α}
    (returns : ∀ call node, (∀ child ∈ tree.children node, (call child).isSome = true) →
      (body call node).isSome = true) {node depth : Nat} (bounded : node < tree.size)
    (enough : tree.size - node ≤ depth) : (recurse body depth node).isSome = true := by
  induction depth generalizing node with
  | zero => omega
  | succ depth ih =>
    apply returns
    intro child member
    -- A child has a larger number, so that one nested call less is enough for it.
    have bounds := ordered.child_bounds member
    exact ih bounds.2 (by omega)

theorem recurse_eq {α : Type} {body : (Nat → Option α) → Nat → Option α} {value : Nat → α}
    (gives : ∀ call node, node < tree.size → (∀ child ∈ tree.children node, call child = some (value child)) →
      body call node = some (value node)) {node depth : Nat} (bounded : node < tree.size)
    (enough : tree.size - node ≤ depth) : recurse body depth node = some (value node) := by
  induction depth generalizing node with
  | zero => omega
  | succ depth ih =>
    apply gives _ node bounded
    intro child member
    have bounds := ordered.child_bounds member
    exact ih bounds.2 (by omega)

theorem hasChildren_field {node : Nat} (bounded : node < tree.size) :
    (tree.field node).hasChildren = tree.hasChildren node := by
  rw [ordered.field_eq bounded, Field.hasChildren, hasChildren, isEmpty_map]

theorem lineage_child {node child : Nat} (member : child ∈ tree.children node) :
    tree.lineage child = tree.name? node :: tree.lineage node :=
  ordered.lineage_of_parent (ordered.parent_of_mem member)

theorem holdsOnlyExtensions_field {node : Nat} (bounded : node < tree.size) :
    holdsOnlyExtensions (tree.lineage node) (tree.field node) =
      ((pathName? (tree.name? node)).isNone && tree.hasChildren node && !tree.isUnderIlmd node &&
        (tree.children node).all fun child =>
          !tree.isStandard child || holdsOnlyExtensions (tree.lineage child) (tree.field child)) := by
  -- `areExtensions` looks at a field from its parent, the recursion over nodes at a child from its own way up.
  have below : areExtensions (tree.name? node :: tree.lineage node) ((tree.children node).map tree.field) =
      (tree.children node).all fun child =>
        !tree.isStandard child || holdsOnlyExtensions (tree.lineage child) (tree.field child) := by
    rw [areExtensions_eq_all, all_map, Bool.eq_iff_iff, all_eq_true, all_eq_true]
    apply forall₂_congr
    intro child member
    rw [← ordered.lineage_child member, Function.comp_apply, name_field]
    rfl
  rw [ordered.field_eq bounded, holdsOnlyExtensions, below, isEmpty_map]
  rfl

theorem recurse_wrapsBody {node depth : Nat} (bounded : node < tree.size) (enough : tree.size - node ≤ depth) :
    recurse tree.wrapsBody depth node = some (holdsOnlyExtensions (tree.lineage node) (tree.field node)) := by
  apply ordered.recurse_eq _ bounded enough
  intro call node bounded calls
  have below : ((tree.children node).allM fun child => if tree.isStandard child then call child else some true) =
      some ((tree.children node).all fun child =>
        !tree.isStandard child || holdsOnlyExtensions (tree.lineage child) (tree.field child)) := by
    apply allM_eq_some
    intro child member
    rw [calls child member]
    cases tree.isStandard child <;> rfl
  rw [wrapsBody, below, ordered.holdsOnlyExtensions_field bounded]
  cases (pathName? (tree.name? node)).isNone && tree.hasChildren node && !tree.isUnderIlmd node <;> rfl

variable (settings : Settings)

theorem mem_shownChildren {node child : Nat} (member : child ∈ tree.shownChildren settings node) :
    child ∈ tree.children node ∧ child < tree.size := by
  have isChild := (mem_filter.mp member).1
  exact ⟨isChild, (ordered.child_bounds isChild).2⟩

omit ordered in
theorem extensionKey_field (node : Nat) (lines : List String) :
    extensionKey tree.namespaces (tree.field node) lines = tree.keyOf node lines := by
  rw [extensionKey, name_field, value_field]
  rfl

theorem extensionEntry_field {node : Nat} (bounded : node < tree.size) :
    extensionEntry settings tree.namespaces (tree.field node) =
      (extensionLines settings tree.namespaces (tree.field node)).map fun lines =>
        ⟨.extension (tree.keyOf node lines), tree.hasChildren node, ⟨lines, []⟩⟩ := by
  rw [extensionEntry, ordered.hasChildren_field bounded]
  simp only [extensionKey_field]

theorem extensionChild_eq {call : Nat → Option (Except CanonicalFault (List String))} {child : Nat}
    (bounded : child < tree.size)
    (called : call child = some (extensionLines settings tree.namespaces (tree.field child))) :
    tree.extensionChild call child =
      ExceptT.mk (some (extensionEntry settings tree.namespaces (tree.field child))) := by
  rw [extensionChild, called, ordered.extensionEntry_field settings bounded]
  cases extensionLines settings tree.namespaces (tree.field child) <;> rfl

theorem extensionLines_field {node : Nat} (bounded : node < tree.size) :
    extensionLines settings tree.namespaces (tree.field node) =
      if tree.hasChildren node then do
        let entries ← (tree.shownChildren settings node).mapM fun child =>
          extensionEntry settings tree.namespaces (tree.field child)
        let sorted ← Entry.sort entries
        pure (((pathName? (tree.name? node)).map (qualifiedName tree.namespaces)).toList ++
          sorted.flatMap (·.rendered.placed))
      else pure [tree.display node] := by
  rw [ordered.field_eq bounded, extensionLines, extensionEntries_eq, shown_fields, isEmpty_map, mapM_map, hasChildren]
  cases (tree.children node).isEmpty <;> rfl

theorem recurse_extensionBody {node depth : Nat} (bounded : node < tree.size) (enough : tree.size - node ≤ depth) :
    recurse (tree.extensionBody settings) depth node =
      some (extensionLines settings tree.namespaces (tree.field node)) := by
  apply ordered.recurse_eq _ bounded enough
  intro call node bounded calls
  have entries : (tree.shownChildren settings node).mapM (tree.extensionChild call) =
      ExceptT.mk (some ((tree.shownChildren settings node).mapM fun child =>
        extensionEntry settings tree.namespaces (tree.field child))) := by
    apply run_mapM_eq_some
    intro child member
    obtain ⟨isChild, bounded⟩ := ordered.mem_shownChildren settings member
    exact ordered.extensionChild_eq settings bounded (calls child isChild)
  rw [extensionBody, entries, ordered.extensionLines_field settings bounded]
  cases tree.hasChildren node with
  | false => rfl
  | true => exact run_sorted_eq _ _

theorem standardLines_field {node : Nat} (bounded : node < tree.size) :
    standardLines settings tree.namespaces (tree.lineage node) (tree.field node) =
      if tree.hasChildren node then
        (tree.renderedBelow settings node).map fun below =>
          { below with placed := (pathName? (tree.name? node)).toList ++ below.placed }
      else
        ((Leaf.line? settings (tree.lineage node) (tree.name? node) (tree.value? node)).mapError .timestamp).map
          fun line => ⟨line.toList, []⟩ := by
  rw [ordered.field_eq bounded, standardLines, isEmpty_fields, renderedBelow]
  cases tree.hasChildren node with
  | false => cases Leaf.line? settings (tree.lineage node) (tree.name? node) (tree.value? node) <;> rfl
  | true =>
    cases siblingEntries settings tree.namespaces (tree.name? node :: tree.lineage node)
      ((tree.children node).map tree.field) with
    | error fault => rfl
    | ok entries =>
      change Entry.sort entries >>= _ = Except.map _ (Entry.sort entries >>= _)
      cases Entry.sort entries <;> rfl

omit ordered in
theorem siblingEntries_field (node : Nat) :
    siblingEntries settings tree.namespaces (tree.name? node :: tree.lineage node)
      ((tree.children node).map tree.field) = (tree.shownChildren settings node).mapM fun child =>
        siblingEntry settings tree.namespaces (tree.name? node :: tree.lineage node) (tree.field child) := by
  rw [siblingEntries_eq, shown_fields, mapM_map]
  rfl

omit ordered in
theorem lift_some_bind {α β ε : Type} (a : α) (next : α → ExceptT ε Option β) :
    (ExceptT.lift (some a) >>= next) = next a := rfl

theorem childEntry_eq {call : Nat → Option (Except CanonicalFault Rendered)} {child : Nat}
    (bounded : child < tree.size) (called : call child = some (tree.renderedBelow settings child)) :
    tree.childEntry settings call child =
      ExceptT.mk (some (siblingEntry settings tree.namespaces (tree.lineage child) (tree.field child))) := by
  have enough : tree.size - child ≤ tree.size := Nat.sub_le _ _
  have wraps := ordered.recurse_wrapsBody bounded enough
  have lines := ordered.recurse_extensionBody settings bounded enough
  have extension := ordered.extensionChild_eq settings bounded lines
  have enters : (!tree.isStandard child || holdsOnlyExtensions (tree.lineage child) (tree.field child)) =
      tree.entersExtension child := rfl
  rw [childEntry, wraps, lines, extension, called, lift_some_bind, enters, siblingEntry, regionOf_node]
  cases tree.entersExtension child with
  | true => rfl
  | false =>
    cases tree.isUnderIlmd child with
    | true =>
      rw [name_field, value_field, ordered.hasChildren_field bounded]
      cases extensionLines settings tree.namespaces (tree.field child) <;> rfl
    | false =>
      rw [name_field, ordered.standardLines_field settings bounded, ordered.hasChildren_field bounded]
      cases tree.hasChildren child with
      | false => cases Leaf.line? settings (tree.lineage child) (tree.name? child) (tree.value? child) <;> rfl
      | true => cases tree.renderedBelow settings child <;> rfl

theorem recurse_renderBody {node depth : Nat} (bounded : node < tree.size) (enough : tree.size - node ≤ depth) :
    recurse (tree.renderBody settings) depth node = some (tree.renderedBelow settings node) := by
  apply ordered.recurse_eq _ bounded enough
  intro call node bounded calls
  have entries : (tree.shownChildren settings node).mapM (tree.childEntry settings call) =
      ExceptT.mk (some ((tree.shownChildren settings node).mapM fun child =>
        siblingEntry settings tree.namespaces (tree.name? node :: tree.lineage node) (tree.field child))) := by
    apply run_mapM_eq_some
    intro child member
    obtain ⟨isChild, bounded⟩ := ordered.mem_shownChildren settings member
    rw [ordered.childEntry_eq settings bounded (calls child isChild), ordered.lineage_child isChild]
  rw [renderBody, entries, renderedBelow, siblingEntries_field]
  exact run_sorted_eq _ _

end Ordered

/-- The links of these nodes up and down agree, and make one tree of them below node 0. -/
structure IsTree (tree : EventTree) (nodes : List Nat) : Prop where
  orphan_iff : ∀ node ∈ nodes, tree.parent? node = none ↔ node = 0
  parent : ∀ node ∈ nodes, ∀ parent, tree.parent? node = some parent → parent ∈ nodes ∧ parent < node
  count : ∀ node ∈ nodes, ∀ parent, tree.parent? node = some parent →
    ∀ other, (tree.children other).count node = if other = parent then 1 else 0
  child : ∀ node, ∀ child ∈ tree.children node, child ∈ nodes ∧ tree.parent? child = some node
  ancestors : ∀ node ∈ nodes, tree.ancestors node = match tree.parent? node with
    | none => []
    | some parent => parent :: tree.ancestors parent
  root : ∀ node ∈ nodes, (node :: tree.ancestors node).getLast? = some 0
  distinct : ∀ node ∈ nodes, (node :: tree.ancestors node).Nodup
  descendants : ∀ node ∈ nodes, tree.descendants node =
    (tree.children node).flatMap fun child => child :: tree.descendants child
  reached : tree.preorder ~ nodes

/-- Recursions over children end, and those that make the lines of an event give what these are. -/
structure EndsRecursions (tree : EventTree) (nodes : List Nat) : Prop where
  wellFounded : WellFounded fun child node => child ∈ tree.children node
  isSome : ∀ (α : Type) (body : (Nat → Option α) → Nat → Option α),
    (∀ call node, (∀ child ∈ tree.children node, (call child).isSome = true) → (body call node).isSome = true) →
    ∀ node ∈ nodes, ∀ depth, tree.size - node ≤ depth → (recurse body depth node).isSome = true
  wraps : ∀ node ∈ nodes, ∀ depth, tree.size - node ≤ depth →
    recurse tree.wrapsBody depth node = some (holdsOnlyExtensions (tree.lineage node) (tree.field node))
  extension : ∀ settings, ∀ node ∈ nodes, ∀ depth, tree.size - node ≤ depth →
    recurse (tree.extensionBody settings) depth node =
      some (extensionLines settings tree.namespaces (tree.field node))
  render : ∀ settings, ∀ node ∈ nodes, ∀ depth, tree.size - node ≤ depth →
    recurse (tree.renderBody settings) depth node = some (tree.renderedBelow settings node)
  canonicalForm : ∀ settings, tree.canonicalForm settings =
    (tree.renderedBelow settings 0).map fun rendered =>
      ⟨((rendered.placed ++ rendered.hoisted).map withoutLineEnds).filter (· != "")⟩

theorem Ordered.isTree {tree : EventTree} (ordered : tree.Ordered) : tree.IsTree (range tree.size) where
  orphan_iff node known := ordered.parent?_eq_none_iff (mem_range.mp known)
  parent node known parent below := by
    have before := (ordered.parent_lt below).1
    exact ⟨mem_range.mpr (Nat.lt_trans before (mem_range.mp known)), before⟩
  count node known parent below := ordered.count_children below
  child node child member := ⟨mem_range.mpr (ordered.child_bounds member).2, ordered.parent_of_mem member⟩
  ancestors node known := by
    cases below : tree.parent? node with
    | none => exact ancestors_of_orphan below
    | some parent => exact ordered.ancestors_of_parent below
  root node known := ordered.getLast?_ancestors (mem_range.mp known)
  distinct node known := ordered.pairwise_ancestors.imp fun after => Nat.ne_of_gt after
  descendants node known := ordered.descendants_eq (mem_range.mp known)
  reached := ordered.preorder_perm

theorem Ordered.endsRecursions {tree : EventTree} (ordered : tree.Ordered) :
    tree.EndsRecursions (range tree.size) where
  wellFounded := ordered.wellFounded_children
  isSome _ _ returns _ known _ enough := ordered.recurse_isSome returns (mem_range.mp known) enough
  wraps _ known _ enough := ordered.recurse_wrapsBody (mem_range.mp known) enough
  extension settings _ known _ enough := ordered.recurse_extensionBody settings (mem_range.mp known) enough
  render settings _ known _ enough := ordered.recurse_renderBody settings (mem_range.mp known) enough
  canonicalForm settings := canonicalForm_renderedBelow ordered settings

/-- Whatever operations make of a tree, each at a node that it has handed out: these nodes stay one tree, each of
    them reached once on the way down and its root on every way up, and no recursion goes down without an end. -/
theorem handed_isTree {tree : EventTree} {nodes : List Nat} (handed : Handed tree nodes) :
    nodes = range tree.size ∧ tree.IsTree nodes ∧ tree.EndsRecursions nodes := by
  obtain ⟨built, rfl⟩ := handed.built
  exact ⟨rfl, built.ordered.isTree, built.ordered.endsRecursions⟩

def notedTree : EventTree :=
  [Operation.addNode 0 "bizTransactionList", .addWrapper 1, .addNode 0 "ex:note", .addLeaf 2 "type" "po",
    .setValue 3 "new", .setNamespaces (NameTable.empty.insert "ex" "urn:ex")].foldl
      (fun tree operation => (tree.perform operation).1) (empty NameTable.empty)

theorem handed_isTree_notedTree :
    Handed notedTree [0, 1, 2, 3, 4] ∧ notedTree.ancestors 4 = [2, 1, 0] ∧
      [0, 1, 2, 3, 4] = range notedTree.size ∧ notedTree.IsTree [0, 1, 2, 3, 4] ∧
      notedTree.EndsRecursions [0, 1, 2, 3, 4] := by
  have handed : Handed notedTree [0, 1, 2, 3, 4] :=
    ((((((Handed.root NameTable.empty).perform (.addNode 0 "bizTransactionList") (by decide)).perform (.addWrapper 1)
      (by decide)).perform (.addNode 0 "ex:note") (by decide)).perform (.addLeaf 2 "type" "po") (by decide)).perform
      (.setValue 3 "new") (by decide)).perform (.setNamespaces (NameTable.empty.insert "ex" "urn:ex")) (by decide)
  exact ⟨handed, by decide, handed_isTree handed⟩

end EpcisDigest.EventTree
