import Mathlib.Data.List.Nodup
import Mathlib.Data.List.Perm.Basic
import EpcisDigest.Event.Tree

namespace EpcisDigest.EventTree

/-- A tree that is made by the operations, each on nodes that the tree has. -/
inductive Built : EventTree → Prop
  | empty (namespaces : Namespaces) : Built (empty namespaces)
  | add {tree : EventTree} (built : Built tree) {parent : Nat} (known : parent < tree.size)
      (name value : Option String) : Built (tree.add parent name value).1
  | setValue {tree : EventTree} (built : Built tree) (node : Nat) (value : String) : Built (tree.setValue node value)
  | setNamespaces {tree : EventTree} (built : Built tree) (namespaces : Namespaces) :
      Built (tree.setNamespaces namespaces)

/-- Parents come before their children, and the links between them go both ways. -/
structure Ordered (tree : EventTree) : Prop where
  hasRoot : 0 < tree.size
  rootName : tree.name? 0 = none
  rootParent : tree.parent? 0 = none
  hasParent : ∀ node, 0 < node → node < tree.size → ∃ parent, tree.parent? node = some parent ∧ parent < node
  mem_children : ∀ node child, child ∈ tree.children node ↔ child < tree.size ∧ tree.parent? child = some node
  nodup : ∀ node, (tree.children node).Nodup

section Operations

variable (tree : EventTree) (parent node : Nat) (name value : Option String)

theorem size_add : (tree.add parent name value).1.size = tree.size + 1 := by
  simp only [add, size, Array.size_push, Array.size_modify]

theorem slot_add : (tree.add parent name value).1.slots[node]? =
    if node = tree.size then some ⟨name, value, some parent, #[]⟩
    else if parent = node then
      tree.slots[node]?.map fun slot => { slot with children := slot.children.push tree.size }
    else tree.slots[node]? := by
  simp only [add, Array.getElem?_push, Array.size_modify, Array.getElem?_modify, size]
  rfl

theorem read_add {α : Type} (read : Slot → Option α)
    (childless : ∀ slot children, read { slot with children } = read slot) :
    (tree.add parent name value).1.slots[node]?.bind read =
      if node = tree.size then read ⟨name, value, some parent, #[]⟩ else tree.slots[node]?.bind read := by
  rw [slot_add]
  split
  · rfl
  · split
    · cases tree.slots[node]? with
      | none => rfl
      | some slot => exact childless slot _
    · rfl

theorem name?_add :
    (tree.add parent name value).1.name? node = if node = tree.size then name else tree.name? node :=
  read_add tree parent node name value Slot.name fun _ _ => rfl

theorem value?_add :
    (tree.add parent name value).1.value? node = if node = tree.size then value else tree.value? node :=
  read_add tree parent node name value Slot.value fun _ _ => rfl

theorem parent?_add :
    (tree.add parent name value).1.parent? node = if node = tree.size then some parent else tree.parent? node :=
  read_add tree parent node name value Slot.parent fun _ _ => rfl

theorem children_add (known : parent < tree.size) : (tree.add parent name value).1.children node =
    if node = tree.size then [] else if parent = node then tree.children node ++ [tree.size]
    else tree.children node := by
  rw [children, slot_add]
  split
  · rfl
  · split
    · rename_i same
      obtain ⟨slot, present⟩ : ∃ slot, tree.slots[node]? = some slot :=
        ⟨_, Array.getElem?_eq_getElem (same ▸ known)⟩
      rw [children, present]
      exact Array.toList_push
    · rfl

theorem slot_setValue (text : String) (known : Nat) : (tree.setValue known text).slots[node]? =
    if known = node then tree.slots[node]?.map fun slot => { slot with value := some text }
    else tree.slots[node]? := by
  simp only [setValue, Array.getElem?_modify]

theorem size_setValue (text : String) (known : Nat) : (tree.setValue known text).size = tree.size := by
  simp only [setValue, size, Array.size_modify]

theorem read_setValue {α : Type} (text : String) (known : Nat) (read : Slot → Option α)
    (valueless : ∀ slot value, read { slot with value } = read slot) :
    (tree.setValue known text).slots[node]?.bind read = tree.slots[node]?.bind read := by
  rw [slot_setValue]
  split
  · cases tree.slots[node]? with
    | none => rfl
    | some slot => exact valueless slot _
  · rfl

theorem name?_setValue (text : String) (known : Nat) : (tree.setValue known text).name? node = tree.name? node :=
  read_setValue tree node text known Slot.name fun _ _ => rfl

theorem parent?_setValue (text : String) (known : Nat) :
    (tree.setValue known text).parent? node = tree.parent? node :=
  read_setValue tree node text known Slot.parent fun _ _ => rfl

theorem children_setValue (text : String) (known : Nat) :
    (tree.setValue known text).children node = tree.children node := by
  have read := read_setValue tree node text known (fun slot => some slot.children.toList) fun _ _ => rfl
  rw [children, children, Option.map_eq_bind, Option.map_eq_bind]
  exact congrArg (Option.getD · []) read

theorem parent?_of_size_le (beyond : tree.size ≤ node) : tree.parent? node = none := by
  rw [parent?, Array.getElem?_eq_none beyond]
  rfl

end Operations

theorem Ordered.empty (namespaces : Namespaces) : (EventTree.empty namespaces).Ordered where
  hasRoot := Nat.one_pos
  rootName := rfl
  rootParent := rfl
  hasParent := by
    intro node positive known
    have : node < 1 := known
    omega
  mem_children := by
    intro node child
    have childless : (EventTree.empty namespaces).children node = [] := by
      cases node <;> rfl
    rw [childless]
    constructor
    · intro member
      cases member
    · intro ⟨known, parent⟩
      have root : child = 0 := by
        have : child < 1 := known
        omega
      subst root
      cases parent
  nodup := by
    intro node
    have childless : (EventTree.empty namespaces).children node = [] := by
      cases node <;> rfl
    rw [childless]
    exact List.nodup_nil

theorem Ordered.parent_lt {tree : EventTree} (ordered : tree.Ordered) {node parent : Nat}
    (below : tree.parent? node = some parent) :
    parent < node ∧ node < tree.size := by
  by_cases bounded : node < tree.size
  · by_cases root : node = 0
    · rw [root, ordered.rootParent] at below
      cases below
    · obtain ⟨above, isParent, before⟩ := ordered.hasParent node (by omega) bounded
      rw [isParent] at below
      cases below
      exact ⟨before, bounded⟩
  · rw [parent?_of_size_le tree node (by omega)] at below
    cases below

theorem Ordered.size_not_mem_children {tree : EventTree} (ordered : tree.Ordered) (node : Nat) :
    tree.size ∉ tree.children node := by
  intro member
  exact Nat.lt_irrefl _ ((ordered.mem_children node tree.size).mp member).1

theorem Ordered.add {tree : EventTree} (ordered : tree.Ordered) {parent : Nat} (known : parent < tree.size)
    (name value : Option String) : (tree.add parent name value).1.Ordered where
  hasRoot := by
    rw [size_add]
    omega
  rootName := by
    rw [name?_add, if_neg (Nat.ne_of_lt ordered.hasRoot)]
    exact ordered.rootName
  rootParent := by
    rw [parent?_add, if_neg (Nat.ne_of_lt ordered.hasRoot)]
    exact ordered.rootParent
  hasParent := by
    intro node positive bounded
    rw [size_add] at bounded
    rw [parent?_add]
    by_cases last : node = tree.size
    · exact ⟨parent, if_pos last, last ▸ known⟩
    · rw [if_neg last]
      exact ordered.hasParent node positive (by omega)
  mem_children := by
    intro node child
    have old := ordered.mem_children node child
    have unborn := ordered.size_not_mem_children node
    rw [size_add, parent?_add, children_add _ _ _ _ _ known]
    by_cases fresh : node = tree.size
    · subst fresh
      have noChild : tree.parent? child ≠ some tree.size := by
        intro below
        have := ordered.parent_lt below
        omega
      rw [if_pos rfl]
      by_cases last : child = tree.size
      · rw [if_pos last, Option.some.injEq]
        simp only [List.not_mem_nil, false_iff, not_and]
        omega
      · rw [if_neg last]
        simp only [List.not_mem_nil, noChild, and_false]
    · rw [if_neg fresh]
      by_cases last : child = tree.size
      · subst last
        rw [if_pos rfl, Option.some.injEq]
        by_cases own : parent = node
        · rw [if_pos own]
          simp only [List.mem_append, List.mem_singleton, or_true, own, and_true, true_iff]
          omega
        · rw [if_neg own]
          simp only [unborn, own, and_false]
      · rw [if_neg last]
        have kept : (child ∈ if parent = node then tree.children node ++ [tree.size] else tree.children node) ↔
            child ∈ tree.children node := by
          split
          · simp only [List.mem_append, List.mem_singleton, last, or_false]
          · rfl
        rw [kept, old]
        constructor
        · intro ⟨bounded, below⟩
          exact ⟨by omega, below⟩
        · intro ⟨bounded, below⟩
          exact ⟨by omega, below⟩
  nodup := by
    intro node
    have unborn := ordered.size_not_mem_children node
    rw [children_add _ _ _ _ _ known]
    split
    · exact List.nodup_nil
    · split
      · exact (ordered.nodup node).append (List.nodup_singleton _) (by simpa using unborn)
      · exact ordered.nodup node

/-- Order depends only on the links and on the name of the root. -/
theorem Ordered.congr {tree other : EventTree} (ordered : tree.Ordered) (size : other.size = tree.size)
    (rootName : other.name? 0 = tree.name? 0) (parent? : other.parent? = tree.parent?)
    (children : other.children = tree.children) : other.Ordered where
  hasRoot := size ▸ ordered.hasRoot
  rootName := rootName.trans ordered.rootName
  rootParent := parent? ▸ ordered.rootParent
  hasParent := by
    rw [size, parent?]
    exact ordered.hasParent
  mem_children := by
    rw [size, parent?, children]
    exact ordered.mem_children
  nodup := by
    rw [children]
    exact ordered.nodup

theorem Built.ordered {tree : EventTree} (built : tree.Built) : tree.Ordered := by
  induction built with
  | empty namespaces => exact Ordered.empty namespaces
  | add _ known name value ih => exact ih.add known name value
  | setValue _ node text ih =>
    apply ih.congr (size_setValue _ _ _) (name?_setValue _ _ _ _)
    · exact funext fun other => parent?_setValue _ other text node
    · exact funext fun other => children_setValue _ other text node
  | setNamespaces _ namespaces ih => exact ih.congr rfl rfl rfl rfl

def descendantsWithin (tree : EventTree) : Nat → Nat → List Nat
  | 0, _ => []
  | depth + 1, node => (tree.children node).flatMap fun child => child :: descendantsWithin tree depth child

def descendants (tree : EventTree) (node : Nat) : List Nat :=
  tree.descendantsWithin tree.size node

namespace Ordered

variable {tree : EventTree} (ordered : tree.Ordered)

include ordered

theorem parent_of_mem {node child : Nat} (member : child ∈ tree.children node) : tree.parent? child = some node :=
  ((ordered.mem_children node child).mp member).2

theorem mem_of_parent {node child : Nat} (below : tree.parent? child = some node) : child ∈ tree.children node :=
  (ordered.mem_children node child).mpr ⟨(ordered.parent_lt below).2, below⟩

theorem child_bounds {node child : Nat} (member : child ∈ tree.children node) : node < child ∧ child < tree.size :=
  ordered.parent_lt (ordered.parent_of_mem member)

/-- What a node has when all its children have it, every node has. -/
theorem upward {motive : Nat → Prop}
    (step : ∀ node, node < tree.size → (∀ child ∈ tree.children node, motive child) → motive node) :
    ∀ node, node < tree.size → motive node := by
  have reach : ∀ height node, node < tree.size → tree.size - node ≤ height → motive node := by
    intro height
    induction height with
    | zero =>
      intro node bounded low
      omega
    | succ height ih =>
      intro node bounded low
      apply step node bounded
      intro child member
      have bounds := ordered.child_bounds member
      exact ih child bounds.2 (by omega)
  exact fun node bounded => reach tree.size node bounded (by omega)

/-- What the root has, and each node whose parent has it, every node has. -/
theorem downward {motive : Nat → Prop} (root : motive 0)
    (step : ∀ node parent, tree.parent? node = some parent → motive parent → motive node) :
    ∀ node, node < tree.size → motive node := by
  intro node
  induction node using Nat.strongRecOn with
  | _ node ih =>
    intro bounded
    by_cases isRoot : node = 0
    · exact isRoot ▸ root
    · obtain ⟨parent, below, before⟩ := ordered.hasParent node (by omega) bounded
      exact step node parent below (ih parent before (by omega))

theorem ancestorsWithin_enough (node : Nat) :
    ∀ steps, node ≤ steps → tree.ancestorsWithin steps node = tree.ancestorsWithin node node := by
  induction node using Nat.strongRecOn with
  | _ node ih =>
    intro steps enough
    cases below : tree.parent? node with
    | none => cases steps <;> cases node <;> simp only [ancestorsWithin, below]
    | some parent =>
      have before := (ordered.parent_lt below).1
      obtain ⟨steps, rfl⟩ : ∃ less, steps = less + 1 := ⟨steps - 1, by omega⟩
      obtain ⟨least, rfl⟩ : ∃ less, node = less + 1 := ⟨node - 1, by omega⟩
      simp only [ancestorsWithin, below]
      rw [ih parent before steps (by omega), ih parent before least (by omega)]

theorem ancestors_of_parent {node parent : Nat} (below : tree.parent? node = some parent) :
    tree.ancestors node = parent :: tree.ancestors parent := by
  have bounds := ordered.parent_lt below
  obtain ⟨least, rfl⟩ : ∃ less, node = less + 1 := ⟨node - 1, by omega⟩
  rw [ancestors, ancestors, ordered.ancestorsWithin_enough (least + 1) _ (by omega),
    ordered.ancestorsWithin_enough parent tree.size (by omega)]
  simp only [ancestorsWithin, below]
  rw [ordered.ancestorsWithin_enough parent least (by omega)]

omit ordered in
theorem ancestors_of_orphan {node : Nat} (orphan : tree.parent? node = none) : tree.ancestors node = [] := by
  rw [ancestors]
  cases tree.size <;> simp only [ancestorsWithin, orphan]

theorem lineage_of_parent {node parent : Nat} (below : tree.parent? node = some parent) :
    tree.lineage node = tree.name? parent :: tree.lineage parent := by
  rw [lineage, ordered.ancestors_of_parent below]
  rfl

theorem fieldWithin_enough : ∀ depth depth' node, node < tree.size → tree.size - node ≤ depth →
    tree.size - node ≤ depth' → tree.fieldWithin depth node = tree.fieldWithin depth' node := by
  intro depth
  induction depth with
  | zero =>
    intro depth' node bounded enough
    omega
  | succ depth ih =>
    intro depth' node bounded enough enough'
    obtain ⟨depth', rfl⟩ : ∃ less, depth' = less + 1 := ⟨depth' - 1, by omega⟩
    have same : (tree.children node).map (tree.fieldWithin depth) =
        (tree.children node).map (tree.fieldWithin depth') := by
      apply List.map_congr_left
      intro child member
      have bounds := ordered.child_bounds member
      exact ih depth' child bounds.2 (by omega) (by omega)
    rw [fieldWithin, fieldWithin, same]

omit ordered in
theorem name_field {node : Nat} : (tree.field node).name = tree.name? node := by
  rw [field]
  cases tree.size <;> rfl

omit ordered in
theorem value_field {node : Nat} : (tree.field node).value = tree.value? node := by
  rw [field]
  cases tree.size <;> rfl

theorem field_eq {node : Nat} (bounded : node < tree.size) :
    tree.field node = ⟨tree.name? node, tree.value? node, (tree.children node).map tree.field⟩ := by
  rw [field, ordered.fieldWithin_enough tree.size (tree.size + 1) node bounded (by omega) (by omega)]
  rfl

theorem fields_eq : tree.fields = (tree.children 0).map tree.field := by
  rw [fields, ordered.field_eq ordered.hasRoot]

theorem mem_ancestors {node parent : Nat} (below : tree.parent? node = some parent) (above : Nat) :
    above ∈ tree.ancestors node ↔ above = parent ∨ above ∈ tree.ancestors parent := by
  rw [ordered.ancestors_of_parent below, List.mem_cons]

omit ordered in
theorem exists_parent {node above : Nat} (member : above ∈ tree.ancestors node) :
    ∃ parent, tree.parent? node = some parent := by
  cases below : tree.parent? node with
  | none =>
    rw [ancestors_of_orphan below] at member
    cases member
  | some parent => exact ⟨parent, rfl⟩

theorem ancestor_lt {node above : Nat} (member : above ∈ tree.ancestors node) : above < node := by
  induction node using Nat.strongRecOn with
  | _ node ih =>
    obtain ⟨parent, below⟩ := exists_parent member
    have before := (ordered.parent_lt below).1
    rcases (ordered.mem_ancestors below above).mp member with rfl | higher
    · exact before
    · exact Nat.lt_trans (ih parent before higher) before

theorem ancestors_trans {node between above : Nat} (upper : above ∈ tree.ancestors between)
    (lower : between ∈ tree.ancestors node) : above ∈ tree.ancestors node := by
  induction node using Nat.strongRecOn with
  | _ node ih =>
    obtain ⟨parent, below⟩ := exists_parent lower
    have before := (ordered.parent_lt below).1
    apply (ordered.mem_ancestors below above).mpr
    rcases (ordered.mem_ancestors below between).mp lower with rfl | higher
    · exact Or.inr upper
    · exact Or.inr (ih parent before higher)

theorem root_mem_ancestors {node : Nat} (positive : 0 < node) (bounded : node < tree.size) :
    0 ∈ tree.ancestors node := by
  have root : node = 0 ∨ 0 ∈ tree.ancestors node := by
    apply ordered.downward (Or.inl rfl) _ node bounded
    intro node parent below higher
    apply Or.inr
    apply (ordered.mem_ancestors below 0).mpr
    rcases higher with rfl | higher
    · exact Or.inl rfl
    · exact Or.inr higher
  rcases root with rfl | member
  · omega
  · exact member

/-- Two children of one node are never on one path. -/
theorem siblings_eq {node first second above : Nat} (isFirst : tree.parent? first = some above)
    (isSecond : tree.parent? second = some above) (onPath : first = node ∨ first ∈ tree.ancestors node)
    (onPath' : second = node ∨ second ∈ tree.ancestors node) : first = second := by
  have apart : ∀ left right, tree.parent? left = some above → tree.parent? right = some above →
      right ∉ tree.ancestors left := by
    intro left right isLeft isRight member
    have before := (ordered.parent_lt isRight).1
    rcases (ordered.mem_ancestors isLeft right).mp member with rfl | higher
    · omega
    · have := ordered.ancestor_lt higher
      omega
  induction node using Nat.strongRecOn with
  | _ node ih =>
    rcases onPath with rfl | higher
    · rcases onPath' with rfl | higher'
      · rfl
      · exact absurd higher' (apart first second isFirst isSecond)
    · rcases onPath' with rfl | higher'
      · exact absurd higher (apart second first isSecond isFirst)
      · obtain ⟨parent, below⟩ := exists_parent higher
        exact ih parent (ordered.parent_lt below).1 ((ordered.mem_ancestors below first).mp higher)
          ((ordered.mem_ancestors below second).mp higher')

theorem descendantsWithin_enough : ∀ depth depth' node, node < tree.size → tree.size - node ≤ depth →
    tree.size - node ≤ depth' → tree.descendantsWithin depth node = tree.descendantsWithin depth' node := by
  intro depth
  induction depth with
  | zero =>
    intro depth' node bounded enough
    omega
  | succ depth ih =>
    intro depth' node bounded enough enough'
    obtain ⟨depth', rfl⟩ : ∃ less, depth' = less + 1 := ⟨depth' - 1, by omega⟩
    rw [descendantsWithin, descendantsWithin]
    apply List.flatMap_congr
    intro child member
    have bounds := ordered.child_bounds member
    rw [ih depth' child bounds.2 (by omega) (by omega)]

theorem descendants_eq {node : Nat} (bounded : node < tree.size) :
    tree.descendants node = (tree.children node).flatMap fun child => child :: tree.descendants child := by
  rw [descendants, ordered.descendantsWithin_enough tree.size (tree.size + 1) node bounded (by omega) (by omega)]
  rfl

theorem ancestor_of_descendant {node : Nat} (bounded : node < tree.size) :
    ∀ below ∈ tree.descendants node, node ∈ tree.ancestors below := by
  apply ordered.upward _ node bounded
  intro node bounded ih below member
  rw [ordered.descendants_eq bounded, List.mem_flatMap] at member
  obtain ⟨child, isChild, member⟩ := member
  have own : node ∈ tree.ancestors child :=
    (ordered.mem_ancestors (ordered.parent_of_mem isChild) node).mpr (Or.inl rfl)
  rcases List.mem_cons.mp member with rfl | lower
  · exact own
  · exact ordered.ancestors_trans own (ih child isChild below lower)

theorem exists_child_above {node below : Nat} (member : node ∈ tree.ancestors below) :
    ∃ child ∈ tree.children node, below = child ∨ child ∈ tree.ancestors below := by
  induction below using Nat.strongRecOn with
  | _ below ih =>
    obtain ⟨parent, isParent⟩ := exists_parent member
    rcases (ordered.mem_ancestors isParent node).mp member with rfl | higher
    · exact ⟨below, ordered.mem_of_parent isParent, Or.inl rfl⟩
    · obtain ⟨child, isChild, onPath⟩ := ih parent (ordered.parent_lt isParent).1 higher
      refine ⟨child, isChild, Or.inr ?_⟩
      apply (ordered.mem_ancestors isParent child).mpr
      rcases onPath with rfl | higher
      · exact Or.inl rfl
      · exact Or.inr higher

theorem mem_descendants {node : Nat} (bounded : node < tree.size) (below : Nat) :
    below ∈ tree.descendants node ↔ node ∈ tree.ancestors below := by
  constructor
  · exact ordered.ancestor_of_descendant bounded below
  · apply ordered.upward _ node bounded
    intro node bounded ih member
    obtain ⟨child, isChild, onPath⟩ := ordered.exists_child_above member
    rw [ordered.descendants_eq bounded, List.mem_flatMap]
    refine ⟨child, isChild, ?_⟩
    rcases onPath with rfl | higher
    · exact List.mem_cons_self
    · exact List.mem_cons_of_mem _ (ih child isChild higher)

theorem descendants_nodup {node : Nat} (bounded : node < tree.size) : (tree.descendants node).Nodup := by
  apply ordered.upward _ node bounded
  intro node bounded ih
  have onPath : ∀ child ∈ tree.children node, ∀ below ∈ child :: tree.descendants child,
      child = below ∨ child ∈ tree.ancestors below := by
    intro child isChild below member
    rcases List.mem_cons.mp member with rfl | lower
    · exact Or.inl rfl
    · exact Or.inr (ordered.ancestor_of_descendant (ordered.child_bounds isChild).2 below lower)
  rw [ordered.descendants_eq bounded, List.nodup_flatMap]
  constructor
  · intro child isChild
    apply List.nodup_cons.mpr
    refine ⟨fun member => ?_, ih child isChild⟩
    have before := ordered.ancestor_lt
      (ordered.ancestor_of_descendant (ordered.child_bounds isChild).2 child member)
    omega
  · apply (ordered.nodup node).imp_of_mem
    intro first second isFirst isSecond different
    apply List.disjoint_left.mpr
    intro below member member'
    apply different
    exact ordered.siblings_eq (ordered.parent_of_mem isFirst) (ordered.parent_of_mem isSecond)
      (onPath first isFirst below member) (onPath second isSecond below member')

/-- All nodes but the root are below it, each once. -/
theorem descendants_root :
    (tree.descendants 0).Perm ((List.range tree.size).filter (· != 0)) := by
  apply (List.perm_ext_iff_of_nodup (ordered.descendants_nodup ordered.hasRoot)
    (List.nodup_range.filter _)).mpr
  intro node
  rw [ordered.mem_descendants ordered.hasRoot, List.mem_filter, List.mem_range, bne_iff_ne]
  constructor
  · intro member
    obtain ⟨parent, below⟩ := exists_parent member
    have bounds := ordered.parent_lt below
    exact ⟨bounds.2, by omega⟩
  · intro ⟨bounded, proper⟩
    exact ordered.root_mem_ancestors (by omega) bounded

end Ordered

end EpcisDigest.EventTree
