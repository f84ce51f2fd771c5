import EpcisDigest.Proofs.Event.OfFields

namespace EpcisDigest

namespace Field

mutual

def values : Field → List String
  | ⟨_, value, children⟩ => value.toList ++ valuesOf children

def valuesOf : List Field → List String
  | [] => []
  | field :: fields => field.values ++ valuesOf fields

end

theorem valuesOf_append (first others : List Field) : valuesOf (first ++ others) = valuesOf first ++ valuesOf others := by
  induction first with
  | nil => rfl
  | cons field first ih => rw [List.cons_append, valuesOf, valuesOf, ih, List.append_assoc]

end Field

namespace EventTree

def preorder (tree : EventTree) : List Nat :=
  0 :: tree.descendants 0

def subtrees (tree : EventTree) (nodes : List Nat) : List Nat :=
  nodes.flatMap fun node => node :: tree.descendants node

theorem Ordered.descendants_eq_subtrees {tree : EventTree} (ordered : tree.Ordered) {node : Nat}
    (bounded : node < tree.size) : tree.descendants node = tree.subtrees (tree.children node) :=
  ordered.descendants_eq bounded

theorem Extends.descendants_eq {tree extended : EventTree} {parent : Nat} (kept : Extends tree extended parent)
    (ordered : tree.Ordered) (ordered' : extended.Ordered) {node : Nat} (bounded : node < tree.size) :
    parent < node → extended.descendants node = tree.descendants node := by
  apply ordered.upward _ node bounded
  intro node bounded ih later
  have sameChildren : extended.children node = tree.children node := by
    rw [children, kept.same node bounded (Nat.ne_of_gt later)]
    rfl
  rw [ordered'.descendants_eq (Nat.lt_of_lt_of_le bounded kept.size), ordered.descendants_eq bounded, sameChildren]
  apply List.flatMap_congr
  intro child member
  rw [ih child member (Nat.lt_trans later (ordered.child_bounds member).1)]

mutual

/-- The nodes of a field that is added have the next numbers, in the order in which they stand below each other. -/
theorem descendants_addField : ∀ (field : Field) (tree : EventTree) (parent : Nat), tree.Ordered →
    parent < tree.size → (addField tree parent field).size = tree.size + field.size ∧
      tree.size :: (addField tree parent field).descendants tree.size = List.range' tree.size field.size
  | ⟨name, value, children⟩, tree, parent, ordered, known => by
    have added := ordered.add known name value
    have size := size_add tree parent name value
    have childless : (tree.add parent name value).1.children tree.size = [] := by
      rw [children_add _ _ _ _ _ known, if_pos rfl]
    have unfolded : addField tree parent ⟨name, value, children⟩ =
        addFields (tree.add parent name value).1 tree.size children := by
      rw [addField]
      rfl
    obtain ⟨nodes, grown⟩ := grown_addFields children (tree.add parent name value).1 tree.size added (by omega)
    obtain ⟨total, numbered⟩ := subtrees_addFields children (tree.add parent name value).1 tree.size added (by omega)
    have below := numbered _ (by rw [childless, List.nil_append])
    rw [unfolded, total, size, Field.size, List.range'_succ,
      grown.ordered.descendants_eq_subtrees (Nat.lt_of_lt_of_le (by omega) grown.kept.size), below, size]
    exact ⟨by omega, rfl⟩

theorem subtrees_addFields : ∀ (fields : List Field) (tree : EventTree) (parent : Nat), tree.Ordered →
    parent < tree.size → (addFields tree parent fields).size = tree.size + Field.sizes fields ∧
      ∀ nodes, (addFields tree parent fields).children parent = tree.children parent ++ nodes →
        (addFields tree parent fields).subtrees nodes = List.range' tree.size (Field.sizes fields)
  | [], tree, parent, _, _ => by
    rw [addFields, Field.sizes]
    refine ⟨rfl, fun nodes same => ?_⟩
    rw [List.self_eq_append_right.mp same]
    rfl
  | field :: fields, tree, parent, ordered, known => by
    have first := grown_addField field tree parent ordered known
    have later := Nat.lt_of_lt_of_le known first.kept.size
    obtain ⟨others, grown⟩ := grown_addFields fields (addField tree parent field) parent first.ordered later
    obtain ⟨size, own⟩ := descendants_addField field tree parent ordered known
    obtain ⟨total, numbered⟩ := subtrees_addFields fields (addField tree parent field) parent first.ordered later
    have isChild : tree.size ∈ (addField tree parent field).children parent := by
      rw [first.children]
      exact List.mem_append_right _ List.mem_cons_self
    have kept := grown.kept.descendants_eq first.ordered grown.ordered (first.ordered.child_bounds isChild).2 known
    rw [addFields, Field.sizes]
    refine ⟨by rw [total, size, Nat.add_assoc], fun nodes same => ?_⟩
    have split : nodes = tree.size :: others := by
      rw [grown.children, first.children, List.append_assoc] at same
      exact (List.append_cancel_left same).symm
    have behind := numbered others grown.children
    rw [split, subtrees, List.flatMap_cons, kept, own]
    rw [subtrees] at behind
    rw [behind, size, List.range'_append_1]

end

theorem preorder_ofFields (namespaces : Namespaces) (fields : List Field) :
    (ofFields namespaces fields).preorder = List.range (ofFields namespaces fields).size := by
  have start := Ordered.empty namespaces
  obtain ⟨nodes, grown⟩ := exists_grown_ofFields namespaces fields
  obtain ⟨size, numbered⟩ := subtrees_addFields fields (empty namespaces) 0 start start.hasRoot
  have below := numbered nodes grown.children
  have children : (ofFields namespaces fields).children 0 = nodes := grown.children
  have total : (ofFields namespaces fields).size = 1 + Field.sizes fields := size
  rw [preorder, grown.ordered.descendants_eq_subtrees grown.ordered.hasRoot, children, total,
    List.range_eq_range', Nat.add_comm 1, List.range'_succ]
  exact congrArg (0 :: ·) below

theorem Ordered.values_field {tree : EventTree} (ordered : tree.Ordered) {node : Nat} (bounded : node < tree.size) :
    (node :: tree.descendants node).filterMap tree.value? = (tree.field node).values := by
  apply ordered.upward _ node bounded
  intro node bounded ih
  have siblings : ∀ nodes : List Nat, (∀ child ∈ nodes, child ∈ tree.children node) →
      (tree.subtrees nodes).filterMap tree.value? = Field.valuesOf (nodes.map tree.field) := by
    intro nodes
    induction nodes with
    | nil => exact fun _ => rfl
    | cons child nodes more =>
      intro areChildren
      have first := ih child (areChildren child List.mem_cons_self)
      have others := more fun other member => areChildren other (List.mem_cons_of_mem _ member)
      rw [subtrees, List.flatMap_cons, List.filterMap_append, first, List.map_cons, Field.valuesOf]
      exact congrArg _ others
  have below := siblings (tree.children node) fun _ member => member
  rw [ordered.field_eq bounded, Field.values, ← below, ← ordered.descendants_eq_subtrees bounded]
  cases own : tree.value? node with
  | none => rw [List.filterMap_cons_none own, Option.toList_none, List.nil_append]
  | some value => rw [List.filterMap_cons_some own, Option.toList_some, List.singleton_append]

theorem values_ofFields (namespaces : Namespaces) (fields : List Field) :
    (ofFields namespaces fields).preorder.filterMap (ofFields namespaces fields).value? = Field.valuesOf fields := by
  obtain ⟨nodes, grown⟩ := exists_grown_ofFields namespaces fields
  have bounded := grown.ordered.hasRoot
  have valueless : (ofFields namespaces fields).value? 0 = none := grown.value
  rw [preorder, grown.ordered.values_field bounded, grown.ordered.field_eq bounded, Field.values, valueless,
    ← grown.ordered.fields_eq, fields_ofFields]
  rfl

end EventTree

end EpcisDigest
