import EpcisDigest.Proofs.Event.Arena

namespace EpcisDigest.EventTree

mutual

def Shows (tree : EventTree) (node : Nat) : Field → Prop
  | ⟨name, value, children⟩ =>
    node < tree.size ∧ tree.name? node = name ∧ tree.value? node = value ∧
      ShowsAll tree (tree.children node) children

def ShowsAll (tree : EventTree) : List Nat → List Field → Prop
  | [], [] => True
  | node :: nodes, field :: fields => Shows tree node field ∧ ShowsAll tree nodes fields
  | _, _ => False

end

structure Extends (tree extended : EventTree) (parent : Nat) : Prop where
  size : tree.size ≤ extended.size
  same : ∀ node, node < tree.size → node ≠ parent → extended.slots[node]? = tree.slots[node]?

theorem Extends.trans {tree between extended : EventTree} {parent : Nat} (lower : Extends tree between parent)
    (upper : Extends between extended parent) : Extends tree extended parent where
  size := Nat.le_trans lower.size upper.size
  same := by
    intro node bounded other
    have bounded' := Nat.lt_of_lt_of_le bounded lower.size
    exact (upper.same node bounded' other).trans (lower.same node bounded other)

mutual

theorem field_of_shows {tree : EventTree} (ordered : tree.Ordered) :
    ∀ (field : Field) (node : Nat), tree.Shows node field → tree.field node = field
  | ⟨name, value, children⟩, node, shows => by
    simp only [Shows] at shows
    obtain ⟨bounded, rfl, rfl, below⟩ := shows
    rw [ordered.field_eq bounded, fields_of_showsAll ordered children (tree.children node) below]

theorem fields_of_showsAll {tree : EventTree} (ordered : tree.Ordered) :
    ∀ (fields : List Field) (nodes : List Nat), tree.ShowsAll nodes fields → nodes.map tree.field = fields
  | [], [], _ => rfl
  | [], _ :: _, shows => by
    simp only [ShowsAll] at shows
  | _ :: _, [], shows => by
    simp only [ShowsAll] at shows
  | field :: fields, node :: nodes, shows => by
    simp only [ShowsAll] at shows
    rw [List.map_cons, field_of_shows ordered field node shows.1, fields_of_showsAll ordered fields nodes shows.2]

end

section Extending

variable {tree extended : EventTree} {parent : Nat}

mutual

theorem shows_extends (ordered : tree.Ordered) (kept : Extends tree extended parent) :
    ∀ (field : Field) (node : Nat), parent < node → tree.Shows node field → extended.Shows node field
  | ⟨name, value, children⟩, node, later, shows => by
    simp only [Shows] at shows ⊢
    obtain ⟨bounded, isName, isValue, below⟩ := shows
    have same := kept.same node bounded (by omega)
    have sameChildren : extended.children node = tree.children node := by
      rw [EventTree.children, same]
      rfl
    refine ⟨Nat.lt_of_lt_of_le bounded kept.size, ?_, ?_, ?_⟩
    · rw [name?, same]
      exact isName
    · rw [value?, same]
      exact isValue
    · rw [sameChildren]
      apply showsAll_extends ordered kept children (tree.children node) _ below
      intro child member
      have := (ordered.child_bounds member).1
      omega

theorem showsAll_extends (ordered : tree.Ordered) (kept : Extends tree extended parent) :
    ∀ (fields : List Field) (nodes : List Nat), (∀ node ∈ nodes, parent < node) →
      tree.ShowsAll nodes fields → extended.ShowsAll nodes fields
  | [], [], _, _ => by simp only [ShowsAll]
  | [], _ :: _, _, shows => by
    simp only [ShowsAll] at shows
  | _ :: _, [], _, shows => by
    simp only [ShowsAll] at shows
  | field :: fields, node :: nodes, later, shows => by
    simp only [ShowsAll] at shows ⊢
    exact ⟨shows_extends ordered kept field node (later node List.mem_cons_self) shows.1,
      showsAll_extends ordered kept fields nodes
        (fun other member => later other (List.mem_cons_of_mem _ member)) shows.2⟩

end

end Extending

/-- What adding fields below `parent` makes of a tree; `nodes` are those of the fields themselves. -/
structure Grown (tree grown : EventTree) (parent : Nat) (nodes : List Nat) (fields : List Field) : Prop where
  ordered : grown.Ordered
  kept : Extends tree grown parent
  name : grown.name? parent = tree.name? parent
  value : grown.value? parent = tree.value? parent
  children : grown.children parent = tree.children parent ++ nodes
  shows : grown.ShowsAll nodes fields

theorem Grown.cons {tree between grown : EventTree} {parent node : Nat} {nodes : List Nat} {field : Field}
    {fields : List Field} (first : Grown tree between parent [node] [field])
    (others : Grown between grown parent nodes fields) (later : parent < node) :
    Grown tree grown parent (node :: nodes) (field :: fields) where
  ordered := others.ordered
  kept := first.kept.trans others.kept
  name := others.name.trans first.name
  value := others.value.trans first.value
  children := by rw [others.children, first.children, List.append_assoc, List.singleton_append]
  shows := ⟨shows_extends first.ordered others.kept field node later first.shows.1, others.shows⟩

theorem extends_add (tree : EventTree) (parent : Nat) (name value : Option String) :
    Extends tree (tree.add parent name value).1 parent where
  size := by
    rw [size_add]
    omega
  same := by
    intro node bounded other
    rw [slot_add, if_neg (by omega), if_neg (by omega)]

mutual

theorem grown_addField : ∀ (field : Field) (tree : EventTree) (parent : Nat), tree.Ordered → parent < tree.size →
    Grown tree (addField tree parent field) parent [tree.size] [field]
  | ⟨name, value, children⟩, tree, parent, ordered, known => by
    have added := ordered.add known name value
    have size := size_add tree parent name value
    obtain ⟨nodes, below⟩ := grown_addFields children (tree.add parent name value).1 tree.size added (by omega)
    have unfolded : addField tree parent ⟨name, value, children⟩ =
        addFields (tree.add parent name value).1 tree.size children := by
      rw [addField]
      rfl
    rw [unfolded]
    have keptParent := below.kept.same parent (by omega) (by omega)
    have childless : (tree.add parent name value).1.children tree.size = [] := by
      rw [children_add _ _ _ _ _ known, if_pos rfl]
    refine ⟨below.ordered, ⟨Nat.le_trans (extends_add tree parent name value).size below.kept.size, ?_⟩, ?_, ?_, ?_,
      ?_⟩
    · intro node bounded other
      rw [below.kept.same node (by omega) (by omega)]
      exact (extends_add tree parent name value).same node bounded other
    · rw [name?, keptParent]
      exact (name?_add tree parent parent name value).trans (if_neg (by omega))
    · rw [value?, keptParent]
      exact (value?_add tree parent parent name value).trans (if_neg (by omega))
    · rw [EventTree.children, keptParent]
      exact (children_add tree parent parent name value known).trans ((if_neg (by omega)).trans (if_pos rfl))
    · simp only [ShowsAll, Shows, and_true]
      refine ⟨Nat.lt_of_lt_of_le (by omega) below.kept.size, ?_, ?_, ?_⟩
      · rw [below.name, name?_add, if_pos rfl]
      · rw [below.value, value?_add, if_pos rfl]
      · rw [below.children, childless, List.nil_append]
        exact below.shows

theorem grown_addFields : ∀ (fields : List Field) (tree : EventTree) (parent : Nat), tree.Ordered →
    parent < tree.size → ∃ nodes, Grown tree (addFields tree parent fields) parent nodes fields
  | [], tree, parent, ordered, _ => by
    rw [addFields]
    exact ⟨[], ordered, ⟨Nat.le_refl _, fun _ _ _ => rfl⟩, rfl, rfl, (List.append_nil _).symm, trivial⟩
  | field :: fields, tree, parent, ordered, known => by
    have first := grown_addField field tree parent ordered known
    obtain ⟨nodes, others⟩ := grown_addFields fields (addField tree parent field) parent first.ordered
      (Nat.lt_of_lt_of_le known first.kept.size)
    rw [addFields]
    exact ⟨tree.size :: nodes, first.cons others known⟩

end

mutual

theorem Built.addField : ∀ (field : Field) {tree : EventTree} {parent : Nat}, tree.Built → parent < tree.size →
    (addField tree parent field).Built
  | ⟨name, value, children⟩, tree, parent, built, known => by
    have bounded : tree.size < (tree.add parent name value).1.size := by
      rw [size_add]
      exact Nat.lt_succ_self _
    rw [EventTree.addField]
    exact Built.addFields children (built.add known name value) bounded

theorem Built.addFields : ∀ (fields : List Field) {tree : EventTree} {parent : Nat}, tree.Built →
    parent < tree.size → (addFields tree parent fields).Built
  | [], _, _, built, _ => built
  | field :: fields, tree, parent, built, known => by
    have larger := (grown_addField field tree parent built.ordered known).kept.size
    rw [EventTree.addFields]
    exact Built.addFields fields (Built.addField field built known) (Nat.lt_of_lt_of_le known larger)

end

theorem Built.ofFields (namespaces : Namespaces) (fields : List Field) : (ofFields namespaces fields).Built :=
  Built.addFields fields (Built.empty namespaces) Nat.one_pos

theorem exists_grown_ofFields (namespaces : Namespaces) (fields : List Field) :
    ∃ nodes, Grown (empty namespaces) (ofFields namespaces fields) 0 nodes fields :=
  grown_addFields fields (empty namespaces) 0 (Ordered.empty namespaces) Nat.one_pos

theorem exists_grown_ofFields_cons (namespaces : Namespaces) (field : Field) (fields : List Field) :
    ∃ nodes, Grown (empty namespaces) (ofFields namespaces (field :: fields)) 0 (1 :: nodes) (field :: fields) := by
  have start := Ordered.empty namespaces
  have first := grown_addField field (empty namespaces) 0 start start.hasRoot
  obtain ⟨nodes, others⟩ := grown_addFields fields (addField (empty namespaces) 0 field) 0 first.ordered
    first.ordered.hasRoot
  rw [ofFields, addFields]
  exact ⟨nodes, first.cons others Nat.one_pos⟩

theorem fields_ofFields (namespaces : Namespaces) (fields : List Field) :
    (ofFields namespaces fields).fields = fields := by
  obtain ⟨nodes, grown⟩ := exists_grown_ofFields namespaces fields
  have children : (ofFields namespaces fields).children 0 = nodes := grown.children
  rw [grown.ordered.fields_eq, children]
  exact fields_of_showsAll grown.ordered fields nodes grown.shows

mutual

theorem namespaces_addField :
    ∀ (field : Field) (tree : EventTree) (parent : Nat), (addField tree parent field).namespaces = tree.namespaces
  | ⟨name, value, children⟩, tree, parent => by
    rw [addField]
    exact namespaces_addFields children (tree.add parent name value).1 tree.size

theorem namespaces_addFields :
    ∀ (fields : List Field) (tree : EventTree) (parent : Nat), (addFields tree parent fields).namespaces = tree.namespaces
  | [], _, _ => by rw [addFields]
  | field :: fields, tree, parent => by
    rw [addFields, namespaces_addFields fields, namespaces_addField field]

end

theorem namespaces_ofFields (namespaces : Namespaces) (fields : List Field) :
    (ofFields namespaces fields).namespaces = namespaces :=
  namespaces_addFields fields (empty namespaces) 0

theorem canonicalForm_ofFields (settings : Settings) (namespaces : Namespaces) (fields : List Field) :
    (ofFields namespaces fields).canonicalForm settings = EpcisDigest.canonicalForm settings namespaces fields := by
  rw [canonicalForm, namespaces_ofFields, fields_ofFields]

end EpcisDigest.EventTree
