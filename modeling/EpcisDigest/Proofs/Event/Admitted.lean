import EpcisDigest.Proofs.Event.OfFields

namespace EpcisDigest

/-- A named value, a named node, or a wrapper without a name, in which all names are allowed ones. -/
inductive Field.Admitted (allowed : String → Prop) : Field → Prop where
  | leaf {name : String} (value : String) (isAllowed : allowed name) : Admitted allowed (.leaf name value)
  | node {name : String} {children : List Field} (isAllowed : allowed name)
      (inside : ∀ field ∈ children, Admitted allowed field) : Admitted allowed (.node name children)
  | wrapper {children : List Field} (inside : ∀ field ∈ children, Admitted allowed field) :
      Admitted allowed (.wrapper children)

def AllAdmitted (allowed : String → Prop) (fields : List Field) : Prop :=
  ∀ field ∈ fields, field.Admitted allowed

section Fields

variable {allowed : String → Prop} {field : Field} {fields others : List Field}

theorem allAdmitted_nil : AllAdmitted allowed [] := by
  intro field member
  cases member

theorem AllAdmitted.append (first : AllAdmitted allowed fields) (second : AllAdmitted allowed others) :
    AllAdmitted allowed (fields ++ others) := by
  intro field member
  rcases List.mem_append.mp member with member | member
  · exact first field member
  · exact second field member

theorem AllAdmitted.cons (first : field.Admitted allowed) (second : AllAdmitted allowed fields) :
    AllAdmitted allowed (field :: fields) := by
  intro other member
  rcases List.mem_cons.mp member with rfl | member
  · exact first
  · exact second other member

theorem Field.Admitted.single (admitted : field.Admitted allowed) : AllAdmitted allowed [field] :=
  AllAdmitted.cons admitted allAdmitted_nil

theorem Field.Admitted.inside (admitted : field.Admitted allowed) : AllAdmitted allowed field.children := by
  cases admitted with
  | leaf value isAllowed => exact allAdmitted_nil
  | node isAllowed inside => exact inside
  | wrapper inside => exact inside

theorem Field.Admitted.single_or (admitted : field.Admitted allowed) : field.value = none ∨ field.children = [] := by
  cases admitted with
  | leaf value isAllowed => exact .inr rfl
  | node isAllowed inside => exact .inl rfl
  | wrapper inside => exact .inl rfl

theorem Field.Admitted.named (admitted : field.Admitted allowed) (present : field.value.isSome = true) :
    field.name.isSome = true := by
  cases admitted with
  | leaf value isAllowed => rfl
  | node isAllowed inside => cases present
  | wrapper inside => cases present

theorem Field.Admitted.allowed_name {name : String} (admitted : field.Admitted allowed) (named : field.name = some name) :
    allowed name := by
  cases admitted with
  | leaf value isAllowed => exact Option.some.inj named ▸ isAllowed
  | node isAllowed inside => exact Option.some.inj named ▸ isAllowed
  | wrapper inside => cases named

theorem Field.Admitted.mono {weaker : String → Prop} (admitted : field.Admitted allowed)
    (implies : ∀ name, allowed name → weaker name) : field.Admitted weaker := by
  induction admitted with
  | leaf value isAllowed => exact .leaf value (implies _ isAllowed)
  | node isAllowed _ ih => exact .node (implies _ isAllowed) ih
  | wrapper _ ih => exact .wrapper ih

end Fields

namespace EventTree

structure WellShaped (tree : EventTree) : Prop where
  single : ∀ node, tree.value? node = none ∨ tree.children node = []
  named : ∀ node, (tree.value? node).isSome = true → (tree.name? node).isSome = true

/-- The names of all nodes but `seed` are allowed. -/
def Allows (tree : EventTree) (allowed : String → Prop) (seed : Option Nat) : Prop :=
  ∀ node name, some node ≠ seed → tree.name? node = some name → allowed name

section Trees

variable {tree : EventTree} {allowed : String → Prop} {namespaces : Namespaces} {fields : List Field}

theorem name?_eq_none {node : Nat} (beyond : tree.size ≤ node) : tree.name? node = none := by
  rw [name?, Array.getElem?_eq_none beyond]
  rfl

theorem value?_eq_none {node : Nat} (beyond : tree.size ≤ node) : tree.value? node = none := by
  rw [value?, Array.getElem?_eq_none beyond]
  rfl

/-- What is below the root is admitted, when the fields of the root are, but for a seed without children. -/
theorem Ordered.admitted (ordered : tree.Ordered) {seed : Option Nat}
    (top : ∀ child ∈ tree.children 0,
      some child = seed ∧ tree.children child = [] ∨ (tree.field child).Admitted allowed) {node : Nat}
    (positive : 0 < node) (bounded : node < tree.size) :
    some node = seed ∨ (tree.field node).Admitted allowed := by
  have reached : node = 0 ∨ some node = seed ∧ tree.children node = [] ∨ (tree.field node).Admitted allowed := by
    apply ordered.downward (.inl rfl) _ node bounded
    intro node parent below above
    have member := ordered.mem_of_parent below
    rcases above with rfl | ⟨-, childless⟩ | admitted
    · exact .inr (top node member)
    · rw [childless] at member
      cases member
    · have known : parent < tree.size := Nat.lt_trans (ordered.parent_lt below).1 (ordered.parent_lt below).2
      have inside := admitted.inside
      rw [ordered.field_eq known] at inside
      exact .inr (.inr (inside _ (List.mem_map_of_mem member)))
  rcases reached with rfl | ⟨isSeed, -⟩ | admitted
  · exact absurd positive (Nat.lt_irrefl 0)
  · exact .inl isSeed
  · exact .inr admitted

theorem Ordered.allows (ordered : tree.Ordered) {seed : Option Nat}
    (top : ∀ child ∈ tree.children 0,
      some child = seed ∧ tree.children child = [] ∨ (tree.field child).Admitted allowed) :
    tree.Allows allowed seed := by
  intro node name other named
  by_cases bounded : node < tree.size
  · by_cases root : node = 0
    · rw [root, ordered.rootName] at named
      cases named
    · have admitted := (ordered.admitted top (Nat.pos_of_ne_zero root) bounded).resolve_left other
      rw [ordered.field_eq bounded] at admitted
      exact admitted.allowed_name named
  · rw [name?_eq_none (Nat.not_lt.mp bounded)] at named
    cases named

theorem Ordered.wellShaped (ordered : tree.Ordered) (rootless : tree.value? 0 = none)
    (top : ∀ child ∈ tree.children 0, (tree.field child).Admitted allowed) : tree.WellShaped := by
  have node_cases : ∀ node, tree.value? node = none ∨
      node < tree.size ∧ (tree.field node).Admitted allowed := by
    intro node
    by_cases root : node = 0
    · exact .inl (root ▸ rootless)
    · by_cases bounded : node < tree.size
      · have admitted := @Ordered.admitted tree allowed ordered none (fun child member => .inr (top child member)) node
          (Nat.pos_of_ne_zero root) bounded
        exact .inr ⟨bounded, admitted.resolve_left (Option.some_ne_none node)⟩
      · exact .inl (value?_eq_none (Nat.not_lt.mp bounded))
  refine ⟨?_, ?_⟩
  · intro node
    rcases node_cases node with valueless | ⟨bounded, admitted⟩
    · exact .inl valueless
    · rw [ordered.field_eq bounded] at admitted
      exact admitted.single_or.imp id List.map_eq_nil_iff.mp
  · intro node present
    rcases node_cases node with valueless | ⟨bounded, admitted⟩
    · rw [valueless] at present
      cases present
    · rw [ordered.field_eq bounded] at admitted
      exact admitted.named present

theorem field_of_grown {nodes : List Nat} (grown : Grown (empty namespaces) tree 0 nodes fields) :
    tree.children 0 = nodes ∧ nodes.map tree.field = fields :=
  ⟨grown.children, fields_of_showsAll grown.ordered fields nodes grown.shows⟩

theorem admitted_of_grown {nodes : List Nat} (grown : Grown (empty namespaces) tree 0 nodes fields)
    (admitted : AllAdmitted allowed fields) : ∀ child ∈ nodes, (tree.field child).Admitted allowed := by
  intro child member
  apply admitted
  rw [← (field_of_grown grown).2]
  exact List.mem_map_of_mem member

theorem wellShaped_ofFields (admitted : AllAdmitted allowed fields) : (ofFields namespaces fields).WellShaped := by
  obtain ⟨nodes, grown⟩ := exists_grown_ofFields namespaces fields
  apply grown.ordered.wellShaped grown.value
  rw [(field_of_grown grown).1]
  exact admitted_of_grown grown admitted

theorem allows_ofFields (admitted : AllAdmitted allowed fields) :
    (ofFields namespaces fields).Allows allowed none := by
  obtain ⟨nodes, grown⟩ := exists_grown_ofFields namespaces fields
  refine grown.ordered.allows ?_
  rw [(field_of_grown grown).1]
  exact fun child member => .inr (admitted_of_grown grown admitted child member)

theorem seeded_ofFields (name value : String) (admitted : AllAdmitted allowed fields) :
    let tree := ofFields namespaces (Field.leaf name value :: fields)
    tree.Allows allowed (some 1) ∧ tree.parent? 1 = some 0 ∧ tree.field 1 = Field.leaf name value := by
  obtain ⟨nodes, grown⟩ := exists_grown_ofFields_cons namespaces (Field.leaf name value) fields
  obtain ⟨children, shown⟩ := field_of_grown grown
  obtain ⟨seed, others⟩ := List.cons.inj shown
  have below : 1 ∈ (ofFields namespaces (Field.leaf name value :: fields)).children 0 := by
    rw [children]
    exact List.mem_cons_self
  refine ⟨?_, grown.ordered.parent_of_mem below, seed⟩
  refine grown.ordered.allows ?_
  rw [children]
  intro child member
  rcases List.mem_cons.mp member with rfl | member
  · rw [grown.ordered.field_eq (grown.ordered.child_bounds below).2] at seed
    exact .inl ⟨rfl, List.map_eq_nil_iff.mp (congrArg Field.children seed)⟩
  · have shown := List.mem_map_of_mem (f := (ofFields namespaces (Field.leaf name value :: fields)).field) member
    rw [others] at shown
    exact .inr (admitted _ shown)

end Trees

end EventTree

end EpcisDigest
