import EpcisDigest.Proofs.Event.Preorder

namespace EpcisDigest.EventTree

open List

inductive Operation where
  | addNode (parent : Nat) (name : String)
  | addLeaf (parent : Nat) (name value : String)
  | addWrapper (parent : Nat)
  | setValue (node : Nat) (value : String)
  | setNamespaces (namespaces : Namespaces)

def Operation.node? : Operation → Option Nat
  | addNode parent _ => some parent
  | addLeaf parent _ _ => some parent
  | addWrapper parent => some parent
  | setValue node _ => some node
  | setNamespaces _ => none

def perform (tree : EventTree) : Operation → EventTree × Option Nat
  | .addNode parent name => (tree.addNode parent name).map id some
  | .addLeaf parent name value => (tree.addLeaf parent name value).map id some
  | .addWrapper parent => (tree.addWrapper parent).map id some
  | .setValue node value => (tree.setValue node value, none)
  | .setNamespaces namespaces => (tree.setNamespaces namespaces, none)

/-- A tree behind some operations, with the nodes that it has handed out, its root being the first; each
    operation is done at one of these. -/
inductive Handed : EventTree → List Nat → Prop
  | root (namespaces : Namespaces) : Handed (empty namespaces) [0]
  | perform {tree : EventTree} {nodes : List Nat} (handed : Handed tree nodes) (operation : Operation)
      (known : ∀ node ∈ operation.node?, node ∈ nodes) :
      Handed (tree.perform operation).1 (nodes ++ (tree.perform operation).2.toList)

theorem built_add {tree : EventTree} {nodes : List Nat} (built : tree.Built) (all : nodes = range tree.size)
    {parent : Nat} (known : parent ∈ nodes) (name value : Option String) :
    (tree.add parent name value).1.Built ∧ nodes ++ [tree.size] = range (tree.add parent name value).1.size := by
  subst all
  rw [size_add, range_succ]
  exact ⟨built.add (mem_range.mp known) name value, rfl⟩

/-- The nodes that a tree has handed out are all its nodes, in the order of their numbers. -/
theorem Handed.built {tree : EventTree} {nodes : List Nat} (handed : Handed tree nodes) :
    tree.Built ∧ nodes = range tree.size := by
  induction handed with
  | root namespaces => exact ⟨.empty namespaces, rfl⟩
  | @perform tree nodes _ operation known ih =>
    obtain ⟨built, all⟩ := ih
    cases operation with
    | addNode parent name => exact built_add built all (known parent rfl) (some name) none
    | addLeaf parent name value => exact built_add built all (known parent rfl) (some name) (some value)
    | addWrapper parent => exact built_add built all (known parent rfl) none none
    | setValue node value =>
      refine ⟨built.setValue node value, ?_⟩
      rw [all]
      exact (append_nil _).trans (congrArg range (size_setValue tree value node).symm)
    | setNamespaces namespaces =>
      refine ⟨built.setNamespaces namespaces, ?_⟩
      rw [all]
      exact append_nil _

namespace Ordered

variable {tree : EventTree} (ordered : tree.Ordered)

include ordered

theorem parent?_eq_none_iff {node : Nat} (bounded : node < tree.size) : tree.parent? node = none ↔ node = 0 := by
  constructor
  · intro orphan
    apply Decidable.byContradiction
    intro proper
    obtain ⟨parent, below, _⟩ := ordered.hasParent node (Nat.pos_of_ne_zero proper) bounded
    rw [below] at orphan
    cases orphan
  · rintro rfl
    exact ordered.rootParent

theorem count_children {node parent : Nat} (below : tree.parent? node = some parent) (other : Nat) :
    (tree.children other).count node = if other = parent then 1 else 0 := by
  split
  · rename_i same
    subst same
    exact count_eq_one_of_mem (ordered.nodup other) (ordered.mem_of_parent below)
  · rename_i different
    apply count_eq_zero.mpr
    intro member
    rw [ordered.parent_of_mem member] at below
    exact different (Option.some.inj below)

theorem pairwise_ancestors {node : Nat} : (node :: tree.ancestors node).Pairwise (· > ·) := by
  induction node using Nat.strongRecOn with
  | _ node ih =>
    apply pairwise_cons.mpr
    refine ⟨fun above member => ordered.ancestor_lt member, ?_⟩
    cases below : tree.parent? node with
    | none =>
      rw [ancestors_of_orphan below]
      exact .nil
    | some parent =>
      rw [ordered.ancestors_of_parent below]
      exact ih parent (ordered.parent_lt below).1

theorem getLast?_ancestors {node : Nat} (bounded : node < tree.size) :
    (node :: tree.ancestors node).getLast? = some 0 := by
  apply ordered.downward _ _ node bounded
  · rw [ancestors_of_orphan ordered.rootParent]
    rfl
  · intro node parent below ends
    rw [ordered.ancestors_of_parent below, getLast?_cons_cons]
    exact ends

theorem preorder_perm : tree.preorder ~ range tree.size := by
  obtain ⟨size, isSize⟩ : ∃ size, tree.size = size + 1 := ⟨tree.size - 1, by have := ordered.hasRoot; omega⟩
  have proper : (range tree.size).filter (· != 0) = (range tree.size).tail := by
    rw [isSize, range_succ_eq_map]
    simp
  have whole : range tree.size = 0 :: (range tree.size).tail := by
    rw [isSize, range_succ_eq_map]
    rfl
  rw [preorder, whole, ← proper]
  exact ordered.descendants_root.cons 0

/-- Nothing goes down from child to child without an end. -/
theorem wellFounded_children : WellFounded fun child node => child ∈ tree.children node := by
  apply Subrelation.wf _ (measure fun node => tree.size - node).wf
  intro child node member
  have bounds := ordered.child_bounds member
  show tree.size - child < tree.size - node
  omega

end Ordered

end EpcisDigest.EventTree
