import EpcisDigest.Proofs.Event.Placement

namespace EpcisDigest.EventTree

open List

def IsNamed (tree : EventTree) (node : Nat) : Prop :=
  ∃ name, tree.name? node = some name ∧ isSynthetic name = false

variable {tree : EventTree} {node : Nat}

theorem pathName?_eq_some_iff {name : Option String} {shown : String} :
    pathName? name = some shown ↔ name = some shown ∧ isSynthetic shown = false := by
  rw [pathName?, Option.filter_eq_some_iff, Bool.not_eq_true']

theorem isNamed_iff : tree.IsNamed node ↔ (pathName? (tree.name? node)).isSome = true := by
  rw [IsNamed, Option.isSome_iff_exists]
  exact exists_congr fun name => pathName?_eq_some_iff.symm

theorem isUnderIlmd_iff :
    tree.isUnderIlmd node = true ↔ ∃ ilmd ∈ tree.ancestors node, tree.name? ilmd = some "ilmd" := by
  rw [isUnderIlmd, Lineage.isUnderIlmd, contains_iff_mem, lineage, mem_map]

theorem isStandard_iff (named : tree.IsNamed node) (outside : tree.isUnderIlmd node = false) :
    tree.isStandard node = true ↔ (Catalog.lookup? (tree.fieldPath node)).isSome = true := by
  have outside' : (tree.lineage node).isUnderIlmd = false := outside
  have hasName : (pathName? (tree.name? node)).isNone = false := by
    rw [← Option.not_isSome, isNamed_iff.mp named]
    rfl
  rw [isStandard, Lineage.isStandard, hasName, outside', Bool.false_or, Bool.false_or]
  rfl

namespace Ordered

variable (ordered : tree.Ordered)

include ordered

theorem fieldPath_of_parent {parent : Nat} (below : tree.parent? node = some parent) :
    tree.fieldPath node = tree.fieldPath parent ++ (pathName? (tree.name? node)).toList := by
  rw [fieldPath_eq, ordered.lineage_of_parent below]
  rfl

theorem parentField?_of_parent {parent : Nat} (below : tree.parent? node = some parent) :
    tree.parentField? node = (tree.fieldPath parent).getLast? := by
  rw [parentField?, ← getLast?_path, ordered.lineage_of_parent below]
  rfl

theorem isUnderIlmd_of_ancestor {above : Nat} (member : above ∈ tree.ancestors node)
    (outside : tree.isUnderIlmd node = false) : tree.isUnderIlmd above = false := by
  apply Bool.eq_false_iff.mpr
  intro under
  obtain ⟨ilmd, higher, named⟩ := isUnderIlmd_iff.mp under
  rw [isUnderIlmd_iff.mpr ⟨ilmd, ordered.ancestors_trans higher member, named⟩] at outside
  cases outside

theorem isSome_lookup?_of_ancestor {above : Nat} (member : above ∈ tree.ancestors node)
    (found : (Catalog.lookup? (tree.fieldPath node)).isSome = true) :
    (Catalog.lookup? (tree.fieldPath above)).isSome = true := by
  induction node using Nat.strongRecOn with
  | _ node ih =>
    obtain ⟨parent, below⟩ := exists_parent member
    have leads := ordered.isSome_lookup?_of_parent below found
    rcases (ordered.mem_ancestors below above).mp member with rfl | higher
    · exact leads
    · exact ih parent (ordered.parent_lt below).1 higher leads

theorem isStandard_of_ancestor {above : Nat} (member : above ∈ tree.ancestors node) (named : tree.IsNamed node)
    (outside : tree.isUnderIlmd node = false) (standard : tree.isStandard node = true) :
    tree.isStandard above = true :=
  isStandard_of_lookup? (ordered.isSome_lookup?_of_ancestor member ((isStandard_iff named outside).mp standard))

/-- Of two nodes on one way up, one is above the other. -/
theorem ancestors_total {above other : Nat} (member : above ∈ tree.ancestors node)
    (member' : other ∈ tree.ancestors node) :
    above = other ∨ above ∈ tree.ancestors other ∨ other ∈ tree.ancestors above := by
  induction node using Nat.strongRecOn with
  | _ node ih =>
    obtain ⟨parent, below⟩ := exists_parent member
    rcases (ordered.mem_ancestors below above).mp member with rfl | higher
    · rcases (ordered.mem_ancestors below other).mp member' with rfl | higher'
      · exact .inl rfl
      · exact .inr (.inr higher')
    · rcases (ordered.mem_ancestors below other).mp member' with rfl | higher'
      · exact .inr (.inl higher)
      · exact ih parent (ordered.parent_lt below).1 higher higher'

/-- What is standard below a user extension is below an `ilmd` node that is not above the extension. -/
theorem exists_ilmd_between {above : Nat} (member : above ∈ tree.ancestors node)
    (extension : tree.isStandard above = false) (named : tree.IsNamed node) (standard : tree.isStandard node = true) :
    ∃ ilmd ∈ tree.ancestors node, tree.name? ilmd = some "ilmd" ∧ (ilmd = above ∨ above ∈ tree.ancestors ilmd) := by
  have under : tree.isUnderIlmd node = true := by
    apply Decidable.byContradiction
    intro outside
    rw [ordered.isStandard_of_ancestor member named (Bool.eq_false_iff.mpr outside) standard] at extension
    cases extension
  obtain ⟨ilmd, isAbove, isIlmd⟩ := isUnderIlmd_iff.mp under
  refine ⟨ilmd, isAbove, isIlmd, ?_⟩
  rcases ordered.ancestors_total isAbove member with same | higher | lower
  · exact .inl same
  · -- An extension is never below `ilmd`.
    have under' : (tree.lineage above).isUnderIlmd = true := isUnderIlmd_iff.mpr ⟨ilmd, higher, isIlmd⟩
    rw [isStandard, Lineage.isStandard, under', Bool.or_true, Bool.true_or] at extension
    cases extension
  · exact .inr lower

end Ordered

/-- Going down, the path grows by the names that are part of it, and the name of the field above is the last of its
    path. A standard field outside `ilmd` has only standard ones above it, so that a standard field below an extension
    is below an `ilmd` node as well, which is the extension itself or lies between. -/
theorem fieldPath_below (built : tree.Built) (proper : 0 < node) (bounded : node < tree.size) :
    ∃ parent, tree.parent? node = some parent ∧
      (∀ name, tree.name? node = some name → isSynthetic name = false →
        tree.fieldPath node = tree.fieldPath parent ++ [name]) ∧
      (¬ tree.IsNamed node → tree.fieldPath node = tree.fieldPath parent) ∧
      tree.parentField? node = (tree.fieldPath parent).getLast? ∧
      (tree.IsNamed node → tree.isUnderIlmd node = false → tree.isStandard node = true →
        ∀ above ∈ tree.ancestors node, tree.IsNamed above →
          tree.isUnderIlmd above = false ∧ tree.isStandard above = true) ∧
      ∀ above ∈ tree.ancestors node, tree.IsNamed above → tree.isStandard above = false →
        tree.IsNamed node → tree.isStandard node = true →
          ∃ ilmd ∈ tree.ancestors node, tree.name? ilmd = some "ilmd" ∧
            (ilmd = above ∨ above ∈ tree.ancestors ilmd) := by
  have ordered := built.ordered
  obtain ⟨parent, below, _⟩ := ordered.hasParent node proper bounded
  have grows := ordered.fieldPath_of_parent below
  refine ⟨parent, below, fun name isName plain => ?_, fun nameless => ?_, ordered.parentField?_of_parent below,
    fun named outside standard above member _ => ?_, fun above member _ extension named standard => ?_⟩
  · rw [grows, pathName?_eq_some_iff.mpr ⟨isName, plain⟩]
    rfl
  · have pathless : pathName? (tree.name? node) = none := by
      rw [isNamed_iff, Option.not_isSome_iff_eq_none] at nameless
      exact nameless
    rw [grows, pathless]
    exact append_nil _
  · exact ⟨ordered.isUnderIlmd_of_ancestor member outside, ordered.isStandard_of_ancestor member named outside standard⟩
  · exact ordered.exists_ilmd_between member extension named standard

def lotTree : EventTree :=
  let tree := (empty NameTable.empty).addNode 0 "extension"
  let tree := tree.1.addNode 1 "bizTransactionList"
  let tree := tree.1.addWrapper 2
  let tree := tree.1.addLeaf 3 "type" "po"
  let tree := tree.1.addNode 0 "ex:note"
  let tree := tree.1.addNode 5 "ilmd"
  let tree := tree.1.addLeaf 6 "lot" "A1"
  tree.1

theorem fieldPath_below_lotTree :
    lotTree.Built ∧ (∃ parent, lotTree.parent? 4 = some parent ∧
      lotTree.fieldPath 4 = lotTree.fieldPath parent ++ ["type"] ∧
      lotTree.parentField? 4 = (lotTree.fieldPath parent).getLast?) ∧
    (lotTree.isUnderIlmd 2 = false ∧ lotTree.isStandard 2 = true) ∧
    ∃ ilmd ∈ lotTree.ancestors 7, lotTree.name? ilmd = some "ilmd" ∧ (ilmd = 5 ∨ 5 ∈ lotTree.ancestors ilmd) := by
  have built : lotTree.Built :=
    (((((((Built.empty _).add (by decide) _ _).add (by decide) _ _).add (by decide) _ _).add (by decide) _ _).add
      (by decide) _ _).add (by decide) _ _).add (by decide) _ _
  obtain ⟨parent, below, grows, _, field, standard, _⟩ := @fieldPath_below lotTree 4 built (by decide) (by decide)
  obtain ⟨_, _, _, _, _, _, between⟩ := @fieldPath_below lotTree 7 built (by decide) (by decide)
  exact ⟨built, ⟨parent, below, grows "type" (by decide) (by decide), field⟩,
    standard ⟨"type", by decide, by decide⟩ (by decide) (by decide) 2 (by decide)
      ⟨"bizTransactionList", by decide, by decide⟩,
    between 5 (by decide) ⟨"ex:note", by decide, by decide⟩ (by decide) ⟨"lot", by decide, by decide⟩ (by decide)⟩

end EpcisDigest.EventTree
