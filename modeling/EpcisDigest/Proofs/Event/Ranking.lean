import EpcisDigest.Proofs.Event.NodeLines
import EpcisDigest.Proofs.Event.SiblingOrder
import EpcisDigest.Proofs.Sort.Mapped

namespace EpcisDigest

open List
open Std (TransCmp)

theorem Rank.compare_self_ne (rank : Rank) : rank.compare rank ≠ .lt := by
  have same : rank.compare rank = .eq := Std.ReflCmp.compare_self
  rw [same]
  decide

namespace Entry

theorem le_of_not_le {a b : Entry} (greater : a.le b ≠ true) : b.le a = true := by
  rw [le_eq, ← compare_swap]
  rw [le_eq] at greater
  revert greater
  cases a.compare b <;> decide

theorem rank_isLE_of_le {a b : Entry} (unmixed : ¬ a.rank.Mixed b.rank) (less : a.le b = true) :
    (a.rank.compare b.rank).isLE = true := by
  rw [le_eq, compare_eq unmixed, then_isLE_iff] at less
  rcases less with before | ⟨same, -⟩
  · exact Ordering.isLE_of_eq_lt before
  · exact Ordering.isLE_of_eq_eq same

/-- Whatever the ties are, an entry is sorted behind those of lower ranks. -/
theorem sort_pairwise {entries sorted : List Entry} (unmixed : Unmixed entries) (given : sort entries = .ok sorted) :
    sorted.Pairwise fun a b => b.rank.compare a.rank ≠ .lt := by
  -- The comparison decides ranks only among entries that are not mixed: it is that of the entries of this list.
  let le' : { entry // entry ∈ entries } → { entry // entry ∈ entries } → Bool := fun a b => a.val.le b.val
  have decides : Sort.Decides le' fun a b => (a.val.rank.compare b.val.rank).isLE = true :=
    { trans := fun _ _ _ => TransCmp.isLE_trans
      below := fun a b => rank_isLE_of_le (unmixed a a.property b b.property)
      above := fun a b greater => rank_isLE_of_le (unmixed b b.property a a.property) (le_of_not_le greater) }
  have mapped := Sort.map_stable (fun a b => (rfl : Entry.le a.val b.val = le' a b)) entries.attach
  rw [attach_map_subtype_val, sort_eq_ok.mp given] at mapped
  obtain ⟨attached, given', rfl⟩ := Option.map_eq_some_iff.mp mapped
  apply pairwise_map.mpr
  apply (Sort.stable_arranged decides given').inOrder.imp
  intro a b upTo below
  rw [@Std.OrientedCmp.eq_swap _ Rank.compare, below] at upTo
  cases upTo

end Entry

namespace EventTree

def siblingRank (settings : Settings) (tree : EventTree) (node : Nat) : Rank :=
  if (tree.entersExtension node || (tree.parent? node).any tree.inExtension) = true then
    extensionRank settings tree.namespaces (tree.field node)
  else if tree.isUnderIlmd node = true then .ilmd (extensionText tree.namespaces (tree.name? node) (tree.value? node))
  else .standard (Catalog.position? (tree.fieldPath node))

def IsWithin (tree : EventTree) (root node : Nat) : Prop := root = node ∨ root ∈ tree.ancestors node

structure Outranks (settings : Settings) (tree : EventTree) (first second : Nat) : Prop where
  siblings : ∃ parent, tree.parent? first = some parent ∧ tree.parent? second = some parent
  lower : (tree.siblingRank settings first).compare (tree.siblingRank settings second) = .lt

/-- Of the siblings that two nodes are within, that of the first node has the lower rank. -/
def Ahead (settings : Settings) (tree : EventTree) (node other : Nat) : Prop :=
  ∃ first second, tree.Outranks settings first second ∧ tree.IsWithin first node ∧ tree.IsWithin second other

theorem Outranks.ne {settings : Settings} {tree : EventTree} {first second : Nat}
    (outranks : tree.Outranks settings first second) : first ≠ second := by
  rintro rfl
  exact Rank.compare_self_ne _ outranks.lower

namespace Ordered

variable {settings : Settings} {tree : EventTree} (ordered : tree.Ordered)

include ordered

theorem isWithin_trans {above root node : Nat} (upper : tree.IsWithin above root) (lower : tree.IsWithin root node) :
    tree.IsWithin above node := by
  rcases upper with rfl | upper
  · exact lower
  · rcases lower with rfl | lower
    · exact .inr upper
    · exact .inr (ordered.ancestors_trans upper lower)

theorem isWithin_parent {root node parent : Nat} (below : tree.parent? node = some parent)
    (proper : root ∈ tree.ancestors node) : tree.IsWithin root parent :=
  (ordered.mem_ancestors below root).mp proper

/-- Of two nodes that a third one is within, one is within the other. -/
theorem isWithin_total {a b node : Nat} (inA : tree.IsWithin a node) (inB : tree.IsWithin b node) :
    tree.IsWithin a b ∨ tree.IsWithin b a := by
  induction node using Nat.strongRecOn with
  | _ node ih =>
    rcases inA with rfl | properA
    · exact .inr inB
    rcases inB with rfl | properB
    · exact .inl (.inr properA)
    obtain ⟨parent, below⟩ := exists_parent properA
    exact ih parent (ordered.parent_lt below).1 (ordered.isWithin_parent below properA)
      (ordered.isWithin_parent below properB)

/-- Two nodes are within at most one pair of different siblings. -/
theorem siblings_unique {a b c d above upper node other : Nat} (isA : tree.parent? a = some above)
    (isB : tree.parent? b = some above) (isC : tree.parent? c = some upper) (isD : tree.parent? d = some upper)
    (inA : tree.IsWithin a node) (inB : tree.IsWithin b other) (inC : tree.IsWithin c node)
    (inD : tree.IsWithin d other) (apart : a ≠ b) (apart' : c ≠ d) : a = c ∧ b = d := by
  have same : a = c := by
    rcases ordered.isWithin_total inA inC with (same | proper) | (same | proper)
    · exact same
    · have around := ordered.isWithin_parent isC proper
      have above' := ordered.isWithin_trans around (.inr ((ordered.mem_ancestors isD upper).mpr (.inl rfl)))
      exact absurd (ordered.siblings_eq isA isB (ordered.isWithin_trans above' inD) inB) apart
    · exact same.symm
    · have around := ordered.isWithin_parent isA proper
      have above' := ordered.isWithin_trans around (.inr ((ordered.mem_ancestors isB above).mpr (.inl rfl)))
      exact absurd (ordered.siblings_eq isC isD (ordered.isWithin_trans above' inB) inD) apart'
  subst same
  have level : above = upper := Option.some.inj (isA.symm.trans isC)
  subst level
  exact ⟨rfl, ordered.siblings_eq isB isD inB inD⟩

theorem outranks_of_ahead {c d upper node other : Nat} (isC : tree.parent? c = some upper)
    (isD : tree.parent? d = some upper) (inC : tree.IsWithin c node) (inD : tree.IsWithin d other) (apart : c ≠ d)
    (ahead : tree.Ahead settings node other) : tree.Outranks settings c d := by
  obtain ⟨a, b, outranks, inA, inB⟩ := ahead
  obtain ⟨above, isA, isB⟩ := outranks.siblings
  obtain ⟨rfl, rfl⟩ := ordered.siblings_unique isA isB isC isD inA inB inC inD outranks.ne apart
  exact outranks

theorem not_ahead_of_within {node other : Nat} (within : tree.IsWithin node other) :
    ¬ tree.Ahead settings other node := by
  rintro ⟨a, b, outranks, inA, inB⟩
  obtain ⟨above, isA, isB⟩ := outranks.siblings
  exact outranks.ne (ordered.siblings_eq isA isB inA (ordered.isWithin_trans inB within))

end Ordered

end EventTree

end EpcisDigest
