import EpcisDigest.Proofs.Catalog
import EpcisDigest.Proofs.Event.Alike
import EpcisDigest.Proofs.Event.Ranking
import Mathlib.Data.List.Perm.Basic

namespace EpcisDigest

open List

section Arranging

def Rank.isExtension : Rank → Bool
  | .standard _ => false
  | .ilmd _ => false
  | .extension _ => true

def Entry.share (placement : Placement) (entry : Entry) : Rendered :=
  if placement = .hoisted ∧ entry.rank.isExtension = true then
    ⟨[], entry.rendered.placed ++ entry.rendered.hoisted⟩
  else entry.rendered

theorem Entry.share_eq (placement : Placement) {entry : Entry} (notExtension : entry.rank.isExtension = false) :
    entry.share placement = entry.rendered := by
  rw [Entry.share, notExtension]
  exact if_neg fun both => Bool.false_ne_true both.2

theorem arrange_eq (placement : Placement) (entries : List Entry) :
    Entry.arrange placement entries =
      ⟨entries.flatMap fun entry => (entry.share placement).placed,
        entries.flatMap fun entry => (entry.share placement).hoisted⟩ := by
  rw [Entry.arrange, Rendered.mk.injEq]
  constructor <;>
  · apply flatMap_congr
    intro entry _
    rw [Entry.share]
    cases placement <;> cases entry.rank <;> rfl

theorem Entry.decides_isExtension :
    Sort.Decides Entry.le fun a b => a.rank.isExtension = true → b.rank.isExtension = true where
  trans _ _ _ ab bc isExtension := bc (ab isExtension)
  below a b less := by
    rw [Entry.le, Entry.compare] at less
    revert less
    cases a.rank <;> cases b.rank <;> simp [Rank.isExtension, Ordering.isLT]
  above a b greater := by
    rw [Entry.le, Entry.compare] at greater
    revert greater
    cases a.rank <;> cases b.rank <;> simp [Rank.isExtension, Ordering.isLT]

theorem exists_split {α : Type} {later : α → Bool} {items : List α}
    (rising : items.Pairwise fun a b => later a = true → later b = true) :
    ∃ front back, items = front ++ back ∧ (∀ item ∈ front, later item = false) ∧ ∀ item ∈ back, later item = true := by
  induction items with
  | nil => exact ⟨[], [], rfl, fun _ member => absurd member not_mem_nil, fun _ member => absurd member not_mem_nil⟩
  | cons item items ih =>
    obtain ⟨first, rest⟩ := pairwise_cons.mp rising
    cases isLater : later item with
    | true =>
      refine ⟨[], item :: items, rfl, fun _ member => absurd member not_mem_nil, forall_mem_cons.mpr ⟨isLater, ?_⟩⟩
      exact fun other member => first other member isLater
    | false =>
      obtain ⟨front, back, rfl, early, late⟩ := ih rest
      exact ⟨item :: front, back, rfl, forall_mem_cons.mpr ⟨isLater, early⟩, late⟩

/-- Extensions are sorted behind their siblings. -/
theorem exists_sort_split {entries sorted : List Entry} (given : Entry.sort entries = .ok sorted) :
    ∃ front back, sorted = front ++ back ∧ (∀ entry ∈ front, entry.rank.isExtension = false) ∧
      ∀ entry ∈ back, entry.rank.isExtension = true :=
  exists_split (Sort.stable_arranged Entry.decides_isExtension (sort_eq_ok.mp given)).inOrder

theorem forall₂_of_mapM {α β ε : Type} {f : α → Except ε β} {items : List α} {results : List β}
    (collected : items.mapM f = .ok results) : Forall₂ (fun item result => f item = .ok result) items results := by
  induction items generalizing results with
  | nil =>
    cases collected
    exact .nil
  | cons item items ih =>
    rw [mapM_cons] at collected
    cases first : f item with
    | error fault =>
      rw [first] at collected
      cases collected
    | ok result =>
      cases others : items.mapM f with
      | error fault =>
        rw [first, others] at collected
        cases collected
      | ok results' =>
        rw [first, others] at collected
        cases collected
        exact .cons first (ih others)

end Arranging

namespace EventTree

section Laid

variable (settings : Settings) (tree : EventTree)

def texts (nodes : List Nat) : List String := nodes.filterMap (tree.nodeText? settings)

/-- Whether a node or one above it, other than the event itself, is that of an extension or holds only these. -/
def liesInExtension (node : Nat) : Bool :=
  (node :: tree.ancestors node).any fun above => above != 0 && tree.entersExtension above

def subtree (node : Nat) : List Nat := node :: tree.descendants node

def visibleIn (roots : List Nat) : List Nat := (roots.flatMap tree.subtree).filter (tree.isVisible settings)

def Nested (order : List Nat) : Prop :=
  ∀ node ∈ order, ∃ before block after, order = before ++ node :: (block ++ after) ∧
    block ~ (tree.descendants node).filter (tree.isVisible settings)

variable {settings tree}

theorem Nested.nil : Nested settings tree [] := fun _ member => absurd member not_mem_nil

theorem Nested.append {order others : List Nat} (nested : Nested settings tree order)
    (nested' : Nested settings tree others) : Nested settings tree (order ++ others) := by
  intro node member
  rcases mem_append.mp member with member | member
  · obtain ⟨before, block, after, rfl, below⟩ := nested node member
    exact ⟨before, block, after ++ others, by simp only [append_assoc, cons_append], below⟩
  · obtain ⟨before, block, after, rfl, below⟩ := nested' node member
    exact ⟨order ++ before, block, after, by simp only [append_assoc], below⟩

theorem Nested.cons {node : Nat} {order : List Nat} (nested : Nested settings tree order)
    (below : order ~ (tree.descendants node).filter (tree.isVisible settings)) :
    Nested settings tree (node :: order) := by
  intro other member
  rcases mem_cons.mp member with rfl | member
  · exact ⟨[], order, [], by rw [append_nil, nil_append], below⟩
  · obtain ⟨before, block, after, split, lower⟩ := nested other member
    exact ⟨node :: before, block, after, congrArg (node :: ·) split, lower⟩

def KeepsRanks (settings : Settings) (tree : EventTree) (order : List Nat) : Prop :=
  order.Pairwise fun node other => ¬ tree.Ahead settings other node

/-- The nodes whose lines are placed and hoisted where the visible nodes in some subtrees are rendered. -/
structure Laid (settings : Settings) (tree : EventTree) (placement : Placement) (roots : List Nat)
    (rendered : Rendered) (placed hoisted : List Nat) : Prop where
  lines : rendered = ⟨tree.texts settings placed, tree.texts settings hoisted⟩
  perm : placed ++ hoisted ~ tree.visibleIn settings roots
  apart : placement = .hoisted →
    (∀ node ∈ placed, tree.liesInExtension node = false) ∧ ∀ node ∈ hoisted, tree.liesInExtension node = true
  inPlace : placement = .inline → hoisted = [] ∧ Nested settings tree placed
  ranked : KeepsRanks settings tree placed ∧ KeepsRanks settings tree hoisted

structure EntryLaid (settings : Settings) (tree : EventTree) (placement : Placement) (node : Nat) (entry : Entry) :
    Prop where
  rank : entry.rank = tree.siblingRank settings node
  laid : ∃ placed hoisted, Laid settings tree placement [node] (entry.share placement) placed hoisted

theorem mem_visibleIn {roots : List Nat} {node : Nat} (member : node ∈ tree.visibleIn settings roots) :
    ∃ root ∈ roots, node ∈ tree.visibleIn settings [root] := by
  obtain ⟨inside, visible⟩ := mem_filter.mp member
  obtain ⟨root, isRoot, below⟩ := mem_flatMap.mp inside
  refine ⟨root, isRoot, mem_filter.mpr ⟨mem_flatMap.mpr ⟨root, mem_singleton_self root, below⟩, visible⟩⟩

namespace Laid

variable {placement : Placement} {roots others : List Nat} {rendered rendered' : Rendered}
  {placed hoisted placed' hoisted' : List Nat}

theorem nil : Laid settings tree placement [] ⟨[], []⟩ [] [] where
  lines := rfl
  perm := Perm.refl _
  apart _ := ⟨fun _ member => absurd member not_mem_nil, fun _ member => absurd member not_mem_nil⟩
  inPlace _ := ⟨rfl, Nested.nil⟩
  ranked := ⟨Pairwise.nil, Pairwise.nil⟩

theorem append (laid : Laid settings tree placement roots rendered placed hoisted)
    (laid' : Laid settings tree placement others rendered' placed' hoisted')
    (apart : ∀ node ∈ tree.visibleIn settings roots, ∀ other ∈ tree.visibleIn settings others,
      ¬ tree.Ahead settings other node) :
    Laid settings tree placement (roots ++ others)
      ⟨rendered.placed ++ rendered'.placed, rendered.hoisted ++ rendered'.hoisted⟩
      (placed ++ placed') (hoisted ++ hoisted') where
  lines := by
    rw [laid.lines, laid'.lines]
    simp only [texts, filterMap_append]
  perm := by
    have both := laid.perm.append laid'.perm
    rw [visibleIn, visibleIn, ← filter_append, ← flatMap_append] at both
    refine Perm.trans ?_ both
    rw [append_assoc, append_assoc]
    exact (perm_append_comm_assoc placed' hoisted hoisted').append_left placed
  apart isHoisted := by
    obtain ⟨outside, inside⟩ := laid.apart isHoisted
    obtain ⟨outside', inside'⟩ := laid'.apart isHoisted
    exact ⟨forall_mem_append.mpr ⟨outside, outside'⟩, forall_mem_append.mpr ⟨inside, inside'⟩⟩
  inPlace isInline := by
    obtain ⟨rfl, nested⟩ := laid.inPlace isInline
    obtain ⟨rfl, nested'⟩ := laid'.inPlace isInline
    exact ⟨rfl, nested.append nested'⟩
  ranked := by
    refine ⟨pairwise_append.mpr ⟨laid.ranked.1, laid'.ranked.1, fun node member other member' => ?_⟩,
      pairwise_append.mpr ⟨laid.ranked.2, laid'.ranked.2, fun node member other member' => ?_⟩⟩
    · exact apart node (laid.perm.mem_iff.mp (mem_append_left _ member)) other
        (laid'.perm.mem_iff.mp (mem_append_left _ member'))
    · exact apart node (laid.perm.mem_iff.mp (mem_append_right _ member)) other
        (laid'.perm.mem_iff.mp (mem_append_right _ member'))

theorem congr (laid : Laid settings tree placement roots rendered placed hoisted)
    (same : tree.visibleIn settings roots ~ tree.visibleIn settings others) :
    Laid settings tree placement others rendered placed hoisted :=
  ⟨laid.lines, laid.perm.trans same, laid.apart, laid.inPlace, laid.ranked⟩

theorem arranged {children : List Nat} {entries : List Entry}
    (each : Forall₂ (fun child entry => ∃ placed hoisted,
      Laid settings tree placement [child] (Entry.share placement entry) placed hoisted) children entries)
    (apart : children.Pairwise fun child sibling => ∀ node ∈ tree.visibleIn settings [child],
      ∀ other ∈ tree.visibleIn settings [sibling], ¬ tree.Ahead settings other node) :
    ∃ placed hoisted, Laid settings tree placement children (Entry.arrange placement entries) placed hoisted := by
  rw [arrange_eq]
  induction each with
  | nil => exact ⟨[], [], nil⟩
  | cons one _ ih =>
    obtain ⟨first, rest⟩ := pairwise_cons.mp apart
    obtain ⟨placed, hoisted, laid⟩ := one
    obtain ⟨placed', hoisted', laid'⟩ := ih rest
    refine ⟨_, _, laid.append laid' fun node member other member' => ?_⟩
    obtain ⟨sibling, isSibling, inside⟩ := mem_visibleIn member'
    exact first sibling isSibling node member other inside

end Laid

end Laid

namespace Ordered

variable {tree : EventTree} (ordered : tree.Ordered) (settings : Settings)

include ordered

theorem of_mem_visibleIn {node below : Nat} (bounded : node < tree.size)
    (member : below ∈ tree.visibleIn settings [node]) : below = node ∨ node ∈ tree.ancestors below := by
  obtain ⟨root, isRoot, inside⟩ := mem_flatMap.mp (mem_filter.mp member).1
  rw [mem_singleton.mp isRoot] at inside
  exact (mem_cons.mp inside).imp_right (ordered.ancestor_of_descendant bounded below)

theorem isWithin_of_mem_visibleIn {node below : Nat} (bounded : node < tree.size)
    (member : below ∈ tree.visibleIn settings [node]) : tree.IsWithin node below :=
  (ordered.of_mem_visibleIn settings bounded member).imp_left Eq.symm

/-- There is nothing visible in the subtrees of excluded nodes. -/
theorem visibleIn_shown {nodes : List Nat} (bounded : ∀ node ∈ nodes, node < tree.size) :
    tree.visibleIn settings (nodes.filter fun node => !isExcluded settings (tree.name? node)) =
      tree.visibleIn settings nodes := by
  induction nodes with
  | nil => rfl
  | cons node nodes ih =>
    obtain ⟨inTree, others⟩ := forall_mem_cons.mp bounded
    have rest := ih others
    rw [visibleIn, visibleIn] at rest
    rw [visibleIn, visibleIn, flatMap_cons, filter_append, ← rest, filter_cons]
    cases excluded : isExcluded settings (tree.name? node) with
    | false => rw [Bool.not_false, if_pos rfl, flatMap_cons, filter_append]
    | true =>
      have hidden : (tree.subtree node).filter (tree.isVisible settings) = [] :=
        ordered.visible_of_excluded settings inTree excluded
      rw [hidden, nil_append]
      rfl

/-- Sorting puts the subtrees of siblings in the order of their ranks. -/
theorem laid_sorted {placement : Placement} {node : Nat} {entries sorted : List Entry}
    (each : Forall₂ (EntryLaid settings tree placement)
      ((tree.children node).filter fun child => !isExcluded settings (tree.name? child)) entries)
    (unmixed : Unmixed entries) (given : Entry.sort entries = .ok sorted) :
    ∃ placed hoisted, Laid settings tree placement (tree.children node)
      (Entry.arrange placement sorted) placed hoisted := by
  obtain ⟨children, aligned, perm⟩ := perm_comp_forall₂ (sort_perm given) each.flip
  have ranks : sorted.map Entry.rank = children.map (tree.siblingRank settings) := by
    rw [← forall₂_eq_eq_eq, forall₂_map_left_iff, forall₂_map_right_iff]
    exact aligned.imp fun _ _ entry => entry.rank
  have rising : children.Pairwise fun child sibling =>
      (tree.siblingRank settings sibling).compare (tree.siblingRank settings child) ≠ .lt := by
    have inOrder : (sorted.map Entry.rank).Pairwise fun rank other => other.compare rank ≠ .lt :=
      pairwise_map.mpr (Entry.sort_pairwise unmixed given)
    rw [ranks] at inOrder
    exact pairwise_map.mp inOrder
  have apart : children.Pairwise fun child sibling => ∀ node ∈ tree.visibleIn settings [child],
      ∀ other ∈ tree.visibleIn settings [sibling], ¬ tree.Ahead settings other node := by
    refine (rising.and (perm.nodup_iff.mpr ((ordered.nodup node).filter _))).imp_of_mem ?_
    intro child sibling isChild isSibling ⟨notLower, differ⟩ node member other member' ahead
    have isChild' := (mem_filter.mp (perm.mem_iff.mp isChild)).1
    have isSibling' := (mem_filter.mp (perm.mem_iff.mp isSibling)).1
    have outranks := ordered.outranks_of_ahead (ordered.parent_of_mem isSibling') (ordered.parent_of_mem isChild')
      (ordered.isWithin_of_mem_visibleIn settings (ordered.child_bounds isSibling').2 member')
      (ordered.isWithin_of_mem_visibleIn settings (ordered.child_bounds isChild').2 member) differ.symm ahead
    exact notLower outranks.lower
  obtain ⟨placed, hoisted, laid⟩ := Laid.arranged (aligned.flip.imp fun _ _ entry => entry.laid) apart
  have bounded : ∀ child ∈ tree.children node, child < tree.size := fun _ isChild => (ordered.child_bounds isChild).2
  have shown := ordered.visibleIn_shown settings bounded
  exact ⟨placed, hoisted, laid.congr (((perm.flatMap_right _).filter _).trans (Perm.of_eq shown))⟩

theorem liesInExtension_of_parent {node parent : Nat} (below : tree.parent? node = some parent) :
    tree.liesInExtension node = (tree.entersExtension node || tree.liesInExtension parent) := by
  have proper : (node != 0) = true := bne_iff_ne.mpr (Nat.ne_zero_of_lt (ordered.parent_lt below).1)
  rw [liesInExtension, ordered.ancestors_of_parent below, any_cons, proper, Bool.true_and]
  rfl

theorem liesInExtension_root : tree.liesInExtension 0 = false := by
  rw [liesInExtension, ancestors_of_orphan ordered.rootParent]
  rfl

omit ordered in
/-- What is below `ilmd` is never an extension of its own. -/
theorem entersExtension_of_ilmd {node : Nat} (under : tree.isUnderIlmd node = true) :
    tree.entersExtension node = false := by
  have under' : (tree.lineage node).isUnderIlmd = true := under
  rw [entersExtension, isStandard, Lineage.isStandard, under']
  cases tree.field node
  rw [holdsOnlyExtensions, under']
  simp

theorem liesInExtension_below {node : Nat} (lies : tree.liesInExtension node = true) :
    ∀ below, node ∈ tree.ancestors below → tree.liesInExtension below = true := by
  intro below
  induction below using Nat.strongRecOn with
  | _ below ih =>
    intro member
    obtain ⟨parent, isParent⟩ := exists_parent member
    rw [ordered.liesInExtension_of_parent isParent]
    rcases (ordered.mem_ancestors isParent node).mp member with rfl | higher
    · rw [lies, Bool.or_true]
    · rw [ih parent (ordered.parent_lt isParent).1 higher, Bool.or_true]

theorem liesInExtension_below_ilmd {node : Nat} (under : tree.isUnderIlmd node = true)
    (outside : tree.liesInExtension node = false) :
    ∀ below, node ∈ tree.ancestors below → tree.isUnderIlmd below = true ∧ tree.liesInExtension below = false := by
  intro below
  induction below using Nat.strongRecOn with
  | _ below ih =>
    intro member
    obtain ⟨parent, isParent⟩ := exists_parent member
    have above : tree.isUnderIlmd parent = true ∧ tree.liesInExtension parent = false := by
      rcases (ordered.mem_ancestors isParent node).mp member with rfl | higher
      · exact ⟨under, outside⟩
      · exact ih parent (ordered.parent_lt isParent).1 higher
    have under' : tree.isUnderIlmd below = true := by
      rw [ordered.isUnderIlmd_of_parent isParent, above.1, Bool.or_true]
    refine ⟨under', ?_⟩
    rw [ordered.liesInExtension_of_parent isParent, entersExtension_of_ilmd under', above.2]
    rfl

omit ordered in
theorem regionOf_node {node : Nat} :
    regionOf (tree.lineage node) (tree.field node) =
      if tree.entersExtension node = true then .extension else if tree.isUnderIlmd node = true then .ilmd
        else .standard := by
  rw [regionOf, name_field]
  rfl

omit ordered in
theorem shown_fields {node : Nat} :
    ((tree.children node).map tree.field).filter (isShown settings) =
      ((tree.children node).filter fun child => !isExcluded settings (tree.name? child)).map tree.field := by
  rw [filter_map]
  congr 1
  apply filter_congr
  intro child isChild
  rw [Function.comp_apply, isShown, name_field]

theorem laid_node {placement : Placement} {node : Nat} {rendered : Rendered} {placed hoisted : List Nat}
    (laid : Laid settings tree placement (tree.children node) rendered placed hoisted) (bounded : node < tree.size)
    (visible : tree.isVisible settings node = true)
    (outside : placement = .hoisted → tree.liesInExtension node = false) :
    Laid settings tree placement [node]
      ⟨(tree.nodeText? settings node).toList ++ rendered.placed, rendered.hoisted⟩ (node :: placed) hoisted where
  lines := by
    rw [laid.lines, texts, texts, texts, filterMap_cons]
    cases tree.nodeText? settings node <;> rfl
  perm := by
    rw [visibleIn, flatMap_cons, flatMap_nil, append_nil, subtree, filter_cons_of_pos visible,
      ordered.descendants_eq bounded]
    exact laid.perm.cons node
  apart isHoisted := by
    obtain ⟨outside', inside⟩ := laid.apart isHoisted
    exact ⟨forall_mem_cons.mpr ⟨outside isHoisted, outside'⟩, inside⟩
  inPlace isInline := by
    obtain ⟨rfl, nested⟩ := laid.inPlace isInline
    refine ⟨rfl, nested.cons ?_⟩
    have below := laid.perm
    rwa [append_nil, visibleIn, show (tree.children node).flatMap tree.subtree = tree.descendants node from
      (ordered.descendants_eq bounded).symm] at below
  ranked := by
    refine ⟨pairwise_cons.mpr ⟨fun other member => ?_, laid.ranked.1⟩, laid.ranked.2⟩
    have inside := (mem_filter.mp (laid.perm.mem_iff.mp (mem_append_left _ member))).1
    rw [show (tree.children node).flatMap tree.subtree = tree.descendants node from
      (ordered.descendants_eq bounded).symm] at inside
    exact ordered.not_ahead_of_within (.inr (ordered.ancestor_of_descendant bounded other inside))

omit ordered in
theorem isEmpty_fields {node : Nat} : ((tree.children node).map tree.field).isEmpty = !tree.hasChildren node := by
  rw [hasChildren, Bool.not_not]
  cases tree.children node <;> rfl

omit ordered in
theorem laid_leaf (placement : Placement) {node : Nat} (childless : tree.hasChildren node = false) :
    Laid settings tree placement (tree.children node) ⟨[], []⟩ [] [] := by
  have noChildren : tree.children node = [] := by
    rwa [hasChildren, Bool.not_eq_false', List.isEmpty_iff] at childless
  rw [noChildren]
  exact Laid.nil

theorem visible_child {node child : Nat} (visible : tree.isVisible settings node = true)
    (member : child ∈ (tree.children node).filter fun child => !isExcluded settings (tree.name? child)) :
    child ∈ tree.children node ∧ tree.isVisible settings child = true := by
  obtain ⟨isChild, shown⟩ := mem_filter.mp member
  refine ⟨isChild, ?_⟩
  rw [ordered.isVisible_of_parent settings (ordered.parent_of_mem isChild), shown, visible]
  rfl

omit ordered in
theorem siblingRank_inside {node parent : Nat} (below : tree.parent? node = some parent)
    (inside : tree.inExtension parent = true) :
    tree.siblingRank settings node = extensionRank settings tree.namespaces (tree.field node) := by
  rw [siblingRank, below, Option.any_some, inside, Bool.or_true, if_pos rfl]

omit ordered in
theorem siblingRank_outside {node parent : Nat} (below : tree.parent? node = some parent)
    (outside : tree.inExtension parent = false) :
    tree.siblingRank settings node =
      if tree.entersExtension node = true then extensionRank settings tree.namespaces (tree.field node)
      else if tree.isUnderIlmd node = true then .ilmd (extensionText tree.namespaces (tree.name? node) (tree.value? node))
      else .standard (Catalog.position? (tree.fieldPath node)) := by
  rw [siblingRank, below, Option.any_some, outside, Bool.or_false]

theorem laid_extension : ∀ node, node < tree.size → tree.isVisible settings node = true →
    tree.inExtension node = true → ∀ lines, extensionLines settings tree.namespaces (tree.field node) = .ok lines →
    ∃ order, Laid settings tree .inline [node] ⟨lines, []⟩ order [] := by
  intro node bounded
  apply ordered.upward _ node bounded
  -- From the leaves up: the lines of the children are laid, and the own line comes before them.
  intro node bounded ih visible inside lines written
  have notHoisted : Placement.inline = .hoisted → tree.liesInExtension node = false := fun no => by cases no
  rw [ordered.field_eq bounded, extensionLines, isEmpty_fields] at written
  cases parent : tree.hasChildren node with
  | false =>
    rw [parent] at written
    cases written
    have own : tree.nodeText? settings node =
        some (extensionText tree.namespaces (tree.name? node) (tree.value? node)) := by
      rw [nodeText?, nodeLine?, inside, parent]
      rfl
    have laid := ordered.laid_node settings (laid_leaf settings .inline parent) bounded visible notHoisted
    rw [own] at laid
    exact ⟨[node], laid⟩
  | true =>
    rw [parent] at written
    obtain ⟨entries, sorted, collected, given, rfl⟩ := exists_sorted written
    have own : tree.nodeText? settings node = (pathName? (tree.name? node)).map (qualifiedName tree.namespaces) := by
      rw [nodeText?, nodeLine?, inside, parent]
      rfl
    have unmixed := unmixed_extensionEntries settings tree.namespaces collected
    rw [extensionEntries_eq, shown_fields] at collected
    have all := forall₂_of_mapM collected
    rw [forall₂_map_left_iff] at all
    have each : Forall₂ (EntryLaid settings tree .inline)
        ((tree.children node).filter fun child => !isExcluded settings (tree.name? child)) entries := by
      refine ((forall₂_and_left _ _).mpr ⟨fun child member => member, all⟩).imp ?_
      rintro child entry ⟨member, given⟩
      obtain ⟨isChild, visible'⟩ := ordered.visible_child settings visible member
      have below := ordered.parent_of_mem isChild
      have inside' : tree.inExtension child = true := by
        rw [ordered.inExtension_of_parent below, inside, Bool.true_or]
      obtain ⟨lines, rendered, rfl⟩ := exists_lines_of_extension given
      obtain ⟨order, laid⟩ := ih child isChild visible' inside' lines rendered
      exact ⟨(rank_of_extensionEntry given).trans (siblingRank_inside settings below inside).symm, order, [], laid⟩
    obtain ⟨placed, hoisted, all⟩ := ordered.laid_sorted settings each unmixed given
    obtain ⟨rfl, _⟩ := all.inPlace rfl
    have laid := ordered.laid_node settings all bounded visible notHoisted
    have nothing : (Entry.arrange .inline sorted).hoisted = [] := by
      rw [all.lines]
      rfl
    rw [own, nothing] at laid
    exact ⟨node :: placed, laid⟩

/-- An extension is hoisted as a whole. -/
theorem laid_entering {placement : Placement} {node parent : Nat} (below : tree.parent? node = some parent)
    (visible : tree.isVisible settings node = true) (enters : tree.entersExtension node = true) {entry : Entry}
    (given : extensionEntry settings tree.namespaces (tree.field node) = .ok entry) :
    ∃ placed hoisted, Laid settings tree placement [node] (entry.share placement) placed hoisted := by
  have bounds := ordered.parent_lt below
  have lies : tree.liesInExtension node = true := by rw [ordered.liesInExtension_of_parent below, enters, Bool.true_or]
  have inside : tree.inExtension node = true := by
    rw [inExtension, show ((node :: tree.ancestors node).any fun above => above != 0 && tree.entersExtension above) =
      true from lies, Bool.or_true]
  obtain ⟨lines, rendered, rfl⟩ := exists_lines_of_extension given
  obtain ⟨order, laid⟩ := ordered.laid_extension settings node bounds.2 visible inside lines rendered
  cases placement with
  | inline => exact ⟨order, [], laid⟩
  | hoisted =>
    have texts : lines = tree.texts settings order := congrArg Rendered.placed laid.lines
    refine ⟨[], order, ?_, ?_, fun _ => ⟨fun _ member => absurd member not_mem_nil, fun under member => ?_⟩,
      (fun no => by cases no), Pairwise.nil, laid.ranked.1⟩
    · simp only [Entry.share, Rank.isExtension, and_self, ite_true, append_nil]
      rw [texts]
      rfl
    · have perm := laid.perm
      rwa [append_nil] at perm
    · have perm := laid.perm
      rw [append_nil] at perm
      rcases ordered.of_mem_visibleIn settings bounds.2 (perm.mem_iff.mp member) with rfl | lower
      · exact lies
      · exact ordered.liesInExtension_below lies under lower

/-- What is below `ilmd` is written like an extension and stays in its place. -/
theorem laid_ilmd {placement : Placement} {node : Nat} (bounded : node < tree.size)
    (visible : tree.isVisible settings node = true) (under : tree.isUnderIlmd node = true)
    (outside : tree.liesInExtension node = false) {lines : List String}
    (written : extensionLines settings tree.namespaces (tree.field node) = .ok lines) :
    ∃ placed hoisted, Laid settings tree placement [node] ⟨lines, []⟩ placed hoisted := by
  have inside : tree.inExtension node = true := by rw [inExtension, under, Bool.true_or]
  obtain ⟨order, laid⟩ := ordered.laid_extension settings node bounded visible inside lines written
  refine ⟨order, [], laid.lines, laid.perm,
    fun _ => ⟨fun below member => ?_, fun _ member => absurd member not_mem_nil⟩, fun _ => laid.inPlace rfl,
    laid.ranked⟩
  have perm := laid.perm
  rw [append_nil] at perm
  rcases ordered.of_mem_visibleIn settings bounded (perm.mem_iff.mp member) with rfl | lower
  · exact outside
  · exact (ordered.liesInExtension_below_ilmd under outside below lower).2

/-- A sibling of standard fields is laid out by its region: only an extension can be hoisted. -/
theorem entryLaid_sibling {node child : Nat} (below : tree.parent? child = some node)
    (visible : tree.isVisible settings child = true) (outside : tree.inExtension node = false)
    (standard : tree.inExtension child = false → ∀ rendered,
      standardLines settings tree.namespaces (tree.lineage child) (tree.field child) = .ok rendered →
        ∃ placed hoisted, Laid settings tree settings.version.placement [child] rendered placed hoisted)
    {entry : Entry} (given : siblingEntry settings tree.namespaces (tree.lineage child) (tree.field child) = .ok entry) :
    EntryLaid settings tree settings.version.placement child entry := by
  have bounds := ordered.parent_lt below
  have notLying : tree.liesInExtension node = false := (Bool.or_eq_false_iff.mp outside).2
  have rank := siblingRank_outside settings below outside
  have region := @regionOf_node tree child
  by_cases enters : tree.entersExtension child = true
  · rw [if_pos enters] at rank region
    rw [siblingEntry, region] at given
    exact ⟨(rank_of_extensionEntry given).trans rank.symm,
      ordered.laid_entering settings below visible enters given⟩
  rw [if_neg enters] at rank region
  have outside' : tree.liesInExtension child = false := by
    rw [ordered.liesInExtension_of_parent below, notLying, Bool.or_false]
    exact Bool.eq_false_iff.mpr enters
  by_cases under : tree.isUnderIlmd child = true
  · rw [if_pos under] at rank region
    rw [siblingEntry, region] at given
    obtain ⟨lines, written, rfl⟩ := map_eq_ok given
    refine ⟨by rw [rank, name_field, value_field], ?_⟩
    rw [Entry.share_eq _ rfl]
    exact ordered.laid_ilmd settings bounds.2 visible under outside' written
  · rw [if_neg under] at rank region
    have outside'' : tree.inExtension child = false :=
      Bool.or_eq_false_iff.mpr ⟨Bool.eq_false_iff.mpr under, outside'⟩
    obtain ⟨rendered, lines, rfl⟩ := exists_rendered region given
    refine ⟨by rw [rank, name_field, fieldPath], ?_⟩
    rw [Entry.share_eq _ rfl]
    exact standard outside'' rendered lines

theorem laid_siblings {node : Nat} (visible : tree.isVisible settings node = true)
    (outside : tree.inExtension node = false)
    (each : ∀ child ∈ tree.children node, tree.isVisible settings child = true → tree.inExtension child = false →
      ∀ rendered, standardLines settings tree.namespaces (tree.lineage child) (tree.field child) = .ok rendered →
        ∃ placed hoisted, Laid settings tree settings.version.placement [child] rendered placed hoisted)
    {entries sorted : List Entry}
    (collected : siblingEntries settings tree.namespaces (tree.name? node :: tree.lineage node)
      ((tree.children node).map tree.field) = .ok entries) (given : Entry.sort entries = .ok sorted) :
    ∃ placed hoisted, Laid settings tree settings.version.placement (tree.children node)
      (Entry.arrange settings.version.placement sorted) placed hoisted := by
  have unmixed := unmixed_siblingEntries settings tree.namespaces collected
  rw [siblingEntries_eq, shown_fields] at collected
  have all := forall₂_of_mapM collected
  rw [forall₂_map_left_iff] at all
  refine ordered.laid_sorted settings (((forall₂_and_left _ _).mpr ⟨fun child member => member, all⟩).imp ?_) unmixed
    given
  intro child entry ⟨member, given⟩
  obtain ⟨isChild, visible'⟩ := ordered.visible_child settings visible member
  have below := ordered.parent_of_mem isChild
  rw [← ordered.lineage_of_parent below] at given
  exact ordered.entryLaid_sibling settings below visible' outside (each child isChild visible') given

theorem laid_standard : ∀ node, node < tree.size → tree.isVisible settings node = true →
    tree.inExtension node = false → ∀ rendered,
    standardLines settings tree.namespaces (tree.lineage node) (tree.field node) = .ok rendered →
    ∃ placed hoisted, Laid settings tree settings.version.placement [node] rendered placed hoisted := by
  intro node bounded
  apply ordered.upward _ node bounded
  intro node bounded ih visible outside rendered written
  have notLying : tree.liesInExtension node = false := (Bool.or_eq_false_iff.mp outside).2
  rw [ordered.field_eq bounded, standardLines, isEmpty_fields] at written
  cases parent : tree.hasChildren node with
  | false =>
    rw [parent] at written
    cases line : Leaf.line? settings (tree.lineage node) (tree.name? node) (tree.value? node) with
    | error fault =>
      rw [line] at written
      cases written
    | ok line' =>
      rw [line] at written
      cases written
      have own : tree.nodeText? settings node = line' := by
        rw [nodeText?, nodeLine?, outside, parent, ownLine?, line]
      have laid := ordered.laid_node settings (laid_leaf settings settings.version.placement parent) bounded
        visible fun _ => notLying
      rw [own, append_nil] at laid
      exact ⟨[node], [], laid⟩
  | true =>
    rw [parent] at written
    obtain ⟨entries, sorted, collected, given, rfl⟩ := exists_sorted written
    have own : tree.nodeText? settings node = pathName? (tree.name? node) := by
      rw [nodeText?, nodeLine?, outside, parent]
      rfl
    obtain ⟨placed, hoisted, siblings⟩ := ordered.laid_siblings settings visible outside ih collected given
    have laid := ordered.laid_node settings siblings bounded visible fun _ => notLying
    rw [own] at laid
    exact ⟨node :: placed, hoisted, laid⟩

/-- The nodes of an event in the order of its lines. -/
theorem laid_event {form : CanonicalForm} (written : tree.canonicalForm settings = .ok form) :
    ∃ rendered placed hoisted, Laid settings tree settings.version.placement (tree.children 0) rendered placed hoisted ∧
      form.lines = cleaned (rendered.placed ++ rendered.hoisted) := by
  rw [canonicalForm, EpcisDigest.canonicalForm, ordered.fields_eq] at written
  have atRoot : ([none] : Lineage) = tree.name? 0 :: tree.lineage 0 := by rw [ordered.rootName, ordered.lineage_root]
  rw [atRoot] at written
  obtain ⟨entries, sorted, collected, given, rfl⟩ := exists_sorted written
  obtain ⟨placed, hoisted, laid⟩ := ordered.laid_siblings settings (ordered.isVisible_root settings)
    ordered.inExtension_root
    (fun child isChild => ordered.laid_standard settings child (ordered.child_bounds isChild).2) collected given
  exact ⟨_, placed, hoisted, laid, rfl⟩

end Ordered

end EventTree

end EpcisDigest
