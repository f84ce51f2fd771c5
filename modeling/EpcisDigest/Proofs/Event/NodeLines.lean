import EpcisDigest.Proofs.Event.Lines
import EpcisDigest.Proofs.Event.OfFields
import EpcisDigest.Proofs.Event.SiblingOrder

namespace EpcisDigest.EventTree

open List

def isVisible (settings : Settings) (tree : EventTree) (node : Nat) : Bool :=
  (node :: tree.ancestors node).all fun above => !isExcluded settings (tree.name? above)

def visibleNodes (settings : Settings) (tree : EventTree) : List Nat :=
  ((List.range tree.size).filter (· != 0)).filter (tree.isVisible settings)

def entersExtension (tree : EventTree) (node : Nat) : Bool :=
  !tree.isStandard node || holdsOnlyExtensions (tree.lineage node) (tree.field node)

/-- A node below `ilmd`, or one that is or is in an extension. -/
def inExtension (tree : EventTree) (node : Nat) : Bool :=
  tree.isUnderIlmd node || (node :: tree.ancestors node).any fun above => above != 0 && tree.entersExtension above

def hasChildren (tree : EventTree) (node : Nat) : Bool := !(tree.children node).isEmpty

def nodeLine? (settings : Settings) (tree : EventTree) (node : Nat) :
    Except Time.InvalidTimestamp (Option String) :=
  ownLine? settings tree.namespaces (tree.lineage node) (tree.inExtension node) (tree.hasChildren node)
    (tree.name? node) (tree.value? node)

def nodeText? (settings : Settings) (tree : EventTree) (node : Nat) : Option String :=
  match tree.nodeLine? settings node with
  | .ok line => line
  | .error _ => none

def place (tree : EventTree) (node : Nat) : Place := ⟨tree.lineage node, tree.field node, tree.inExtension node⟩

def siblings (settings : Settings) (tree : EventTree) (node : Nat) : Except CanonicalFault (List Entry) :=
  (tree.place node).siblings settings tree.namespaces

theorem regionOf_ne_standard (lineage : Lineage) (field : Field) : (regionOf lineage field != .standard) =
    (!lineage.isStandard field.name || holdsOnlyExtensions lineage field || lineage.isUnderIlmd) := by
  rw [regionOf]
  cases (!lineage.isStandard field.name || holdsOnlyExtensions lineage field)
  · cases lineage.isUnderIlmd <;> rfl
  · rfl

namespace Ordered

variable {tree : EventTree} (ordered : tree.Ordered) (settings : Settings)

include ordered

theorem isVisible_of_parent {node parent : Nat} (below : tree.parent? node = some parent) :
    tree.isVisible settings node = (!isExcluded settings (tree.name? node) && tree.isVisible settings parent) := by
  rw [isVisible, ordered.ancestors_of_parent below, all_cons]
  rfl

theorem isVisible_root : tree.isVisible settings 0 = true := by
  rw [isVisible, ancestors_of_orphan ordered.rootParent, all_cons, ordered.rootName]
  rfl

theorem lineage_root : tree.lineage 0 = [] := by
  rw [lineage, ancestors_of_orphan ordered.rootParent]
  rfl

theorem inExtension_root : tree.inExtension 0 = false := by
  rw [inExtension, isUnderIlmd, lineage, ancestors_of_orphan ordered.rootParent]
  rfl

theorem isUnderIlmd_of_parent {node parent : Nat} (below : tree.parent? node = some parent) :
    tree.isUnderIlmd node = (tree.name? parent == some "ilmd" || tree.isUnderIlmd parent) := by
  rw [isUnderIlmd, ordered.lineage_of_parent below]
  simp only [Lineage.isUnderIlmd, List.contains_cons, isUnderIlmd]
  rw [Bool.beq_comm]

theorem inExtension_of_parent {node parent : Nat} (below : tree.parent? node = some parent) :
    tree.inExtension node =
      (tree.inExtension parent || regionOf (tree.lineage node) (tree.field node) != .standard) := by
  have bounds := ordered.parent_lt below
  have proper : (node != 0) = true := bne_iff_ne.mpr (by omega)
  have ilmd := ordered.isUnderIlmd_of_parent below
  have own : (regionOf (tree.lineage node) (tree.field node) != .standard) =
      (tree.entersExtension node || tree.isUnderIlmd node) := by
    rw [regionOf_ne_standard, name_field]
    rfl
  have inside : tree.inExtension node = (tree.isUnderIlmd node || (tree.entersExtension node ||
      (parent :: tree.ancestors parent).any fun above => above != 0 && tree.entersExtension above)) := by
    rw [inExtension, ordered.ancestors_of_parent below, any_cons, proper, Bool.true_and]
  rw [inside, own, ilmd, inExtension]
  cases tree.isUnderIlmd parent
  · cases tree.entersExtension node <;> simp only [Bool.false_or, Bool.true_or, Bool.or_comm]
  · simp only [Bool.or_true, Bool.true_or]

omit ordered in
theorem isVisible_below {node below : Nat} (hidden : isExcluded settings (tree.name? node) = true)
    (onPath : node ∈ below :: tree.ancestors below) : tree.isVisible settings below = false := by
  rw [isVisible, all_eq_false]
  refine ⟨node, onPath, ?_⟩
  rw [hidden]
  decide

theorem visible_of_excluded {node : Nat} (bounded : node < tree.size)
    (excluded : isExcluded settings (tree.name? node) = true) :
    (node :: tree.descendants node).filter (tree.isVisible settings) = [] := by
  apply filter_eq_nil_iff.mpr
  intro under member
  rw [isVisible_below settings excluded]
  · exact Bool.false_ne_true
  · rcases mem_cons.mp member with rfl | lower
    · exact mem_cons_self
    · exact mem_cons_of_mem _ (ordered.ancestor_of_descendant bounded under lower)

theorem place_eq {node : Nat} (bounded : node < tree.size) : tree.place node =
    ⟨tree.lineage node, ⟨tree.name? node, tree.value? node, (tree.children node).map tree.field⟩,
      tree.inExtension node⟩ := by
  rw [place, ordered.field_eq bounded]

theorem placesOf_child {node child : Nat} (isChild : child ∈ tree.children node)
    (visible : tree.isVisible settings node = true)
    (below : tree.isVisible settings child = true →
      placesIn settings (tree.inExtension child) (tree.name? child :: tree.lineage child)
        ((tree.children child).map tree.field) =
      ((tree.descendants child).filter (tree.isVisible settings)).map tree.place) :
    placesOf settings (tree.inExtension node) (tree.lineage child) (tree.field child) =
      ((child :: tree.descendants child).filter (tree.isVisible settings)).map tree.place := by
  have parent := ordered.parent_of_mem isChild
  have bounded := (ordered.child_bounds isChild).2
  have shown := ordered.isVisible_of_parent settings parent
  have inside := ordered.inExtension_of_parent parent
  rw [visible, Bool.and_true] at shown
  cases excluded : isExcluded settings (tree.name? child) with
  | true =>
    have hidden := ordered.visible_of_excluded settings bounded excluded
    rw [hidden, map_nil]
    apply placesOf_excluded
    rw [ordered.field_eq bounded]
    exact excluded
  | false =>
    rw [excluded, Bool.not_false] at shown
    rw [filter_cons_of_pos shown, map_cons, ordered.place_eq bounded, ← below shown, inside, ordered.field_eq bounded]
    rw [placesOf, excluded]
    rfl

theorem placesIn_children : ∀ node, node < tree.size → tree.isVisible settings node = true →
    placesIn settings (tree.inExtension node) (tree.name? node :: tree.lineage node)
      ((tree.children node).map tree.field) =
    ((tree.descendants node).filter (tree.isVisible settings)).map tree.place := by
  intro node bounded
  apply ordered.upward _ node bounded
  intro node bounded ih visible
  have siblingPlaces : ∀ siblings : List Nat, (∀ child ∈ siblings, child ∈ tree.children node) →
      placesIn settings (tree.inExtension node) (tree.name? node :: tree.lineage node) (siblings.map tree.field) =
      ((siblings.flatMap fun child => child :: tree.descendants child).filter (tree.isVisible settings)).map
        tree.place := by
    intro siblings
    induction siblings with
    | nil => exact fun _ => rfl
    | cons child siblings more =>
      intro areChildren
      have isChild := areChildren child mem_cons_self
      have first := ordered.placesOf_child settings isChild visible (ih child isChild)
      have others := more fun other member => areChildren other (mem_cons_of_mem _ member)
      rw [ordered.lineage_of_parent (ordered.parent_of_mem isChild)] at first
      rw [map_cons, placesIn, first, others, flatMap_cons, filter_append, map_append]
  rw [ordered.descendants_eq bounded]
  exact siblingPlaces _ fun child member => member

theorem places_perm :
    placesIn settings false [none] tree.fields ~ (tree.visibleNodes settings).map tree.place := by
  have all := ordered.placesIn_children settings 0 ordered.hasRoot (ordered.isVisible_root settings)
  rw [ordered.inExtension_root, ordered.rootName, ordered.lineage_root, ← ordered.fields_eq] at all
  rw [all]
  exact (ordered.descendants_root.filter _).map _

theorem line?_place {node : Nat} (bounded : node < tree.size) :
    (tree.place node).line? settings tree.namespaces = tree.nodeLine? settings node := by
  have childless : ((tree.children node).map tree.field).isEmpty = (tree.children node).isEmpty := by
    cases tree.children node <;> rfl
  rw [ordered.place_eq bounded]
  simp only [Place.line?, Field.hasChildren, childless]
  rfl

theorem siblings_root :
    tree.siblings settings 0 = (eventPlace tree.fields).siblings settings tree.namespaces := by
  rw [siblings, place, Place.siblings, Place.siblings, eventPlace]
  simp only [ordered.inExtension_root, ordered.lineage_root, name_field, ordered.rootName, fields]

theorem text?_place {node : Nat} (bounded : node < tree.size) :
    (tree.place node).text? settings tree.namespaces = tree.nodeText? settings node := by
  rw [Place.text?, ordered.line?_place settings bounded]
  rfl

end Ordered

theorem lt_of_visible {settings : Settings} {tree : EventTree} {node : Nat}
    (member : node ∈ tree.visibleNodes settings) : node < tree.size := by
  rw [visibleNodes, mem_filter, mem_filter, mem_range] at member
  exact member.1.1

theorem Ordered.mem_visibleNodes {settings : Settings} {tree : EventTree} (ordered : tree.Ordered) {node parent : Nat}
    (below : tree.parent? node = some parent) (visible : tree.isVisible settings node = true) :
    node ∈ tree.visibleNodes settings := by
  have bounds := ordered.parent_lt below
  rw [visibleNodes, mem_filter, mem_filter, mem_range, bne_iff_ne]
  exact ⟨⟨bounds.2, Nat.ne_zero_of_lt bounds.1⟩, visible⟩

section Lines

variable (settings : Settings) (tree : EventTree)

/-- Only the line of a leaf of a standard field can fail. -/
theorem nodeLine?_eq_error {node : Nat} {error : Time.InvalidTimestamp} :
    tree.nodeLine? settings node = .error error ↔
      tree.hasChildren node = false ∧ tree.inExtension node = false ∧
        Leaf.line? settings (tree.lineage node) (tree.name? node) (tree.value? node) = .error error := by
  rw [nodeLine?]
  cases tree.hasChildren node <;> cases tree.inExtension node <;>
    simp only [ownLine?, reduceCtorEq, true_and, false_and]

variable {tree}

/-- A canonical form has one line for each visible node. What keeps it from being made is a leaf that cannot be
    written or, as the sorting breaks down over them, siblings in no order. -/
theorem canonicalForm_lines (built : tree.Built) :
    match tree.canonicalForm settings with
    | .ok form =>
      (∀ node ∈ tree.visibleNodes settings, tree.hasChildren node = false → tree.inExtension node = false →
        ∃ line, Leaf.line? settings (tree.lineage node) (tree.name? node) (tree.value? node) = .ok line) ∧
      form.lines ~ cleaned ((tree.visibleNodes settings).filterMap (tree.nodeText? settings))
    | .error (.timestamp fault) =>
      ∃ node ∈ tree.visibleNodes settings, tree.hasChildren node = false ∧ tree.inExtension node = false ∧
        Leaf.line? settings (tree.lineage node) (tree.name? node) (tree.value? node) = .error fault
    | .error .unsortable =>
      ∃ node, (node = 0 ∨ node ∈ tree.visibleNodes settings) ∧
        ∃ entries, tree.siblings settings node = .ok entries ∧ ¬ Lawful entries := by
  have ordered := built.ordered
  have places := ordered.places_perm settings
  have outcome := @canonicalForm_places settings tree.namespaces tree.fields
  rw [canonicalForm]
  cases result : EpcisDigest.canonicalForm settings tree.namespaces tree.fields with
  | error fault =>
    rw [result] at outcome
    cases fault with
    | timestamp fault =>
      obtain ⟨place, member, fails⟩ := outcome
      obtain ⟨node, visible, rfl⟩ := mem_map.mp (places.mem_iff.mp member)
      rw [ordered.line?_place settings (lt_of_visible visible)] at fails
      exact ⟨node, visible, (nodeLine?_eq_error settings tree).mp fails⟩
    | unsortable =>
      obtain ⟨place, member, entries, collected, fails⟩ := outcome
      have unlawful := not_lawful_of_unsortable fails
      rcases mem_cons.mp member with rfl | member
      · rw [← ordered.siblings_root settings] at collected
        exact ⟨0, Or.inl rfl, entries, collected, unlawful⟩
      · obtain ⟨node, visible, rfl⟩ := mem_map.mp (places.mem_iff.mp member)
        exact ⟨node, Or.inr visible, entries, collected, unlawful⟩
  | ok form =>
    rw [result] at outcome
    obtain ⟨written, lines⟩ := outcome
    refine ⟨fun node visible childless outside => ?_, ?_⟩
    · have onNode := places.mem_iff.mpr (mem_map_of_mem visible)
      obtain ⟨line, gives⟩ := written _ onNode
      rw [ordered.line?_place settings (lt_of_visible visible), nodeLine?, childless, outside] at gives
      exact ⟨line, gives⟩
    · have texts : ((tree.visibleNodes settings).map tree.place).filterMap
          (Place.text? settings tree.namespaces) =
          (tree.visibleNodes settings).filterMap (tree.nodeText? settings) := by
        rw [filterMap_map]
        apply filterMap_congr
        intro node visible
        exact ordered.text?_place settings (lt_of_visible visible)
      rw [← texts]
      exact lines.trans (((places.filterMap _).map _).filter _)

end Lines

def ilmdTree : EventTree :=
  let event := ((empty NameTable.empty).addLeaf 0 "type" "ObjectEvent").1
  ((event.addNode 0 "ilmd").1.addLeaf 2 "lot" "A1").1

theorem canonicalForm_ilmdTree :
    ilmdTree.canonicalForm Settings.standard = .ok ⟨["eventType=ObjectEvent", "ilmd", "lot=A1"]⟩ := by
  apply ok_of_toOption
  decide +kernel

theorem canonicalForm_lines_ilmdTree :
    ilmdTree.Built ∧
      (∀ node ∈ ilmdTree.visibleNodes Settings.standard,
        ilmdTree.hasChildren node = false → ilmdTree.inExtension node = false →
          ∃ line, Leaf.line? Settings.standard (ilmdTree.lineage node) (ilmdTree.name? node)
            (ilmdTree.value? node) = .ok line) ∧
      ["eventType=ObjectEvent", "ilmd", "lot=A1"] ~
        cleaned ((ilmdTree.visibleNodes Settings.standard).filterMap (ilmdTree.nodeText? Settings.standard)) := by
  have built : ilmdTree.Built :=
    (((Built.empty _).add (by decide) _ _).add (by decide) _ _).add (by decide) _ _
  have outcome := canonicalForm_lines Settings.standard built
  rw [canonicalForm_ilmdTree] at outcome
  exact ⟨built, outcome⟩

/-- A list of fields of which each third one has no children, and the others are in falling order by pairs. -/
def disorderedEvent : Json.Value :=
  .object
    [("type", .string "ObjectEvent"),
      ("readPoint", .array (List.replicate 7
        [.string "x", .object [("id", .string "b")], .object [("id", .string "a")]]).flatten)]

def disorderedText : String :=
  "[\x7B\"type\":\"ObjectEvent\",\"readPoint\":[" ++
    ",".intercalate (List.replicate 7 "\"x\",\x7B\"id\":\"b\"\x7D,\x7B\"id\":\"a\"\x7D") ++ "]\x7D]"

def disorderedTree : EventTree :=
  ofFields NameTable.empty
    (Field.leaf "type" "ObjectEvent" :: (List.replicate 7
      [Field.leaf "readPoint" "x", Field.node "readPoint" [Field.leaf "id" "b"],
        Field.node "readPoint" [Field.leaf "id" "a"]]).flatten)

def disorderedEntries : List Entry :=
  ⟨.standard (some 0), false, ⟨["eventType=ObjectEvent"], []⟩⟩ :: (List.replicate 7
    [readPointEntry false ["readPoint=x"], readPointEntry true ["readPoint", "id=b"],
      readPointEntry true ["readPoint", "id=a"]]).flatten

theorem eventTree_disordered :
    Json.eventTree Settings.standard NameTable.empty disorderedEvent = .ok disorderedTree := by
  apply ok_of_toOption
  decide +kernel

theorem canonicalForm_disordered : disorderedTree.canonicalForm Settings.standard = .error .unsortable := by
  have collected : siblingEntries Settings.standard disorderedTree.namespaces [none] disorderedTree.fields =
      .ok disorderedEntries := by
    apply ok_of_toOption
    decide +kernel
  have apart : Sort.stable Entry.le disorderedEntries = none := by decide +kernel
  rw [canonicalForm, canonicalForm_of_siblings collected, sort_eq_error.mpr ⟨rfl, apart⟩]
  rfl

/-- There are no lines though all leaves can be written. -/
theorem not_canonicalForm_lines_disordered :
    ∃ tree, Json.eventTree Settings.standard NameTable.empty disorderedEvent = .ok tree ∧ tree.Built ∧
      (∃ error, tree.canonicalForm Settings.standard = .error error) ∧
      ¬ ∃ node ∈ tree.visibleNodes Settings.standard, tree.hasChildren node = false ∧ tree.inExtension node = false ∧
        ∃ error, Leaf.line? Settings.standard (tree.lineage node) (tree.name? node) (tree.value? node) =
          .error error := by
  refine ⟨disorderedTree, eventTree_disordered, Built.ofFields _ _, ⟨_, canonicalForm_disordered⟩, ?_⟩
  rintro ⟨node, visible, _, _, error, fails⟩
  have written : ∀ node ∈ disorderedTree.visibleNodes Settings.standard,
      (Leaf.line? Settings.standard (disorderedTree.lineage node) (disorderedTree.name? node)
        (disorderedTree.value? node)).isOk = true := by
    decide +kernel
  have isOk := written node visible
  rw [fails] at isOk
  cases isOk

end EpcisDigest.EventTree
