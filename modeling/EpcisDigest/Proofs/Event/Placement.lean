import EpcisDigest.Proofs.Event.Layout

namespace EpcisDigest

open List

def Settings.withVersion (settings : Settings) (version : Version) : Settings := { settings with version }

section Versions

variable (settings : Settings) (namespaces : Namespaces) (version : Version)

mutual

theorem extensionLines_withVersion : ∀ field : Field,
    extensionLines (settings.withVersion version) namespaces field = extensionLines settings namespaces field
  | ⟨name, value, children⟩ => by
    rw [extensionLines, extensionLines, extensionEntries_withVersion children]

theorem extensionEntries_withVersion : ∀ fields : List Field,
    extensionEntries (settings.withVersion version) namespaces fields = extensionEntries settings namespaces fields
  | [] => rfl
  | field :: fields => by
    have excluded : isExcluded (settings.withVersion version) field.name = isExcluded settings field.name := rfl
    simp only [extensionEntries, extensionLines_withVersion field, extensionEntries_withVersion fields, excluded]

end

variable {settings namespaces version}

theorem mapM_congr {α β ε : Type} {f g : α → Except ε β} {items : List α} (same : ∀ item ∈ items, f item = g item) :
    items.mapM f = items.mapM g := by
  induction items with
  | nil => rfl
  | cons item items ih =>
    obtain ⟨first, others⟩ := forall_mem_cons.mp same
    rw [mapM_cons, mapM_cons, first, ih others]

theorem siblingEntry_withVersion {lineage : Lineage} {field : Field}
    (same : regionOf lineage field = .standard →
      standardLines (settings.withVersion version) namespaces lineage field =
        standardLines settings namespaces lineage field) :
    siblingEntry (settings.withVersion version) namespaces lineage field =
      siblingEntry settings namespaces lineage field := by
  rw [siblingEntry, siblingEntry, extensionEntry, extensionEntry, extensionLines_withVersion]
  cases region : regionOf lineage field with
  | extension => rfl
  | ilmd => rfl
  | standard => rw [same region]

/-- Entries of which none is hoisted and that hoist nothing are arranged alike in all versions. -/
theorem arrange_plain (placement : Placement) {entries : List Entry}
    (plain : ∀ entry ∈ entries, entry.rank.isExtension = false ∧ entry.rendered.hoisted = []) :
    Entry.arrange placement entries = ⟨entries.flatMap fun entry => entry.rendered.placed, []⟩ := by
  rw [arrange_eq]
  congr 1
  · apply flatMap_congr
    intro entry member
    rw [Entry.share_eq placement (plain entry member).1]
  · apply flatMap_eq_nil_iff.mpr
    intro entry member
    rw [Entry.share_eq placement (plain entry member).1, (plain entry member).2]

/-- Where nothing is hoisted from below, hoisting moves nothing: extensions are sorted last. -/
theorem arrange_lines {entries sorted : List Entry} (flat : ∀ entry ∈ entries, entry.rendered.hoisted = [])
    (given : Entry.sort entries = .ok sorted) (placement : Placement) :
    (Entry.arrange placement sorted).lines = sorted.flatMap fun entry => entry.rendered.placed := by
  have flat' : ∀ entry ∈ sorted, entry.rendered.hoisted = [] :=
    fun entry member => flat entry ((sort_perm given).mem_iff.mp member)
  obtain ⟨front, back, rfl, early, late⟩ := exists_sort_split given
  obtain ⟨flatFront, flatBack⟩ := forall_mem_append.mp flat'
  have first := arrange_plain placement fun entry member => ⟨early entry member, flatFront entry member⟩
  have last : (Entry.arrange placement back).lines = back.flatMap fun entry => entry.rendered.placed := by
    rw [arrange_eq, Rendered.lines]
    cases placement with
    | inline =>
      have shares : ∀ entry : Entry, entry.share .inline = entry.rendered :=
        fun entry => if_neg fun both => by cases both.1
      simp only [shares]
      rw [flatMap_eq_nil_iff.mpr flatBack, append_nil]
    | hoisted =>
      have shares : ∀ entry ∈ back, entry.share .hoisted = ⟨[], entry.rendered.placed⟩ := by
        intro entry member
        rw [Entry.share, if_pos ⟨rfl, late entry member⟩, flatBack entry member, append_nil]
      rw [flatMap_congr fun entry member => congrArg Rendered.placed (shares entry member),
        flatMap_congr fun entry member => congrArg Rendered.hoisted (shares entry member),
        flatMap_eq_nil_iff.mpr fun _ _ => rfl]
      rfl
  have whole : Entry.arrange placement (front ++ back) =
      ⟨(Entry.arrange placement front).placed ++ (Entry.arrange placement back).placed,
        (Entry.arrange placement front).hoisted ++ (Entry.arrange placement back).hoisted⟩ := by
    rw [arrange_eq, arrange_eq, arrange_eq, flatMap_append, flatMap_append]
  rw [whole, first, Rendered.lines, nil_append, append_assoc, flatMap_append]
  exact congrArg _ last

end Versions

namespace EventTree

namespace Ordered

variable {tree : EventTree} (ordered : tree.Ordered)

include ordered

omit ordered in
theorem fieldPath_eq (node : Nat) :
    tree.fieldPath node = (tree.lineage node).path ++ (pathName? (tree.name? node)).toList :=
  path_append _ _

theorem isSome_lookup?_of_parent {node parent : Nat} (below : tree.parent? node = some parent)
    (found : (Catalog.lookup? (tree.fieldPath node)).isSome = true) :
    (Catalog.lookup? (tree.fieldPath parent)).isSome = true := by
  rw [fieldPath, ordered.lineage_of_parent below] at found
  exact isSome_lookup?_above found

omit ordered in
theorem isStandard_of_lookup? {node : Nat} (found : (Catalog.lookup? (tree.fieldPath node)).isSome = true) :
    tree.isStandard node = true := by
  have listed : (Catalog.lookup? (Lineage.path (tree.name? node :: tree.lineage node))).isSome = true := found
  rw [isStandard, Lineage.isStandard, listed, Bool.or_true]

/-- A field with a child that is no extension does not hold only extensions. -/
theorem holdsOnlyExtensions_of_child {node child : Nat} (below : tree.parent? child = some node)
    (bounded : node < tree.size) (stays : tree.entersExtension child = false) :
    holdsOnlyExtensions (tree.lineage node) (tree.field node) = false := by
  have own : (!Lineage.isStandard (tree.name? node :: tree.lineage node) (tree.field child).name ||
      holdsOnlyExtensions (tree.name? node :: tree.lineage node) (tree.field child)) = false := by
    rw [← ordered.lineage_of_parent below, ordered.field_eq (ordered.parent_lt below).2]
    rw [entersExtension, ordered.field_eq (ordered.parent_lt below).2] at stays
    exact stays
  have some : areExtensions (tree.name? node :: tree.lineage node) ((tree.children node).map tree.field) = false := by
    rw [areExtensions_eq_all, all_eq_false]
    exact ⟨_, mem_map_of_mem (ordered.mem_of_parent below), by rw [own]; exact Bool.false_ne_true⟩
  rw [ordered.field_eq bounded, holdsOnlyExtensions, some, Bool.and_false]

theorem entersExtension_above {node : Nat} (stays : tree.entersExtension node = false)
    (found : (Catalog.lookup? (tree.fieldPath node)).isSome = true) : tree.liesInExtension node = false := by
  induction node using Nat.strongRecOn with
  | _ node ih =>
    cases below : tree.parent? node with
    | none =>
      rw [liesInExtension, ancestors_of_orphan below, any_cons, stays, Bool.and_false]
      rfl
    | some parent =>
      have bounds := ordered.parent_lt below
      rw [ordered.liesInExtension_of_parent below, stays, Bool.false_or]
      have found' := ordered.isSome_lookup?_of_parent below found
      apply ih parent bounds.1 _ found'
      rw [entersExtension, isStandard_of_lookup? found',
        ordered.holdsOnlyExtensions_of_child below (Nat.lt_trans bounds.1 bounds.2) stays]
      rfl

end Ordered

section Catalogued

def isCatalogued (tree : EventTree) (node : Nat) : Bool :=
  (pathName? (tree.name? node)).isSome && (Catalog.lookup? (tree.fieldPath node)).isSome

variable {tree : EventTree} {node : Nat}

theorem exists_name_of_catalogued (catalogued : tree.isCatalogued node = true) :
    ∃ name, tree.name? node = some name ∧ pathName? (tree.name? node) = some name := by
  obtain ⟨name, named⟩ := Option.isSome_iff_exists.mp (Bool.and_eq_true_iff.mp catalogued).1
  exact ⟨name, (Option.filter_eq_some_iff.mp named).1, named⟩

theorem Ordered.liesInExtension_of_catalogued (ordered : tree.Ordered)
    (catalogued : tree.isCatalogued node = true) : tree.liesInExtension node = false := by
  obtain ⟨name, -, named⟩ := exists_name_of_catalogued catalogued
  have found := (Bool.and_eq_true_iff.mp catalogued).2
  have more : holdsOnlyExtensions (tree.lineage node) (tree.field node) = false :=
    holdsOnlyExtensions_of_named (Ordered.name_field ▸ named)
  apply ordered.entersExtension_above _ found
  rw [entersExtension, isStandard_of_lookup? found, more]
  rfl

theorem cleaned_catalogued (catalogued : tree.isCatalogued node = true) {name : String}
    (named : pathName? (tree.name? node) = some name) : cleaned [name] = [name] := by
  have every : CatalogField.allOf (fun name => withoutLineEnds name == name && name != "") Catalog.event = true := by
    decide +kernel
  have found := (Bool.and_eq_true_iff.mp catalogued).2
  have clean : (withoutLineEnds name == name && name != "") = true := by
    rw [Ordered.fieldPath_eq, named] at found
    exact Catalog.holds_of_lookup? every found
  obtain ⟨same, nonempty⟩ := Bool.and_eq_true_iff.mp clean
  rw [cleaned, map_cons, map_nil, eq_of_beq same]
  exact filter_cons_of_pos nonempty

end Catalogued

section Versions

variable {tree : EventTree} (ordered : tree.Ordered) (settings : Settings) (version : Version)

include ordered

def Level (settings : Settings) (version : Version) (tree : EventTree) (node : Nat) : Prop :=
  standardLines (settings.withVersion version) tree.namespaces (tree.lineage node) (tree.field node) =
      standardLines settings tree.namespaces (tree.lineage node) (tree.field node) ∧
    ∀ rendered, standardLines settings tree.namespaces (tree.lineage node) (tree.field node) = .ok rendered →
      rendered.hoisted = []

omit ordered in
theorem not_enters_of_standard {node : Nat} (region : regionOf (tree.lineage node) (tree.field node) = .standard) :
    tree.entersExtension node = false := by
  rw [Ordered.regionOf_node] at region
  apply Bool.eq_false_iff.mpr
  intro enters
  rw [if_pos enters] at region
  cases region

omit ordered in
theorem enters_of_extension {node : Nat} (region : regionOf (tree.lineage node) (tree.field node) = .extension) :
    tree.entersExtension node = true := by
  rw [Ordered.regionOf_node] at region
  apply Decidable.byContradiction
  intro stays
  rw [if_neg stays] at region
  split at region <;> cases region

omit ordered in
/-- The entry of a node hoists nothing out of it when its lines do not, but may be hoisted as an extension. -/
theorem entry_level {node : Nat} (level : tree.entersExtension node = false → Level settings version tree node)
    {entry : Entry}
    (given : siblingEntry settings tree.namespaces (tree.lineage node) (tree.field node) = .ok entry) :
    entry.rendered.hoisted = [] ∧ (entry.rank.isExtension = true → tree.entersExtension node = true) := by
  cases region : regionOf (tree.lineage node) (tree.field node) with
  | extension =>
    rw [siblingEntry, region] at given
    obtain ⟨_, _, rfl⟩ := exists_lines_of_extension given
    exact ⟨rfl, fun _ => enters_of_extension region⟩
  | ilmd =>
    rw [siblingEntry, region] at given
    obtain ⟨_, _, rfl⟩ := map_eq_ok given
    exact ⟨rfl, fun no => by cases no⟩
  | standard =>
    obtain ⟨rendered, lines, rfl⟩ := exists_rendered region given
    exact ⟨(level (not_enters_of_standard region)).2 rendered lines, fun no => by cases no⟩

theorem Ordered.siblingEntries_level {node : Nat} (visible : tree.isVisible settings node = true)
    (each : ∀ child ∈ tree.children node, tree.isVisible settings child = true →
      tree.entersExtension child = false → Level settings version tree child) :
    siblingEntries (settings.withVersion version) tree.namespaces (tree.name? node :: tree.lineage node)
        ((tree.children node).map tree.field) =
      siblingEntries settings tree.namespaces (tree.name? node :: tree.lineage node)
        ((tree.children node).map tree.field) ∧
    ∀ entries, siblingEntries settings tree.namespaces (tree.name? node :: tree.lineage node)
        ((tree.children node).map tree.field) = .ok entries →
      ∀ entry ∈ entries, entry.rendered.hoisted = [] ∧
        (entry.rank.isExtension = true → ∃ child ∈ tree.children node, tree.isVisible settings child = true ∧
          tree.entersExtension child = true) := by
  constructor
  · rw [siblingEntries_eq, siblingEntries_eq]
    have shown : isShown (settings.withVersion version) = isShown settings := rfl
    rw [shown, Ordered.shown_fields]
    apply mapM_congr
    intro field member
    obtain ⟨child, among, rfl⟩ := mem_map.mp member
    obtain ⟨isChild, visible'⟩ := ordered.visible_child settings visible among
    rw [← ordered.lineage_of_parent (ordered.parent_of_mem isChild)]
    apply siblingEntry_withVersion
    intro region
    exact (each child isChild visible' (not_enters_of_standard region)).1
  · intro entries collected entry member
    obtain ⟨field, shown, given⟩ := mem_siblingEntries settings tree.namespaces collected member
    rw [Ordered.shown_fields] at shown
    obtain ⟨child, among, rfl⟩ := mem_map.mp shown
    obtain ⟨isChild, visible'⟩ := ordered.visible_child settings visible among
    rw [← ordered.lineage_of_parent (ordered.parent_of_mem isChild)] at given
    obtain ⟨level, enters⟩ := entry_level settings version (each child isChild visible') given
    exact ⟨level, fun extension => ⟨child, isChild, visible', enters extension⟩⟩

/-- Extensions that are in no other extension are children of the event itself. -/
def ExtensionsOnTop (settings : Settings) (tree : EventTree) : Prop :=
  ∀ node ∈ tree.visibleNodes settings, tree.entersExtension node = true →
    (∀ above ∈ tree.ancestors node, above ≠ 0 → tree.entersExtension above = false) → tree.parent? node = some 0

theorem Ordered.stays_of_onTop (onTop : ExtensionsOnTop settings tree) {node child : Nat}
    (below : tree.parent? child = some node) (proper : node ≠ 0) (visible : tree.isVisible settings child = true)
    (outside : tree.liesInExtension node = false) : tree.entersExtension child = false := by
  apply Bool.eq_false_iff.mpr
  intro enters
  have atRoot := onTop child (ordered.mem_visibleNodes below visible) enters fun above isAbove notRoot => by
    rw [ordered.ancestors_of_parent below] at isAbove
    have stays := any_eq_false.mp outside above isAbove
    rw [bne_iff_ne.mpr notRoot, Bool.true_and, Bool.not_eq_true] at stays
    exact stays
  rw [below] at atRoot
  exact proper (Option.some.inj atRoot)

theorem Ordered.level_of_onTop (onTop : ExtensionsOnTop settings tree) : ∀ node, node < tree.size → node ≠ 0 →
    tree.isVisible settings node = true → tree.liesInExtension node = false → Level settings version tree node := by
  intro node bounded
  apply ordered.upward _ node bounded
  intro node bounded ih proper visible outside
  have isEmpty := @Ordered.isEmpty_fields tree node
  rw [Level, ordered.field_eq bounded]
  cases parent : tree.hasChildren node with
  | false =>
    rw [standardLines, standardLines, isEmpty, parent]
    refine ⟨rfl, fun rendered written => ?_⟩
    cases line : Leaf.line? settings (tree.lineage node) (tree.name? node) (tree.value? node) with
    | error fault =>
      rw [line] at written
      cases written
    | ok line' =>
      rw [line] at written
      cases written
      rfl
  | true =>
    rw [parent, Bool.not_true] at isEmpty
    have stays : ∀ child ∈ tree.children node, tree.isVisible settings child = true →
        tree.entersExtension child = false := fun child isChild visible' =>
      ordered.stays_of_onTop settings onTop (ordered.parent_of_mem isChild) proper visible' outside
    have siblings := ordered.siblingEntries_level settings version visible fun child isChild visible' enters => by
      have bounds := ordered.child_bounds isChild
      apply ih child isChild (Nat.ne_zero_of_lt bounds.1) visible'
      rw [ordered.liesInExtension_of_parent (ordered.parent_of_mem isChild), enters, outside]
      rfl
    cases collected : siblingEntries settings tree.namespaces (tree.name? node :: tree.lineage node)
        ((tree.children node).map tree.field) with
    | error fault =>
      rw [standardLines, standardLines, isEmpty, siblings.1, collected]
      exact ⟨rfl, fun rendered written => by cases written⟩
    | ok entries =>
      rw [standardLines_of_siblings _ isEmpty (siblings.1.trans collected),
        standardLines_of_siblings _ isEmpty collected]
      cases given : Entry.sort entries with
      | error fault => exact ⟨rfl, fun rendered written => by cases written⟩
      | ok sorted =>
        -- No entry is an extension, so that both placements leave every line where it is.
        have plain : ∀ entry ∈ sorted, entry.rank.isExtension = false ∧ entry.rendered.hoisted = [] := by
          intro entry member
          obtain ⟨nothing, enters⟩ := siblings.2 entries collected entry ((sort_perm given).mem_iff.mp member)
          refine ⟨?_, nothing⟩
          apply Bool.eq_false_iff.mpr
          intro isExtension
          obtain ⟨child, isChild, visible', enters'⟩ := enters isExtension
          rw [stays child isChild visible'] at enters'
          cases enters'
        rw [Except.map, Except.map, arrange_plain _ plain, arrange_plain _ plain]
        refine ⟨rfl, fun rendered written => ?_⟩
        cases written
        rfl

theorem Ordered.canonicalForm_withVersion (onTop : ExtensionsOnTop settings tree) :
    tree.canonicalForm (settings.withVersion version) = tree.canonicalForm settings := by
  have atRoot : ([none] : Lineage) = tree.name? 0 :: tree.lineage 0 := by rw [ordered.rootName, ordered.lineage_root]
  have siblings := ordered.siblingEntries_level settings version (ordered.isVisible_root settings)
    fun child isChild visible enters => by
      have bounds := ordered.child_bounds isChild
      apply ordered.level_of_onTop settings version onTop child bounds.2 (Nat.ne_zero_of_lt bounds.1) visible
      rw [ordered.liesInExtension_of_parent (ordered.parent_of_mem isChild), enters, ordered.liesInExtension_root]
      rfl
  rw [← atRoot, ← ordered.fields_eq] at siblings
  rw [canonicalForm, canonicalForm]
  cases collected : siblingEntries settings tree.namespaces [none] tree.fields with
  | error fault =>
    rw [EpcisDigest.canonicalForm, EpcisDigest.canonicalForm, siblings.1, collected]
    rfl
  | ok entries =>
    have flat : ∀ entry ∈ entries, entry.rendered.hoisted = [] :=
      fun entry member => (siblings.2 entries collected entry member).1
    rw [canonicalForm_of_siblings (siblings.1.trans collected), canonicalForm_of_siblings collected]
    cases given : Entry.sort entries with
    | error fault => rfl
    | ok sorted => rw [Except.map, Except.map, arrange_lines flat given, arrange_lines flat given]

end Versions

section Event

variable (settings : Settings) {tree : EventTree}

theorem cleaned_append (lines others : List String) : cleaned (lines ++ others) = cleaned lines ++ cleaned others := by
  rw [cleaned, map_append, filter_append]
  rfl

theorem texts_append (nodes others : List Nat) :
    tree.texts settings (nodes ++ others) = tree.texts settings nodes ++ tree.texts settings others :=
  filterMap_append

theorem Ordered.header_of_catalogued (ordered : tree.Ordered) {node : Nat} (catalogued : tree.isCatalogued node = true)
    (notIlmd : tree.isUnderIlmd node = false) (parent : tree.hasChildren node = true) {name : String}
    (named : pathName? (tree.name? node) = some name) : tree.nodeText? settings node = some name := by
  have outside : tree.inExtension node = false := by
    rw [inExtension, notIlmd, Bool.false_or]
    exact ordered.liesInExtension_of_catalogued catalogued
  rw [nodeText?, nodeLine?, outside, parent, ownLine?, named]

/-- Where user extensions stand. With the one version the lines of all nodes in them come behind all others. With
    the other version the lines of the nodes below a catalogued field follow its name at once. Both give the same
    lines when the extensions that are in no other one are children of the event itself. -/
theorem canonicalForm_placement (built : tree.Built) :
    (settings.version = .v2_0 → ∀ form, tree.canonicalForm settings = .ok form →
      ∃ placed hoisted, placed ++ hoisted ~ tree.visibleNodes settings ∧
        form.lines = cleaned (tree.texts settings placed) ++ cleaned (tree.texts settings hoisted) ∧
        (∀ node ∈ placed, tree.liesInExtension node = false) ∧ ∀ node ∈ hoisted, tree.liesInExtension node = true) ∧
    (settings.version = .v2_1 → ∀ form, tree.canonicalForm settings = .ok form →
      ∃ order, order ~ tree.visibleNodes settings ∧ form.lines = cleaned (tree.texts settings order) ∧
        ∀ node ∈ tree.visibleNodes settings, tree.isCatalogued node = true → tree.isUnderIlmd node = false →
          tree.hasChildren node = true →
          ∃ name before block after, tree.name? node = some name ∧ order = before ++ node :: (block ++ after) ∧
            block ~ (tree.descendants node).filter (tree.isVisible settings) ∧
            form.lines = cleaned (tree.texts settings before) ++
              name :: (cleaned (tree.texts settings block) ++ cleaned (tree.texts settings after))) ∧
    (ExtensionsOnTop settings tree →
      tree.canonicalForm (settings.withVersion .v2_0) = tree.canonicalForm (settings.withVersion .v2_1)) := by
  have ordered := built.ordered
  have all : tree.visibleIn settings (tree.children 0) ~ tree.visibleNodes settings := by
    have below := ordered.descendants_root.filter (tree.isVisible settings)
    rwa [ordered.descendants_eq ordered.hasRoot] at below
  refine ⟨fun version form written => ?_, fun version form written => ?_, fun onTop => ?_⟩
  · obtain ⟨rendered, placed, hoisted, laid, lines⟩ := ordered.laid_event settings written
    have isHoisted : settings.version.placement = .hoisted := by rw [version]; rfl
    refine ⟨placed, hoisted, laid.perm.trans all, ?_, laid.apart isHoisted⟩
    rw [lines, laid.lines, cleaned_append]
  · obtain ⟨rendered, order, hoisted, laid, lines⟩ := ordered.laid_event settings written
    have isInline : settings.version.placement = .inline := by rw [version]; rfl
    obtain ⟨rfl, nested⟩ := laid.inPlace isInline
    have perm := laid.perm.trans all
    rw [append_nil] at perm
    have lines' : form.lines = cleaned (tree.texts settings order) := by
      rw [lines, laid.lines, cleaned_append]
      exact append_nil _
    refine ⟨order, perm, lines', fun node visible catalogued notIlmd parent => ?_⟩
    obtain ⟨name, isNamed, named⟩ := exists_name_of_catalogued catalogued
    obtain ⟨before, block, after, split, below⟩ := nested node (perm.mem_iff.mpr visible)
    have header := ordered.header_of_catalogued settings catalogued notIlmd parent named
    have own := cleaned_catalogued catalogued named
    refine ⟨name, before, block, after, isNamed, split, below, ?_⟩
    have first : tree.texts settings (node :: (block ++ after)) =
        [name] ++ (tree.texts settings block ++ tree.texts settings after) := by
      rw [texts, filterMap_cons, header, filterMap_append]
      rfl
    rw [lines', split, texts_append, first, cleaned_append, cleaned_append, cleaned_append, own]
    rfl
  · have early := ordered.canonicalForm_withVersion settings .v2_0 onTop
    have late := ordered.canonicalForm_withVersion settings .v2_1 onTop
    exact early.trans late.symm

end Event

def doorTree : EventTree :=
  let event := ((empty NameTable.empty).addLeaf 0 "type" "ObjectEvent").1
  let point := ((event.addLeaf 0 "ex:door" "north").1.addNode 0 "readPoint").1
  (point.addLeaf 3 "id" "here").1

theorem canonicalForm_placement_doorTree :
    (doorTree.Built ∧ ExtensionsOnTop Settings.standard doorTree) ∧
    (∃ placed hoisted, placed ++ hoisted ~ doorTree.visibleNodes Settings.standard ∧
      ["eventType=ObjectEvent", "readPoint", "id=here", "ex:door=north"] =
        cleaned (doorTree.texts Settings.standard placed) ++ cleaned (doorTree.texts Settings.standard hoisted) ∧
      (∀ node ∈ placed, doorTree.liesInExtension node = false) ∧
      ∀ node ∈ hoisted, doorTree.liesInExtension node = true) ∧
    (∃ before block after, block ~ [4] ∧
      ["eventType=ObjectEvent", "readPoint", "id=here", "ex:door=north"] =
        cleaned (doorTree.texts (Settings.standard.withVersion .v2_1) before) ++
          "readPoint" :: (cleaned (doorTree.texts (Settings.standard.withVersion .v2_1) block) ++
            cleaned (doorTree.texts (Settings.standard.withVersion .v2_1) after))) ∧
    doorTree.canonicalForm (Settings.standard.withVersion .v2_0) =
      doorTree.canonicalForm (Settings.standard.withVersion .v2_1) := by
  have built : doorTree.Built :=
    ((((Built.empty _).add (by decide) _ _).add (by decide) _ _).add (by decide) _ _).add (by decide) _ _
  have onTop : ExtensionsOnTop Settings.standard doorTree := by
    unfold ExtensionsOnTop
    decide +kernel
  have early := canonicalForm_placement Settings.standard built
  have late := canonicalForm_placement (Settings.standard.withVersion .v2_1) built
  refine ⟨⟨built, onTop⟩, ?_, ?_, early.2.2 onTop⟩
  · exact early.1 rfl ⟨["eventType=ObjectEvent", "readPoint", "id=here", "ex:door=north"]⟩ (by decide +kernel)
  · obtain ⟨order, _, _, each⟩ := late.2.1 rfl
      ⟨["eventType=ObjectEvent", "readPoint", "id=here", "ex:door=north"]⟩ (by decide +kernel)
    obtain ⟨name, before, block, after, named, _, below, lines⟩ := each 3 (by decide +kernel) (by decide +kernel)
      (by decide +kernel) (by decide +kernel)
    cases named
    exact ⟨before, block, after, below, lines⟩

end EventTree

end EpcisDigest
