import EpcisDigest.Proofs.Event.Arena
import EpcisDigest.Proofs.Event.Rearranged
import EpcisDigest.Proofs.NameTable

namespace EpcisDigest

namespace Text

theorem isSome_cut? (sep : Char) (s : String) : (cut? sep s).isSome = contains sep s := by
  have found : ∀ cs : List Char, (cs.dropWhile (· != sep) = []) ↔ sep ∉ cs := by
    intro cs
    rw [List.dropWhile_eq_nil_iff]
    constructor
    · intro all member
      exact absurd (all sep member) (by simp)
    · intro absent c member
      rw [bne_iff_ne]
      rintro rfl
      exact absent member
  rw [cut?, contains, List.contains_eq_mem]
  cases left : s.toList.dropWhile (· != sep) with
  | nil => simp [(found s.toList).mp left]
  | cons c rest =>
    have present : sep ∈ s.toList := by
      apply Decidable.byContradiction
      intro absent
      rw [(found s.toList).mpr absent] at left
      cases left
    simp [present]

end Text

def IsPrefixed (name : String) : Prop := Text.contains ':' name = true

theorem qualifiedName_of_unprefixed (namespaces : Namespaces) {name : String} (plain : ¬ IsPrefixed name) :
    qualifiedName namespaces name = name := by
  have uncut : Text.cut? ':' name = none := by
    rw [← Option.isNone_iff_eq_none, ← Option.not_isSome, Text.isSome_cut?, Bool.not_eq_true']
    exact Bool.eq_false_iff.mpr plain
  rw [qualifiedName, uncut]

theorem pathName?_of_prefixed {name : String} (prefixed : IsPrefixed name) : pathName? (some name) = some name := by
  have own : isSynthetic name = false := by
    rw [isSynthetic, Bool.or_eq_false_iff, beq_eq_false_iff_ne, beq_eq_false_iff_ne]
    constructor <;>
    · rintro rfl
      exact absurd prefixed Bool.false_ne_true
  rw [pathName?, Option.filter_some, own]
  rfl

namespace Catalog

open CatalogField

theorem lookup?_of_prefixed (path : List String) {name : String} (prefixed : IsPrefixed name) :
    lookup? (path ++ [name]) = none := by
  have every : allOf (fun name => !Text.contains ':' name) event = true := by decide +kernel
  rw [← Option.not_isSome_iff_eq_none]
  intro found
  have plain := holds_of_lookup? every found
  rw [Bool.not_eq_true'] at plain
  exact absurd prefixed (Bool.eq_false_iff.mp plain)

end Catalog

theorem isStandard_of_prefixed (lineage : Lineage) {name : String} (prefixed : IsPrefixed name) :
    lineage.isStandard (some name) = lineage.isUnderIlmd := by
  have own := pathName?_of_prefixed prefixed
  have path : Lineage.path (some name :: lineage) = lineage.path ++ [name] := by
    simp [Lineage.path, own]
  rw [Lineage.isStandard, own, path, Catalog.lookup?_of_prefixed _ prefixed]
  simp

def ExcludesUnprefixed (settings : Settings) : Prop := ∀ name ∈ settings.excluded.names, ¬ IsPrefixed name

section Renaming

variable (namespaces others : Namespaces)

def IsBound (namespaces : Namespaces) (name : String) : Prop :=
  ∃ lead rest uri, Text.cut? ':' name = some (lead, rest) ∧ namespaces.get? lead = some uri

theorem IsBound.isPrefixed {namespaces : Namespaces} {name : String} (bound : IsBound namespaces name) :
    IsPrefixed name := by
  obtain ⟨lead, rest, _, cut, _⟩ := bound
  rw [IsPrefixed, ← Text.isSome_cut?, cut]
  rfl

/-- Names that say the same under two tables: one name whose prefix, if it has one, neither table binds, or
    two whose prefixes are bound and that are written out alike. -/
inductive SameName : Option String → Option String → Prop
  | unnamed : SameName none none
  | unprefixed (name : String) (plain : ¬ IsPrefixed name) : SameName (some name) (some name)
  | unbound (name lead rest : String) (cut : Text.cut? ':' name = some (lead, rest))
      (absent : namespaces.get? lead = none) (absent' : others.get? lead = none) : SameName (some name) (some name)
  | bound (name other : String) (isBound : IsBound namespaces name) (isBound' : IsBound others other)
      (same : qualifiedName namespaces name = qualifiedName others other) : SameName (some name) (some other)

mutual

inductive Renamed : Field → Field → Prop
  | field {name name' : Option String} (value : Option String) {children children' : List Field}
      (same : SameName namespaces others name name') (below : AllRenamed children children') :
      Renamed ⟨name, value, children⟩ ⟨name', value, children'⟩

inductive AllRenamed : List Field → List Field → Prop
  | nil : AllRenamed [] []
  | cons {field field' : Field} {fields fields' : List Field} (first : Renamed field field')
      (more : AllRenamed fields fields') : AllRenamed (field :: fields) (field' :: fields')

end

variable {namespaces others} {name name' : Option String}

theorem SameName.qualifiedName_eq (same : SameName namespaces others name name') :
    name.map (qualifiedName namespaces) = name'.map (qualifiedName others) := by
  cases same with
  | unnamed => rfl
  | unprefixed name plain =>
    rw [Option.map_some, Option.map_some, qualifiedName_of_unprefixed namespaces plain,
      qualifiedName_of_unprefixed others plain]
  | unbound name lead rest cut absent absent' =>
    simp only [Option.map_some, qualifiedName, cut, absent, absent']
  | bound name other _ _ same => rw [Option.map_some, Option.map_some, same]

/-- Names differ only where both have a prefix. -/
theorem SameName.eq_or_prefixed (same : SameName namespaces others name name') :
    name = name' ∨ ∃ x y, name = some x ∧ name' = some y ∧ IsPrefixed x ∧ IsPrefixed y := by
  cases same with
  | bound name other isBound isBound' _ => exact Or.inr ⟨name, other, rfl, rfl, isBound.isPrefixed, isBound'.isPrefixed⟩
  | _ => exact Or.inl rfl

theorem SameName.pathName?_eq (same : SameName namespaces others name name') :
    (pathName? name).map (qualifiedName namespaces) = (pathName? name').map (qualifiedName others) := by
  have written := same.qualifiedName_eq
  rcases same.eq_or_prefixed with rfl | ⟨x, y, rfl, rfl, prefixed, prefixed'⟩
  · cases own : pathName? name with
    | none => rfl
    | some shown =>
      obtain ⟨rfl, _⟩ := Option.filter_eq_some_iff.mp own
      exact written
  · rw [pathName?_of_prefixed prefixed, pathName?_of_prefixed prefixed']
    exact written

theorem SameName.extensionText_eq (same : SameName namespaces others name name') (value : Option String) :
    extensionText namespaces name value = extensionText others name' value := by
  simp only [extensionText, same.qualifiedName_eq]

theorem SameName.isStandard_eq (same : SameName namespaces others name name') (lineage : Lineage) :
    lineage.isStandard name = lineage.isStandard name' := by
  rcases same.eq_or_prefixed with rfl | ⟨x, y, rfl, rfl, prefixed, prefixed'⟩
  · rfl
  · rw [isStandard_of_prefixed lineage prefixed, isStandard_of_prefixed lineage prefixed']

theorem SameName.isExcluded_eq {settings : Settings} (plain : ExcludesUnprefixed settings)
    (same : SameName namespaces others name name') :
    isExcluded settings name = isExcluded settings name' := by
  have shown : ∀ name, IsPrefixed name → isExcluded settings (some name) = false := by
    intro name prefixed
    rw [isExcluded, Option.any_some, Settings.isExcluded, NameTable.contains, Option.isSome_eq_false_iff,
      Option.isNone_iff_eq_none, Option.eq_none_iff_forall_ne_some]
    intro mark found
    have listed := (NameTable.get?_eq_some_iff _ _ _).mp found
    exact plain name (List.mem_map_of_mem listed) prefixed
  rcases same.eq_or_prefixed with rfl | ⟨x, y, rfl, rfl, prefixed, prefixed'⟩
  · rfl
  · rw [shown x prefixed, shown y prefixed']

theorem AllRenamed.isEmpty_eq {fields fields' : List Field} (renamed : AllRenamed namespaces others fields fields') :
    fields.isEmpty = fields'.isEmpty := by
  cases renamed <;> rfl

theorem Renamed.hasChildren_eq {field field' : Field} (renamed : Renamed namespaces others field field') :
    field.hasChildren = field'.hasChildren := by
  obtain ⟨value, same, below⟩ := renamed
  rw [Field.hasChildren, Field.hasChildren, below.isEmpty_eq]

theorem Renamed.sameName {field field' : Field} (renamed : Renamed namespaces others field field') :
    SameName namespaces others field.name field'.name := by
  obtain ⟨value, same, below⟩ := renamed
  exact same

theorem Renamed.value_eq {field field' : Field} (renamed : Renamed namespaces others field field') :
    field.value = field'.value := by
  obtain ⟨value, same, below⟩ := renamed
  rfl

mutual

theorem Renamed.holdsOnlyExtensions_eq :
    ∀ {field field' : Field}, Renamed namespaces others field field' → ∀ lineage : Lineage,
      holdsOnlyExtensions lineage field = holdsOnlyExtensions lineage field'
  | _, _, .field value same below, lineage => by
    rw [holdsOnlyExtensions, holdsOnlyExtensions, below.isEmpty_eq]
    rcases same.eq_or_prefixed with rfl | ⟨x, y, rfl, rfl, prefixed, prefixed'⟩
    · rw [AllRenamed.areExtensions_eq below]
    · rw [pathName?_of_prefixed prefixed, pathName?_of_prefixed prefixed']
      rfl

theorem AllRenamed.areExtensions_eq :
    ∀ {fields fields' : List Field}, AllRenamed namespaces others fields fields' → ∀ lineage : Lineage,
      areExtensions lineage fields = areExtensions lineage fields'
  | _, _, .nil, _ => rfl
  | _, _, .cons first more, lineage => by
    rw [areExtensions, areExtensions, first.sameName.isStandard_eq, Renamed.holdsOnlyExtensions_eq first,
      AllRenamed.areExtensions_eq more]

end

theorem Renamed.regionOf_eq {field field' : Field} (renamed : Renamed namespaces others field field')
    (lineage : Lineage) : regionOf lineage field = regionOf lineage field' := by
  rw [regionOf, regionOf, renamed.sameName.isStandard_eq, renamed.holdsOnlyExtensions_eq]

/-- A standard field has no prefix that could differ. -/
theorem Renamed.name_eq {field field' : Field} (renamed : Renamed namespaces others field field') {lineage : Lineage}
    (standard : regionOf lineage field = .standard) : field.name = field'.name := by
  rcases renamed.sameName.eq_or_prefixed with same | ⟨x, y, nameX, _, prefixed, _⟩
  · exact same
  · rw [regionOf, nameX, isStandard_of_prefixed lineage prefixed] at standard
    cases under : lineage.isUnderIlmd <;> simp [under] at standard
    split at standard <;> cases standard

theorem Renamed.extensionKey_eq {field field' : Field} (renamed : Renamed namespaces others field field')
    (lines : List String) : extensionKey namespaces field lines = extensionKey others field' lines := by
  have path := renamed.sameName.pathName?_eq
  rw [extensionKey, extensionKey, renamed.sameName.extensionText_eq, renamed.value_eq]
  cases own : pathName? field.name <;> cases own' : pathName? field'.name <;>
    rw [own, own'] at path <;> first | rfl | cases path

section Lines

variable {settings : Settings}

mutual

theorem Renamed.extensionLines_eq (plain : ExcludesUnprefixed settings) :
    ∀ {field field' : Field}, Renamed namespaces others field field' →
      extensionLines settings namespaces field = extensionLines settings others field'
  | _, _, .field value same below => by
    have entries := AllRenamed.extensionEntries_eq plain below
    rw [extensionLines, extensionLines, below.isEmpty_eq, same.extensionText_eq, same.pathName?_eq, entries]

theorem AllRenamed.extensionEntries_eq (plain : ExcludesUnprefixed settings) :
    ∀ {fields fields' : List Field}, AllRenamed namespaces others fields fields' →
      extensionEntries settings namespaces fields = extensionEntries settings others fields'
  | _, _, .nil => rfl
  | _, _, .cons first more => by
    have lines := Renamed.extensionLines_eq plain first
    have entries := AllRenamed.extensionEntries_eq plain more
    simp only [extensionEntries, first.sameName.isExcluded_eq plain, lines, first.extensionKey_eq,
      first.hasChildren_eq, entries]

end

theorem AllRenamed.standardLines_eq {children children' : List Field}
    (below : AllRenamed namespaces others children children') (name value : Option String) {lineage : Lineage}
    (entries : siblingEntries settings namespaces (name :: lineage) children =
      siblingEntries settings others (name :: lineage) children') :
    standardLines settings namespaces lineage ⟨name, value, children⟩ =
      standardLines settings others lineage ⟨name, value, children'⟩ := by
  rw [standardLines, standardLines, below.isEmpty_eq, entries]

/-- The names of the ancestors are the same, not only names that say the same: a field with a prefix is rendered
    as an extension, with all that is below it. -/
theorem AllRenamed.siblingEntries_cons (plain : ExcludesUnprefixed settings) {name name' : Option String}
    (value : Option String) {children children' more more' : List Field} (same : SameName namespaces others name name')
    (below : AllRenamed namespaces others children children')
    (entries : ∀ lineage, siblingEntries settings namespaces lineage children =
      siblingEntries settings others lineage children')
    {lineage : Lineage}
    (following : siblingEntries settings namespaces lineage more = siblingEntries settings others lineage more') :
    siblingEntries settings namespaces lineage (⟨name, value, children⟩ :: more) =
      siblingEntries settings others lineage (⟨name', value, children'⟩ :: more') := by
  have renamed : Renamed namespaces others ⟨name, value, children⟩ ⟨name', value, children'⟩ := .field value same below
  have excluded := same.isExcluded_eq plain
  have lines := renamed.extensionLines_eq plain
  have region := renamed.regionOf_eq lineage
  simp only [siblingEntries, excluded, following, region, lines, renamed.extensionKey_eq, renamed.hasChildren_eq,
    same.extensionText_eq]
  cases kind : regionOf lineage ⟨name', value, children'⟩ with
  | extension => rfl
  | ilmd => rfl
  | standard =>
    have named : name = name' := renamed.name_eq (region.trans kind)
    subst named
    simp only [below.standardLines_eq name value (entries (name :: lineage))]

theorem AllRenamed.siblingEntries_eq (plain : ExcludesUnprefixed settings) :
    ∀ {fields fields' : List Field}, AllRenamed namespaces others fields fields' → ∀ lineage : Lineage,
      siblingEntries settings namespaces lineage fields = siblingEntries settings others lineage fields'
  | _, _, .nil, _ => rfl
  | _, _, .cons (.field value same below) more, lineage =>
    siblingEntries_cons plain value same below (siblingEntries_eq plain below) (siblingEntries_eq plain more lineage)

theorem AllRenamed.canonicalForm_eq (plain : ExcludesUnprefixed settings) {fields fields' : List Field}
    (renamed : AllRenamed namespaces others fields fields') :
    canonicalForm settings namespaces fields = canonicalForm settings others fields' := by
  rw [canonicalForm, canonicalForm, renamed.siblingEntries_eq plain]

end Lines

end Renaming

namespace EventTree

structure Corresponds (tree other : EventTree) (pairs : Nat → Nat → Prop) : Prop where
  root : pairs 0 0
  name : ∀ node node', pairs node node' →
    SameName tree.namespaces other.namespaces (tree.name? node) (other.name? node')
  value : ∀ node node', pairs node node' → tree.value? node = other.value? node'
  children : ∀ node node', pairs node node' → List.Forall₂ pairs (tree.children node) (other.children node')

section Corresponds

variable {tree other : EventTree} {pairs : Nat → Nat → Prop}

theorem allRenamed_map {nodes nodes' : List Nat} (paired : List.Forall₂ pairs nodes nodes')
    (each : ∀ node ∈ nodes, ∀ node' ∈ nodes', pairs node node' →
      Renamed tree.namespaces other.namespaces (tree.field node) (other.field node')) :
    AllRenamed tree.namespaces other.namespaces (nodes.map tree.field) (nodes'.map other.field) := by
  induction paired with
  | nil => exact .nil
  | cons pair _ ih =>
    refine .cons (each _ List.mem_cons_self _ List.mem_cons_self pair) (ih ?_)
    intro node member node' member'
    exact each node (List.mem_cons_of_mem _ member) node' (List.mem_cons_of_mem _ member')

theorem Corresponds.renamed (same : tree.Corresponds other pairs) (ordered : tree.Ordered) (ordered' : other.Ordered) :
    ∀ node, node < tree.size → ∀ node', node' < other.size → pairs node node' →
      Renamed tree.namespaces other.namespaces (tree.field node) (other.field node') := by
  intro node bounded
  apply ordered.upward _ node bounded
  intro node bounded ih node' bounded' pair
  rw [ordered.field_eq bounded, ordered'.field_eq bounded', same.value node node' pair]
  apply Renamed.field _ (same.name node node' pair)
  apply allRenamed_map (same.children node node' pair)
  intro child isChild child' isChild' childPair
  exact ih child isChild child' (ordered'.child_bounds isChild').2 childPair

/-- Which prefix is bound to a namespace does not show in the canonical form. -/
theorem canonicalForm_renamed {settings : Settings} (plain : ExcludesUnprefixed settings) (built : tree.Built)
    (built' : other.Built) (same : tree.Corresponds other pairs) :
    tree.canonicalForm settings = other.canonicalForm settings := by
  have ordered := built.ordered
  have ordered' := built'.ordered
  have renamed : AllRenamed tree.namespaces other.namespaces tree.fields other.fields := by
    rw [ordered.fields_eq, ordered'.fields_eq]
    apply allRenamed_map (same.children 0 0 same.root)
    intro node isChild node' isChild' pair
    exact same.renamed ordered ordered' node (ordered.child_bounds isChild).2 node'
      (ordered'.child_bounds isChild').2 pair
  exact renamed.canonicalForm_eq plain

end Corresponds

def partTree (lead : String) : EventTree :=
  let event := ((empty (NameTable.ofList [(lead, "urn:x:")])).addLeaf 0 "type" "ObjectEvent").1
  ((event.addNode 0 (lead ++ ":part")).1.addLeaf 2 (lead ++ ":size") "1").1

theorem canonicalForm_renamed_partTree :
    (ExcludesUnprefixed Settings.standard ∧ (partTree "a").Built ∧ (partTree "b").Built ∧
      (partTree "a").Corresponds (partTree "b") fun node node' => node = node' ∧ node < 4) ∧
    (partTree "a").canonicalForm Settings.standard = (partTree "b").canonicalForm Settings.standard := by
  have plain : ExcludesUnprefixed Settings.standard := by
    unfold ExcludesUnprefixed IsPrefixed
    decide +kernel
  have built : ∀ lead, (partTree lead).Built := by
    intro lead
    exact (((Built.empty _).add Nat.zero_lt_one _ _).add Nat.zero_lt_two _ _).add (Nat.lt_succ_self 2) _ _
  have bound : ∀ lead localName, Text.cut? ':' (lead ++ ":" ++ localName) = some (lead, localName) →
      IsBound (partTree lead).namespaces (lead ++ ":" ++ localName) := by
    intro lead localName cut
    refine ⟨lead, localName, "urn:x:", cut, ?_⟩
    show (NameTable.empty.insert lead "urn:x:").get? lead = some "urn:x:"
    rw [NameTable.get?_insert, if_pos rfl]
  have same : (partTree "a").Corresponds (partTree "b") fun node node' => node = node' ∧ node < 4 := by
    refine ⟨⟨rfl, by decide⟩, ?_, ?_, ?_⟩
    · rintro node _ ⟨rfl, bounded⟩
      have cases : node = 0 ∨ node = 1 ∨ node = 2 ∨ node = 3 := by omega
      rcases cases with rfl | rfl | rfl | rfl
      · exact .unnamed
      · exact .unprefixed "type" (by unfold IsPrefixed; decide)
      · exact .bound "a:part" "b:part" (bound "a" "part" (by decide +kernel)) (bound "b" "part" (by decide +kernel))
          (by decide +kernel)
      · exact .bound "a:size" "b:size" (bound "a" "size" (by decide +kernel)) (bound "b" "size" (by decide +kernel))
          (by decide +kernel)
    · rintro node _ ⟨rfl, bounded⟩
      revert node
      decide +kernel
    · rintro node _ ⟨rfl, bounded⟩
      have own : (partTree "b").children node = (partTree "a").children node := by
        revert node
        decide +kernel
      rw [own, List.forall₂_same]
      revert node
      decide +kernel
  exact ⟨⟨plain, built "a", built "b", same⟩, canonicalForm_renamed plain (built "a") (built "b") same⟩

end EventTree

end EpcisDigest
