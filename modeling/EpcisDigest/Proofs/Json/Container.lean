import EpcisDigest.Proofs.Json.Spot

namespace EpcisDigest.Json

/-- The members of an object: scalar fields of the catalog, and beside them a container that lends its name to no path
    and holds scalars. -/
structure Beside (lineage : Lineage) (container : String) (inner scalars members : List (String × Value)) : Prop where
  isSynthetic : isSynthetic container = true
  inner_ne_nil : inner ≠ []
  inner_scalar : ∀ member ∈ inner, member.2.isScalar = true
  isScalar : ∀ member ∈ scalars, member.2.isScalar = true
  found : ∀ member ∈ scalars, (Catalog.lookup? (lineage.path ++ [member.1])).isSome = true
  names : (scalars.map Prod.fst).Nodup
  perm : members.Perm ((container, .object inner) :: scalars)

def Shuffled (allowed : Lineage → String → List (String × Value) → List (String × Value) → Prop) (lineage : Lineage)
    (members members' : List (String × Value)) : Prop :=
  ∃ container inner scalars, Beside lineage container inner scalars members ∧
    allowed lineage container inner scalars ∧ members'.Perm members

/-- A container is sorted at the position of the field around it. No member shown beside it has this position, or
    the container is excluded or sorted with the extensions. -/
def Untied (settings : Settings) (lineage : Lineage) (container : String) (inner scalars : List (String × Value)) :
    Prop :=
  settings.isExcluded container = true ∨
    holdsOnlyExtensions lineage (Field.node container (objectFields settings inner)) = true ∨
    ∀ member ∈ scalars, settings.isExcluded member.1 = false →
      ∀ around ∈ lineage.parentField?, (around, member.1) ∉ Catalog.sharedPositions

section Scalars

variable (settings : Settings)

theorem map_name_scalars {members : List (String × Value)} (scalars : ∀ member ∈ members, member.2.isScalar = true) :
    (objectFields settings members).map Field.name =
      ((members.map Prod.fst).filter fun name => !settings.isExcluded name).map some := by
  induction members with
  | nil => rfl
  | cons member members ih =>
    obtain ⟨name, value⟩ := member
    obtain ⟨isScalar, scalars⟩ := List.forall_mem_cons.mp scalars
    have own : (valueFields settings name value).map Field.name = [some name] := by
      cases value with
      | object members => cases isScalar
      | array items => cases isScalar
      | bool value => cases value <;> rfl
      | _ => rfl
    rw [objectFields, List.map_append, ih scalars, memberFields_eq, unlessExcluded, List.map_cons, List.filter_cons]
    cases settings.isExcluded name with
    | true => rfl
    | false => exact congrArg (· ++ _) own

end Scalars

namespace Beside

variable {settings : Settings} {lineage : Lineage} {container : String}
  {inner scalars members members' : List (String × Value)}

variable (settings container inner scalars) in
def fields : List Field := objectFields settings ((container, .object inner) :: scalars)

theorem mem_fields (isScalar : ∀ member ∈ scalars, member.2.isScalar = true) {field : Field}
    (member : field ∈ fields settings container inner scalars) :
    settings.isExcluded container = false ∧ field = Field.node container (objectFields settings inner) ∨
      ∃ member ∈ scalars, settings.isExcluded member.1 = false ∧ field.name = some member.1 := by
  rw [fields, objectFields, List.mem_append] at member
  rcases member with own | beside
  · obtain ⟨shown, own⟩ := mem_memberFields own
    exact .inl ⟨shown, List.mem_singleton.mp own⟩
  · rw [objectFields_eq] at beside
    obtain ⟨member, isMember, inside⟩ := List.mem_flatMap.mp beside
    obtain ⟨shown, inside⟩ := mem_memberFields inside
    exact .inr ⟨member, isMember, shown, (mem_valueFields_scalar (isScalar member isMember) inside).1⟩

variable (beside : Beside lineage container inner scalars members)

include beside

theorem pathName?_container : pathName? (some container) = none := by
  rw [pathName?, Option.filter_some, beside.isSynthetic]
  rfl

theorem ne_container {member : String × Value} (isMember : member ∈ scalars) : member.1 ≠ container := by
  intro same
  have plain := isSynthetic_of_lookup? (beside.found member isMember)
  rw [same, beside.isSynthetic] at plain
  cases plain

theorem isCatalogued {member : String × Value} (isMember : member ∈ scalars) {field : Field}
    (named : field.name = some member.1) : field.IsCatalogued lineage :=
  ⟨member.1, named, beside.found member isMember⟩

theorem pathName?_scalar {member : String × Value} (isMember : member ∈ scalars) :
    pathName? (some member.1) = some member.1 := by
  rw [pathName?, Option.filter_some, isSynthetic_of_lookup? (beside.found member isMember)]
  rfl

theorem members_nodup : (members.map Prod.fst).Nodup := by
  rw [(beside.perm.map Prod.fst).nodup_iff, List.map_cons, List.nodup_cons]
  refine ⟨fun shared => ?_, beside.names⟩
  obtain ⟨member, isMember, same⟩ := List.mem_map.mp shared
  exact beside.ne_container isMember same

theorem names_fields : ((fields settings container inner scalars).map Field.name).Nodup := by
  rw [fields, objectFields, List.map_append, map_name_scalars settings beside.isScalar, memberFields_eq, unlessExcluded]
  have distinct : (((scalars.map Prod.fst).filter fun name => !settings.isExcluded name).map some).Nodup :=
    (beside.names.filter _).map fun _ _ same => Option.some.inj same
  split
  · exact distinct
  · refine List.nodup_cons.mpr ⟨fun shared => ?_, distinct⟩
    obtain ⟨name, shown, same⟩ := List.mem_map.mp shared
    obtain ⟨member, isMember, rfl⟩ := List.mem_map.mp (List.mem_filter.mp shown).1
    exact beside.ne_container isMember (Option.some.inj same)

theorem eq_container {field : Field} (member : field ∈ fields settings container inner scalars)
    (unnamed : pathName? field.name = none) :
    settings.isExcluded container = false ∧ field = Field.node container (objectFields settings inner) := by
  rcases mem_fields beside.isScalar member with own | ⟨member, isMember, _, named⟩
  · exact own
  · rw [named, beside.pathName?_scalar isMember] at unnamed
    cases unnamed

theorem settled (untied : Untied settings lineage container inner scalars) :
    Settled lineage (fields settings container inner scalars) where
  names := beside.names_fields
  catalogued := by
    intro field member
    rcases mem_fields beside.isScalar member with ⟨_, rfl⟩ | ⟨member, isMember, _, named⟩
    · exact .inl beside.pathName?_container
    · exact .inr (beside.isCatalogued isMember named)
  single := by
    intro a memberA b memberB unnamedA unnamedB
    rw [(beside.eq_container memberA unnamedA).2, (beside.eq_container memberB unnamedB).2]
  untied := by
    intro field member unnamed more other isOther catalogued
    obtain ⟨shown, rfl⟩ := beside.eq_container member unnamed
    rcases mem_fields beside.isScalar isOther with ⟨_, rfl⟩ | ⟨scalar, isScalar, shown', named⟩
    · obtain ⟨name, named, found⟩ := catalogued
      cases named
      exact absurd (beside.isSynthetic.symm.trans (isSynthetic_of_lookup? found)) Bool.false_ne_true.symm
    · have found := beside.found scalar isScalar
      rw [named, path_cons (isSynthetic_of_lookup? found)]
      rcases untied with excluded | extensions | apart
      · exact absurd (shown.symm.trans excluded) Bool.false_ne_true
      · exact absurd (more.symm.trans extensions) Bool.false_ne_true
      · intro same
        obtain ⟨around, isAround, shared⟩ := (Catalog.position?_eq_above_iff found).mp same
        exact apart scalar isScalar shown' around (getLast?_path lineage ▸ isAround) shared

theorem objectFields_perm : (objectFields settings members).Perm (fields settings container inner scalars) := by
  rw [fields, objectFields_eq, objectFields_eq]
  exact beside.perm.flatMap_right _

theorem objectFields_eq_of_hidden (hidden : ∀ member ∈ scalars, settings.isExcluded member.1 = true) :
    objectFields settings members = memberFields settings container (.object inner) := by
  have none : objectFields settings scalars = [] := by
    rw [objectFields_eq, List.flatMap_eq_nil_iff]
    exact fun member isMember => memberFields_of_excluded settings (hidden member isMember) member.2
  have perm : (objectFields settings members).Perm (fields settings container inner scalars) :=
    beside.objectFields_perm
  rw [fields, objectFields, none, List.append_nil] at perm
  rw [memberFields_eq, unlessExcluded] at perm ⊢
  split at perm <;> rename_i shown
  · rw [if_pos shown]
    exact perm.eq_nil
  · rw [if_neg shown]
    exact List.perm_singleton.mp perm

theorem of_perm (perm : members'.Perm members) : Beside lineage container inner scalars members' :=
  { beside with perm := perm.trans beside.perm }

theorem kept {namespaces : Namespaces} (untied : Untied settings lineage container inner scalars)
    (perm : members'.Perm members) :
    KeptAt settings namespaces Entry.sorted? lineage (objectFields settings members) (objectFields settings members') := by
  have beside' := beside.of_perm perm
  -- Where no scalar is shown the fields may all be extensions, but then there is at most one.
  by_cases hidden : ∀ member ∈ scalars, settings.isExcluded member.1 = true
  · left
    rw [beside.objectFields_eq_of_hidden hidden, beside'.objectFields_eq_of_hidden hidden]
  · right
    simp only [not_forall, Bool.not_eq_true] at hidden
    obtain ⟨scalar, isScalar, shown⟩ := hidden
    have named : some scalar.1 ∈ (objectFields settings scalars).map Field.name := by
      rw [map_name_scalars settings beside.isScalar]
      refine List.mem_map_of_mem (List.mem_filter.mpr ⟨List.mem_map_of_mem isScalar, ?_⟩)
      rw [shown]
      rfl
    obtain ⟨field, isField, name⟩ := List.mem_map.mp named
    have listed : field ∈ objectFields settings members := by
      rw [beside.objectFields_perm.mem_iff, fields, objectFields]
      exact List.mem_append_right _ isField
    have order : (objectFields settings members').Perm (objectFields settings members) := by
      rw [objectFields_eq, objectFields_eq]
      exact perm.flatMap_right _
    exact ((beside.settled untied).perm beside.objectFields_perm).alike order listed
      (beside.isCatalogued isScalar name)

end Beside

section Shuffled

variable {allowed : Lineage → String → List (String × Value) → List (String × Value) → Prop} {lineage : Lineage}
  {members members' : List (String × Value)}

theorem Shuffled.found (shuffled : Shuffled allowed lineage members members') :
    members = members' ∨ (Catalog.lookup? lineage.path).isSome = true := by
  obtain ⟨container, inner, scalars, beside, _, perm⟩ := shuffled
  cases scalars with
  | nil =>
    have alone := List.perm_singleton.mp beside.perm
    rw [alone] at perm ⊢
    exact .inl (List.perm_singleton.mp perm).symm
  | cons scalar scalars => exact .inr (Catalog.isSome_lookup?_of_append (beside.found scalar List.mem_cons_self))

theorem Shuffled.eventNamespaces_eq (shuffled : Shuffled allowed lineage members members') (namespaces : Namespaces) :
    eventNamespaces namespaces (.object members) = eventNamespaces namespaces (.object members') := by
  obtain ⟨container, inner, scalars, beside, _, perm⟩ := shuffled
  exact eventNamespaces_perm beside.members_nodup perm namespaces

theorem Shuffled.kept {settings : Settings} {namespaces : Namespaces}
    (shuffled : Shuffled (Untied settings) lineage members members') :
    KeptAt settings namespaces Entry.sorted? lineage (objectFields settings members) (objectFields settings members') := by
  obtain ⟨container, inner, scalars, beside, untied, perm⟩ := shuffled
  exact beside.kept untied perm

end Shuffled

/-- Beside a container the order of members does not matter, at any depth, where no member shown has the position of the
    field around both. -/
theorem canonicalForm_shuffled {settings : Settings} {namespaces : Namespaces} {members : List (String × Value)}
    {event' : Value} (changed : ChangedIn (Shuffled (Untied settings)) (.object [none]) (.object members) event') :
    ∃ tree tree', eventTree settings namespaces (.object members) = .ok tree ∧
      eventTree settings namespaces event' = .ok tree' ∧
      (tree.canonicalForm settings).toOption = (tree'.canonicalForm settings).toOption := by
  have spaces := changed.eventNamespaces_eq (fun _ _ _ shuffled => shuffled.found)
    (fun _ _ shuffled => shuffled.eventNamespaces_eq) namespaces
  have kept : KeptAt settings (eventNamespaces namespaces (.object members)) _ _ _ _ :=
    changed.kept fun _ _ _ shuffled => shuffled.kept
  obtain ⟨_, members', isObject, rfl⟩ | ⟨_, _, isArray, _⟩ := changed.shape
  · exact exists_trees settings spaces kept.siblings_eq.canonicalForm_eq
  · cases isArray

def quantityEvent (quantity : List (String × Value)) : List (String × Value) :=
  [("type", .string "ObjectEvent"), ("quantityList", .array [.object quantity])]

theorem changedIn_quantityEvent {change : Lineage → List (String × Value) → List (String × Value) → Prop}
    {quantity quantity' : List (String × Value)}
    (changed : change [some "quantityElement", some "quantityList", none] quantity quantity') :
    ChangedIn change (.object [none]) (.object (quantityEvent quantity)) (.object (quantityEvent quantity')) :=
  .member [("type", .string "ObjectEvent")] [] "quantityList" (.item [] [] (.object (.here changed)))

def weighed : List (String × Value) :=
  [("uom", .string "KGM"), ("extension", .object [("epcClass", .string "x")]), ("quantity", .number "5")]

theorem canonicalForm_shuffled_weighed :
    ChangedIn (Shuffled (Untied Settings.standard)) (.object [none]) (.object (quantityEvent weighed))
        (.object (quantityEvent weighed.reverse)) ∧
      ∃ tree tree', eventTree Settings.standard NameTable.empty (.object (quantityEvent weighed)) = .ok tree ∧
        eventTree Settings.standard NameTable.empty (.object (quantityEvent weighed.reverse)) = .ok tree' ∧
        (tree.canonicalForm Settings.standard).toOption = (tree'.canonicalForm Settings.standard).toOption := by
  have beside : Beside [some "quantityElement", some "quantityList", none] "extension" [("epcClass", .string "x")]
      [("uom", .string "KGM"), ("quantity", .number "5")] weighed :=
    ⟨by decide, by simp, by simp [Value.isScalar], by simp [Value.isScalar], by decide +kernel, by decide,
      .swap _ _ _⟩
  have untied : Untied Settings.standard [some "quantityElement", some "quantityList", none] "extension"
      [("epcClass", .string "x")] [("uom", .string "KGM"), ("quantity", .number "5")] :=
    .inr (.inr (by decide +kernel))
  have changed : ChangedIn (Shuffled (Untied Settings.standard)) (.object [none]) (.object (quantityEvent weighed))
      (.object (quantityEvent weighed.reverse)) :=
    changedIn_quantityEvent ⟨_, _, _, beside, untied, List.reverse_perm _⟩
  exact ⟨changed, canonicalForm_shuffled changed⟩

def classified : List (String × Value) :=
  [("extension", .object [("quantity", .number "5")]), ("epcClass", .string "x")]

/-- The container and the class are both sorted at position 0, and so left in the order in which they come. -/
theorem not_canonicalForm_shuffled :
    ¬ ∀ (settings : Settings) (namespaces : Namespaces) (members : List (String × Value)) (event' : Value),
      ChangedIn (Shuffled fun _ _ _ _ => True) (.object [none]) (.object members) event' →
      ∃ tree tree', eventTree settings namespaces (.object members) = .ok tree ∧
        eventTree settings namespaces event' = .ok tree' ∧
        (tree.canonicalForm settings).toOption = (tree'.canonicalForm settings).toOption := by
  intro unchanged
  have beside : Beside [some "quantityElement", some "quantityList", none] "extension" [("quantity", .number "5")]
      [("epcClass", .string "x")] classified :=
    ⟨by decide, by simp, by simp [Value.isScalar], by simp [Value.isScalar], by decide +kernel, by decide, .refl _⟩
  have changed : ChangedIn (Shuffled fun _ _ _ _ => True) (.object [none]) (.object (quantityEvent classified))
      (.object (quantityEvent classified.reverse)) :=
    changedIn_quantityEvent ⟨_, _, _, beside, trivial, List.reverse_perm _⟩
  obtain ⟨tree, tree', built, built', same⟩ := unchanged Settings.standard NameTable.empty _ _ changed
  cases built
  cases built'
  revert same
  decide +kernel

end EpcisDigest.Json
