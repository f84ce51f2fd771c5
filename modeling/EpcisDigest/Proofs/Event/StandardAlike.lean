import EpcisDigest.Proofs.Event.Alike
import Mathlib.Data.List.Nodup

namespace EpcisDigest

def Field.IsCatalogued (lineage : Lineage) (field : Field) : Prop :=
  ∃ name, field.name = some name ∧ (Catalog.lookup? (lineage.path ++ [name])).isSome = true

section Regions

variable {lineage : Lineage} {field : Field}

theorem regionOf_standard (isStandard : lineage.isStandard field.name = true)
    (more : holdsOnlyExtensions lineage field = false) (outside : lineage.isUnderIlmd = false) :
    regionOf lineage field = .standard := by
  rw [regionOf, isStandard, more, outside]
  rfl

namespace Field.IsCatalogued

theorem pathName?_eq {name : String} (named : field.name = some name)
    (found : (Catalog.lookup? (lineage.path ++ [name])).isSome = true) : pathName? field.name = some name := by
  rw [named, pathName?, Option.filter_some, isSynthetic_of_lookup? found]
  rfl

variable (catalogued : field.IsCatalogued lineage)

include catalogued

theorem isUnderIlmd : lineage.isUnderIlmd = false := by
  obtain ⟨name, _, found⟩ := catalogued
  exact isUnderIlmd_of_lookup? found

theorem lookup?_above : (Catalog.lookup? lineage.path).isSome = true := by
  obtain ⟨name, _, found⟩ := catalogued
  exact Catalog.isSome_lookup?_of_append found

theorem isStandard : lineage.isStandard field.name = true := by
  obtain ⟨name, named, found⟩ := catalogued
  rw [Lineage.isStandard, path_append, pathName?_eq named found, Option.toList_some, found, Bool.or_true]

theorem holdsOnlyExtensions : holdsOnlyExtensions lineage field = false := by
  obtain ⟨name, named, found⟩ := catalogued
  exact holdsOnlyExtensions_of_named (pathName?_eq named found)

theorem regionOf : regionOf lineage field = .standard :=
  regionOf_standard catalogued.isStandard catalogued.holdsOnlyExtensions catalogued.isUnderIlmd

theorem areExtensions {fields : List Field} (member : field ∈ fields) : areExtensions lineage fields = false := by
  rw [areExtensions_eq_all, List.all_eq_false]
  refine ⟨field, member, ?_⟩
  rw [catalogued.isStandard, catalogued.holdsOnlyExtensions]
  exact Bool.false_ne_true

end Field.IsCatalogued

end Regions

section Settled

variable (settings : Settings) (namespaces : Namespaces) {lineage : Lineage} {fields others : List Field}

variable {settings namespaces} in
theorem rank_of_standard {field : Field} (region : regionOf lineage field = .standard) {entry : Entry}
    (given : siblingEntry settings namespaces lineage field = .ok entry) :
    entry.rank = .standard (Catalog.position? (Lineage.path (field.name :: lineage))) := by
  obtain ⟨rendered, -, rfl⟩ := exists_rendered region given
  rfl

/-- Fields of one place: some of the catalog, and at most one that lends its name to no path. This one has a position
    of its own unless it holds only extensions. -/
structure Settled (lineage : Lineage) (fields : List Field) : Prop where
  names : (fields.map Field.name).Nodup
  catalogued : ∀ field ∈ fields, pathName? field.name = none ∨ field.IsCatalogued lineage
  single : ∀ a ∈ fields, ∀ b ∈ fields, pathName? a.name = none → pathName? b.name = none → a = b
  untied : ∀ field ∈ fields, pathName? field.name = none → holdsOnlyExtensions lineage field = false →
    ∀ other ∈ fields, other.IsCatalogued lineage →
      Catalog.position? (Lineage.path (other.name :: lineage)) ≠ Catalog.position? lineage.path

/-- The rank of the field without a name in paths is not that of a field of the catalog. -/
theorem Settled.rank_ne (settled : Settled lineage fields) {field other : Field} (member : field ∈ fields)
    (unnamed : pathName? field.name = none) (isOther : other ∈ fields) (catalogued : other.IsCatalogued lineage)
    {entry entry' : Entry} (given : siblingEntry settings namespaces lineage field = .ok entry)
    (given' : siblingEntry settings namespaces lineage other = .ok entry') : entry.rank ≠ entry'.rank := by
  have rank' := rank_of_standard catalogued.regionOf given'
  have isStandard : lineage.isStandard field.name = true := by
    rw [Lineage.isStandard, unnamed]
    rfl
  cases more : holdsOnlyExtensions lineage field with
  | true =>
    have region : regionOf lineage field = .extension := by
      rw [regionOf, more, Bool.or_true]
      rfl
    rw [siblingEntry, region] at given
    obtain ⟨_, _, rfl⟩ := exists_lines_of_extension given
    rw [rank']
    exact Rank.noConfusion
  | false =>
    have region := regionOf_standard isStandard more catalogued.isUnderIlmd
    have rank := rank_of_standard region given
    have own : Lineage.path (field.name :: lineage) = lineage.path := by
      rw [path_append, unnamed]
      exact List.append_nil _
    rw [rank, rank', own]
    intro same
    exact settled.untied field member unnamed more other isOther catalogued (Rank.standard.inj same).symm

theorem Settled.keyed (settled : Settled lineage fields) :
    KeyedByName (fun field => (siblingEntry settings namespaces lineage field).toOption) fields where
  unmixed _ _ _ _ _ _ := not_mixed
  hasChildren := by
    intro a memberA b memberB e f givenA givenB name
    cases List.inj_on_of_nodup_map settled.names memberA memberB name
    cases givenA.symm.trans givenB
    rfl
  name := by
    intro a memberA b memberB e f givenA givenB same
    have givenA := ok_of_toOption givenA
    have givenB := ok_of_toOption givenB
    rcases settled.catalogued a memberA with unnamedA | cataloguedA
    · rcases settled.catalogued b memberB with unnamedB | cataloguedB
      · rw [settled.single a memberA b memberB unnamedA unnamedB]
      · exact absurd same (settled.rank_ne settings namespaces memberA unnamedA memberB cataloguedB givenA givenB)
    · rcases settled.catalogued b memberB with unnamedB | cataloguedB
      · exact absurd same.symm
          (settled.rank_ne settings namespaces memberB unnamedB memberA cataloguedA givenB givenA)
      · rw [rank_of_standard cataloguedA.regionOf givenA,
          rank_of_standard cataloguedB.regionOf givenB] at same
        obtain ⟨x, nameA, foundA⟩ := cataloguedA
        obtain ⟨y, nameB, foundB⟩ := cataloguedB
        rw [nameA, nameB, path_cons (isSynthetic_of_lookup? foundA), path_cons (isSynthetic_of_lookup? foundB)] at same
        rw [nameA, nameB, Catalog.position?_injective foundA (Rank.standard.inj same)]

theorem Settled.filter (settled : Settled lineage fields) (p : Field → Bool) : Settled lineage (fields.filter p) where
  names := settled.names.sublist (List.filter_sublist.map _)
  catalogued field member := settled.catalogued field (List.mem_filter.mp member).1
  single a memberA b memberB := settled.single a (List.mem_filter.mp memberA).1 b (List.mem_filter.mp memberB).1
  untied field member unnamed more other isOther :=
    settled.untied field (List.mem_filter.mp member).1 unnamed more other (List.mem_filter.mp isOther).1

theorem Settled.perm (settled : Settled lineage fields) (perm : others.Perm fields) : Settled lineage others where
  names := (perm.map Field.name).nodup_iff.mpr settled.names
  catalogued field member := settled.catalogued field (perm.mem_iff.mp member)
  single a memberA b memberB := settled.single a (perm.mem_iff.mp memberA) b (perm.mem_iff.mp memberB)
  untied field member unnamed more other isOther :=
    settled.untied field (perm.mem_iff.mp member) unnamed more other (perm.mem_iff.mp isOther)

/-- Sorting undoes any order of settled fields. -/
theorem Settled.sameSiblings (settled : Settled lineage fields) (perm : others.Perm fields) :
    SameSiblings settings namespaces Entry.sorted? lineage fields others := by
  rw [SameSiblings, toOption_siblingEntries, toOption_siblingEntries]
  exact ((Rearranged.of_names settled.names perm).filter _).sorted?_collect
    ((settled.filter _).keyed settings namespaces)

end Settled

section StandardAlike

variable (settings : Settings) (namespaces : Namespaces)

structure StandardAlike (view : List Entry → Option (List Entry)) (lineage : Lineage) (fields others : List Field) : Prop where
  siblings : SameSiblings settings namespaces view lineage fields others
  mixed : areExtensions lineage fields = false
  mixed' : areExtensions lineage others = false
  found : (Catalog.lookup? lineage.path).isSome = true
  outside : lineage.isUnderIlmd = false

variable {settings namespaces} {lineage : Lineage} {fields others : List Field}

namespace StandardAlike

theorem isEmpty_of_mixed {fields : List Field} (mixed : areExtensions lineage fields = false) :
    fields.isEmpty = false := by
  cases fields with
  | nil => cases mixed
  | cons field fields => rfl

theorem sorted (alike : StandardAlike settings namespaces some lineage fields others) :
    StandardAlike settings namespaces Entry.sorted? lineage fields others :=
  { alike with siblings := alike.siblings.sorted }

theorem between (alike : StandardAlike settings namespaces some lineage fields others) (before after : List Field) :
    StandardAlike settings namespaces some lineage (before ++ (fields ++ after)) (before ++ (others ++ after)) where
  siblings := SameSiblings.append rfl (alike.siblings.append rfl)
  mixed := by
    rw [areExtensions_eq_all, List.all_append, List.all_append, ← areExtensions_eq_all lineage fields, alike.mixed,
      Bool.false_and, Bool.and_false]
  mixed' := by
    rw [areExtensions_eq_all, List.all_append, List.all_append, ← areExtensions_eq_all lineage others, alike.mixed',
      Bool.false_and, Bool.and_false]
  found := alike.found
  outside := alike.outside

theorem isStandard_of_lookup? {name : Option String}
    (found : (Catalog.lookup? (Lineage.path (name :: lineage))).isSome = true) : lineage.isStandard name = true := by
  rw [Lineage.isStandard, found, Bool.or_true]

theorem holdsOnlyExtensions_of_mixed {name : Option String} (value : Option String) {fields : List Field}
    (mixed : areExtensions (name :: lineage) fields = false) :
    holdsOnlyExtensions lineage ⟨name, value, fields⟩ = false := by
  rw [holdsOnlyExtensions, mixed, Bool.and_false]

theorem areExtensions_single {field : Field} (isStandard : lineage.isStandard field.name = true)
    (more : holdsOnlyExtensions lineage field = false) : areExtensions lineage [field] = false := by
  rw [areExtensions, isStandard, more]
  rfl

/-- A field of the catalog keeps its entry when those below it keep theirs once they are sorted. -/
theorem node {name : Option String} (value : Option String)
    (below : StandardAlike settings namespaces Entry.sorted? (name :: lineage) fields others) :
    StandardAlike settings namespaces some lineage [⟨name, value, fields⟩] [⟨name, value, others⟩] := by
  have above : lineage.isUnderIlmd = false := by
    have outside := below.outside
    rw [Lineage.isUnderIlmd, List.contains_cons, Bool.or_eq_false_iff] at outside
    exact outside.2
  have isStandard := isStandard_of_lookup? below.found
  have more := holdsOnlyExtensions_of_mixed value below.mixed
  have more' := holdsOnlyExtensions_of_mixed value below.mixed'
  have isEmpty := (isEmpty_of_mixed below.mixed).trans (isEmpty_of_mixed below.mixed').symm
  refine ⟨SameSiblings.single rfl ?_, areExtensions_single isStandard more, areExtensions_single isStandard more',
    isSome_lookup?_above below.found, above⟩
  exact below.siblings.siblingEntry_eq value isEmpty (regionOf_standard isStandard more above)
    (regionOf_standard isStandard more' above)

end StandardAlike

theorem Settled.alike (settled : Settled lineage fields) (perm : others.Perm fields) {field : Field}
    (member : field ∈ fields) (catalogued : field.IsCatalogued lineage) :
    StandardAlike settings namespaces Entry.sorted? lineage fields others where
  siblings := settled.sameSiblings settings namespaces perm
  mixed := catalogued.areExtensions member
  mixed' := catalogued.areExtensions (perm.mem_iff.mpr member)
  found := catalogued.lookup?_above
  outside := catalogued.isUnderIlmd

end StandardAlike

end EpcisDigest
