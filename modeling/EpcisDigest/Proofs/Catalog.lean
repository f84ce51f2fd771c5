import EpcisDigest.Catalog
import Mathlib.Data.List.Induction

namespace EpcisDigest

namespace CatalogField

mutual

def all (p : String → Bool) : CatalogField → Bool
  | .field name children => p name && allOf p children

def allOf (p : String → Bool) : List CatalogField → Bool
  | [] => true
  | first :: others => first.all p && allOf p others

end

theorem all_of_mem {p : String → Bool} {fields : List CatalogField} (every : allOf p fields = true)
    {field : CatalogField} (member : field ∈ fields) : p field.name = true ∧ allOf p field.children = true := by
  induction fields with
  | nil => cases member
  | cons first fields ih =>
    rw [allOf, Bool.and_eq_true] at every
    rcases List.mem_cons.mp member with rfl | member
    · obtain ⟨name, children⟩ := field
      rw [all, Bool.and_eq_true] at every
      exact every.1
    · exact ih every.2 member

mutual

def paths : CatalogField → List (List String)
  | .field name children => [name] :: (pathsOf children).map (name :: ·)

def pathsOf : List CatalogField → List (List String)
  | [] => []
  | first :: others => first.paths ++ pathsOf others

end

theorem mem_pathsOf {fields : List CatalogField} {field : CatalogField} {path : List String} (member : field ∈ fields)
    (inside : path ∈ field.paths) : path ∈ pathsOf fields := by
  induction fields with
  | nil => cases member
  | cons first fields ih =>
    rw [pathsOf]
    rcases List.mem_cons.mp member with rfl | member
    · exact List.mem_append_left _ inside
    · exact List.mem_append_right _ (ih member)

end CatalogField

namespace Catalog

open CatalogField

theorem exists_field_of_child? {place child : Place} {name : String} (found : place.child? name = some child) :
    ∃ field ∈ place.below, field.name = name ∧ child.below = field.children := by
  simp only [Place.child?, Option.bind_eq_bind, Option.bind_eq_some_iff, Option.pure_def, Option.some.injEq] at found
  obtain ⟨position, index, field, present, rfl⟩ := found
  obtain ⟨inside, named, _⟩ := List.findIdx?_eq_some_iff_getElem.mp index
  rw [List.getElem?_eq_getElem inside, Option.some.injEq] at present
  exact ⟨field, present ▸ List.getElem_mem inside, present ▸ beq_iff_eq.mp named, rfl⟩

theorem mem_pathsOf_of_isSome {place : Place} {path : List String}
    (found : (path.foldlM Place.child? place).isSome = true) : path = [] ∨ path ∈ pathsOf place.below := by
  induction path generalizing place with
  | nil => exact .inl rfl
  | cons name path ih =>
    rw [List.foldlM_cons] at found
    cases child : place.child? name with
    | none =>
      rw [child] at found
      cases found
    | some lower =>
      rw [child] at found
      obtain ⟨⟨_, children⟩, member, rfl, below⟩ := exists_field_of_child? child
      right
      apply mem_pathsOf member
      rw [paths]
      rcases ih found with rfl | inside
      · exact List.mem_cons_self
      · rw [below] at inside
        exact List.mem_cons_of_mem _ (List.mem_map_of_mem inside)

theorem mem_pathsOf_event {path : List String} (found : (lookup? path).isSome = true) :
    path = [] ∨ path ∈ pathsOf event :=
  mem_pathsOf_of_isSome found

theorem child?_injective {place : Place} {x y : String} {a b : Place} (foundX : place.child? x = some a)
    (foundY : place.child? y = some b) (same : a.position = b.position) : x = y := by
  simp only [Place.child?, Option.bind_eq_bind, Option.bind_eq_some_iff, Option.pure_def, Option.some.injEq]
    at foundX foundY
  obtain ⟨i, indexX, fieldX, _, rfl⟩ := foundX
  obtain ⟨j, indexY, fieldY, _, rfl⟩ := foundY
  obtain ⟨inX, nameX, _⟩ := List.findIdx?_eq_some_iff_getElem.mp indexX
  obtain ⟨inY, nameY, _⟩ := List.findIdx?_eq_some_iff_getElem.mp indexY
  cases same
  exact (beq_iff_eq.mp nameX).symm.trans (beq_iff_eq.mp nameY)

theorem lookup?_append (path : List String) (name : String) :
    lookup? (path ++ [name]) = (lookup? path).bind fun place => place.child? name := by
  simp only [lookup?, List.foldlM_append, List.foldlM_cons, List.foldlM_nil, bind_pure]
  rfl

theorem position?_injective {path : List String} {x y : String} (isField : (lookup? (path ++ [x])).isSome = true)
    (same : position? (path ++ [x]) = position? (path ++ [y])) : x = y := by
  have notRoot : ∀ name, path ++ [name] ≠ [] := by simp
  rw [position?, position?, if_neg (notRoot x), if_neg (notRoot y), lookup?_append, lookup?_append] at same
  rw [lookup?_append] at isField
  cases above : lookup? path with
  | none =>
    rw [above] at isField
    cases isField
  | some place =>
    rw [above] at isField same
    dsimp only [Option.bind] at isField same
    cases foundX : place.child? x with
    | none =>
      rw [foundX] at isField
      cases isField
    | some a =>
      cases foundY : place.child? y with
      | none =>
        rw [foundX, foundY] at same
        cases same
      | some b =>
        rw [foundX, foundY] at same
        exact child?_injective foundX foundY (Option.some.inj same)

theorem allOf_child? {p : String → Bool} {place child : Place} {name : String}
    (every : allOf p place.below = true) (found : place.child? name = some child) :
    p name = true ∧ allOf p child.below = true := by
  obtain ⟨field, member, rfl, below⟩ := exists_field_of_child? found
  rw [below]
  exact all_of_mem every member

theorem allOf_lookup? {p : String → Bool} (every : allOf p event = true) {path : List String} {place : Place}
    (found : lookup? path = some place) : allOf p place.below = true := by
  induction path using List.reverseRecOn generalizing place with
  | nil =>
    cases found
    exact every
  | append_singleton path name ih =>
    rw [lookup?_append, Option.bind_eq_some_iff] at found
    obtain ⟨above, lead, child⟩ := found
    exact (allOf_child? (ih lead) child).2

theorem holds_of_lookup? {p : String → Bool} (every : allOf p event = true) {path : List String} {name : String}
    (found : (lookup? (path ++ [name])).isSome = true) : p name = true := by
  obtain ⟨place, found⟩ := Option.isSome_iff_exists.mp found
  rw [lookup?_append, Option.bind_eq_some_iff] at found
  obtain ⟨above, lead, child⟩ := found
  exact (allOf_child? (allOf_lookup? every lead) child).1

theorem isSome_lookup?_of_append {path : List String} {name : String}
    (found : (lookup? (path ++ [name])).isSome = true) : (lookup? path).isSome = true := by
  rw [lookup?_append] at found
  exact Option.isSome_of_isSome_bind found

/-- Nothing below `ilmd` is in the catalog. -/
theorem not_below_ilmd {path : List String} {name : String} (found : (lookup? (path ++ [name])).isSome = true) :
    "ilmd" ∉ path := by
  have every : ∀ path ∈ pathsOf event, "ilmd" ∉ path.dropLast := by decide +kernel
  rcases mem_pathsOf_event found with none | member
  · simp at none
  · have outside := every _ member
    rwa [List.dropLast_concat] at outside

/-- Fields at the position that the field around them has among its own siblings, behind the name of this field. -/
def sharedPositions : List (String × String) :=
  [("quantityElement", "epcClass"), ("sensorElement", "sensorMetadata"), ("sensorMetadata", "time"),
    ("sensorReport", "exception")]

theorem position?_eq_above_iff {path : List String} {name : String}
    (found : (lookup? (path ++ [name])).isSome = true) :
    position? (path ++ [name]) = position? path ↔
      ∃ around ∈ path.getLast?, (around, name) ∈ sharedPositions := by
  have every : ∀ path ∈ pathsOf event, (position? path = position? path.dropLast) =
      ∃ around ∈ path.dropLast.getLast?, ∃ name ∈ path.getLast?, (around, name) ∈ sharedPositions := by
    simp only [eq_iff_iff]
    decide +kernel
  rcases mem_pathsOf_event found with none | member
  · simp at none
  · have own := every _ member
    rw [List.dropLast_concat, List.getLast?_concat] at own
    simpa using own

end Catalog

end EpcisDigest
