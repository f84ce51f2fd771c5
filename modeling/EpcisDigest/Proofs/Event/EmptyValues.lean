import EpcisDigest.Event.Canonical

namespace EpcisDigest

def withoutEmpty (value : Option String) : Option String := value.filter (· != "")

mutual

/-- A field whose empty values, at all levels, are left out. -/
def Field.tidy : Field → Field
  | ⟨name, value, children⟩ => ⟨name, withoutEmpty value, Field.tidyAll children⟩

def Field.tidyAll : List Field → List Field
  | [] => []
  | field :: fields => field.tidy :: Field.tidyAll fields

end

open EpcisDigest.Field

theorem tidyAll_append (first others : List Field) : tidyAll (first ++ others) = tidyAll first ++ tidyAll others := by
  induction first with
  | nil => rfl
  | cons field first ih => rw [List.cons_append, tidyAll, tidyAll, ih, List.cons_append]

theorem isEmpty_tidyAll (fields : List Field) : (tidyAll fields).isEmpty = fields.isEmpty := by
  cases fields <;> rfl

theorem name_tidy (field : Field) : field.tidy.name = field.name := by
  cases field
  rfl

theorem withoutEmpty_cases (value : Option String) :
    withoutEmpty value = value ∨ value = some "" ∧ withoutEmpty value = none := by
  cases value with
  | none => exact Or.inl rfl
  | some text =>
    by_cases empty : text = ""
    · rw [empty]
      exact Or.inr ⟨rfl, rfl⟩
    · apply Or.inl
      rw [withoutEmpty, Option.filter_some, if_pos (bne_iff_ne.mpr empty)]

theorem getD_withoutEmpty (value : Option String) : (withoutEmpty value).getD "" = value.getD "" := by
  rcases withoutEmpty_cases value with same | ⟨rfl, absent⟩
  · rw [same]
  · rw [absent]
    rfl

theorem extensionText_withoutEmpty (namespaces : Namespaces) (name value : Option String) :
    extensionText namespaces name (withoutEmpty value) = extensionText namespaces name value := by
  rcases withoutEmpty_cases value with same | ⟨rfl, absent⟩
  · rw [same]
  · rw [absent]
    rfl

theorem line?_withoutEmpty (settings : Settings) (lineage : Lineage) (name value : Option String) :
    Leaf.line? settings lineage name (withoutEmpty value) = Leaf.line? settings lineage name value := by
  simp only [Leaf.line?, getD_withoutEmpty]

theorem hasChildren_tidy (field : Field) : field.tidy.hasChildren = field.hasChildren := by
  obtain ⟨name, value, children⟩ := field
  simp only [tidy, hasChildren, isEmpty_tidyAll]

mutual

theorem holdsOnlyExtensions_tidy :
    ∀ (field : Field) (lineage : Lineage), holdsOnlyExtensions lineage field.tidy = holdsOnlyExtensions lineage field
  | ⟨name, value, children⟩, lineage => by
    simp only [tidy, holdsOnlyExtensions, isEmpty_tidyAll, areExtensions_tidyAll children]

theorem areExtensions_tidyAll :
    ∀ (fields : List Field) (lineage : Lineage), areExtensions lineage (tidyAll fields) = areExtensions lineage fields
  | [], _ => rfl
  | field :: fields, lineage => by
    simp only [tidyAll, areExtensions, name_tidy, holdsOnlyExtensions_tidy field, areExtensions_tidyAll fields]

end

theorem regionOf_tidy (lineage : Lineage) (field : Field) : regionOf lineage field.tidy = regionOf lineage field := by
  rw [regionOf, regionOf, name_tidy, holdsOnlyExtensions_tidy]

section Canonical

variable (settings : Settings) (namespaces : Namespaces)

theorem extensionKey_tidy (field : Field) (lines : List String) :
    extensionKey namespaces field.tidy lines = extensionKey namespaces field lines := by
  obtain ⟨name, value, children⟩ := field
  simp only [tidy, extensionKey, extensionText_withoutEmpty]

mutual

theorem extensionLines_tidy :
    ∀ field : Field, extensionLines settings namespaces field.tidy = extensionLines settings namespaces field
  | ⟨name, value, children⟩ => by
    simp only [tidy, extensionLines, isEmpty_tidyAll, extensionText_withoutEmpty, extensionEntries_tidyAll children]

theorem extensionEntries_tidyAll :
    ∀ fields : List Field,
      extensionEntries settings namespaces (tidyAll fields) = extensionEntries settings namespaces fields
  | [] => rfl
  | field :: fields => by
    simp only [tidyAll, extensionEntries, name_tidy, extensionLines_tidy field, extensionKey_tidy, hasChildren_tidy,
      extensionEntries_tidyAll fields]

end

mutual

theorem standardLines_tidy :
    ∀ (field : Field) (lineage : Lineage),
      standardLines settings namespaces lineage field.tidy = standardLines settings namespaces lineage field
  | ⟨name, value, children⟩, lineage => by
    simp only [tidy, standardLines, isEmpty_tidyAll, line?_withoutEmpty, siblingEntries_tidyAll children]

theorem siblingEntries_tidyAll :
    ∀ (fields : List Field) (lineage : Lineage),
      siblingEntries settings namespaces lineage (tidyAll fields) = siblingEntries settings namespaces lineage fields
  | [], _ => rfl
  | field :: fields, lineage => by
    have others := siblingEntries_tidyAll fields lineage
    have own := standardLines_tidy field lineage
    have text : extensionText namespaces field.name field.tidy.value =
        extensionText namespaces field.name field.value := by
      obtain ⟨name, value, children⟩ := field
      exact extensionText_withoutEmpty namespaces name value
    simp only [tidyAll, siblingEntries, others, own, text, regionOf_tidy, extensionLines_tidy, extensionKey_tidy,
      hasChildren_tidy, name_tidy]

end

def isShown (field : Field) : Bool := !isExcluded settings field.name

theorem siblingEntries_filter (fields : List Field) (lineage : Lineage) :
    siblingEntries settings namespaces lineage (fields.filter (isShown settings)) =
      siblingEntries settings namespaces lineage fields := by
  induction fields with
  | nil => rfl
  | cons field fields ih =>
    cases excluded : isExcluded settings field.name with
    | true =>
      have hidden : isShown settings field ≠ true := by
        rw [isShown, excluded]
        decide
      rw [List.filter_cons_of_neg hidden, ih, siblingEntries, if_pos excluded]
    | false =>
      have shown : isShown settings field = true := by
        rw [isShown, excluded]
        rfl
      rw [List.filter_cons_of_pos shown, siblingEntries, siblingEntries, ih]

def shownFields (fields : List Field) : List Field := (tidyAll fields).filter (isShown settings)

theorem canonicalForm_shownFields (fields : List Field) :
    canonicalForm settings namespaces (shownFields settings fields) = canonicalForm settings namespaces fields := by
  rw [canonicalForm, canonicalForm, shownFields, siblingEntries_filter, siblingEntries_tidyAll]

end Canonical

end EpcisDigest
