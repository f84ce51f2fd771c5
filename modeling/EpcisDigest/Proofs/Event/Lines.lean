import EpcisDigest.Event.Canonical
import EpcisDigest.Proofs.Sort.Joining

namespace EpcisDigest

open Time (InvalidTimestamp)
open List

def ownLine? (settings : Settings) (namespaces : Namespaces) (lineage : Lineage) (inExtension hasChildren : Bool)
    (name value : Option String) : Except InvalidTimestamp (Option String) :=
  match hasChildren, inExtension with
  | false, false => Leaf.line? settings lineage name value
  | false, true => .ok (some (extensionText namespaces name value))
  | true, false => .ok (pathName? name)
  | true, true => .ok ((pathName? name).map (qualifiedName namespaces))

/-- A field where it stands. `inExtension` also holds below `ilmd`. -/
structure Place where
  lineage : Lineage
  field : Field
  inExtension : Bool

namespace Place

def line? (settings : Settings) (namespaces : Namespaces) (place : Place) :
    Except InvalidTimestamp (Option String) :=
  ownLine? settings namespaces place.lineage place.inExtension place.field.hasChildren place.field.name
    place.field.value

def text? (settings : Settings) (namespaces : Namespaces) (place : Place) : Option String :=
  match place.line? settings namespaces with
  | .ok line => line
  | .error _ => none

def siblings (settings : Settings) (namespaces : Namespaces) (place : Place) : Except CanonicalFault (List Entry) :=
  if place.inExtension then extensionEntries settings namespaces place.field.children
  else siblingEntries settings namespaces (place.field.name :: place.lineage) place.field.children

def Fails (settings : Settings) (namespaces : Namespaces) (place : Place) : CanonicalFault → Prop
  | .timestamp fault => place.line? settings namespaces = .error fault
  | .unsortable =>
    ∃ entries, place.siblings settings namespaces = .ok entries ∧ Entry.sort entries = .error .unsortable

end Place

mutual

def placesOf (settings : Settings) (inExtension : Bool) (lineage : Lineage) : Field → List Place
  | ⟨name, value, children⟩ =>
    if isExcluded settings name then []
    else
      let inside := inExtension || regionOf lineage ⟨name, value, children⟩ != .standard
      ⟨lineage, ⟨name, value, children⟩, inside⟩ :: placesIn settings inside (name :: lineage) children

def placesIn (settings : Settings) (inExtension : Bool) (lineage : Lineage) : List Field → List Place
  | [] => []
  | field :: fields => placesOf settings inExtension lineage field ++ placesIn settings inExtension lineage fields

end

def Rendered.lines (rendered : Rendered) : List String := rendered.placed ++ rendered.hoisted

theorem sort_eq_ok {entries sorted : List Entry} :
    Entry.sort entries = .ok sorted ↔ Sort.stable Entry.le entries = some sorted := by
  rw [Entry.sort]
  cases Sort.stable Entry.le entries with
  | none => simp only [reduceCtorEq]
  | some given => simp only [Except.ok.injEq, Option.some.injEq]

theorem sort_eq_error {entries : List Entry} {fault : CanonicalFault} :
    Entry.sort entries = .error fault ↔ fault = .unsortable ∧ Sort.stable Entry.le entries = none := by
  rw [Entry.sort]
  cases Sort.stable Entry.le entries with
  | none => simp only [Except.error.injEq, and_true, eq_comm]
  | some given => simp only [reduceCtorEq, and_false]

theorem sort_perm {entries sorted : List Entry} (given : Entry.sort entries = .ok sorted) : sorted ~ entries :=
  Sort.stable_perm (sort_eq_ok.mp given)

theorem exists_sorted {β : Type} {collected : Except CanonicalFault (List Entry)} {write : List Entry → β} {result : β}
    (written : (do
      let entries ← collected
      let sorted ← Entry.sort entries
      pure (write sorted)) = .ok result) :
    ∃ entries sorted, collected = .ok entries ∧ Entry.sort entries = .ok sorted ∧ result = write sorted := by
  cases collected with
  | error fault => cases written
  | ok entries =>
    change (Entry.sort entries).bind _ = _ at written
    cases given : Entry.sort entries with
    | error fault =>
      rw [given] at written
      cases written
    | ok sorted =>
      rw [given] at written
      cases written
      exact ⟨entries, sorted, rfl, given, rfl⟩

theorem arrange_perm (placement : Placement) (entries : List Entry) :
    (Entry.arrange placement entries).lines ~ entries.flatMap fun entry => entry.rendered.lines := by
  induction entries with
  | nil => exact Perm.refl _
  | cons entry entries ih =>
    have moved : ∀ own more : List String,
        (Entry.arrange placement entries).placed ++ (own ++ (more ++ (Entry.arrange placement entries).hoisted)) ~
          own ++ (more ++ (Entry.arrange placement entries).lines) := by
      intro own more
      have outer := perm_append_comm_assoc (Entry.arrange placement entries).placed own
        (more ++ (Entry.arrange placement entries).hoisted)
      have inner := perm_append_comm_assoc (Entry.arrange placement entries).placed more
        (Entry.arrange placement entries).hoisted
      exact outer.trans (inner.append_left own)
    have split : (Entry.arrange placement (entry :: entries)).lines ~
        entry.rendered.lines ++ (Entry.arrange placement entries).lines := by
      obtain ⟨rank, hasChildren, placed, hoisted⟩ := entry
      have kept : placed ++ (Entry.arrange placement entries).placed ++
          (hoisted ++ (Entry.arrange placement entries).hoisted) ~
          placed ++ hoisted ++ (Entry.arrange placement entries).lines := by
        rw [append_assoc, append_assoc]
        exact (perm_append_comm_assoc _ _ _).append_left placed
      have hoists : (Entry.arrange placement entries).placed ++
          (placed ++ hoisted ++ (Entry.arrange placement entries).hoisted) ~
          placed ++ hoisted ++ (Entry.arrange placement entries).lines := by
        rw [append_assoc, append_assoc]
        exact moved placed hoisted
      cases placement with
      | inline => exact kept
      | hoisted =>
        cases rank with
        | extension key => exact hoists
        | standard position => exact kept
        | ilmd key => exact kept
    rw [flatMap_cons]
    exact split.trans (ih.append_left _)

theorem placesOf_excluded (settings : Settings) (inExtension : Bool) (lineage : Lineage) {field : Field}
    (excluded : isExcluded settings field.name = true) : placesOf settings inExtension lineage field = [] := by
  cases field
  rw [placesOf, if_pos excluded]

section Rendering

variable (settings : Settings) (namespaces : Namespaces)

/-- Rendering gives the lines of all places, or one of them fails. -/
def Renders {α : Type} (result : Except CanonicalFault α) (lines : α → List String) (places : List Place) : Prop :=
  match result with
  | .ok a => (∀ place ∈ places, ∃ line, place.line? settings namespaces = .ok line) ∧
      lines a ~ places.filterMap (Place.text? settings namespaces)
  | .error fault => ∃ place ∈ places, place.Fails settings namespaces fault

variable {settings namespaces}

namespace Renders

theorem nothing {α : Type} {a : α} {lines : α → List String} (empty : lines a = []) :
    Renders settings namespaces (.ok a) lines [] :=
  ⟨(fun place member => by cases member), Perm.of_eq empty⟩

variable {part : Entry → List String}

theorem cons {α : Type} {result : Except CanonicalFault α} {lines : α → List String} {f : α → Entry}
    {entries : Except CanonicalFault (List Entry)} {first others : List Place}
    (one : Renders settings namespaces result lines first)
    (more : Renders settings namespaces entries (fun entries => entries.flatMap part) others)
    (same : ∀ a, part (f a) = lines a) :
    Renders settings namespaces
      (do
        let a ← result
        let entries ← entries
        pure (f a :: entries))
      (fun entries => entries.flatMap part) (first ++ others) := by
  cases result with
  | error e =>
    obtain ⟨place, member, fails⟩ := one
    exact ⟨place, mem_append_left _ member, fails⟩
  | ok a =>
    cases entries with
    | error e =>
      obtain ⟨place, member, fails⟩ := more
      exact ⟨place, mem_append_right _ member, fails⟩
    | ok entries =>
      obtain ⟨written, lines⟩ := one
      obtain ⟨written', lines'⟩ := more
      refine ⟨fun place member => ?_, ?_⟩
      · rcases mem_append.mp member with member | member
        · exact written place member
        · exact written' place member
      · rw [filterMap_append]
        have first : part (f a) ~ _ := (Perm.of_eq (same a)).trans lines
        exact first.append lines'

/-- A field with children has a line of its own and those of its sorted children. -/
theorem node {α : Type} (place : Place) {places : List Place} {own : Option String}
    (written : place.line? settings namespaces = .ok own)
    (below : Renders settings namespaces (place.siblings settings namespaces) (fun entries => entries.flatMap part)
      places)
    {f : List Entry → α} {lines : α → List String}
    (same : ∀ sorted, lines (f sorted) ~ own.toList ++ sorted.flatMap part) :
    Renders settings namespaces
      (do
        let entries ← place.siblings settings namespaces
        let sorted ← Entry.sort entries
        pure (f sorted))
      lines (place :: places) := by
  cases siblings : place.siblings settings namespaces with
  | error fault =>
    rw [siblings] at below
    obtain ⟨lower, member, fails⟩ := below
    exact ⟨lower, mem_cons_of_mem _ member, fails⟩
  | ok entries =>
    rw [siblings] at below
    obtain ⟨written', lines'⟩ := below
    change Renders settings namespaces (do let sorted ← Entry.sort entries; pure (f sorted)) lines (place :: places)
    cases sorting : Entry.sort entries with
    | error fault =>
      obtain ⟨rfl, _⟩ := sort_eq_error.mp sorting
      exact ⟨place, mem_cons_self, entries, siblings, sorting⟩
    | ok sorted =>
      have text : place.text? settings namespaces = own := by rw [Place.text?, written]
      have sortedLines := ((sort_perm sorting).flatMap_right part).trans lines'
      refine ⟨forall_mem_cons.mpr ⟨⟨own, written⟩, written'⟩, (same sorted).trans ?_⟩
      rw [filterMap_cons, text]
      cases own with
      | none => exact sortedLines
      | some line => exact sortedLines.cons line

end Renders

theorem renders_leaf {α : Type} (place : Place) {f : Option String → α} {lines : α → List String}
    (same : ∀ line, lines (f line) = line.toList) :
    Renders settings namespaces
      (do let line ← (place.line? settings namespaces).mapError .timestamp; pure (f line)) lines [place] := by
  cases own : place.line? settings namespaces with
  | error fault => exact ⟨place, mem_singleton_self _, own⟩
  | ok line =>
    have text : place.text? settings namespaces = line := by rw [Place.text?, own]
    refine ⟨fun other member => ⟨line, ?_⟩, ?_⟩
    · rw [mem_singleton.mp member, own]
    · rw [filterMap_cons, text]
      cases line <;> exact Perm.of_eq (same _)

mutual

theorem renders_extensionLines :
    ∀ (field : Field) (lineage : Lineage), isExcluded settings field.name = false →
      Renders settings namespaces (extensionLines settings namespaces field) id (placesOf settings true lineage field)
  | ⟨name, value, []⟩, lineage, shown => by
    rw [placesOf, if_neg (Bool.eq_false_iff.mp shown)]
    exact @renders_leaf settings namespaces _ ⟨lineage, ⟨name, value, []⟩, true⟩ Option.toList _ fun line => rfl
  | ⟨name, value, child :: children⟩, lineage, shown => by
    rw [placesOf, if_neg (Bool.eq_false_iff.mp shown)]
    have below := renders_extensionEntries (child :: children) (name :: lineage)
    exact Renders.node ⟨lineage, ⟨name, value, child :: children⟩, true⟩ rfl below fun sorted => Perm.refl _

theorem renders_extensionEntries :
    ∀ (fields : List Field) (lineage : Lineage),
      Renders settings namespaces (extensionEntries settings namespaces fields)
        (fun entries => entries.flatMap fun entry => entry.rendered.placed) (placesIn settings true lineage fields)
  | [], _ => Renders.nothing rfl
  | field :: fields, lineage => by
    have others := renders_extensionEntries fields lineage
    rw [placesIn, extensionEntries]
    by_cases excluded : isExcluded settings field.name = true
    · rw [if_pos excluded, placesOf_excluded settings true lineage excluded]
      exact others
    · rw [if_neg excluded]
      exact (renders_extensionLines field lineage (Bool.not_eq_true _ ▸ excluded)).cons others fun lines => rfl

end

theorem renders_entering {field : Field} {lineage : Lineage} (shown : isExcluded settings field.name = false)
    (region : regionOf lineage field ≠ .standard) :
    Renders settings namespaces (extensionLines settings namespaces field) id (placesOf settings false lineage field) := by
  have entered : placesOf settings false lineage field = placesOf settings true lineage field := by
    obtain ⟨name, value, children⟩ := field
    have inside : (regionOf lineage ⟨name, value, children⟩ != .standard) = true := bne_iff_ne.mpr region
    simp only [placesOf, inside, Bool.or_true]
  rw [entered]
  exact renders_extensionLines field lineage shown

mutual

theorem renders_standardLines :
    ∀ (field : Field) (lineage : Lineage), regionOf lineage field = .standard →
      isExcluded settings field.name = false →
      Renders settings namespaces (standardLines settings namespaces lineage field) Rendered.lines
        (placesOf settings false lineage field)
  | ⟨name, value, []⟩, lineage, standard, shown => by
    rw [placesOf, if_neg (Bool.eq_false_iff.mp shown), standard]
    exact @renders_leaf settings namespaces Rendered ⟨lineage, ⟨name, value, []⟩, false⟩
      (fun line => ⟨line.toList, []⟩) Rendered.lines fun line => append_nil line.toList
  | ⟨name, value, child :: children⟩, lineage, standard, shown => by
    rw [placesOf, if_neg (Bool.eq_false_iff.mp shown), standard]
    have below := renders_siblingEntries (child :: children) (name :: lineage)
    apply Renders.node ⟨lineage, ⟨name, value, child :: children⟩, false⟩ rfl below
    intro sorted
    have arranged := (arrange_perm settings.version.placement sorted).append_left (pathName? name).toList
    rw [Rendered.lines, ← append_assoc] at arranged
    exact arranged

theorem renders_siblingEntries :
    ∀ (fields : List Field) (lineage : Lineage),
      Renders settings namespaces (siblingEntries settings namespaces lineage fields)
        (fun entries => entries.flatMap fun entry => entry.rendered.lines)
        (placesIn settings false lineage fields)
  | [], _ => Renders.nothing rfl
  | field :: fields, lineage => by
    have others := renders_siblingEntries fields lineage
    rw [placesIn, siblingEntries]
    by_cases excluded : isExcluded settings field.name = true
    · rw [if_pos excluded, placesOf_excluded settings false lineage excluded]
      exact others
    · have shown : isExcluded settings field.name = false := Bool.not_eq_true _ ▸ excluded
      rw [if_neg excluded]
      cases region : regionOf lineage field with
      | extension =>
        exact (renders_entering shown (by rw [region]; decide)).cons others fun lines => append_nil lines
      | ilmd =>
        exact (renders_entering shown (by rw [region]; decide)).cons others fun lines => append_nil lines
      | standard => exact (renders_standardLines field lineage region shown).cons others fun rendered => rfl

end

def cleaned (lines : List String) : List String := (lines.map withoutLineEnds).filter (· != "")

def eventPlace (fields : List Field) : Place := ⟨[], ⟨none, none, fields⟩, false⟩

theorem standardLines_of_siblings {lineage : Lineage} {name : Option String} (value : Option String)
    {children : List Field} {entries : List Entry} (parent : children.isEmpty = false)
    (collected : siblingEntries settings namespaces (name :: lineage) children = .ok entries) :
    standardLines settings namespaces lineage ⟨name, value, children⟩ = (Entry.sort entries).map fun sorted =>
      ⟨(pathName? name).toList ++ (Entry.arrange settings.version.placement sorted).placed,
        (Entry.arrange settings.version.placement sorted).hoisted⟩ := by
  rw [standardLines, parent, collected]
  change Entry.sort entries >>= _ = _
  cases Entry.sort entries <;> rfl

theorem canonicalForm_of_siblings {fields : List Field} {entries : List Entry}
    (collected : siblingEntries settings namespaces [none] fields = .ok entries) :
    canonicalForm settings namespaces fields =
      (Entry.sort entries).map fun sorted => ⟨cleaned (Entry.arrange settings.version.placement sorted).lines⟩ := by
  rw [canonicalForm, collected]
  change Entry.sort entries >>= _ = _
  cases Entry.sort entries <;> rfl

theorem canonicalForm_places (fields : List Field) :
    match canonicalForm settings namespaces fields with
    | .ok form =>
      (∀ place ∈ placesIn settings false [none] fields, ∃ line, place.line? settings namespaces = .ok line) ∧
        form.lines ~ cleaned ((placesIn settings false [none] fields).filterMap (Place.text? settings namespaces))
    | .error (.timestamp fault) =>
      ∃ place ∈ placesIn settings false [none] fields, place.line? settings namespaces = .error fault
    | .error .unsortable =>
      ∃ place ∈ eventPlace fields :: placesIn settings false [none] fields,
        place.Fails settings namespaces .unsortable := by
  have rendered : Renders settings namespaces (siblingEntries settings namespaces [none] fields) _ _ :=
    renders_siblingEntries fields [none]
  cases collected : siblingEntries settings namespaces [none] fields with
  | error fault =>
    rw [collected] at rendered
    rw [canonicalForm, collected]
    cases fault with
    | timestamp fault => exact rendered
    | unsortable =>
      obtain ⟨place, member, fails⟩ := rendered
      exact ⟨place, mem_cons_of_mem _ member, fails⟩
  | ok entries =>
    rw [collected] at rendered
    obtain ⟨written, lines⟩ := rendered
    rw [canonicalForm_of_siblings collected]
    cases sorting : Entry.sort entries with
    | error fault =>
      obtain ⟨rfl, _⟩ := sort_eq_error.mp sorting
      exact ⟨_, mem_cons_self, entries, collected, sorting⟩
    | ok sorted =>
      have arranged := ((arrange_perm settings.version.placement sorted).trans
        ((sort_perm sorting).flatMap_right fun entry => entry.rendered.lines)).trans lines
      exact ⟨written, (arranged.map withoutLineEnds).filter _⟩

end Rendering

end EpcisDigest
