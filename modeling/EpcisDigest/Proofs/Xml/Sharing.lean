import EpcisDigest.Proofs.Xml.Declared

namespace EpcisDigest.Xml

/-- A builder whose events share their table: that of the last event is kept until a prefix is bound. -/
structure Sharing where
  builder : Builder
  shared : Option Namespaces

namespace Sharing

def empty : Sharing := ⟨Builder.empty, none⟩

def keptBehind (shared : Option Namespaces) (attributes : List (String × String)) : Option Namespaces :=
  attributes.foldl
    (fun shared declared =>
      match Text.after? "xmlns:" declared.1 with
      | some _ => none
      | none => shared)
    shared

def openElement (settings : Settings) (sharing : Sharing) (name : String) (attributes : List (String × String)) :
    Sharing :=
  ⟨sharing.builder.openElement settings name attributes, keptBehind sharing.shared attributes⟩

def closeElement (sharing : Sharing) : Option EventTree × Sharing :=
  match sharing.builder.closeElement with
  | (none, builder) => (none, ⟨builder, sharing.shared⟩)
  | (some tree, builder) =>
    let table := sharing.shared.getD builder.namespaces
    (some (tree.setNamespaces table), ⟨builder, some table⟩)

def deeper (sharing : Sharing) : Sharing := { sharing with builder := sharing.builder.deeper }

def shallower (sharing : Sharing) : Sharing := { sharing with builder := sharing.builder.shallower }

def step (settings : Settings) (sharing : Sharing) : Step → Except Refusal (Option EventTree × Sharing)
  | .opening name attributes isEmpty =>
    let opened := sharing.deeper.openElement settings name attributes
    .ok (if isEmpty then opened.shallower.closeElement else (none, opened))
  | .closing => .ok sharing.shallower.closeElement
  | .text text => (sharing.builder.addText text).map fun builder => (none, ⟨builder, sharing.shared⟩)

def run (settings : Settings) (sharing : Sharing) : List Step → List EventTree × Option Refusal × Sharing
  | [] => ([], none, sharing)
  | step :: steps =>
    match sharing.step settings step with
    | .error refusal => ([], some refusal, sharing)
    | .ok (tree, sharing) =>
      let (trees, outcome) := run settings sharing steps
      (tree.toList ++ trees, outcome)

def Current (sharing : Sharing) : Prop :=
  ∀ table ∈ sharing.shared, table = sharing.builder.namespaces

def plain (result : Option EventTree × Sharing) : Option EventTree × Builder :=
  (result.1, result.2.builder)

variable {settings : Settings} {sharing : Sharing}

theorem declare_of_keptBehind {table : Namespaces} {shared : Option Namespaces} {attributes : List (String × String)}
    (kept : keptBehind shared attributes = some table) (namespaces : Namespaces) :
    shared = some table ∧ Builder.declare namespaces attributes = namespaces := by
  induction attributes generalizing shared with
  | nil => exact ⟨kept, rfl⟩
  | cons declared attributes ih =>
    rw [keptBehind, List.foldl_cons] at kept
    rw [Builder.declare, List.foldl_cons]
    cases binds : Text.after? "xmlns:" declared.1 with
    | none =>
      rw [binds] at kept
      exact ih kept
    | some lead =>
      rw [binds] at kept
      cases (ih kept).1

theorem namespaces_openElement (builder : Builder) (name : String) (attributes : List (String × String)) :
    (builder.openElement settings name attributes).namespaces = Builder.declare builder.namespaces attributes := by
  unfold Builder.openElement
  dsimp only
  split
  · rfl
  · split
    · split <;> rfl
    · split <;> rfl

theorem namespaces_addText {builder after : Builder} {text : String} (added : builder.addText text = .ok after) :
    after.namespaces = builder.namespaces := by
  unfold Builder.addText at added
  split at added
  · split at added
    · cases added
      rfl
    · cases added
  · split at added
    · cases added
      rfl
    · cases added
      rfl

theorem openElement_current (current : sharing.Current) (name : String) (attributes : List (String × String)) :
    (sharing.openElement settings name attributes).Current := by
  intro table kept
  obtain ⟨shared, unchanged⟩ := declare_of_keptBehind kept sharing.builder.namespaces
  exact (current table shared).trans ((namespaces_openElement sharing.builder name attributes).trans unchanged).symm

theorem setNamespaces_self {tree : EventTree} {table : Namespaces} (own : tree.namespaces = table) :
    tree.setNamespaces table = tree := by
  rw [← own]
  rfl

/-- Where a kept table is the current one, it makes no difference that it is kept. -/
theorem closeElement_current (current : sharing.Current) :
    plain sharing.closeElement = sharing.builder.closeElement ∧ sharing.closeElement.2.Current := by
  obtain ⟨kept, table⟩ := Builder.closeElement_namespaces sharing.builder
  rw [closeElement]
  cases closed : sharing.builder.closeElement with
  | mk tree builder =>
    rw [closed] at kept table
    cases tree with
    | none => exact ⟨rfl, fun table shared => (current table shared).trans kept.symm⟩
    | some tree =>
      -- Closing declares nothing, so what was the current table before is still the current one.
      have same : sharing.shared.getD builder.namespaces = builder.namespaces := by
        cases shared : sharing.shared with
        | none => rfl
        | some table => exact (current table shared).trans kept.symm
      have own : tree.namespaces = sharing.shared.getD builder.namespaces :=
        (table tree rfl).trans (kept.symm.trans same.symm)
      refine ⟨?_, ?_⟩
      · dsimp only [plain]
        rw [setNamespaces_self own]
      · rintro table ⟨⟩
        exact same

theorem step_current (settings : Settings) (current : sharing.Current) (step : Step) :
    (sharing.step settings step).map plain = sharing.builder.step settings step ∧
      ∀ result, sharing.step settings step = .ok result → result.2.Current := by
  cases step with
  | opening name attributes isEmpty =>
    have deep : sharing.deeper.Current := current
    have opened : (sharing.deeper.openElement settings name attributes).Current :=
      openElement_current deep name attributes
    cases isEmpty with
    | true =>
      have shallow : (sharing.deeper.openElement settings name attributes).shallower.Current := opened
      obtain ⟨same, kept⟩ := closeElement_current shallow
      refine ⟨congrArg Except.ok same, ?_⟩
      rintro result ⟨⟩
      exact kept
    | false =>
      refine ⟨rfl, ?_⟩
      rintro result ⟨⟩
      exact opened
  | closing =>
    have shallow : sharing.shallower.Current := current
    obtain ⟨same, kept⟩ := closeElement_current shallow
    refine ⟨congrArg Except.ok same, ?_⟩
    rintro result ⟨⟩
    exact kept
  | text text =>
    simp only [step, Builder.step]
    cases added : sharing.builder.addText text with
    | error refusal =>
      refine ⟨rfl, ?_⟩
      rintro result ⟨⟩
    | ok builder =>
      refine ⟨rfl, ?_⟩
      rintro result ⟨⟩ table kept
      exact (current table kept).trans (namespaces_addText added).symm

/-- A reading that keeps tables is the one that makes a new table for every event. -/
theorem run_current (settings : Settings) (current : sharing.Current) (steps : List Step) :
    let outcome := sharing.run settings steps
    (outcome.1, outcome.2.1, outcome.2.2.builder) = sharing.builder.run settings steps ∧ outcome.2.2.Current := by
  induction steps generalizing sharing with
  | nil => exact ⟨rfl, current⟩
  | cons step steps ih =>
    obtain ⟨same, kept⟩ := step_current settings current step
    simp only [run, Builder.run, ← same]
    cases stepped : sharing.step settings step with
    | error refusal => exact ⟨rfl, current⟩
    | ok result =>
      obtain ⟨whole, last⟩ := ih (kept result stepped)
      dsimp only [Except.map, plain]
      rw [← whole]
      exact ⟨rfl, last⟩

end Sharing

theorem toOption_eventTrees (settings : Settings) (source : Source) :
    (eventTrees settings source).1.filterMap Except.toOption =
      (Builder.empty.run settings (Xml.steps source).1).1 := by
  rw [eventTrees]
  dsimp only
  have refused : ∀ ending : Option ReadError,
      (ending.map (Except.error : ReadError → Except ReadError EventTree)).toList.filterMap Except.toOption = [] := by
    intro ending
    cases ending <;> rfl
  rw [List.filterMap_append, refused, List.append_nil, List.filterMap_map]
  exact List.filterMap_some

/-- Whatever the steps are, the table of an event binds each prefix as the last declaration up to its closing tag does.
    It may be kept for the next event: a table that is kept is the current one, and the trees are the same. -/
theorem tables_current (settings : Settings) (steps : List Step) :
    let outcome := Sharing.empty.run settings steps
    ((outcome.1, outcome.2.1, outcome.2.2.builder) = Builder.empty.run settings steps ∧
      ∀ source, (Xml.steps source).1 = steps →
        (eventTrees settings source).1.filterMap Except.toOption = outcome.1) ∧
    outcome.2.2.Current ∧
    (outcome.1.map EventTree.namespaces <+: (eventReadings steps).map declaredBy ∧
      (outcome.2.1 = none → outcome.1.map EventTree.namespaces = (eventReadings steps).map declaredBy ∧
        outcome.2.2.builder.namespaces = declaredBy steps)) ∧
    (∀ read ∈ eventReadings steps, read <+: steps) ∧
    ∀ read lead, (declaredBy read).get? lead = (read.flatMap Step.declarations).reverse.lookup lead := by
  intro outcome
  have nothing : Sharing.empty.Current := nofun
  obtain ⟨same, current⟩ := Sharing.run_current settings nothing steps
  have tables := Builder.run_tables settings Builder.counts_empty steps
  have builder : Sharing.empty.builder = Builder.empty := rfl
  rw [builder] at same
  rw [← same] at tables
  refine ⟨⟨same, ?_⟩, current, tables, ?_, get?_declaredBy⟩
  · rintro source rfl
    rw [toOption_eventTrees, ← same]
  · exact fun read member => readingsFrom_prefix member

def redeclaringSteps : List Step :=
  [.opening "list" [("xmlns:x", "urn:a")] false, .opening "ObjectEvent" [] true, .opening "ObjectEvent" [] true,
    .opening "note" [("xmlns:x", "urn:b")] true, .opening "ObjectEvent" [] false,
    .opening "eventID" [("xmlns:y", "urn:c")] true, .closing, .closing]

theorem tables_current_redeclaring :
    let outcome := Sharing.empty.run Settings.standard redeclaringSteps
    let source := Source.whole (Text.bytesOf ("<list xmlns:x='urn:a'><ObjectEvent/><ObjectEvent/>" ++
      "<note xmlns:x='urn:b'/><ObjectEvent><eventID xmlns:y='urn:c'/></ObjectEvent></list>"))
    let first := NameTable.ofList [("x", "urn:a")]
    let last := NameTable.ofList [("x", "urn:b"), ("y", "urn:c")]
    ((Xml.steps source).1 = redeclaringSteps ∧
      (eventTrees Settings.standard source).1.filterMap Except.toOption = outcome.1) ∧
    (outcome.2.1 = none ∧ outcome.1.map EventTree.namespaces = [first, first, last]) ∧
    (last ∈ outcome.2.2.shared ∧ last = outcome.2.2.builder.namespaces) ∧
    (redeclaringSteps.take 2 ∈ eventReadings redeclaringSteps ∧ redeclaringSteps.take 2 <+: redeclaringSteps) := by
  intro outcome source first last
  have read : (Xml.steps source).1 = redeclaringSteps := by decide +kernel
  have accepted : outcome.2.1 = none := by decide +kernel
  have kept : last ∈ outcome.2.2.shared := by decide +kernel
  have given : redeclaringSteps.take 2 ∈ eventReadings redeclaringSteps := by decide +kernel
  obtain ⟨⟨-, trees⟩, current, ⟨-, tables⟩, within, -⟩ := tables_current Settings.standard redeclaringSteps
  exact ⟨⟨read, trees source read⟩, ⟨accepted, (tables accepted).1.trans (by decide +kernel)⟩,
    ⟨kept, current last kept⟩, given, within _ given⟩

end EpcisDigest.Xml
