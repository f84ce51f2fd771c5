import EpcisDigest.Xml.Builder
import EpcisDigest.Proofs.Event.OfFields
import EpcisDigest.Proofs.NameTable
import EpcisDigest.Proofs.Xml.Document

namespace EpcisDigest.Xml

def declarations (attributes : List (String × String)) : List (String × String) :=
  attributes.filterMap fun declared => (Text.after? "xmlns:" declared.1).map fun lead => (lead, declared.2)

def opened (isEvent : Bool) : Nat → Nat
  | 0 => if isEvent then 1 else 0
  | depth + 1 => depth + 2

namespace Step

def declarations : Step → List (String × String)
  | .opening _ attributes _ => Xml.declarations attributes
  | _ => []

/-- How many elements of an event are open behind a step, and if the event closes with it. -/
def nesting (namespaces : Namespaces) (depth : Nat) : Step → Nat × Bool
  | .opening name _ isEmpty =>
    let depth := opened (isEventType (strippedName namespaces name)) depth
    if isEmpty then (depth - 1, depth == 1) else (depth, false)
  | .closing => (depth - 1, depth == 1)
  | .text _ => (depth, false)

end Step

def declaredBy (read : List Step) : Namespaces :=
  NameTable.ofList (read.flatMap Step.declarations)

def readingsFrom (read : List Step) (depth : Nat) : List Step → List (List Step)
  | [] => []
  | step :: steps =>
    let behind := step.nesting (declaredBy (read ++ [step])) depth
    (if behind.2 then [read ++ [step]] else []) ++ readingsFrom (read ++ [step]) behind.1 steps

def eventReadings (steps : List Step) : List (List Step) :=
  readingsFrom [] 0 steps

theorem readingsFrom_prefix {read given : List Step} {depth : Nat} {steps : List Step}
    (member : given ∈ readingsFrom read depth steps) : given <+: read ++ steps := by
  induction steps generalizing read depth with
  | nil => cases member
  | cons step steps ih =>
    rw [List.append_cons]
    rcases List.mem_append.mp member with closes | later
    · rw [List.mem_singleton.mp (List.mem_ite_nil_right.mp closes).2]
      exact List.prefix_append _ _
    · exact ih later

theorem get?_declaredBy (read : List Step) (lead : String) :
    (declaredBy read).get? lead = (read.flatMap Step.declarations).reverse.lookup lead := by
  rw [declaredBy, NameTable.ofList, NameTable.get?_foldl_insert]
  exact Option.or_none

theorem declare_eq (namespaces : Namespaces) (attributes : List (String × String)) :
    Builder.declare namespaces attributes =
      (declarations attributes).foldl (fun table binding => table.insert binding.1 binding.2) namespaces := by
  induction attributes generalizing namespaces with
  | nil => rfl
  | cons declared attributes ih =>
    rw [Builder.declare, List.foldl_cons]
    apply (ih _).trans
    rw [declarations, declarations, List.filterMap_cons]
    cases Text.after? "xmlns:" declared.1 <;> rfl

theorem declaredBy_opening (read : List Step) (name : String) (attributes : List (String × String)) (isEmpty : Bool) :
    declaredBy (read ++ [.opening name attributes isEmpty]) = Builder.declare (declaredBy read) attributes := by
  rw [declare_eq, declaredBy, declaredBy, NameTable.ofList, NameTable.ofList, List.flatMap_append, List.foldl_append,
    List.flatMap_singleton]
  rfl

theorem declaredBy_other {step : Step} (silent : step.declarations = []) (read : List Step) :
    declaredBy (read ++ [step]) = declaredBy read := by
  rw [declaredBy, declaredBy, List.flatMap_append, List.flatMap_singleton, silent, List.append_nil]

namespace Builder

structure Counts (namespaces : Namespaces) (depth : Nat) (builder : Builder) : Prop where
  namespaces : builder.namespaces = namespaces
  depth : builder.frames.length + builder.ignored = depth
  outside : builder.frames = [] → builder.ignored = 0

variable {settings : Settings} {namespaces : Namespaces} {depth : Nat} {builder after : Builder}

theorem openElement_counts (counts : builder.Counts namespaces depth) (name : String)
    (attributes : List (String × String)) :
    (builder.openElement settings name attributes).Counts (declare namespaces attributes)
      (opened (isEventType (strippedName (declare namespaces attributes) name)) depth) := by
  obtain ⟨rfl, rfl, outside⟩ := counts
  obtain ⟨namespaces, frames, deep, ignored⟩ := builder
  unfold openElement
  dsimp only at outside ⊢
  cases ignored with
  | succ ignored => exact ⟨rfl, rfl, fun none => absurd (outside none) (Nat.succ_ne_zero ignored)⟩
  | zero =>
    rw [if_neg (not_not.mpr rfl)]
    cases frames with
    | nil =>
      dsimp only [List.length_nil, opened]
      split
      · exact ⟨rfl, rfl, fun _ => rfl⟩
      · exact ⟨rfl, rfl, fun _ => rfl⟩
    | cons frame frames =>
      -- An excluded element has no frame: it is the first of the ignored ones.
      dsimp only
      split
      · exact ⟨rfl, rfl, fun none => absurd none (List.cons_ne_nil _ _)⟩
      · exact ⟨rfl, rfl, fun _ => rfl⟩

theorem closeElement_namespaces (builder : Builder) :
    builder.closeElement.2.namespaces = builder.namespaces ∧
      ∀ tree ∈ builder.closeElement.1, tree.namespaces = builder.namespaces := by
  unfold closeElement
  split
  · exact ⟨rfl, nofun⟩
  · split
    · exact ⟨rfl, nofun⟩
    · refine ⟨rfl, ?_⟩
      rintro tree ⟨⟩
      exact EventTree.namespaces_ofFields _ _
    · exact ⟨rfl, nofun⟩

theorem closeElement_counts (counts : builder.Counts namespaces depth) :
    builder.closeElement.2.Counts namespaces (depth - 1) ∧ builder.closeElement.1.isSome = (depth == 1) := by
  obtain ⟨rfl, rfl, outside⟩ := counts
  obtain ⟨namespaces, frames, deep, ignored⟩ := builder
  cases ignored with
  | succ ignored =>
    cases frames with
    | nil => exact absurd (outside rfl) (Nat.succ_ne_zero ignored)
    | cons frame frames =>
      refine ⟨⟨rfl, rfl, fun none => absurd none (List.cons_ne_nil _ _)⟩, ?_⟩
      have deeper : (frame :: frames).length + (ignored + 1) ≠ 1 := by
        rw [List.length_cons]
        omega
      exact (beq_eq_false_iff_ne.mpr deeper).symm
  | zero =>
    match frames with
    | [] => exact ⟨⟨rfl, rfl, fun _ => rfl⟩, rfl⟩
    | [_] => exact ⟨⟨rfl, rfl, fun _ => rfl⟩, rfl⟩
    | _ :: _ :: _ => exact ⟨⟨rfl, rfl, fun _ => rfl⟩, rfl⟩

theorem addText_counts (counts : builder.Counts namespaces depth) {text : String}
    (added : builder.addText text = .ok after) : after.Counts namespaces depth := by
  unfold addText at added
  split at added
  · split at added
    · cases added
      exact counts
    · cases added
  · split at added
    · rename_i isOpen heeded
      cases added
      exact ⟨counts.namespaces, by rw [← counts.depth, isOpen]; rfl, fun _ => heeded⟩
    · cases added
      exact counts

/-- What a step does is told by what has been read: the declarations make the table, and the nesting the events. -/
theorem step_counts {read : List Step} {step : Step} {tree : Option EventTree}
    (counts : builder.Counts (declaredBy read) depth) (stepped : builder.step settings step = .ok (tree, after)) :
    let table := declaredBy (read ++ [step])
    after.Counts table (step.nesting table depth).1 ∧ tree.isSome = (step.nesting table depth).2 ∧
      ∀ closed ∈ tree, closed.namespaces = table := by
  intro table
  cases step with
  | opening name attributes isEmpty =>
    have declared : table = declare (declaredBy read) attributes := declaredBy_opening read name attributes isEmpty
    have opened := @openElement_counts settings _ _ builder.deeper ⟨counts.namespaces, counts.depth, counts.outside⟩
      name attributes
    rw [← declared] at opened
    -- An empty element is closed by its own tag, behind its declarations.
    cases isEmpty with
    | true =>
      have shallow : (builder.deeper.openElement settings name attributes).shallower.Counts table _ :=
        ⟨opened.namespaces, opened.depth, opened.outside⟩
      obtain ⟨closed, isClosing⟩ := closeElement_counts shallow
      have tables := (closeElement_namespaces (builder.deeper.openElement settings name attributes).shallower).2
      simp only [Builder.step, ite_true, Except.ok.injEq] at stepped
      rw [stepped] at closed isClosing tables
      exact ⟨closed, isClosing, fun tree member => (tables tree member).trans shallow.namespaces⟩
    | false =>
      simp only [Builder.step, Bool.false_eq_true, ite_false, Except.ok.injEq, Prod.mk.injEq] at stepped
      obtain ⟨rfl, rfl⟩ := stepped
      exact ⟨opened, rfl, nofun⟩
  | closing =>
    have declared : table = declaredBy read := declaredBy_other rfl read
    have shallow : builder.shallower.Counts table depth :=
      ⟨counts.namespaces.trans declared.symm, counts.depth, counts.outside⟩
    obtain ⟨closed, isClosing⟩ := closeElement_counts shallow
    have tables := (closeElement_namespaces builder.shallower).2
    simp only [Builder.step, Except.ok.injEq] at stepped
    rw [stepped] at closed isClosing tables
    exact ⟨closed, isClosing, fun tree member => (tables tree member).trans shallow.namespaces⟩
  | text text =>
    have declared : table = declaredBy read := declaredBy_other rfl read
    simp only [Builder.step] at stepped
    cases added : builder.addText text with
    | error refusal =>
      rw [added] at stepped
      cases stepped
    | ok next =>
      rw [added] at stepped
      cases stepped
      exact ⟨declared ▸ addText_counts counts added, rfl, nofun⟩

theorem run_tables (settings : Settings) {read : List Step} (counts : builder.Counts (declaredBy read) depth)
    (steps : List Step) :
    let outcome := builder.run settings steps
    let tables := (readingsFrom read depth steps).map declaredBy
    outcome.1.map EventTree.namespaces <+: tables ∧
      (outcome.2.1 = none → outcome.1.map EventTree.namespaces = tables ∧
        outcome.2.2.namespaces = declaredBy (read ++ steps)) := by
  induction steps generalizing read depth builder with
  | nil => exact ⟨List.prefix_rfl, fun _ => ⟨rfl, by rw [List.append_nil]; exact counts.namespaces⟩⟩
  | cons step steps ih =>
    simp only [run]
    cases stepped : builder.step settings step with
    | error refusal => exact ⟨List.nil_prefix, fun accepted => absurd accepted (Option.some_ne_none refusal)⟩
    | ok result =>
      obtain ⟨tree, after⟩ := result
      obtain ⟨counts', isClosing, table⟩ := step_counts counts stepped
      obtain ⟨begun, ended⟩ := ih counts'
      have own : tree.toList.map EventTree.namespaces =
          (if (step.nesting (declaredBy (read ++ [step])) depth).2 then [read ++ [step]] else []).map declaredBy := by
        rw [← isClosing]
        cases tree with
        | none => rfl
        | some tree => exact congrArg (fun table => [table]) (table tree rfl)
      rw [readingsFrom, List.map_append, List.map_append, own]
      refine ⟨(List.prefix_append_right_inj _).mpr begun, fun accepted => ?_⟩
      obtain ⟨all, last⟩ := ended accepted
      exact ⟨congrArg _ all, last.trans (by rw [← List.append_cons])⟩

theorem counts_empty : empty.Counts (declaredBy []) 0 := ⟨rfl, rfl, fun _ => rfl⟩

end Builder

/-- In a document the events that are told by counting tags are its event elements. -/
theorem tables_of_document {steps : List Step} {content : List Content} (spells : Spells steps content)
    (blank : ∀ piece, Content.text piece ∈ content → Text.trim piece = "") :
    (eventReadings steps).map declaredBy = (Content.eventsOf NameTable.empty content).map fun event =>
      Content.boundOf event.namespaces event.content := by
  have whole : Builder.empty.run Settings.standard steps = _ :=
    run_document Settings.standard spells (fun _ => blank) NameTable.empty
  have tables := (Builder.run_tables Settings.standard Builder.counts_empty steps).2
  rw [whole] at tables
  refine ((tables rfl).1.symm.trans List.map_map).trans (List.map_congr_left fun event _ => ?_)
  exact EventTree.namespaces_ofFields _ _

end EpcisDigest.Xml
