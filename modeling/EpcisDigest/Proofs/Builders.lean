import EpcisDigest.Json.EventFields
import EpcisDigest.Proofs.Event.Admitted
import EpcisDigest.Xml.Builder

namespace EpcisDigest

def Settings.Keeps (settings : Settings) (name : String) : Prop := settings.isExcluded name = false

variable {settings : Settings}

namespace Json

theorem unlessExcluded_admitted {name : String} {fields : List Field}
    (admitted : settings.Keeps name → AllAdmitted settings.Keeps fields) :
    AllAdmitted settings.Keeps (unlessExcluded settings name fields) := by
  unfold unlessExcluded
  split
  · exact allAdmitted_nil
  · rename_i kept
    exact admitted (Bool.eq_false_iff.mpr kept)

theorem enclose_admitted {name : String} {fields : List Field} (style : ListStyle) (kept : settings.Keeps name)
    (admitted : AllAdmitted settings.Keeps fields) : AllAdmitted settings.Keeps (style.enclose name fields) := by
  cases style with
  | repeated => exact admitted
  | named entry => exact (Field.Admitted.node kept admitted).single
  | unnamed => exact (Field.Admitted.node kept admitted).single

mutual

theorem memberFields_admitted (settings : Settings) (name : String) :
    ∀ value, AllAdmitted settings.Keeps (memberFields settings name value)
  | .object members => by
    rw [memberFields]
    exact unlessExcluded_admitted fun kept => (Field.Admitted.node kept (objectFields_admitted settings members)).single
  | .array items => by
    rw [memberFields]
    exact unlessExcluded_admitted fun kept =>
      enclose_admitted _ kept (itemFields_admitted settings _ name kept items)
  | .null => by
    rw [memberFields]
    exact unlessExcluded_admitted fun kept => (Field.Admitted.node kept allAdmitted_nil).single
  | .string text => by
    rw [memberFields]
    exact unlessExcluded_admitted fun kept => (Field.Admitted.leaf text kept).single
  | .number literal => by
    rw [memberFields]
    exact unlessExcluded_admitted fun kept => (Field.Admitted.leaf literal kept).single
  | .bool true => by
    rw [memberFields]
    exact unlessExcluded_admitted fun kept => (Field.Admitted.leaf "true" kept).single
  | .bool false => by
    rw [memberFields]
    exact unlessExcluded_admitted fun kept => (Field.Admitted.leaf "false" kept).single

theorem objectFields_admitted (settings : Settings) :
    ∀ members, AllAdmitted settings.Keeps (objectFields settings members)
  | [] => by
    rw [objectFields]
    exact allAdmitted_nil
  | (name, value) :: members => by
    rw [objectFields]
    exact (memberFields_admitted settings name value).append (objectFields_admitted settings members)

theorem itemFields_admitted (settings : Settings) (style : ListStyle) (name : String) (kept : settings.Keeps name) :
    ∀ items, AllAdmitted settings.Keeps (itemFields settings style name items)
  | [] => by
    rw [itemFields]
    exact allAdmitted_nil
  | item :: items => by
    have others := itemFields_admitted settings style name kept items
    unfold itemFields
    refine AllAdmitted.append ?_ others
    split
    · exact memberFields_admitted settings _ item
    · exact (Field.Admitted.wrapper (objectFields_admitted settings _)).single
    · exact (Field.Admitted.wrapper (enclose_admitted _ kept (itemFields_admitted settings _ name kept _))).single
    · exact memberFields_admitted settings name item

end

end Json

namespace Xml

def Opening.Kept (settings : Settings) : Opening → Prop
  | .node name => settings.Keeps name
  | .value name => settings.Keeps name
  | .entry name => settings.Keeps name
  | _ => True

structure Frame.Kept (settings : Settings) (frame : Frame) : Prop where
  opening : frame.opening.Kept settings
  admitted : AllAdmitted settings.Keeps frame.fields

/-- The fields of an event: the type, which comes from the element, then what else is added. -/
def Seeded (settings : Settings) (fields : List Field) : Prop :=
  ∃ name others, isEventType name = true ∧ fields = Field.leaf "type" name :: others ∧
    AllAdmitted settings.Keeps others

/-- The open elements inside an event are kept ones, and only the event itself has the type in addition. -/
inductive Stacked (settings : Settings) : List Frame → Prop where
  | event {frame : Frame} (seeded : Seeded settings frame.fields) : Stacked settings [frame]
  | inside {frame outer : Frame} {frames : List Frame} (kept : frame.Kept settings)
      (below : Stacked settings (outer :: frames)) : Stacked settings (frame :: outer :: frames)

theorem fields_add (frame : Frame) (fields : List Field) : (frame.add fields).fields = frame.fields ++ fields := by
  simp only [Frame.add, Frame.fields, List.reverse_append, List.reverse_reverse]

theorem Seeded.append {fields others : List Field} (seeded : Seeded settings fields)
    (admitted : AllAdmitted settings.Keeps others) : Seeded settings (fields ++ others) := by
  obtain ⟨name, kept, isType, rfl, first⟩ := seeded
  exact ⟨name, kept ++ others, isType, rfl, first.append admitted⟩

theorem Frame.Kept.add {frame : Frame} {fields : List Field} (kept : frame.Kept settings)
    (admitted : AllAdmitted settings.Keeps fields) : (frame.add fields).Kept settings where
  opening := kept.opening
  admitted := by
    rw [fields_add]
    exact kept.admitted.append admitted

theorem Stacked.replace {frame other : Frame} {frames : List Frame} (stacked : Stacked settings (frame :: frames))
    (kept : frame.Kept settings → other.Kept settings)
    (seeded : Seeded settings frame.fields → Seeded settings other.fields) : Stacked settings (other :: frames) := by
  cases stacked with
  | event first => exact .event (seeded first)
  | inside first below => exact .inside (kept first) below

theorem Stacked.cons {frame : Frame} {frames : List Frame} (stacked : Stacked settings frames)
    (kept : frame.Kept settings) : Stacked settings (frame :: frames) := by
  cases stacked with
  | event seeded => exact .inside kept (.event seeded)
  | inside first below => exact .inside kept (.inside first below)

theorem attributeFields_admitted (namespaces : Namespaces) (attributes : List (String × String)) :
    AllAdmitted settings.Keeps (Builder.attributeFields settings namespaces attributes) := by
  intro field member
  obtain ⟨declared, -, made⟩ := List.mem_filterMap.mp member
  dsimp only at made
  split at made
  · cases made
  · rename_i passed
    cases made
    simp only [Bool.or_eq_true, not_or] at passed
    exact .leaf declared.2 (Bool.eq_false_iff.mpr passed.2)

theorem frameIn_kept (namespaces : Namespaces) (host : String) {name : String} (kept : settings.Keeps name)
    (attributes : List (String × String)) : (Builder.frameIn settings namespaces host name attributes).Kept settings := by
  have admitted := @attributeFields_admitted settings namespaces attributes
  unfold Builder.frameIn
  dsimp only
  split
  · exact ⟨trivial, allAdmitted_nil⟩
  · split
    · exact ⟨kept, allAdmitted_nil⟩
    · split
      · exact Frame.Kept.add ⟨kept, allAdmitted_nil⟩ admitted
      · exact Frame.Kept.add ⟨kept, allAdmitted_nil⟩ admitted

theorem closedFields_admitted {frame : Frame} (kept : frame.Kept settings) :
    AllAdmitted settings.Keeps (Builder.closedFields frame) := by
  obtain ⟨opening, admitted⟩ := kept
  have late : ∀ {name text}, settings.Keeps name →
      AllAdmitted settings.Keeps (frame.fields ++ [Field.leaf name text]) := by
    intro name text isKept
    exact admitted.append (Field.Admitted.leaf text isKept).single
  unfold Builder.closedFields
  dsimp only
  split
  · exact allAdmitted_nil
  · exact admitted
  · rename_i isOpening
    rw [isOpening] at opening
    exact late opening
  · rename_i isOpening
    rw [isOpening] at opening
    exact (Field.Admitted.wrapper (late opening)).single
  · rename_i isOpening
    rw [isOpening] at opening
    split
    · exact (Field.Admitted.node opening admitted).single
    · split
      · exact (Field.Admitted.leaf _ opening).single
      · exact (Field.Admitted.node opening (late opening)).single

namespace Builder

def Kept (settings : Settings) (builder : Builder) : Prop :=
  builder.frames = [] ∨ Stacked settings builder.frames

theorem openElement_kept {builder : Builder} (kept : builder.Kept settings) (name : String)
    (attributes : List (String × String)) : (builder.openElement settings name attributes).Kept settings := by
  unfold openElement
  dsimp only
  split
  · exact kept
  · split
    · rename_i none
      split
      · rename_i isType
        exact .inr (.event ⟨_, [], isType, rfl, allAdmitted_nil⟩)
      · exact kept
    · rename_i frame frames isOpen
      split
      · exact kept
      · rename_i passed
        have stacked : Stacked settings builder.frames := kept.resolve_left (by rw [isOpen]; exact List.cons_ne_nil _ _)
        exact .inr (stacked.cons (frameIn_kept _ _ (Bool.eq_false_iff.mpr passed) attributes))

def SeededTree (settings : Settings) (tree : EventTree) : Prop :=
  ∃ namespaces fields, tree = EventTree.ofFields namespaces fields ∧ Seeded settings fields

theorem closeElement_kept {builder : Builder} (kept : builder.Kept settings) :
    builder.closeElement.2.Kept settings ∧ ∀ tree ∈ builder.closeElement.1, SeededTree settings tree := by
  unfold closeElement
  split
  · exact ⟨kept, fun tree member => by cases member⟩
  · split
    · exact ⟨kept, fun tree member => by cases member⟩
    · rename_i frame isOpen
      have stacked := kept.resolve_left (by rw [isOpen]; exact List.cons_ne_nil _ _)
      rw [isOpen] at stacked
      cases stacked with
      | event seeded =>
        refine ⟨.inl rfl, ?_⟩
        intro tree member
        cases member
        exact ⟨builder.namespaces, frame.fields, rfl, seeded⟩
    · rename_i frame outer frames isOpen
      have stacked := kept.resolve_left (by rw [isOpen]; exact List.cons_ne_nil _ _)
      rw [isOpen] at stacked
      cases stacked with
      | inside first below =>
        have closed := closedFields_admitted first
        refine ⟨.inr (below.replace (fun kept => kept.add closed) fun seeded => ?_), fun tree member => by cases member⟩
        rw [fields_add]
        exact seeded.append closed

theorem addText_kept {builder after : Builder} (kept : builder.Kept settings) {text : String}
    (added : builder.addText text = .ok after) : after.Kept settings := by
  unfold addText at added
  split at added
  · split at added
    · cases added
      exact kept
    · cases added
  · split at added
    · rename_i frame frames isOpen _
      have stacked := kept.resolve_left (by rw [isOpen]; exact List.cons_ne_nil _ _)
      rw [isOpen] at stacked
      cases added
      exact .inr (stacked.replace (fun kept => ⟨kept.opening, kept.admitted⟩) id)
    · cases added
      exact kept

theorem step_kept {builder after : Builder} (kept : builder.Kept settings) {step : Step} {tree : Option EventTree}
    (stepped : builder.step settings step = .ok (tree, after)) :
    after.Kept settings ∧ ∀ closed ∈ tree, SeededTree settings closed := by
  cases step with
  | opening name attributes isEmpty =>
    have opened := @openElement_kept settings builder.deeper kept name attributes
    cases isEmpty with
    | true =>
      have closed := @closeElement_kept settings (builder.deeper.openElement settings name attributes).shallower opened
      simp only [Builder.step, ite_true, Except.ok.injEq] at stepped
      rw [stepped] at closed
      exact closed
    | false =>
      simp only [Builder.step, Bool.false_eq_true, ite_false, Except.ok.injEq, Prod.mk.injEq] at stepped
      obtain ⟨rfl, rfl⟩ := stepped
      exact ⟨opened, fun closed member => by cases member⟩
  | closing =>
    have closed := @closeElement_kept settings builder.shallower kept
    simp only [Builder.step, Except.ok.injEq] at stepped
    rw [stepped] at closed
    exact closed
  | text text =>
    simp only [Builder.step] at stepped
    cases added : builder.addText text with
    | error refusal =>
      rw [added] at stepped
      cases stepped
    | ok next =>
      rw [added] at stepped
      cases stepped
      exact ⟨addText_kept kept added, fun closed member => by cases member⟩

theorem run_seeded {builder : Builder} (kept : builder.Kept settings) (steps : List Step) :
    ∀ tree ∈ (builder.run settings steps).1, SeededTree settings tree := by
  induction steps generalizing builder with
  | nil =>
    intro tree member
    cases member
  | cons step steps ih =>
    simp only [run]
    split
    · intro tree member
      cases member
    · rename_i tree after stepped
      obtain ⟨keptAfter, closed⟩ := step_kept kept stepped
      intro other member
      rcases List.mem_append.mp member with member | member
      · exact closed other (Option.mem_toList.mp member)
      · exact ih keptAfter other member

end Builder

theorem mem_run_of_mem_eventTrees {source : Source} {tree : EventTree}
    (member : .ok tree ∈ (eventTrees settings source).1) :
    tree ∈ (Builder.empty.run settings (steps source).1).1 := by
  unfold eventTrees at member
  dsimp only at member
  rcases List.mem_append.mp member with made | refused
  · obtain ⟨other, present, same⟩ := List.mem_map.mp made
    cases same
    exact present
  · obtain ⟨error, -, same⟩ := Option.map_eq_some_iff.mp (Option.mem_toList.mp refused)
    cases same

end Xml

structure EventTree.Seeded (settings : Settings) (tree : EventTree) : Prop where
  wellShaped : tree.WellShaped
  allows : tree.Allows settings.Keeps (some 1)
  below : tree.parent? 1 = some 0
  seed : ∃ name, isEventType name = true ∧ tree.field 1 = Field.leaf "type" name

theorem Xml.Builder.SeededTree.seeded {tree : EventTree} (made : Xml.Builder.SeededTree settings tree) :
    tree.Seeded settings := by
  obtain ⟨namespaces, fields, rfl, name, others, isType, rfl, admitted⟩ := made
  have shaped : AllAdmitted (fun _ => True) (Field.leaf "type" name :: others) :=
    AllAdmitted.cons (.leaf name trivial) fun field member => (admitted field member).mono fun _ _ => trivial
  obtain ⟨allows, below, seed⟩ := @EventTree.seeded_ofFields _ namespaces _ "type" name admitted
  exact ⟨EventTree.wellShaped_ofFields shaped, allows, below, name, isType, seed⟩

/-- Both builders make trees in which a node has a value or children but not both, a value has a name,
    and no name is excluded, apart from that of the type of an event that is read from elements. -/
theorem builders_respect_model (settings : Settings) :
    (∀ namespaces event tree, Json.eventTree settings namespaces event = .ok tree →
      tree.WellShaped ∧ tree.Allows settings.Keeps none) ∧
    (∀ steps, ∀ tree ∈ (Xml.Builder.empty.run settings steps).1, tree.Seeded settings) ∧
    ∀ source tree, .ok tree ∈ (Xml.eventTrees settings source).1 → tree.Seeded settings := by
  refine ⟨?_, ?_, ?_⟩
  · intro namespaces event tree built
    cases event with
    | object members =>
      have admitted := Json.objectFields_admitted settings members
      cases built
      exact ⟨EventTree.wellShaped_ofFields admitted, EventTree.allows_ofFields admitted⟩
    | _ => cases built
  · intro steps tree member
    exact (Xml.Builder.run_seeded (.inl rfl) steps tree member).seeded
  · intro source tree member
    exact (Xml.Builder.run_seeded (.inl rfl) _ tree (Xml.mem_run_of_mem_eventTrees member)).seeded

theorem builders_respect_model_typeless :
    let settings : Settings := { Settings.standard with excluded := NameSet.ofNames ["type"] }
    let fields := [Field.leaf "type" "ObjectEvent", Field.leaf "action" "ADD"]
    let member := EventTree.ofFields NameTable.empty fields.tail
    let element := EventTree.ofFields NameTable.empty fields
    let source : Source := ⟨Text.bytesOf "<ObjectEvent><action type='x'>ADD</action></ObjectEvent>", none⟩
    Json.eventTree settings NameTable.empty (.object [("type", .string "ObjectEvent"), ("action", .string "ADD")]) =
      .ok member ∧ member.WellShaped ∧ member.Allows settings.Keeps none ∧
    element ∈ (Xml.Builder.empty.run settings (Xml.steps source).1).1 ∧
    .ok element ∈ (Xml.eventTrees settings source).1 ∧ element.Seeded settings ∧
    settings.isExcluded "type" = true := by
  intro settings fields member element source
  have json : Json.eventTree settings NameTable.empty
      (.object [("type", .string "ObjectEvent"), ("action", .string "ADD")]) = .ok member := by decide +kernel
  have built : (Xml.Builder.empty.run settings (Xml.steps source).1).1 = [element] := by decide +kernel
  have made : element ∈ (Xml.Builder.empty.run settings (Xml.steps source).1).1 := by
    rw [built]
    exact List.mem_cons_self
  have read : .ok element ∈ (Xml.eventTrees settings source).1 := by
    simp only [Xml.eventTrees, built, List.map_cons, List.cons_append, List.mem_cons, true_or]
  obtain ⟨ofJson, -, ofSource⟩ := builders_respect_model settings
  obtain ⟨shaped, allows⟩ := ofJson _ _ _ json
  exact ⟨json, shaped, allows, made, read, ofSource source element read, by decide +kernel⟩

end EpcisDigest
