import EpcisDigest.Proofs.Xml.Content
import Mathlib.Logic.Relation

namespace EpcisDigest.Xml

open Content

inductive Spells : List Step → List Content → Prop where
  | nil : Spells [] []
  | text {steps : List Step} {content : List Content} (piece : String) (others : Spells steps content) :
      Spells (.text piece :: steps) (.text piece :: content)
  | empty {steps : List Step} {content : List Content} (name : String) (attributes : List (String × String))
      (others : Spells steps content) :
      Spells (.opening name attributes true :: steps) (.element name attributes [] :: content)
  | element {inner steps : List Step} {inside content : List Content} (name : String)
      (attributes : List (String × String)) (within : Spells inner inside) (others : Spells steps content) :
      Spells (.opening name attributes false :: (inner ++ .closing :: steps)) (.element name attributes inside :: content)

namespace Content

mutual

/-- The namespaces behind an element: a prefix stays bound when the element that binds it ends. -/
def bound (namespaces : Namespaces) : Content → Namespaces
  | .text _ => namespaces
  | .element _ attributes content => boundOf (Builder.declare namespaces attributes) content

def boundOf (namespaces : Namespaces) : List Content → Namespaces
  | [] => namespaces
  | part :: content => boundOf (part.bound namespaces) content

end

section Recursion

variable (settings : Settings)

mutual

/-- The fields that an element inside an event gives to the one around it, the field of which is called
    `host`. -/
def elementFields (namespaces : Namespaces) (host : String) : Content → List Field
  | .text _ => []
  | .element name attributes content =>
    let namespaces := Builder.declare namespaces attributes
    let name := strippedName namespaces name
    let kept := Builder.attributeFields settings namespaces attributes
    let text := Text.trim (textOf content)
    if settings.isExcluded name then []
    else if isSynthetic name then contentFields namespaces host content
    else if isValueList host then contentFields namespaces host content ++ [Field.leaf name text]
    else if unnamedEntryLists.contains host then
      [Field.wrapper (kept ++ contentFields namespaces "" content ++ [Field.leaf name text])]
    else if text = "" then [Field.node name (kept ++ contentFields namespaces name content)]
    else if (kept ++ contentFields namespaces name content).isEmpty then [Field.leaf name text]
    else [Field.node name (kept ++ contentFields namespaces name content ++ [Field.leaf name text])]

def contentFields (namespaces : Namespaces) (host : String) : List Content → List Field
  | [] => []
  | part :: content => part.elementFields namespaces host ++ contentFields (part.bound namespaces) host content

end

end Recursion

end Content

structure EventElement where
  namespaces : Namespaces
  type : String
  content : List Content

def EventElement.tree (settings : Settings) (event : EventElement) : EventTree :=
  EventTree.ofFields (boundOf event.namespaces event.content)
    (Field.leaf "type" event.type :: contentFields settings event.namespaces "" event.content)

namespace Content

mutual

def events (namespaces : Namespaces) : Content → List EventElement
  | .text _ => []
  | .element name attributes content =>
    let namespaces := Builder.declare namespaces attributes
    let name := strippedName namespaces name
    if isEventType name then [⟨namespaces, name, content⟩] else eventsOf namespaces content

def eventsOf (namespaces : Namespaces) : List Content → List EventElement
  | [] => []
  | part :: content => part.events namespaces ++ eventsOf (part.bound namespaces) content

end

end Content

namespace Frame

def gain (frame : Frame) (text : String) (fields : List Field) : Frame :=
  Frame.add { frame with text := frame.text ++ text } fields

theorem gain_nil (frame : Frame) : frame.gain "" [] = frame := by
  simp [gain, add]

theorem gain_empty (frame : Frame) (fields : List Field) : frame.gain "" fields = frame.add fields := by
  simp [gain]

theorem gain_gain (frame : Frame) (text more : String) (fields others : List Field) :
    (frame.gain text fields).gain more others = frame.gain (text ++ more) (fields ++ others) := by
  simp [gain, add, String.append_assoc]

theorem host_gain (frame : Frame) (text : String) (fields : List Field) : (frame.gain text fields).host = frame.host :=
  rfl

theorem fields_gain (frame : Frame) (text : String) (fields : List Field) :
    (frame.gain text fields).fields = frame.fields ++ fields := by
  simp [gain, add, Frame.fields]

end Frame

section Running

variable (settings : Settings)

theorem closedFields_gain (namespaces : Namespaces) (host name : String) (attributes : List (String × String))
    (text : String) (inside : String → List Field) :
    let frame := Builder.frameIn settings namespaces host name attributes
    let kept := Builder.attributeFields settings namespaces attributes
    Builder.closedFields (frame.gain text (inside frame.host)) =
      if isSynthetic name then inside host
      else if isValueList host then inside host ++ [Field.leaf name (Text.trim text)]
      else if unnamedEntryLists.contains host then
        [Field.wrapper (kept ++ inside "" ++ [Field.leaf name (Text.trim text)])]
      else if Text.trim text = "" then [Field.node name (kept ++ inside name)]
      else if (kept ++ inside name).isEmpty then [Field.leaf name (Text.trim text)]
      else [Field.node name (kept ++ inside name ++ [Field.leaf name (Text.trim text)])] := by
  intro frame kept
  by_cases synthetic : isSynthetic name = true
  · have framed : frame = ⟨.transparent, host, "", []⟩ := by
      simp only [frame, Builder.frameIn, if_pos synthetic]
    rw [framed, if_pos synthetic]
    simp [Builder.closedFields, Frame.gain, Frame.add, Frame.fields]
  · rw [if_neg synthetic]
    by_cases valueList : isValueList host = true
    · have framed : frame = ⟨.value name, host, "", []⟩ := by
        simp only [frame, Builder.frameIn, if_neg synthetic, if_pos valueList]
      rw [framed, if_pos valueList]
      simp [Builder.closedFields, Frame.gain, Frame.add, Frame.fields]
    · rw [if_neg valueList]
      by_cases pairList : unnamedEntryLists.contains host = true
      · have framed : frame = Frame.add ⟨.entry name, "", "", []⟩ kept := by
          simp only [frame, Builder.frameIn, if_neg synthetic, if_neg valueList, if_pos pairList, kept]
        rw [framed, if_pos pairList]
        simp [Builder.closedFields, Frame.gain, Frame.add, Frame.fields]
      · have framed : frame = Frame.add ⟨.node name, name, "", []⟩ kept := by
          simp only [frame, Builder.frameIn, if_neg synthetic, if_neg valueList, if_neg pairList, kept]
        rw [framed, if_neg pairList]
        simp [Builder.closedFields, Frame.gain, Frame.add, Frame.fields]

theorem elementFields_eq (namespaces : Namespaces) (host name : String) (attributes : List (String × String))
    (content : List Content) :
    let declared := Builder.declare namespaces attributes
    let frame := Builder.frameIn settings declared host (strippedName declared name) attributes
    (Content.element name attributes content).elementFields settings namespaces host =
      if settings.isExcluded (strippedName declared name) then []
      else Builder.closedFields (frame.gain (textOf content) (contentFields settings declared frame.host content)) := by
  intro declared frame
  have closed := closedFields_gain settings declared host (strippedName declared name) attributes (textOf content)
    fun host => contentFields settings declared host content
  dsimp only at closed
  rw [closed, elementFields]

theorem run_cons_congr {steps others : List Step}
    (same : ∀ builder : Builder, builder.run settings steps = builder.run settings others) (builder : Builder)
    (step : Step) : builder.run settings (step :: steps) = builder.run settings (step :: others) := by
  rw [Builder.run, Builder.run]
  cases builder.step settings step with
  | error refusal => rfl
  | ok result => simp only [same]

theorem run_append_congr {steps others : List Step}
    (same : ∀ builder : Builder, builder.run settings steps = builder.run settings others) (before : List Step)
    (builder : Builder) : builder.run settings (before ++ steps) = builder.run settings (before ++ others) := by
  induction before generalizing builder with
  | nil => exact same builder
  | cons step before ih => exact run_cons_congr settings ih builder step

theorem run_spelled {steps : List Step} {content : List Content} (spells : Spells steps content) (builder : Builder)
    (rest : List Step) : builder.run settings (steps ++ rest) = builder.run settings (stepsOf content ++ rest) := by
  induction spells generalizing builder rest with
  | nil => rfl
  | text piece others ih => exact run_cons_congr settings (fun builder => ih builder rest) builder (.text piece)
  | empty name attributes others ih =>
    have closed := run_cons_congr settings (fun builder => ih builder rest)
    exact run_cons_congr settings (fun builder => closed builder .closing) builder (.opening name attributes false)
  | element name attributes within others ihWithin ih =>
    rw [stepsOf, Content.steps, List.cons_append, List.cons_append, List.cons_append, List.append_assoc,
      List.append_assoc, List.append_assoc]
    apply run_cons_congr
    intro builder
    rw [ihWithin builder]
    exact run_append_congr settings (run_cons_congr settings (fun builder => ih builder rest) · .closing) _ builder

/-- Documents between which lie only changes that make no difference to the reading give the same, however their
    empty elements are written. -/
theorem run_of_eqvGen {change : List Content → List Content → Prop}
    (unseen : ∀ content content', change content content' →
      Builder.empty.run settings (stepsOf content) = Builder.empty.run settings (stepsOf content'))
    {steps steps' : List Step} {content content' : List Content} (same : Relation.EqvGen change content content')
    (spells : Spells steps content) (spells' : Spells steps' content') :
    Builder.empty.run settings steps = Builder.empty.run settings steps' := by
  have written := run_spelled settings spells Builder.empty []
  have written' := run_spelled settings spells' Builder.empty []
  rw [List.append_nil, List.append_nil] at written written'
  rw [written, written']
  clear spells spells' written written'
  induction same with
  | rel content content' changed => exact unseen content content' changed
  | refl content => rfl
  | symm content content' _ ih => exact ih.symm
  | trans content middle content' _ _ first second => exact first.trans second

theorem run_step {builder after : Builder} {step : Step} (steps : List Step)
    (continues : builder.step settings step = .ok (none, after)) :
    builder.run settings (step :: steps) = after.run settings steps := by
  rw [Builder.run, continues]
  rfl

mutual

/-- Of an excluded element only the prefixes are looked at. -/
theorem run_ignored (frames : List Frame) : ∀ (part : Content) (namespaces : Namespaces) (depth ignored : Nat)
    (rest : List Step), Builder.run settings ⟨namespaces, frames, depth + 1, ignored + 1⟩ (part.steps ++ rest) =
      Builder.run settings ⟨part.bound namespaces, frames, depth + 1, ignored + 1⟩ rest
  | .text piece, namespaces, depth, ignored, rest => by
    apply run_step
    cases frames <;> rfl
  | .element name attributes content, namespaces, depth, ignored, rest => by
    have opened : Builder.step settings ⟨namespaces, frames, depth + 1, ignored + 1⟩ (.opening name attributes false) =
        .ok (none, ⟨Builder.declare namespaces attributes, frames, depth + 1 + 1, ignored + 1 + 1⟩) := rfl
    have inside := run_allIgnored frames content (Builder.declare namespaces attributes) (depth + 1) (ignored + 1)
      (.closing :: rest)
    rw [Content.steps, List.cons_append, List.append_assoc, run_step settings _ opened, bound]
    apply inside.trans
    apply run_step
    rfl

theorem run_allIgnored (frames : List Frame) : ∀ (content : List Content) (namespaces : Namespaces)
    (depth ignored : Nat) (rest : List Step),
    Builder.run settings ⟨namespaces, frames, depth + 1, ignored + 1⟩ (stepsOf content ++ rest) =
      Builder.run settings ⟨boundOf namespaces content, frames, depth + 1, ignored + 1⟩ rest
  | [], _, _, _, _ => rfl
  | part :: content, namespaces, depth, ignored, rest => by
    rw [stepsOf, List.append_assoc, run_ignored frames part namespaces depth ignored,
      run_allIgnored frames content (part.bound namespaces) depth ignored, boundOf]

end

theorem step_inside (namespaces : Namespaces) (frame : Frame) (frames : List Frame) (depth : Nat) (name : String)
    (attributes : List (String × String)) :
    let declared := Builder.declare namespaces attributes
    let opened := Builder.frameIn settings declared frame.host (strippedName declared name) attributes
    Builder.step settings ⟨namespaces, frame :: frames, depth, 0⟩ (.opening name attributes false) =
      .ok (none,
        if settings.isExcluded (strippedName declared name) then ⟨declared, frame :: frames, depth + 1, 1⟩
        else ⟨declared, opened :: frame :: frames, depth + 1, 0⟩) := by
  rw [Builder.step, Builder.openElement]
  rfl

mutual

/-- Inside an event an element gives its fields to the one around it. -/
theorem run_part : ∀ (part : Content) (namespaces : Namespaces) (frame : Frame) (frames : List Frame) (depth : Nat)
    (rest : List Step), Builder.run settings ⟨namespaces, frame :: frames, depth + 1, 0⟩ (part.steps ++ rest) =
      Builder.run settings ⟨part.bound namespaces,
        frame.gain (textOf [part]) (part.elementFields settings namespaces frame.host) :: frames, depth + 1, 0⟩ rest
  | .text piece, namespaces, frame, frames, depth, rest => by
    apply run_step
    simp [Builder.step, Builder.addText, Frame.gain, Frame.add, textOf, elementFields, bound, Except.map]
  | .element name attributes content, namespaces, frame, frames, depth, rest => by
    have opened := step_inside settings namespaces frame frames (depth + 1) name attributes
    have given := elementFields_eq settings namespaces frame.host name attributes content
    dsimp only at opened given
    have textless : textOf [Content.element name attributes content] = "" := rfl
    rw [Content.steps, List.cons_append, List.append_assoc, run_step settings _ opened, bound, given, textless,
      Frame.gain_empty]
    by_cases excluded : settings.isExcluded (strippedName (Builder.declare namespaces attributes) name) = true
    · have inside := run_allIgnored settings (frame :: frames) content (Builder.declare namespaces attributes)
        (depth + 1) 0 (.closing :: rest)
      rw [if_pos excluded, if_pos excluded]
      apply inside.trans
      apply run_step
      rfl
    · have inside := run_content content (Builder.declare namespaces attributes)
        (Builder.frameIn settings (Builder.declare namespaces attributes) frame.host
          (strippedName (Builder.declare namespaces attributes) name) attributes)
        (frame :: frames) (depth + 1) (.closing :: rest)
      rw [if_neg excluded, if_neg excluded]
      apply inside.trans
      apply run_step
      rfl

theorem run_content : ∀ (content : List Content) (namespaces : Namespaces) (frame : Frame) (frames : List Frame)
    (depth : Nat) (rest : List Step),
    Builder.run settings ⟨namespaces, frame :: frames, depth + 1, 0⟩ (stepsOf content ++ rest) =
      Builder.run settings ⟨boundOf namespaces content,
        frame.gain (textOf content) (contentFields settings namespaces frame.host content) :: frames, depth + 1, 0⟩ rest
  | [], namespaces, frame, frames, depth, rest => by
    rw [textOf, contentFields, Frame.gain_nil]
    rfl
  | part :: content, namespaces, frame, frames, depth, rest => by
    have text : textOf (part :: content) = textOf [part] ++ textOf content := textOf_append [part] content
    rw [stepsOf, List.append_assoc, run_part part namespaces frame frames depth, run_content content, Frame.host_gain,
      Frame.gain_gain, text, contentFields, boundOf]

end

theorem run_closing {builder after : Builder} {tree : Option EventTree} (rest : List Step)
    (closes : builder.shallower.closeElement = (tree, after)) :
    builder.run settings (.closing :: rest) =
      (tree.toList ++ (after.run settings rest).1, (after.run settings rest).2) := by
  rw [Builder.run, Builder.step, closes]

theorem close_event (namespaces : Namespaces) (frame : Frame) (depth : Nat) :
    (Builder.shallower ⟨namespaces, [frame], depth + 1, 0⟩).closeElement =
      (some (EventTree.ofFields namespaces frame.fields), ⟨namespaces, [], depth, 0⟩) :=
  rfl

theorem close_outside (namespaces : Namespaces) (depth : Nat) :
    (Builder.shallower ⟨namespaces, [], depth + 1, 0⟩).closeElement = (none, ⟨namespaces, [], depth, 0⟩) :=
  rfl

def followedBy (events : List EventElement) (outcome : List EventTree × Option Refusal × Builder) :
    List EventTree × Option Refusal × Builder :=
  (events.map (EventElement.tree settings) ++ outcome.1, outcome.2)

theorem followedBy_append (events others : List EventElement) (outcome : List EventTree × Option Refusal × Builder) :
    followedBy settings events (followedBy settings others outcome) =
      followedBy settings (events ++ others) outcome := by
  simp [followedBy]

theorem step_outside (namespaces : Namespaces) (depth : Nat) (name : String) (attributes : List (String × String)) :
    let declared := Builder.declare namespaces attributes
    let type := strippedName declared name
    Builder.step settings ⟨namespaces, [], depth, 0⟩ (.opening name attributes false) =
      .ok (none,
        if isEventType type then ⟨declared, [⟨.event, "", "", [Field.leaf "type" type]⟩], depth + 1, 0⟩
        else ⟨declared, [], depth + 1, 0⟩) := by
  rw [Builder.step, Builder.openElement]
  rfl

theorem run_outerText (namespaces : Namespaces) (depth : Nat) (piece : String) (rest : List Step) :
    Builder.run settings ⟨namespaces, [], depth, 0⟩ (.text piece :: rest) =
      if depth = 0 ∧ Text.trim piece ≠ "" then ([], some .textOutside, ⟨namespaces, [], depth, 0⟩)
      else Builder.run settings ⟨namespaces, [], depth, 0⟩ rest := by
  rw [Builder.run, Builder.step, Builder.addText]
  by_cases outside : depth = 0
  · by_cases blank : Text.trim piece = ""
    · simp [outside, blank, Except.map]
    · simp [outside, blank, Except.map]
  · simp [outside, Except.map]

def BlankAt (depth : Nat) (content : List Content) : Prop :=
  depth = 0 → ∀ piece, Content.text piece ∈ content → Text.trim piece = ""

theorem BlankAt.inside (depth : Nat) (content : List Content) : BlankAt (depth + 1) content :=
  fun outside => absurd outside (Nat.succ_ne_zero depth)

mutual

theorem run_outer : ∀ (part : Content) (namespaces : Namespaces) (depth : Nat) (rest : List Step),
    BlankAt depth [part] → Builder.run settings ⟨namespaces, [], depth, 0⟩ (part.steps ++ rest) =
      followedBy settings (part.events namespaces)
        (Builder.run settings ⟨part.bound namespaces, [], depth, 0⟩ rest)
  | .text piece, namespaces, depth, rest, blank => by
    have passes : ¬ (depth = 0 ∧ Text.trim piece ≠ "") := by
      rintro ⟨outside, notBlank⟩
      exact notBlank (blank outside piece List.mem_cons_self)
    rw [Content.steps, List.singleton_append, run_outerText, if_neg passes]
    rfl
  | .element name attributes content, namespaces, depth, rest, _ => by
    have opened := step_outside settings namespaces depth name attributes
    dsimp only at opened
    rw [Content.steps, List.cons_append, List.append_assoc, run_step settings _ opened, bound, events]
    by_cases isEvent : isEventType (strippedName (Builder.declare namespaces attributes) name) = true
    · rw [if_pos isEvent, if_pos isEvent, run_content settings content, List.singleton_append,
        run_closing settings rest (close_event _ _ depth), Frame.fields_gain]
      rfl
    · have inside := run_allOuter content (Builder.declare namespaces attributes) (depth + 1) (.closing :: rest)
        (BlankAt.inside depth content)
      rw [if_neg isEvent, if_neg isEvent]
      apply inside.trans
      rw [run_closing settings rest (close_outside _ depth)]
      rfl

theorem run_allOuter : ∀ (content : List Content) (namespaces : Namespaces) (depth : Nat) (rest : List Step),
    BlankAt depth content → Builder.run settings ⟨namespaces, [], depth, 0⟩ (stepsOf content ++ rest) =
      followedBy settings (eventsOf namespaces content)
        (Builder.run settings ⟨boundOf namespaces content, [], depth, 0⟩ rest)
  | [], _, _, _, _ => rfl
  | part :: content, namespaces, depth, rest, blank => by
    have own : BlankAt depth [part] := by
      intro outside piece member
      exact blank outside piece (List.mem_singleton.mp member ▸ List.mem_cons_self)
    have others : BlankAt depth content :=
      fun outside piece member => blank outside piece (List.mem_cons_of_mem _ member)
    rw [stepsOf, List.append_assoc, run_outer part namespaces depth _ own, run_allOuter content _ depth rest others,
      followedBy_append, eventsOf, boundOf]

end

/-- Outside events, readings that agree behind a text or an element agree with it in front, too. -/
theorem run_later_congr (part : Content) {content content' : List Content} {namespaces : Namespaces} {depth : Nat}
    {rest : List Step}
    (same : Builder.run settings ⟨part.bound namespaces, [], depth, 0⟩ (stepsOf content ++ rest) =
      Builder.run settings ⟨part.bound namespaces, [], depth, 0⟩ (stepsOf content' ++ rest)) :
    Builder.run settings ⟨namespaces, [], depth, 0⟩ (stepsOf (part :: content) ++ rest) =
      Builder.run settings ⟨namespaces, [], depth, 0⟩ (stepsOf (part :: content') ++ rest) := by
  rw [stepsOf, stepsOf, List.append_assoc, List.append_assoc]
  cases part with
  | text piece =>
    rw [Content.steps, List.singleton_append, List.singleton_append, run_outerText, run_outerText]
    exact congrArg (fun outcome => if depth = 0 ∧ Text.trim piece ≠ "" then _ else outcome) same
  | element name attributes inside =>
    have blank : BlankAt depth [Content.element name attributes inside] := by
      intro _ piece member
      cases List.mem_singleton.mp member
    rw [run_outer settings _ namespaces depth _ blank, run_outer settings _ namespaces depth _ blank, same]

/-- Outside events it is the fields of an event, and the reading of any other element, on which it depends what
    comes of what is in an element. -/
theorem run_within_congr (name : String) (attributes : List (String × String)) {inside inside' : List Content}
    (content : List Content) (namespaces : Namespaces) (depth : Nat) (rest : List Step)
    (bound : boundOf (Builder.declare namespaces attributes) inside =
      boundOf (Builder.declare namespaces attributes) inside')
    (text : textOf inside = textOf inside')
    (fields : isEventType (strippedName (Builder.declare namespaces attributes) name) = true →
      contentFields settings (Builder.declare namespaces attributes) "" inside =
        contentFields settings (Builder.declare namespaces attributes) "" inside')
    (same : isEventType (strippedName (Builder.declare namespaces attributes) name) = false →
      ∀ rest, Builder.run settings ⟨Builder.declare namespaces attributes, [], depth + 1, 0⟩ (stepsOf inside ++ rest) =
        Builder.run settings ⟨Builder.declare namespaces attributes, [], depth + 1, 0⟩ (stepsOf inside' ++ rest)) :
    Builder.run settings ⟨namespaces, [], depth, 0⟩ (stepsOf (.element name attributes inside :: content) ++ rest) =
      Builder.run settings ⟨namespaces, [], depth, 0⟩
        (stepsOf (.element name attributes inside' :: content) ++ rest) := by
  have opened := step_outside settings namespaces depth name attributes
  dsimp only at opened
  rw [stepsOf, stepsOf, Content.steps, Content.steps, List.cons_append, List.cons_append, List.cons_append,
    List.cons_append, run_step settings _ opened, run_step settings _ opened]
  simp only [List.append_assoc]
  by_cases isEvent : isEventType (strippedName (Builder.declare namespaces attributes) name) = true
  · rw [if_pos isEvent, run_content settings inside, run_content settings inside', bound, text, fields isEvent]
  · rw [if_neg isEvent]
    exact same (Bool.eq_false_iff.mpr isEvent) _

/-- A document gives the tree of each event that is not in another one, in document order. -/
theorem run_document {steps : List Step} {content : List Content} (spells : Spells steps content)
    (blank : BlankAt 0 content) (namespaces : Namespaces) :
    Builder.run settings ⟨namespaces, [], 0, 0⟩ steps =
      ((eventsOf namespaces content).map (EventElement.tree settings), none,
        ⟨boundOf namespaces content, [], 0, 0⟩) := by
  have whole := run_spelled settings spells ⟨namespaces, [], 0, 0⟩ []
  rw [List.append_nil, run_allOuter settings content namespaces 0 [] blank] at whole
  rw [whole, followedBy, Builder.run, List.append_nil]

/-- What the stack machine makes of a document is what the recursion on its elements says. -/
theorem trees_of_document {steps : List Step} {content : List Content} (spells : Spells steps content)
    (blank : ∀ piece, Content.text piece ∈ content → Text.trim piece = "") :
    Builder.empty.run settings steps =
      ((eventsOf NameTable.empty content).map (EventElement.tree settings), none,
        ⟨boundOf NameTable.empty content, [], 0, 0⟩) ∧
    ∀ source, Xml.steps source = (steps, none) →
      eventTrees settings source =
        ((eventsOf NameTable.empty content).map fun event => .ok (event.tree settings),
          boundOf NameTable.empty content) := by
  have whole : Builder.empty.run settings steps = _ := run_document settings spells (fun _ => blank) NameTable.empty
  refine ⟨whole, fun source read => ?_⟩
  rw [eventTrees, read]
  dsimp only
  rw [whole]
  simp [Builder.isOpen]

end Running

def notedSteps : List Step :=
  [.opening "list" [("xmlns:e", "urn:epcglobal:epcis:xsd:1")] false, .opening "e:ObjectEvent" [] false,
    .opening "note" [] true, .opening "eventID" [] false, .text "a", .closing, .closing, .closing]

def notedContent : List Content :=
  [.element "list" [("xmlns:e", "urn:epcglobal:epcis:xsd:1")]
    [.element "e:ObjectEvent" [] [.element "note" [] [], .element "eventID" [] [.text "a"]]]]

def notedSource : Source :=
  .whole (Text.bytesOf ("<list xmlns:e='urn:epcglobal:epcis:xsd:1'><e:ObjectEvent><note/><eventID>a</eventID>" ++
    "</e:ObjectEvent></list>"))

theorem spells_noted : Spells notedSteps notedContent :=
  .element "list" _
    (.element "e:ObjectEvent" [] (.empty "note" [] (.element "eventID" [] (.text "a" .nil) .nil)) .nil) .nil

theorem trees_of_document_noted :
    (Spells notedSteps notedContent ∧ (∀ piece, Content.text piece ∈ notedContent → Text.trim piece = "") ∧
      Xml.steps notedSource = (notedSteps, none)) ∧
    eventTrees Settings.standard notedSource =
      ((eventsOf NameTable.empty notedContent).map fun event => .ok (event.tree Settings.standard),
        boundOf NameTable.empty notedContent) := by
  have blank : ∀ piece, Content.text piece ∈ notedContent → Text.trim piece = "" := by simp [notedContent]
  have read : Xml.steps notedSource = (notedSteps, none) := by decide +kernel
  exact ⟨⟨spells_noted, blank, read⟩, (trees_of_document Settings.standard spells_noted blank).2 notedSource read⟩

section Bindless

variable (settings : Settings) (namespaces : Namespaces)

mutual

theorem bound_bindless : ∀ part : Content, part.Bindless → part.bound namespaces = namespaces
  | .text _, _ => rfl
  | .element name attributes content, bindless => by
    simp only [Bindless] at bindless
    rw [bound, declare_declareless namespaces bindless.1]
    exact boundOf_bindless content bindless.2

theorem boundOf_bindless : ∀ content : List Content, AllBindless content → boundOf namespaces content = namespaces
  | [], _ => rfl
  | part :: content, bindless => by
    simp only [AllBindless] at bindless
    rw [boundOf, bound_bindless part bindless.1]
    exact boundOf_bindless content bindless.2

end

mutual

theorem elementFields_bindless : ∀ (part : Content) (host : String), part.Bindless →
    part.elementFields settings namespaces host = part.fields settings namespaces host
  | .text _, _, _ => by rw [elementFields, fields]
  | .element name attributes content, host, bindless => by
    simp only [Bindless] at bindless
    have given := elementFields_eq settings namespaces host name attributes content
    dsimp only at given
    rw [declare_declareless namespaces bindless.1, contentFields_bindless content _ bindless.2] at given
    rw [given, fields]
    rfl

theorem contentFields_bindless : ∀ (content : List Content) (host : String), AllBindless content →
    contentFields settings namespaces host content = fieldsOf settings namespaces host content
  | [], _, _ => by rw [contentFields, fieldsOf]
  | part :: content, host, bindless => by
    simp only [AllBindless] at bindless
    rw [contentFields, fieldsOf, bound_bindless namespaces part bindless.1, elementFields_bindless part host bindless.1,
      contentFields_bindless content host bindless.2]

end

theorem unprefixed_eventType {name : String} (isEvent : isEventType name = true) : Text.cut? ':' name = none := by
  have all : ∀ type ∈ eventTypes, Text.cut? ':' type = none := by decide +kernel
  exact all name (List.contains_iff_mem.mp isEvent)

/-- An event has its type as a field, then the fields of its content. -/
theorem run_event {type : String} (isEvent : isEventType type = true) {attributes : List (String × String)}
    (declareless : Declareless attributes) {content : List Content} (bindless : AllBindless content) (depth : Nat) :
    Builder.run settings ⟨namespaces, [], depth, 0⟩ (Content.element type attributes content).steps =
      ([EventTree.ofFields namespaces (Field.leaf "type" type :: fieldsOf settings namespaces "" content)], none,
        ⟨namespaces, [], depth, 0⟩) := by
  have stripped := strippedName_of_unprefixed namespaces (unprefixed_eventType isEvent)
  have blank : BlankAt depth [Content.element type attributes content] := by
    intro _ piece member
    cases List.mem_singleton.mp member
  have whole := run_outer settings (Content.element type attributes content) namespaces depth [] blank
  have event : (Content.element type attributes content).events namespaces = [⟨namespaces, type, content⟩] := by
    rw [events, declare_declareless namespaces declareless, stripped, if_pos isEvent]
  rw [List.append_nil, event, bound, declare_declareless namespaces declareless,
    boundOf_bindless namespaces content bindless] at whole
  rw [whole, followedBy, List.map_singleton, EventElement.tree, boundOf_bindless namespaces content bindless,
    contentFields_bindless settings namespaces content "" bindless]
  rfl

end Bindless

end EpcisDigest.Xml
