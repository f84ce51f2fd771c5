import EpcisDigest.Proofs.Xml.Document

namespace EpcisDigest.Xml

open Content

namespace Content

def isElement : Content → Bool
  | .text _ => false
  | .element _ _ _ => true

end Content

/-- Content, and the same one in which elements that follow each other, with no text between them, are put into a
    transparent one that binds no prefix. -/
inductive Wrapped : List Content → List Content → Prop where
  | here {name : String} (attributes : List (String × String)) (elements content : List Content)
      (transparent : isSynthetic name = true) (declareless : Declareless attributes)
      (textless : ∀ part ∈ elements, part.isElement = true) :
      Wrapped (elements ++ content) (.element name attributes elements :: content)
  | within (name : String) (attributes : List (String × String)) {inside inside' : List Content}
      (content : List Content) (wrapped : Wrapped inside inside') :
      Wrapped (.element name attributes inside :: content) (.element name attributes inside' :: content)
  | later (part : Content) {content content' : List Content} (wrapped : Wrapped content content') :
      Wrapped (part :: content) (part :: content')

def SameUnwrapped : List Content → List Content → Prop := Relation.EqvGen Wrapped

theorem boundOf_append (namespaces : Namespaces) (first others : List Content) :
    boundOf namespaces (first ++ others) = boundOf (boundOf namespaces first) others := by
  induction first generalizing namespaces with
  | nil => rfl
  | cons part first ih => rw [List.cons_append, boundOf, boundOf, ih]

theorem contentFields_append (settings : Settings) (namespaces : Namespaces) (host : String)
    (first others : List Content) : contentFields settings namespaces host (first ++ others) =
      contentFields settings namespaces host first ++
        contentFields settings (boundOf namespaces first) host others := by
  induction first generalizing namespaces with
  | nil => rfl
  | cons part first ih => rw [List.cons_append, contentFields, contentFields, ih, boundOf, List.append_assoc]

theorem stepsOf_append (first others : List Content) : stepsOf (first ++ others) = stepsOf first ++ stepsOf others := by
  induction first with
  | nil => rfl
  | cons part first ih => rw [List.cons_append, stepsOf, stepsOf, ih, List.append_assoc]

theorem textOf_textless {elements : List Content} (textless : ∀ part ∈ elements, part.isElement = true) :
    textOf elements = "" := by
  induction elements with
  | nil => rfl
  | cons part elements ih =>
    cases part with
    | text piece => cases textless (.text piece) List.mem_cons_self
    | element name attributes inside => exact ih fun other member => textless other (List.mem_cons_of_mem _ member)

theorem blankAt_textless (depth : Nat) {elements : List Content}
    (textless : ∀ part ∈ elements, part.isElement = true) : BlankAt depth elements := by
  intro _ piece member
  cases textless (.text piece) member

section Transparent

variable {settings : Settings} {name : String} {attributes : List (String × String)}

theorem strippedName_transparent (namespaces : Namespaces) (transparent : isSynthetic name = true) :
    strippedName namespaces name = name := by
  apply strippedName_of_unprefixed
  simp only [isSynthetic, Bool.or_eq_true, beq_iff_eq] at transparent
  rcases transparent with rfl | rfl <;> decide

theorem isEventType_transparent (transparent : isSynthetic name = true) : isEventType name = false := by
  simp only [isSynthetic, Bool.or_eq_true, beq_iff_eq] at transparent
  rcases transparent with rfl | rfl <;> decide

theorem bound_transparent (namespaces : Namespaces) (declareless : Declareless attributes) (inside : List Content) :
    (Content.element name attributes inside).bound namespaces = boundOf namespaces inside := by
  rw [bound, declare_declareless namespaces declareless]

/-- What is in a transparent element goes to the field around it. -/
theorem elementFields_transparent (namespaces : Namespaces) (host : String) (transparent : isSynthetic name = true)
    (kept : settings.isExcluded name = false) (declareless : Declareless attributes) (inside : List Content) :
    (Content.element name attributes inside).elementFields settings namespaces host =
      contentFields settings namespaces host inside := by
  rw [elementFields, declare_declareless namespaces declareless, strippedName_transparent namespaces transparent, kept]
  simp only [transparent, Bool.false_eq_true, if_false, if_true]

theorem events_transparent (namespaces : Namespaces) (transparent : isSynthetic name = true)
    (declareless : Declareless attributes) (inside : List Content) :
    (Content.element name attributes inside).events namespaces = eventsOf namespaces inside := by
  rw [events, declare_declareless namespaces declareless, strippedName_transparent namespaces transparent,
    isEventType_transparent transparent]
  simp only [Bool.false_eq_true, if_false]

end Transparent

section Wrapping

variable {settings : Settings} {content content' : List Content}

theorem Wrapped.bound_eq (wrapped : Wrapped content content') (namespaces : Namespaces) :
    boundOf namespaces content = boundOf namespaces content' := by
  induction wrapped generalizing namespaces with
  | here attributes elements content transparent declareless textless =>
    rw [boundOf_append, boundOf, bound_transparent namespaces declareless]
  | within name attributes content wrapped ih => rw [boundOf, boundOf, bound, bound, ih]
  | later part wrapped ih => rw [boundOf, boundOf, ih]

theorem Wrapped.text_eq (wrapped : Wrapped content content') : textOf content = textOf content' := by
  induction wrapped with
  | here attributes elements content transparent declareless textless =>
    rw [textOf_append, textOf_textless textless, String.empty_append, textOf]
  | within name attributes content wrapped ih => rfl
  | later part wrapped ih => cases part <;> simp only [textOf, ih]

theorem Wrapped.fields_eq (wrapped : Wrapped content content')
    (kept : ∀ name, isSynthetic name = true → settings.isExcluded name = false) (namespaces : Namespaces)
    (host : String) :
    contentFields settings namespaces host content = contentFields settings namespaces host content' := by
  induction wrapped generalizing namespaces host with
  | here attributes elements content transparent declareless textless =>
    rw [contentFields_append, contentFields, bound_transparent namespaces declareless,
      elementFields_transparent namespaces host transparent (kept _ transparent) declareless]
  | within name attributes content wrapped ih =>
    have same : ∀ host, contentFields settings (Builder.declare namespaces attributes) host _ = _ := ih _
    rw [contentFields, contentFields, elementFields, elementFields, bound, bound, wrapped.bound_eq]
    simp only [wrapped.text_eq, same]
  | later part wrapped ih => rw [contentFields, contentFields, ih]

theorem Wrapped.run_eq (wrapped : Wrapped content content')
    (kept : ∀ name, isSynthetic name = true → settings.isExcluded name = false) (namespaces : Namespaces)
    (depth : Nat) (rest : List Step) :
    Builder.run settings ⟨namespaces, [], depth, 0⟩ (stepsOf content ++ rest) =
      Builder.run settings ⟨namespaces, [], depth, 0⟩ (stepsOf content' ++ rest) := by
  induction wrapped generalizing namespaces depth rest with
  | @here name attributes elements content transparent declareless textless =>
    have blank : BlankAt depth [Content.element name attributes elements] := by
      intro _ piece member
      cases List.mem_singleton.mp member
    rw [stepsOf_append, stepsOf, List.append_assoc, List.append_assoc,
      run_allOuter settings elements namespaces depth _ (blankAt_textless depth textless),
      run_outer settings _ namespaces depth _ blank, events_transparent namespaces transparent declareless,
      bound_transparent namespaces declareless]
  | within name attributes content wrapped ih =>
    apply run_within_congr settings name attributes content namespaces depth rest (wrapped.bound_eq _) wrapped.text_eq
    · exact fun _ => wrapped.fields_eq kept _ ""
    · exact fun _ => ih _ (depth + 1)
  | later part wrapped ih => exact run_later_congr settings part (ih _ depth rest)

/-- Elements that are called `extension` or `baseExtension` can be put around others, or be taken away from them,
    anywhere in a document: this makes no difference to its trees, nor to the numbers of their nodes. -/
theorem transparent_without_effect (keptExtension : settings.isExcluded "extension" = false)
    (keptBase : settings.isExcluded "baseExtension" = false) (same : SameUnwrapped content content')
    {steps steps' : List Step} (spells : Spells steps content) (spells' : Spells steps' content') :
    Builder.empty.run settings steps = Builder.empty.run settings steps' ∧
    ∀ source source', Xml.steps source = (steps, none) → Xml.steps source' = (steps', none) →
      eventTrees settings source = eventTrees settings source' := by
  have kept : ∀ name, isSynthetic name = true → settings.isExcluded name = false := by
    intro name transparent
    simp only [isSynthetic, Bool.or_eq_true, beq_iff_eq] at transparent
    rcases transparent with rfl | rfl
    · exact keptExtension
    · exact keptBase
  have whole : Builder.empty.run settings steps = Builder.empty.run settings steps' := by
    apply run_of_eqvGen settings _ same spells spells'
    intro content content' wrapped
    have single := wrapped.run_eq kept NameTable.empty 0 []
    rwa [List.append_nil, List.append_nil] at single
  refine ⟨whole, fun source source' read read' => ?_⟩
  rw [eventTrees, eventTrees, read, read']
  dsimp only
  rw [whole]

end Wrapping

def listedContent : List Content :=
  [.element "ObjectEvent" [] [.element "epcList" [] [.element "epc" [] [.text "a"]], .element "note" [] []]]

def listedSource : Source :=
  .whole (Text.bytesOf "<ObjectEvent><epcList><epc>a</epc></epcList><note/></ObjectEvent>")

def listedSteps : List Step :=
  [.opening "ObjectEvent" [] false, .opening "epcList" [] false, .opening "epc" [] false, .text "a", .closing, .closing,
    .opening "note" [] true, .closing]

def identifiedContent : List Content :=
  [.element "epcList" [] [.element "extension" [] [.element "epc" [] [.text "a"]]], .element "note" [] []]

def wrappedContent : List Content :=
  [.element "ObjectEvent" [] [.element "baseExtension" [("version", "1")] identifiedContent]]

def wrappedSource : Source :=
  .whole (Text.bytesOf ("<ObjectEvent><baseExtension version='1'><epcList><extension><epc>a</epc></extension>" ++
    "</epcList><note/></baseExtension></ObjectEvent>"))

def wrappedSteps : List Step :=
  [.opening "ObjectEvent" [] false, .opening "baseExtension" [("version", "1")] false, .opening "epcList" [] false,
    .opening "extension" [] false, .opening "epc" [] false, .text "a", .closing, .closing, .closing,
    .opening "note" [] true, .closing, .closing]

theorem sameUnwrapped_wrapped : SameUnwrapped listedContent wrappedContent := by
  have inner : Wrapped [.element "epc" [] [.text "a"]] [.element "extension" [] [.element "epc" [] [.text "a"]]] :=
    .here [] [.element "epc" [] [.text "a"]] [] rfl (by simp [Declareless]) (by simp [isElement])
  have outer : Wrapped identifiedContent [.element "baseExtension" [("version", "1")] identifiedContent] :=
    .here [("version", "1")] identifiedContent [] rfl (by simp only [Declareless]; decide)
      (by simp [identifiedContent, isElement])
  exact .trans _ _ _
    (.rel _ _ (.within "ObjectEvent" [] [] (.within "epcList" [] [.element "note" [] []] inner)))
    (.rel _ _ (.within "ObjectEvent" [] [] outer))

theorem transparent_without_effect_wrapped :
    (Settings.standard.isExcluded "extension" = false ∧ Settings.standard.isExcluded "baseExtension" = false ∧
      SameUnwrapped listedContent wrappedContent ∧ Spells listedSteps listedContent ∧
      Spells wrappedSteps wrappedContent ∧ Xml.steps listedSource = (listedSteps, none) ∧
      Xml.steps wrappedSource = (wrappedSteps, none)) ∧
    Builder.empty.run Settings.standard listedSteps = Builder.empty.run Settings.standard wrappedSteps ∧
    eventTrees Settings.standard listedSource = eventTrees Settings.standard wrappedSource := by
  have keptExtension : Settings.standard.isExcluded "extension" = false := by decide +kernel
  have keptBase : Settings.standard.isExcluded "baseExtension" = false := by decide +kernel
  have listed : Spells listedSteps listedContent :=
    .element "ObjectEvent" []
      (.element "epcList" [] (.element "epc" [] (.text "a" .nil) .nil) (.empty "note" [] .nil)) .nil
  have wrapped : Spells wrappedSteps wrappedContent :=
    .element "ObjectEvent" []
      (.element "baseExtension" _
        (.element "epcList" [] (.element "extension" [] (.element "epc" [] (.text "a" .nil) .nil) .nil)
          (.empty "note" [] .nil)) .nil) .nil
  have read : Xml.steps listedSource = (listedSteps, none) := by decide +kernel
  have read' : Xml.steps wrappedSource = (wrappedSteps, none) := by decide +kernel
  have effect := transparent_without_effect keptExtension keptBase sameUnwrapped_wrapped listed wrapped
  exact ⟨⟨keptExtension, keptBase, sameUnwrapped_wrapped, listed, wrapped, read, read'⟩, effect.1,
    effect.2 listedSource wrappedSource read read'⟩

end EpcisDigest.Xml
