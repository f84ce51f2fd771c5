import EpcisDigest.Proofs.CommandLine.Reporting

namespace EpcisDigest

section Joining

variable {sep : String}

/-- Where no block is empty, all their parts are joined as the joined blocks are. -/
theorem intercalate_flatten (blocks : List (List String)) (filled : ∀ block ∈ blocks, block ≠ []) :
    sep.intercalate blocks.flatten = sep.intercalate (blocks.map sep.intercalate) := by
  induction blocks with
  | nil => rfl
  | cons block blocks ih =>
    obtain ⟨first, others⟩ := List.forall_mem_cons.mp filled
    cases blocks with
    | nil => simp
    | cons next blocks =>
      have some : (next :: blocks).flatten ≠ [] := by simp [others next List.mem_cons_self]
      have joined : sep.intercalate (sep.intercalate block :: (next :: blocks).map sep.intercalate) =
          sep.intercalate block ++ sep ++ sep.intercalate ((next :: blocks).map sep.intercalate) :=
        String.intercalate_cons_of_ne_nil (by simp)
      rw [List.flatten_cons, String.intercalate_append_of_ne_nil first some, ih others]
      exact joined.symm

theorem intercalate_ended {α : Type} (sep : α) (rows : List (List α)) :
    [sep].intercalate (rows ++ [[]]) = (rows.map (· ++ [sep])).flatten := by
  induction rows with
  | nil => simp
  | cons row rows ih =>
    rw [List.cons_append, List.intercalate_cons_of_ne_nil (by simp), ih, List.map_cons, List.flatten_cons]

end Joining

namespace CommandLine

/-- The lines of a text in paragraphs, which empty lines part. -/
def paragraphs (text : String) : List (List String) :=
  ((Text.pieces '\n' text).splitOn "").filter (· ≠ [])

section Forms

variable {forms : List CanonicalForm}

theorem intercalate_text {form : CanonicalForm} (any : form.lines ≠ []) :
    "\n".intercalate (form.lines ++ [""]) = form.text ++ "\n" := by
  rw [String.intercalate_append_of_ne_nil any (by simp), String.intercalate_singleton, String.append_empty]
  rfl

theorem pieces_printed (some : forms ≠ []) (clean : ∀ form ∈ forms, form.Clean)
    (any : ∀ form ∈ forms, form.lines ≠ []) :
    Text.pieces '\n' ("\n".intercalate (forms.map (·.text ++ "\n"))) = (forms.map (·.lines ++ [""])).flatten := by
  rw [Text.pieces_eq_iff]
  refine ⟨?_, ?_, ?_⟩
  · obtain ⟨form, others, rfl⟩ := List.exists_cons_of_ne_nil some
    simp
  · intro part member
    obtain ⟨block, among, inBlock⟩ := List.mem_flatten.mp member
    obtain ⟨form, printed, rfl⟩ := List.mem_map.mp among
    rcases List.mem_append.mp inBlock with line | ended
    · exact (clean form printed part line).2.1
    · rw [List.mem_singleton.mp ended]
      simp
  · rw [show String.singleton '\n' = "\n" from rfl, intercalate_flatten _ (by simp), List.map_map]
    congr 1
    exact List.map_congr_left fun form member => (intercalate_text (any form member)).symm

theorem paragraphs_printed (clean : ∀ form ∈ forms, form.Clean) (any : ∀ form ∈ forms, form.lines ≠ []) :
    paragraphs ("\n".intercalate (forms.map (·.text ++ "\n"))) = forms.map (·.lines) := by
  by_cases some : forms = []
  · rw [some]
    decide
  · have rows : (forms.map (·.lines ++ [""])).flatten = [""].intercalate (forms.map (·.lines) ++ [[]]) := by
      rw [intercalate_ended, List.map_map]
      rfl
    have free : ∀ row ∈ forms.map (·.lines) ++ [[]], "" ∉ row := by
      intro row member empty
      rcases List.mem_append.mp member with printed | last
      · obtain ⟨form, among, rfl⟩ := List.mem_map.mp printed
        exact (clean form among _ empty).1 rfl
      · rw [List.mem_singleton.mp last] at empty
        cases empty
    have kept : (forms.map (·.lines)).filter (· ≠ []) = forms.map (·.lines) := by
      rw [List.filter_eq_self]
      intro row member
      obtain ⟨form, among, rfl⟩ := List.mem_map.mp member
      simpa using any form among
    rw [paragraphs, pieces_printed some clean any, rows, List.splitOn_intercalate "" free (by simp),
      List.filter_append, kept]
    simp

end Forms

end CommandLine

section Events

variable {settings : Settings}

def resultsOf (settings : Settings) (form : CanonicalForm) : Results :=
  .ofForm form settings.outputs settings.separator settings.version

def formOfTree (settings : Settings) (tree : EventTree) : Except HashError CanonicalForm :=
  (tree.canonicalForm settings).mapError .ofFault

def formOfValue (settings : Settings) (namespaces : Namespaces) (event : Json.Value) : Except HashError CanonicalForm :=
  ((Json.eventTree settings namespaces event).mapError .notAnEvent).bind (formOfTree settings)

/-- The lines of each event of a source, in the order of the events, or the error that they end with. -/
inductive EventForms (settings : Settings) (source : Source) :
    CommandLine.Format → List (Except HashError CanonicalForm) → Prop where
  | xml : EventForms settings source .xml
      ((Xml.eventTrees settings source).1.map fun tree => (tree.mapError .xml).bind (formOfTree settings))
  | json {items : List Json.Item} {refusal : Option Json.ReadError}
      (leads : Json.Leads (Json.Feed.ofSource source Json.defaultLimit) items refusal) :
      EventForms settings source .json
        ((items.filterMap Json.Item.event?).map
            (formOfValue settings ((Json.Feed.ofSource source Json.defaultLimit).boundAtFirst items)) ++
          refusal.toList.map fun e => .error (.json e))

theorem hashTree_eq (tree : EventTree) :
    hashTree settings tree = (formOfTree settings tree).map (resultsOf settings) := by
  rw [hashTree, EventTree.results, formOfTree]
  cases tree.canonicalForm settings <;> rfl

theorem bind_hashTree (tree : Except HashError EventTree) :
    tree.bind (hashTree settings) = (tree.bind (formOfTree settings)).map (resultsOf settings) := by
  cases tree with
  | error e => rfl
  | ok tree => exact hashTree_eq tree

theorem hashValue_eq (namespaces : Namespaces) (event : Json.Value) :
    hashValue settings namespaces event = (formOfValue settings namespaces event).map (resultsOf settings) := by
  rw [formOfValue, ← bind_hashTree, hashValue]
  cases Json.eventTree settings namespaces event <;> rfl

namespace EventForms

variable {source : Source} {format : CommandLine.Format} {forms : List (Except HashError CanonicalForm)}

theorem exists_of_format (settings : Settings) (source : Source) (fixed : format ≠ .auto) :
    ∃ forms, EventForms settings source format forms := by
  cases format with
  | auto => exact absurd rfl fixed
  | xml => exact ⟨_, .xml⟩
  | json =>
    obtain ⟨items, refusal, leads⟩ := Json.Feed.exists_leads (Json.Feed.ofSource_sound source Json.defaultLimit)
    exact ⟨_, .json leads⟩

theorem results (events : EventForms settings source format forms) :
    EventResults settings source format (forms.map (Except.map (resultsOf settings))) := by
  cases events with
  | xml =>
    have hashed : (fun tree : Except Xml.ReadError EventTree => (tree.mapError .xml).bind (hashTree settings)) =
        Except.map (resultsOf settings) ∘ fun tree => (tree.mapError .xml).bind (formOfTree settings) :=
      funext fun tree => bind_hashTree _
    have results : EventResults settings source .xml _ := .xml
    rw [hashed] at results
    rwa [List.map_map]
  | json leads =>
    have results : EventResults settings source .json _ := .json leads
    rw [funext (hashValue_eq _)] at results
    rw [List.map_append, List.map_map, List.map_map]
    exact results

theorem clean_of_formOfTree {tree : EventTree} {form : CanonicalForm} (made : formOfTree settings tree = .ok form) :
    form.Clean := by
  rw [formOfTree] at made
  cases lines : tree.canonicalForm settings with
  | error fault =>
    rw [lines] at made
    cases made
  | ok form' =>
    rw [lines] at made
    injection made with made
    exact made ▸ clean_of_canonicalForm lines

theorem clean_of_bind {tree : Except HashError EventTree} {form : CanonicalForm}
    (made : tree.bind (formOfTree settings) = .ok form) : form.Clean := by
  cases tree with
  | error e => cases made
  | ok tree => exact clean_of_formOfTree made

theorem clean (events : EventForms settings source format forms) {form : CanonicalForm} (member : .ok form ∈ forms) :
    form.Clean := by
  cases events with
  | xml =>
    obtain ⟨tree, -, made⟩ := List.mem_map.mp member
    exact clean_of_bind made
  | json leads =>
    rcases List.mem_append.mp member with event | failed
    · obtain ⟨event, -, made⟩ := List.mem_map.mp event
      exact clean_of_bind made
    · obtain ⟨e, -, failed⟩ := List.mem_map.mp failed
      cases failed

end EventForms

end Events

namespace Precede

variable {ε α β : Type} {results : List (Except ε α)} {before : List α} {failed : Option ε}

theorem map (precede : Precede results before failed) (f : α → β) :
    Precede (results.map (Except.map f)) (before.map f) failed := by
  cases precede with
  | all =>
    have all := Precede.all (ε := ε) (before.map f)
    simpa [Function.comp_def, Except.map] using all
  | failed before e others =>
    have failed := Precede.failed (before.map f) e (others.map (Except.map f))
    simpa [Function.comp_def, Except.map] using failed

theorem splitResults_eq (precede : Precede results before failed) :
    CommandLine.splitResults (untilError results) = (before, failed) := by
  cases precede with
  | all =>
    induction before with
    | nil => rfl
    | cons a before ih => rw [List.map_cons, untilError, CommandLine.splitResults, ih]
  | failed before e others =>
    induction before with
    | nil => rfl
    | cons a before ih => rw [List.map_cons, List.cons_append, untilError, CommandLine.splitResults, ih]

end Precede

namespace CommandLine

section Runs

variable {invocation : Invocation} {settings : Settings}

theorem separator_of_canonicalize (command : invocation.command = .canonicalize)
    (built : invocation.settings = .ok settings) : settings.separator = "\n" := by
  simp only [Invocation.settings, command, bind, Except.bind] at built
  split at built
  · cases built
  · rw [← Settings.Draft.build_eq_ok_iff.mp built]
    rfl

theorem report_canonicalize {outcome : List (Except HashError Results)} {before : List Results}
    {failed : Option HashError} (command : invocation.command = .canonicalize) (split : splitResults outcome = (before, failed)) :
    (invocation.report outcome).output = linesText before := by
  rw [Invocation.report, split]
  simp only [command]
  cases failed with
  | none => rfl
  | some e => exact Invocation.output_ended _ e

theorem output_canonicalize {opened : Opened} {format : Format} {source : Source}
    {forms : List (Except HashError CanonicalForm)} {before : List CanonicalForm} {failed : Option HashError} (command : invocation.command = .canonicalize)
    (begins : Begins invocation opened settings format source) (events : EventForms settings source format forms)
    (precede : Precede forms before failed) :
    (invocation.run opened).output = "\n".intercalate (before.map (·.text ++ "\n")) := by
  obtain ⟨built, detected⟩ := begins
  have split := (precede.map (resultsOf settings)).splitResults_eq
  rw [← events.results.hashSource_eq] at split
  have texts : before.map (resultsOf settings) =
      (before.map (·.text)).map fun text => ⟨[(Output.prehashName, text)]⟩ := by
    rw [List.map_map]
    apply List.map_congr_left
    intro form _
    rw [resultsOf, outputs_of_canonicalize command built, separator_of_canonicalize command built]
    rfl
  rw [Invocation.run_source built detected, report_canonicalize command split, texts, linesText_values, List.map_map]
  rfl

theorem output_of_not_begins (invocation : Invocation) (opened : Opened)
    (never : ∀ settings format source, ¬ Begins invocation opened settings format source) :
    (invocation.run opened).output = "" := by
  unfold Invocation.run
  split
  case h_1 => rfl
  case h_2 settings built =>
    split
    case h_1 => rfl
    case h_2 source =>
      split
      case h_1 => rfl
      case h_2 format rest detected => exact absurd ⟨built, detected⟩ (never settings format rest)

end Runs

/-- The printed lines, the joined lines and what digests are made of are the same lines, and what a run prints is the
    lines of its events in order. -/
theorem lines_recovered :
    (∀ (settings : Settings) (tree : EventTree) (form : CanonicalForm), tree.canonicalForm settings = .ok form →
      form.Coherent ∧ ∀ settings', SameLines settings settings' → ∃ results, tree.results settings' = .ok results ∧
        (∀ name value, (name, value) ∈ results.entries → EntryOf settings' form name value) ∧
        ∀ output ∈ settings'.outputs, output.key ∈ results.entries.map Prod.fst) ∧
    ∀ (invocation : Invocation) (opened : Opened), invocation.command = .canonicalize →
      ((∀ settings format source, ¬ Begins invocation opened settings format source) →
        (invocation.run opened).output = "") ∧
      ∀ settings format source, Begins invocation opened settings format source →
        (∃ forms before failed, EventForms settings source format forms ∧ Precede forms before failed) ∧
        ∀ forms before failed, EventForms settings source format forms → Precede forms before failed →
          (∀ form ∈ before, form.lines ≠ []) → paragraphs (invocation.run opened).output = before.map (·.lines) := by
  constructor
  · intro settings tree form made
    refine ⟨(clean_of_canonicalForm made).coherent, ?_⟩
    intro settings' same
    have made' : tree.canonicalForm settings' = .ok form := (canonicalForm_same same _ _).trans made
    refine ⟨resultsOf settings' form, ?_, fun _ _ => Results.entryOf_ofForm, ?_⟩
    · rw [EventTree.results, made']
      rfl
    · intro output requested
      exact Results.mem_keys_ofForm requested _ _
  · intro invocation opened command
    refine ⟨output_of_not_begins invocation opened, ?_⟩
    intro settings format source begins
    constructor
    · obtain ⟨_, detected⟩ := begins
      obtain ⟨forms, events⟩ := EventForms.exists_of_format settings source (detect_format detected)
      obtain ⟨before, failed, precede, -⟩ := exists_precede forms
      exact ⟨forms, before, failed, events, precede⟩
    · intro forms before failed events precede any
      rw [output_canonicalize command begins events precede]
      exact paragraphs_printed (fun form member => events.clean (precede.mem member)) any

def brokenValue : EventTree :=
  .ofFields NameTable.empty [⟨some "type", some "ObjectEvent", []⟩, ⟨some "action", some "A\r\nDD", []⟩]

def twoEvents : Source :=
  .whole (Text.bytesOf ("<EPCISBody><ObjectEvent><action>ADD</action></ObjectEvent>" ++
    "<ObjectEvent><disposition>a\nb</disposition></ObjectEvent></EPCISBody>"))

theorem lines_recovered_twoEvents :
    (∃ form : CanonicalForm, Text.pieces '\n' form.text = ["eventType=ObjectEvent", "action=ADD"] ∧
      ∃ results, brokenValue.results { Settings.standard with separator := "; " } = .ok results ∧
        ∀ name value, (name, value) ∈ results.entries →
          ∃ algorithm, value = digestUri algorithm (form.joined "") .v2_0) ∧
    paragraphs (plainRun.run (.source twoEvents)).output =
      [["eventType=ObjectEvent", "action=ADD"],
        ["eventType=ObjectEvent", "disposition=https://ref.gs1.org/cbv/Disp-ab"]] := by
  obtain ⟨trees, runs⟩ := lines_recovered
  constructor
  · have made : brokenValue.canonicalForm Settings.standard = .ok ⟨["eventType=ObjectEvent", "action=ADD"]⟩ := by
      decide +kernel
    obtain ⟨coherent, alike⟩ := trees _ _ _ made
    obtain ⟨results, hashed, entries, -⟩ := alike { Settings.standard with separator := "; " } ⟨rfl, rfl⟩
    refine ⟨_, coherent.split (by simp), results, hashed, ?_⟩
    intro name value member
    cases entries name value member with
    | prehash requested => exact absurd requested (by decide)
    | digest => exact ⟨_, rfl⟩
  · let settings : Settings := { Settings.standard with
      separator := "\n", outputs := [.prehash], outputs_ne_nil := by simp }
    have begins : Begins plainRun (.source twoEvents) settings .xml twoEvents := ⟨by decide +kernel, by decide +kernel⟩
    have read : ((Xml.eventTrees settings twoEvents).1.map fun tree =>
        (tree.mapError HashError.xml).bind (formOfTree settings)) =
          [⟨["eventType=ObjectEvent", "action=ADD"]⟩,
            ⟨["eventType=ObjectEvent", "disposition=https://ref.gs1.org/cbv/Disp-ab"]⟩].map .ok := by
      decide +kernel
    have events : EventForms settings twoEvents .xml _ := .xml
    rw [read] at events
    obtain ⟨-, recovered⟩ := runs plainRun (.source twoEvents) rfl
    exact (recovered settings .xml twoEvents begins).2 _ _ _ events (.all _) (by simp)

end CommandLine

end EpcisDigest
