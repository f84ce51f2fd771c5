import EpcisDigest.CommandLine.Invocation
import EpcisDigest.Proofs.Event.NodeLines
import EpcisDigest.Proofs.Json.Printing
import EpcisDigest.Proofs.Json.Results
import EpcisDigest.Proofs.Output
import EpcisDigest.Proofs.Settings

namespace EpcisDigest

namespace Results

def value (results : Results) : Json.Value :=
  .object (results.entries.map fun entry => (entry.1, .string entry.2))

theorem value_literal (results : List Results) : (Json.Value.array (results.map value)).Literal := by
  have members : ∀ entries : Entries String,
      Json.MembersLiteral (entries.map fun entry => (entry.1, Json.Value.string entry.2)) := by
    intro entries
    induction entries with
    | nil => trivial
    | cons entry entries ih => exact ⟨trivial, ih⟩
  change Json.ItemsLiteral (results.map value)
  induction results with
  | nil => trivial
  | cons first results ih => exact ⟨members first.entries, ih⟩

end Results

/-- What comes of each event of a source, in the order of the events, and behind them of an error of the reading. -/
inductive EventResults (settings : Settings) (source : Source) :
    CommandLine.Format → List (Except HashError Results) → Prop where
  | xml : EventResults settings source .xml
      ((Xml.eventTrees settings source).1.map fun tree => (tree.mapError .xml).bind (hashTree settings))
  | json {items : List Json.Item} {refusal : Option Json.ReadError}
      (leads : Json.Leads (Json.Feed.ofSource source Json.defaultLimit) items refusal) :
      EventResults settings source .json
        ((items.filterMap Json.Item.event?).map
            (hashValue settings ((Json.Feed.ofSource source Json.defaultLimit).boundAtFirst items)) ++
          refusal.toList.map fun e => .error (.json e))

namespace EventResults

variable {settings : Settings} {source : Source} {format : CommandLine.Format} {results : List (Except HashError Results)}

theorem exists_of_format (settings : Settings) (source : Source) (fixed : format ≠ .auto) :
    ∃ results, EventResults settings source format results := by
  cases format with
  | auto => exact absurd rfl fixed
  | xml => exact ⟨_, .xml⟩
  | json =>
    obtain ⟨items, refusal, leads⟩ := Json.Feed.exists_leads (Json.Feed.ofSource_sound source Json.defaultLimit)
    exact ⟨_, .json leads⟩

theorem hashSource_eq (events : EventResults settings source format results) :
    CommandLine.hashSource settings format source = untilError results := by
  cases events with
  | xml => rfl
  | json leads => exact (JsonHashing.ofSource_yields settings source Json.defaultLimit leads).2

theorem exists_form_of_hashTree {tree : EventTree} {result : Results} (hashed : hashTree settings tree = .ok result) :
    ∃ form, result = Results.ofForm form settings.outputs settings.separator settings.version := by
  rw [hashTree, EventTree.results] at hashed
  cases made : tree.canonicalForm settings with
  | error fault =>
    rw [made] at hashed
    cases hashed
  | ok form =>
    rw [made] at hashed
    injection hashed with hashed
    exact ⟨form, hashed.symm⟩

theorem exists_form (events : EventResults settings source format results) {result : Results}
    (member : .ok result ∈ results) :
    ∃ form, result = Results.ofForm form settings.outputs settings.separator settings.version := by
  cases events with
  | xml =>
    obtain ⟨tree, -, hashed⟩ := List.mem_map.mp member
    cases tree with
    | error e => cases hashed
    | ok tree => exact exists_form_of_hashTree hashed
  | json leads =>
    rcases List.mem_append.mp member with member | member
    · obtain ⟨event, -, hashed⟩ := List.mem_map.mp member
      rw [hashValue] at hashed
      split at hashed
      · exact exists_form_of_hashTree hashed
      · cases hashed
    · obtain ⟨e, -, failed⟩ := List.mem_map.mp member
      cases failed

end EventResults

inductive Precede {ε α : Type} : List (Except ε α) → List α → Option ε → Prop where
  | all (results : List α) : Precede (results.map .ok) results none
  | failed (before : List α) (e : ε) (others : List (Except ε α)) :
      Precede (before.map .ok ++ .error e :: others) before (some e)

namespace Precede

variable {ε α : Type} {results : List (Except ε α)} {before : List α} {failed : Option ε}

theorem mem (precede : Precede results before failed) {a : α} (member : a ∈ before) : .ok a ∈ results := by
  cases precede with
  | all => exact List.mem_map_of_mem member
  | failed before e others => exact List.mem_append_left _ (List.mem_map_of_mem member)

theorem cons (precede : Precede results before failed) (a : α) : Precede (.ok a :: results) (a :: before) failed := by
  cases precede with
  | all => exact .all (a :: before)
  | failed before e others => exact .failed (a :: before) e others

end Precede

theorem exists_precede {ε α : Type} (results : List (Except ε α)) : ∃ before failed, Precede results before failed ∧
    CommandLine.splitResults (untilError results) = (before, failed) := by
  induction results with
  | nil => exact ⟨[], none, .all [], rfl⟩
  | cons result results ih =>
    cases result with
    | error e => exact ⟨[], some e, .failed [] e results, rfl⟩
    | ok a =>
      obtain ⟨before, failed, precede, split⟩ := ih
      refine ⟨a :: before, failed, precede.cons a, ?_⟩
      rw [untilError, CommandLine.splitResults, split]

namespace CommandLine

section Outputs

variable {invocation : Invocation} {settings : Settings}

theorem exists_output_of_single {algorithms : List String} {prehash : Bool} {separator : String}
    (command : invocation.command = .hash algorithms prehash separator true)
    (built : invocation.settings = .ok settings) : ∃ output, settings.outputs = [output] := by
  simp only [Invocation.settings, command, bind, Except.bind] at built
  split at built
  · cases built
  · split at built
    · cases built
    · rename_i drafted _
      simp only [ite_true] at built
      split at built
      · cases built
      · rename_i output single
        injection built with built
        subst built
        rw [Settings.singleOutput] at single
        split at single
        · rename_i output _
          exact ⟨output, ‹_›⟩
        · cases single

theorem outputs_of_canonicalize (command : invocation.command = .canonicalize)
    (built : invocation.settings = .ok settings) : settings.outputs = [.prehash] := by
  simp only [Invocation.settings, command, bind, Except.bind] at built
  split at built
  · cases built
  · have requested : [Output.ofName Output.prehashName] = [.prehash] := by decide +kernel
    rw [← Settings.Draft.build_eq_ok_iff.mp built]
    exact requested

end Outputs

inductive Begins (invocation : Invocation) : Opened → Settings → Format → Source → Prop where
  | intro {settings : Settings} {source rest : Source} {format : Format} (built : invocation.settings = .ok settings)
      (detected : detect invocation.format source = .ok (format, rest)) :
      Begins invocation (.source source) settings format rest

/-- What is printed of the results before the first error: a JSON text if there is no error, or nothing; or the single
    values, in lines; or the lines of the events, with empty ones between. -/
inductive Prints : Command → List Results → Option HashError → String → Prop where
  | whole {algorithms : List String} {prehash : Bool} {separator : String} {results : List Results} {output : String}
      (distinct : ∀ result ∈ results, (result.entries.map Prod.fst).Nodup)
      (denotes : ∀ value, Json.Denotes output value ↔ value = .array (results.map Results.value)) :
      Prints (.hash algorithms prehash separator false) results none output
  | nothing {algorithms : List String} {prehash : Bool} {separator : String} (before : List Results) (e : HashError) :
      Prints (.hash algorithms prehash separator false) before (some e) ""
  | values {algorithms : List String} {prehash : Bool} {separator : String} (name : String) (values : List String)
      (failed : Option HashError) :
      Prints (.hash algorithms prehash separator true) (values.map fun value => ⟨[(name, value)]⟩) failed
        ("".intercalate (values.map (· ++ "\n")))
  | lines (values : List String) (failed : Option HashError) :
      Prints .canonicalize (values.map fun value => ⟨[(Output.prehashName, value)]⟩) failed
        ("\n".intercalate (values.map (· ++ "\n")))

/-- How a run ends after the results before the first error. It does not report a breakdown, but dies of it. -/
structure Ends (failed : Option HashError) (report : Report) : Prop where
  code : report.code = match failed with
    | none => 0
    | some .unsortable => 101
    | some _ => 1
  error : report.error = match failed with
    | none => none
    | some .unsortable => none
    | some e => some ("Error: " ++ e.message)

theorem detect_format {requested format : Format} {source rest : Source}
    (detected : detect requested source = .ok (format, rest)) : format ≠ .auto := by
  cases requested with
  | auto =>
    rw [detect] at detected
    dsimp only at detected
    split at detected
    · injection detected with detected
      injection detected with detected
      split at detected <;> rw [← detected] <;> decide
    · injection detected with detected
      injection detected with detected
      rw [← detected]
      decide
    · cases detected
  | xml => cases detected; decide
  | json => cases detected; decide

/-- Where one output is asked for, the results are single values under its name. -/
theorem exists_values {settings : Settings} {source : Source} {format : Format} {results : List (Except HashError Results)}
    {before : List Results} {failed : Option HashError} {output : Output} (events : EventResults settings source format results)
    (precede : Precede results before failed) (single : settings.outputs = [output]) :
    ∃ values : List String, before = values.map fun value => ⟨[(output.key, value)]⟩ := by
  have each : ∀ result ∈ before, ∃ value, result = (⟨[(output.key, value)]⟩ : Results) := by
    intro result member
    obtain ⟨form, rfl⟩ := events.exists_form (precede.mem member)
    rw [single]
    exact ⟨_, rfl⟩
  clear precede
  induction before with
  | nil => exact ⟨[], rfl⟩
  | cons result before ih =>
    obtain ⟨first, others⟩ := List.forall_mem_cons.mp each
    obtain ⟨value, rfl⟩ := first
    obtain ⟨values, rfl⟩ := ih others
    exact ⟨value :: values, rfl⟩

theorem singleText_values (name : String) (values : List String) :
    singleText (values.map fun value => ⟨[(name, value)]⟩) = "".intercalate (values.map (· ++ "\n")) := by
  rw [singleText, List.map_map]
  rfl

theorem linesText_values (values : List String) :
    linesText (values.map fun value => ⟨[(Output.prehashName, value)]⟩) = "\n".intercalate (values.map (· ++ "\n")) := by
  rw [linesText, List.map_map]
  rfl

namespace Invocation

variable {invocation : Invocation} {outcome : List (Except HashError Results)} {before : List Results}
  {failed : Option HashError}

theorem run_source {settings : Settings} (built : invocation.settings = .ok settings) {source rest : Source}
    {format : Format} (detected : detect invocation.format source = .ok (format, rest)) :
    invocation.run (.source source) = invocation.report (hashSource settings format rest) := by
  simp only [run, built, detected]

theorem ended_ends (output : String) (e : HashError) : Ends (some e) (.ended output e) := by
  cases e <;> exact ⟨rfl, rfl⟩

theorem output_ended (output : String) (e : HashError) : (Report.ended output e).output = output := by
  cases e <;> rfl

theorem report_ends (split : splitResults outcome = (before, failed)) : Ends failed (invocation.report outcome) := by
  rw [report, split]
  dsimp only
  split
  case h_1 | h_3 | h_5 => exact ⟨rfl, rfl⟩
  case h_2 | h_4 | h_6 => exact ended_ends _ _

theorem report_prints {settings : Settings} {source : Source} {format : Format} {results : List (Except HashError Results)}
    (built : invocation.settings = .ok settings) (events : EventResults settings source format results)
    (precede : Precede results before failed) (split : splitResults outcome = (before, failed)) :
    Prints invocation.command before failed (invocation.report outcome).output := by
  rw [report, split]
  cases command : invocation.command with
  | canonicalize =>
    obtain ⟨values, rfl⟩ := exists_values events precede (outputs_of_canonicalize command built)
    have printed : Prints .canonicalize _ failed _ := .lines values failed
    rw [← linesText_values] at printed
    cases failed with
    | none => exact printed
    | some e => exact (output_ended _ e).symm ▸ printed
  | hash algorithms prehash separator single =>
    cases single with
    | true =>
      obtain ⟨output, one⟩ := exists_output_of_single command built
      obtain ⟨values, rfl⟩ := exists_values events precede one
      have printed : Prints (.hash algorithms prehash separator true) _ failed _ := .values output.key values failed
      rw [← singleText_values] at printed
      cases failed with
      | none => exact printed
      | some e => exact (output_ended _ e).symm ▸ printed
    | false =>
      cases failed with
      | some e => exact (output_ended "" e).symm ▸ .nothing before e
      | none =>
        refine .whole ?_ fun value => Json.denotes_pretty (Results.value_literal before)
        intro result member
        obtain ⟨form, rfl⟩ := events.exists_form (precede.mem member)
        exact Results.nodup_ofForm form _ _ _

end Invocation

/-- A run that comes to the events reports the results before the first error as its command prints them, and this
    error unless the sorting breaks down there. Any other run fails and prints nothing. -/
theorem run_reports (invocation : Invocation) (opened : Opened) :
    (∃ settings format source results before failed,
      Begins invocation opened settings format source ∧ EventResults settings source format results ∧
      Precede results before failed ∧ Prints invocation.command before failed (invocation.run opened).output ∧
      Ends failed (invocation.run opened)) ∨
    (∀ settings format source, ¬ Begins invocation opened settings format source) ∧
      ∃ error, invocation.run opened = .failure "" error := by
  cases built : invocation.settings with
  | error error =>
    right
    refine ⟨?_, _, by rw [Invocation.run, built]⟩
    rintro _ _ _ ⟨built', -⟩
    cases built.symm.trans built'
  | ok settings =>
    cases opened with
    | failed path reason =>
      right
      refine ⟨?_, _, by rw [Invocation.run, built]⟩
      rintro _ _ _ ⟨⟩
    | source source =>
      cases detected : detect invocation.format source with
      | error text =>
        right
        refine ⟨?_, "failed to write output: " ++ text, by simp only [Invocation.run, built, detected]⟩
        rintro _ _ _ ⟨_, detected'⟩
        cases detected.symm.trans detected'
      | ok found =>
        obtain ⟨format, rest⟩ := found
        obtain ⟨results, events⟩ := EventResults.exists_of_format settings rest (detect_format detected)
        obtain ⟨before, failed, precede, split⟩ := exists_precede results
        rw [← events.hashSource_eq] at split
        rw [Invocation.run_source built detected]
        exact .inl ⟨settings, format, rest, results, before, failed, ⟨built, detected⟩, events, precede,
          Invocation.report_prints built events precede split, Invocation.report_ends split⟩

def plainRun : Invocation where
  command := .canonicalize
  input := none
  format := .auto
  version := "2.0"
  exclude := none
  keepsDefaults := true

def hashRun : Invocation := { plainRun with command := .hash [] false "" false }

/-- A run dies where the sorting breaks down: it neither succeeds nor fails as others do. -/
theorem not_run_reports_disordered :
    ¬ ∀ (invocation : Invocation) (opened : Opened) (algorithms : List String) (prehash : Bool) (separator : String),
      invocation.command = .hash algorithms prehash separator false →
      (∃ settings format source, Begins invocation opened settings format source) →
      (invocation.run opened).code = 0 ∨ (invocation.run opened).code = 1 ∧ (invocation.run opened).output = "" := by
  intro reports
  let source := Source.whole (Text.bytesOf EventTree.disorderedText)
  have begins : Begins hashRun (.source source) Settings.standard .json source := ⟨by decide +kernel, by decide +kernel⟩
  have dies : (hashRun.run (.source source)).code = 101 := by decide +kernel
  have ends := reports hashRun (.source source) [] false "" rfl ⟨_, _, _, begins⟩
  rw [dies] at ends
  rcases ends with success | ⟨failure, -⟩
  · cases success
  · cases failure

example :
    plainRun.run (.source (.whole (Text.bytesOf
      "[\x7B\"type\":\"ObjectEvent\",\"action\":\"ADD\"\x7D,\x7B\"type\":\"ObjectEvent\",\"eventTime\":\"x\"\x7D]"))) =
      .failure "eventType=ObjectEvent\naction=ADD\n"
        "canonicalization failed: eventTime ('x') is not a valid timestamp" := by
  decide +kernel

end CommandLine

end EpcisDigest
