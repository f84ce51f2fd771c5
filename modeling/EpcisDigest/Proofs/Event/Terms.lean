import EpcisDigest.Event.Leaf
import EpcisDigest.Proofs.Text.Pieces

namespace EpcisDigest

/-- The fields that hold a term by themselves, with the segment of the URNs of their vocabulary and what its web
    addresses begin with. -/
def termFields : List (String × String × String) :=
  [("bizStep", "bizstep", "https://ref.gs1.org/cbv/BizStep-"), ("disposition", "disp", "https://ref.gs1.org/cbv/Disp-"),
    ("set", "disp", "https://ref.gs1.org/cbv/Disp-"), ("unset", "disp", "https://ref.gs1.org/cbv/Disp-"),
    ("reason", "er", "https://ref.gs1.org/cbv/ER-")]

def termLists : List (String × String × String) :=
  [("bizTransactionList", "btt", "https://ref.gs1.org/cbv/BTT-"), ("sourceList", "sdt", "https://ref.gs1.org/cbv/SDT-"),
    ("destinationList", "sdt", "https://ref.gs1.org/cbv/SDT-")]

def vocabularySpellings (segment lead term : String) : List String :=
  [term, "urn:epcglobal:cbv:" ++ segment ++ ":" ++ term, lead ++ term]

def shortened (text : String) : List String :=
  [text, "gs1:" ++ text, "cbv:" ++ text]

/-- The spellings of a term in a field of the parent: the field, the term, its web address, and the texts that stand for
    this address. -/
inductive Spellings (parent : String) : (name term address : String) → List String → Prop where
  | field {name segment lead term : String} (row : (name, segment, lead) ∈ termFields)
      (unlisted : parent ∉ identifierLists) :
      Spellings parent name term (lead ++ term) (vocabularySpellings segment lead term)
  | entry {segment lead term : String} (row : (parent, segment, lead) ∈ termLists) :
      Spellings parent "type" term (lead ++ term) (vocabularySpellings segment lead term)
  | measurement {term : String} (report : parent = "sensorReport") :
      Spellings parent "type" term ("https://gs1.org/voc/" ++ term) (("https://gs1.org/voc/" ++ term) :: shortened term)
  | alert {term : String} (report : parent = "sensorReport") (plain : Text.startsWith "SensorAlertType-" term = false) :
      Spellings parent "exception" term ("https://gs1.org/voc/SensorAlertType-" ++ term)
        (("https://gs1.org/voc/SensorAlertType-" ++ term) :: (shortened term ++ shortened ("SensorAlertType-" ++ term)))
  | component {term : String} (report : parent = "sensorReport") (plain : Text.startsWith "Comp-" term = false) :
      Spellings parent "component" term ("https://ref.gs1.org/cbv/Comp-" ++ term)
        (("https://ref.gs1.org/cbv/Comp-" ++ term) :: (shortened term ++ shortened ("Comp-" ++ term)))

section Texts

variable {lead front rest term : String}

theorem startsWith_of_free {c : Char} (inLead : c ∈ lead.toList) (free : c ∉ term.toList) :
    Text.startsWith lead term = false := by
  rw [Bool.eq_false_iff]
  intro starts
  obtain ⟨rest, whole⟩ := List.isPrefixOf_iff_prefix.mp starts
  apply free
  rw [← whole]
  exact List.mem_append_left _ inLead

def Diverge (lead front : String) : Prop :=
  Text.startsWith lead front = false ∧ Text.startsWith front lead = false

instance (lead front : String) : Decidable (Diverge lead front) :=
  inferInstanceAs (Decidable (_ ∧ _))

theorem Diverge.startsWith (diverge : Diverge lead front) (rest : String) :
    Text.startsWith lead (front ++ rest) = false := by
  rw [Bool.eq_false_iff]
  intro starts
  rw [Text.startsWith, String.toList_append, List.isPrefixOf_iff_prefix] at starts
  rcases List.prefix_or_prefix_of_prefix starts (List.prefix_append _ _) with shorter | longer
  · exact Bool.eq_false_iff.mp diverge.1 (List.isPrefixOf_iff_prefix.mpr shorter)
  · exact Bool.eq_false_iff.mp diverge.2 (List.isPrefixOf_iff_prefix.mpr longer)

theorem after?_eq_none : Text.after? lead term = none ↔ Text.startsWith lead term = false := by
  simp [Text.after?]

theorem exists_rest_of_startsWith (starts : Text.startsWith lead front = true) (term : String) :
    ∃ rest, front ++ term = lead ++ rest := by
  obtain ⟨rest, whole⟩ := List.isPrefixOf_iff_prefix.mp starts
  refine ⟨String.ofList rest ++ term, ?_⟩
  rw [← String.toList_inj]
  simp [← whole]

theorem after?_append (lead term : String) : Text.after? lead (lead ++ term) = some term :=
  Text.after?_eq_some_iff.mpr rfl

end Texts

section Values

variable {term front rest : String}

theorem isBare_of_free (filled : term ≠ "") (free : ':' ∉ term.toList) : Vocabulary.isBare term = true := by
  simp [Vocabulary.isBare, Text.contains, filled, free]

theorem isBare_append (marked : ':' ∈ front.toList) (rest : String) : Vocabulary.isBare (front ++ rest) = false := by
  simp [Vocabulary.isBare, Text.contains, marked]

theorem isEpcUrn_of_free (free : ':' ∉ term.toList) : isEpcUrn term = false := by
  simp only [isEpcUrn, List.any_eq_false, Bool.not_eq_true]
  intro level _
  exact startsWith_of_free (by cases level <;> decide) free

theorem isEpcUrn_append (diverge : ∀ level : UrnLevel, Diverge level.lead front) (rest : String) :
    isEpcUrn (front ++ rest) = false := by
  simp only [isEpcUrn, List.any_eq_false, Bool.not_eq_true]
  intro level _
  exact (diverge level).startsWith rest

theorem isAbsolute_of_free (free : ':' ∉ term.toList) : Vocabulary.isAbsolute term = false := by
  have http := startsWith_of_free (show ':' ∈ ("http://").toList by decide) free
  have https := startsWith_of_free (show ':' ∈ ("https://").toList by decide) free
  have urn := startsWith_of_free (show ':' ∈ ("urn:").toList by decide) free
  simp [Vocabulary.isAbsolute, http, https, urn]

theorem webUriOfUrn?_of_free (free : ':' ∉ term.toList) : Vocabulary.webUriOfUrn? term = none := by
  have unled : Text.after? Vocabulary.urnLead term = none :=
    after?_eq_none.mpr (startsWith_of_free (show ':' ∈ Vocabulary.urnLead.toList by decide) free)
  simp [Vocabulary.webUriOfUrn?, unled]

theorem webUriOfUrn?_urn {vocabulary : Vocabulary} {segment : String}
    (known : Vocabulary.ofUrnSegment? segment = some vocabulary) (free : ':' ∉ segment.toList) (term : String) :
    Vocabulary.webUriOfUrn? ("urn:epcglobal:cbv:" ++ segment ++ ":" ++ term) = some (vocabulary.webUri term) := by
  have after : Text.after? Vocabulary.urnLead ("urn:epcglobal:cbv:" ++ segment ++ ":" ++ term) =
      some (segment ++ ":" ++ term) := by
    rw [Text.after?_eq_some_iff, Vocabulary.urnLead, String.append_assoc, String.append_assoc, String.append_assoc]
  have cut : Text.cut? ':' (segment ++ ":" ++ term) = some (segment, term) := Text.cut?_eq_some_iff.mpr ⟨free, rfl⟩
  simp [Vocabulary.webUriOfUrn?, after, cut, known]

theorem isAbsolute_append (diverge : ∀ lead ∈ ["http://", "https://", "urn:"], Diverge lead front) (rest : String) :
    Vocabulary.isAbsolute (front ++ rest) = false := by
  simp only [List.mem_cons, List.not_mem_nil, or_false, forall_eq_or_imp, forall_eq] at diverge
  obtain ⟨http, https, urn⟩ := diverge
  simp [Vocabulary.isAbsolute, http.startsWith rest, https.startsWith rest, urn.startsWith rest]

theorem shortNumber?_of_head {value : String} {c : Char} (head : value.toList.head? = some c)
    (digit : c.isDigit = false) (minus : c ≠ '-') : shortNumber? value = none := by
  obtain ⟨cs, first⟩ := List.head?_eq_some_iff.mp head
  simp [shortNumber?, first, Decimal.ofChars?, Decimal.ofUnsigned?, digit, minus]

theorem isEventType_web (rest : String) : isEventType ("https://" ++ rest) = false := by
  have others : ∀ type ∈ eventTypes, Text.startsWith "https://" type = false := by decide
  rw [isEventType, Bool.eq_false_iff, Ne, List.contains_iff_mem]
  intro member
  have unled := others _ member
  rw [← after?_eq_none, after?_append] at unled
  cases unled

/-- Of the rules that come behind times, only the last is for a web address. -/
theorem afterTimes_web (parent name rest : String) :
    Leaf.afterTimes parent name ("https://" ++ rest) = Leaf.line name ("https://" ++ rest) := by
  have unled : Text.after? Vocabulary.urnLead ("https://" ++ rest) = none :=
    after?_eq_none.mpr (Diverge.startsWith (by decide) rest)
  have urn : Vocabulary.webUriOfUrn? ("https://" ++ rest) = none := by simp [Vocabulary.webUriOfUrn?, unled]
  have bare := isBare_append (show ':' ∈ ("https://").toList by decide) rest
  have gs1 : Vocabulary.withoutGs1? ("https://" ++ rest) = none :=
    after?_eq_none.mpr (Diverge.startsWith (by decide) rest)
  have type := isEventType_web rest
  have filled : "https://" ++ rest ≠ "" := by simp
  have number : shortNumber? ("https://" ++ rest) = none :=
    shortNumber?_of_head (by rw [String.toList_append]; rfl) (show 'h'.isDigit = false by decide) (by decide)
  simp [Leaf.afterTimes, Leaf.listedType?, urn, bare, gs1, type, filled, number]

end Values

section Vocabularies

structure HoldsTerms (parent name : String) : Prop where
  unlisted : parent ∉ identifierLists
  unreported : ∀ value, Leaf.reported? parent name value = none
  untimed : name ∉ timeFields

variable {parent name term segment value : String} {vocabulary : Vocabulary}

theorem HoldsTerms.standardLine (holds : HoldsTerms parent name) (urn : isEpcUrn value = false)
    (term : Leaf.fieldTerm? name value = none) :
    Leaf.standardLine parent name value = .ok (Leaf.afterTimes parent name value) := by
  have list : identifierLists.contains parent = false := by simpa using holds.unlisted
  have time : timeFields.contains name = false := by simpa using holds.untimed
  have before : Leaf.beforeTimes? parent name value = none := by
    simp only [Leaf.beforeTimes?, list, urn, term, holds.unreported]
    rfl
  simp only [Leaf.standardLine, before, time]
  rfl

theorem HoldsTerms.standardLine_urn (holds : HoldsTerms parent name)
    (known : Vocabulary.ofUrnSegment? segment = some vocabulary) (free : ':' ∉ segment.toList) (term : String) :
    Leaf.standardLine parent name ("urn:epcglobal:cbv:" ++ segment ++ ":" ++ term) =
      .ok (Leaf.line name (vocabulary.webUri term)) := by
  have urn := webUriOfUrn?_urn known free term
  rw [String.append_assoc, String.append_assoc] at urn ⊢
  have epc : isEpcUrn ("urn:epcglobal:cbv:" ++ (segment ++ (":" ++ term))) = false :=
    isEpcUrn_append (fun level => by cases level <;> decide) _
  have bare := isBare_append (show ':' ∈ ("urn:epcglobal:cbv:").toList by decide) (segment ++ (":" ++ term))
  rw [holds.standardLine epc (by simp [Leaf.fieldTerm?, bare])]
  simp [Leaf.afterTimes, urn]

theorem HoldsTerms.standardLine_web (holds : HoldsTerms parent name) (vocabulary : Vocabulary) (term : String) :
    Leaf.standardLine parent name (vocabulary.webUri term) = .ok (Leaf.line name (vocabulary.webUri term)) := by
  have web : Text.startsWith "https://" Vocabulary.webBase = true := by decide
  obtain ⟨rest, same⟩ := exists_rest_of_startsWith web (vocabulary.termLead ++ term)
  rw [Vocabulary.webUri, String.append_assoc, same]
  have epc : isEpcUrn ("https://" ++ rest) = false := isEpcUrn_append (fun level => by cases level <;> decide) rest
  have bare := isBare_append (show ':' ∈ ("https://").toList by decide) rest
  rw [holds.standardLine epc (by simp [Leaf.fieldTerm?, bare]), afterTimes_web]

theorem standardLine_fieldTerm (unlisted : parent ∉ identifierLists)
    (known : Vocabulary.ofField? name = some vocabulary) (filled : term ≠ "") (free : ':' ∉ term.toList) :
    Leaf.standardLine parent name term = .ok (Leaf.line name (vocabulary.webUri term)) := by
  have list : identifierLists.contains parent = false := by simpa using unlisted
  have bare := isBare_of_free filled free
  have before : Leaf.beforeTimes? parent name term = some (Leaf.line name (vocabulary.webUri term)) := by
    simp [Leaf.beforeTimes?, list, isEpcUrn_of_free free, Leaf.fieldTerm?, bare, known, -List.contains_eq_mem]
  simp [Leaf.standardLine, before]

theorem HoldsTerms.standardLine_type (holds : HoldsTerms parent "type")
    (known : Vocabulary.ofTypeIn? parent = some vocabulary) (filled : term ≠ "") (free : ':' ∉ term.toList) :
    Leaf.standardLine parent "type" term = .ok (Leaf.line "type" (vocabulary.webUri term)) := by
  have bare := isBare_of_free filled free
  have urn := webUriOfUrn?_of_free free
  rw [holds.standardLine (isEpcUrn_of_free free) (by simp [Leaf.fieldTerm?, Vocabulary.ofField?])]
  simp [Leaf.afterTimes, urn, Leaf.listedType?, bare, known]

end Vocabularies

section Reports

variable {name term value address : String}

theorem standardLine_reported (field : Vocabulary.ofField? name = none) (urn : isEpcUrn value = false)
    (reported : Leaf.reported? "sensorReport" name value = some (Leaf.line name address)) :
    Leaf.standardLine "sensorReport" name value = .ok (Leaf.line name address) := by
  have list : identifierLists.contains "sensorReport" = false := by decide
  have before : Leaf.beforeTimes? "sensorReport" name value = some (Leaf.line name address) := by
    simp [Leaf.beforeTimes?, list, urn, Leaf.fieldTerm?, field, reported, -List.contains_eq_mem]
  simp [Leaf.standardLine, before]

theorem withoutShortLead_of_free (free : ':' ∉ term.toList) : Vocabulary.withoutShortLead term = term := by
  have gs1 : Text.after? "gs1:" term = none :=
    after?_eq_none.mpr (startsWith_of_free (show ':' ∈ ("gs1:").toList by decide) free)
  have cbv : Text.after? "cbv:" term = none :=
    after?_eq_none.mpr (startsWith_of_free (show ':' ∈ ("cbv:").toList by decide) free)
  simp [Vocabulary.withoutShortLead, Vocabulary.withoutGs1?, gs1, cbv]

theorem of_mem_shortened (filled : term ≠ "") (free : ':' ∉ term.toList) (member : value ∈ shortened term) :
    value ≠ "" ∧ isEpcUrn value = false ∧ Vocabulary.isAbsolute value = false ∧
      Vocabulary.withoutShortLead value = term := by
  simp only [shortened, List.mem_cons, List.not_mem_nil, or_false] at member
  rcases member with rfl | rfl | rfl
  · exact ⟨filled, isEpcUrn_of_free free, isAbsolute_of_free free, withoutShortLead_of_free free⟩
  · refine ⟨by simp, isEpcUrn_append (fun level => by cases level <;> decide) _, isAbsolute_append (by decide) _, ?_⟩
    simp [Vocabulary.withoutShortLead, Vocabulary.withoutGs1?, after?_append]
  · refine ⟨by simp, isEpcUrn_append (fun level => by cases level <;> decide) _, isAbsolute_append (by decide) _, ?_⟩
    have gs1 : Text.after? "gs1:" ("cbv:" ++ term) = none := after?_eq_none.mpr (Diverge.startsWith (by decide) _)
    simp [Vocabulary.withoutShortLead, Vocabulary.withoutGs1?, gs1, after?_append]

/-- A web address stands for itself in each field of a sensor report that holds terms. -/
theorem standardLine_reportedWeb {front : String} (field : name ∈ ["type", "exception", "component"])
    (web : Text.startsWith "https://" front = true) (term : String) :
    Leaf.standardLine "sensorReport" name (front ++ term) = .ok (Leaf.line name (front ++ term)) := by
  obtain ⟨rest, same⟩ := exists_rest_of_startsWith web term
  rw [same]
  have absolute : Vocabulary.isAbsolute ("https://" ++ rest) = true := by simp [Vocabulary.isAbsolute, Text.startsWith]
  have urn : isEpcUrn ("https://" ++ rest) = false := isEpcUrn_append (fun level => by cases level <;> decide) rest
  simp only [List.mem_cons, List.not_mem_nil, or_false] at field
  apply standardLine_reported _ urn
  · rcases field with rfl | rfl | rfl <;>
      simp [Leaf.reported?, Vocabulary.measurementType, Vocabulary.sensorAlert, Vocabulary.sensorComponent, absolute]
  · rcases field with rfl | rfl | rfl <;> rfl

theorem standardLine_measurement (filled : term ≠ "") (free : ':' ∉ term.toList) (member : value ∈ shortened term) :
    Leaf.standardLine "sensorReport" "type" value = .ok (Leaf.line "type" ("https://gs1.org/voc/" ++ term)) := by
  obtain ⟨any, urn, relative, same⟩ := of_mem_shortened filled free member
  apply standardLine_reported rfl urn
  simp [Leaf.reported?, any, Vocabulary.measurementType, relative, same, Vocabulary.measurementBase]

theorem of_mem_led {lead : String} (filled : term ≠ "") (free : ':' ∉ term.toList) (leadFilled : lead ≠ "")
    (leadFree : ':' ∉ lead.toList) (plain : Text.startsWith lead term = false)
    (member : value ∈ shortened term ++ shortened (lead ++ term)) :
    value ≠ "" ∧ isEpcUrn value = false ∧ Vocabulary.isAbsolute value = false ∧
      (Text.after? lead (Vocabulary.withoutShortLead value)).getD (Vocabulary.withoutShortLead value) = term := by
  rcases List.mem_append.mp member with plainly | led
  · obtain ⟨any, urn, relative, same⟩ := of_mem_shortened filled free plainly
    refine ⟨any, urn, relative, ?_⟩
    rw [same, after?_eq_none.mpr plain, Option.getD_none]
  · obtain ⟨any, urn, relative, same⟩ := of_mem_shortened (by simp [leadFilled]) (by simp [leadFree, free]) led
    refine ⟨any, urn, relative, ?_⟩
    rw [same, after?_append, Option.getD_some]

theorem standardLine_alert (filled : term ≠ "") (free : ':' ∉ term.toList)
    (plain : Text.startsWith "SensorAlertType-" term = false)
    (member : value ∈ shortened term ++ shortened ("SensorAlertType-" ++ term)) :
    Leaf.standardLine "sensorReport" "exception" value =
      .ok (Leaf.line "exception" ("https://gs1.org/voc/SensorAlertType-" ++ term)) := by
  obtain ⟨any, urn, relative, same⟩ := of_mem_led filled free (by decide) (by decide) plain member
  apply standardLine_reported rfl urn
  simp [Leaf.reported?, any, Vocabulary.sensorAlert, relative, same, Vocabulary.measurementBase]

theorem standardLine_component (filled : term ≠ "") (free : ':' ∉ term.toList)
    (plain : Text.startsWith "Comp-" term = false) (member : value ∈ shortened term ++ shortened ("Comp-" ++ term)) :
    Leaf.standardLine "sensorReport" "component" value =
      .ok (Leaf.line "component" ("https://ref.gs1.org/cbv/Comp-" ++ term)) := by
  obtain ⟨any, urn, relative, same⟩ := of_mem_led filled free (by decide) (by decide) plain member
  apply standardLine_reported rfl urn
  simp [Leaf.reported?, any, Vocabulary.sensorComponent, relative, Vocabulary.webUri, Vocabulary.webBase,
    Vocabulary.termLead, same]

end Reports

section Spellings

variable {parent name segment lead term value : String}

def Names (segment lead : String) (vocabulary : Vocabulary) : Prop :=
  Vocabulary.ofUrnSegment? segment = some vocabulary ∧ ':' ∉ segment.toList ∧
    lead = Vocabulary.webBase ++ vocabulary.termLead

instance (segment lead : String) (vocabulary : Vocabulary) : Decidable (Names segment lead vocabulary) :=
  inferInstanceAs (Decidable (_ ∧ _))

theorem exists_vocabulary_of_field (row : (name, segment, lead) ∈ termFields) (unlisted : parent ∉ identifierLists) :
    HoldsTerms parent name ∧
      ∃ vocabulary, Vocabulary.ofField? name = some vocabulary ∧ Names segment lead vocabulary := by
  simp only [termFields, List.mem_cons, Prod.mk.injEq, List.not_mem_nil, or_false] at row
  rcases row with ⟨rfl, rfl, rfl⟩ | ⟨rfl, rfl, rfl⟩ | ⟨rfl, rfl, rfl⟩ | ⟨rfl, rfl, rfl⟩ | ⟨rfl, rfl, rfl⟩ <;>
    exact ⟨⟨unlisted, by simp [Leaf.reported?], by decide⟩, _, rfl, by decide⟩

theorem exists_vocabulary_of_list (row : (parent, segment, lead) ∈ termLists) :
    HoldsTerms parent "type" ∧
      ∃ vocabulary, Vocabulary.ofTypeIn? parent = some vocabulary ∧ Names segment lead vocabulary := by
  simp only [termLists, List.mem_cons, Prod.mk.injEq, List.not_mem_nil, or_false] at row
  rcases row with ⟨rfl, rfl, rfl⟩ | ⟨rfl, rfl, rfl⟩ | ⟨rfl, rfl, rfl⟩ <;>
    exact ⟨⟨by decide, by simp [Leaf.reported?], by decide⟩, _, rfl, by decide⟩

theorem HoldsTerms.standardLine_spelling {vocabulary : Vocabulary} (holds : HoldsTerms parent name)
    (names : Names segment lead vocabulary)
    (bare : Leaf.standardLine parent name term = .ok (Leaf.line name (vocabulary.webUri term)))
    (member : value ∈ vocabularySpellings segment lead term) :
    Leaf.standardLine parent name value = .ok (Leaf.line name (lead ++ term)) := by
  obtain ⟨known, free, rfl⟩ := names
  simp only [vocabularySpellings, List.mem_cons, List.not_mem_nil, or_false] at member
  rcases member with rfl | rfl | rfl
  · exact bare
  · exact holds.standardLine_urn known free term
  · exact holds.standardLine_web vocabulary term

theorem Spellings.standardLine {address : String} {values : List String} (filled : term ≠ "") (free : ':' ∉ term.toList)
    (spelled : Spellings parent name term address values) (member : value ∈ values) :
    Leaf.standardLine parent name value = .ok (Leaf.line name address) := by
  cases spelled with
  | field row unlisted =>
    obtain ⟨holds, vocabulary, known, names⟩ := exists_vocabulary_of_field row unlisted
    exact holds.standardLine_spelling names (standardLine_fieldTerm unlisted known filled free) member
  | entry row =>
    obtain ⟨holds, vocabulary, known, names⟩ := exists_vocabulary_of_list row
    exact holds.standardLine_spelling names (holds.standardLine_type known filled free) member
  | measurement report =>
    subst report
    rcases List.mem_cons.mp member with rfl | short
    · exact standardLine_reportedWeb (by decide) (by decide) term
    · exact standardLine_measurement filled free short
  | alert report plain =>
    subst report
    rcases List.mem_cons.mp member with rfl | short
    · exact standardLine_reportedWeb (by decide) (by decide) term
    · exact standardLine_alert filled free plain short
  | component report plain =>
    subst report
    rcases List.mem_cons.mp member with rfl | short
    · exact standardLine_reportedWeb (by decide) (by decide) term
    · exact standardLine_component filled free plain short

/-- All spellings of a term have one line, that of its web address. -/
theorem line?_spellings {settings : Settings} {lineage : Lineage} {address : String} {values : List String}
    (filled : term ≠ "") (free : ':' ∉ term.toList) (shown : settings.isExcluded name = false)
    (spelled : Spellings (lineage.parentField?.getD "") name term address values) :
    ∀ value ∈ values, Leaf.line? settings lineage (some name) (some value) = .ok (some (name ++ "=" ++ address)) := by
  intro value member
  have line := spelled.standardLine filled free member
  simp only [Leaf.line?, shown, Option.getD_some, line]
  rfl

/-- A type that looks like a number with a fraction, and one that looks like that of an event. -/
theorem line?_spellings_numeral :
    (∀ value ∈ ["12.50", "urn:epcglobal:cbv:btt:12.50", "https://ref.gs1.org/cbv/BTT-12.50"],
      Leaf.line? Settings.standard [none, some "bizTransactionList", none] (some "type") (some value) =
        .ok (some "type=https://ref.gs1.org/cbv/BTT-12.50")) ∧
      ∀ value ∈ ["https://gs1.org/voc/ObjectEvent", "ObjectEvent", "gs1:ObjectEvent", "cbv:ObjectEvent"],
        Leaf.line? Settings.standard [some "sensorReport", none] (some "type") (some value) =
          .ok (some "type=https://gs1.org/voc/ObjectEvent") := by
  have shown : Settings.standard.isExcluded "type" = false := by decide
  have entry : Spellings "bizTransactionList" "type" "12.50" _ _ :=
    .entry (show ("bizTransactionList", "btt", "https://ref.gs1.org/cbv/BTT-") ∈ termLists by decide)
  have report : Spellings "sensorReport" "type" "ObjectEvent" _ _ := .measurement rfl
  have numeral := line?_spellings (by decide) (by decide) shown
    (show Spellings ((Lineage.parentField? [none, some "bizTransactionList", none]).getD "") _ _ _ _ from entry)
  have event := line?_spellings (by decide) (by decide) shown
    (show Spellings ((Lineage.parentField? [some "sensorReport", none]).getD "") _ _ _ _ from report)
  exact ⟨by simpa [vocabularySpellings] using numeral, by simpa [shortened] using event⟩

end Spellings

end EpcisDigest
