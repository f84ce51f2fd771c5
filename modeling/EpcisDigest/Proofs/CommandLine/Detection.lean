import EpcisDigest.Proofs.CommandLine.Reporting
import EpcisDigest.Proofs.Xml.Leading

namespace EpcisDigest.CommandLine

theorem splitResults_allOk {ε α : Type} {results : List (Except ε α)} :
    (splitResults results).2 = none ↔ AllOk results := by
  induction results with
  | nil => exact ⟨fun _ => List.forall_mem_nil _, fun _ => rfl⟩
  | cons result results ih =>
    cases result with
    | ok a =>
      rw [splitResults, AllOk, List.forall_mem_cons]
      exact ⟨fun none => ⟨rfl, ih.mp none⟩, fun allOk => ih.mpr allOk.2⟩
    | error e =>
      constructor
      · intro none
        cases none
      · intro allOk
        cases allOk _ List.mem_cons_self

namespace Invocation

variable {invocation : Invocation}

theorem report_code {outcome : List (Except HashError Results)} :
    (invocation.report outcome).code = 0 ↔ AllOk outcome := by
  have ends : Ends (splitResults outcome).2 (invocation.report outcome) := report_ends rfl
  rw [← splitResults_allOk, ends.code]
  cases (splitResults outcome).2 with
  | none => simp
  | some e => cases e <;> simp

theorem report_refused (e : Json.ReadError) : invocation.report [.error (.json e)] = .failure "" e.message := by
  rw [report, splitResults]
  rcases invocation.command with ⟨algorithms, prehash, separator, single⟩ | -
  · cases single <;> rfl
  · rfl

end Invocation

theorem detect_fixed {format : Format} (fixed : format ≠ .auto) (source : Source) :
    detect format source = .ok (format, source) := by
  cases format with
  | auto => exact absurd rfl fixed
  | xml => rfl
  | json => rfl

theorem detect_auto {source : Source} {b : UInt8} {rest : List UInt8}
    (left : source.bytes.dropWhile isLeadingBlank = b :: rest) :
    detect .auto source = .ok (if b = 0x3C then .xml else .json, ⟨b :: rest, source.failure⟩) := by
  simp only [detect, left]

theorem exists_leading (bytes : List UInt8) : ∃ blank, (∀ b ∈ blank, isLeadingBlank b = true) ∧
    bytes = blank ++ bytes.dropWhile isLeadingBlank :=
  ⟨bytes.takeWhile isLeadingBlank, fun b member => List.all_eq_true.mp List.all_takeWhile b member,
    List.takeWhile_append_dropWhile.symm⟩

section Detected

variable {settings : Settings} {source : Source}

theorem exists_detect_json (allOk : AllOk (hashJson settings source Json.defaultLimit)) :
    ∃ rest, detect .auto source = .ok (.json, rest) ∧
      hashJson settings rest Json.defaultLimit = hashJson settings source Json.defaultLimit := by
  rcases hashJson_leading allOk with mark | ⟨blank, b, rest, opens, split, same⟩
  · obtain ⟨bytes, failure⟩ := source
    obtain ⟨rest, rfl⟩ := List.head?_eq_some_iff.mp mark
    exact ⟨_, @detect_auto ⟨0xEF :: rest, failure⟩ 0xEF rest rfl, rfl⟩
  · have solid : isLeadingBlank b = false ∧ b ≠ 0x3C := by rcases opens with rfl | rfl <;> decide
    have blanks : ∀ c ∈ blank.val, isLeadingBlank c = true := fun c member =>
      Xml.isLeadingBlank_of_isSpace (Xml.isSpace_json c ▸ blank.property c member)
    have left : source.bytes.dropWhile isLeadingBlank = b :: rest := by
      rw [split, List.dropWhile_append_of_pos blanks, List.dropWhile_cons_of_neg (by simpa using solid.1)]
    have detected := detect_auto left
    rw [if_neg solid.2] at detected
    exact ⟨_, detected, same⟩

theorem exists_detect_xml (allOk : AllOk (hashXml settings source))
    (markup : (source.bytes.dropWhile isLeadingBlank).head? = some 0x3C) :
    ∃ rest, detect .auto source = .ok (.xml, rest) ∧ hashXml settings rest = hashXml settings source := by
  obtain ⟨bytes, failure⟩ := source
  obtain ⟨blank, blanks, split⟩ := exists_leading bytes
  obtain ⟨rest, left⟩ := List.head?_eq_some_iff.mp markup
  rw [left] at split
  refine ⟨_, detect_auto left, ?_⟩
  rw [split] at allOk ⊢
  refine (hashXml_leading blanks ?_ allOk).symm
  intro b head
  exact (Option.some.inj head).symm

theorem exists_detect_refused (allOk : AllOk (hashXml settings source)) (gives : hashXml settings source ≠ [])
    (noMarkup : (source.bytes.dropWhile isLeadingBlank).head? ≠ some 0x3C) :
    ∃ rest e, detect .auto source = .ok (.json, rest) ∧ hashJson settings rest Json.defaultLimit = [.error (.json e)] := by
  obtain ⟨bytes, failure⟩ := source
  obtain ⟨blank, blanks, split⟩ := exists_leading bytes
  cases left : bytes.dropWhile isLeadingBlank with
  | nil =>
    rw [left] at split
    subst split
    have same := hashXml_leading blanks (by simp) allOk
    rw [same] at allOk gives
    cases failure with
    | none => exact absurd rfl gives
    | some text => cases allOk (.error (.xml (.markup 0 .source))) List.mem_cons_self
  | cons b rest =>
    rw [left] at split noMarkup
    have other : b ≠ 0x3C := fun same => noMarkup (congrArg some same)
    have detected := @detect_auto ⟨bytes, failure⟩ b rest left
    rw [if_neg other] at detected
    obtain ⟨e, refused⟩ := @hashJson_unopened settings ⟨b :: rest, failure⟩ Json.defaultLimit (by
      intro marked before c behind opens bytes_eq
      dsimp only at bytes_eq
      rw [split, bytes_eq] at allOk
      obtain ⟨e, refused⟩ := @hashXml_bracket settings blank blanks marked before c opens behind failure
      rw [refused] at allOk
      cases allOk _ List.mem_cons_self)
    exact ⟨_, e, detected, refused⟩

end Detected

/-- A run that succeeds on a document of a given format, and reports something, has the same result when the format is
    to be found out, if the document is JSON or if markup comes first in it. Any other document is taken for JSON, and
    nothing is reported of it. -/
theorem run_auto (invocation : Invocation) {settings : Settings} (built : invocation.settings = .ok settings)
    {format : Format} (fixed : format ≠ .auto) (source : Source)
    (succeeds : (Invocation.run { invocation with format } (.source source)).code = 0)
    (reports : hashSource settings format source ≠ []) :
    if format = .json ∨ (source.bytes.dropWhile isLeadingBlank).head? = some 0x3C then
      Invocation.run { invocation with format := .auto } (.source source) =
        Invocation.run { invocation with format } (.source source)
    else ∃ error, Invocation.run { invocation with format := .auto } (.source source) = .failure "" error := by
  have fixedRun := @Invocation.run_source { invocation with format } settings built source source format
    (detect_fixed fixed source)
  have autoRun := @Invocation.run_source { invocation with format := .auto } settings built source
  rw [fixedRun, Invocation.report_code] at succeeds
  rw [fixedRun]
  cases format with
  | auto => exact absurd rfl fixed
  | json =>
    obtain ⟨rest, detected, same⟩ := exists_detect_json succeeds
    rw [if_pos (.inl rfl), autoRun detected]
    exact congrArg _ same
  | xml =>
    by_cases markup : (source.bytes.dropWhile isLeadingBlank).head? = some 0x3C
    · obtain ⟨rest, detected, same⟩ := exists_detect_xml succeeds markup
      rw [if_pos (.inr markup), autoRun detected]
      exact congrArg _ same
    · obtain ⟨rest, e, detected, refused⟩ := exists_detect_refused succeeds reports markup
      rw [if_neg (by simp [markup]), autoRun detected]
      exact ⟨_, (congrArg _ refused).trans (Invocation.report_refused e)⟩

def plainSettings : Settings where
  version := .v2_0
  excluded := defaultExcluded
  separator := "\n"
  outputs := [.prehash]
  outputs_ne_nil := List.cons_ne_nil _ _

def elementSource : Source := .whole (Text.bytesOf " <ObjectEvent/>")

def listSource : Source := .whole (Text.bytesOf " [\x7B\"type\":\"ObjectEvent\"\x7D]")

def markedSource : Source := .whole (Text.bytesOf "\uFEFF<ObjectEvent/>")

theorem run_auto_marked :
    plainRun.settings = .ok plainSettings ∧
    (Invocation.run { plainRun with format := .xml } (.source elementSource)).code = 0 ∧
    (Invocation.run { plainRun with format := .json } (.source listSource)).code = 0 ∧
    (Invocation.run { plainRun with format := .xml } (.source markedSource)).code = 0 ∧
    Invocation.run { plainRun with format := .auto } (.source elementSource) =
      Invocation.run { plainRun with format := .xml } (.source elementSource) ∧
    Invocation.run { plainRun with format := .auto } (.source listSource) =
      Invocation.run { plainRun with format := .json } (.source listSource) ∧
    ∃ error, Invocation.run { plainRun with format := .auto } (.source markedSource) = .failure "" error := by
  have built : plainRun.settings = .ok plainSettings := rfl
  have element : (Invocation.run { plainRun with format := .xml } (.source elementSource)).code = 0 := by decide +kernel
  have list : (Invocation.run { plainRun with format := .json } (.source listSource)).code = 0 := by decide +kernel
  have marked : (Invocation.run { plainRun with format := .xml } (.source markedSource)).code = 0 := by decide +kernel
  have one : (hashSource plainSettings .xml elementSource).length = 1 := by decide +kernel
  have one' : (hashSource plainSettings .json listSource).length = 1 := by decide +kernel
  have one'' : (hashSource plainSettings .xml markedSource).length = 1 := by decide +kernel
  have first := run_auto plainRun built (by decide) elementSource element (List.ne_nil_of_length_eq_add_one one)
  have second := run_auto plainRun built (by decide) listSource list (List.ne_nil_of_length_eq_add_one one')
  have third := run_auto plainRun built (by decide) markedSource marked (List.ne_nil_of_length_eq_add_one one'')
  rw [if_pos (by decide +kernel)] at first second
  rw [if_neg (by decide +kernel)] at third
  exact ⟨built, element, list, marked, first, second, third⟩

/-- A byte order mark hides that a document is XML. -/
theorem not_run_auto_agrees :
    ¬ ∀ (invocation : Invocation) (settings : Settings) (format : Format) (bytes : List UInt8),
      invocation.settings = .ok settings → format ≠ .auto →
      (Invocation.run { invocation with format } (.source (.whole bytes))).code = 0 →
      hashSource settings format (.whole bytes) ≠ [] →
      (Invocation.run { invocation with format := .auto } (.source (.whole bytes))).code = 0 ∧
        (Invocation.run { invocation with format := .auto } (.source (.whole bytes))).output =
          (Invocation.run { invocation with format } (.source (.whole bytes))).output := by
  intro agrees
  have one : (hashSource plainSettings .xml markedSource).length = 1 := by decide +kernel
  have agreed := agrees plainRun plainSettings .xml markedSource.bytes rfl (by decide) (by decide +kernel)
    (List.ne_nil_of_length_eq_add_one one)
  have failed : (Invocation.run { plainRun with format := .auto } (.source markedSource)).code = 1 := by decide +kernel
  cases failed.symm.trans agreed.1

end EpcisDigest.CommandLine
