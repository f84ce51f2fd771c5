import EpcisDigest.Proofs.Identifier.Keys

namespace EpcisDigest

/-- Only an extension that is empty or 0 may be written in two ways. -/
def Remainder.Same : Remainder → List String → List String → Prop
  | .optional _, [part], [part'] => part = part' ∨ (part = "0" ∨ part = "") ∧ (part' = "0" ∨ part' = "")
  | _, others, others' => others = others'

def Remainder.Moved : Remainder → List String → List String → Prop
  | .pieces _, [piece, total, serial], [piece', total', serial'] =>
    piece ++ total = piece' ++ total' ∧ piece.length ≠ piece'.length ∧ serial = serial'
  | _, _, _ => False

namespace Scheme

variable (scheme : Scheme)

inductive Same : List String → List String → Prop where
  | intro {company reference company' reference' : String} {others others' : List String}
    (digits : scheme.key.digits company reference = scheme.key.digits company' reference')
    (behind : scheme.remainder.Same others others') :
    Same (company :: reference :: others) (company' :: reference' :: others')

/-- The components are different and lost in the link: nothing divides piece from total, and a key that is not checked
    may itself have the mark that divides it from the serial number. -/
inductive Merged : List String → List String → Prop where
  | pieces {company reference company' reference' : String} {others others' : List String}
    (digits : scheme.key.digits company reference = scheme.key.digits company' reference')
    (behind : scheme.remainder.Moved others others') :
    Merged (company :: reference :: others) (company' :: reference' :: others')
  | serials {company reference serial company' reference' serial' label : String}
    (joined : scheme.key = .joined) (labelled : scheme.remainder = .labelled label)
    (other : company ++ reference ≠ company' ++ reference')
    (marked : '/' ∈ (company ++ reference).toList ∨ '/' ∈ (company' ++ reference').toList)
    (run : company ++ reference ++ pathStep label serial = company' ++ reference' ++ pathStep label serial') :
    Merged [company, reference, serial] [company', reference', serial']

end Scheme

theorem not_mem_of_isDigitString {s : String} (numeric : IsDigitString s) : '/' ∉ s.toList := by
  intro member
  exact absurd (numeric.2 _ member) (by decide)

theorem pathStep_ne_empty (label text : String) : pathStep label text ≠ "" := by
  intro empty
  exact absurd (String.append_eq_empty_iff.mp empty).1 (by decide)

theorem pathStep_inj {label text text' : String} : pathStep label text = pathStep label text' ↔ text = text' := by
  rw [pathStep, pathStep, String.append_right_inj, String.append_assoc, String.append_assoc, String.append_right_inj,
    String.append_right_inj]

theorem append_pathStep_inj {front front' label text text' : String} (free : '/' ∉ front.toList)
    (free' : '/' ∉ front'.toList) (same : front ++ pathStep label text = front' ++ pathStep label text') :
    front = front' ∧ text = text' := by
  obtain ⟨whole, behind⟩ := Text.append_sep_inj free free' same
  exact ⟨whole, pathStep_inj.mp (congrArg ("/" ++ ·) behind)⟩

theorem append_inj_of_length {s t s' t' : String} (size : s.length = s'.length) :
    s ++ t = s' ++ t' ↔ s = s' ∧ t = t' := by
  constructor
  · intro same
    rw [← String.toList_inj, String.toList_append, String.toList_append] at same
    obtain ⟨front, back⟩ := List.append_inj same (by rw [String.length_toList, String.length_toList, size])
    exact ⟨String.toList_inj.mp front, String.toList_inj.mp back⟩
  · rintro ⟨rfl, rfl⟩
    rfl

namespace Remainder

theorem pieces_text_eq_iff {label piece total serial piece' total' serial' : String}
    (numeric : IsDigitString piece ∧ IsDigitString total) (numeric' : IsDigitString piece' ∧ IsDigitString total') :
    piece ++ total ++ pathStep label serial = piece' ++ total' ++ pathStep label serial' ↔
      (pieces label).Same [piece, total, serial] [piece', total', serial'] ∨
        (pieces label).Moved [piece, total, serial] [piece', total', serial'] := by
  simp only [Same, Moved, List.cons.injEq, and_true]
  constructor
  · intro same
    obtain ⟨run, serials⟩ := append_pathStep_inj (not_mem_of_isDigitString (numeric.1.append numeric.2))
      (not_mem_of_isDigitString (numeric'.1.append numeric'.2)) same
    by_cases size : piece.length = piece'.length
    · obtain ⟨pieces, totals⟩ := (append_inj_of_length size).mp run
      exact .inl ⟨pieces, totals, serials⟩
    · exact .inr ⟨run, size, serials⟩
  · rintro (⟨rfl, rfl, rfl⟩ | ⟨run, -, rfl⟩)
    · rfl
    · rw [run]

theorem optional_text_eq_iff {label part part' : String} :
    ((if part = "0" ∨ part = "" then "" else pathStep label part) =
      if part' = "0" ∨ part' = "" then "" else pathStep label part') ↔
      (optional label).Same [part] [part'] := by
  simp only [Same]
  by_cases absent : part = "0" ∨ part = "" <;> by_cases absent' : part' = "0" ∨ part' = ""
  · simp [absent, absent']
  · rw [if_pos absent, if_neg absent']
    have other : part ≠ part' := fun same => absent' (same ▸ absent)
    simp [absent', other, (pathStep_ne_empty label part').symm]
  · rw [if_neg absent, if_pos absent']
    have other : part ≠ part' := fun same => absent (same ▸ absent')
    simp [absent, other, pathStep_ne_empty label part]
  · rw [if_neg absent, if_neg absent', pathStep_inj]
    simp [absent]

theorem text?_nothing {others : List String} {text : String} (behind : text? .nothing others = some text) :
    others = [] ∧ text = "" := by
  cases others with
  | nil => exact ⟨rfl, (Option.some.inj behind).symm⟩
  | cons part others => cases behind

theorem text?_labelled {label text : String} {others : List String}
    (behind : text? (.labelled label) others = some text) :
    ∃ serial, others = [serial] ∧ text = pathStep label serial := by
  rcases others with _ | ⟨serial, _ | ⟨other, others⟩⟩
  · cases behind
  · exact ⟨serial, rfl, (Option.some.inj behind).symm⟩
  · cases behind

theorem text_eq_iff {remainder : Remainder} {others others' : List String} {text text' : String}
    (behind : remainder.text? others = some text) (behind' : remainder.text? others' = some text') :
    text = text' ↔ remainder.Same others others' ∨ remainder.Moved others others' := by
  unfold text? at behind behind'
  cases remainder
  -- both texts come from the one shape of components that the remainder has
  all_goals
    split at behind <;> split at behind'
  all_goals try contradiction
  case h_1 =>
    rw [← Option.some.inj behind, ← Option.some.inj behind']
    simp [Same]
  case h_2 =>
    rw [← Option.some.inj behind, ← Option.some.inj behind']
    simp [Same, Moved]
  case h_3 label _ _ _ part labels _ _ _ part' labels' =>
    cases labels
    cases labels'
    rw [← Option.some.inj behind, ← Option.some.inj behind', pathStep_inj]
    simp [Same, Moved]
  case h_4 label _ _ _ part labels _ _ _ part' labels' =>
    cases labels
    cases labels'
    rw [← Option.some.inj behind, ← Option.some.inj behind', optional_text_eq_iff]
    simp [Moved]
  case h_5 label _ _ _ piece total serial labels _ _ _ piece' total' serial' labels' =>
    cases labels
    cases labels'
    simp only [Option.ite_none_right_eq_some, Bool.and_eq_true, isDigits_iff, Option.some.injEq] at behind behind'
    rw [← behind.2, ← behind'.2, pieces_text_eq_iff behind.1 behind'.1]
  case h_6 =>
    simp only [Option.ite_none_right_eq_some, Option.some.injEq] at behind behind'
    simp [Same, ← behind.2, ← behind'.2, behind.1, behind'.1]

end Remainder

namespace KeyForm

variable {form : KeyForm} {company reference key company' reference' key' : String}

theorem key_eq_iff (found : form.key? company reference = some key)
    (found' : form.key? company' reference' = some key') :
    key = key' ↔ form.digits company reference = form.digits company' reference' := by
  cases form with
  | checked length isLed =>
    constructor
    · intro same
      obtain ⟨-, -, -, -, check, whole⟩ := key?_eq_some_iff.mp found
      obtain ⟨-, -, -, -, check', whole'⟩ := key?_eq_some_iff.mp found'
      rw [whole, whole', String.push_inj] at same
      exact same.1
    · intro same
      have made := withCheckDigit?_of_key? found
      rw [same, withCheckDigit?_of_key? found'] at made
      exact (Option.some.inj made).symm
  | joined =>
    rw [← Option.some.inj found, ← Option.some.inj found']
    rfl

end KeyForm

namespace Scheme

theorem remainder_of_joined {scheme : Scheme} (member : scheme ∈ schemes) (joined : scheme.key = .joined) :
    scheme.remainder = .nothing ∨ scheme.remainder = .labelled "8011" := by
  have all : ∀ scheme ∈ schemes, scheme.key = .joined →
    scheme.remainder = .nothing ∨ scheme.remainder = .labelled "8011" := by decide
  exact all scheme member joined

/-- Two keys that differ and still give one text: they are joined, and one has the mark that ends it. -/
theorem merged_of_keys_ne {scheme : Scheme} (member : scheme ∈ schemes)
    {company reference company' reference' text text' key key' : String} {others others' : List String}
    (behind : scheme.remainder.text? others = some text) (behind' : scheme.remainder.text? others' = some text')
    (found : scheme.key.key? company reference = some key) (found' : scheme.key.key? company' reference' = some key')
    (same : key ++ text = key' ++ text') (other : key ≠ key') :
    scheme.Merged (company :: reference :: others) (company' :: reference' :: others') := by
  cases form : scheme.key with
  | checked length isLed =>
    rw [form] at found found'
    have size : key.length = key'.length :=
      (KeyForm.key?_eq_some_iff.mp found).2.size.trans (KeyForm.key?_eq_some_iff.mp found').2.size.symm
    exact absurd ((append_inj_of_length size).mp same).1 other
  | joined =>
    rw [form] at found found'
    obtain rfl := Option.some.inj found
    obtain rfl := Option.some.inj found'
    rcases remainder_of_joined member form with none | labelled
    · rw [none] at behind behind'
      rw [(Remainder.text?_nothing behind).2, (Remainder.text?_nothing behind').2] at same
      exact absurd (String.append_left_inj "" |>.mp same) other
    · rw [labelled] at behind behind'
      obtain ⟨serial, rfl, rfl⟩ := Remainder.text?_labelled behind
      obtain ⟨serial', rfl, rfl⟩ := Remainder.text?_labelled behind'
      refine .serials form labelled other ?_ same
      by_cases first : '/' ∈ (company ++ reference).toList
      · exact .inl first
      · by_cases second : '/' ∈ (company' ++ reference').toList
        · exact .inr second
        · exact absurd (append_pathStep_inj first second same).1 other

theorem link_eq_iff {scheme : Scheme} (member : scheme ∈ schemes) {components components' : List String}
    {link link' : String} (has : scheme.link? components = some link) (has' : scheme.link? components' = some link') :
    link = link' ↔ scheme.Same components components' ∨ scheme.Merged components components' := by
  obtain ⟨company, reference, others, text, key, rfl, behind, found, rfl⟩ := link?_eq_some_iff.mp has
  obtain ⟨company', reference', others', text', key', rfl, behind', found', rfl⟩ := link?_eq_some_iff.mp has'
  rw [digitalLink_append, digitalLink_append, String.append_assoc, String.append_assoc, String.append_right_inj]
  constructor
  · intro same
    -- the same key leaves the texts behind it to compare, and two keys of one length are the same
    by_cases keys : key = key'
    · rw [keys, String.append_right_inj] at same
      have digits := (KeyForm.key_eq_iff found found').mp keys
      exact ((Remainder.text_eq_iff behind behind').mp same).imp (.intro digits) (.pieces digits)
    · exact .inr (merged_of_keys_ne member behind behind' found found' same keys)
  · rintro (⟨digits, others_same⟩ | ⟨digits, moved⟩ | ⟨joined, labelled, -, -, run⟩)
    · rw [(KeyForm.key_eq_iff found found').mpr digits, (Remainder.text_eq_iff behind behind').mpr (.inl others_same)]
    · rw [(KeyForm.key_eq_iff found found').mpr digits, (Remainder.text_eq_iff behind behind').mpr (.inr moved)]
    · rw [joined] at found found'
      rw [labelled] at behind behind'
      rw [← Option.some.inj found, ← Option.some.inj found', ← Option.some.inj behind, ← Option.some.inj behind']
      exact run

theorem name_of_pieces {scheme : Scheme} (member : scheme ∈ schemes) {label : String}
    (form : scheme.remainder = .pieces label) : scheme.name = "itip" := by
  have all : ∀ scheme ∈ schemes, ∀ label, scheme.remainder = .pieces label → scheme.name = "itip" := by simp [schemes]
  exact all scheme member label form

theorem name_of_joined {scheme : Scheme} (member : scheme ∈ schemes) {label : String} (joined : scheme.key = .joined)
    (labelled : scheme.remainder = .labelled label) : scheme.name = "cpi" := by
  have all : ∀ scheme ∈ schemes, ∀ label, scheme.key = .joined → scheme.remainder = .labelled label →
    scheme.name = "cpi" := by simp [schemes]
  exact all scheme member label joined labelled

theorem Merged.name {scheme : Scheme} (member : scheme ∈ schemes) {components components' : List String}
    (merged : scheme.Merged components components') : scheme.name = "itip" ∨ scheme.name = "cpi" := by
  cases merged with
  | pieces digits moved =>
    cases form : scheme.remainder with
    | pieces label => exact .inl (name_of_pieces member form)
    | _ => simp [form, Remainder.Moved] at moved
  | serials joined labelled => exact .inr (name_of_joined member joined labelled)

end Scheme

/-- URNs of one scheme have the same link if they say the same; others merge only where nothing in the link says where
    a component ends. -/
theorem links_eq_iff {level : UrnLevel} {name body body' link link' : String} (plain : ':' ∉ name.toList)
    (has : digitalLink? (level.lead ++ (name ++ ":" ++ body)) = some link)
    (has' : digitalLink? (level.lead ++ (name ++ ":" ++ body')) = some link') :
    ∃ scheme ∈ schemes, scheme.level = level ∧ scheme.name = name ∧
      ∃ components components', Text.Separated '.' components body ∧ Text.Separated '.' components' body' ∧
        (link = link' ↔ scheme.Same components components' ∨ scheme.Merged components components') ∧
        (scheme.Merged components components' → name = "itip" ∨ name = "cpi") := by
  have parsed : ∀ body, Urn.parse? (level.lead ++ (name ++ ":" ++ body)) = some ⟨level, name, Text.pieces '.' body⟩ :=
    fun body => parse?_eq_some_iff.mpr ⟨plain, body, Text.pieces_eq_iff.mp rfl, rfl⟩
  rw [digitalLink?, parsed, Option.bind_some] at has has'
  obtain ⟨scheme, member, rfl, rfl⟩ := exists_scheme has
  rw [link?_scheme scheme member] at has has'
  exact ⟨scheme, member, rfl, rfl, _, _, Text.pieces_eq_iff.mp rfl, Text.pieces_eq_iff.mp rfl,
    Scheme.link_eq_iff member has has', Scheme.Merged.name member⟩

theorem links_eq_iff_itip :
    ∃ scheme ∈ schemes, scheme.level = .individual ∧ scheme.name = "itip" ∧
      ∃ components components', Text.Separated '.' components "0614141.812345.1.23.x" ∧
        Text.Separated '.' components' "0614141.812345.12.3.x" ∧
        (scheme.Same components components' ∨ scheme.Merged components components') := by
  have has : digitalLink? (UrnLevel.individual.lead ++ ("itip" ++ ":" ++ "0614141.812345.1.23.x")) =
    some "https://id.gs1.org/8006/80614141123458123/21/x" := by decide
  have has' : digitalLink? (UrnLevel.individual.lead ++ ("itip" ++ ":" ++ "0614141.812345.12.3.x")) =
    some "https://id.gs1.org/8006/80614141123458123/21/x" := by decide
  obtain ⟨scheme, member, level, name, components, components', parts, parts', same, -⟩ :=
    links_eq_iff (by decide) has has'
  exact ⟨scheme, member, level, name, components, components', parts, parts', same.mp rfl⟩

example : digitalLink? "urn:epc:id:cpi:1.2/8011/3.4" = some "https://id.gs1.org/8010/12/8011/3/8011/4" ∧
    digitalLink? "urn:epc:id:cpi:1.2.3/8011/4" = some "https://id.gs1.org/8010/12/8011/3/8011/4" := by decide

/-- Nothing divides the piece from the total, and their lengths are not tested. -/
theorem not_links_distinct : ¬ ∀ scheme ∈ schemes, ∀ body body' link,
    digitalLink? (scheme.urn body) = some link → digitalLink? (scheme.urn body') = some link →
      scheme.Same (Text.pieces '.' body) (Text.pieces '.' body') := by
  intro distinct
  have same := distinct ⟨.individual, "itip", .checked 14 true, "8006", "", .pieces "21"⟩ (by decide)
    "0614141.812345.1.23.x" "0614141.812345.12.3.x" "https://id.gs1.org/8006/80614141123458123/21/x" (by decide)
    (by decide)
  have parts : Text.pieces '.' "0614141.812345.1.23.x" = ["0614141", "812345", "1", "23", "x"] := by decide
  have parts' : Text.pieces '.' "0614141.812345.12.3.x" = ["0614141", "812345", "12", "3", "x"] := by decide
  rw [parts, parts'] at same
  obtain ⟨-, behind⟩ := same
  exact absurd behind (by simp [Remainder.Same])

end EpcisDigest
