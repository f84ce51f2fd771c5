import EpcisDigest.Proofs.Identifier.Parsing
import EpcisDigest.Proofs.Identifier.Scheme

namespace EpcisDigest

theorem IsDigitString.length_pos {s : String} (numeric : IsDigitString s) : 0 < s.length :=
  Nat.pos_of_ne_zero fun none => numeric.1 (String.length_eq_zero_iff.mp none)

theorem isDigitString_of_length_pos {s : String} (any : 0 < s.length) (all : ∀ c ∈ s.toList, c.isDigit = true) :
    IsDigitString s := by
  refine ⟨?_, all⟩
  rintro rfl
  exact absurd any (by decide)

theorem IsDigitString.append {s t : String} (left : IsDigitString s) (right : IsDigitString t) :
    IsDigitString (s ++ t) := by
  have some := left.length_pos
  refine isDigitString_of_length_pos (by rw [String.length_append]; omega) fun c member => ?_
  rw [String.toList_append] at member
  rcases List.mem_append.mp member with first | second
  · exact left.2 c first
  · exact right.2 c second

/-- The key has the given length, and its last digit checks the digits before it. -/
structure IsKey (length : Nat) (digits key : String) : Prop where
  size : key.length = length
  numeric : IsDigitString key
  checks : ChecksOut key.toList
  others : ∃ check, key = digits.push check

theorem withCheckDigit?_eq_some_iff {digits key : String} (numeric : IsDigitString digits) :
    withCheckDigit? digits = some key ↔ IsKey (digits.length + 1) digits key := by
  obtain ⟨check, found, unique⟩ := exists_checkDigit numeric
  rw [withCheckDigit?, found, Option.map_some, Option.some.injEq]
  constructor
  · rintro rfl
    obtain ⟨digit, checks⟩ := (unique check).mpr rfl
    have size : (digits.push check).length = digits.length + 1 := String.length_push check
    refine ⟨size, isDigitString_of_length_pos (by omega) fun c member => ?_, ?_, check, rfl⟩
    · rw [String.toList_push] at member
      rcases List.mem_append.mp member with among | last
      · exact numeric.2 c among
      · rw [List.mem_singleton.mp last]
        exact digit
    · rwa [String.toList_push]
  · rintro ⟨-, all, checks, other, rfl⟩
    rw [String.toList_push] at checks
    have digit := all.2 other (by rw [String.toList_push]; exact List.mem_append_right _ List.mem_cons_self)
    rw [(unique other).mp ⟨digit, checks⟩]

theorem exists_isKey {digits : String} (numeric : IsDigitString digits) :
    ∃ key, IsKey (digits.length + 1) digits key := by
  obtain ⟨check, found, -⟩ := exists_checkDigit numeric
  refine ⟨digits.push check, (withCheckDigit?_eq_some_iff numeric).mp ?_⟩
  rw [withCheckDigit?, found, Option.map_some]

namespace KeyForm

section Checked

variable {length : Nat} {isLed : Bool} {company reference key : String}

theorem key?_checked : (checked length isLed).key? company reference =
    if isDigits company && isDigits reference && company.length + reference.length == length - 1
    then withCheckDigit? ((checked length isLed).digits company reference) else none := by
  cases isLed <;> rfl

theorem withCheckDigit?_of_key? (found : (checked length isLed).key? company reference = some key) :
    withCheckDigit? ((checked length isLed).digits company reference) = some key := by
  rw [key?_checked] at found
  split at found
  case isTrue => exact found
  case isFalse => cases found

theorem digits_perm (form : KeyForm) (company reference : String) :
    (form.digits company reference).toList.Perm (company.toList ++ reference.toList) := by
  have moved : (reference.toList.take 1 ++ company.toList ++ reference.toList.drop 1).Perm
      (company.toList ++ (reference.toList.take 1 ++ reference.toList.drop 1)) := by
    rw [← List.append_assoc]
    exact List.perm_append_comm.append_right _
  rw [List.take_append_drop] at moved
  rcases form with ⟨length, isLed⟩ | _
  · cases isLed
    · simp [digits]
    · simpa [digits] using moved
  · simp [digits]

theorem length_digits (form : KeyForm) (company reference : String) :
    (form.digits company reference).length = company.length + reference.length := by
  rw [← String.length_toList, (digits_perm form company reference).length_eq, List.length_append, String.length_toList,
    String.length_toList]

theorem isDigitString_digits (form : KeyForm) (left : IsDigitString company) (right : IsDigitString reference) :
    IsDigitString (form.digits company reference) := by
  have size := length_digits form company reference
  have some := left.length_pos
  refine isDigitString_of_length_pos (by omega) fun c member => ?_
  rcases List.mem_append.mp ((digits_perm form company reference).subset member) with first | second
  · exact left.2 c first
  · exact right.2 c second

theorem key?_eq_some_iff : (checked length isLed).key? company reference = some key ↔
    (IsDigitString company ∧ IsDigitString reference ∧ company.length + reference.length + 1 = length) ∧
      IsKey length ((checked length isLed).digits company reference) key := by
  rw [key?_checked]
  constructor
  · intro found
    split at found
    case isFalse => cases found
    case isTrue conditions =>
      simp only [Bool.and_eq_true, beq_iff_eq, isDigits_iff] at conditions
      obtain ⟨⟨left, right⟩, size⟩ := conditions
      have some := left.length_pos
      have total : company.length + reference.length + 1 = length := by omega
      rw [withCheckDigit?_eq_some_iff (isDigitString_digits _ left right), length_digits, total] at found
      exact ⟨⟨left, right, total⟩, found⟩
  · rintro ⟨⟨left, right, total⟩, isKey⟩
    have conditions : (isDigits company && isDigits reference &&
        company.length + reference.length == length - 1) = true := by
      simp only [Bool.and_eq_true, beq_iff_eq, isDigits_iff]
      exact ⟨⟨left, right⟩, by omega⟩
    rw [if_pos conditions, withCheckDigit?_eq_some_iff (isDigitString_digits _ left right), length_digits, total]
    exact isKey

theorem isSome_key?_iff : ((checked length isLed).key? company reference).isSome = true ↔
    IsDigitString company ∧ IsDigitString reference ∧ company.length + reference.length + 1 = length := by
  rw [Option.isSome_iff_exists]
  constructor
  · intro ⟨key, found⟩
    exact (key?_eq_some_iff.mp found).1
  · intro fits
    obtain ⟨key, isKey⟩ := exists_isKey (isDigitString_digits (checked length isLed) fits.1 fits.2.1)
    rw [length_digits, fits.2.2] at isKey
    exact ⟨key, key?_eq_some_iff.mpr ⟨fits, isKey⟩⟩

end Checked

end KeyForm

def Remainder.Fits : Remainder → List String → Prop
  | .nothing, [] | .appended, [_] | .labelled _, [_] | .optional _, [_] => True
  | .pieces _, [piece, total, _] => IsDigitString piece ∧ IsDigitString total
  | .any, [part] => part = "*"
  | _, _ => False

theorem Remainder.isSome_text?_iff {remainder : Remainder} {others : List String} :
    (remainder.text? others).isSome = true ↔ remainder.Fits others := by
  rcases others with _ | ⟨part, _ | ⟨total, _ | ⟨serial, _ | ⟨other, others⟩⟩⟩⟩ <;> cases remainder <;>
    simp [Remainder.text?, Remainder.Fits, isDigits_iff]

namespace Scheme

def urn (scheme : Scheme) (body : String) : String :=
  scheme.level.lead ++ (scheme.name ++ ":" ++ body)

theorem not_mem_name {scheme : Scheme} (member : scheme ∈ schemes) : ':' ∉ scheme.name.toList := by
  have all : ∀ scheme ∈ schemes, ':' ∉ scheme.name.toList := by decide
  exact all scheme member

theorem link?_eq_some_iff {scheme : Scheme} {components : List String} {link : String} :
    scheme.link? components = some link ↔ ∃ company reference others text key,
      components = company :: reference :: others ∧ scheme.remainder.text? others = some text ∧
        scheme.key.key? company reference = some key ∧
        link = digitalLink [(scheme.label, scheme.filler ++ key)] ++ text := by
  rcases components with _ | ⟨company, _ | ⟨reference, others⟩⟩
  · simp [link?]
  · simp [link?]
  · simp only [link?, Option.bind_eq_some_iff, Option.map_eq_some_iff, List.cons.injEq]
    constructor
    · rintro ⟨text, behind, key, found, rfl⟩
      exact ⟨company, reference, others, text, key, ⟨rfl, rfl, rfl⟩, behind, found, rfl⟩
    · rintro ⟨_, _, _, text, key, ⟨rfl, rfl, rfl⟩, behind, found, rfl⟩
      exact ⟨text, behind, key, found, rfl⟩

theorem digitalLink?_urn {scheme : Scheme} (member : scheme ∈ schemes) (body : String) :
    digitalLink? (scheme.urn body) = scheme.link? (Text.pieces '.' body) := by
  have parsed : Urn.parse? (scheme.urn body) = some ⟨scheme.level, scheme.name, Text.pieces '.' body⟩ :=
    parse?_eq_some_iff.mpr ⟨not_mem_name member, body, Text.pieces_eq_iff.mp rfl, rfl⟩
  rw [digitalLink?, parsed, Option.bind_some, link?_scheme scheme member]

theorem digitalLink?_eq_some_iff {scheme : Scheme} (member : scheme ∈ schemes) {body link : String} :
    digitalLink? (scheme.urn body) = some link ↔ ∃ company reference others text key,
      Text.Separated '.' (company :: reference :: others) body ∧ scheme.remainder.text? others = some text ∧
        scheme.key.key? company reference = some key ∧
        link = digitalLink [(scheme.label, scheme.filler ++ key)] ++ text := by
  simp only [digitalLink?_urn member, link?_eq_some_iff, Text.pieces_eq_iff]

end Scheme

/-- Whatever has a link is a URN of one of the schemes. -/
theorem exists_urn {value link : String} (has : digitalLink? value = some link) :
    ∃ scheme ∈ schemes, ∃ body, value = scheme.urn body := by
  obtain ⟨urn, parsed, linked⟩ := Option.bind_eq_some_iff.mp has
  obtain ⟨-, body, -, whole⟩ := parse?_eq_some_iff.mp parsed
  obtain ⟨scheme, member, level, name⟩ := exists_scheme linked
  refine ⟨scheme, member, body, ?_⟩
  rw [whole, Scheme.urn, level, name]

/-- There is one check digit for a digit string and none for other texts. A scheme whose keys have one gives links to
    exactly the URNs with the right components, and the key in the link is made of their digits. -/
theorem links_have_keys :
    (∀ digits : String,
      (IsDigitString digits → (∃ check, checkDigit? digits = some check ∧
        ∀ c, c.isDigit = true ∧ ChecksOut (digits.toList ++ [c]) ↔ c = check) ∧
        (digits.length < 150000000 → weightedSum digits.toList < 2 ^ 32)) ∧
      (¬ IsDigitString digits → checkDigit? digits = none)) ∧
    (∀ value link, digitalLink? value = some link → ∃ scheme ∈ schemes, ∃ body, value = scheme.urn body) ∧
    ∀ scheme ∈ schemes, ∀ length isLed, scheme.key = .checked length isLed → ∀ body,
      ((digitalLink? (scheme.urn body)).isSome = true ↔ ∃ company reference others,
        Text.Separated '.' (company :: reference :: others) body ∧
        (IsDigitString company ∧ IsDigitString reference ∧ company.length + reference.length + 1 = length) ∧
        scheme.remainder.Fits others) ∧
      ∀ link, digitalLink? (scheme.urn body) = some link → ∃ company reference others text key,
        Text.Separated '.' (company :: reference :: others) body ∧ scheme.remainder.text? others = some text ∧
        IsKey length (scheme.key.digits company reference) key ∧
        link = digitalLink [(scheme.label, scheme.filler ++ key)] ++ text := by
  refine ⟨fun digits => ⟨fun numeric => ⟨exists_checkDigit numeric, fun short => ?_⟩, checkDigit?_eq_none⟩,
    fun value link => exists_urn, ?_⟩
  · exact weightedSum_lt numeric.2 (String.length_toList ▸ short)
  · intro scheme member length isLed form body
    have parts := @Scheme.digitalLink?_eq_some_iff scheme member body
    simp only [form] at parts ⊢
    refine ⟨⟨fun has => ?_, ?_⟩, fun link has => ?_⟩
    · obtain ⟨link, has⟩ := Option.isSome_iff_exists.mp has
      obtain ⟨company, reference, others, text, key, separated, behind, found, -⟩ := parts.mp has
      exact ⟨company, reference, others, separated, (KeyForm.key?_eq_some_iff.mp found).1,
        Remainder.isSome_text?_iff.mp (Option.isSome_of_eq_some behind)⟩
    · rintro ⟨company, reference, others, separated, fits, others_fit⟩
      obtain ⟨key, found⟩ := Option.isSome_iff_exists.mp (KeyForm.isSome_key?_iff.mpr fits)
      obtain ⟨text, behind⟩ := Option.isSome_iff_exists.mp (Remainder.isSome_text?_iff.mpr others_fit)
      exact Option.isSome_of_eq_some (parts.mpr ⟨company, reference, others, text, key, separated, behind, found, rfl⟩)
    · obtain ⟨company, reference, others, text, key, separated, behind, found, whole⟩ := parts.mp has
      exact ⟨company, reference, others, text, key, separated, behind, (KeyForm.key?_eq_some_iff.mp found).2, whole⟩

theorem links_have_keys_sgtin :
    (∃ check, checkDigit? "8061414112345" = some check ∧
      ∀ c, c.isDigit = true ∧ ChecksOut ("8061414112345".toList ++ [c]) ↔ c = check) ∧
    ∃ company reference others text key,
      Text.Separated '.' (company :: reference :: others) "0614141.812345.6789" ∧
      Remainder.text? (.labelled "21") others = some text ∧
      IsKey 14 (KeyForm.digits (.checked 14 true) company reference) key ∧
      "https://id.gs1.org/01/80614141123458/21/6789" = digitalLink [("01", "" ++ key)] ++ text := by
  have ⟨digits, _, links⟩ := links_have_keys
  have numeric : IsDigitString "8061414112345" := isDigits_iff.mp (by decide)
  have sgtin := links ⟨.individual, "sgtin", .checked 14 true, "01", "", .labelled "21"⟩ (by decide) 14 true rfl
    "0614141.812345.6789"
  exact ⟨((digits _).1 numeric).1, sgtin.2 _ (by decide)⟩

end EpcisDigest
