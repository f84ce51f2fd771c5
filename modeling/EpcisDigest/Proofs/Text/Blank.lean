import EpcisDigest.Text.Blank
import Mathlib.Data.List.DropRight

namespace EpcisDigest.Text

theorem exists_trimmed (cs : List Char) : ∃ front back,
    (∀ c ∈ front, isBlank c = true) ∧ (∀ c ∈ back, isBlank c = true) ∧ cs = front ++ (trimChars cs ++ back) := by
  refine ⟨cs.takeWhile isBlank, (cs.dropWhile isBlank).rtakeWhile isBlank,
    fun c member => List.mem_takeWhile_imp member, fun c member => List.mem_rtakeWhile_imp member, ?_⟩
  have back : trimChars cs ++ (cs.dropWhile isBlank).rtakeWhile isBlank = cs.dropWhile isBlank :=
    List.rdropWhile_append_rtakeWhile
  rw [back, List.takeWhile_append_dropWhile]

theorem trimChars_padded {front back : List Char} (blanks : ∀ c ∈ front, isBlank c = true)
    (blanks' : ∀ c ∈ back, isBlank c = true) (cs : List Char) : trimChars (front ++ (cs ++ back)) = trimChars cs := by
  have nothing : back.dropWhile isBlank = [] := List.dropWhile_eq_nil_iff.mpr blanks'
  have nothing' : back.reverse.dropWhile isBlank = [] :=
    List.dropWhile_eq_nil_iff.mpr fun c member => blanks' c (List.mem_reverse.mp member)
  rw [trimChars, trimChars, List.dropWhile_append_of_pos blanks, List.dropWhile_append]
  split
  case isTrue empty => rw [List.isEmpty_iff.mp empty, nothing]
  case isFalse => rw [List.reverse_append, List.dropWhile_append, nothing', List.isEmpty_nil, if_pos rfl]

theorem trim_trim (s : String) : trim (trim s) = trim s := by
  obtain ⟨front, back, blanks, blanks', whole⟩ := exists_trimmed s.toList
  rw [trim, trim, String.toList_ofList]
  conv_rhs => rw [whole, trimChars_padded blanks blanks']

theorem trim_padded {front back : String} (blanks : ∀ c ∈ front.toList, isBlank c = true)
    (blanks' : ∀ c ∈ back.toList, isBlank c = true) (s : String) : trim (front ++ s ++ back) = trim s := by
  rw [trim, trim, String.toList_append, String.toList_append, List.append_assoc, trimChars_padded blanks blanks']

theorem mem_of_mem_trim {c : Char} {s : String} (member : c ∈ (trim s).toList) : c ∈ s.toList := by
  obtain ⟨front, back, -, -, whole⟩ := exists_trimmed s.toList
  rw [trim, String.toList_ofList] at member
  rw [whole]
  exact List.mem_append_right _ (List.mem_append_left _ member)

theorem trim_eq_empty_iff {s : String} : trim s = "" ↔ ∀ c ∈ s.toList, isBlank c = true := by
  rw [trim, ← String.ofList_nil, String.ofList_inj]
  constructor
  · intro none
    obtain ⟨front, back, blanks, blanks', whole⟩ := exists_trimmed s.toList
    rw [none, List.nil_append] at whole
    rw [whole]
    exact List.forall_mem_append.mpr ⟨blanks, blanks'⟩
  · intro blanks
    rw [← List.append_nil s.toList, ← List.nil_append []]
    exact trimChars_padded blanks (List.forall_mem_nil _) []

theorem trim_append_eq_empty_iff {s t : String} : trim (s ++ t) = "" ↔ trim s = "" ∧ trim t = "" := by
  simp only [trim_eq_empty_iff, String.toList_append, List.forall_mem_append]

end EpcisDigest.Text
