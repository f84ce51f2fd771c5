import EpcisDigest.Text.Pieces
import Mathlib.Data.List.TakeWhile

namespace EpcisDigest.Text

def Separated (sep : Char) (parts : List String) (s : String) : Prop :=
  parts ≠ [] ∧ (∀ part ∈ parts, sep ∉ part.toList) ∧ s = (String.singleton sep).intercalate parts

theorem piecesOf_eq_splitOn (sep : Char) (cs : List Char) : piecesOf sep cs = cs.splitOn sep := by
  induction cs with
  | nil => rw [piecesOf, List.splitOn_nil]
  | cons c cs ih =>
    rw [piecesOf, ih, List.splitOn_cons_eq_if_modifyHead]
    by_cases same : c = sep
    · simp [same]
    · cases pieces : cs.splitOn sep with
      | nil => exact absurd pieces (List.splitOn_ne_nil sep cs)
      | cons piece others => simp [same]

theorem not_mem_piecesOf {sep : Char} {cs piece : List Char} (member : piece ∈ piecesOf sep cs) : sep ∉ piece := by
  induction cs generalizing piece with
  | nil =>
    rw [piecesOf, List.mem_singleton] at member
    rw [member]
    exact List.not_mem_nil
  | cons c cs ih =>
    rw [piecesOf] at member
    split at member
    case isTrue same =>
      rcases List.mem_cons.mp member with rfl | later
      · exact List.not_mem_nil
      · exact ih later
    case isFalse other =>
      split at member
      case h_1 none => exact absurd none (piecesOf_ne_nil sep cs)
      case h_2 first others pieces =>
        rw [pieces] at ih
        rcases List.mem_cons.mp member with rfl | later
        · exact List.not_mem_cons_of_ne_of_not_mem (Ne.symm other) (ih List.mem_cons_self)
        · exact ih (List.mem_cons_of_mem _ later)

theorem pieces_eq_iff {sep : Char} {s : String} {parts : List String} :
    pieces sep s = parts ↔ Separated sep parts s := by
  constructor
  · intro same
    refine ⟨?_, fun part member => ?_, ?_⟩
    · rw [← same, pieces, Ne, List.map_eq_nil_iff]
      exact piecesOf_ne_nil sep s.toList
    · rw [← same, pieces, List.mem_map] at member
      obtain ⟨piece, among, rfl⟩ := member
      rw [String.toList_ofList]
      exact not_mem_piecesOf among
    · have back : [sep].intercalate (piecesOf sep s.toList) = s.toList := by
        rw [piecesOf_eq_splitOn, List.intercalate_splitOn]
      rw [← same, pieces, ← String.toList_inj, String.toList_intercalate, List.map_map]
      simp [Function.comp_def, back]
  · intro ⟨any, free, whole⟩
    have front : piecesOf sep s.toList = parts.map String.toList := by
      rw [whole, piecesOf_eq_splitOn, String.toList_intercalate, String.toList_singleton]
      refine List.splitOn_intercalate sep (fun part member => ?_) (mt List.map_eq_nil_iff.mp any)
      obtain ⟨text, among, rfl⟩ := List.mem_map.mp member
      exact free text among
    rw [pieces, front, List.map_map]
    simp [Function.comp_def]

theorem cut?_eq_some_iff {sep : Char} {s front back : String} :
    cut? sep s = some (front, back) ↔ sep ∉ front.toList ∧ s = front ++ String.singleton sep ++ back := by
  rw [cut?]
  constructor
  · intro found
    split at found
    case h_1 => cases found
    case h_2 c rest from_sep =>
      simp only [Option.some.injEq, Prod.mk.injEq] at found
      obtain ⟨rfl, rfl⟩ := found
      have same : c = sep := by
        have stops := List.head?_dropWhile_not (· != sep) s.toList
        rw [from_sep] at stops
        simpa using stops
      refine ⟨fun member => ?_, ?_⟩
      · rw [String.toList_ofList] at member
        simpa using List.mem_takeWhile_imp member
      · have whole := List.takeWhile_append_dropWhile (p := (· != sep)) (l := s.toList)
        rw [from_sep, same] at whole
        simp [← String.toList_inj, whole]
  · intro ⟨free, whole⟩
    have passes : ∀ c ∈ front.toList, (c != sep) = true := fun c member => by
      rw [bne_iff_ne]
      rintro rfl
      exact free member
    have letters : s.toList = front.toList ++ sep :: back.toList := by
      rw [whole]
      simp
    rw [letters, List.dropWhile_append_of_pos passes, List.takeWhile_append_of_pos passes]
    simp

theorem append_sep_inj {sep : Char} {front back front' back' : String} (free : sep ∉ front.toList)
    (free' : sep ∉ front'.toList)
    (same : front ++ (String.singleton sep ++ back) = front' ++ (String.singleton sep ++ back')) :
    front = front' ∧ back = back' := by
  rw [← String.append_assoc, ← String.append_assoc] at same
  have cut : cut? sep (front ++ String.singleton sep ++ back) = some (front, back) :=
    cut?_eq_some_iff.mpr ⟨free, rfl⟩
  rw [same, cut?_eq_some_iff.mpr ⟨free', rfl⟩, Option.some.injEq, Prod.mk.injEq] at cut
  exact ⟨cut.1.symm, cut.2.symm⟩

theorem after?_eq_some_iff {lead s rest : String} : after? lead s = some rest ↔ s = lead ++ rest := by
  rw [after?, startsWith]
  constructor
  · intro found
    split at found
    case isFalse => cases found
    case isTrue starts =>
      obtain ⟨behind, whole⟩ := List.isPrefixOf_iff_prefix.mp starts
      rw [← whole, List.drop_left, Option.some.injEq] at found
      rw [← String.toList_inj, ← whole, ← found]
      simp
  · rintro rfl
    rw [String.toList_append, if_pos (List.isPrefixOf_iff_prefix.mpr (List.prefix_append _ _)), List.drop_left,
      String.ofList_toList]

end EpcisDigest.Text
