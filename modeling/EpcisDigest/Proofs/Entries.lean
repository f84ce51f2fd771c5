import EpcisDigest.Entries
import Mathlib.Data.List.Induction
import Mathlib.Data.List.Nodup

namespace EpcisDigest

theorem eraseDups_concat {α : Type} [BEq α] [LawfulBEq α] (items : List α) (item : α) :
    (items ++ [item]).eraseDups = if item ∈ items then items.eraseDups else items.eraseDups ++ [item] := by
  rw [List.eraseDups_append, List.removeAll, List.filter_singleton]
  by_cases earlier : item ∈ items
  · simp [earlier]
  · simp [earlier, List.eraseDups_cons]

namespace Entries

variable {α : Type} {key name : String} {value : α} {entries : Entries α} {bindings : List (String × α)}

theorem keys_put (key : String) (value : α) (entries : Entries α) :
    (put key value entries).map Prod.fst =
      if key ∈ entries.map Prod.fst then entries.map Prod.fst else entries.map Prod.fst ++ [key] := by
  induction entries with
  | nil => rfl
  | cons entry entries ih =>
    rw [put]
    split
    case isTrue same => simp [same]
    case isFalse different =>
      have other : key ≠ entry.1 := Ne.symm different
      rw [List.map_cons, ih, List.map_cons]
      by_cases later : key ∈ entries.map Prod.fst
      · rw [if_pos later, if_pos (List.mem_cons_of_mem _ later)]
      · rw [if_neg later, if_neg (List.not_mem_cons_of_ne_of_not_mem other later), List.cons_append]

theorem mem_put {other : α} (member : (name, other) ∈ put key value entries) :
    (name = key ∧ other = value) ∨ (name, other) ∈ entries := by
  induction entries with
  | nil => simpa [put] using member
  | cons entry entries ih =>
    simp only [put] at member
    split at member
    case isTrue =>
      rcases List.mem_cons.mp member with first | others
      · exact .inl (Prod.mk.inj first)
      · exact .inr (List.mem_cons_of_mem _ others)
    case isFalse =>
      rcases List.mem_cons.mp member with first | others
      · exact .inr (first ▸ List.mem_cons_self)
      · exact (ih others).imp_right (List.mem_cons_of_mem _)

theorem put_of_mem (distinct : (entries.map Prod.fst).Nodup) (member : (key, value) ∈ entries) :
    put key value entries = entries := by
  induction entries with
  | nil => cases member
  | cons entry entries ih =>
    rw [List.map_cons, List.nodup_cons] at distinct
    rw [put]
    rcases List.mem_cons.mp member with rfl | later
    · rw [if_pos rfl]
    · have other : entry.1 ≠ key := fun same => distinct.1 (same ▸ List.mem_map_of_mem later)
      rw [if_neg other, ih distinct.2 later]

theorem put_of_not_mem (absent : key ∉ entries.map Prod.fst) : put key value entries = entries ++ [(key, value)] := by
  induction entries with
  | nil => rfl
  | cons entry entries ih =>
    rw [List.map_cons, List.mem_cons, not_or] at absent
    rw [put, if_neg (Ne.symm absent.1), ih absent.2, List.cons_append]

theorem get?_of_mem (distinct : (entries.map Prod.fst).Nodup) (member : (key, value) ∈ entries) :
    get? key entries = some value := by
  rw [get?]
  cases found : entries.find? fun entry => entry.1 == key with
  | none =>
    have others := List.find?_eq_none.mp found (key, value) member
    simp at others
  | some entry =>
    have own : entry.1 = key := by simpa using List.find?_some found
    have same := List.inj_on_of_nodup_map distinct (List.mem_of_find?_eq_some found) member own
    rw [same]
    rfl

theorem ofList_concat (bindings : List (String × α)) (binding : String × α) :
    ofList (bindings ++ [binding]) = put binding.1 binding.2 (ofList bindings) :=
  List.foldl_append

theorem mem_of_mem_ofList {binding : String × α} (member : binding ∈ ofList bindings) : binding ∈ bindings := by
  induction bindings using List.reverseRecOn with
  | nil => exact member
  | append_singleton bindings last ih =>
    rw [ofList_concat] at member
    rcases mem_put member with ⟨key, value⟩ | earlier
    · exact List.mem_append_right _ (List.mem_singleton.mpr (Prod.ext key value))
    · exact List.mem_append_left _ (ih earlier)

/-- Every key has its place from its first binding. -/
theorem keys_ofList (bindings : List (String × α)) :
    (ofList bindings).map Prod.fst = (bindings.map Prod.fst).eraseDups := by
  induction bindings using List.reverseRecOn with
  | nil => rfl
  | append_singleton bindings binding ih =>
    rw [ofList_concat, keys_put, ih, List.map_append, List.map_singleton, eraseDups_concat]
    simp only [List.mem_eraseDups]

theorem nodup_ofList (bindings : List (String × α)) : ((ofList bindings).map Prod.fst).Nodup := by
  induction bindings using List.reverseRecOn with
  | nil => exact List.nodup_nil
  | append_singleton bindings binding ih =>
    rw [ofList_concat, keys_put]
    split
    case isTrue => exact ih
    case isFalse absent => simpa only [List.concat_eq_append] using ih.concat absent

/-- Bindings that give each key one value are kept, each once. -/
theorem ofList_eq [BEq α] [LawfulBEq α]
    (consistent : ∀ binding ∈ bindings, ∀ other ∈ bindings, binding.1 = other.1 → binding = other) :
    ofList bindings = bindings.eraseDups := by
  induction bindings using List.reverseRecOn with
  | nil => rfl
  | append_singleton bindings binding ih =>
    have own : binding ∈ bindings ++ [binding] := List.mem_append_right _ List.mem_cons_self
    have before := ih fun first member other member' =>
      consistent first (List.mem_append_left _ member) other (List.mem_append_left _ member')
    have distinct := nodup_ofList bindings
    rw [ofList_concat, eraseDups_concat, ← before]
    by_cases earlier : binding ∈ bindings
    · rw [if_pos earlier]
      exact put_of_mem distinct (before ▸ List.mem_eraseDups.mpr earlier)
    · have absent : binding.1 ∉ (ofList bindings).map Prod.fst := by
        rw [keys_ofList, List.mem_eraseDups, List.mem_map]
        rintro ⟨other, member, same⟩
        exact earlier (consistent other (List.mem_append_left _ member) binding own same ▸ member)
      rw [if_neg earlier, put_of_not_mem absent]

end Entries

end EpcisDigest
