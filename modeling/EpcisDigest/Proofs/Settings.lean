import EpcisDigest.Settings
import EpcisDigest.Proofs.NameTable
import EpcisDigest.Proofs.Text.Blank
import EpcisDigest.Proofs.Text.Pieces
import Mathlib.Data.List.Forall2
import Mathlib.Data.List.Induction

namespace EpcisDigest

def Listed (list name : String) : Prop :=
  name ≠ "" ∧ ∃ parts, Text.Separated ',' parts list ∧ ∃ part ∈ parts, Text.trim part = name

structure IsFieldName (name : String) : Prop where
  ne_empty : name ≠ ""
  commaless : ',' ∉ name.toList
  trimmed : Text.trim name = name

def Surrounded (name text : String) : Prop :=
  ∃ front back : String, (∀ c ∈ front.toList, Text.isBlank c = true) ∧ (∀ c ∈ back.toList, Text.isBlank c = true) ∧
    text = front ++ name ++ back

theorem mem_fieldNames_iff {list name : String} : name ∈ fieldNames list ↔ Listed list name := by
  rw [fieldNames, List.mem_filter, List.mem_map, bne_iff_ne, and_comm, Listed]
  constructor
  · rintro ⟨any, part, member, trimmed⟩
    exact ⟨any, _, Text.pieces_eq_iff.mp rfl, part, member, trimmed⟩
  · rintro ⟨any, parts, separated, part, member, trimmed⟩
    exact ⟨any, part, (Text.pieces_eq_iff.mpr separated).symm ▸ member, trimmed⟩

theorem Listed.isFieldName {list name : String} (listed : Listed list name) : IsFieldName name := by
  obtain ⟨any, parts, ⟨-, free, -⟩, part, member, rfl⟩ := listed
  exact ⟨any, fun comma => free part member (Text.mem_of_mem_trim comma), Text.trim_trim part⟩

theorem isFieldName_default {name : String} (member : name ∈ defaultExcluded.names) : IsFieldName name := by
  have all : ∀ name ∈ defaultExcluded.names, name ≠ "" ∧ ',' ∉ name.toList ∧ Text.trim name = name := by decide +kernel
  obtain ⟨any, free, trimmed⟩ := all name member
  exact ⟨any, free, trimmed⟩

namespace Surrounded

variable {name text : String} {names texts : List String}

theorem trim_eq (around : Surrounded name text) (isName : IsFieldName name) : Text.trim text = name := by
  obtain ⟨front, back, blanks, blanks', rfl⟩ := around
  rw [Text.trim_padded blanks blanks', isName.trimmed]

theorem commaless (around : Surrounded name text) (isName : IsFieldName name) : ',' ∉ text.toList := by
  obtain ⟨front, back, blanks, blanks', rfl⟩ := around
  have notBlank : Text.isBlank ',' = false := by decide
  rw [String.toList_append, String.toList_append, List.mem_append, List.mem_append]
  rintro ((inFront | inName) | inBack)
  · exact Bool.false_ne_true (notBlank.symm.trans (blanks _ inFront))
  · exact isName.commaless inName
  · exact Bool.false_ne_true (notBlank.symm.trans (blanks' _ inBack))

theorem map_trim (around : List.Forall₂ Surrounded names texts) (areNames : ∀ name ∈ names, IsFieldName name) :
    texts.map Text.trim = names := by
  induction around with
  | nil => rfl
  | cons first others ih =>
    obtain ⟨isName, areNames⟩ := List.forall_mem_cons.mp areNames
    rw [List.map_cons, first.trim_eq isName, ih areNames]

theorem all_commaless (around : List.Forall₂ Surrounded names texts) (areNames : ∀ name ∈ names, IsFieldName name) :
    ∀ text ∈ texts, ',' ∉ text.toList := by
  induction around with
  | nil => exact List.forall_mem_nil _
  | cons first others ih =>
    obtain ⟨isName, areNames⟩ := List.forall_mem_cons.mp areNames
    exact List.forall_mem_cons.mpr ⟨first.commaless isName, ih areNames⟩

/-- Names that are joined by commas are read back, whatever blanks are put around them. -/
theorem fieldNames_joined (around : List.Forall₂ Surrounded names texts) (areNames : ∀ name ∈ names, IsFieldName name) :
    fieldNames (",".intercalate texts) = names := by
  have all : names.filter (· != "") = names :=
    List.filter_eq_self.mpr fun name member => bne_iff_ne.mpr (areNames name member).ne_empty
  by_cases any : texts = []
  · subst any
    cases around
    decide +kernel
  · have pieces := Text.pieces_eq_iff.mpr ⟨any, all_commaless around areNames, rfl⟩
    rw [fieldNames, show "," = String.singleton ',' from rfl, pieces, map_trim around areNames, all]

end Surrounded

namespace Settings.Draft

inductive Change where
  | version (version : Version)
  | exclude (list : String)
  | clear
  | reset
  | separator (separator : String)
  | outputs (names : List String)
  deriving DecidableEq

def apply (draft : Draft) : Change → Draft
  | .version version => draft.withVersion version
  | .exclude list => draft.exclude list
  | .clear => draft.clearExcluded
  | .reset => draft.resetExcluded
  | .separator separator => draft.joinWith separator
  | .outputs names => draft.request names

def run (draft : Draft) (changes : List Change) : Draft := changes.foldl apply draft

namespace Change

def base? : Change → Option NameSet
  | .clear => some NameTable.empty
  | .reset => some defaultExcluded
  | _ => none

def list? : Change → Option String
  | .exclude list => some list
  | _ => none

/-- The set that the last step leaves that empties or resets it; the default set if there is none. -/
def base (changes : List Change) : NameSet :=
  (changes.reverse.findSome? base?).getD defaultExcluded

def listsSince (changes : List Change) : List String :=
  (changes.reverse.takeWhile fun change => change.base?.isNone).filterMap list?

theorem base_concat (changes : List Change) (change : Change) :
    base (changes ++ [change]) = change.base?.getD (base changes) := by
  rw [base, base, List.reverse_concat, List.findSome?_cons]
  cases change.base? <;> rfl

theorem listsSince_concat (changes : List Change) (change : Change) :
    listsSince (changes ++ [change]) =
      if change.base?.isNone then change.list?.toList ++ listsSince changes else [] := by
  rw [listsSince, listsSince, List.reverse_concat, List.takeWhile_cons]
  cases change <;> rfl

end Change

theorem contains_excluded_run (changes : List Change) (name : String) :
    (standard.run changes).excluded.contains name = true ↔
      (Change.base changes).contains name = true ∨ ∃ list ∈ Change.listsSince changes, Listed list name := by
  -- From the end: the last step is the first one that `base` and `listsSince` look at.
  induction changes using List.reverseRecOn with
  | nil =>
    show defaultExcluded.contains name = true ↔ defaultExcluded.contains name = true ∨ ∃ list ∈ [], _
    simp
  | append_singleton changes change ih =>
    have whole : standard.run (changes ++ [change]) = (standard.run changes).apply change := List.foldl_concat ..
    rw [whole, Change.base_concat, Change.listsSince_concat]
    cases change with
    | exclude list =>
      show ((standard.run changes).excluded.union (fieldNames list)).contains name = true ↔
        (Change.base changes).contains name = true ∨ ∃ other ∈ list :: Change.listsSince changes, Listed other name
      rw [NameSet.contains_union, ih, mem_fieldNames_iff, List.exists_mem_cons_iff, or_assoc,
        or_comm (b := Listed list name)]
    | clear =>
      show NameTable.empty.contains name = true ↔ NameTable.empty.contains name = true ∨ ∃ list ∈ [], Listed list name
      simp
    | reset =>
      show defaultExcluded.contains name = true ↔ defaultExcluded.contains name = true ∨ ∃ list ∈ [], Listed list name
      simp
    | version version => exact ih
    | separator separator => exact ih
    | outputs names => exact ih

theorem build_eq_ok_iff {draft : Draft} {settings : Settings} :
    draft.build = .ok settings ↔ draft = settings.toDraft := by
  rw [build]
  constructor
  · intro built
    split at built
    case isTrue =>
      cases built
      rfl
    case isFalse => cases built
  · rintro rfl
    exact dif_pos settings.outputs_ne_nil

theorem isFieldName_run {changes : List Change} {name : String}
    (member : (standard.run changes).excluded.contains name = true) : IsFieldName name := by
  rcases (contains_excluded_run changes name).mp member with left | ⟨list, -, listed⟩
  · rw [Change.base] at left
    cases last : changes.reverse.findSome? Change.base? with
    | none =>
      rw [last] at left
      exact isFieldName_default (NameTable.mem_names_iff.mpr left)
    | some set =>
      rw [last] at left
      obtain ⟨change, -, sets⟩ := List.exists_of_findSome?_eq_some last
      cases change with
      | clear => cases sets; cases left
      | reset => cases sets; exact isFieldName_default (NameTable.mem_names_iff.mpr left)
      | _ => cases sets
  · exact listed.isFieldName

/-- What is excluded are the names in the lists since the set was emptied or reset for the last time, and what that
    left; and the names can be given back as one list. -/
theorem excluded_rebuilt (changes : List Change) {settings : Settings}
    (built : (standard.run changes).build = .ok settings) :
    (∀ name ∈ settings.excluded.names, IsFieldName name) ∧
    (∀ name, (name ∈ settings.excluded.names ↔ settings.isExcluded name = true) ∧
      (settings.isExcluded name = true ↔
        name ∈ (Change.base changes).names ∨ ∃ list ∈ Change.listsSince changes, Listed list name)) ∧
    (∀ changes', Change.base changes' = Change.base changes →
      (∀ name, (∃ list ∈ Change.listsSince changes', Listed list name) ↔
        ∃ list ∈ Change.listsSince changes, Listed list name) →
      (standard.run changes').excluded = settings.excluded) ∧
    ∀ names texts (draft : Draft), (∀ name, name ∈ names ↔ name ∈ settings.excluded.names) →
      List.Forall₂ Surrounded names texts → draft.version = settings.version → draft.separator = settings.separator →
      draft.outputs = settings.outputs →
        (draft.clearExcluded.exclude (",".intercalate texts)).build = .ok settings := by
  have drafted : standard.run changes = settings.toDraft := build_eq_ok_iff.mp built
  have areNames : ∀ name ∈ settings.excluded.names, IsFieldName name := by
    intro name member
    rw [NameTable.mem_names_iff, ← drafted] at member
    exact isFieldName_run member
  refine ⟨areNames, fun name => ⟨NameTable.mem_names_iff, ?_⟩, ?_, ?_⟩
  · rw [isExcluded, ← drafted, contains_excluded_run, NameTable.mem_names_iff]
  · intro changes' base lists
    rw [← drafted]
    apply NameSet.ext_contains
    intro name
    rw [contains_excluded_run, contains_excluded_run, base, lists]
  · intro names texts draft all around version separator outputs
    have read := Surrounded.fieldNames_joined around fun name member => areNames name ((all name).mp member)
    have excluded : NameSet.union NameTable.empty names = settings.excluded := by
      apply NameSet.ext_contains
      intro name
      rw [NameSet.contains_union, all, NameTable.mem_names_iff]
      exact or_iff_right nofun
    rw [build_eq_ok_iff, exclude, clearExcluded, read, excluded, version, separator, outputs]

theorem excluded_rebuilt_names :
    let changes : List Change := [.exclude "a", .clear, .exclude " b ,, eventID", .outputs ["prehash"]]
    let others : List Change := [.clear, .exclude "eventID", .exclude "b,b", .exclude ","]
    let settings : Settings := ⟨⟨.v2_0, NameSet.ofNames ["eventID", "b"], "", [.prehash]⟩, List.cons_ne_nil _ _⟩
    (standard.run changes).build = .ok settings ∧
    ("eventID" ∈ settings.excluded.names ∧ IsFieldName "eventID") ∧
    (settings.isExcluded "b" = true ∧ ∃ list ∈ Change.listsSince changes, Listed list "b") ∧
    (Change.base others = Change.base changes ∧ (standard.run others).excluded = settings.excluded) ∧
    (List.Forall₂ Surrounded ["eventID", "b", "b"] [" eventID\t", "b", "  b"] ∧
      (settings.toDraft.clearExcluded.exclude " eventID\t,b,  b").build = .ok settings) := by
  intro changes others settings
  have built : (standard.run changes).build = .ok settings := build_eq_ok_iff.mpr (by decide +kernel)
  have listing : settings.excluded.names = ["b", "eventID"] := by decide +kernel
  have first : "eventID" ∈ settings.excluded.names := by simp [listing]
  have shown : settings.isExcluded "b" = true := by decide +kernel
  have listed : ∀ name, (∃ list ∈ Change.listsSince others, Listed list name) ↔
      ∃ list ∈ Change.listsSince changes, Listed list name := by
    have lists : Change.listsSince others = [",", "b,b", "eventID"] := by decide +kernel
    have lists' : Change.listsSince changes = [" b ,, eventID"] := by decide +kernel
    have none : fieldNames "," = [] := by decide +kernel
    have twice : fieldNames "b,b" = ["b", "b"] := by decide +kernel
    have one : fieldNames "eventID" = ["eventID"] := by decide +kernel
    have both : fieldNames " b ,, eventID" = ["b", "eventID"] := by decide +kernel
    simp [lists, lists', ← mem_fieldNames_iff, none, twice, one, both]
  have nothing : ∀ c ∈ "".toList, Text.isBlank c = true := List.all_eq_true.mp (by decide +kernel)
  have space : ∀ c ∈ " ".toList, Text.isBlank c = true := List.all_eq_true.mp (by decide +kernel)
  have spaces : ∀ c ∈ "  ".toList, Text.isBlank c = true := List.all_eq_true.mp (by decide +kernel)
  have tabulator : ∀ c ∈ "\t".toList, Text.isBlank c = true := List.all_eq_true.mp (by decide +kernel)
  have around : List.Forall₂ Surrounded ["eventID", "b", "b"] [" eventID\t", "b", "  b"] :=
    .cons ⟨" ", "\t", space, tabulator, rfl⟩ (.cons ⟨"", "", nothing, nothing, rfl⟩
      (.cons ⟨"  ", "", spaces, nothing, rfl⟩ .nil))
  have emptied : Change.base others = Change.base changes := by decide +kernel
  have joined : ",".intercalate [" eventID\t", "b", "  b"] = " eventID\t,b,  b" := by decide +kernel
  obtain ⟨areNames, excluded, independent, rebuilt⟩ := excluded_rebuilt changes built
  have behind := ((excluded "b").2.mp shown).resolve_left (by decide +kernel)
  have given := rebuilt _ _ settings.toDraft (by simp [listing, or_comm]) around rfl rfl rfl
  rw [joined] at given
  exact ⟨built, ⟨first, areNames _ first⟩, ⟨shown, behind⟩, ⟨emptied, independent others emptied listed⟩, around, given⟩

end Settings.Draft

end EpcisDigest
