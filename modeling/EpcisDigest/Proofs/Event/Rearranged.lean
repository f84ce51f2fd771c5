import EpcisDigest.Proofs.Catalog
import EpcisDigest.Proofs.Event.SiblingOrder
import Mathlib.Data.List.TakeWhile

namespace EpcisDigest

def Entry.sorted? (entries : List Entry) : Option (List Entry) := (Entry.sort entries).toOption

theorem Entry.sorted?_eq (entries : List Entry) : Entry.sorted? entries = Sort.stable Entry.le entries := by
  rw [Entry.sorted?, Entry.sort]
  cases Sort.stable Entry.le entries <;> rfl

theorem rank_eq_of_tied {a b : Entry} (unmixed : ¬ a.rank.Mixed b.rank) (isTied : Sort.tied Entry.le a b = true) :
    a.rank = b.rank := by
  obtain ⟨below, above⟩ := Sort.tied_iff.mp isTied
  rw [Entry.le_eq] at below above
  rw [← Entry.compare_swap] at above
  have equal : a.compare b = .eq := by
    revert below above
    cases a.compare b <;> decide
  rw [Entry.compare_eq unmixed, Ordering.then_eq_eq] at equal
  exact Rank.eq_of_compare equal.1

/-- Of items with distinct keys, a test that holds for at most one key picks the same ones in any order. -/
theorem filter_key_perm {α β : Type} {items items' : List α} {key : α → β} (keys : (items.map key).Nodup)
    (perm : items'.Perm items) (p : β → Bool) (single : ∀ x y, p x = true → p y = true → x = y) :
    items'.filter (fun item => p (key item)) = items.filter fun item => p (key item) := by
  have different : ∀ {items : List α}, (items.map key).Nodup →
      (items.filter fun item => p (key item)).Pairwise fun a b => key a ≠ key b :=
    fun keys => (List.pairwise_map.mp keys).filter _
  apply (perm.filter _).eq_of_pairwise _ (different ((perm.map key).nodup_iff.mpr keys)) (different keys)
  intro a b memberA memberB apart _
  exact absurd (single (key a) (key b) (List.mem_filter.mp memberA).2 (List.mem_filter.mp memberB).2) apart

structure Rearranged (fields others : List Field) : Prop where
  perm : others.Perm fields
  classes : ∀ name, others.filter (fun field => field.name == name) = fields.filter fun field => field.name == name

theorem Rearranged.of_names {fields others : List Field} (names : (fields.map Field.name).Nodup)
    (perm : others.Perm fields) : Rearranged fields others where
  perm := perm
  classes name := filter_key_perm names perm (· == name) fun _ _ isX isY =>
    (beq_iff_eq.mp isX).trans (beq_iff_eq.mp isY).symm

theorem Rearranged.filter {fields others : List Field} (rearranged : Rearranged fields others) (p : Field → Bool) :
    Rearranged (fields.filter p) (others.filter p) where
  perm := rearranged.perm.filter p
  classes := by
    intro name
    have swap : ∀ items : List Field, (items.filter p).filter (fun field => field.name == name) =
        (items.filter fun field => field.name == name).filter p := by
      intro items
      simp only [List.filter_filter, Bool.and_comm]
    rw [swap, swap, rearranged.classes]

section Entries

variable {entryOf : Field → Option Entry} {fields others : List Field}

/-- Entries have one rank only if their fields have one name, and then all of these have children or none has. -/
structure KeyedByName (entryOf : Field → Option Entry) (fields : List Field) : Prop where
  unmixed : ∀ a ∈ fields, ∀ b ∈ fields, ∀ e f, entryOf a = some e → entryOf b = some f → ¬ e.rank.Mixed f.rank
  name : ∀ a ∈ fields, ∀ b ∈ fields, ∀ e f, entryOf a = some e → entryOf b = some f → e.rank = f.rank → a.name = b.name
  hasChildren : ∀ a ∈ fields, ∀ b ∈ fields, ∀ e f, entryOf a = some e → entryOf b = some f → a.name = b.name →
    e.hasChildren = f.hasChildren

theorem KeyedByName.lawful (keyed : KeyedByName entryOf fields) : Lawful (fields.filterMap entryOf) := by
  have unmixed : Unmixed (fields.filterMap entryOf) := by
    intro e memberE f memberF
    obtain ⟨a, memberA, givenA⟩ := List.mem_filterMap.mp memberE
    obtain ⟨b, memberB, givenB⟩ := List.mem_filterMap.mp memberF
    exact keyed.unmixed a memberA b memberB e f givenA givenB
  apply (lawful_iff_separated unmixed).mpr
  intro leaf memberLeaf e memberE f _ childless parentE _ rankE _
  obtain ⟨a, memberA, givenA⟩ := List.mem_filterMap.mp memberE
  obtain ⟨b, memberB, givenB⟩ := List.mem_filterMap.mp memberLeaf
  have name := keyed.name a memberA b memberB e leaf givenA givenB rankE
  have same := keyed.hasChildren a memberA b memberB e leaf givenA givenB name
  rw [childless, parentE] at same
  cases same

theorem KeyedByName.filter_tied (keyed : KeyedByName entryOf fields) {a : Field} (memberA : a ∈ fields) {e : Entry}
    (givenA : entryOf a = some e) {items : List Field} (within : ∀ b ∈ items, b ∈ fields) :
    (items.filterMap entryOf).filter (Sort.tied Entry.le e) =
      ((items.filter fun b => b.name == a.name).filterMap entryOf).filter (Sort.tied Entry.le e) := by
  induction items with
  | nil => rfl
  | cons b items ih =>
    have memberB := within b List.mem_cons_self
    have others := ih fun other member => within other (List.mem_cons_of_mem _ member)
    by_cases named : (b.name == a.name) = true
    · rw [List.filter_cons, if_pos named, List.filterMap_cons, List.filterMap_cons]
      cases entryOf b with
      | none => exact others
      | some f =>
        dsimp only
        rw [List.filter_cons, List.filter_cons, others]
    · rw [List.filter_cons, if_neg named, List.filterMap_cons]
      cases givenB : entryOf b with
      | none => exact others
      | some f =>
        have untied : ¬ Sort.tied Entry.le e f = true := by
          intro isTied
          have rank := rank_eq_of_tied (keyed.unmixed a memberA b memberB e f givenA givenB) isTied
          exact named (beq_iff_eq.mpr (keyed.name a memberA b memberB e f givenA givenB rank).symm)
        dsimp only
        rw [List.filter_cons_of_neg untied, others]

/-- Sorting undoes a rearrangement. -/
theorem Rearranged.sorted?_eq (rearranged : Rearranged fields others) (keyed : KeyedByName entryOf fields) :
    Entry.sorted? (others.filterMap entryOf) = Entry.sorted? (fields.filterMap entryOf) := by
  rw [Entry.sorted?_eq, Entry.sorted?_eq]
  apply Sort.stable_eq_of_perm keyed.lawful.linearOn (rearranged.perm.filterMap entryOf)
  intro e isKnown
  obtain ⟨a, memberA, givenA⟩ := List.mem_filterMap.mp isKnown
  rw [keyed.filter_tied memberA givenA fun b member => rearranged.perm.mem_iff.mp member, rearranged.classes,
    keyed.filter_tied memberA givenA fun b member => member]

theorem Rearranged.sorted?_collect (rearranged : Rearranged fields others) (keyed : KeyedByName entryOf fields) :
    (collect entryOf fields).bind Entry.sorted? = (collect entryOf others).bind Entry.sorted? := by
  rw [collect, collect, rearranged.perm.all_eq]
  split
  · exact (rearranged.sorted?_eq keyed).symm
  · rfl

end Entries

theorem path_append (name : Option String) (lineage : Lineage) :
    Lineage.path (name :: lineage) = lineage.path ++ (pathName? name).toList := by
  rw [Lineage.path, Lineage.path, List.filterMap_cons]
  cases pathName? name <;> simp

theorem path_cons {name : String} (notSynthetic : isSynthetic name = false) (lineage : Lineage) :
    Lineage.path (some name :: lineage) = lineage.path ++ [name] := by
  have own : pathName? (some name) = some name := by simp [pathName?, Option.filter_some, notSynthetic]
  rw [path_append, own]
  rfl

theorem getLast?_path (lineage : Lineage) : lineage.path.getLast? = lineage.parentField? := by
  rw [Lineage.path, List.getLast?_reverse]
  rfl

theorem isSome_lookup?_above {name : Option String} {lineage : Lineage}
    (found : (Catalog.lookup? (Lineage.path (name :: lineage))).isSome = true) :
    (Catalog.lookup? lineage.path).isSome = true := by
  rw [path_append] at found
  cases own : pathName? name with
  | none => rwa [own, Option.toList_none, List.append_nil] at found
  | some below =>
    rw [own] at found
    exact Catalog.isSome_lookup?_of_append found

theorem isUnderIlmd_of_lookup? {lineage : Lineage} {name : String}
    (found : (Catalog.lookup? (lineage.path ++ [name])).isSome = true) : lineage.isUnderIlmd = false := by
  have outside := Catalog.not_below_ilmd found
  apply Bool.eq_false_iff.mpr
  intro under
  apply outside
  rw [Lineage.path, List.mem_reverse, List.mem_filterMap]
  exact ⟨some "ilmd", List.contains_iff_mem.mp under, rfl⟩

theorem isSynthetic_of_lookup? {path : List String} {name : String}
    (found : (Catalog.lookup? (path ++ [name])).isSome = true) : isSynthetic name = false := by
  have every : CatalogField.allOf (fun name => !isSynthetic name) Catalog.event = true := by decide +kernel
  simpa using Catalog.holds_of_lookup? every found

section Names

variable (namespaces : Namespaces)

theorem extensionText_beforeEquals (name : String) (value : Option String)
    (plain : Text.contains '=' (qualifiedName namespaces name) = false) :
    (extensionText namespaces (some name) value).toList.takeWhile (· != '=') =
      (qualifiedName namespaces name).toList := by
  have all : ∀ c ∈ (qualifiedName namespaces name).toList, (c != '=') = true := by
    intro c member
    rw [bne_iff_ne]
    rintro rfl
    rw [Text.contains, List.contains_eq_mem, decide_eq_false_iff_not] at plain
    exact plain member
  have whole :
      (qualifiedName namespaces name).toList.takeWhile (· != '=') = (qualifiedName namespaces name).toList := by
    rw [List.takeWhile_eq_self_iff]
    exact all
  cases value with
  | none => exact whole
  | some value =>
    by_cases empty : value = ""
    · rw [empty]
      exact whole
    · simp only [extensionText, empty, ite_false, Option.map_some, Option.getD_some, String.toList_append,
        List.append_assoc]
      rw [List.takeWhile_append_of_pos all]
      simp

/-- Fields with a name each; different names have different keys, and of several fields of one name all have
    children or none has. -/
structure Apart (fields : List Field) : Prop where
  named : ∀ a ∈ fields, ∃ name, a.name = some name ∧ isSynthetic name = false ∧
    Text.contains '=' (qualifiedName namespaces name) = false
  distinct : ∀ a ∈ fields, ∀ b ∈ fields, ∀ x y, a.name = some x → b.name = some y →
    qualifiedName namespaces x = qualifiedName namespaces y → x = y
  hasChildren : ∀ a ∈ fields, ∀ b ∈ fields, a.name = b.name → a.hasChildren = b.hasChildren

variable {namespaces} {fields : List Field}

theorem Apart.filter (apart : Apart namespaces fields) (p : Field → Bool) : Apart namespaces (fields.filter p) where
  named a memberA := apart.named a (List.mem_filter.mp memberA).1
  distinct a memberA b memberB := apart.distinct a (List.mem_filter.mp memberA).1 b (List.mem_filter.mp memberB).1
  hasChildren a memberA b memberB :=
    apart.hasChildren a (List.mem_filter.mp memberA).1 b (List.mem_filter.mp memberB).1

theorem Apart.name_of_text (apart : Apart namespaces fields) {a b : Field} (memberA : a ∈ fields)
    (memberB : b ∈ fields)
    (same : extensionText namespaces a.name a.value = extensionText namespaces b.name b.value) : a.name = b.name := by
  obtain ⟨x, nameA, _, plainX⟩ := apart.named a memberA
  obtain ⟨y, nameB, _, plainY⟩ := apart.named b memberB
  rw [nameA, nameB] at same
  have texts := congrArg (fun text => text.toList.takeWhile (· != '=')) same
  rw [extensionText_beforeEquals namespaces x a.value plainX, extensionText_beforeEquals namespaces y b.value plainY]
    at texts
  rw [nameA, nameB, apart.distinct a memberA b memberB x y nameA nameB (String.toList_inj.mp texts)]

theorem Apart.extensionKey_eq (apart : Apart namespaces fields) {a : Field} (memberA : a ∈ fields)
    (lines : List String) : extensionKey namespaces a lines = extensionText namespaces a.name a.value := by
  obtain ⟨name, named, notSynthetic, _⟩ := apart.named a memberA
  have own : pathName? a.name = some name := by simp [named, pathName?, Option.filter_some, notSynthetic]
  rw [extensionKey, own]

theorem Apart.name_of_position (apart : Apart namespaces fields) {a b : Field} (memberA : a ∈ fields)
    (memberB : b ∈ fields) {lineage : Lineage} (above : lineage.isUnderIlmd = false)
    (isStandard : lineage.isStandard a.name = true)
    (same : Catalog.position? (Lineage.path (a.name :: lineage)) =
      Catalog.position? (Lineage.path (b.name :: lineage))) : a.name = b.name := by
  obtain ⟨x, nameA, notSyntheticA, _⟩ := apart.named a memberA
  obtain ⟨y, nameB, notSyntheticB, _⟩ := apart.named b memberB
  have own : pathName? (some x) = some x := by simp [pathName?, Option.filter_some, notSyntheticA]
  rw [nameA, nameB, path_cons notSyntheticA, path_cons notSyntheticB] at same
  rw [nameA, Lineage.isStandard, own, above, path_cons notSyntheticA] at isStandard
  rw [nameA, nameB, Catalog.position?_injective isStandard same]

theorem Apart.keyed_siblings (apart : Apart namespaces fields) (settings : Settings) (lineage : Lineage) :
    KeyedByName (fun field => (siblingEntry settings namespaces lineage field).toOption) fields where
  unmixed _ _ _ _ _ _ := not_mixed
  hasChildren := by
    intro a memberA b memberB e f givenA givenB name
    rw [(siblingEntry_cases settings namespaces (ok_of_toOption givenA)).1,
      (siblingEntry_cases settings namespaces (ok_of_toOption givenB)).1]
    exact apart.hasChildren a memberA b memberB name
  name := by
    intro a memberA b memberB e f givenA givenB same
    have casesB := (siblingEntry_cases settings namespaces (ok_of_toOption givenB)).2
    rcases (siblingEntry_cases settings namespaces (ok_of_toOption givenA)).2 with
      ⟨linesA, rankA⟩ | ⟨_, rankA⟩ | ⟨above, isStandard, rankA⟩
    · rcases casesB with ⟨linesB, rankB⟩ | ⟨_, rankB⟩ | ⟨_, _, rankB⟩
      · rw [rankA, rankB, apart.extensionKey_eq memberA, apart.extensionKey_eq memberB] at same
        exact apart.name_of_text memberA memberB (Rank.extension.inj same)
      · rw [rankA, rankB] at same
        cases same
      · rw [rankA, rankB] at same
        cases same
    · rcases casesB with ⟨_, rankB⟩ | ⟨_, rankB⟩ | ⟨_, _, rankB⟩
      · rw [rankA, rankB] at same
        cases same
      · rw [rankA, rankB] at same
        exact apart.name_of_text memberA memberB (Rank.ilmd.inj same)
      · rw [rankA, rankB] at same
        cases same
    · rcases casesB with ⟨_, rankB⟩ | ⟨_, rankB⟩ | ⟨_, _, rankB⟩
      · rw [rankA, rankB] at same
        cases same
      · rw [rankA, rankB] at same
        cases same
      · rw [rankA, rankB] at same
        exact apart.name_of_position memberA memberB above isStandard (Rank.standard.inj same)

theorem Apart.keyed_extension (apart : Apart namespaces fields) (settings : Settings) :
    KeyedByName (fun field => (extensionEntry settings namespaces field).toOption) fields where
  unmixed := by
    intro a _ b _ e f givenA givenB
    obtain ⟨_, _, rfl⟩ := exists_lines_of_extension (ok_of_toOption givenA)
    obtain ⟨_, _, rfl⟩ := exists_lines_of_extension (ok_of_toOption givenB)
    exact id
  hasChildren := by
    intro a memberA b memberB e f givenA givenB name
    obtain ⟨_, _, rfl⟩ := exists_lines_of_extension (ok_of_toOption givenA)
    obtain ⟨_, _, rfl⟩ := exists_lines_of_extension (ok_of_toOption givenB)
    exact apart.hasChildren a memberA b memberB name
  name := by
    intro a memberA b memberB e f givenA givenB same
    obtain ⟨_, _, rfl⟩ := exists_lines_of_extension (ok_of_toOption givenA)
    obtain ⟨_, _, rfl⟩ := exists_lines_of_extension (ok_of_toOption givenB)
    have keys := Rank.extension.inj same
    rw [apart.extensionKey_eq memberA, apart.extensionKey_eq memberB] at keys
    exact apart.name_of_text memberA memberB keys

end Names

end EpcisDigest
