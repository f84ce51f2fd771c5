import EpcisDigest.Json.EventFields
import EpcisDigest.Proofs.Event.EmptyValues
import EpcisDigest.Proofs.Sort.Runs

namespace EpcisDigest

open Std (TransCmp LawfulEqOrd OrientedOrd)

namespace Rank

def place : Rank → Nat × Nat × String
  | standard (some position) => (0, position, "")
  | standard none => (1, 0, "")
  | ilmd key => (2, 0, key)
  | extension key => (3, 0, key)

theorem place_injective {a b : Rank} (same : a.place = b.place) : a = b := by
  cases a with
  | standard position =>
    cases position <;> cases b with
    | standard position => cases position <;> simp_all [place]
    | _ => simp [place] at same
  | ilmd key =>
    cases b with
    | standard position => cases position <;> simp [place] at same
    | ilmd key' => simpa [place] using same
    | extension key' => simp [place] at same
  | extension key =>
    cases b with
    | standard position => cases position <;> simp [place] at same
    | ilmd key' => simp [place] at same
    | extension key' => simpa [place] using same

def comparePlaces : Nat × Nat × String → Nat × Nat × String → Ordering :=
  compareLex (compareOn Prod.fst) (compareLex (compareOn fun place => place.2.1) (compareOn fun place => place.2.2))

instance : TransCmp comparePlaces := inferInstanceAs (TransCmp (compareLex _ _))

def compare (a b : Rank) : Ordering := comparePlaces a.place b.place

instance : TransCmp Rank.compare where
  eq_swap {a b} := @Std.OrientedCmp.eq_swap _ comparePlaces _ a.place b.place
  isLE_trans {a b c} := @TransCmp.isLE_trans _ comparePlaces _ a.place b.place c.place

theorem eq_of_compare {a b : Rank} (same : a.compare b = .eq) : a = b := by
  apply place_injective
  simp only [compare, comparePlaces, compareLex, compareOn, Ordering.then_eq_eq, Std.compare_eq_iff_eq] at same
  exact Prod.ext same.1 (Prod.ext same.2.1 same.2.2)

def Mixed : Rank → Rank → Prop
  | standard _, ilmd _ => True
  | ilmd _, standard _ => True
  | _, _ => False

theorem Mixed.symm {a b : Rank} (mixed : a.Mixed b) : b.Mixed a := by
  cases a <;> cases b <;> exact mixed

end Rank

namespace Entry

theorem compareTexts_swap (x y : String) : (Ord.compare x y).swap = Ord.compare y x := OrientedOrd.eq_swap.symm

theorem tieBreak_swap (a b : Entry) : (a.tieBreak b).swap = b.tieBreak a := by
  rw [tieBreak, tieBreak, Bool.and_comm]
  split
  · exact compareTexts_swap _ _
  · rfl

theorem comparePositions_eq (x y : Option Nat) :
    comparePositions x y = Rank.compare (.standard x) (.standard y) := by
  cases x with
  | none => cases y <;> rfl
  | some x =>
    cases y with
    | none => rfl
    | some y => simp [comparePositions, Rank.compare, Rank.comparePlaces, Rank.place, compareLex, compareOn]

theorem compare_eq {a b : Entry} (unmixed : ¬ a.rank.Mixed b.rank) :
    a.compare b = (a.rank.compare b.rank).then (a.tieBreak b) := by
  rw [compare]
  cases rankA : a.rank with
  | standard x =>
    cases rankB : b.rank with
    | standard y => exact congrArg (Ordering.then · (a.tieBreak b)) (comparePositions_eq x y)
    | ilmd y =>
      rw [rankA, rankB] at unmixed
      exact absurd trivial unmixed
    | extension y => cases x <;> rfl
  | ilmd x =>
    cases rankB : b.rank with
    | standard y =>
      rw [rankA, rankB] at unmixed
      exact absurd trivial unmixed
    | ilmd y => simp [Rank.compare, Rank.comparePlaces, Rank.place, compareLex, compareOn]
    | extension y => rfl
  | extension x =>
    cases rankB : b.rank with
    | standard y => cases y <;> rfl
    | ilmd y => rfl
    | extension y => simp [Rank.compare, Rank.comparePlaces, Rank.place, compareLex, compareOn]

theorem compare_of_mixed {a b : Entry} (mixed : a.rank.Mixed b.rank) : a.compare b = .eq := by
  rw [compare]
  cases rankA : a.rank <;> cases rankB : b.rank <;> rw [rankA, rankB] at mixed <;> first | rfl | exact mixed.elim

theorem compare_swap (a b : Entry) : (a.compare b).swap = b.compare a := by
  by_cases mixed : a.rank.Mixed b.rank
  · rw [compare_of_mixed mixed, compare_of_mixed mixed.symm]
    rfl
  · have rankSwap : (a.rank.compare b.rank).swap = b.rank.compare a.rank := Std.OrientedCmp.eq_swap.symm
    rw [compare_eq mixed, compare_eq fun other => mixed other.symm, Ordering.swap_then, tieBreak_swap, rankSwap]

theorem le_eq (a b : Entry) : a.le b = (a.compare b).isLE := by
  rw [le, ← compare_swap]
  cases a.compare b <;> rfl

end Entry

/-- The order in which siblings are sorted is one: it has two directions, and comparisons chain. -/
structure Lawful (entries : List Entry) : Prop where
  swap : ∀ a ∈ entries, ∀ b ∈ entries, (a.compare b).swap = b.compare a
  trans : ∀ a ∈ entries, ∀ b ∈ entries, ∀ c ∈ entries,
    (a.compare b).isLE = true → (b.compare c).isLE = true → (a.compare c).isLE = true
  equal : ∀ a ∈ entries, ∀ b ∈ entries, ∀ c ∈ entries, a.compare b = .eq → b.compare c = .eq → a.compare c = .eq

def Unmixed (entries : List Entry) : Prop := ∀ a ∈ entries, ∀ b ∈ entries, ¬ a.rank.Mixed b.rank

/-- No leaf stands among fields with children that have its rank and differ in their texts. -/
def Separated (entries : List Entry) : Prop :=
  ∀ leaf ∈ entries, ∀ a ∈ entries, ∀ b ∈ entries, leaf.hasChildren = false → a.hasChildren = true →
    b.hasChildren = true → a.rank = leaf.rank → b.rank = leaf.rank → a.text = b.text

theorem Lawful.linearOn {entries : List Entry} (lawful : Lawful entries) : Sort.LinearOn Entry.le entries where
  total := by
    rintro ⟨a, memberA⟩ ⟨b, memberB⟩
    have swap := lawful.swap a memberA b memberB
    simp only [Entry.le_eq]
    rw [← swap]
    cases a.compare b <;> decide
  trans := by
    rintro ⟨a, memberA⟩ ⟨b, memberB⟩ ⟨c, memberC⟩
    simp only [Entry.le_eq]
    exact lawful.trans a memberA b memberB c memberC

theorem Lawful.exists_sort {entries : List Entry} (lawful : Lawful entries) :
    ∃ sorted, Entry.sort entries = .ok sorted := by
  obtain ⟨sorted, given⟩ := Sort.exists_stable lawful.linearOn
  rw [Entry.sort, given]
  exact ⟨sorted, rfl⟩

theorem not_lawful_of_unsortable {entries : List Entry} (fails : Entry.sort entries = .error .unsortable) :
    ¬ Lawful entries := by
  intro lawful
  obtain ⟨sorted, given⟩ := lawful.exists_sort
  rw [given] at fails
  cases fails

/-- Within a rank leaves stand anywhere, and fields with children in the order of their texts. -/
theorem tieBreak_isLE_iff (a b : Entry) :
    (a.tieBreak b).isLE = true ↔
      (a.hasChildren = true → b.hasChildren = true → (Ord.compare a.text b.text).isLE = true) := by
  rw [Entry.tieBreak]
  cases a.hasChildren <;> cases b.hasChildren <;> simp

theorem then_isLE_iff (first second : Ordering) :
    (first.then second).isLE = true ↔ first = .lt ∨ first = .eq ∧ second.isLE = true := by
  cases first <;> simp [Ordering.then]

theorem compare_of_rank {a b : Entry} (same : a.rank = b.rank) (unmixed : ¬ a.rank.Mixed b.rank) :
    a.compare b = a.tieBreak b := by
  have tied : a.rank.compare b.rank = .eq := same ▸ Std.ReflCmp.compare_self
  rw [Entry.compare_eq unmixed, tied]
  rfl

theorem Unmixed.trans {entries : List Entry} (unmixed : Unmixed entries) (separated : Separated entries) {a b c : Entry}
    (memberA : a ∈ entries) (memberB : b ∈ entries) (memberC : c ∈ entries) (ab : (a.compare b).isLE = true)
    (bc : (b.compare c).isLE = true) : (a.compare c).isLE = true := by
  rw [Entry.compare_eq (unmixed a memberA b memberB), then_isLE_iff] at ab
  rw [Entry.compare_eq (unmixed b memberB c memberC), then_isLE_iff] at bc
  rw [Entry.compare_eq (unmixed a memberA c memberC), then_isLE_iff]
  rcases ab with before | ⟨sameAB, textAB⟩
  · have below : (b.rank.compare c.rank).isLE = true := by
      rcases bc with before | ⟨same, _⟩
      · exact Ordering.isLE_of_eq_lt before
      · exact Ordering.isLE_of_eq_eq same
    exact Or.inl (TransCmp.lt_of_lt_of_isLE before below)
  · have rankAB := Rank.eq_of_compare sameAB
    rcases bc with before | ⟨sameBC, textBC⟩
    · exact Or.inl (rankAB ▸ before)
    · have rankBC := Rank.eq_of_compare sameBC
      refine Or.inr ⟨rankAB ▸ sameBC, ?_⟩
      rw [tieBreak_isLE_iff] at textAB textBC ⊢
      intro parentA parentC
      cases parentB : b.hasChildren with
      | true => exact TransCmp.isLE_trans (textAB parentA parentB) (textBC parentB parentC)
      | false =>
        have same := separated b memberB a memberA c memberC parentB parentA parentC rankAB rankBC.symm
        rw [same]
        exact Std.ReflCmp.isLE_rfl

/-- The order is one exactly when no leaf keeps fields with children of its rank apart. -/
theorem lawful_iff_separated {entries : List Entry} (unmixed : Unmixed entries) :
    Lawful entries ↔ Separated entries := by
  constructor
  · intro lawful leaf memberLeaf a memberA b memberB childless parentA parentB rankA rankB
    have below : a.compare leaf = .eq := by
      rw [compare_of_rank rankA (unmixed a memberA leaf memberLeaf), Entry.tieBreak, childless, Bool.and_false]
      rfl
    have above : leaf.compare b = .eq := by
      rw [compare_of_rank rankB.symm (unmixed leaf memberLeaf b memberB), Entry.tieBreak, childless]
      rfl
    have tied := lawful.equal a memberA leaf memberLeaf b memberB below above
    rw [compare_of_rank (rankA.trans rankB.symm) (unmixed a memberA b memberB), Entry.tieBreak, parentA, parentB]
      at tied
    exact Std.compare_eq_iff_eq.mp tied
  · intro separated
    refine ⟨fun a _ b _ => Entry.compare_swap a b, fun a memberA b memberB c memberC => ?_, ?_⟩
    · exact unmixed.trans separated memberA memberB memberC
    · intro a memberA b memberB c memberC ab bc
      have below := unmixed.trans separated memberA memberB memberC (Ordering.isLE_of_eq_eq ab)
        (Ordering.isLE_of_eq_eq bc)
      have ba : b.compare a = .eq := by
        rw [← Entry.compare_swap, ab]
        rfl
      have cb : c.compare b = .eq := by
        rw [← Entry.compare_swap, bc]
        rfl
      have above := unmixed.trans separated memberC memberB memberA (Ordering.isLE_of_eq_eq cb)
        (Ordering.isLE_of_eq_eq ba)
      rw [← Entry.compare_swap] at above
      revert below above
      cases a.compare c <;> decide

section Collect

variable {α β ε : Type}

def collect (f : α → Option β) (items : List α) : Option (List β) :=
  if items.all fun item => (f item).isSome then some (items.filterMap f) else none

theorem ok_of_toOption {result : Except ε β} {given : β} (some : result.toOption = some given) :
    result = .ok given := by
  cases result with
  | error fault => cases some
  | ok value =>
    cases some
    rfl

theorem map_eq_ok {f : α → β} {result : Except ε α} {given : β} (mapped : result.map f = .ok given) :
    ∃ a, result = .ok a ∧ given = f a := by
  cases result with
  | error fault => cases mapped
  | ok a =>
    cases mapped
    exact ⟨a, rfl, rfl⟩

theorem toOption_map (result : Except ε α) (f : α → β) : (result.map f).toOption = result.toOption.map f := by
  cases result <;> rfl

theorem toOption_bind {γ : Type} (result : Except ε β) (next : β → Except ε γ) :
    (result >>= next).toOption = result.toOption.bind fun value => (next value).toOption := by
  cases result <;> rfl

theorem toOption_mapM (f : α → Except ε β) (items : List α) :
    (items.mapM f).toOption = collect (fun item => (f item).toOption) items := by
  induction items with
  | nil => rfl
  | cons item items ih =>
    rw [List.mapM_cons, collect, List.all_cons, List.filterMap_cons]
    cases f item with
    | error fault => rfl
    | ok result =>
      rw [collect] at ih
      cases results : items.mapM f with
      | error fault =>
        rw [results] at ih
        split at ih
        · cases ih
        · rename_i missing
          exact (if_neg missing).symm
      | ok results' =>
        rw [results] at ih
        split at ih
        · rename_i given
          cases ih
          exact (if_pos given).symm
        · cases ih

theorem collect_append (f : α → Option β) (items others : List α) :
    collect f (items ++ others) =
      (collect f items).bind fun results => (collect f others).map fun more => results ++ more := by
  simp only [collect, List.all_append, List.filterMap_append, Bool.and_eq_true]
  by_cases all : (items.all fun item => (f item).isSome) = true
  · by_cases more : (others.all fun item => (f item).isSome) = true
    · simp [all, more]
    · simp [all, more]
  · simp [all]

theorem mem_of_collect {f : α → Option β} {items : List α} {results : List β} (all : collect f items = some results)
    {result : β} (member : result ∈ results) : ∃ item ∈ items, f item = some result := by
  rw [collect] at all
  split at all
  · cases all
    exact List.mem_filterMap.mp member
  · cases all

end Collect

section Siblings

variable (settings : Settings) (namespaces : Namespaces)

def extensionEntry (field : Field) : Except CanonicalFault Entry :=
  (extensionLines settings namespaces field).map fun lines =>
    ⟨.extension (extensionKey namespaces field lines), field.hasChildren, ⟨lines, []⟩⟩

/-- The rank of a field in an extension; a field without lines has none. -/
def extensionRank (field : Field) : Rank :=
  .extension (extensionKey namespaces field ((extensionLines settings namespaces field).toOption.getD []))

def siblingEntry (lineage : Lineage) (field : Field) : Except CanonicalFault Entry :=
  match regionOf lineage field with
  | .extension => extensionEntry settings namespaces field
  | .ilmd =>
    (extensionLines settings namespaces field).map fun lines =>
      ⟨.ilmd (extensionText namespaces field.name field.value), field.hasChildren, ⟨lines, []⟩⟩
  | .standard =>
    (standardLines settings namespaces lineage field).map fun rendered =>
      ⟨.standard (Catalog.position? (Lineage.path (field.name :: lineage))), field.hasChildren, rendered⟩

variable {settings namespaces} in
theorem exists_rendered {lineage : Lineage} {field : Field} (region : regionOf lineage field = .standard)
    {entry : Entry} (given : siblingEntry settings namespaces lineage field = .ok entry) :
    ∃ rendered, standardLines settings namespaces lineage field = .ok rendered ∧
      entry = ⟨.standard (Catalog.position? (Lineage.path (field.name :: lineage))), field.hasChildren, rendered⟩ := by
  rw [siblingEntry, region] at given
  obtain ⟨rendered, lines, rfl⟩ := map_eq_ok given
  exact ⟨rendered, lines, rfl⟩

variable {settings namespaces} in
theorem exists_lines_of_extension {field : Field} {entry : Entry}
    (given : extensionEntry settings namespaces field = .ok entry) :
    ∃ lines, extensionLines settings namespaces field = .ok lines ∧
      entry = ⟨.extension (extensionKey namespaces field lines), field.hasChildren, ⟨lines, []⟩⟩ := by
  obtain ⟨lines, rendered, rfl⟩ := map_eq_ok given
  exact ⟨lines, rendered, rfl⟩

variable {settings namespaces} in
theorem rank_of_extensionEntry {field : Field} {entry : Entry}
    (given : extensionEntry settings namespaces field = .ok entry) :
    entry.rank = extensionRank settings namespaces field := by
  obtain ⟨lines, rendered, rfl⟩ := exists_lines_of_extension given
  rw [extensionRank, rendered]
  rfl

theorem extensionEntries_eq (fields : List Field) :
    extensionEntries settings namespaces fields =
      (fields.filter (isShown settings)).mapM (extensionEntry settings namespaces) := by
  induction fields with
  | nil => rfl
  | cons field fields ih =>
    rw [extensionEntries, ih, List.filter_cons, isShown]
    cases isExcluded settings field.name with
    | true => rfl
    | false =>
      simp only [Bool.false_eq_true, ite_false, Bool.not_false, ite_true, List.mapM_cons]
      rw [extensionEntry]
      cases extensionLines settings namespaces field <;> rfl

theorem siblingEntries_eq (lineage : Lineage) (fields : List Field) :
    siblingEntries settings namespaces lineage fields =
      (fields.filter (isShown settings)).mapM (siblingEntry settings namespaces lineage) := by
  induction fields with
  | nil => rfl
  | cons field fields ih =>
    rw [siblingEntries, ih, List.filter_cons, isShown]
    cases isExcluded settings field.name with
    | true => rfl
    | false =>
      simp only [Bool.false_eq_true, ite_false, Bool.not_false, ite_true, List.mapM_cons]
      rw [siblingEntry]
      cases regionOf lineage field with
      | extension =>
        rw [extensionEntry]
        cases extensionLines settings namespaces field <;> rfl
      | ilmd => cases extensionLines settings namespaces field <;> rfl
      | standard => cases standardLines settings namespaces lineage field <;> rfl

theorem toOption_siblingEntries (lineage : Lineage) (fields : List Field) :
    (siblingEntries settings namespaces lineage fields).toOption =
      collect (fun field => (siblingEntry settings namespaces lineage field).toOption)
        (fields.filter (isShown settings)) := by
  rw [siblingEntries_eq, toOption_mapM]

theorem toOption_extensionEntries (fields : List Field) :
    (extensionEntries settings namespaces fields).toOption =
      collect (fun field => (extensionEntry settings namespaces field).toOption)
        (fields.filter (isShown settings)) := by
  rw [extensionEntries_eq, toOption_mapM]

theorem mem_extensionEntries {fields : List Field} {entries : List Entry}
    (collected : extensionEntries settings namespaces fields = .ok entries) {entry : Entry} (member : entry ∈ entries) :
    ∃ field ∈ fields.filter (isShown settings), extensionEntry settings namespaces field = .ok entry := by
  have all := toOption_extensionEntries settings namespaces fields
  rw [collected] at all
  obtain ⟨field, shown, given⟩ := mem_of_collect all.symm member
  exact ⟨field, shown, ok_of_toOption given⟩

theorem mem_siblingEntries {lineage : Lineage} {fields : List Field} {entries : List Entry}
    (collected : siblingEntries settings namespaces lineage fields = .ok entries) {entry : Entry}
    (member : entry ∈ entries) :
    ∃ field ∈ fields.filter (isShown settings), siblingEntry settings namespaces lineage field = .ok entry := by
  have all := toOption_siblingEntries settings namespaces lineage fields
  rw [collected] at all
  obtain ⟨field, shown, given⟩ := mem_of_collect all.symm member
  exact ⟨field, shown, ok_of_toOption given⟩

def Rank.IsIn (lineage : Lineage) : Rank → Prop
  | standard _ => lineage.isUnderIlmd = false
  | ilmd _ => lineage.isUnderIlmd = true
  | extension _ => True

theorem Rank.IsIn.unmixed {lineage : Lineage} {a b : Rank} (inA : a.IsIn lineage) (inB : b.IsIn lineage) :
    ¬ a.Mixed b := by
  intro mixed
  cases a <;> cases b <;> first
    | exact mixed
    | exact Bool.false_ne_true (inA.symm.trans inB)
    | exact Bool.false_ne_true (inB.symm.trans inA)

/-- The rank of a field comes from its name and value, or in an extension also from its lines. -/
theorem siblingEntry_cases {lineage : Lineage} {field : Field} {entry : Entry}
    (given : siblingEntry settings namespaces lineage field = .ok entry) :
    entry.hasChildren = field.hasChildren ∧
    ((∃ lines, entry.rank = .extension (extensionKey namespaces field lines)) ∨
      lineage.isUnderIlmd = true ∧ entry.rank = .ilmd (extensionText namespaces field.name field.value) ∨
      lineage.isUnderIlmd = false ∧ lineage.isStandard field.name = true ∧
        entry.rank = .standard (Catalog.position? (Lineage.path (field.name :: lineage)))) := by
  by_cases extension : (!lineage.isStandard field.name || holdsOnlyExtensions lineage field) = true
  · rw [siblingEntry, regionOf, if_pos extension] at given
    obtain ⟨lines, -, rfl⟩ := exists_lines_of_extension given
    exact ⟨rfl, Or.inl ⟨lines, rfl⟩⟩
  · by_cases under : lineage.isUnderIlmd = true
    · rw [siblingEntry, regionOf, if_neg extension, if_pos under] at given
      obtain ⟨lines, -, rfl⟩ := map_eq_ok given
      exact ⟨rfl, Or.inr (Or.inl ⟨under, rfl⟩)⟩
    · have region : regionOf lineage field = .standard := by rw [regionOf, if_neg extension, if_neg under]
      obtain ⟨rendered, -, rfl⟩ := exists_rendered region given
      rw [Bool.not_eq_true, Bool.or_eq_false_iff, Bool.not_eq_false'] at extension
      exact ⟨rfl, Or.inr (Or.inr ⟨Bool.eq_false_iff.mpr under, extension.1, rfl⟩)⟩

theorem rank_isIn {lineage : Lineage} {field : Field} {entry : Entry}
    (given : siblingEntry settings namespaces lineage field = .ok entry) : entry.rank.IsIn lineage := by
  rcases (siblingEntry_cases settings namespaces given).2 with ⟨_, rank⟩ | ⟨under, rank⟩ | ⟨above, _, rank⟩
  · rw [rank]
    trivial
  · rw [rank]
    exact under
  · rw [rank]
    exact above

variable {settings namespaces} in
theorem not_mixed {lineage : Lineage} {a b : Field} {e f : Entry}
    (givenA : (siblingEntry settings namespaces lineage a).toOption = some e)
    (givenB : (siblingEntry settings namespaces lineage b).toOption = some f) : ¬ e.rank.Mixed f.rank :=
  Rank.IsIn.unmixed (rank_isIn settings namespaces (ok_of_toOption givenA))
    (rank_isIn settings namespaces (ok_of_toOption givenB))

theorem unmixed_siblingEntries {lineage : Lineage} {fields : List Field} {entries : List Entry}
    (collected : siblingEntries settings namespaces lineage fields = .ok entries) : Unmixed entries := by
  intro a memberA b memberB
  obtain ⟨_, _, givenA⟩ := mem_siblingEntries settings namespaces collected memberA
  obtain ⟨_, _, givenB⟩ := mem_siblingEntries settings namespaces collected memberB
  exact Rank.IsIn.unmixed (rank_isIn settings namespaces givenA) (rank_isIn settings namespaces givenB)

theorem unmixed_extensionEntries {fields : List Field} {entries : List Entry}
    (collected : extensionEntries settings namespaces fields = .ok entries) : Unmixed entries := by
  intro a memberA b memberB
  obtain ⟨_, _, givenA⟩ := mem_extensionEntries settings namespaces collected memberA
  obtain ⟨_, _, givenB⟩ := mem_extensionEntries settings namespaces collected memberB
  obtain ⟨_, _, rfl⟩ := exists_lines_of_extension givenA
  obtain ⟨_, _, rfl⟩ := exists_lines_of_extension givenB
  exact id

/-- Siblings are in an order, standard ones as well as those in an extension, exactly when none without
    children has the rank of two with children that differ. -/
theorem siblings_lawful_iff (lineage : Lineage) (fields : List Field) :
    (∀ entries, siblingEntries settings namespaces lineage fields = .ok entries →
      (Lawful entries ↔ Separated entries)) ∧
    ∀ entries, extensionEntries settings namespaces fields = .ok entries →
      (Lawful entries ↔ Separated entries) :=
  ⟨fun _ collected => lawful_iff_separated (unmixed_siblingEntries settings namespaces collected),
    fun _ collected => lawful_iff_separated (unmixed_extensionEntries settings namespaces collected)⟩

end Siblings

def mixedArrayEvent : Json.Value :=
  .object
    [("type", .string "ObjectEvent"),
      ("readPoint", .array [.object [("id", .string "b")], .string "x", .object [("id", .string "a")]])]

def mixedArrayTree : EventTree :=
  EventTree.ofFields NameTable.empty
    [Field.leaf "type" "ObjectEvent", Field.node "readPoint" [Field.leaf "id" "b"], Field.leaf "readPoint" "x",
      Field.node "readPoint" [Field.leaf "id" "a"]]

theorem eventTree_mixedArray :
    Json.eventTree Settings.standard NameTable.empty mixedArrayEvent = .ok mixedArrayTree := by
  apply ok_of_toOption
  decide +kernel

def readPointEntry (hasChildren : Bool) (lines : List String) : Entry :=
  ⟨.standard (some 18), hasChildren, ⟨lines, []⟩⟩

def mixedArrayEntries : List Entry :=
  [⟨.standard (some 0), false, ⟨["eventType=ObjectEvent"], []⟩⟩, readPointEntry true ["readPoint", "id=b"],
    readPointEntry false ["readPoint=x"], readPointEntry true ["readPoint", "id=a"]]

theorem siblingEntries_mixedArray :
    siblingEntries Settings.standard mixedArrayTree.namespaces [none] mixedArrayTree.fields =
      .ok mixedArrayEntries := by
  apply ok_of_toOption
  decide +kernel

def mixedArrayExtension : List Entry :=
  [⟨.extension "type=ObjectEvent", false, ⟨["type=ObjectEvent"], []⟩⟩,
    ⟨.extension "readPoint", true, ⟨["readPoint", "id=b"], []⟩⟩,
    ⟨.extension "readPoint=x", false, ⟨["readPoint=x"], []⟩⟩,
    ⟨.extension "readPoint", true, ⟨["readPoint", "id=a"], []⟩⟩]

theorem extensionEntries_mixedArray :
    extensionEntries Settings.standard mixedArrayTree.namespaces mixedArrayTree.fields = .ok mixedArrayExtension := by
  apply ok_of_toOption
  decide +kernel

theorem siblings_lawful_iff_mixedArray :
    (siblingEntries Settings.standard mixedArrayTree.namespaces [none] mixedArrayTree.fields = .ok mixedArrayEntries ∧
      (Lawful mixedArrayEntries ↔ Separated mixedArrayEntries)) ∧
    extensionEntries Settings.standard mixedArrayTree.namespaces mixedArrayTree.fields = .ok mixedArrayExtension ∧
      (Lawful mixedArrayExtension ↔ Separated mixedArrayExtension) :=
  have order := siblings_lawful_iff Settings.standard mixedArrayTree.namespaces [none] mixedArrayTree.fields
  ⟨⟨siblingEntries_mixedArray, order.1 mixedArrayEntries siblingEntries_mixedArray⟩,
    extensionEntries_mixedArray, order.2 mixedArrayExtension extensionEntries_mixedArray⟩

/-- The field without children is equal to both others, and these are not equal. -/
theorem not_lawful_mixedArray :
    ∃ tree entries, Json.eventTree Settings.standard NameTable.empty mixedArrayEvent = .ok tree ∧
      siblingEntries Settings.standard tree.namespaces [none] tree.fields = .ok entries ∧ ¬ Lawful entries := by
  refine ⟨mixedArrayTree, mixedArrayEntries, eventTree_mixedArray, siblingEntries_mixedArray, fun lawful => ?_⟩
  have members : readPointEntry true ["readPoint", "id=b"] ∈ mixedArrayEntries ∧
      readPointEntry false ["readPoint=x"] ∈ mixedArrayEntries ∧
      readPointEntry true ["readPoint", "id=a"] ∈ mixedArrayEntries := by
    decide +kernel
  have equal := lawful.equal _ members.1 _ members.2.1 _ members.2.2 (by decide +kernel) (by decide +kernel)
  have different : (readPointEntry true ["readPoint", "id=b"]).compare
      (readPointEntry true ["readPoint", "id=a"]) ≠ .eq := by
    decide +kernel
  exact different equal

end EpcisDigest
