import EpcisDigest.Proofs.Event.Placement
import EpcisDigest.Proofs.Text.Utf8

namespace EpcisDigest

open List

theorem sublist_pair {α : Type} {items : List α} {x y : α} (inX : x ∈ items) (inY : y ∈ items) (differ : x ≠ y) :
    [x, y] <+ items ∨ [y, x] <+ items := by
  induction items with
  | nil => cases inX
  | cons item items ih =>
    rcases mem_cons.mp inX with rfl | laterX
    · have laterY := (mem_cons.mp inY).resolve_left (Ne.symm differ)
      exact .inl ((singleton_sublist.mpr laterY).cons_cons x)
    · rcases mem_cons.mp inY with rfl | laterY
      · exact .inr ((singleton_sublist.mpr laterX).cons_cons y)
      · exact (ih laterX laterY).imp (Sublist.cons item) (Sublist.cons item)

theorem Rank.compare_standard {position position' : Nat} (lower : position < position') :
    Rank.compare (.standard (some position)) (.standard (some position')) = .lt := by
  rw [← Entry.comparePositions_eq]
  exact Nat.compare_eq_lt.mpr lower

theorem Rank.compare_standard_extension (position : Option Nat) (key : String) :
    Rank.compare (.standard position) (.extension key) = .lt := by
  cases position <;> rfl

theorem Rank.compare_extension (key key' : String) :
    Rank.compare (.extension key) (.extension key') = Ord.compare key key' := by
  simp [Rank.compare, comparePlaces, place, compareLex, compareOn]

theorem Rank.compare_ilmd (key key' : String) : Rank.compare (.ilmd key) (.ilmd key') = Ord.compare key key' := by
  simp [Rank.compare, comparePlaces, place, compareLex, compareOn]

namespace EventTree

variable {settings : Settings} {tree : EventTree}

def display (tree : EventTree) (node : Nat) : String :=
  extensionText tree.namespaces (tree.name? node) (tree.value? node)

theorem KeepsRanks.sublist {order : List Nat} (keeps : KeepsRanks settings tree order) {node other : Nat}
    (inNode : node ∈ order) (inOther : other ∈ order) (differ : node ≠ other)
    (ahead : tree.Ahead settings node other) : [node, other] <+ order := by
  rcases sublist_pair inNode inOther differ with inOrder | reversed
  · exact inOrder
  · exact absurd ahead (pairwise_iff_forall_sublist.mp keeps reversed)

namespace Ordered

variable (ordered : tree.Ordered)

include ordered

/-- A node that is ahead of another one is written first, unless it is hoisted and the other one is not. -/
theorem sublist_of_ahead {placement : Placement} {roots placed hoisted : List Nat} {rendered : Rendered}
    (laid : Laid settings tree placement roots rendered placed hoisted) {node other : Nat}
    (inNode : node ∈ tree.visibleIn settings roots) (inOther : other ∈ tree.visibleIn settings roots)
    (ahead : tree.Ahead settings node other)
    (together : placement = .hoisted → tree.liesInExtension node = true → tree.liesInExtension other = true) :
    [node, other] <+ placed ++ hoisted := by
  have differ : node ≠ other := by
    rintro rfl
    exact ordered.not_ahead_of_within (.inl rfl) ahead
  rcases mem_append.mp (laid.perm.mem_iff.mpr inNode) with first | first
  · rcases mem_append.mp (laid.perm.mem_iff.mpr inOther) with second | second
    · exact (laid.ranked.1.sublist first second differ ahead).trans (sublist_append_left placed hoisted)
    · exact (singleton_sublist.mpr first).append (singleton_sublist.mpr second)
  · rcases mem_append.mp (laid.perm.mem_iff.mpr inOther) with second | second
    · cases placement with
      | inline =>
        rw [(laid.inPlace rfl).1] at first
        cases first
      | hoisted =>
        obtain ⟨outside, inside⟩ := laid.apart rfl
        have lies := together rfl (inside node first)
        rw [outside other second] at lies
        cases lies
    · exact (laid.ranked.2.sublist first second differ ahead).trans (sublist_append_right placed hoisted)

theorem liesInExtension_within {node below : Nat} (lies : tree.liesInExtension node = true)
    (within : tree.IsWithin node below) : tree.liesInExtension below = true := by
  rcases within with rfl | lower
  · exact lies
  · exact ordered.liesInExtension_below lies below lower

theorem mem_visibleNodes_of_child {parent child node : Nat} (below : tree.parent? child = some parent)
    (member : node ∈ tree.visibleIn settings [child]) : node ∈ tree.visibleNodes settings := by
  have within := ordered.isWithin_of_mem_visibleIn settings (ordered.parent_lt below).2 member
  obtain ⟨above, isParent⟩ : ∃ above, tree.parent? node = some above := by
    rcases within with rfl | lower
    · exact ⟨parent, below⟩
    · exact exists_parent lower
  exact ordered.mem_visibleNodes isParent (mem_filter.mp member).2

omit ordered in
theorem inExtension_of_lies {node : Nat} (lies : tree.liesInExtension node = true) : tree.inExtension node = true := by
  rw [liesInExtension] at lies
  rw [inExtension, lies, Bool.or_true]

omit ordered in
theorem extensionRank_named {node : Nat} (named : (pathName? (tree.name? node)).isSome = true) :
    extensionRank settings tree.namespaces (tree.field node) = .extension (tree.display node) := by
  obtain ⟨name, isName⟩ := Option.isSome_iff_exists.mp named
  simp only [extensionRank, extensionKey, name_field, value_field, isName, display]

omit ordered in
theorem isUnderIlmd_of_catalogued {node : Nat} (catalogued : tree.isCatalogued node = true) :
    tree.isUnderIlmd node = false := by
  obtain ⟨name, -, named⟩ := exists_name_of_catalogued catalogued
  have found := (Bool.and_eq_true_iff.mp catalogued).2
  rw [fieldPath_eq, named] at found
  exact isUnderIlmd_of_lookup? found

theorem siblingRank_standard {node parent : Nat} (below : tree.parent? node = some parent)
    (notIlmd : tree.isUnderIlmd node = false) (outside : tree.liesInExtension node = false) :
    tree.siblingRank settings node = .standard (Catalog.position? (tree.fieldPath node)) := by
  rw [ordered.liesInExtension_of_parent below, Bool.or_eq_false_iff] at outside
  have above := notIlmd
  rw [ordered.isUnderIlmd_of_parent below, Bool.or_eq_false_iff] at above
  have outside' : tree.inExtension parent = false := by
    rw [inExtension, above.2, Bool.false_or]
    exact outside.2
  rw [siblingRank_outside settings below outside', outside.1, notIlmd, if_neg Bool.false_ne_true,
    if_neg Bool.false_ne_true]

omit ordered in
theorem siblingRank_extension {node : Nat} (extension : tree.isStandard node = false) :
    tree.siblingRank settings node = .extension (tree.display node) := by
  have enters : tree.entersExtension node = true := by rw [entersExtension, extension, Bool.not_false, Bool.true_or]
  have named : (pathName? (tree.name? node)).isSome = true := by
    rw [isStandard, Lineage.isStandard, Bool.or_eq_false_iff, Bool.or_eq_false_iff] at extension
    rw [← Option.not_isNone, extension.1.1]
    rfl
  rw [siblingRank, enters, Bool.true_or, if_pos rfl, extensionRank_named named]

theorem outranks_of_position {first second parent position position' : Nat}
    (isFirst : tree.parent? first = some parent) (isSecond : tree.parent? second = some parent)
    (catalogued : tree.isCatalogued first = true) (catalogued' : tree.isCatalogued second = true)
    (found : Catalog.position? (tree.fieldPath first) = some position)
    (found' : Catalog.position? (tree.fieldPath second) = some position') (lower : position < position') :
    tree.Outranks settings first second := by
  refine ⟨⟨parent, isFirst, isSecond⟩, ?_⟩
  rw [ordered.siblingRank_standard isFirst (isUnderIlmd_of_catalogued catalogued)
      (ordered.liesInExtension_of_catalogued catalogued),
    ordered.siblingRank_standard isSecond (isUnderIlmd_of_catalogued catalogued')
      (ordered.liesInExtension_of_catalogued catalogued'), found, found']
  exact Rank.compare_standard lower

/-- Extensions are sorted behind standard fields, unless these hold only extensions. -/
theorem outranks_of_standard {first second parent : Nat} (isFirst : tree.parent? first = some parent)
    (isSecond : tree.parent? second = some parent) (outside : tree.liesInExtension first = false)
    (extension : tree.isStandard second = false) : tree.Outranks settings first second := by
  refine ⟨⟨parent, isFirst, isSecond⟩, ?_⟩
  have notIlmd : tree.isUnderIlmd first = false := by
    rw [isStandard, Lineage.isStandard, Bool.or_eq_false_iff, Bool.or_eq_false_iff] at extension
    have under : tree.isUnderIlmd second = false := extension.1.2
    rwa [ordered.isUnderIlmd_of_parent isSecond, ← ordered.isUnderIlmd_of_parent isFirst] at under
  rw [ordered.siblingRank_standard isFirst notIlmd outside, siblingRank_extension extension]
  exact Rank.compare_standard_extension _ _

omit ordered in
theorem outranks_of_extensions {first second parent : Nat} (isFirst : tree.parent? first = some parent)
    (isSecond : tree.parent? second = some parent) (extension : tree.isStandard first = false)
    (extension' : tree.isStandard second = false)
    (less : compare (tree.display first) (tree.display second) = .lt) : tree.Outranks settings first second := by
  refine ⟨⟨parent, isFirst, isSecond⟩, ?_⟩
  rw [siblingRank_extension extension, siblingRank_extension extension', Rank.compare_extension]
  exact less

theorem outranks_of_display {first second parent : Nat} (isFirst : tree.parent? first = some parent)
    (isSecond : tree.parent? second = some parent)
    (inside : tree.isUnderIlmd first = true ∨ tree.liesInExtension parent = true)
    (named : (pathName? (tree.name? first)).isSome = true) (named' : (pathName? (tree.name? second)).isSome = true)
    (less : compare (tree.display first) (tree.display second) = .lt) : tree.Outranks settings first second := by
  refine ⟨⟨parent, isFirst, isSecond⟩, ?_⟩
  cases above : tree.inExtension parent with
  | true =>
    rw [siblingRank_inside settings isFirst above, siblingRank_inside settings isSecond above,
      extensionRank_named named, extensionRank_named named', Rank.compare_extension]
    exact less
  | false =>
    have under : tree.isUnderIlmd first = true := by
      refine inside.resolve_right fun lies => ?_
      rw [inExtension_of_lies lies] at above
      cases above
    have under' : tree.isUnderIlmd second = true := by
      rw [ordered.isUnderIlmd_of_parent isFirst] at under
      rw [ordered.isUnderIlmd_of_parent isSecond, under]
    rw [siblingRank_outside settings isFirst above, siblingRank_outside settings isSecond above,
      entersExtension_of_ilmd under, entersExtension_of_ilmd under', if_neg Bool.false_ne_true,
      if_neg Bool.false_ne_true, if_pos under, if_pos under']
    exact (Rank.compare_ilmd _ _).trans less

/-- Where a node below `ilmd` is in an extension, all that is below its parent is. -/
theorem lies_together {first second parent node other : Nat} (isFirst : tree.parent? first = some parent)
    (isSecond : tree.parent? second = some parent)
    (inside : tree.isUnderIlmd first = true ∨ tree.liesInExtension parent = true)
    (inNode : tree.IsWithin first node) (inOther : tree.IsWithin second other)
    (lies : tree.liesInExtension node = true) : tree.liesInExtension other = true := by
  cases above : tree.liesInExtension parent with
  | true =>
    apply ordered.liesInExtension_within _ inOther
    rw [ordered.liesInExtension_of_parent isSecond, above, Bool.or_true]
  | false =>
    have under : tree.isUnderIlmd first = true := inside.resolve_right (by rw [above]; exact Bool.false_ne_true)
    have outside : tree.liesInExtension first = false := by
      rw [ordered.liesInExtension_of_parent isFirst, entersExtension_of_ilmd under, above]
      rfl
    have outside' : tree.liesInExtension node = false := by
      rcases inNode with rfl | lower
      · exact outside
      · exact (ordered.liesInExtension_below_ilmd under outside node lower).2
    rw [outside'] at lies
    cases lies

end Ordered

open Ordered in
/-- In which order the lines below two siblings come. Those of fields of the catalog come in its order, apart from lines
    in extensions, which follow where these are hoisted; those of extensions come behind those of standard fields and
    in the order of their texts, as all do below `ilmd` and in extensions. -/
theorem canonicalForm_siblings (built : tree.Built) {form : CanonicalForm}
    (written : tree.canonicalForm settings = .ok form) :
    ∃ order, order ~ tree.visibleNodes settings ∧ form.lines = cleaned (tree.texts settings order) ∧
      ∀ parent first second, tree.parent? first = some parent → tree.parent? second = some parent →
        ∀ node ∈ tree.visibleIn settings [first], ∀ other ∈ tree.visibleIn settings [second],
          (∀ position position', tree.isCatalogued first = true → tree.isCatalogued second = true →
            Catalog.position? (tree.fieldPath first) = some position →
            Catalog.position? (tree.fieldPath second) = some position' → position < position' →
            settings.version = .v2_1 ∨ tree.liesInExtension node = false → [node, other] <+ order) ∧
          (tree.isStandard second = false → tree.liesInExtension node = false → [node, other] <+ order) ∧
          (tree.isStandard first = false → tree.isStandard second = false →
            Text.bytesOf (tree.display first) < Text.bytesOf (tree.display second) → [node, other] <+ order) ∧
          (tree.isUnderIlmd first = true ∨ tree.liesInExtension parent = true →
            (pathName? (tree.name? first)).isSome = true → (pathName? (tree.name? second)).isSome = true →
            Text.bytesOf (tree.display first) < Text.bytesOf (tree.display second) → [node, other] <+ order) := by
  have ordered := built.ordered
  have all : tree.visibleIn settings (tree.children 0) ~ tree.visibleNodes settings := by
    have below := ordered.descendants_root.filter (tree.isVisible settings)
    rwa [ordered.descendants_eq ordered.hasRoot] at below
  obtain ⟨rendered, placed, hoisted, laid, lines⟩ := ordered.laid_event settings written
  refine ⟨placed ++ hoisted, laid.perm.trans all, ?_, ?_⟩
  · rw [lines, laid.lines, texts_append]
  intro parent first second isFirst isSecond node inNode other inOther
  have within := ordered.isWithin_of_mem_visibleIn settings (ordered.parent_lt isFirst).2 inNode
  have within' := ordered.isWithin_of_mem_visibleIn settings (ordered.parent_lt isSecond).2 inOther
  have sublist : tree.Outranks settings first second →
      (settings.version.placement = .hoisted → tree.liesInExtension node = true →
        tree.liesInExtension other = true) → [node, other] <+ placed ++ hoisted := by
    intro outranks together
    exact ordered.sublist_of_ahead laid (all.mem_iff.mpr (ordered.mem_visibleNodes_of_child isFirst inNode))
      (all.mem_iff.mpr (ordered.mem_visibleNodes_of_child isSecond inOther)) ⟨first, second, outranks, within, within'⟩
      together
  refine ⟨fun position position' catalogued catalogued' found found' lower apart => ?_,
    fun extension outside => ?_, fun extension extension' less => ?_, fun inside named named' less => ?_⟩
  · apply sublist (ordered.outranks_of_position isFirst isSecond catalogued catalogued' found found' lower)
    intro isHoisted lies
    rcases apart with version | outside
    · rw [version] at isHoisted
      cases isHoisted
    · exact absurd (outside.symm.trans lies) Bool.false_ne_true
  · have outside' : tree.liesInExtension first = false := by
      apply Bool.eq_false_iff.mpr
      intro lies
      exact absurd (outside.symm.trans (ordered.liesInExtension_within lies within)) Bool.false_ne_true
    apply sublist (ordered.outranks_of_standard isFirst isSecond outside' extension)
    exact fun _ lies => absurd (outside.symm.trans lies) Bool.false_ne_true
  · apply sublist (outranks_of_extensions isFirst isSecond extension extension' (Text.compare_of_bytesOf_lt less))
    intro _ _
    apply ordered.liesInExtension_within _ within'
    rw [ordered.liesInExtension_of_parent isSecond, entersExtension, extension', Bool.not_false, Bool.true_or,
      Bool.true_or]
  · apply sublist (ordered.outranks_of_display isFirst isSecond inside named named' (Text.compare_of_bytesOf_lt less))
    exact fun _ => ordered.lies_together isFirst isSecond inside within within'

def reversedTree : EventTree :=
  let named := ((empty NameTable.empty).addLeaf 0 "ex:b" "1").1
  let extended := (named.addLeaf 0 "ex:a" "2").1
  let lots := (((extended.addNode 0 "ilmd").1.addLeaf 3 "lot" "3").1.addLeaf 3 "form" "4").1
  (((lots.addNode 0 "readPoint").1.addLeaf 6 "id" "here").1.addLeaf 0 "type" "ObjectEvent").1

theorem canonicalForm_siblings_reversedTree :
    (reversedTree.Built ∧ reversedTree.canonicalForm Settings.standard =
      .ok ⟨["eventType=ObjectEvent", "readPoint", "id=here", "ilmd", "form=4", "lot=3", "ex:a=2", "ex:b=1"]⟩) ∧
    ∃ order, order ~ reversedTree.visibleNodes Settings.standard ∧
      ["eventType=ObjectEvent", "readPoint", "id=here", "ilmd", "form=4", "lot=3", "ex:a=2", "ex:b=1"] =
        cleaned (reversedTree.texts Settings.standard order) ∧
      [7, 3] <+ order ∧ [4, 1] <+ order ∧ [2, 1] <+ order ∧ [5, 4] <+ order := by
  have built : reversedTree.Built :=
    ((((((((Built.empty _).add (by decide) _ _).add (by decide) _ _).add (by decide) _ _).add (by decide) _ _).add
      (by decide) _ _).add (by decide) _ _).add (by decide) _ _).add (by decide) _ _
  have written : reversedTree.canonicalForm Settings.standard =
      .ok ⟨["eventType=ObjectEvent", "readPoint", "id=here", "ilmd", "form=4", "lot=3", "ex:a=2", "ex:b=1"]⟩ := by
    apply ok_of_toOption
    decide +kernel
  obtain ⟨order, perm, lines, siblings⟩ := canonicalForm_siblings built written
  refine ⟨⟨built, written⟩, order, perm, lines, ?_, ?_, ?_, ?_⟩
  · exact (siblings 0 6 3 rfl rfl 7 (by decide +kernel) 3 (by decide +kernel)).1 18 24 (by decide +kernel)
      (by decide +kernel) (by decide +kernel) (by decide +kernel) (by decide) (.inr (by decide +kernel))
  · exact (siblings 0 3 1 rfl rfl 4 (by decide +kernel) 1 (by decide +kernel)).2.1 (by decide +kernel)
      (by decide +kernel)
  · exact (siblings 0 2 1 rfl rfl 2 (by decide +kernel) 1 (by decide +kernel)).2.2.1 (by decide +kernel)
      (by decide +kernel) (by decide +kernel)
  · exact (siblings 3 5 4 rfl rfl 5 (by decide +kernel) 4 (by decide +kernel)).2.2.2 (.inl (by decide +kernel))
      (by decide +kernel) (by decide +kernel) (by decide +kernel)

end EventTree

end EpcisDigest
