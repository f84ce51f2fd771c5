import EpcisDigest.Proofs.Sort.Arrangement

namespace EpcisDigest.Sort

open List

variable {α : Type} {le : α → α → Bool} {before : α → α → Prop} (decides : Decides le before)

namespace Run

theorem chain_append (related : α → α → Bool) (last : α) (items : List α) :
    (chain related last items).1 ++ (chain related last items).2 = items := by
  induction items generalizing last with
  | nil => rfl
  | cons item items ih =>
    rw [chain]
    split
    · exact congrArg (item :: ·) (ih item)
    · rfl

theorem chain_pairwise {related : α → α → Bool} {above : α → α → Prop}
    (trans : ∀ a b c, above a b → above b c → above a c)
    (implied : ∀ a b, related a b = true → above a b) (last : α) (items : List α) :
    (last :: (chain related last items).1).Pairwise above := by
  induction items generalizing last with
  | nil => exact pairwise_singleton _ _
  | cons item items ih =>
    rw [chain]
    split
    · rename_i next
      have others := ih item
      refine pairwise_cons.mpr ⟨fun other member => ?_, others⟩
      rcases mem_cons.mp member with rfl | later
      · exact implied last other next
      · exact trans last item other (implied last item next) (rel_of_pairwise_cons others later)
    · exact pairwise_singleton _ _

theorem withDepths_map (size start : Nat) (runs : List (Run α)) : (withDepths size start runs).map Prod.fst = runs := by
  induction runs generalizing start with
  | nil => rfl
  | cons run runs ih =>
    cases runs with
    | nil => rfl
    | cons next runs => exact congrArg (run :: ·) (ih _)

theorem joinBack_zero {sortLoose : List α → Option (List α)} {run joined : Run α} {earlier rest : List (Run α × Nat)}
    (given : joinBack le sortLoose 0 run earlier = some (joined, rest)) : rest = [] := by
  induction earlier generalizing run with
  | nil =>
    cases given
    rfl
  | cons entry earlier ih =>
    rw [joinBack, if_pos (Nat.zero_le _)] at given
    obtain ⟨middle, _, given⟩ := Option.bind_eq_some_iff.mp given
    exact ih given

/-- A run is in order, if it says that it is sorted; it may only say otherwise where `loose` holds. -/
structure Settled (before : α → α → Prop) (loose : Prop) (run : Run α) : Prop where
  inOrder : run.isSorted = true → run.items.Pairwise before
  settled : run.isSorted = true ∨ loose

def itemsInOrder (runs : List (Run α × Nat)) : List α := runs.reverse.flatMap fun entry => entry.1.items

theorem itemsInOrder_cons (entry : Run α × Nat) (runs : List (Run α × Nat)) :
    itemsInOrder (entry :: runs) = itemsInOrder runs ++ entry.1.items := by
  rw [itemsInOrder, reverse_cons, flatMap_append, flatMap_cons, flatMap_nil, append_nil]
  rfl

section Cutting

include decides

theorem natural_arranged (items : List α) :
    (natural le items).1 ++ (natural le items).2 ~ items ∧ (natural le items).1.Pairwise before := by
  unfold natural
  split
  · rename_i a b items
    split
    · rename_i less
      have run := chain_pairwise decides.trans decides.below a (b :: items)
      have whole := chain_append le a (b :: items)
      rw [chain, if_pos less] at run whole
      exact ⟨Perm.of_eq (congrArg (a :: ·) whole), run⟩
    · rename_i greater
      have falls : ∀ a b, (!le a b) = true → before b a := by
        intro a b notLess
        exact decides.above a b fun less => by rw [less] at notLess; cases notLess
      have isNext : (!le a b) = true := by
        rw [Bool.not_eq_true', Bool.eq_false_iff]
        exact greater
      have run := chain_pairwise decides.flip.trans falls a (b :: items)
      have whole := chain_append (fun a b => !le a b) a (b :: items)
      rw [chain, if_pos isNext] at run whole
      have turned := reverse_perm (a :: b :: (chain (fun a b => !le a b) b items).1)
      exact ⟨(turned.append_right _).trans (Perm.of_eq (congrArg (a :: ·) whole)), pairwise_reverse.mpr run⟩
  · rename_i short
    rw [append_nil]
    refine ⟨Perm.refl _, ?_⟩
    rcases items with _ | ⟨a, _ | ⟨b, items⟩⟩
    · exact Pairwise.nil
    · exact pairwise_singleton _ _
    · exact absurd rfl (short a b items)

variable {loose : Prop} {eager : Bool}

theorem first_arranged (settled : eager = true ∨ loose) {least : Nat} {items rest : List α} {run : Run α}
    (given : first le eager least items = some (run, rest)) :
    run.items ++ rest ~ items ∧ run.Settled before loose := by
  unfold first at given
  dsimp only at given
  split at given
  · cases given
    have natural := natural_arranged decides items
    exact ⟨natural.1, fun _ => natural.2, Or.inl rfl⟩
  · split at given
    · obtain ⟨sorted, givenSorted, given⟩ := Option.bind_eq_some_iff.mp given
      cases given
      have arranged := sortShort_arranged decides givenSorted
      have perm := arranged.perm.append_right (items.drop shortLimit)
      rw [take_append_drop] at perm
      exact ⟨perm, fun _ => arranged.inOrder, Or.inl rfl⟩
    · rename_i notEager
      cases given
      exact ⟨Perm.of_eq (take_append_drop least items), fun no => absurd no Bool.false_ne_true,
        Or.inr (settled.resolve_left notEager)⟩

omit decides in
theorem natural_ne_nil (le : α → α → Bool) {items : List α} (nonempty : items ≠ []) : (natural le items).1 ≠ [] := by
  unfold natural
  split
  · split
    · exact cons_ne_nil _ _
    · exact fun empty => cons_ne_nil _ _ (reverse_eq_nil_iff.mp empty)
  · exact nonempty

omit decides in
theorem first_ne_nil {least : Nat} {items rest : List α} {run : Run α} (nonempty : items ≠ [])
    (given : first le true least items = some (run, rest)) : run.items ≠ [] := by
  unfold first at given
  dsimp only at given
  split at given
  · cases given
    exact natural_ne_nil le nonempty
  · obtain ⟨sorted, givenSorted, given⟩ := Option.bind_eq_some_iff.mp given
    cases given
    intro nothing
    have perm := (sortShort_arranged (decides_anything le) givenSorted).perm
    rw [show sorted = [] from nothing] at perm
    rcases take_eq_nil_iff.mp perm.nil_eq.symm with limit | empty
    · exact absurd limit (by decide)
    · exact nonempty empty

omit decides in
theorem rest_shorter {least : Nat} {items rest : List α} {run : Run α} (nonempty : items ≠ [])
    (given : first le true least items = some (run, rest)) : rest.length < items.length := by
  have some := length_pos_iff.mpr (first_ne_nil nonempty given)
  have arranged := first_arranged (decides_anything le) (Or.inl rfl : true = true ∨ False) given
  have lengths := arranged.1.length_eq
  rw [length_append] at lengths
  omega

theorem ofList_arranged {least count : Nat} {items : List α} {runs : List (Run α)}
    (settled : eager = true ∧ items.length ≤ count ∨ loose) (given : ofList le eager least count items = some runs) :
    runs.flatMap Run.items ~ items ∧ ∀ run ∈ runs, run.Settled before loose := by
  induction count generalizing items runs with
  | zero =>
    cases items with
    | nil =>
      cases given
      exact ⟨Perm.refl _, fun run member => absurd member not_mem_nil⟩
    | cons item items =>
      have isLoose := settled.resolve_left fun bounded => Nat.not_succ_le_zero _ bounded.2
      rw [ofList] at given
      · cases given
        rw [flatMap_cons, flatMap_nil, append_nil]
        refine ⟨Perm.refl _, fun run member => ?_⟩
        rw [mem_singleton.mp member]
        exact ⟨fun no => absurd no Bool.false_ne_true, Or.inr isLoose⟩
      · exact fun h => by cases h
  | succ count ih =>
    cases items with
    | nil =>
      cases given
      exact ⟨Perm.refl _, fun run member => absurd member not_mem_nil⟩
    | cons item items =>
      rw [ofList] at given
      · obtain ⟨⟨run, rest⟩, givenRun, given⟩ := Option.bind_eq_some_iff.mp given
        obtain ⟨others, givenOthers, given⟩ := Option.bind_eq_some_iff.mp given
        cases given
        have one := first_arranged decides (settled.imp_left And.left) givenRun
        have shorter : eager = true ∧ rest.length ≤ count ∨ loose := by
          refine settled.imp_left ?_
          rintro ⟨rfl, bounded⟩
          exact ⟨rfl, Nat.le_of_lt_succ (Nat.lt_of_lt_of_le (rest_shorter (cons_ne_nil item items) givenRun) bounded)⟩
        have more := ih shorter givenOthers
        rw [flatMap_cons]
        refine ⟨(more.1.append_left run.items).trans one.1, fun other member => ?_⟩
        rcases mem_cons.mp member with rfl | later
        · exact one.2
        · exact more.2 other later
      · exact fun h => by cases h

end Cutting

section Joining

variable {loose : Prop} {sortLoose : List α → Option (List α)}
  (arrangesLoose : loose → ∀ {items sorted}, sortLoose items = some sorted → Arranged before items sorted)

include arrangesLoose

theorem sorted_arranged {run : Run α} {sorted : List α} (settled : run.Settled before loose)
    (given : run.sorted sortLoose = some sorted) : Arranged before run.items sorted := by
  rw [Run.sorted] at given
  split at given
  · rename_i isSorted
    cases given
    exact Arranged.refl (settled.inOrder isSorted)
  · rename_i notSorted
    exact arrangesLoose (settled.settled.resolve_left notSorted) given

include decides

theorem join_arranged {left right joined : Run α} (settledLeft : left.Settled before loose)
    (settledRight : right.Settled before loose) (given : join le sortLoose left right = some joined) :
    joined.items ~ left.items ++ right.items ∧ joined.Settled before loose := by
  rw [join] at given
  split at given
  · obtain ⟨front, givenFront, given⟩ := Option.bind_eq_some_iff.mp given
    obtain ⟨back, givenBack, given⟩ := Option.bind_eq_some_iff.mp given
    cases given
    have frontArranged := sorted_arranged arrangesLoose settledLeft givenFront
    have backArranged := sorted_arranged arrangesLoose settledRight givenBack
    have merged := mergeEnds_arranged decides frontArranged.inOrder backArranged.inOrder
    exact ⟨merged.perm.trans (frontArranged.perm.append backArranged.perm), fun _ => merged.inOrder, Or.inl rfl⟩
  · rename_i unsorted
    cases given
    have isLoose : loose := settledLeft.settled.resolve_left fun isSorted => unsorted (by rw [isSorted]; rfl)
    exact ⟨Perm.refl _, fun no => absurd no Bool.false_ne_true, Or.inr isLoose⟩

theorem joinBack_arranged {depth : Nat} {run joined : Run α} {earlier rest : List (Run α × Nat)}
    (settled : run.Settled before loose) (settledEarlier : ∀ entry ∈ earlier, entry.1.Settled before loose)
    (given : joinBack le sortLoose depth run earlier = some (joined, rest)) :
    itemsInOrder rest ++ joined.items ~ itemsInOrder earlier ++ run.items ∧ joined.Settled before loose ∧
      ∀ entry ∈ rest, entry.1.Settled before loose := by
  induction earlier generalizing run with
  | nil =>
    cases given
    exact ⟨Perm.refl _, settled, settledEarlier⟩
  | cons entry earlier ih =>
    obtain ⟨left, border⟩ := entry
    rw [joinBack] at given
    split at given
    · obtain ⟨middle, givenMiddle, given⟩ := Option.bind_eq_some_iff.mp given
      have one := join_arranged decides arrangesLoose (settledEarlier _ mem_cons_self) settled givenMiddle
      have others := ih one.2 (fun entry member => settledEarlier entry (mem_cons_of_mem _ member)) given
      rw [itemsInOrder_cons, append_assoc]
      exact ⟨others.1.trans (one.1.append_left _), others.2⟩
    · cases given
      exact ⟨Perm.refl _, settled, settledEarlier⟩

theorem add_arranged {earlier added : List (Run α × Nat)} {next : Run α × Nat}
    (settled : next.1.Settled before loose) (settledEarlier : ∀ entry ∈ earlier, entry.1.Settled before loose)
    (given : add le sortLoose earlier next = some added) :
    itemsInOrder added ~ itemsInOrder earlier ++ next.1.items ∧ ∀ entry ∈ added, entry.1.Settled before loose := by
  obtain ⟨⟨joined, rest⟩, givenJoined, given⟩ := Option.bind_eq_some_iff.mp given
  cases given
  have one := joinBack_arranged decides arrangesLoose settled settledEarlier givenJoined
  rw [itemsInOrder_cons]
  exact ⟨one.1, forall_mem_cons.mpr one.2⟩

theorem foldlM_add_arranged {runs earlier joined : List (Run α × Nat)}
    (settled : ∀ entry ∈ runs, entry.1.Settled before loose)
    (settledEarlier : ∀ entry ∈ earlier, entry.1.Settled before loose)
    (given : runs.foldlM (add le sortLoose) earlier = some joined) :
    itemsInOrder joined ~ itemsInOrder earlier ++ runs.flatMap (fun entry => entry.1.items) ∧
      ∀ entry ∈ joined, entry.1.Settled before loose := by
  induction runs generalizing earlier with
  | nil =>
    cases given
    rw [flatMap_nil, append_nil]
    exact ⟨Perm.refl _, settledEarlier⟩
  | cons next runs ih =>
    rw [foldlM_cons] at given
    obtain ⟨added, givenAdded, given⟩ := Option.bind_eq_some_iff.mp given
    have one := add_arranged decides arrangesLoose (settled next mem_cons_self) settledEarlier givenAdded
    have others := ih (fun entry member => settled entry (mem_cons_of_mem _ member)) one.2 given
    rw [flatMap_cons, ← append_assoc]
    exact ⟨others.1.trans (one.1.append_right _), others.2⟩

end Joining

end Run

include decides

theorem sortRuns_arranged (loose : Prop) {eager : Bool} {sortLoose : List α → Option (List α)}
    (settled : eager = true ∨ loose)
    (arrangesLoose : loose → ∀ {items sorted}, sortLoose items = some sorted → Arranged before items sorted)
    {items sorted : List α} (given : sortRuns le eager sortLoose items = some sorted) :
    Arranged before items sorted := by
  have enough : eager = true ∧ items.length ≤ items.length ∨ loose :=
    settled.imp_left fun isEager => ⟨isEager, Nat.le_refl _⟩
  obtain ⟨runs, givenRuns, afterRuns⟩ := Option.bind_eq_some_iff.mp given
  obtain ⟨joined, givenJoined, afterJoined⟩ := Option.bind_eq_some_iff.mp afterRuns
  obtain ⟨⟨run, rest⟩, givenRun, givenSorted⟩ := Option.bind_eq_some_iff.mp afterJoined
  have cut := Run.ofList_arranged decides enough givenRuns
  have entries := Run.withDepths_map items.length 0 runs
  generalize Run.withDepths items.length 0 runs = deep at entries givenJoined
  subst entries
  have settledDeep : ∀ entry ∈ deep, entry.1.Settled before loose :=
    fun entry member => cut.2 entry.1 (mem_map_of_mem member)
  have settledNone : ∀ entry ∈ ([] : List (Run α × Nat)), entry.1.Settled before loose :=
    fun entry member => absurd member not_mem_nil
  have all := Run.foldlM_add_arranged decides arrangesLoose settledDeep settledNone givenJoined
  have nothing : Run.Settled before loose ⟨[], true⟩ := ⟨fun _ => Pairwise.nil, Or.inl rfl⟩
  have last := Run.joinBack_arranged decides arrangesLoose nothing all.2 givenRun
  have arranged := Run.sorted_arranged arrangesLoose last.2.1 givenSorted
  have whole := last.1
  rw [Run.joinBack_zero givenRun, append_nil] at whole
  refine arranged.of_perm ((whole.trans all.1).trans ?_)
  rw [← flatMap_map Prod.fst Run.items]
  exact cut.1

theorem Arranged.parted {first : α → Bool} {items front back : List α} {pivot : α}
    (arrangedFront : Arranged before (items.filter first) front)
    (arrangedBack : Arranged before (items.filter fun item => !first item) back)
    (below : ∀ x ∈ items, first x = true → before x pivot) (above : ∀ x ∈ items, first x = false → before pivot x) :
    Arranged before items (front ++ back) := by
  refine ⟨(arrangedFront.perm.append arrangedBack.perm).trans (filter_append_perm first items),
    pairwise_append.mpr ⟨arrangedFront.inOrder, arrangedBack.inOrder, ?_⟩⟩
  intro x inFront y inBack
  obtain ⟨inItems, isFirst⟩ := mem_filter.mp (arrangedFront.perm.mem_iff.mp inFront)
  obtain ⟨inItems', isLast⟩ := mem_filter.mp (arrangedBack.perm.mem_iff.mp inBack)
  rw [Bool.not_eq_true'] at isLast
  exact decides.trans x pivot y (below x inItems isFirst) (above y inItems' isLast)

theorem above_of_not_below {x pivot : α} (notBelow : le x pivot = false) : before pivot x :=
  decides.above x pivot (by rw [notBelow]; decide)

/-- Where nothing is below the pivot, or the lower pivot is not, the pivot comes before all items. -/
theorem before_of_lowest {lower : Option α} {pivot : α} {items : List α}
    (above : ∀ least ∈ lower, ∀ item ∈ items, before least item)
    (lowest : ((items.filter fun item => !le pivot item).isEmpty || lower.any fun lower => le pivot lower) = true) :
    ∀ item ∈ items, before pivot item := by
  intro item member
  rcases Bool.or_eq_true_iff.mp lowest with noneLess | isLower
  · have notLess := filter_eq_nil_iff.mp (isEmpty_iff.mp noneLess) item member
    rw [Bool.not_eq_true, Bool.not_eq_false'] at notLess
    exact decides.below pivot item notLess
  · cases lower with
    | none => cases isLower
    | some lower =>
      exact decides.trans pivot lower item (decides.below pivot lower isLower) (above lower rfl item member)

/-- Items that the pivot comes before, but that may stand before it, are in order as they stand. -/
theorem arranged_atPivot {pivot : α} {items : List α} (least : ∀ item ∈ items, before pivot item) :
    Arranged before (items.filter fun item => le item pivot) (items.filter fun item => le item pivot) := by
  apply Arranged.refl
  apply pairwise_of_forall_mem_list
  intro x inX y inY
  obtain ⟨-, atMost⟩ := mem_filter.mp inX
  exact decides.trans x pivot y (decides.below x pivot atMost) (least y (mem_filter.mp inY).1)

theorem sortParted_arranged {splits : Nat}
    (ih : ∀ lower items, (∀ least ∈ lower, ∀ item ∈ items, before least item) →
      ∀ sorted, sortAround le splits lower items = some sorted → Arranged before items sorted)
    {lower : Option α} {pivot : α} {items sorted : List α} (above : ∀ least ∈ lower, ∀ item ∈ items, before least item)
    (given : sortParted le splits lower pivot items = some sorted) : Arranged before items sorted := by
  rw [sortParted] at given
  split at given
  · rename_i lowest
    obtain ⟨behind, givenBehind, given⟩ := Option.bind_eq_some_iff.mp given
    cases given
    have arrangedBack := ih none _ (fun least none => by cases none) behind givenBehind
    exact Arranged.parted decides (arranged_atPivot decides (before_of_lowest decides above lowest)) arrangedBack
      (fun item _ => decides.below item pivot) (fun item _ => above_of_not_below decides)
  · obtain ⟨front, givenFront, given⟩ := Option.bind_eq_some_iff.mp given
    obtain ⟨behind, givenBehind, given⟩ := Option.bind_eq_some_iff.mp given
    cases given
    have arrangedFront := ih lower _ (fun least isLower item member => above least isLower item (mem_filter.mp member).1)
      front givenFront
    have arrangedBack : Arranged before (items.filter fun item => !!le pivot item) behind := by
      simp only [Bool.not_not]
      apply ih (some pivot) _ _ behind givenBehind
      intro least isPivot item member
      cases isPivot
      exact decides.below pivot item (mem_filter.mp member).2
    apply Arranged.parted decides arrangedFront arrangedBack
    · exact fun item _ isFirst => above_of_not_below decides ((Bool.not_eq_true' _).mp isFirst)
    · exact fun item _ isLast => decides.below pivot item ((Bool.not_eq_false' _).mp isLast)

theorem sortAround_arranged (splits : Nat) {lower : Option α} {items sorted : List α}
    (above : ∀ least ∈ lower, ∀ item ∈ items, before least item)
    (given : sortAround le splits lower items = some sorted) : Arranged before items sorted := by
  have all := sortAround_induction le
    (P := fun lower items result => (∀ least ∈ lower, ∀ item ∈ items, before least item) →
      ∀ sorted, result = some sorted → Arranged before items sorted)
    (fun lower items _ sorted given => sortShort_arranged decides given)
    (fun lower items _ sorted given => sortRuns_arranged decides False (Or.inl rfl) (fun no => no.elim) given)
    (fun splits ih lower pivot items above sorted given => sortParted_arranged decides ih above given)
  exact all splits lower items above sorted given

/-- The items are arranged by whatever the comparison implies, even where it is no order. -/
theorem stable_arranged {items sorted : List α} (given : stable le items = some sorted) :
    Arranged before items sorted := by
  rw [stable] at given
  split at given
  · cases given
    exact insertAll_arranged decides items Pairwise.nil
  · exact sortRuns_arranged decides True (Or.inr trivial)
      (fun _ _ _ => sortAround_arranged decides _ fun least none => by cases none) given

omit decides in
theorem stable_perm {items sorted : List α} (given : stable le items = some sorted) : sorted ~ items :=
  (stable_arranged (decides_anything le) given).perm

end EpcisDigest.Sort
