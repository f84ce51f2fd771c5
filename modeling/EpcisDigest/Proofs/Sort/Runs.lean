import EpcisDigest.Proofs.Sort.Mapped
import EpcisDigest.Proofs.Sort.Stability

namespace EpcisDigest.Sort

open List

variable {α : Type} {le : α → α → Bool} (linear : Linear le)

include linear

namespace Run

/-- Items of which each is less than the one before it are all untied, so that turning them around keeps them. -/
theorem kept_reverse {items : List α} (descending : items.Pairwise fun a b => le a b ≠ true) :
    Kept le items items.reverse := by
  intro a
  rw [filter_reverse]
  induction items with
  | nil => rfl
  | cons item items ih =>
    obtain ⟨first, rest⟩ := pairwise_cons.mp descending
    rw [filter_cons]
    split
    · rename_i isTied
      have alone : items.filter (tied le a) = [] := by
        apply filter_eq_nil_iff.mpr
        intro other member isTied'
        exact first other member (linear.trans item a other (tied_iff.mp isTied).2 (tied_iff.mp isTied').1)
      rw [alone]
      rfl
    · exact ih rest

theorem natural_kept (items : List α) : Kept le items ((natural le items).1 ++ (natural le items).2) := by
  unfold natural
  split
  · rename_i a b items
    split
    · rw [cons_append, cons_append, chain_append]
      exact Kept.refl _
    · rename_i greater
      have chains : ∀ a b c, le a b ≠ true → le b c ≠ true → le a c ≠ true :=
        fun a b c ab bc ac => ab (linear.trans a c b ac (linear.le_of_not_le bc))
      have implied : ∀ a b, (!le a b) = true → le a b ≠ true := by
        intro a b notLess less
        rw [less] at notLess
        cases notLess
      have isNext : (!le a b) = true := by
        rw [Bool.not_eq_true', Bool.eq_false_iff]
        exact greater
      have descending := chain_pairwise chains implied a (b :: items)
      have whole := chain_append (fun a b => !le a b) a (b :: items)
      rw [chain, if_pos isNext] at descending whole
      have turned := (kept_reverse linear descending).append (Kept.refl (chain (fun a b => !le a b) b items).2)
      rw [cons_append, whole] at turned
      exact turned
  · rw [append_nil]
    exact Kept.refl _

theorem first_kept (eager : Bool) (least : Nat) (items : List α) :
    ∃ run rest, first le eager least items = some (run, rest) ∧ Kept le items (run.items ++ rest) := by
  unfold first
  dsimp only
  split
  · exact ⟨_, _, rfl, natural_kept linear items⟩
  · split
    · obtain ⟨sorted, given, kept⟩ := sortShort_kept linear (items.take shortLimit)
      rw [given]
      refine ⟨_, _, rfl, ?_⟩
      have whole := kept.append (Kept.refl (items.drop shortLimit))
      rwa [take_append_drop] at whole
    · refine ⟨_, _, rfl, ?_⟩
      rw [take_append_drop]
      exact Kept.refl _

theorem ofList_kept (eager : Bool) (least count : Nat) (items : List α) :
    ∃ runs, ofList le eager least count items = some runs ∧ Kept le items (runs.flatMap Run.items) := by
  induction count generalizing items with
  | zero =>
    cases items with
    | nil => exact ⟨[], rfl, Kept.refl _⟩
    | cons item items =>
      refine ⟨[⟨item :: items, false⟩], rfl, ?_⟩
      rw [flatMap_cons, flatMap_nil, append_nil]
      exact Kept.refl _
  | succ count ih =>
    cases items with
    | nil => exact ⟨[], rfl, Kept.refl _⟩
    | cons item items =>
      obtain ⟨run, rest, givenRun, kept⟩ := first_kept linear eager least (item :: items)
      obtain ⟨runs, givenRuns, keptRest⟩ := ih rest
      refine ⟨run :: runs, ?_, ?_⟩
      · rw [ofList, givenRun]
        · exact Option.bind_eq_some_iff.mpr ⟨(run, rest), rfl, Option.bind_eq_some_iff.mpr ⟨runs, givenRuns, rfl⟩⟩
        · exact fun nothing => by cases nothing
      · rw [flatMap_cons]
        exact kept.trans ((Kept.refl _).append keptRest)

section Joining

variable {loose : Prop} {sortLoose : List α → Option (List α)}
  (arrangesLoose : loose → ∀ {items sorted}, sortLoose items = some sorted →
    Arranged (fun a b => le a b = true) items sorted)
  (keepsLoose : loose → ∀ items, ∃ sorted, sortLoose items = some sorted ∧ Kept le items sorted)

include keepsLoose

omit linear in
theorem sorted_kept {run : Run α} (settled : run.Settled (fun a b => le a b = true) loose) :
    ∃ sorted, run.sorted sortLoose = some sorted ∧ Kept le run.items sorted := by
  rw [Run.sorted]
  split
  · exact ⟨_, rfl, Kept.refl _⟩
  · rename_i notSorted
    exact keepsLoose (settled.settled.resolve_left notSorted) _

include arrangesLoose

theorem join_kept {left right : Run α} (settledLeft : left.Settled (fun a b => le a b = true) loose)
    (settledRight : right.Settled (fun a b => le a b = true) loose) :
    ∃ joined, join le sortLoose left right = some joined ∧ Kept le (left.items ++ right.items) joined.items := by
  rw [join]
  split
  · obtain ⟨front, givenFront, keptFront⟩ := sorted_kept keepsLoose settledLeft
    obtain ⟨back, givenBack, keptBack⟩ := sorted_kept keepsLoose settledRight
    have frontArranged := sorted_arranged arrangesLoose settledLeft givenFront
    have backArranged := sorted_arranged arrangesLoose settledRight givenBack
    rw [givenFront, givenBack]
    exact ⟨_, rfl, (keptFront.append keptBack).trans
      (mergeEnds_kept linear frontArranged.inOrder backArranged.inOrder)⟩
  · exact ⟨_, rfl, Kept.refl _⟩

theorem joinBack_kept (depth : Nat) {run : Run α} {earlier : List (Run α × Nat)}
    (settled : run.Settled (fun a b => le a b = true) loose)
    (settledEarlier : ∀ entry ∈ earlier, entry.1.Settled (fun a b => le a b = true) loose) :
    ∃ joined rest, joinBack le sortLoose depth run earlier = some (joined, rest) ∧
      Kept le (itemsInOrder earlier ++ run.items) (itemsInOrder rest ++ joined.items) := by
  induction earlier generalizing run with
  | nil => exact ⟨_, _, rfl, Kept.refl _⟩
  | cons entry earlier ih =>
    obtain ⟨left, border⟩ := entry
    rw [joinBack]
    split
    · have settledLeft := settledEarlier _ mem_cons_self
      obtain ⟨middle, givenMiddle, kept⟩ := join_kept linear arrangesLoose keepsLoose settledLeft settled
      have one := join_arranged linear.decides arrangesLoose settledLeft settled givenMiddle
      obtain ⟨joined, rest, given, keptRest⟩ := ih one.2 fun entry member => settledEarlier entry (mem_cons_of_mem _ member)
      refine ⟨joined, rest, ?_, ?_⟩
      · rw [givenMiddle]
        exact given
      · rw [itemsInOrder_cons, append_assoc]
        exact ((Kept.refl _).append kept).trans keptRest
    · exact ⟨_, _, rfl, Kept.refl _⟩

theorem foldlM_add_kept {runs earlier : List (Run α × Nat)}
    (settled : ∀ entry ∈ runs, entry.1.Settled (fun a b => le a b = true) loose)
    (settledEarlier : ∀ entry ∈ earlier, entry.1.Settled (fun a b => le a b = true) loose) :
    ∃ joined, runs.foldlM (add le sortLoose) earlier = some joined ∧
      Kept le (itemsInOrder earlier ++ runs.flatMap fun entry => entry.1.items) (itemsInOrder joined) := by
  induction runs generalizing earlier with
  | nil =>
    refine ⟨earlier, rfl, ?_⟩
    rw [flatMap_nil, append_nil]
    exact Kept.refl _
  | cons next runs ih =>
    have settledNext := settled next mem_cons_self
    obtain ⟨run, rest, given, kept⟩ := joinBack_kept linear arrangesLoose keepsLoose next.2 settledNext settledEarlier
    have added : add le sortLoose earlier next = some ((run, next.2) :: rest) := by
      rw [add, given]
      rfl
    have one := add_arranged linear.decides arrangesLoose settledNext settledEarlier added
    obtain ⟨joined, givenJoined, keptJoined⟩ := ih (fun entry member => settled entry (mem_cons_of_mem _ member)) one.2
    refine ⟨joined, ?_, ?_⟩
    · rw [foldlM_cons, added]
      exact givenJoined
    · rw [itemsInOrder_cons] at keptJoined
      rw [flatMap_cons, ← append_assoc]
      exact (kept.append (Kept.refl _)).trans keptJoined

end Joining

end Run

theorem sortRuns_kept (loose : Prop) {eager : Bool} {sortLoose : List α → Option (List α)}
    (settled : eager = true ∨ loose)
    (arrangesLoose : loose → ∀ {items sorted}, sortLoose items = some sorted →
      Arranged (fun a b => le a b = true) items sorted)
    (keepsLoose : loose → ∀ items, ∃ sorted, sortLoose items = some sorted ∧ Kept le items sorted) (items : List α) :
    ∃ sorted, sortRuns le eager sortLoose items = some sorted ∧ Kept le items sorted := by
  have enough : eager = true ∧ items.length ≤ items.length ∨ loose :=
    settled.imp_left fun isEager => ⟨isEager, Nat.le_refl _⟩
  obtain ⟨runs, givenRuns, keptRuns⟩ := Run.ofList_kept linear eager (Run.leastLength items.length) items.length items
  have cut := Run.ofList_arranged linear.decides enough givenRuns
  rw [sortRuns, givenRuns, Option.bind_eq_bind, Option.bind_some]
  have entries := Run.withDepths_map items.length 0 runs
  generalize Run.withDepths items.length 0 runs = deep at entries
  subst entries
  have settledDeep : ∀ entry ∈ deep, entry.1.Settled (fun a b => le a b = true) loose :=
    fun entry member => cut.2 entry.1 (mem_map_of_mem member)
  have settledNone : ∀ entry ∈ ([] : List (Run α × Nat)), entry.1.Settled (fun a b => le a b = true) loose :=
    fun entry member => absurd member not_mem_nil
  have nothing : Run.Settled (fun a b => le a b = true) loose ⟨[], true⟩ := ⟨fun _ => Pairwise.nil, Or.inl rfl⟩
  obtain ⟨joined, givenJoined, keptJoined⟩ :=
    Run.foldlM_add_kept linear arrangesLoose keepsLoose settledDeep settledNone
  have all := Run.foldlM_add_arranged linear.decides arrangesLoose settledDeep settledNone givenJoined
  obtain ⟨run, rest, givenRun, keptRun⟩ := Run.joinBack_kept linear arrangesLoose keepsLoose 0 nothing all.2
  have last := Run.joinBack_arranged linear.decides arrangesLoose nothing all.2 givenRun
  obtain ⟨sorted, given, kept⟩ := Run.sorted_kept keepsLoose last.2.1
  refine ⟨sorted, ?_, ?_⟩
  · rw [givenJoined, Option.bind_eq_bind, Option.bind_some, givenRun]
    exact given
  · rw [Run.joinBack_zero givenRun] at keptRun
    rw [flatMap_map] at keptRuns
    rw [append_nil] at keptRun
    exact ((keptRuns.trans keptJoined).trans keptRun).trans kept

section Pivots

omit linear in
theorem kept_parted {first : α → Bool} (items : List α)
    (together : ∀ a x y, tied le a x = true → tied le a y = true → first x = first y) :
    Kept le items (items.filter first ++ items.filter fun item => !first item) := by
  intro a
  induction items with
  | nil => rfl
  | cons item items ih =>
    rw [filter_append] at ih ⊢
    cases isFirst : first item with
    | true =>
      have notBack : (!first item) ≠ true := by
        rw [isFirst]
        decide
      rw [filter_cons_of_pos isFirst, filter_cons_of_neg (p := fun item => !first item) notBack, filter_cons, filter_cons]
      split
      · rw [cons_append, ih]
      · exact ih
    | false =>
      have notFront : first item ≠ true := by
        rw [isFirst]
        decide
      have isBack : (!first item) = true := by
        rw [isFirst]
        rfl
      rw [filter_cons_of_neg notFront, filter_cons_of_pos (p := fun item => !first item) isBack, filter_cons, filter_cons]
      split
      · rename_i isTied
        have alone : (items.filter first).filter (tied le a) = [] := by
          apply filter_eq_nil_iff.mpr
          intro other member isTied'
          have same := together a item other isTied isTied'
          rw [isFirst, (mem_filter.mp member).2] at same
          cases same
        rw [alone, nil_append] at ih ⊢
        rw [ih]
      · exact ih

theorem sortParted_kept {splits : Nat}
    (ih : ∀ lower items, ∃ sorted, sortAround le splits lower items = some sorted ∧ Kept le items sorted)
    (lower : Option α) (pivot : α) (items : List α) :
    ∃ sorted, sortParted le splits lower pivot items = some sorted ∧ Kept le items sorted := by
  rw [sortParted]
  split
  · obtain ⟨behind, given, kept⟩ := ih none (items.filter fun item => !le item pivot)
    have parted := kept_parted items fun a x y => linear.le_congr_left (b := pivot)
    refine ⟨_, ?_, parted.trans ((Kept.refl _).append kept)⟩
    rw [given]
    rfl
  · obtain ⟨front, givenFront, keptFront⟩ := ih lower (items.filter fun item => !le pivot item)
    obtain ⟨behind, givenBehind, keptBehind⟩ := ih (some pivot) (items.filter fun item => le pivot item)
    have together : ∀ a x y, tied le a x = true → tied le a y = true → (!le pivot x) = !le pivot y :=
      fun a x y tiedX tiedY => congrArg Bool.not (linear.le_congr_right tiedX tiedY)
    have parted := kept_parted items together
    simp only [Bool.not_not] at parted
    refine ⟨front ++ behind, ?_, parted.trans (keptFront.append keptBehind)⟩
    rw [givenFront, givenBehind]
    rfl

theorem sortAround_kept (splits : Nat) (lower : Option α) (items : List α) :
    ∃ sorted, sortAround le splits lower items = some sorted ∧ Kept le items sorted :=
  sortAround_induction le (P := fun _ items result => ∃ sorted, result = some sorted ∧ Kept le items sorted)
    (fun _ items => sortShort_kept linear items)
    (fun _ items => sortRuns_kept linear False (Or.inl rfl) (fun no => no.elim) (fun no => no.elim) items)
    (fun _ ih => sortParted_kept linear ih) splits lower items

theorem stable_kept (items : List α) : ∃ sorted, stable le items = some sorted ∧ Kept le items sorted := by
  rw [stable]
  split
  · exact ⟨_, rfl, insertAll_kept linear [] items⟩
  · exact sortRuns_kept linear True (Or.inr trivial)
      (fun _ _ _ => sortAround_arranged linear.decides _ fun least none => by cases none)
      (fun _ loose => sortAround_kept linear _ none loose) items

end Pivots

omit linear

def LinearOn (le : α → α → Bool) (items : List α) : Prop :=
  Linear fun a b : {item // item ∈ items} => le a.val b.val

theorem exists_stable {items : List α} (linear : LinearOn le items) : ∃ sorted, stable le items = some sorted := by
  have order : Linear fun a b : {item // item ∈ items} => le a.val b.val := linear
  obtain ⟨sorted, given, _⟩ := stable_kept order items.attach
  have mapped := map_stable (fun a b : {item // item ∈ items} => (rfl : le a.val b.val = le a.val b.val)) items.attach
  rw [given, attach_map_subtype_val] at mapped
  exact ⟨_, mapped.symm⟩

/-- Rearranging items does not show in the sorted list when those that are tied stay in the same order. -/
theorem stable_eq_of_perm {items others : List α} (linear : LinearOn le items) (perm : others ~ items)
    (classes : ∀ a ∈ items, others.filter (tied le a) = items.filter (tied le a)) :
    stable le others = stable le items := by
  have order : Linear fun a b : {item // item ∈ items} => le a.val b.val := linear
  have within : ∀ item ∈ others, item ∈ items := fun item => perm.mem_iff.mp
  obtain ⟨sorted, given, kept⟩ := stable_kept order items.attach
  obtain ⟨sorted', given', kept'⟩ := stable_kept order (others.attachWith (· ∈ items) within)
  have arranged := stable_arranged order.decides given
  have arranged' := stable_arranged order.decides given'
  have samePerm : others.attachWith (· ∈ items) within ~ items.attach := perm.pmap Subtype.mk
  have sameClasses : Kept (fun a b : {item // item ∈ items} => le a.val b.val) items.attach
      (others.attachWith (· ∈ items) within) := by
    intro a
    apply (map_inj_right fun x y => Subtype.ext).mp
    have fromItems := filter_map (p := tied le a.val) (f := Subtype.val) (l := items.attach)
    have fromOthers := filter_map (p := tied le a.val) (f := Subtype.val) (l := others.attachWith (· ∈ items) within)
    rw [attach_map_subtype_val] at fromItems
    rw [attachWith_map_subtype_val] at fromOthers
    exact (fromOthers.symm.trans (classes a.val a.property)).trans fromItems
  have same : sorted' = sorted := by
    apply eq_of_ordered order ((arranged'.perm.trans samePerm).trans arranged.perm.symm) _ arranged.inOrder
      arranged'.inOrder
    exact fun a => ((kept' a).trans (sameClasses a)).trans (kept a).symm
  have mapped := map_stable (fun a b : {item // item ∈ items} => (rfl : le a.val b.val = le a.val b.val)) items.attach
  have mapped' := map_stable (fun a b : {item // item ∈ items} => (rfl : le a.val b.val = le a.val b.val))
    (others.attachWith (· ∈ items) within)
  rw [given, attach_map_subtype_val] at mapped
  rw [given', attachWith_map_subtype_val, same] at mapped'
  exact mapped'.symm.trans mapped

end EpcisDigest.Sort
