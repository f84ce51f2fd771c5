import EpcisDigest.Sort.Stable

namespace EpcisDigest.Sort

open List

variable {α β : Type} {le : α → α → Bool} {le' : β → β → Bool} {f : β → α} (same : ∀ a b, le (f a) (f b) = le' a b)

include same

theorem map_insertFromLast (item : β) (items : List β) :
    (insertFromLast le' item items).map f = insertFromLast le (f item) (items.map f) := by
  induction items with
  | nil => rfl
  | cons last before ih =>
    rw [insertFromLast, map_cons, insertFromLast, same, apply_ite (List.map f), map_cons, map_cons, map_cons, ih]

theorem map_insertAll (sorted items : List β) :
    (insertAll le' sorted items).map f = insertAll le (sorted.map f) (items.map f) := by
  have placed : ∀ placed : List β,
      (items.foldl (fun sorted item => insertFromLast le' item sorted) placed).map f =
        (items.map f).foldl (fun sorted item => insertFromLast le item sorted) (placed.map f) := by
    induction items with
    | nil => exact fun _ => rfl
    | cons item items ih =>
      intro placed
      rw [foldl_cons, ih, map_insertFromLast same]
      rfl
  rw [insertAll, map_reverse, placed, map_reverse]
  rfl

theorem map_mergeFront (left right : List β) : (left.merge right le').map f = (left.map f).merge (right.map f) le :=
  map_merge fun a _ b _ => (same a b).symm

theorem map_mergeFromLast (left right : List β) :
    (mergeFromLast le' left right).map f = mergeFromLast le (left.map f) (right.map f) := by
  have backwards := @map_mergeFront _ _ (fun a b => le b a) (fun a b => le' b a) f fun a b => same b a
  rw [mergeFromLast, mergeFromLast, map_reverse, backwards, map_reverse, map_reverse]

theorem map_mergeEnds (left right : List β) : (merge le' left right).map f = merge le (left.map f) (right.map f) := by
  rw [merge, merge, length_map, length_map, apply_ite (List.map f), map_mergeFront same, map_mergeFromLast same]

theorem map_takeMerged (count : Nat) (left right : List β) :
    takeMerged le count (left.map f) (right.map f) =
      ((takeMerged le' count left right).1.map f, (takeMerged le' count left right).2.1.map f,
        (takeMerged le' count left right).2.2.map f) := by
  induction count generalizing left right with
  | zero => rfl
  | succ count ih =>
    cases left with
    | nil => rfl
    | cons a left =>
      cases right with
      | nil => rfl
      | cons b right =>
        have second := ih left (b :: right)
        have first := ih (a :: left) right
        rw [map_cons] at second first
        rw [map_cons, map_cons, takeMerged, takeMerged, same]
        cases le' a b with
        | true => simp only [ite_true, second, map_cons]
        | false => simp only [Bool.false_eq_true, ite_false, first, map_cons]

theorem map_mergeHalves (left right : List β) :
    (mergeHalves le' left right).map (List.map f) = mergeHalves le (left.map f) (right.map f) := by
  have front := map_takeMerged same left.length left right
  have back := @map_takeMerged _ _ (fun a b => le b a) (fun a b => le' b a) f (fun a b => same b a) left.length
    right.reverse left.reverse
  rw [map_reverse, map_reverse] at back
  simp only [mergeHalves, length_map, front, back]
  rw [apply_ite (Option.map (List.map f))]
  simp only [Option.map_some, Option.map_none, map_append, map_take, map_reverse]

theorem map_sortTwo (a b : β) : (sortTwo le' a b).map f = sortTwo le (f a) (f b) := by
  rw [sortTwo, sortTwo, same, apply_ite (List.map f)]
  rfl

omit same in
theorem exists_pair (x y : β) :
    ∃ a b, (if le' x y then (x, y) else (y, x)) = (a, b) ∧
      (if le' x y then (f x, f y) else (f y, f x)) = (f a, f b) := by
  split
  · exact ⟨x, y, rfl, rfl⟩
  · exact ⟨y, x, rfl, rfl⟩

theorem map_sortFour (w x y z : β) : (sortFour le' w x y z).map f = sortFour le (f w) (f x) (f y) (f z) := by
  obtain ⟨a, b, first, first'⟩ := @exists_pair _ _ le' f w x
  obtain ⟨c, d, second, second'⟩ := @exists_pair _ _ le' f y z
  simp only [sortFour, first, first', second, second', same]
  split <;> simp only [map_append, map_cons, map_nil, map_sortTwo same]

theorem map_sortHalf (items : List β) : (sortHalf le' items).map f = sortHalf le (items.map f) := by
  match items with
  | a :: b :: c :: d :: others =>
    rw [sortHalf, map_insertAll same, map_sortFour same]
    rfl
  | [] => exact map_insertAll same [] []
  | [a] => exact map_insertAll same [] [a]
  | [a, b] => exact map_insertAll same [] [a, b]
  | [a, b, c] => exact map_insertAll same [] [a, b, c]

theorem map_sortShort (items : List β) :
    (sortShort le' items).map (List.map f) = sortShort le (items.map f) := by
  simp only [sortShort, length_map, apply_ite (Option.map (List.map f)), Option.map_some, map_mergeHalves same,
    map_insertAll same, map_sortHalf same, map_take, map_drop, map_nil]

namespace Run

omit same in
variable (f) in
def map (run : Run β) : Run α := ⟨run.items.map f, run.isSorted⟩

theorem map_chain (last : β) (items : List β) :
    chain le (f last) (items.map f) = Prod.map (List.map f) (List.map f) (chain le' last items) := by
  induction items generalizing last with
  | nil => rfl
  | cons item items ih =>
    rw [map_cons, chain, chain, same, ih]
    cases le' last item <;> rfl

theorem map_natural (items : List β) :
    natural le (items.map f) = Prod.map (List.map f) (List.map f) (natural le' items) := by
  match items with
  | [] => rfl
  | [a] => rfl
  | a :: b :: items =>
    have turned := @map_chain _ _ (fun a b => !le a b) (fun a b => !le' a b) f (fun a b => congrArg not (same a b)) b
      items
    simp only [map_cons, natural, same, map_chain same, turned]
    cases le' a b with
    | true => rfl
    | false =>
      simp only [Bool.false_eq_true, ite_false, Prod.map_fst, Prod.map_snd, ← map_cons, ← map_reverse]
      rfl

theorem map_first (eager : Bool) (least : Nat) (items : List β) :
    first le eager least (items.map f) =
      (first le' eager least items).map (Prod.map (Run.map f) (List.map f)) := by
  simp only [first, map_natural same, Prod.map_fst, Prod.map_snd, length_map]
  split
  · rfl
  split
  · rw [← map_take, ← map_sortShort same]
    cases sortShort le' (items.take shortLimit) with
    | none => rfl
    | some sorted => simp only [Option.map_some, Option.bind_eq_bind, Option.bind_some, Prod.map, Run.map, map_drop]
  · simp only [Option.map_some, Prod.map, Run.map, map_take, map_drop]

theorem map_ofList (eager : Bool) (least count : Nat) (items : List β) :
    ofList le eager least count (items.map f) = (ofList le' eager least count items).map (List.map (Run.map f)) := by
  induction count generalizing items with
  | zero => cases items <;> rfl
  | succ count ih =>
    cases items with
    | nil => rfl
    | cons item items =>
      have cut := map_first same eager least (item :: items)
      rw [map_cons] at cut ⊢
      rw [ofList, ofList, cut]
      · cases first le' eager least (item :: items) with
        | none => rfl
        | some part =>
          have rest := ih part.2
          simp only [Option.map_some, Option.bind_eq_bind, Option.bind_some, Prod.map_fst, Prod.map_snd, rest]
          cases ofList le' eager least count part.2 <;> rfl
      · exact fun nothing => by cases nothing
      · exact fun nothing => by cases nothing

omit same in
theorem map_withDepths (size start : Nat) (runs : List (Run β)) :
    withDepths size start (runs.map (Run.map f)) = (withDepths size start runs).map (Prod.map (Run.map f) id) := by
  induction runs generalizing start with
  | nil => rfl
  | cons run runs ih =>
    cases runs with
    | nil => rfl
    | cons next runs =>
      have others := ih (start + run.items.length)
      rw [map_cons] at others
      simp only [map_cons, withDepths, Run.map, length_map] at others ⊢
      rw [others]
      rfl

section Joining

variable {sortLoose : List α → Option (List α)} {sortLoose' : List β → Option (List β)}
  (loose : ∀ items, (sortLoose' items).map (List.map f) = sortLoose (items.map f))

include loose

omit same in
theorem map_sorted (run : Run β) :
    (run.map f).sorted sortLoose = (run.sorted sortLoose').map (List.map f) := by
  rw [sorted, sorted, apply_ite (Option.map (List.map f)), loose]
  rfl

theorem map_join (left right : Run β) :
    (left.map f).join le sortLoose (right.map f) = (left.join le' sortLoose' right).map (Run.map f) := by
  rw [join, join, map_sorted loose, map_sorted loose, apply_ite (Option.map (Run.map f))]
  congr 1
  · cases left.sorted sortLoose' with
    | none => rfl
    | some front =>
      cases right.sorted sortLoose' with
      | none => rfl
      | some back => simp only [Option.map_some, Option.bind_eq_bind, Option.bind_some, Run.map, map_mergeEnds same]
  · simp only [Option.map_some, Run.map, map_append]

theorem map_joinBack (depth : Nat) (run : Run β) (before : List (Run β × Nat)) :
    joinBack le sortLoose depth (run.map f) (before.map (Prod.map (Run.map f) id)) =
      (joinBack le' sortLoose' depth run before).map
        (Prod.map (Run.map f) (List.map (Prod.map (Run.map f) id))) := by
  induction before generalizing run with
  | nil => rfl
  | cons entry before ih =>
    obtain ⟨left, border⟩ := entry
    simp only [map_cons, Prod.map, id, joinBack] at ih ⊢
    split
    · rw [map_join same loose]
      cases left.join le' sortLoose' run with
      | none => rfl
      | some joined => exact ih joined
    · rfl

theorem map_add (before : List (Run β × Nat)) (next : Run β × Nat) :
    add le sortLoose (before.map (Prod.map (Run.map f) id)) (Prod.map (Run.map f) id next) =
      (add le' sortLoose' before next).map (List.map (Prod.map (Run.map f) id)) := by
  rw [add, add, Prod.map_fst, Prod.map_snd, id, map_joinBack same loose]
  cases joinBack le' sortLoose' next.2 next.1 before <;> rfl

theorem map_foldlM_add (runs before : List (Run β × Nat)) :
    (runs.map (Prod.map (Run.map f) id)).foldlM (add le sortLoose) (before.map (Prod.map (Run.map f) id)) =
      (runs.foldlM (add le' sortLoose') before).map (List.map (Prod.map (Run.map f) id)) := by
  induction runs generalizing before with
  | nil => rfl
  | cons next runs ih =>
    rw [map_cons, foldlM_cons, foldlM_cons, map_add same loose]
    cases add le' sortLoose' before next with
    | none => rfl
    | some before => exact ih before

end Joining

end Run

open Run in
theorem map_sortRuns (eager : Bool) {sortLoose : List α → Option (List α)} {sortLoose' : List β → Option (List β)}
    (loose : ∀ items, (sortLoose' items).map (List.map f) = sortLoose (items.map f)) (items : List β) :
    (sortRuns le' eager sortLoose' items).map (List.map f) = sortRuns le eager sortLoose (items.map f) := by
  have empty : (⟨[], true⟩ : Run α) = Run.map f ⟨[], true⟩ := rfl
  rw [sortRuns, sortRuns, length_map, map_ofList same]
  cases ofList le' eager (leastLength items.length) items.length items with
  | none => rfl
  | some runs =>
    have joined := map_foldlM_add same loose (withDepths items.length 0 runs) []
    rw [← map_withDepths, map_nil] at joined
    simp only [Option.map_some, Option.bind_eq_bind, Option.bind_some, joined]
    cases (withDepths items.length 0 runs).foldlM (add le' sortLoose') [] with
    | none => rfl
    | some before =>
      have last := map_joinBack same loose 0 ⟨[], true⟩ before
      simp only [Option.map_some, Option.bind_some, empty, last]
      cases joinBack le' sortLoose' 0 ⟨[], true⟩ before with
      | none => rfl
      | some part => exact (map_sorted loose part.1).symm

theorem map_middle (a b c : β) : f (middle le' a b c) = middle le (f a) (f b) (f c) := by
  simp only [middle, same, apply_ite f]

theorem map_sampled (item : Nat → β) (part start : Nat) :
    f (sampled le' item part start) = sampled le (fun place => f (item place)) part start := by
  induction part using Nat.strongRecOn generalizing start with
  | _ part ih =>
    have sample : ∀ place, f (if 8 ≤ part then sampled le' item (part / 8) place else item place) =
        if 8 ≤ part then sampled le (fun place => f (item place)) (part / 8) place else f (item place) := by
      intro place
      split
      · exact ih (part / 8) (by omega) place
      · rfl
    rw [sampled, sampled]
    simp only [map_middle same, sample]

theorem map_pivot (head : β) (tail : List β) : f (pivot le' head tail) = pivot le (f head) (tail.map f) := by
  simp only [pivot, map_sampled same]
  have item : ∀ place, f ((head :: tail).toArray.getD place head) = (f head :: tail.map f).toArray.getD place (f head) := by
    intro place
    rw [← map_cons]
    simp only [Array.getD_eq_getD_getElem?, List.getElem?_toArray, getElem?_map]
    cases (head :: tail)[place]? <;> rfl
  simp only [item, List.size_toArray, length_cons, length_map]

theorem map_sortParted {splits : Nat}
    (ih : ∀ lower items,
      (sortAround le' splits lower items).map (List.map f) = sortAround le splits (lower.map f) (items.map f))
    (lower : Option β) (pivot : β) (items : List β) :
    (sortParted le' splits lower pivot items).map (List.map f) =
      sortParted le splits (lower.map f) (f pivot) (items.map f) := by
  have none : (none : Option α) = Option.map f none := rfl
  have some : some (f pivot) = Option.map f (some pivot) := rfl
  rw [sortParted, sortParted]
  simp only [filter_map, Function.comp_def, same, isEmpty_map, Option.any_map]
  rw [none, some, ← ih, ← ih, ← ih, apply_ite (Option.map (List.map f))]
  congr 1
  · cases sortAround le' splits Option.none _ with
    | none => rfl
    | some behind => simp only [Option.map_some, Option.bind_eq_bind, Option.bind_some, map_append]
  · cases sortAround le' splits lower _ with
    | none => rfl
    | some front =>
      cases sortAround le' splits (Option.some pivot) _ with
      | none => rfl
      | some behind => simp only [Option.map_some, Option.bind_eq_bind, Option.bind_some, map_append]

theorem map_sortAround (splits : Nat) (lower : Option β) (items : List β) :
    (sortAround le' splits lower items).map (List.map f) = sortAround le splits (lower.map f) (items.map f) := by
  induction splits generalizing lower items with
  | zero =>
    by_cases short : items.length ≤ shortLimit
    · rw [sortAround_short 0 short, sortAround_short 0 (length_map f ▸ short)]
      exact map_sortShort same items
    · rw [sortAround_zero short, sortAround_zero (length_map f ▸ short)]
      exact map_sortRuns same true (fun _ => rfl) items
  | succ splits ih =>
    by_cases short : items.length ≤ shortLimit
    · rw [sortAround_short _ short, sortAround_short _ (length_map f ▸ short)]
      exact map_sortShort same items
    · cases items with
      | nil => exact absurd (Nat.zero_le _) short
      | cons head tail =>
        have long : ¬ (f head :: tail.map f).length ≤ shortLimit := by
          rw [← map_cons, length_map]
          exact short
        rw [map_cons, sortAround_succ splits short, sortAround_succ splits long, ← map_pivot same, ← map_cons]
        exact map_sortParted same ih lower _ _

/-- Items are known to the sorting only by how they compare: those that compare alike are arranged alike. -/
theorem map_stable (items : List β) : (stable le' items).map (List.map f) = stable le (items.map f) := by
  rw [stable, stable, length_map, apply_ite (Option.map (List.map f)), Option.map_some, map_insertAll same,
    map_sortRuns same _ fun loose => ?_]
  · rfl
  · rw [length_map]
    exact map_sortAround same _ none loose

end EpcisDigest.Sort
