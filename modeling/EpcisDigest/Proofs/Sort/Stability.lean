import EpcisDigest.Proofs.Sort.Joining

namespace EpcisDigest.Sort

open List

variable {α : Type}

def tied (le : α → α → Bool) (a b : α) : Bool := le a b && le b a

theorem tied_iff {le : α → α → Bool} {a b : α} : tied le a b = true ↔ le a b = true ∧ le b a = true :=
  Bool.and_eq_true_iff

theorem tied_flip (le : α → α → Bool) (a : α) : tied (fun a b => le b a) a = tied le a :=
  funext fun b => Bool.and_comm (le b a) (le a b)

structure Linear (le : α → α → Bool) : Prop where
  total : ∀ a b, le a b = true ∨ le b a = true
  trans : ∀ a b c, le a b = true → le b c = true → le a c = true

def Ordered (le : α → α → Bool) (items : List α) : Prop := items.Pairwise fun a b => le a b = true

def Kept (le : α → α → Bool) (items others : List α) : Prop :=
  ∀ a, others.filter (tied le a) = items.filter (tied le a)

namespace Linear

variable {le : α → α → Bool} (linear : Linear le)

include linear

theorem refl (a : α) : le a a = true := (linear.total a a).elim id id

theorem le_of_not_le {a b : α} (greater : le a b ≠ true) : le b a = true := (linear.total a b).resolve_left greater

theorem flip : Linear fun a b => le b a where
  total a b := (linear.total a b).symm
  trans a b c ab bc := linear.trans c b a bc ab

theorem decides : Decides le fun a b => le a b = true where
  trans := linear.trans
  below _ _ less := less
  above _ _ greater := linear.le_of_not_le greater

theorem le_congr_right {a b x y : α} (tiedX : tied le a x = true) (tiedY : tied le a y = true) : le b x = le b y := by
  have chain : ∀ x y, tied le a x = true → tied le a y = true → le b x = true → le b y = true := by
    intro x y tiedX tiedY below
    exact linear.trans b a y (linear.trans b x a below (tied_iff.mp tiedX).2) (tied_iff.mp tiedY).1
  exact Bool.eq_iff_iff.mpr ⟨chain x y tiedX tiedY, chain y x tiedY tiedX⟩

theorem le_congr_left {a b x y : α} (tiedX : tied le a x = true) (tiedY : tied le a y = true) : le x b = le y b := by
  rw [← tied_flip] at tiedX tiedY
  exact le_congr_right linear.flip tiedX tiedY

end Linear

namespace Kept

variable {le : α → α → Bool} {items others more : List α}

theorem refl (items : List α) : Kept le items items := fun _ => rfl

theorem trans (lower : Kept le items others) (upper : Kept le others more) : Kept le items more :=
  fun a => (upper a).trans (lower a)

theorem append {items' others' : List α} (left : Kept le items others) (right : Kept le items' others') :
    Kept le (items ++ items') (others ++ others') := by
  intro a
  rw [filter_append, filter_append, left a, right a]

theorem reverse (kept : Kept (fun a b => le b a) items others) : Kept le items.reverse others.reverse := by
  intro a
  have same := kept a
  rw [tied_flip] at same
  rw [filter_reverse, filter_reverse, same]

end Kept

section Linear

variable {le : α → α → Bool} (linear : Linear le)

include linear

/-- Sorted lists with the same items are equal when tied items stand in the same order. -/
theorem eq_of_ordered {items others : List α} (perm : others ~ items) (kept : Kept le items others)
    (ordered : Ordered le items) (ordered' : Ordered le others) : others = items := by
  induction items generalizing others with
  | nil => exact perm.eq_nil
  | cons item items ih =>
    cases others with
    | nil => exact perm.symm.eq_nil.symm
    | cons other others =>
      have atMost : le item other = true := by
        rcases mem_cons.mp (perm.mem_iff.mp mem_cons_self) with rfl | later
        · exact linear.refl other
        · exact rel_of_pairwise_cons ordered later
      have atLeast : le other item = true := by
        rcases mem_cons.mp (perm.symm.mem_iff.mp mem_cons_self) with rfl | later
        · exact linear.refl item
        · exact rel_of_pairwise_cons ordered' later
      have isTied : tied le item other = true := tied_iff.mpr ⟨atMost, atLeast⟩
      have isOwn : tied le item item = true := tied_iff.mpr ⟨linear.refl item, linear.refl item⟩
      have first := kept item
      rw [filter_cons_of_pos isTied, filter_cons_of_pos isOwn] at first
      obtain ⟨same, _⟩ := cons.inj first
      subst same
      have rest : Kept le items others := by
        intro a
        have whole := kept a
        rw [filter_cons, filter_cons] at whole
        split at whole
        · exact (cons.inj whole).2
        · exact whole
      rw [ih ((perm_cons other).mp perm) rest (pairwise_cons.mp ordered).2 (pairwise_cons.mp ordered').2]

section Merging

theorem merge_kept {left : List α} (orderedLeft : Ordered le left) (right : List α) :
    Kept le (left ++ right) (left.merge right le) := by
  induction left generalizing right with
  | nil =>
    rw [nil_merge]
    exact Kept.refl right
  | cons a left ihLeft =>
    induction right with
    | nil =>
      rw [merge_right, append_nil]
      exact Kept.refl _
    | cons b right ihRight =>
      obtain ⟨first, rest⟩ := pairwise_cons.mp orderedLeft
      rw [cons_merge_cons]
      split
      · exact (Kept.refl [a]).append (ihLeft rest (b :: right))
      · rename_i greater
        intro c
        have others := ihRight c
        -- what is tied with the item from the right cannot stand on the left, whose items are all greater
        have apart : tied le c b = true → (a :: left).filter (tied le c) = [] := by
          intro tiedB
          apply filter_eq_nil_iff.mpr
          intro item member tiedItem
          have fromA : le a item = true := by
            rcases mem_cons.mp member with rfl | later
            · exact linear.refl item
            · exact first item later
          have below := linear.trans item c b (tied_iff.mp tiedItem).2 (tied_iff.mp tiedB).1
          exact greater (linear.trans a item b fromA below)
        rw [filter_append] at others ⊢
        rw [filter_cons, show (b :: right).filter (tied le c) = _ from filter_cons]
        split
        · rename_i tiedB
          rw [apart tiedB, nil_append, others, apart tiedB, nil_append]
        · exact others

variable {left right : List α} (orderedLeft : Ordered le left) (orderedRight : Ordered le right)

include orderedRight

theorem mergeFromLast_kept : Kept le (left ++ right) (mergeFromLast le left right) := by
  have merged := (merge_kept linear.flip (pairwise_reverse.mpr orderedRight) left.reverse).reverse
  rwa [reverse_append, reverse_reverse, reverse_reverse] at merged

include orderedLeft

theorem mergeEnds_kept : Kept le (left ++ right) (merge le left right) := by
  rw [merge]
  split
  · exact merge_kept linear orderedLeft right
  · exact mergeFromLast_kept linear orderedRight

theorem mergeFromLast_eq : mergeFromLast le left right = left.merge right le := by
  have front := merge_arranged linear.decides orderedLeft orderedRight
  have back := mergeFromLast_arranged linear.decides orderedLeft orderedRight
  have kept := merge_kept linear orderedLeft right
  have kept' := @mergeFromLast_kept _ _ linear left _ orderedRight
  exact eq_of_ordered linear (back.perm.trans front.perm.symm) (fun a => (kept' a).trans (kept a).symm) front.inOrder
    back.inOrder

/-- What is taken of one list is not greater than what is left of the other. -/
theorem takeMerged_cut (count : Nat) :
    ∃ a b, (takeMerged le count left right).2 = (left.drop a, right.drop b) ∧
      (takeMerged le count left right).1.length = a + b ∧ a ≤ left.length ∧ b ≤ right.length ∧
      (∀ x ∈ left.take a, ∀ y ∈ right.drop b, le x y = true) ∧ ∀ y ∈ right.take b, ∀ x ∈ left.drop a, le x y ≠ true := by
  have nothing : ∀ left right : List α, ∃ a b, (left, right) = (left.drop a, right.drop b) ∧ 0 = a + b ∧
      a ≤ left.length ∧ b ≤ right.length ∧ (∀ x ∈ left.take a, ∀ y ∈ right.drop b, le x y = true) ∧
      ∀ y ∈ right.take b, ∀ x ∈ left.drop a, le x y ≠ true :=
    fun left right => ⟨0, 0, rfl, rfl, Nat.zero_le _, Nat.zero_le _, fun x none => absurd none not_mem_nil,
      fun y none => absurd none not_mem_nil⟩
  induction count generalizing left right with
  | zero => exact nothing left right
  | succ count ih =>
    cases left with
    | nil => exact nothing [] right
    | cons x left =>
      cases right with
      | nil => exact nothing (x :: left) []
      | cons y right =>
        obtain ⟨firstX, restX⟩ := pairwise_cons.mp orderedLeft
        obtain ⟨firstY, restY⟩ := pairwise_cons.mp orderedRight
        rw [takeMerged]
        split
        · rename_i less
          obtain ⟨a, b, rest, length, inLeft, inRight, below, above⟩ := ih restX orderedRight
          refine ⟨a + 1, b, rest, ?_, Nat.succ_le_succ inLeft, inRight, ?_, above⟩
          · rw [length_cons, length]
            omega
          · rw [take_succ_cons]
            refine forall_mem_cons.mpr ⟨fun other member => ?_, below⟩
            rcases mem_cons.mp (mem_of_mem_drop member) with rfl | later
            · exact less
            · exact linear.trans x y other less (firstY other later)
        · rename_i greater
          obtain ⟨a, b, rest, length, inLeft, inRight, below, above⟩ := ih orderedLeft restY
          refine ⟨a, b + 1, rest, ?_, inLeft, Nat.succ_le_succ inRight, below, ?_⟩
          · rw [length_cons, length]
            omega
          · rw [take_succ_cons]
            refine forall_mem_cons.mpr ⟨fun other member isLess => ?_, above⟩
            rcases mem_cons.mp (mem_of_mem_drop member) with rfl | later
            · exact greater isLess
            · exact greater (linear.trans x other y (firstX other later) isLess)

omit linear orderedLeft orderedRight in
theorem exists_mem_between {items : List α} {i j : Nat} (apart : i < j) (within : j ≤ items.length) :
    ∃ item, item ∈ items.take j ∧ item ∈ items.drop i := by
  have inItems : i < items.length := Nat.lt_of_lt_of_le apart within
  refine ⟨items[i], mem_take_iff_getElem.mpr ⟨i, by omega, rfl⟩, ?_⟩
  rw [← getElem_cons_drop inItems]
  exact mem_cons_self

/-- From both ends the same items come first as in either merging, so that the two parts meet. -/
theorem exists_mergeHalves (notShorter : left.length ≤ right.length) :
    ∃ merged, mergeHalves le left right = some merged := by
  have frontLength := takeMerged_length le (Nat.le_refl left.length) notShorter
  have backLength : (takeMerged (fun a b => le b a) left.length right.reverse left.reverse).1.length = left.length :=
    takeMerged_length _ (by rwa [length_reverse]) (Nat.le_of_eq length_reverse.symm)
  obtain ⟨a, b, fronts, front, inLeft, inRight, below, above⟩ :=
    takeMerged_cut linear orderedLeft orderedRight left.length
  obtain ⟨c, d, backs, back, inRight', inLeft', above', below'⟩ :=
    takeMerged_cut linear.flip (pairwise_reverse.mpr orderedRight) (pairwise_reverse.mpr orderedLeft) left.length
  rw [frontLength] at front
  rw [backLength] at back
  rw [length_reverse] at inLeft' inRight'
  unfold mergeHalves
  rw [show takeMerged le left.length left right = (_, left.drop a, right.drop b) from Prod.ext rfl fronts,
    show takeMerged (fun a b => le b a) left.length right.reverse left.reverse =
      (_, right.reverse.drop c, left.reverse.drop d) from Prod.ext rfl backs]
  dsimp only
  rw [if_pos]
  · exact ⟨_, rfl⟩
  rw [length_drop, length_drop, length_drop, length_drop, length_reverse, length_reverse]
  suffices a + d ≤ left.length ∧ b + c ≤ right.length by omega
  simp only [take_reverse, drop_reverse, mem_reverse] at above' below'
  -- where the parts overlap on one side, they leave a gap on the other
  constructor
  · refine Nat.not_lt.mp fun overlap => ?_
    obtain ⟨x, inFront, inBack⟩ := exists_mem_between (show left.length - d < a by omega) inLeft
    obtain ⟨y, notFront, notBack⟩ := exists_mem_between (show b < right.length - c by omega) (Nat.sub_le _ _)
    exact below' x inBack y notFront (below x inFront y notBack)
  · refine Nat.not_lt.mp fun overlap => ?_
    obtain ⟨y, inFront, inBack⟩ := exists_mem_between (show right.length - c < b by omega) inRight
    obtain ⟨x, notFront, notBack⟩ := exists_mem_between (show a < left.length - d by omega) (Nat.sub_le _ _)
    exact above y inFront x notBack (above' y inBack x notFront)

omit linear orderedLeft orderedRight in
/-- A list whose front and back are known, with at most one item between them, is known. -/
theorem eq_of_ends {front between back rest early whole : List α} (atFront : front ++ rest = whole)
    (atBack : early ++ back = whole) (perm : front ++ between ++ back ~ whole) (few : between.length ≤ 1) :
    front ++ between ++ back = whole := by
  subst atFront
  have behind : between ++ back ~ rest := by
    rw [append_assoc] at perm
    exact (perm_append_left_iff front).mp perm
  have isBack : back <:+ rest := by
    have shorter : back.length ≤ rest.length := by
      rw [← behind.length_eq, length_append]
      exact Nat.le_add_left _ _
    exact suffix_of_suffix_length_le ⟨early, atBack⟩ ⟨front, rfl⟩ shorter
  obtain ⟨middle, rfl⟩ := isBack
  have inner : between ~ middle := (perm_append_right_iff back).mp behind
  have same : between = middle := by
    match between, few with
    | [], _ => exact inner.nil_eq
    | [item], _ => exact (perm_singleton.mp inner.symm).symm
  rw [same, append_assoc]

theorem mergeHalves_eq (notShorter : left.length ≤ right.length) (notLonger : right.length ≤ left.length + 1) :
    mergeHalves le left right = some (left.merge right le) := by
  obtain ⟨merged, given⟩ := exists_mergeHalves linear orderedLeft orderedRight notShorter
  obtain ⟨front, between, back, rest, early, rfl, few, perm, atFront, atBack⟩ :=
    mergeHalves_parts le given notShorter notLonger
  rw [mergeFromLast_eq linear orderedLeft orderedRight] at atBack
  rw [given, eq_of_ends atFront atBack (perm.trans (merge_perm_append le).symm) few]

end Merging

section Inserting

theorem insertFromLast_kept (item : α) (items : List α) :
    Kept (fun a b => le b a) (item :: items) (insertFromLast le item items) := by
  induction items with
  | nil => exact Kept.refl _
  | cons last earlier ih =>
    rw [insertFromLast]
    split
    · exact Kept.refl _
    · rename_i greater
      intro a
      have others := ih a
      rw [tied_flip] at others ⊢
      rw [filter_cons, others, filter_cons, filter_cons, filter_cons]
      split
      · rename_i tiedLast
        split
        · rename_i tiedItem
          exact absurd (linear.trans last a item (tied_iff.mp tiedLast).2 (tied_iff.mp tiedItem).1) greater
        · rfl
      · rfl

theorem insertAll_kept (sorted items : List α) : Kept le (sorted ++ items) (insertAll le sorted items) := by
  have placed : ∀ placed : List α, Kept (fun a b => le b a) (items.reverse ++ placed)
      (items.foldl (fun sorted item => insertFromLast le item sorted) placed) := by
    induction items with
    | nil => exact Kept.refl
    | cons item items ih =>
      intro placed
      have inserted := insertFromLast_kept linear item placed
      rw [reverse_cons, append_assoc, singleton_append]
      exact ((Kept.refl items.reverse).append inserted).trans (ih _)
  have kept := (placed sorted.reverse).reverse
  rwa [reverse_append, reverse_reverse, reverse_reverse] at kept

end Inserting

section Short

omit linear in
theorem sortTwo_eq (a b : α) : sortTwo le a b = [a].merge [b] le := by
  rw [sortTwo, cons_merge_cons, nil_merge, merge_right]

theorem exists_sortTwo (x y : α) :
    ∃ a b, (if le x y then (x, y) else (y, x)) = (a, b) ∧ sortTwo le x y = [a, b] ∧ le a b = true := by
  rw [sortTwo]
  split
  · rename_i less
    exact ⟨x, y, rfl, rfl, less⟩
  · rename_i greater
    exact ⟨y, x, rfl, rfl, linear.le_of_not_le greater⟩

theorem sortFour_eq (w x y z : α) : sortFour le w x y z = (sortTwo le w x).merge (sortTwo le y z) le := by
  obtain ⟨a, b, first, sorted, ab⟩ := exists_sortTwo linear w x
  obtain ⟨c, d, second, sorted', cd⟩ := exists_sortTwo linear y z
  rw [sortFour, first, second, sorted, sorted']
  dsimp only
  cases ac : le a c with
  | true =>
    cases bd : le b d with
    | true =>
      dsimp only
      rw [cons_merge_cons_pos le _ _ ac, sortTwo, cons_merge_cons]
      split
      · rw [nil_merge]
        rfl
      · rw [cons_merge_cons_pos le _ _ bd, nil_merge]
        rfl
    | false =>
      have bc : ¬ le b c = true := fun bc => by
        rw [linear.trans b c d bc cd] at bd
        cases bd
      dsimp only
      rw [cons_merge_cons_pos le _ _ ac, cons_merge_cons_neg le _ _ bc, cons_merge_cons, bd, merge_right, sortTwo, cd]
      rfl
  | false =>
    cases bd : le b d with
    | true =>
      have ad := linear.trans a b d ab bd
      dsimp only
      rw [cons_merge_cons, ac, if_neg Bool.false_ne_true, cons_merge_cons_pos le _ _ ad, cons_merge_cons_pos le _ _ bd,
        nil_merge, sortTwo, ab]
      rfl
    | false =>
      dsimp only
      rw [cons_merge_cons, ac, if_neg Bool.false_ne_true, cons_merge_cons, sortTwo]
      split
      · rw [cons_merge_cons, bd, merge_right]
        rfl
      · rw [merge_right]
        rfl

theorem sortFour_kept (w x y z : α) : Kept le [w, x, y, z] (sortFour le w x y z) := by
  have first := merge_kept linear (pairwise_singleton _ w) [x]
  have second := merge_kept linear (pairwise_singleton _ y) [z]
  have merged := merge_kept linear (sortTwo_arranged linear.decides w x).inOrder (sortTwo le y z)
  rw [← sortTwo_eq] at first second
  rw [sortFour_eq linear]
  exact (first.append second).trans merged

theorem sortHalf_kept (items : List α) : Kept le items (sortHalf le items) := by
  unfold sortHalf
  split
  · rename_i a b c d others
    exact ((sortFour_kept linear a b c d).append (Kept.refl others)).trans (insertAll_kept linear _ others)
  · exact insertAll_kept linear [] items

theorem sortShort_kept (items : List α) : ∃ sorted, sortShort le items = some sorted ∧ Kept le items sorted := by
  have halves : ∀ sort : List α → List α,
      (∀ items, Arranged (fun a b => le a b = true) items (sort items)) → (∀ items, Kept le items (sort items)) →
      ∃ sorted, mergeHalves le (sort (items.take (items.length / 2))) (sort (items.drop (items.length / 2))) =
        some sorted ∧ Kept le items sorted := by
    intro sort arranges keeps
    have front := arranges (items.take (items.length / 2))
    have back := arranges (items.drop (items.length / 2))
    have frontLength := front.perm.length_eq
    have backLength := back.perm.length_eq
    rw [length_take] at frontLength
    rw [length_drop] at backLength
    have merged := mergeHalves_eq linear front.inOrder back.inOrder (by omega) (by omega)
    have parts := (keeps (items.take (items.length / 2))).append (keeps (items.drop (items.length / 2)))
    rw [take_append_drop] at parts
    exact ⟨_, merged, parts.trans (merge_kept linear front.inOrder _)⟩
  unfold sortShort
  dsimp only
  split
  · exact ⟨items, rfl, Kept.refl _⟩
  · split
    · exact halves (insertAll le []) (fun items => insertAll_arranged linear.decides items Pairwise.nil)
        (insertAll_kept linear [])
    · exact halves (sortHalf le) (sortHalf_arranged linear.decides) (sortHalf_kept linear)

end Short

end Linear

end EpcisDigest.Sort
