import EpcisDigest.Sort.Stable

namespace EpcisDigest.Sort

open List

variable {α : Type}

/-- A comparison, which need not be an order, that implies a transitive relation one way or the other. -/
structure Decides (le : α → α → Bool) (before : α → α → Prop) : Prop where
  trans : ∀ a b c, before a b → before b c → before a c
  below : ∀ a b, le a b = true → before a b
  above : ∀ a b, le a b ≠ true → before b a

structure Arranged (before : α → α → Prop) (items sorted : List α) : Prop where
  perm : sorted ~ items
  inOrder : sorted.Pairwise before

namespace Arranged

variable {before : α → α → Prop} {items sorted : List α}

theorem refl (inOrder : items.Pairwise before) : Arranged before items items := ⟨Perm.refl _, inOrder⟩

theorem of_perm {others : List α} (arranged : Arranged before items sorted) (perm : items ~ others) :
    Arranged before others sorted :=
  ⟨arranged.perm.trans perm, arranged.inOrder⟩

theorem reverse (arranged : Arranged (fun a b => before b a) items sorted) :
    Arranged before items.reverse sorted.reverse :=
  ⟨(reverse_perm _).trans (arranged.perm.trans (reverse_perm _).symm), pairwise_reverse.mpr arranged.inOrder⟩

end Arranged

theorem Decides.flip {le : α → α → Bool} {before : α → α → Prop} (decides : Decides le before) :
    Decides (fun a b => le b a) fun a b => before b a where
  trans a b c ba cb := decides.trans c b a cb ba
  below a b less := decides.below b a less
  above a b greater := decides.above b a greater

theorem decides_anything (le : α → α → Bool) : Decides le fun _ _ => True where
  trans _ _ _ _ _ := trivial
  below _ _ _ := trivial
  above _ _ _ := trivial

section Fronts

variable (le : α → α → Bool)

theorem takeMerged_spec (count : Nat) (left right : List α) :
    ∃ a b, a ≤ left.length ∧ b ≤ right.length ∧
      (takeMerged le count left right).1 ~ left.take a ++ right.take b ∧
      (takeMerged le count left right).2 = (left.drop a, right.drop b) := by
  have nothing : ∃ a b, a ≤ left.length ∧ b ≤ right.length ∧
      [] ~ left.take a ++ right.take b ∧ (left, right) = (left.drop a, right.drop b) :=
    ⟨0, 0, Nat.zero_le _, Nat.zero_le _, Perm.refl _, rfl⟩
  induction count generalizing left right with
  | zero => exact nothing
  | succ count ih =>
    cases left with
    | nil => exact nothing
    | cons x left =>
      cases right with
      | nil => exact nothing
      | cons y right =>
        rw [takeMerged]
        split
        · obtain ⟨a, b, inLeft, inRight, taken, rest⟩ := ih left (y :: right)
            ⟨0, 0, Nat.zero_le _, Nat.zero_le _, Perm.refl _, rfl⟩
          exact ⟨a + 1, b, Nat.succ_le_succ inLeft, inRight, taken.cons x, rest⟩
        · obtain ⟨a, b, inLeft, inRight, taken, rest⟩ := ih (x :: left) right
            ⟨0, 0, Nat.zero_le _, Nat.zero_le _, Perm.refl _, rfl⟩
          refine ⟨a, b + 1, inLeft, Nat.succ_le_succ inRight, ?_, rest⟩
          exact (taken.cons y).trans perm_middle.symm

/-- What is taken comes first in the merged lists. -/
theorem takeMerged_append (count : Nat) (left right : List α) :
    (takeMerged le count left right).1 ++
      (takeMerged le count left right).2.1.merge (takeMerged le count left right).2.2 le = left.merge right le := by
  induction count generalizing left right with
  | zero => rfl
  | succ count ih =>
    cases left with
    | nil => rfl
    | cons a left =>
      cases right with
      | nil => rfl
      | cons b right =>
        rw [takeMerged, cons_merge_cons]
        split
        · exact congrArg (a :: ·) (ih left (b :: right))
        · exact congrArg (b :: ·) (ih (a :: left) right)

theorem takeMerged_length {count : Nat} {left right : List α} (inLeft : count ≤ left.length)
    (inRight : count ≤ right.length) : (takeMerged le count left right).1.length = count := by
  induction count generalizing left right with
  | zero => rfl
  | succ count ih =>
    cases left with
    | nil => exact absurd inLeft (Nat.not_succ_le_zero count)
    | cons a left =>
      cases right with
      | nil => exact absurd inRight (Nat.not_succ_le_zero count)
      | cons b right =>
        rw [length_cons] at inLeft inRight
        rw [takeMerged]
        split
        · exact congrArg (· + 1) (ih (by omega) (by rw [length_cons]; omega))
        · exact congrArg (· + 1) (ih (by rw [length_cons]; omega) (by omega))

theorem take_between_perm (items : List α) {a b : Nat} (apart : a + b ≤ items.length) :
    items.take a ++ ((items.drop a).take (items.length - a - b) ++ items.reverse.take b) ~ items := by
  have back : items.reverse.take b ~ items.drop (items.length - b) := by
    rw [take_reverse]
    exact reverse_perm _
  have rest : items.drop (items.length - b) = (items.drop a).drop (items.length - a - b) := by
    rw [drop_drop]
    congr 1
    omega
  rw [rest] at back
  have between := back.append_left ((items.drop a).take (items.length - a - b))
  rw [take_append_drop] at between
  have whole := between.append_left (items.take a)
  rwa [take_append_drop] at whole

theorem interleaved_perm (a b c d e f : List α) :
    a ++ b ++ c ++ d ++ (e ++ f) ~ (a ++ (c ++ f)) ++ (b ++ (d ++ e)) := by
  have ends : b ++ (d ++ (e ++ f)) ~ f ++ (b ++ (d ++ e)) := by
    have moved : (b ++ (d ++ e)) ++ f ~ f ++ (b ++ (d ++ e)) := perm_append_comm
    rwa [append_assoc, append_assoc] at moved
  have inner := (perm_append_comm_assoc b c (d ++ (e ++ f))).trans (ends.append_left c)
  simpa only [append_assoc] using inner.append_left a

/-- Merged halves have a front and a back of the two merged lists, and hardly anything between these. -/
theorem mergeHalves_parts {left right merged : List α} (given : mergeHalves le left right = some merged)
    (notShorter : left.length ≤ right.length) (notLonger : right.length ≤ left.length + 1) :
    ∃ front between back rest early, merged = front ++ between ++ back ∧ between.length ≤ 1 ∧
      merged ~ left ++ right ∧ front ++ rest = left.merge right le ∧ early ++ back = mergeFromLast le left right := by
  have atFront := takeMerged_append le left.length left right
  have atBack := congrArg List.reverse (takeMerged_append (fun a b => le b a) left.length right.reverse left.reverse)
  rw [reverse_append] at atBack
  have frontLength := takeMerged_length le (Nat.le_refl left.length) notShorter
  have backLength : (takeMerged (fun a b => le b a) left.length right.reverse left.reverse).1.reverse.length =
      left.length := by
    rw [length_reverse]
    exact takeMerged_length _ (by rwa [length_reverse]) (Nat.le_of_eq length_reverse.symm)
  obtain ⟨a, b, inLeft, inRight, front, fronts⟩ := takeMerged_spec le left.length left right
  obtain ⟨c, d, inRight', inLeft', back, backs⟩ :=
    takeMerged_spec (fun a b => le b a) left.length right.reverse left.reverse
  have taken := front.length_eq
  have taken' := back.length_eq
  rw [length_reverse] at inRight' inLeft' backLength
  rw [frontLength, length_append, length_take, length_take] at taken
  rw [backLength, length_append, length_take, length_take, length_reverse, length_reverse] at taken'
  unfold mergeHalves at given
  rw [show takeMerged le left.length left right = (_, left.drop a, right.drop b) from Prod.ext rfl fronts,
    show takeMerged (fun a b => le b a) left.length right.reverse left.reverse =
      (_, right.reverse.drop c, left.reverse.drop d) from Prod.ext rfl backs] at given
  dsimp only at given
  simp only [length_drop, length_reverse] at given
  split at given
  · rename_i meet
    rw [show left.length - a + (left.length - d) - left.length = left.length - a - d by omega,
      show right.length - b + (right.length - c) - right.length = right.length - b - c by omega] at given
    have leftWhole := take_between_perm left (show a + d ≤ left.length by omega)
    have rightWhole := take_between_perm right (show b + c ≤ right.length by omega)
    have parts := ((front.append_right ((left.drop a).take (left.length - a - d))).append_right
      ((right.drop b).take (right.length - b - c))).append ((reverse_perm _).trans back)
    have perm := (parts.trans (interleaved_perm _ _ _ _ _ _)).trans (leftWhole.append rightWhole)
    rw [Option.some.inj given] at perm
    rw [Option.some.injEq, append_assoc (takeMerged le left.length left right).1] at given
    refine ⟨_, _, _, _, _, given.symm, ?_, perm, atFront, atBack⟩
    rw [length_append, length_take, length_take, length_drop, length_drop]
    omega
  · cases given

end Fronts

section Decided

variable {le : α → α → Bool} {before : α → α → Prop} (decides : Decides le before)

include decides

section Merging

variable {left right : List α} (inOrderLeft : left.Pairwise before) (inOrderRight : right.Pairwise before)

include inOrderLeft inOrderRight

theorem merge_arranged : Arranged before (left ++ right) (left.merge right le) := by
  refine ⟨merge_perm_append le, ?_⟩
  induction left generalizing right with
  | nil =>
    rw [nil_merge]
    exact inOrderRight
  | cons a left ihLeft =>
    induction right with
    | nil =>
      rw [merge_right]
      exact inOrderLeft
    | cons b right ihRight =>
      obtain ⟨firstA, restA⟩ := pairwise_cons.mp inOrderLeft
      obtain ⟨firstB, restB⟩ := pairwise_cons.mp inOrderRight
      rw [cons_merge_cons]
      split
      · rename_i less
        have ab := decides.below a b less
        refine pairwise_cons.mpr ⟨fun item member => ?_, ihLeft restA inOrderRight⟩
        rcases mem_append.mp ((merge_perm_append le).mem_iff.mp member) with inLeft | inRight
        · exact firstA item inLeft
        · rcases mem_cons.mp inRight with rfl | later
          · exact ab
          · exact decides.trans a b item ab (firstB item later)
      · rename_i greater
        have ba := decides.above a b greater
        refine pairwise_cons.mpr ⟨fun item member => ?_, ihRight restB⟩
        rcases mem_append.mp ((merge_perm_append le).mem_iff.mp member) with inLeft | inRight
        · rcases mem_cons.mp inLeft with rfl | later
          · exact ba
          · exact decides.trans b a item ba (firstA item later)
        · exact firstB item inRight

theorem mergeFromLast_arranged : Arranged before (left ++ right) (mergeFromLast le left right) := by
  have merged := (merge_arranged decides.flip (pairwise_reverse.mpr inOrderRight)
    (pairwise_reverse.mpr inOrderLeft)).reverse
  rwa [reverse_append, reverse_reverse, reverse_reverse] at merged

theorem mergeEnds_arranged : Arranged before (left ++ right) (merge le left right) := by
  rw [merge]
  split
  · exact merge_arranged decides inOrderLeft inOrderRight
  · exact mergeFromLast_arranged decides inOrderLeft inOrderRight

/-- What is in front stands there when the lists are merged from the front, and what is at the back when they are
    merged from the end. -/
theorem mergeHalves_arranged {merged : List α} (given : mergeHalves le left right = some merged)
    (notShorter : left.length ≤ right.length) (notLonger : right.length ≤ left.length + 1) :
    Arranged before (left ++ right) merged := by
  obtain ⟨front, between, back, rest, early, rfl, few, perm, atFront, atBack⟩ :=
    mergeHalves_parts le given notShorter notLonger
  have forwards := merge_arranged decides inOrderLeft inOrderRight
  have backwards := mergeFromLast_arranged decides inOrderLeft inOrderRight
  rw [← atFront] at forwards
  rw [← atBack] at backwards
  have behind : between ++ back ~ rest := by
    have whole := perm.trans forwards.perm.symm
    rw [append_assoc] at whole
    exact (perm_append_left_iff front).mp whole
  have ahead : front ++ between ~ early := (perm_append_right_iff back).mp (perm.trans backwards.perm.symm)
  obtain ⟨frontOrder, _, fromFront⟩ := pairwise_append.mp forwards.inOrder
  obtain ⟨_, backOrder, toBack⟩ := pairwise_append.mp backwards.inOrder
  have betweenOrder : between.Pairwise before := by
    match between, few with
    | [], _ => exact Pairwise.nil
    | [item], _ => exact pairwise_singleton _ _
  refine ⟨perm, pairwise_append.mpr ⟨pairwise_append.mpr ⟨frontOrder, betweenOrder, ?_⟩, backOrder, ?_⟩⟩
  · exact fun x inFront y inBetween => fromFront x inFront y (behind.mem_iff.mp (mem_append_left _ inBetween))
  · exact fun x member y inBack => toBack x (ahead.mem_iff.mp member) y inBack

end Merging

theorem insertFromLast_arranged (item : α) {items : List α} (inOrder : items.Pairwise fun a b => before b a) :
    Arranged (fun a b => before b a) (item :: items) (insertFromLast le item items) := by
  induction items with
  | nil => exact Arranged.refl (pairwise_singleton _ _)
  | cons last earlier ih =>
    obtain ⟨first, rest⟩ := pairwise_cons.mp inOrder
    rw [insertFromLast]
    split
    · rename_i less
      have lastItem := decides.below last item less
      refine Arranged.refl (pairwise_cons.mpr ⟨fun other member => ?_, inOrder⟩)
      rcases mem_cons.mp member with rfl | isEarlier
      · exact lastItem
      · exact decides.trans other last item (first other isEarlier) lastItem
    · rename_i greater
      have inserted := ih rest
      refine ⟨(inserted.perm.cons last).trans (Perm.swap item last earlier), pairwise_cons.mpr ⟨?_, inserted.inOrder⟩⟩
      intro other member
      rcases mem_cons.mp (inserted.perm.mem_iff.mp member) with rfl | isEarlier
      · exact decides.above last other greater
      · exact first other isEarlier

theorem insertAll_arranged {sorted : List α} (items : List α) (inOrder : sorted.Pairwise before) :
    Arranged before (sorted ++ items) (insertAll le sorted items) := by
  have placed : ∀ placed : List α, (placed.Pairwise fun a b => before b a) →
      Arranged (fun a b => before b a) (items.reverse ++ placed)
        (items.foldl (fun sorted item => insertFromLast le item sorted) placed) := by
    induction items with
    | nil => exact fun placed inOrder => Arranged.refl inOrder
    | cons item items ih =>
      intro placed inOrder
      have inserted := insertFromLast_arranged decides item inOrder
      have others := ih _ inserted.inOrder
      rw [reverse_cons, append_assoc, singleton_append]
      exact others.of_perm (inserted.perm.append_left _)
  have arranged := (placed sorted.reverse (pairwise_reverse.mpr inOrder)).reverse
  rwa [reverse_append, reverse_reverse, reverse_reverse] at arranged

theorem sortTwo_arranged (a b : α) : Arranged before [a, b] (sortTwo le a b) := by
  rw [sortTwo]
  split
  · rename_i less
    exact Arranged.refl (pairwise_pair.mpr (decides.below a b less))
  · rename_i greater
    exact ⟨Perm.swap a b [], pairwise_pair.mpr (decides.above a b greater)⟩

theorem exists_arranged (x y : α) :
    ∃ a b, (if le x y then (x, y) else (y, x)) = (a, b) ∧ [a, b] ~ [x, y] ∧ before a b := by
  split
  · rename_i less
    exact ⟨x, y, rfl, Perm.refl _, decides.below x y less⟩
  · rename_i greater
    exact ⟨y, x, rfl, Perm.swap x y [], decides.above x y greater⟩

theorem between_arranged {least a b greatest : α} (leastA : before least a) (leastB : before least b)
    (aGreatest : before a greatest) (bGreatest : before b greatest) :
    Arranged before [least, a, b, greatest] (least :: sortTwo le a b ++ [greatest]) := by
  have inner := sortTwo_arranged decides a b
  have members : ∀ item ∈ sortTwo le a b, before least item ∧ before item greatest := by
    intro item member
    have among := inner.perm.mem_iff.mp member
    rw [mem_cons, mem_singleton] at among
    rcases among with rfl | rfl
    · exact ⟨leastA, aGreatest⟩
    · exact ⟨leastB, bGreatest⟩
  refine ⟨(inner.perm.append_right [greatest]).cons least, ?_⟩
  refine pairwise_cons.mpr ⟨fun item member => ?_, pairwise_append.mpr ⟨inner.inOrder, pairwise_singleton _ _, ?_⟩⟩
  · rcases mem_append.mp member with member | last
    · exact (members item member).1
    · rw [mem_singleton.mp last]
      exact decides.trans least a greatest leastA aGreatest
  · intro item member last isLast
    rw [mem_singleton.mp isLast]
    exact (members item member).2

theorem sortFour_arranged (w x y z : α) : Arranged before [w, x, y, z] (sortFour le w x y z) := by
  obtain ⟨a, b, first, firstPerm, ab⟩ := exists_arranged decides w x
  obtain ⟨c, d, second, secondPerm, cd⟩ := exists_arranged decides y z
  have pairs : [a, b, c, d] ~ [w, x, y, z] := firstPerm.append secondPerm
  have lower := decides.below a c
  have lower' := decides.above a c
  have upper := decides.below b d
  have upper' := decides.above b d
  rw [sortFour, first, second]
  refine Arranged.of_perm ?_ pairs
  dsimp only
  cases ac : le a c with
  | true =>
    have ac := lower ac
    cases bd : le b d with
    | true => exact between_arranged decides ab ac (upper bd) cd
    | false =>
      have db := upper' (by rw [bd]; decide)
      have rotated : [c, d] ++ [b] ~ [b] ++ [c, d] := perm_append_comm
      exact (between_arranged decides ac (decides.trans a c d ac cd) (decides.trans c d b cd db) db).of_perm
        (rotated.cons a)
  | false =>
    have ca := lower' (by rw [ac]; decide)
    cases bd : le b d with
    | true =>
      have bd := upper bd
      have rotated : [c] ++ [a, b] ~ [a, b] ++ [c] := perm_append_comm
      exact (between_arranged decides ca (decides.trans c a b ca ab) (decides.trans a b d ab bd) bd).of_perm
        (rotated.append_right [d])
    | false =>
      have db := upper' (by rw [bd]; decide)
      have outer : [c] ++ [a, d, b] ~ [a, d, b] ++ [c] := perm_append_comm
      have inner : [d] ++ [b, c] ~ [b, c] ++ [d] := perm_append_comm
      exact (between_arranged decides ca cd ab db).of_perm (outer.trans (inner.cons a))

theorem sortHalf_arranged (items : List α) : Arranged before items (sortHalf le items) := by
  unfold sortHalf
  split
  · rename_i a b c d others
    have four := sortFour_arranged decides a b c d
    exact (insertAll_arranged decides others four.inOrder).of_perm (four.perm.append_right others)
  · exact insertAll_arranged decides items Pairwise.nil

theorem sortShort_arranged {items sorted : List α} (given : sortShort le items = some sorted) :
    Arranged before items sorted := by
  have halves : ∀ sort : List α → List α, (∀ items, Arranged before items (sort items)) →
      mergeHalves le (sort (items.take (items.length / 2))) (sort (items.drop (items.length / 2))) = some sorted →
      Arranged before items sorted := by
    intro sort arranges given
    have front := arranges (items.take (items.length / 2))
    have back := arranges (items.drop (items.length / 2))
    have frontLength := front.perm.length_eq
    have backLength := back.perm.length_eq
    rw [length_take] at frontLength
    rw [length_drop] at backLength
    have merged := mergeHalves_arranged decides front.inOrder back.inOrder given (by omega) (by omega)
    have parts := front.perm.append back.perm
    rw [take_append_drop] at parts
    exact merged.of_perm parts
  unfold sortShort at given
  dsimp only at given
  split at given
  · rename_i few
    rw [← Option.some.inj given]
    match items, few with
    | [], _ => exact Arranged.refl Pairwise.nil
    | [item], _ => exact Arranged.refl (pairwise_singleton _ _)
  · split at given
    · exact halves (insertAll le []) (fun items => insertAll_arranged decides items Pairwise.nil) given
    · exact halves (sortHalf le) (sortHalf_arranged decides) given

end Decided

end EpcisDigest.Sort
