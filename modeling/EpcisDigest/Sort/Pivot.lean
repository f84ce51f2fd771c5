import EpcisDigest.Sort.Run

namespace EpcisDigest.Sort

variable {α : Type}

def middle (le : α → α → Bool) (a b c : α) : α :=
  if le b a == le c a then
    if le c b == le b a then b else c
  else a

/-- An item near the middle of the order. It is the middle one of three samples, from the first, the
    fifth and the last of eight parts; the sample of a large part is found in the same way. -/
def sampled (le : α → α → Bool) (item : Nat → α) (part start : Nat) : α :=
  let sample (place : Nat) :=
    if 8 ≤ part then sampled le item (part / 8) place else item place
  middle le (sample start) (sample (start + 4 * part)) (sample (start + 7 * part))
termination_by part
decreasing_by omega

def pivot (le : α → α → Bool) (head : α) (tail : List α) : α :=
  let items := (head :: tail).toArray
  sampled le (fun place => items.getD place head) (items.size / 8) 0

/-- Sorts a list around pivots. `lower` is the pivot below all items, if there is one; items that are
    not greater than it are in their place at once. After `splits` divisions what is left is sorted
    by runs. -/
def sortAround (le : α → α → Bool) (splits : Nat) (lower : Option α) (items : List α) : Option (List α) :=
  if items.length ≤ shortLimit then sortShort le items
  else
    match splits, items with
    | _, [] => some []
    | 0, items => sortRuns le true some items
    | splits + 1, head :: tail =>
      let pivot := pivot le head tail
      let (others, less) := (head :: tail).partition fun item => le pivot item
      if less.isEmpty || lower.any fun lower => le pivot lower then do
        let (equal, greater) := (head :: tail).partition fun item => le item pivot
        let behind ← sortAround le splits none greater
        some (equal ++ behind)
      else do
        let front ← sortAround le splits lower less
        let behind ← sortAround le splits (some pivot) others
        some (front ++ behind)

/-- One division of `sortAround`. -/
def sortParted (le : α → α → Bool) (splits : Nat) (lower : Option α) (pivot : α) (items : List α) :
    Option (List α) :=
  if (items.filter fun item => !le pivot item).isEmpty || lower.any fun lower => le pivot lower then do
    let behind ← sortAround le splits none (items.filter fun item => !le item pivot)
    some (items.filter (fun item => le item pivot) ++ behind)
  else do
    let front ← sortAround le splits lower (items.filter fun item => !le pivot item)
    let behind ← sortAround le splits (some pivot) (items.filter fun item => le pivot item)
    some (front ++ behind)

section Cases

variable {le : α → α → Bool} {lower : Option α} {items : List α}

theorem sortAround_short (splits : Nat) (short : items.length ≤ shortLimit) :
    sortAround le splits lower items = sortShort le items := by
  unfold sortAround
  rw [if_pos short]

theorem sortAround_zero (long : ¬ items.length ≤ shortLimit) :
    sortAround le 0 lower items = sortRuns le true some items := by
  unfold sortAround
  rw [if_neg long]
  cases items with
  | nil => exact absurd (Nat.zero_le _) long
  | cons head tail => rfl

theorem sortAround_succ (splits : Nat) {head : α} {tail : List α} (long : ¬ (head :: tail).length ≤ shortLimit) :
    sortAround le (splits + 1) lower (head :: tail) =
      sortParted le splits lower (pivot le head tail) (head :: tail) := by
  unfold sortAround
  rw [if_neg long]
  dsimp only
  rw [List.partition_eq_filter_filter, List.partition_eq_filter_filter]
  rfl

/-- What holds of short lists and of lists sorted by runs, and is kept by a division, holds of every sorting. -/
theorem sortAround_induction (le : α → α → Bool) {P : Option α → List α → Option (List α) → Prop}
    (short : ∀ lower items, P lower items (sortShort le items))
    (runs : ∀ lower items, P lower items (sortRuns le true some items))
    (parted : ∀ splits, (∀ lower items, P lower items (sortAround le splits lower items)) →
      ∀ lower pivot items, P lower items (sortParted le splits lower pivot items)) (splits : Nat) :
    ∀ lower items, P lower items (sortAround le splits lower items) := by
  induction splits with
  | zero =>
    intro lower items
    by_cases isShort : items.length ≤ shortLimit
    · rw [sortAround_short 0 isShort]
      exact short lower items
    · rw [sortAround_zero isShort]
      exact runs lower items
  | succ splits ih =>
    intro lower items
    by_cases isShort : items.length ≤ shortLimit
    · rw [sortAround_short (splits + 1) isShort]
      exact short lower items
    · cases items with
      | nil => exact absurd (Nat.zero_le _) isShort
      | cons head tail =>
        rw [sortAround_succ splits isShort]
        exact parted splits ih lower (pivot le head tail) (head :: tail)

end Cases

end EpcisDigest.Sort
