import EpcisDigest.Sort.Short

namespace EpcisDigest.Sort

variable {α : Type}

/-- Neighbouring items of a list that are merged as a whole. Some are left unsorted at first. -/
structure Run (α : Type) where
  items : List α
  isSorted : Bool

namespace Run

def chain (related : α → α → Bool) (last : α) : List α → List α × List α
  | [] => ([], [])
  | item :: items =>
    if related last item then
      let (others, rest) := chain related item items
      (item :: others, rest)
    else ([], item :: items)

/-- The longest front of a list that is sorted as it stands or backwards, in its order, and the rest.
    Items that may stand in either order are not turned around. -/
def natural (le : α → α → Bool) : List α → List α × List α
  | a :: b :: items =>
    if le a b then
      let (others, rest) := chain le b items
      (a :: b :: others, rest)
    else
      let (others, rest) := chain (fun a b => !le a b) b items
      ((a :: b :: others).reverse, rest)
  | items => (items, [])

/-- The first run and the rest. A natural run counts if it has `least` items; else the run is a piece
    of the list, which is sorted at once when the cutting is eager. -/
def first (le : α → α → Bool) (eager : Bool) (least : Nat) (items : List α) : Option (Run α × List α) :=
  let (front, rest) := natural le items
  if least ≤ front.length then some (⟨front, true⟩, rest)
  else if eager then do
    let sorted ← sortShort le (items.take shortLimit)
    some (⟨sorted, true⟩, items.drop shortLimit)
  else some (⟨items.take least, false⟩, items.drop least)

def ofList (le : α → α → Bool) (eager : Bool) (least : Nat) : Nat → List α → Option (List (Run α))
  | _, [] => some []
  | 0, items => some [⟨items, false⟩]
  | count + 1, items => do
    let (run, rest) ← first le eager least items
    let runs ← ofList le eager least count rest
    some (run :: runs)

def leastLength (size : Nat) : Nat :=
  if size ≤ 4096 then min (size - size / 2) 64
  else
    let shift := (1 + size.log2) / 2
    ((1 <<< shift) + (size >>> shift)) / 2

/-- The depth at which a binary tree over `size` places parts the middle of the run from `start` to
    `border` from the middle of the one from `border` to `stop`. -/
def depth (size start border stop : Nat) : Nat :=
  let scale := ((1 <<< 62) + size - 1) / size
  63 - (scale * (start + border) ^^^ scale * (border + stop)).log2

def withDepths (size start : Nat) : List (Run α) → List (Run α × Nat)
  | [] => []
  | [run] => [(run, 0)]
  | run :: next :: runs =>
    let border := start + run.items.length
    (run, depth size start border (border + next.items.length)) :: withDepths size border (next :: runs)

section Joining

variable (le : α → α → Bool) (sortLoose : List α → Option (List α))

def sorted (run : Run α) : Option (List α) :=
  if run.isSorted then some run.items else sortLoose run.items

def join (left right : Run α) : Option (Run α) :=
  if left.isSorted || right.isSorted then do
    let front ← left.sorted sortLoose
    let back ← right.sorted sortLoose
    some ⟨merge le front back, true⟩
  else some ⟨left.items ++ right.items, false⟩

def joinBack (depth : Nat) (run : Run α) :
    List (Run α × Nat) → Option (Run α × List (Run α × Nat))
  | [] => some (run, [])
  | (left, border) :: before =>
    if depth ≤ border then do
      let joined ← left.join le sortLoose run
      joinBack depth joined before
    else some (run, (left, border) :: before)

def add (before : List (Run α × Nat)) (next : Run α × Nat) : Option (List (Run α × Nat)) := do
  let (run, before) ← joinBack le sortLoose next.2 next.1 before
  some ((run, next.2) :: before)

end Joining

end Run

def sortRuns (le : α → α → Bool) (eager : Bool) (sortLoose : List α → Option (List α)) (items : List α) :
    Option (List α) := do
  let runs ← Run.ofList le eager (Run.leastLength items.length) items.length items
  let joined ← (Run.withDepths items.length 0 runs).foldlM (Run.add le sortLoose) []
  let (run, _) ← Run.joinBack le sortLoose 0 ⟨[], true⟩ joined
  run.sorted sortLoose

end EpcisDigest.Sort
