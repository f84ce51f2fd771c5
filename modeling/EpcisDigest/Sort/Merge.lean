namespace EpcisDigest.Sort

variable {α : Type}

def mergeFromLast (le : α → α → Bool) (left right : List α) : List α :=
  (right.reverse.merge left.reverse fun a b => le b a).reverse

def merge (le : α → α → Bool) (left right : List α) : List α :=
  if left.length ≤ right.length then left.merge right le else mergeFromLast le left right

/-- The first `count` items of two merged lists, and what is left of either list; fewer when one of
    them runs out. -/
def takeMerged (le : α → α → Bool) : Nat → List α → List α → List α × List α × List α
  | count + 1, a :: left, b :: right =>
    if le a b then
      let (taken, rest) := takeMerged le count left (b :: right)
      (a :: taken, rest)
    else
      let (taken, rest) := takeMerged le count (a :: left) right
      (b :: taken, rest)
  | _, left, right => ([], left, right)

/-- Merges the halves of a list from both ends, with as many steps from either end as the left half has
    items; the right half has as many items or one more. Under a consistent order the two parts meet,
    with at most one item between them. Where they do not, there is no merged list. -/
def mergeHalves (le : α → α → Bool) (left right : List α) : Option (List α) :=
  let (front, left₁, right₁) := takeMerged le left.length left right
  let (back, right₂, left₂) :=
    takeMerged (fun a b => le b a) left.length right.reverse left.reverse
  if left.length ≤ left₁.length + left₂.length ∧ right.length ≤ right₁.length + right₂.length then
    some (front ++ left₁.take (left₁.length + left₂.length - left.length) ++
      right₁.take (right₁.length + right₂.length - right.length) ++ back.reverse)
  else none

end EpcisDigest.Sort
