import EpcisDigest.Sort.Insertion
import EpcisDigest.Sort.Merge

namespace EpcisDigest.Sort

variable {α : Type}

def shortLimit : Nat := 32

def sortTwo (le : α → α → Bool) (a b : α) : List α :=
  if le a b then [a, b] else [b, a]

/-- Sorts four items with five comparisons: two pairs, then the ends of these, then what is left
    between the least and the greatest item. -/
def sortFour (le : α → α → Bool) (w x y z : α) : List α :=
  let (a, b) := if le w x then (w, x) else (x, w)
  let (c, d) := if le y z then (y, z) else (z, y)
  match le a c, le b d with
  | true, true => a :: sortTwo le b c ++ [d]
  | true, false => a :: sortTwo le c d ++ [b]
  | false, true => c :: sortTwo le a b ++ [d]
  | false, false => c :: sortTwo le a d ++ [b]

def sortHalf (le : α → α → Bool) : List α → List α
  | a :: b :: c :: d :: others => insertAll le (sortFour le a b c d) others
  | items => insertAll le [] items

def sortShort (le : α → α → Bool) (items : List α) : Option (List α) :=
  let half := items.length / 2
  if items.length < 2 then some items
  else if items.length < 8 then
    mergeHalves le (insertAll le [] (items.take half)) (insertAll le [] (items.drop half))
  else mergeHalves le (sortHalf le (items.take half)) (sortHalf le (items.drop half))

end EpcisDigest.Sort
