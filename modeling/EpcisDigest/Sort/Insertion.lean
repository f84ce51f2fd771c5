namespace EpcisDigest.Sort

variable {α : Type}

/-- Places an item among sorted ones, which are listed from the last to the first: behind the last
    one that may stand before it. -/
def insertFromLast (le : α → α → Bool) (item : α) : List α → List α
  | [] => [item]
  | last :: before =>
    if le last item then item :: last :: before else last :: insertFromLast le item before

def insertAll (le : α → α → Bool) (sorted items : List α) : List α :=
  (items.foldl (fun sorted item => insertFromLast le item sorted) sorted.reverse).reverse

end EpcisDigest.Sort
