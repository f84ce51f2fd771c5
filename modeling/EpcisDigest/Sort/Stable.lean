import EpcisDigest.Sort.Pivot

namespace EpcisDigest.Sort

variable {α : Type}

def insertionLimit : Nat := 20

/-- Sorts a list by `le`, which tells whether one item may stand before another. Items that may stand
    in either order keep theirs. Where `le` is no consistent order, the result depends on which items
    are compared: a few are inserted one by one, some more are cut into runs that are sorted at once,
    and many into runs that are sorted around pivots when they are merged. There is no result when two
    halves of a run turn out not to fit. -/
def stable (le : α → α → Bool) (items : List α) : Option (List α) :=
  if items.length ≤ insertionLimit then some (insertAll le [] items)
  else
    sortRuns le (items.length ≤ 2 * shortLimit)
      (fun loose => sortAround le (2 * loose.length.log2) none loose) items

end EpcisDigest.Sort
