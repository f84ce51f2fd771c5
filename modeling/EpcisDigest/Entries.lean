namespace EpcisDigest

/-- Values under their keys, in the order in which the keys first came. -/
abbrev Entries (α : Type) := List (String × α)

namespace Entries

variable {α : Type}

def put (key : String) (value : α) : Entries α → Entries α
  | [] => [(key, value)]
  | entry :: entries =>
    if entry.1 = key then (key, value) :: entries else entry :: put key value entries

def get? (key : String) (entries : Entries α) : Option α :=
  (entries.find? fun entry => entry.1 == key).map Prod.snd

def ofList (bindings : List (String × α)) : Entries α :=
  bindings.foldl (fun entries binding => put binding.1 binding.2 entries) []

end Entries

end EpcisDigest
