namespace EpcisDigest

def insertByName {α : Type} (name : String) (value : α) : List (String × α) → List (String × α)
  | [] => [(name, value)]
  | entry :: entries =>
    if name < entry.1 then (name, value) :: entry :: entries
    else if name = entry.1 then (name, value) :: entries
    else entry :: insertByName name value entries

theorem mem_insertByName {α : Type} {name : String} {value : α} {entries : List (String × α)}
    {entry : String × α} (member : entry ∈ insertByName name value entries) :
    entry = (name, value) ∨ entry ∈ entries := by
  induction entries with
  | nil => exact .inl (by simpa [insertByName] using member)
  | cons head tail ih =>
    simp only [insertByName] at member
    split at member
    · simpa using member
    · split at member
      · rcases List.mem_cons.mp member with member | member
        · exact .inl member
        · exact .inr (List.mem_cons_of_mem _ member)
      · rcases List.mem_cons.mp member with member | member
        · exact .inr (member ▸ List.mem_cons_self)
        · exact (ih member).imp_right (List.mem_cons_of_mem _)

theorem insertByName_ordered {α : Type} (name : String) (value : α) {entries : List (String × α)}
    (ordered : entries.Pairwise fun a b => a.1 < b.1) :
    (insertByName name value entries).Pairwise fun a b => a.1 < b.1 := by
  induction entries with
  | nil => simp [insertByName]
  | cons head tail ih =>
    obtain ⟨first, rest⟩ := List.pairwise_cons.mp ordered
    simp only [insertByName]
    split
    · rename_i less
      refine List.pairwise_cons.mpr ⟨fun entry member => ?_, ordered⟩
      rcases List.mem_cons.mp member with member | member
      · exact member ▸ less
      · exact String.lt_trans less (first entry member)
    · rename_i notLess
      split
      · rename_i same
        exact List.pairwise_cons.mpr ⟨fun entry member => same ▸ first entry member, rest⟩
      · rename_i different
        refine List.pairwise_cons.mpr ⟨fun entry member => ?_, ih rest⟩
        rcases mem_insertByName member with member | member
        · subst member
          exact Decidable.byContradiction fun notGreater =>
            different (String.le_antisymm (String.not_lt.mp notGreater) (String.not_lt.mp notLess))
        · exact first entry member

/-- A table keyed by names, in code point order of the names, each name once. -/
structure NameTable (α : Type) where
  entries : List (String × α)
  ordered : entries.Pairwise fun a b => a.1 < b.1
  deriving DecidableEq

namespace NameTable

variable {α : Type}

def empty : NameTable α := ⟨[], List.Pairwise.nil⟩

instance : Inhabited (NameTable α) := ⟨empty⟩

def insert (table : NameTable α) (name : String) (value : α) : NameTable α :=
  ⟨insertByName name value table.entries, insertByName_ordered name value table.ordered⟩

def get? (table : NameTable α) (name : String) : Option α :=
  (table.entries.find? fun entry => entry.1 == name).map Prod.snd

def contains (table : NameTable α) (name : String) : Bool :=
  (table.get? name).isSome

def names (table : NameTable α) : List String :=
  table.entries.map Prod.fst

def ofList (bindings : List (String × α)) : NameTable α :=
  bindings.foldl (fun table binding => table.insert binding.1 binding.2) empty

end NameTable

abbrev NameSet := NameTable Unit

namespace NameSet

def union (set : NameSet) (names : List String) : NameSet :=
  names.foldl (fun set name => set.insert name ()) set

def ofNames (names : List String) : NameSet :=
  union NameTable.empty names

end NameSet

abbrev Namespaces := NameTable String

end EpcisDigest
