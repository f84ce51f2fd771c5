import EpcisDigest.NameTable

namespace EpcisDigest

theorem find?_insertByName {α : Type} (name key : String) (value : α) (entries : List (String × α)) :
    ((insertByName name value entries).find? fun entry => entry.1 == key).map Prod.snd =
      if name = key then some value else (entries.find? fun entry => entry.1 == key).map Prod.snd := by
  have first : ∀ entries : List (String × α),
      (((name, value) :: entries).find? fun entry => entry.1 == key).map Prod.snd =
        if name = key then some value else (entries.find? fun entry => entry.1 == key).map Prod.snd := by
    intro entries
    by_cases same : name = key
    · simp [same]
    · have other : (name == key) = false := beq_eq_false_iff_ne.mpr same
      rw [List.find?_cons, other, if_neg same]
  induction entries with
  | nil => exact first []
  | cons entry entries ih =>
    rw [insertByName]
    split
    · exact first (entry :: entries)
    · split
      · rename_i own
        rw [first, List.find?_cons, ← own]
        by_cases same : name = key
        · rw [if_pos same, if_pos same]
        · have other : (name == key) = false := beq_eq_false_iff_ne.mpr same
          rw [other]
      · rename_i own
        rw [List.find?_cons, List.find?_cons]
        by_cases found : entry.1 = key
        · have different : name ≠ key := fun same => own (same.trans found.symm)
          simp [found, different]
        · have other : (entry.1 == key) = false := beq_eq_false_iff_ne.mpr found
          rw [other]
          exact ih

namespace NameTable

variable {α : Type}

theorem get?_insert (table : NameTable α) (name key : String) (value : α) :
    (table.insert name value).get? key = if name = key then some value else table.get? key :=
  find?_insertByName name key value table.entries

theorem get?_eq_some_iff (table : NameTable α) (name : String) (value : α) :
    table.get? name = some value ↔ (name, value) ∈ table.entries := by
  obtain ⟨entries, ordered⟩ := table
  show (entries.find? fun entry => entry.1 == name).map Prod.snd = some value ↔ (name, value) ∈ entries
  induction entries with
  | nil => simp
  | cons entry entries ih =>
    obtain ⟨first, rest⟩ := List.pairwise_cons.mp ordered
    rw [List.find?_cons, List.mem_cons]
    by_cases found : entry.1 = name
    · have absent : (name, value) ∉ entries := by
        intro member
        exact String.lt_irrefl _ (found ▸ first _ member)
      simp [found, absent, Prod.ext_iff, eq_comm]
    · have other : (entry.1 == name) = false := beq_eq_false_iff_ne.mpr found
      have different : (name, value) ≠ entry := by
        rintro rfl
        exact found rfl
      rw [other]
      simp only [different, false_or]
      exact ih rest

theorem get?_foldl_insert (bindings : List (String × α)) (table : NameTable α) (name : String) :
    (bindings.foldl (fun table binding => table.insert binding.1 binding.2) table).get? name =
      (bindings.reverse.lookup name).or (table.get? name) := by
  induction bindings generalizing table with
  | nil => rfl
  | cons binding bindings ih =>
    obtain ⟨key, value⟩ := binding
    have own : (table.insert key value).get? name = ([(key, value)].lookup name).or (table.get? name) := by
      rw [List.lookup_cons, List.lookup_nil, get?_insert]
      by_cases same : key = name
      · simp [same]
      · have other : (name == key) = false := beq_eq_false_iff_ne.mpr (Ne.symm same)
        rw [if_neg same, other, Option.none_or]
    rw [List.foldl_cons, ih, List.reverse_cons, List.lookup_append, Option.or_assoc, own]

/-- A table is determined by what it gives for every name. -/
theorem ext_get? {table other : NameTable α} (same : ∀ name, table.get? name = other.get? name) : table = other := by
  have nodup : ∀ table : NameTable α, table.entries.Nodup := by
    intro table
    apply table.ordered.imp
    rintro a b less rfl
    exact String.lt_irrefl _ less
  have perm : table.entries.Perm other.entries := by
    apply (List.perm_ext_iff_of_nodup (nodup table) (nodup other)).mpr
    intro entry
    rw [← get?_eq_some_iff, ← get?_eq_some_iff, same]
  have entries : table.entries = other.entries := by
    apply perm.eq_of_pairwise _ table.ordered other.ordered
    intro a b _ _ below above
    exact absurd (String.lt_trans below above) (String.lt_irrefl _)
  cases table
  cases other
  cases entries
  rfl

theorem insert_comm (table : NameTable α) {name other : String} (different : name ≠ other) (value value' : α) :
    (table.insert name value).insert other value' = (table.insert other value').insert name value := by
  apply ext_get?
  intro key
  rw [get?_insert, get?_insert, get?_insert, get?_insert]
  by_cases first : name = key
  · by_cases second : other = key
    · exact absurd (first.trans second.symm) different
    · rw [if_neg second, if_pos first, if_pos first]
  · rw [if_neg first, if_neg first]

theorem mem_names_iff {table : NameTable α} {name : String} : name ∈ table.names ↔ table.contains name = true := by
  rw [contains, Option.isSome_iff_exists, names, List.mem_map]
  simp only [get?_eq_some_iff]
  constructor
  · rintro ⟨⟨_, value⟩, member, rfl⟩
    exact ⟨value, member⟩
  · rintro ⟨value, member⟩
    exact ⟨(name, value), member, rfl⟩

end NameTable

namespace NameSet

variable {set other : NameSet} {name : String}

theorem contains_union {names : List String} :
    (set.union names).contains name = true ↔ set.contains name = true ∨ name ∈ names := by
  induction names generalizing set with
  | nil => simp [union]
  | cons first names ih =>
    have added : (set.insert first ()).contains name = true ↔ name = first ∨ set.contains name = true := by
      rw [NameTable.contains, NameTable.get?_insert]
      by_cases same : first = name
      · simp [same]
      · rw [if_neg same, NameTable.contains, or_iff_right (Ne.symm same)]
    rw [union, List.foldl_cons]
    apply ih.trans
    rw [added, List.mem_cons, or_comm (a := name = first), or_assoc]

/-- A set is determined by what it contains. -/
theorem ext_contains (same : ∀ name, set.contains name = true ↔ other.contains name = true) : set = other := by
  apply NameTable.ext_get?
  intro name
  have present := same name
  rw [NameTable.contains, NameTable.contains] at present
  cases given : set.get? name <;> cases given' : other.get? name <;> simp_all

end NameSet

end EpcisDigest
