import EpcisDigest.Proofs.Event.Rearranged

namespace EpcisDigest

theorem areExtensions_eq_all (lineage : Lineage) (fields : List Field) :
    areExtensions lineage fields =
      fields.all fun field => !lineage.isStandard field.name || holdsOnlyExtensions lineage field := by
  induction fields with
  | nil => rfl
  | cons field fields ih => rw [areExtensions, ih, List.all_cons]

theorem holdsOnlyExtensions_of_named {lineage : Lineage} {field : Field} {name : String}
    (named : pathName? field.name = some name) : holdsOnlyExtensions lineage field = false := by
  obtain ⟨_, value, children⟩ := field
  rw [holdsOnlyExtensions, named]
  rfl

theorem bind_eq_of_bind_eq {α β γ : Type} {f : α → Option β} {x y : Option α} (same : x.bind f = y.bind f)
    (next : β → Option γ) : (x.bind fun a => (f a).bind next) = y.bind fun a => (f a).bind next := by
  rw [← Option.bind_assoc, ← Option.bind_assoc, same]

section Alike

variable (settings : Settings) (namespaces : Namespaces)

def SameSiblings (view : List Entry → Option (List Entry)) (lineage : Lineage) (fields others : List Field) : Prop :=
  (siblingEntries settings namespaces lineage fields).toOption.bind view =
    (siblingEntries settings namespaces lineage others).toOption.bind view

/-- Fields that have the same entries in one view, and stand for an extension alike. -/
structure Alike (view : List Entry → Option (List Entry)) (fields others : List Field) : Prop where
  siblings : ∀ lineage, (siblingEntries settings namespaces lineage fields).toOption.bind view =
    (siblingEntries settings namespaces lineage others).toOption.bind view
  extension : (extensionEntries settings namespaces fields).toOption.bind view =
    (extensionEntries settings namespaces others).toOption.bind view
  areExtensions : ∀ lineage, areExtensions lineage fields = areExtensions lineage others
  isEmpty : fields.isEmpty = others.isEmpty

variable {settings namespaces} {fields others : List Field}

theorem SameSiblings.sorted {lineage : Lineage} (same : SameSiblings settings namespaces some lineage fields others) :
    SameSiblings settings namespaces Entry.sorted? lineage fields others := by
  rw [SameSiblings, Option.bind_fun_some, Option.bind_fun_some] at same
  rw [SameSiblings, same]

theorem SameSiblings.append {lineage : Lineage} {more more' : List Field}
    (same : SameSiblings settings namespaces some lineage fields others)
    (beside : SameSiblings settings namespaces some lineage more more') :
    SameSiblings settings namespaces some lineage (fields ++ more) (others ++ more') := by
  simp only [SameSiblings, toOption_siblingEntries, Option.bind_fun_some] at same beside ⊢
  rw [List.filter_append, List.filter_append, collect_append, collect_append, same, beside]

theorem collect_single {α β : Type} (f : α → Option β) (item : α) :
    collect f [item] = (f item).map fun found => [found] := by
  rw [collect, List.all_cons, List.filterMap_cons]
  cases f item <;> rfl

theorem collect_filter_single {α β : Type} {f : α → Option β} {p : α → Bool} {item other : α}
    (own : f item = f other) (kept : p item = p other) :
    collect f ([item].filter p) = collect f ([other].filter p) := by
  rw [List.filter_cons, List.filter_cons, kept]
  cases p other with
  | false => rfl
  | true => exact (collect_single f item).trans ((congrArg _ own).trans (collect_single f other).symm)

theorem SameSiblings.single {lineage : Lineage} {field other : Field} (named : field.name = other.name)
    (own : (siblingEntry settings namespaces lineage field).toOption =
      (siblingEntry settings namespaces lineage other).toOption) :
    SameSiblings settings namespaces some lineage [field] [other] := by
  rw [SameSiblings, toOption_siblingEntries, toOption_siblingEntries, Option.bind_fun_some, Option.bind_fun_some]
  exact collect_filter_single own (by rw [isShown, isShown, named])

theorem SameSiblings.standardLines_eq {name : Option String} {lineage : Lineage} (value : Option String)
    (below : SameSiblings settings namespaces Entry.sorted? (name :: lineage) fields others)
    (isEmpty : fields.isEmpty = others.isEmpty) :
    (standardLines settings namespaces lineage ⟨name, value, fields⟩).toOption =
      (standardLines settings namespaces lineage ⟨name, value, others⟩).toOption := by
  rw [standardLines, standardLines, isEmpty]
  split
  · rfl
  · simp only [toOption_bind]
    exact bind_eq_of_bind_eq below fun sorted =>
      some { Entry.arrange settings.version.placement sorted with
        placed := (pathName? name).toList ++ (Entry.arrange settings.version.placement sorted).placed }

theorem SameSiblings.siblingEntry_eq {name : Option String} {lineage : Lineage} (value : Option String)
    (below : SameSiblings settings namespaces Entry.sorted? (name :: lineage) fields others)
    (isEmpty : fields.isEmpty = others.isEmpty) (region : regionOf lineage ⟨name, value, fields⟩ = .standard)
    (region' : regionOf lineage ⟨name, value, others⟩ = .standard) :
    (siblingEntry settings namespaces lineage ⟨name, value, fields⟩).toOption =
      (siblingEntry settings namespaces lineage ⟨name, value, others⟩).toOption := by
  have lines := below.standardLines_eq value isEmpty
  have parents : Field.hasChildren ⟨name, value, fields⟩ = Field.hasChildren ⟨name, value, others⟩ := by
    rw [Field.hasChildren, Field.hasChildren, isEmpty]
  rw [siblingEntry, siblingEntry, region, region', parents]
  simp only [toOption_map, lines]

theorem SameSiblings.canonicalForm_eq (same : SameSiblings settings namespaces Entry.sorted? [none] fields others) :
    (canonicalForm settings namespaces fields).toOption = (canonicalForm settings namespaces others).toOption := by
  simp only [canonicalForm, toOption_bind]
  exact bind_eq_of_bind_eq same fun sorted =>
    let rendered := Entry.arrange settings.version.placement sorted
    some (CanonicalForm.mk (((rendered.placed ++ rendered.hoisted).map withoutLineEnds).filter (· != "")))

theorem Alike.refl (view : List Entry → Option (List Entry)) (fields : List Field) :
    Alike settings namespaces view fields fields :=
  ⟨fun _ => rfl, rfl, fun _ => rfl, rfl⟩

theorem Alike.trans {view : List Entry → Option (List Entry)} {more : List Field}
    (lower : Alike settings namespaces view fields others) (upper : Alike settings namespaces view others more) :
    Alike settings namespaces view fields more where
  siblings lineage := (lower.siblings lineage).trans (upper.siblings lineage)
  extension := lower.extension.trans upper.extension
  areExtensions lineage := (lower.areExtensions lineage).trans (upper.areExtensions lineage)
  isEmpty := lower.isEmpty.trans upper.isEmpty

theorem Alike.sorted (alike : Alike settings namespaces some fields others) :
    Alike settings namespaces Entry.sorted? fields others where
  siblings lineage := SameSiblings.sorted (alike.siblings lineage)
  extension := by
    have same := alike.extension
    rw [Option.bind_fun_some, Option.bind_fun_some] at same
    rw [same]
  areExtensions := alike.areExtensions
  isEmpty := alike.isEmpty

theorem Rearranged.alike (rearranged : Rearranged fields others) (apart : Apart namespaces fields) :
    Alike settings namespaces Entry.sorted? fields others where
  siblings := by
    intro lineage
    rw [toOption_siblingEntries, toOption_siblingEntries]
    exact (rearranged.filter (isShown settings)).sorted?_collect
      ((apart.filter (isShown settings)).keyed_siblings settings lineage)
  extension := by
    rw [toOption_extensionEntries, toOption_extensionEntries]
    exact (rearranged.filter (isShown settings)).sorted?_collect
      ((apart.filter (isShown settings)).keyed_extension settings)
  areExtensions := by
    intro lineage
    rw [areExtensions_eq_all, areExtensions_eq_all, rearranged.perm.all_eq]
  isEmpty := rearranged.perm.isEmpty_eq.symm

theorem Alike.append {more more' : List Field} (alike : Alike settings namespaces some fields others)
    (beside : Alike settings namespaces some more more') :
    Alike settings namespaces some (fields ++ more) (others ++ more') where
  siblings lineage := SameSiblings.append (alike.siblings lineage) (beside.siblings lineage)
  extension := by
    have first := alike.extension
    have second := beside.extension
    simp only [toOption_extensionEntries, Option.bind_fun_some] at first second ⊢
    rw [List.filter_append, List.filter_append, collect_append, collect_append, first, second]
  areExtensions := by
    intro lineage
    have first := alike.areExtensions lineage
    have second := beside.areExtensions lineage
    rw [areExtensions_eq_all, areExtensions_eq_all] at first second ⊢
    rw [List.all_append, List.all_append, first, second]
  isEmpty := by
    have first := alike.isEmpty
    have second := beside.isEmpty
    cases fields <;> cases others <;> first
      | exact second
      | rfl
      | cases first

section Node

variable (name value : Option String)

theorem Alike.extensionLines_eq (below : Alike settings namespaces Entry.sorted? fields others) :
    (extensionLines settings namespaces ⟨name, value, fields⟩).toOption =
      (extensionLines settings namespaces ⟨name, value, others⟩).toOption := by
  rw [extensionLines, extensionLines, below.isEmpty]
  split
  · rfl
  · simp only [toOption_bind]
    exact bind_eq_of_bind_eq below.extension fun sorted =>
      some (((pathName? name).map (qualifiedName namespaces)).toList ++ sorted.flatMap (·.rendered.placed))

theorem Alike.hasChildren_eq {view : List Entry → Option (List Entry)} (below : Alike settings namespaces view fields others) :
    Field.hasChildren ⟨name, value, fields⟩ = Field.hasChildren ⟨name, value, others⟩ := by
  rw [Field.hasChildren, Field.hasChildren, below.isEmpty]

theorem Alike.extensionEntry_eq (below : Alike settings namespaces Entry.sorted? fields others) :
    (extensionEntry settings namespaces ⟨name, value, fields⟩).toOption =
      (extensionEntry settings namespaces ⟨name, value, others⟩).toOption := by
  rw [extensionEntry, extensionEntry, toOption_map, toOption_map, below.extensionLines_eq, below.hasChildren_eq]
  rfl

theorem Alike.holdsOnlyExtensions_eq {view : List Entry → Option (List Entry)}
    (below : Alike settings namespaces view fields others) (lineage : Lineage) :
    holdsOnlyExtensions lineage ⟨name, value, fields⟩ = holdsOnlyExtensions lineage ⟨name, value, others⟩ := by
  rw [holdsOnlyExtensions, holdsOnlyExtensions, below.isEmpty, below.areExtensions]

theorem Alike.siblingEntry_eq (below : Alike settings namespaces Entry.sorted? fields others) (lineage : Lineage) :
    (siblingEntry settings namespaces lineage ⟨name, value, fields⟩).toOption =
      (siblingEntry settings namespaces lineage ⟨name, value, others⟩).toOption := by
  have region : regionOf lineage ⟨name, value, fields⟩ = regionOf lineage ⟨name, value, others⟩ := by
    rw [regionOf, regionOf, below.holdsOnlyExtensions_eq]
  cases region' : regionOf lineage ⟨name, value, others⟩ with
  | extension => rw [siblingEntry, siblingEntry, region, region', below.extensionEntry_eq]
  | ilmd =>
    rw [siblingEntry, siblingEntry, region, region', below.hasChildren_eq]
    simp only [toOption_map, below.extensionLines_eq]
  | standard =>
    exact SameSiblings.siblingEntry_eq value (below.siblings (name :: lineage)) below.isEmpty (region.trans region')
      region'

/-- Fields are alike when those below them are once they are sorted. -/
theorem Alike.node (below : Alike settings namespaces Entry.sorted? fields others) :
    Alike settings namespaces some [⟨name, value, fields⟩] [⟨name, value, others⟩] where
  siblings lineage := SameSiblings.single rfl (below.siblingEntry_eq name value lineage)
  extension := by
    rw [toOption_extensionEntries, toOption_extensionEntries, Option.bind_fun_some, Option.bind_fun_some]
    exact collect_filter_single (below.extensionEntry_eq name value) rfl
  areExtensions := by
    intro lineage
    rw [areExtensions_eq_all, areExtensions_eq_all, List.all_cons, List.all_cons, below.holdsOnlyExtensions_eq]
  isEmpty := rfl

end Node

theorem Alike.canonicalForm_eq (alike : Alike settings namespaces Entry.sorted? fields others) :
    (canonicalForm settings namespaces fields).toOption = (canonicalForm settings namespaces others).toOption :=
  SameSiblings.canonicalForm_eq (alike.siblings [none])

end Alike

end EpcisDigest
