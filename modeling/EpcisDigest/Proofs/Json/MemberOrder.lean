import EpcisDigest.Proofs.Event.Alike
import EpcisDigest.Proofs.Event.OfFields
import EpcisDigest.Proofs.Json.Context
import EpcisDigest.Proofs.Json.Fields
import EpcisDigest.Proofs.NameTable
import Mathlib.Logic.Relation

namespace EpcisDigest.Json

open Value (Within)

theorem forall_mem_replaced {α : Type} {p : α → Prop} {before after : List α} {old new : α}
    (all : ∀ item ∈ before ++ old :: after, p item) (own : p new) : ∀ item ∈ before ++ new :: after, p item := by
  rw [List.forall_mem_append, List.forall_mem_cons] at all ⊢
  exact ⟨all.1, own, all.2.2⟩

inductive Permuted : Value → Value → Prop where
  | object {members members' : List (String × Value)} (perm : members'.Perm members) :
      Permuted (.object members) (.object members')

def Reordered : Value → Value → Prop := Relation.ReflTransGen (Within Permuted)

theorem Permuted.not_scalar {value value' : Value} (within : Within Permuted value value') :
    value.isScalar = false ∧ value'.isScalar = false := by
  cases within with
  | here changed =>
    cases changed
    exact ⟨rfl, rfl⟩
  | member before after name within => exact ⟨rfl, rfl⟩
  | item before after within => exact ⟨rfl, rfl⟩

inductive NamesDistinct : Value → Prop where
  | object {members : List (String × Value)} (names : (members.map Prod.fst).Nodup)
      (inside : ∀ member ∈ members, NamesDistinct member.2) : NamesDistinct (.object members)
  | array {items : List Value} (inside : ∀ item ∈ items, NamesDistinct item) : NamesDistinct (.array items)
  | scalar {value : Value} (isScalar : value.isScalar = true) : NamesDistinct value

theorem NamesDistinct.names {members : List (String × Value)} (distinct : NamesDistinct (.object members)) :
    (members.map Prod.fst).Nodup := by
  cases distinct with
  | object names inside => exact names
  | scalar isScalar => cases isScalar

theorem NamesDistinct.member {members : List (String × Value)} (distinct : NamesDistinct (.object members))
    {member : String × Value} (isMember : member ∈ members) : NamesDistinct member.2 := by
  cases distinct with
  | object names inside => exact inside member isMember
  | scalar isScalar => cases isScalar

theorem NamesDistinct.item {items : List Value} (distinct : NamesDistinct (.array items)) {item : Value}
    (isItem : item ∈ items) : NamesDistinct item := by
  cases distinct with
  | array inside => exact inside item isItem
  | scalar isScalar => cases isScalar

theorem NamesDistinct.within {value value' : Value} (within : Within Permuted value value')
    (distinct : NamesDistinct value) : NamesDistinct value' := by
  induction within with
  | here changed =>
    cases changed with
    | object perm =>
      apply NamesDistinct.object
      · exact (perm.map Prod.fst).nodup_iff.mpr distinct.names
      · exact fun member isMember => distinct.member (perm.mem_iff.mp isMember)
  | member before after name within ih =>
    have names := distinct.names
    have inside := ih (distinct.member List.mem_append_cons_self)
    apply NamesDistinct.object
    · simpa using names
    · exact forall_mem_replaced (fun _ isMember => distinct.member isMember) inside
  | item before after within ih =>
    have inside := ih (distinct.item List.mem_append_cons_self)
    exact NamesDistinct.array (forall_mem_replaced (fun _ isItem => distinct.item isItem) inside)

section Context

theorem bindMember_comm (namespaces : Namespaces) {a b : String × Value} (different : a.1 ≠ b.1) :
    mergeContext.bindMember (mergeContext.bindMember namespaces a) b =
      mergeContext.bindMember (mergeContext.bindMember namespaces b) a := by
  obtain ⟨nameA, valueA⟩ := a
  obtain ⟨nameB, valueB⟩ := b
  cases valueA <;> cases valueB <;> first
    | rfl
    | exact NameTable.insert_comm namespaces different _ _

theorem bindMember_of_not_scalar (namespaces : Namespaces) (name : String) {value : Value}
    (notScalar : value.isScalar = false) : mergeContext.bindMember namespaces (name, value) = namespaces := by
  cases value <;> first
    | rfl
    | cases notScalar

theorem mergeContext_within {value value' : Value} (within : Within Permuted value value')
    (distinct : NamesDistinct value) (namespaces : Namespaces) :
    mergeContext namespaces value = mergeContext namespaces value' := by
  induction within generalizing namespaces with
  | here changed =>
    cases changed with
    | object perm =>
      rw [mergeContext, mergeContext]
      apply perm.symm.foldl_eq'
      intro a memberA b memberB namespaces
      by_cases same : a.1 = b.1
      · rw [List.inj_on_of_nodup_map distinct.names memberA memberB same]
      · exact bindMember_comm namespaces same
  | member before after name within ih =>
    have notScalar := Permuted.not_scalar within
    rw [mergeContext, mergeContext, List.foldl_append, List.foldl_append, List.foldl_cons, List.foldl_cons,
      bindMember_of_not_scalar _ name notScalar.1, bindMember_of_not_scalar _ name notScalar.2]
  | item before after within ih =>
    have inside := ih (distinct.item List.mem_append_cons_self)
    rw [mergeContext, mergeContext, mergeContexts_eq, mergeContexts_eq, List.foldl_append, List.foldl_append,
      List.foldl_cons, List.foldl_cons, inside]

theorem get?_eq_head? (name : String) (members : List (String × Value)) :
    Entries.get? name members = (members.filter fun member => member.1 == name).head?.map Prod.snd := by
  rw [Entries.get?, List.head?_filter]

theorem eventNamespaces_perm {members members' : List (String × Value)} (names : (members.map Prod.fst).Nodup)
    (perm : members'.Perm members) (namespaces : Namespaces) :
    eventNamespaces namespaces (.object members) = eventNamespaces namespaces (.object members') := by
  have same := filter_key_perm names perm (· == "@context")
    (fun x y isX isY => (beq_iff_eq.mp isX).trans (beq_iff_eq.mp isY).symm)
  rw [eventNamespaces, eventNamespaces, Value.member?, Value.member?, get?_eq_head?, get?_eq_head?, same]

theorem eventNamespaces_member (before after : List (String × Value)) {name : String} {value value' : Value}
    {namespaces : Namespaces}
    (merged : name = "@context" → mergeContext namespaces value = mergeContext namespaces value') :
    eventNamespaces namespaces (.object (before ++ (name, value) :: after)) =
      eventNamespaces namespaces (.object (before ++ (name, value') :: after)) := by
  rw [eventNamespaces, eventNamespaces, Value.member?, Value.member?, Entries.get?, Entries.get?,
    List.find?_append, List.find?_append, List.find?_cons, List.find?_cons]
  cases before.find? fun member => member.1 == "@context" with
  | some member => rfl
  | none =>
    cases context : name == "@context" with
    | true => exact merged (beq_iff_eq.mp context)
    | false => rfl

theorem eventNamespaces_within {members : List (String × Value)} {event' : Value}
    (within : Within Permuted (.object members) event') (distinct : NamesDistinct (.object members))
    (namespaces : Namespaces) : eventNamespaces namespaces (.object members) = eventNamespaces namespaces event' := by
  generalize written : Value.object members = event at within distinct
  cases within with
  | here changed =>
    cases changed with
    | object perm => exact eventNamespaces_perm distinct.names perm namespaces
  | member before after name within =>
    apply eventNamespaces_member
    exact fun _ => mergeContext_within within (distinct.member List.mem_append_cons_self) namespaces
  | item before after within => cases written

theorem exists_trees (settings : Settings) {namespaces : Namespaces} {members members' : List (String × Value)}
    (spaces : eventNamespaces namespaces (.object members) = eventNamespaces namespaces (.object members'))
    (same : (canonicalForm settings (eventNamespaces namespaces (.object members))
        (objectFields settings members)).toOption =
      (canonicalForm settings (eventNamespaces namespaces (.object members))
        (objectFields settings members')).toOption) :
    ∃ tree tree', eventTree settings namespaces (.object members) = .ok tree ∧
      eventTree settings namespaces (.object members') = .ok tree' ∧
      (tree.canonicalForm settings).toOption = (tree'.canonicalForm settings).toOption := by
  refine ⟨EventTree.ofFields (eventNamespaces namespaces (.object members)) (objectFields settings members),
    EventTree.ofFields (eventNamespaces namespaces (.object members')) (objectFields settings members'), rfl, rfl, ?_⟩
  rw [← spaces, EventTree.canonicalForm_ofFields, EventTree.canonicalForm_ofFields]
  exact same

end Context

section Tame

variable (settings : Settings) (namespaces : Namespaces)

structure PlainNames (names : List String) : Prop where
  notSynthetic : ∀ name ∈ names, settings.isExcluded name = false → isSynthetic name = false
  plain : ∀ name ∈ names, settings.isExcluded name = false →
    Text.contains '=' (qualifiedName namespaces name) = false
  distinct : ∀ name ∈ names, ∀ other ∈ names, settings.isExcluded name = false → settings.isExcluded other = false →
    qualifiedName namespaces name = qualifiedName namespaces other → name = other

/-- Outside excluded members names are plain, and the items of an array are all scalars or all objects with
    fields. -/
inductive Tame : Value → Prop where
  | object {members : List (String × Value)} (names : PlainNames settings namespaces (members.map Prod.fst))
      (inside : ∀ member ∈ members, settings.isExcluded member.1 = false → Tame member.2) : Tame (.object members)
  | scalars {items : List Value} (scalars : ∀ item ∈ items, item.isScalar = true) : Tame (.array items)
  | objects {items : List Value}
      (objects : ∀ item ∈ items, ∃ members, item = .object members ∧ objectFields settings members ≠ [])
      (inside : ∀ item ∈ items, Tame item) : Tame (.array items)
  | scalar {value : Value} (isScalar : value.isScalar = true) : Tame value

variable {settings namespaces}

theorem Tame.names {members : List (String × Value)} (tame : Tame settings namespaces (.object members)) :
    PlainNames settings namespaces (members.map Prod.fst) := by
  cases tame with
  | object names inside => exact names
  | scalar isScalar => cases isScalar

theorem Tame.member {members : List (String × Value)} (tame : Tame settings namespaces (.object members))
    {member : String × Value} (isMember : member ∈ members) (shown : settings.isExcluded member.1 = false) :
    Tame settings namespaces member.2 := by
  cases tame with
  | object names inside => exact inside member isMember shown
  | scalar isScalar => cases isScalar

theorem Tame.item {items : List Value} (tame : Tame settings namespaces (.array items)) {item : Value}
    (isItem : item ∈ items) : Tame settings namespaces item := by
  cases tame with
  | scalars scalars => exact Tame.scalar (scalars item isItem)
  | objects objects inside => exact inside item isItem
  | scalar isScalar => cases isScalar

theorem inherited_tame :
    Inherited settings fun value => NamesDistinct value ∧ Tame settings namespaces value where
  member := fun held isMember shown => ⟨held.1.member isMember, held.2.member isMember shown⟩
  item := fun held isItem => ⟨held.1.item isItem, held.2.item isItem⟩

theorem mem_valueFields_scalar {value : Value} (isScalar : value.isScalar = true) {name : String} {field : Field}
    (member : field ∈ valueFields settings name value) : field.name = some name ∧ field.hasChildren = false := by
  cases value with
  | object members => cases isScalar
  | array items => cases isScalar
  | bool value =>
    cases value <;>
    · rw [List.mem_singleton.mp member]
      exact ⟨rfl, rfl⟩
  | _ =>
    rw [List.mem_singleton.mp member]
    exact ⟨rfl, rfl⟩

theorem mem_memberFields {name : String} {value : Value} {field : Field}
    (member : field ∈ memberFields settings name value) :
    settings.isExcluded name = false ∧ field ∈ valueFields settings name value := by
  rw [memberFields_eq, unlessExcluded] at member
  split at member
  · cases member
  · rename_i shown
    exact ⟨Bool.eq_false_iff.mpr shown, member⟩

/-- The fields of one member have its name, and all of them have children or none has. -/
theorem Tame.valueFields_alike {value : Value} (tame : Tame settings namespaces value) (name : String) :
    ∃ hasChildren, ∀ field ∈ valueFields settings name value,
      field.name = some name ∧ field.hasChildren = hasChildren := by
  have single : ∀ fields : List Field, ∃ hasChildren, ∀ field ∈ [Field.node name fields],
      field.name = some name ∧ field.hasChildren = hasChildren := by
    intro fields
    refine ⟨(Field.node name fields).hasChildren, fun field member => ?_⟩
    rw [List.mem_singleton.mp member]
    exact ⟨rfl, rfl⟩
  have array : ∀ {items : List Value} (hasChildren : Bool), (∀ item ∈ items, ∀ nested, item ≠ .array nested) →
      (∀ item ∈ items, ∀ field ∈ valueFields settings name item,
        field.name = some name ∧ field.hasChildren = hasChildren) →
      ∃ hasChildren, ∀ field ∈ valueFields settings name (.array items),
        field.name = some name ∧ field.hasChildren = hasChildren := by
    intro items hasChildren flat alike
    rw [valueFields]
    cases ListStyle.ofName name with
    | named entry => exact single _
    | unnamed => exact single _
    | repeated =>
      refine ⟨hasChildren, fun field member => ?_⟩
      rw [ListStyle.enclose, itemFields_repeated settings name flat] at member
      obtain ⟨item, isItem, inside⟩ := List.mem_flatMap.mp member
      exact alike item isItem field (mem_memberFields inside).2
  cases tame with
  | object names inside => exact single _
  | scalar isScalar => exact ⟨false, fun field member => mem_valueFields_scalar isScalar member⟩
  | scalars scalars =>
    apply array false
    · rintro item isItem nested rfl
      exact Bool.false_ne_true (scalars _ isItem)
    · exact fun item isItem field member => mem_valueFields_scalar (scalars item isItem) member
  | objects objects inside =>
    apply array true
    · rintro item isItem nested rfl
      obtain ⟨members, written, _⟩ := objects _ isItem
      cases written
    · intro item isItem field member
      obtain ⟨members, rfl, fields⟩ := objects item isItem
      rw [List.mem_singleton.mp member]
      refine ⟨rfl, ?_⟩
      simpa [Field.hasChildren, Field.node] using fields

theorem objectFields_eq (members : List (String × Value)) :
    objectFields settings members = members.flatMap fun member => memberFields settings member.1 member.2 := by
  induction members with
  | nil => rfl
  | cons member members ih => rw [objectFields, ih, List.flatMap_cons]

theorem mem_objectFields {members : List (String × Value)} (tame : Tame settings namespaces (.object members))
    {field : Field} (isField : field ∈ objectFields settings members) :
    ∃ member ∈ members, settings.isExcluded member.1 = false ∧ field ∈ valueFields settings member.1 member.2 ∧
      field.name = some member.1 := by
  rw [objectFields_eq] at isField
  obtain ⟨member, isMember, inside⟩ := List.mem_flatMap.mp isField
  obtain ⟨shown, inside⟩ := mem_memberFields inside
  obtain ⟨_, alike⟩ := (tame.member isMember shown).valueFields_alike member.1
  exact ⟨member, isMember, shown, inside, (alike field inside).1⟩

theorem Tame.apart {members : List (String × Value)} (tame : Tame settings namespaces (.object members))
    (distinct : NamesDistinct (.object members)) : Apart namespaces (objectFields settings members) where
  named := by
    intro a isField
    obtain ⟨member, isMember, shown, _, name⟩ := mem_objectFields tame isField
    have isName : member.1 ∈ members.map Prod.fst := List.mem_map_of_mem isMember
    exact ⟨member.1, name, tame.names.notSynthetic _ isName shown, tame.names.plain _ isName shown⟩
  distinct := by
    intro a isFieldA b isFieldB x y nameA nameB same
    obtain ⟨member, isMember, shown, _, name⟩ := mem_objectFields tame isFieldA
    obtain ⟨other, isOther, shown', _, name'⟩ := mem_objectFields tame isFieldB
    cases nameA.symm.trans name
    cases nameB.symm.trans name'
    exact tame.names.distinct _ (List.mem_map_of_mem isMember) _ (List.mem_map_of_mem isOther) shown shown' same
  hasChildren := by
    intro a isFieldA b isFieldB same
    obtain ⟨member, isMember, shown, inside, name⟩ := mem_objectFields tame isFieldA
    obtain ⟨other, isOther, _, inside', name'⟩ := mem_objectFields tame isFieldB
    rw [name, name'] at same
    cases List.inj_on_of_nodup_map distinct.names isMember isOther (Option.some.inj same)
    obtain ⟨_, alike⟩ := (tame.member isMember shown).valueFields_alike member.1
    rw [(alike a inside).2, (alike b inside').2]

theorem filter_objectFields {members : List (String × Value)} (tame : Tame settings namespaces (.object members))
    (name : Option String) {others : List (String × Value)} (within : ∀ member ∈ others, member ∈ members) :
    (objectFields settings others).filter (fun field => field.name == name) =
      objectFields settings (others.filter fun member => some member.1 == name) := by
  induction others with
  | nil => rfl
  | cons member others ih =>
    have isMember := within member List.mem_cons_self
    have own : ∀ field ∈ memberFields settings member.1 member.2, field.name = some member.1 := by
      intro field inside
      obtain ⟨shown, inside⟩ := mem_memberFields inside
      obtain ⟨_, alike⟩ := (tame.member isMember shown).valueFields_alike member.1
      exact (alike field inside).1
    rw [objectFields, List.filter_append, ih fun other later => within other (List.mem_cons_of_mem _ later),
      List.filter_cons]
    by_cases named : (some member.1 == name) = true
    · have all : (memberFields settings member.1 member.2).filter (fun field => field.name == name) =
          memberFields settings member.1 member.2 :=
        List.filter_eq_self.mpr fun field inside => own field inside ▸ named
      rw [if_pos named, all]
      rfl
    · have none : (memberFields settings member.1 member.2).filter (fun field => field.name == name) = [] :=
        List.filter_eq_nil_iff.mpr fun field inside => own field inside ▸ named
      rw [if_neg named, none]
      rfl

theorem rearranged_objectFields {members members' : List (String × Value)} (perm : members'.Perm members)
    (distinct : NamesDistinct (.object members)) (tame : Tame settings namespaces (.object members)) :
    Rearranged (objectFields settings members) (objectFields settings members') where
  perm := by
    rw [objectFields_eq, objectFields_eq]
    exact perm.flatMap_right _
  classes := by
    intro name
    have same := filter_key_perm distinct.names perm (fun x => some x == name)
      (fun x y isX isY => Option.some.inj ((beq_iff_eq.mp isX).trans (beq_iff_eq.mp isY).symm))
    rw [filter_objectFields tame name fun member isMember => perm.mem_iff.mp isMember,
      filter_objectFields tame name fun member isMember => isMember, same]

theorem congruence_alike :
    Congruence (Alike settings namespaces some) (Alike settings namespaces Entry.sorted?) where
  refl := Alike.refl some
  append first second := first.append second
  weaken same := same.sorted
  node name value _ _ below := below.node name value

/-- Reordering the members of objects keeps the lines of a tame value at every depth. -/
theorem related_within {value value' : Value} (within : Within Permuted value value')
    (distinct : NamesDistinct value) (tame : Tame settings namespaces value) :
    Related settings (Alike settings namespaces some) (Alike settings namespaces Entry.sorted?) value value' := by
  apply within.related congruence_alike inherited_tame _ ⟨distinct, tame⟩
  rintro value value' ⟨distinct, tame⟩ changed
  cases changed with
  | object perm => exact Related.object ((rearranged_objectFields perm distinct tame).alike (tame.apart distinct))

theorem PlainNames.perm {names names' : List String} (plain : PlainNames settings namespaces names)
    (perm : names'.Perm names) : PlainNames settings namespaces names' where
  notSynthetic name isName := plain.notSynthetic name (perm.mem_iff.mp isName)
  plain name isName := plain.plain name (perm.mem_iff.mp isName)
  distinct name isName other isOther := plain.distinct name (perm.mem_iff.mp isName) other (perm.mem_iff.mp isOther)

theorem Tame.within {value value' : Value} (within : Within Permuted value value') (distinct : NamesDistinct value)
    (tame : Tame settings namespaces value) : Tame settings namespaces value' := by
  induction within with
  | here changed =>
    cases changed with
    | object perm =>
      apply Tame.object (tame.names.perm (perm.map Prod.fst))
      exact fun member isMember shown => tame.member (perm.mem_iff.mp isMember) shown
  | member before after name within ih =>
    have inside := ih (distinct.member List.mem_append_cons_self)
    apply Tame.object
    · simpa using tame.names
    · apply forall_mem_replaced fun _ isMember shown => tame.member isMember shown
      exact fun shown => inside (tame.member List.mem_append_cons_self shown)
  | @item value value' before after within ih =>
    have distinctItem := distinct.item List.mem_append_cons_self
    have tameItem := tame.item List.mem_append_cons_self
    cases tame with
    | scalar isScalar => cases isScalar
    | scalars scalars =>
      have isScalar := scalars _ List.mem_append_cons_self
      rw [(Permuted.not_scalar within).1] at isScalar
      cases isScalar
    | objects objects inside =>
      apply Tame.objects (forall_mem_replaced objects _) (forall_mem_replaced inside (ih distinctItem tameItem))
      obtain ⟨members, rfl, fields⟩ := objects value List.mem_append_cons_self
      cases related_within within distinctItem tameItem with
      | object alike =>
        refine ⟨_, rfl, fun none => fields ?_⟩
        have isEmpty := alike.isEmpty
        rw [none] at isEmpty
        exact List.isEmpty_iff.mp isEmpty

structure Keeps (settings : Settings) (namespaces spaces : Namespaces) (members : List (String × Value))
    (event' : Value) : Prop where
  distinct : NamesDistinct event'
  tame : Tame settings spaces event'
  namespaces : eventNamespaces namespaces event' = eventNamespaces namespaces (.object members)
  alike : ∃ members', event' = .object members' ∧
    Alike settings spaces Entry.sorted? (objectFields settings members) (objectFields settings members')

theorem keeps_reordered {members : List (String × Value)} {event' : Value} {spaces : Namespaces}
    (distinct : NamesDistinct (.object members)) (tame : Tame settings spaces (.object members))
    (reordered : Reordered (.object members) event') : Keeps settings namespaces spaces members event' := by
  induction reordered with
  | refl => exact ⟨distinct, tame, rfl, members, rfl, Alike.refl _ _⟩
  | tail _ within kept =>
    obtain ⟨members', rfl, alike⟩ := kept.alike
    have bound := eventNamespaces_within within kept.distinct namespaces
    have tame' := kept.tame.within within kept.distinct
    have related := related_within within kept.distinct kept.tame
    refine ⟨kept.distinct.within within, tame', bound.symm.trans kept.namespaces, ?_⟩
    cases related with
    | object next => exact ⟨_, rfl, alike.trans next⟩

/-- The order of members does not matter in a tame event: its tree has the same canonical form, or none either. -/
theorem canonicalForm_reordered {members : List (String × Value)} {event' : Value}
    (distinct : NamesDistinct (.object members))
    (tame : ∀ tree, eventTree settings namespaces (.object members) = .ok tree →
      Tame settings tree.namespaces (.object members))
    (reordered : Reordered (.object members) event') :
    ∃ tree tree', eventTree settings namespaces (.object members) = .ok tree ∧
      eventTree settings namespaces event' = .ok tree' ∧
      (tree.canonicalForm settings).toOption = (tree'.canonicalForm settings).toOption := by
  have built : ∀ members, eventTree settings namespaces (.object members) =
      .ok (EventTree.ofFields (eventNamespaces namespaces (.object members)) (objectFields settings members)) :=
    fun _ => rfl
  have spaces : (EventTree.ofFields (eventNamespaces namespaces (.object members))
      (objectFields settings members)).namespaces = eventNamespaces namespaces (.object members) :=
    EventTree.namespaces_addFields _ _ _
  have tame := tame _ (built members)
  rw [spaces] at tame
  have kept : Keeps settings namespaces (eventNamespaces namespaces (.object members)) members event' :=
    keeps_reordered distinct tame reordered
  obtain ⟨members', rfl, alike⟩ := kept.alike
  exact exists_trees settings kept.namespaces.symm alike.canonicalForm_eq

end Tame

def partsMembers : List (String × Value) :=
  [("type", .string "ObjectEvent"),
    ("example:parts", .array [.object [("b", .string "1"), ("a", .null)], .object [("c", .bool true)]]),
    ("action", .string "OBSERVE")]

def reorderedParts : List (String × Value) :=
  [("example:parts", .array [.object [("a", .null), ("b", .string "1")], .object [("c", .bool true)]]),
    ("type", .string "ObjectEvent"),
    ("action", .string "OBSERVE")]

theorem reordered_parts : Reordered (.object partsMembers) (.object reorderedParts) := by
  have inside : Within Permuted (.array [.object [("b", .string "1"), ("a", .null)], .object [("c", .bool true)]])
      (.array [.object [("a", .null), ("b", .string "1")], .object [("c", .bool true)]]) :=
    .item [] [.object [("c", .bool true)]] (.here (.object (.swap _ _ _)))
  have first := Within.member [("type", .string "ObjectEvent")] [("action", .string "OBSERVE")] "example:parts" inside
  exact (Relation.ReflTransGen.single first).tail (.here (.object (.swap _ _ _)))

theorem namesDistinct_parts : NamesDistinct (.object partsMembers) := by
  apply NamesDistinct.object (by decide)
  simp only [partsMembers, List.forall_mem_cons, List.not_mem_nil, false_implies, implies_true, and_true]
  refine ⟨.scalar rfl, .array ?_, .scalar rfl⟩
  simp only [List.forall_mem_cons, List.not_mem_nil, false_implies, implies_true, and_true]
  refine ⟨.object (by decide) ?_, .object (by decide) ?_⟩
  · simp only [List.forall_mem_cons, List.not_mem_nil, false_implies, implies_true, and_true]
    exact ⟨.scalar rfl, .scalar rfl⟩
  · simp only [List.forall_mem_cons, List.not_mem_nil, false_implies, implies_true, and_true]
    exact .scalar rfl

theorem tame_parts : Tame Settings.standard NameTable.empty (.object partsMembers) := by
  apply Tame.object ⟨by decide +kernel, by decide +kernel, by decide +kernel⟩
  simp only [partsMembers, List.forall_mem_cons, List.not_mem_nil, false_implies, implies_true, and_true]
  refine ⟨fun _ => .scalar rfl, fun _ => .objects ?_ ?_, fun _ => .scalar rfl⟩
  · simp only [List.forall_mem_cons, List.not_mem_nil, false_implies, implies_true, and_true]
    exact ⟨⟨_, rfl, by decide +kernel⟩, ⟨_, rfl, by decide +kernel⟩⟩
  · simp only [List.forall_mem_cons, List.not_mem_nil, false_implies, implies_true, and_true]
    refine ⟨.object ⟨by decide +kernel, by decide +kernel, by decide +kernel⟩ ?_,
      .object ⟨by decide +kernel, by decide +kernel, by decide +kernel⟩ ?_⟩
    · simp only [List.forall_mem_cons, List.not_mem_nil, false_implies, implies_true, and_true]
      exact ⟨fun _ => .scalar rfl, fun _ => .scalar rfl⟩
    · simp only [List.forall_mem_cons, List.not_mem_nil, false_implies, implies_true, and_true]
      exact fun _ => .scalar rfl

theorem canonicalForm_reordered_parts :
    (NamesDistinct (.object partsMembers) ∧
      (∀ tree, eventTree Settings.standard NameTable.empty (.object partsMembers) = .ok tree →
        Tame Settings.standard tree.namespaces (.object partsMembers)) ∧
      Reordered (.object partsMembers) (.object reorderedParts)) ∧
    ∃ tree tree', eventTree Settings.standard NameTable.empty (.object partsMembers) = .ok tree ∧
      eventTree Settings.standard NameTable.empty (.object reorderedParts) = .ok tree' ∧
      (tree.canonicalForm Settings.standard).toOption = (tree'.canonicalForm Settings.standard).toOption := by
  have tame : ∀ tree, eventTree Settings.standard NameTable.empty (.object partsMembers) = .ok tree →
      Tame Settings.standard tree.namespaces (.object partsMembers) := by
    rintro tree ⟨⟩
    rw [EventTree.ofFields, EventTree.namespaces_addFields]
    exact tame_parts
  exact ⟨⟨namesDistinct_parts, tame, reordered_parts⟩,
    canonicalForm_reordered namesDistinct_parts tame reordered_parts⟩

end EpcisDigest.Json
