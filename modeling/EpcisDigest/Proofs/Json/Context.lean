import EpcisDigest.Json.EventFields
import EpcisDigest.Proofs.NameTable

namespace EpcisDigest.Json

mutual

def Value.contextMembers : Value → List (String × Value)
  | .object members => members
  | .array items => contextMembersOf items
  | _ => []

def contextMembersOf : List Value → List (String × Value)
  | [] => []
  | item :: items => item.contextMembers ++ contextMembersOf items

end

def binding? (member : String × Value) : Option (String × String) :=
  member.2.text?.map fun uri => (member.1, uri)

def Value.bindings (context : Value) : List (String × String) :=
  context.contextMembers.filterMap binding?

mutual

theorem mergeContext_eq_foldl : ∀ (context : Value) (namespaces : Namespaces),
    mergeContext namespaces context = context.contextMembers.foldl mergeContext.bindMember namespaces
  | .object _, _ => rfl
  | .array items, namespaces => mergeContexts_eq_foldl items namespaces
  | .null, _ | .bool _, _ | .number _, _ | .string _, _ => rfl

theorem mergeContexts_eq_foldl : ∀ (items : List Value) (namespaces : Namespaces),
    mergeContexts namespaces items = (contextMembersOf items).foldl mergeContext.bindMember namespaces
  | [], _ => rfl
  | item :: items, namespaces => by
    rw [mergeContexts, contextMembersOf, List.foldl_append, mergeContext_eq_foldl item, mergeContexts_eq_foldl items]

end

theorem mergeContexts_eq (namespaces : Namespaces) (items : List Value) :
    mergeContexts namespaces items = items.foldl mergeContext namespaces := by
  induction items generalizing namespaces with
  | nil => rfl
  | cons item items ih => rw [mergeContexts, ih, List.foldl_cons]

theorem foldl_bindMember (members : List (String × Value)) (namespaces : Namespaces) :
    members.foldl mergeContext.bindMember namespaces =
      (members.filterMap binding?).foldl (fun table binding => table.insert binding.1 binding.2) namespaces := by
  induction members generalizing namespaces with
  | nil => rfl
  | cons member members ih =>
    obtain ⟨lead, value⟩ := member
    cases value <;> exact ih _

theorem get?_mergeContext (namespaces : Namespaces) (context : Value) (lead : String) :
    (mergeContext namespaces context).get? lead = (context.bindings.reverse.lookup lead).or (namespaces.get? lead) := by
  rw [mergeContext_eq_foldl, foldl_bindMember, NameTable.get?_foldl_insert, Value.bindings]

/-- A context that has been merged changes nothing when it is merged again. -/
theorem mergeContext_again (namespaces : Namespaces) (context : Value) :
    mergeContext (mergeContext namespaces context) context = mergeContext namespaces context := by
  apply NameTable.ext_get?
  intro lead
  rw [get?_mergeContext, get?_mergeContext, ← Option.or_assoc, Option.or_self]

/-- A prefix is bound to the text of the last member that has one for it, or to what it was bound to; the
    items of an array are merged in turn, and a context that has been merged changes nothing any more. -/
theorem mergeContext_lastBinding (namespaces : Namespaces) (context : Value) :
    (∀ lead, (mergeContext namespaces context).get? lead =
      (context.bindings.reverse.lookup lead).or (namespaces.get? lead)) ∧
    (∀ items, mergeContext namespaces (.array items) = items.foldl mergeContext namespaces) ∧
    mergeContext (mergeContext namespaces context) context = mergeContext namespaces context :=
  ⟨get?_mergeContext namespaces context, mergeContexts_eq namespaces, mergeContext_again namespaces context⟩

end EpcisDigest.Json
