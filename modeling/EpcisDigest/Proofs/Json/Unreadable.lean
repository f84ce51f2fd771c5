import EpcisDigest.Proofs.Json.Turns

namespace EpcisDigest.Json

open Reading Input

section Parts

variable {α : Type} {part : Reader α} {closing : UInt8} {bytes : List UInt8}

theorem parts?_refused (refused : part bytes = none) (count : Nat) : parts? part closing count bytes = none := by
  cases count <;> simp only [parts?, refused, bind, Option.bind]

theorem parts?_refusedNext (notComma : (0x2C : UInt8) ≠ closing) {first : α} {after : Blanks} {rest : List UInt8}
    (read : part bytes = some (first, after.val ++ 0x2C :: rest))
    (refused : ∀ left, parts? part closing left rest = none) (count : Nat) :
    parts? part closing count bytes = none := by
  cases count with
  | zero => rfl
  | succ left => rw [parts?_succ left read rfl, if_neg notComma, if_pos rfl, refused, Option.map_none]

end Parts

mutual

/-- A value that is not readable is refused, wherever in it the reason is. -/
theorem value?_unreadable (count depth : Nat) (rest : List UInt8) :
    ∀ written : Written, ¬ written.Readable → written.depth ≤ depth → written.bytes.length ≤ count →
      value? count depth (written.bytes ++ rest) = none
  | .null, unreadable, _, _ => absurd trivial unreadable
  | .bool _, unreadable, _, _ => absurd trivial unreadable
  | .number _, unreadable, _, _ => absurd trivial unreadable
  | .string _, unreadable, _, _ => absurd trivial unreadable
  | .array blank items, unreadable, deep, fits => by
    rw [Written.depth] at deep
    obtain ⟨below, rfl⟩ : ∃ below, depth = below + 1 := ⟨depth - 1, by omega⟩
    have inside := contents?_itemsUnreadable count below rest items blank unreadable (Nat.le_of_succ_le_succ deep)
      (by simp only [Written.bytes, List.length_cons, List.length_append] at fits; omega)
    simp only [Written.bytes, List.cons_append, List.append_assoc, List.nil_append, value?,
      skipSpaces_cons (show isSpace 0x5B = false from rfl), inside, Option.map_none]
  | .object blank members, unreadable, deep, fits => by
    rw [Written.depth] at deep
    obtain ⟨below, rfl⟩ : ∃ below, depth = below + 1 := ⟨depth - 1, by omega⟩
    have deep := Nat.le_of_succ_le_succ deep
    have fits : (membersBytes true members).length ≤ count := by
      simp only [Written.bytes, List.length_cons, List.length_append] at fits
      omega
    simp only [Written.bytes, List.cons_append, List.append_assoc, List.nil_append, value?,
      skipSpaces_cons (show isSpace 0x7B = false from rfl), bind, Option.bind]
    by_cases readable : MembersReadable members
    · have meaningless : ofMembers? (memberValues members) = none := by
        rcases ofMembers?_eq (memberValues members) with ⟨_, only⟩ | ⟨nothing, _⟩
        · exact absurd ⟨only, readable⟩ unreadable
        · exact nothing
      simp only [contents?_members count below rest members blank readable deep fits, meaningless]
    · simp only [contents?_membersUnreadable count below rest members blank readable deep fits]

theorem contents?_itemsUnreadable (count depth : Nat) (rest : List UInt8) :
    ∀ (items : WrittenItems) (blank : Blanks), ¬ ItemsReadable items → itemsDepth items ≤ depth →
      (itemsBytes true items).length ≤ count →
      contents? (value? count depth) 0x5D count (blank.val ++ (itemsBytes true items ++ 0x5D :: rest)) = none
  | [], _, unreadable, _, _ => absurd trivial unreadable
  | ⟨before, value, after⟩ :: items, blank, unreadable, deep, fits => by
    have refused := parts?_itemsUnreadable count depth rest (⟨before, value, after⟩ :: items) unreadable deep fits count
    obtain ⟨b, tail, split, leads⟩ := value.exists_lead
    simp only [itemsBytes, separator, ite_true, List.nil_append, split, List.cons_append,
      List.append_assoc] at refused ⊢
    rw [contents?_parts (value?_blanks count depth) count blank before leads.starts.1 leads.starts.2.2.1, refused]

theorem parts?_itemsUnreadable (count depth : Nat) (rest : List UInt8) :
    ∀ items : WrittenItems, ¬ ItemsReadable items → itemsDepth items ≤ depth →
      (itemsBytes true items).length ≤ count → ∀ parts,
      parts? (value? count depth) 0x5D parts (itemsBytes true items ++ 0x5D :: rest) = none
  | [], unreadable, _, _, _ => absurd trivial unreadable
  | ⟨before, value, after⟩ :: items, unreadable, deep, fits, parts => by
    rw [itemsDepth] at deep
    have sizes : value.bytes.length ≤ count ∧ (itemsBytes false items).length ≤ count := by
      simp only [itemsBytes, List.length_append] at fits
      omega
    simp only [itemsBytes, separator, ite_true, List.nil_append, List.append_assoc]
    by_cases readable : value.Readable
    · have others : ¬ ItemsReadable items := fun others => unreadable ⟨readable, others⟩
      have read := value?_written count depth
        (delimited_blanks after (delimited_items items rest)) value readable (by omega) sizes.1
      rw [← value?_blanks count depth before] at read
      cases items with
      | nil => exact absurd trivial others
      | cons next items =>
        have tail := parts?_itemsUnreadable count depth rest (next :: items) others (by omega)
          (by rw [itemsBytes_false, List.length_cons] at sizes; omega)
        rw [itemsBytes_false, List.cons_append] at read ⊢
        exact parts?_refusedNext (by decide) read tail parts
    · apply parts?_refused
      rw [value?_blanks]
      exact value?_unreadable count depth _ value readable (by omega) sizes.1

theorem contents?_membersUnreadable (count depth : Nat) (rest : List UInt8) :
    ∀ (members : WrittenMembers) (blank : Blanks), ¬ MembersReadable members → membersDepth members ≤ depth →
      (membersBytes true members).length ≤ count →
      contents? (member? (value? count depth)) 0x7D count
        (blank.val ++ (membersBytes true members ++ 0x7D :: rest)) = none
  | [], _, unreadable, _, _ => absurd trivial unreadable
  | (name, ⟨before, value, after⟩) :: members, blank, unreadable, deep, fits => by
    have refused := parts?_membersUnreadable count depth rest ((name, ⟨before, value, after⟩) :: members) unreadable
      deep fits count
    simp only [membersBytes, separator, ite_true, List.nil_append, nameBytes, WrittenString.quoted,
      List.cons_append, List.append_assoc] at refused ⊢
    rw [contents?_parts (member?_blanks _) count blank name.before rfl (by decide), refused]

theorem parts?_membersUnreadable (count depth : Nat) (rest : List UInt8) :
    ∀ members : WrittenMembers, ¬ MembersReadable members → membersDepth members ≤ depth →
      (membersBytes true members).length ≤ count → ∀ parts,
      parts? (member? (value? count depth)) 0x7D parts (membersBytes true members ++ 0x7D :: rest) = none
  | [], unreadable, _, _, _ => absurd trivial unreadable
  | (name, ⟨before, value, after⟩) :: members, unreadable, deep, fits, parts => by
    rw [membersDepth] at deep
    have sizes : value.bytes.length ≤ count ∧ (membersBytes false members).length ≤ count := by
      simp only [membersBytes, List.length_append] at fits
      omega
    simp only [membersBytes, separator, ite_true, List.nil_append, List.append_assoc]
    by_cases readable : value.Readable
    · have others : ¬ MembersReadable members := fun others => unreadable ⟨readable, others⟩
      have read := value?_written count depth
        (delimited_blanks after (delimited_members members rest)) value readable (by omega) sizes.1
      rw [← value?_blanks count depth before] at read
      have read := member?_written name read
      cases members with
      | nil => exact absurd trivial others
      | cons next members =>
        have tail := parts?_membersUnreadable count depth rest (next :: members) others (by omega)
          (by rw [membersBytes_false, List.length_cons] at sizes; omega)
        rw [membersBytes_false, List.cons_append] at read ⊢
        exact parts?_refusedNext (by decide) read tail parts
    · apply parts?_refused
      rw [member?_named, value?_blanks, value?_unreadable count depth _ value readable (by omega) sizes.1]
      rfl

end

theorem parse?_unreadable {written : Written} (unreadable : ¬ written.Readable) (deep : written.depth ≤ maxDepth) :
    parse? written.bytes = none := by
  have refused := value?_unreadable written.bytes.length maxDepth [] written unreadable deep (Nat.le_refl _)
  rw [List.append_nil] at refused
  simp only [parse?, refused, bind, Option.bind]

namespace Feeding

section Refused

variable {written : Written} {stop : UInt8} {feed : Feed}

theorem heldValue_refused (blank : Blanks) (ends : endsLiteral stop = true) (fits : written.bytes.length ≤ feed.limit)
    (deep : written.depth ≤ maxDepth) (unreadable : ¬ written.Readable) (rest : List UInt8) (offset : Nat) :
    ∃ feed', heldValue (feed.facing (blank.val ++ (written.bytes ++ stop :: rest)) offset) =
      .error .invalidValue feed' := by
  obtain ⟨offset', captured⟩ := capture_found blank written ends fits rest offset
  refine ⟨feed.facing (stop :: rest) offset', ?_⟩
  simp only [heldValue, bind, EStateM.bind, get_apply, reading, Feed.facing, captured,
    parse?_unreadable unreadable deep]
  rfl

theorem entry_refused (first : Bool) (blank before : Blanks) (ends : endsLiteral stop = true)
    (fits : written.bytes.length ≤ feed.limit) (deep : written.depth ≤ maxDepth) (unreadable : ¬ written.Readable)
    (rest : List UInt8) (offset : Nat) :
    ∃ feed', entry first (feed.facing (blank.val ++ (separator first ++ (before.val ++
        (written.bytes ++ stop :: rest)))) offset) = .error .invalidValue feed' := by
  obtain ⟨between, offset', begins⟩ := entry_begins feed first blank before written (stop :: rest) offset
  have phased : setPhase (.events false) (feed.facing (between.val ++ (written.bytes ++ stop :: rest)) offset') =
      .ok () (Feed.facing { feed with phase := .events false } (between.val ++ (written.bytes ++ stop :: rest))
        offset') := rfl
  obtain ⟨feed', refused⟩ := @heldValue_refused written stop { feed with phase := .events false } between ends fits
    deep unreadable rest offset'
  refine ⟨feed', ?_⟩
  rw [begins, element, bind_of_ok phased, bind_of_error refused]

end Refused

end Feeding

end EpcisDigest.Json
