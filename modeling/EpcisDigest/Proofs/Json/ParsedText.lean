import EpcisDigest.Proofs.Json.Parsing

namespace EpcisDigest.Json

theorem exists_blanks (bytes : List UInt8) : ∃ blank : Blanks, bytes = blank.val ++ skipSpaces bytes := by
  refine ⟨⟨bytes.takeWhile isSpace, ?_⟩, (List.takeWhile_append_dropWhile).symm⟩
  exact List.all_eq_true.mp List.all_takeWhile

theorem eq_append_of_keyword? {word : String} {value found : Value} {bytes rest : List UInt8}
    (h : keyword? word value bytes = some (found, rest)) :
    bytes = Text.bytesOf word ++ rest ∧ found = value := by
  unfold keyword? at h
  dsimp only at h
  split at h
  · rename_i isPrefix
    obtain ⟨tail, rfl⟩ := List.isPrefixOf_iff_prefix.mp isPrefix
    injection h with h
    injection h with value_eq rest_eq
    rw [List.drop_left] at rest_eq
    exact ⟨rest_eq ▸ rfl, value_eq.symm⟩
  · cases h

theorem exists_string_of_string? {bytes rest : List UInt8} {text : String}
    (h : string? bytes = some (text, rest)) :
    ∃ string : WrittenString, bytes = string.bytes ++ 0x22 :: rest ∧ string.text = text := by
  unfold string? at h
  split at h
  · rename_i closed
    injection h with h
    injection h with text_eq rest_eq
    obtain ⟨string, tail, rfl, text_eq', rfl⟩ := exists_writtenString_of_closed closed
    have behind : string.bytes ++ 0x22 :: tail = (string.bytes ++ [0x22]) ++ tail := by simp
    have size : string.bytes.length + 1 = (string.bytes ++ [0x22]).length := by simp
    rw [behind, size, List.drop_left] at rest_eq
    exact ⟨string, rest_eq ▸ rfl, text_eq'.trans text_eq⟩
  · cases h

theorem exists_scalar_of_scalar? {bytes rest : List UInt8} {value : Value}
    (h : scalar? bytes = some (value, rest)) :
    ∃ written : Written, written.IsScalar ∧ bytes = written.bytes ++ rest ∧ written.value = value := by
  unfold scalar? at h
  split at h
  · cases h
  · obtain ⟨found, read, same⟩ := Option.map_eq_some_iff.mp h
    obtain ⟨text, rest'⟩ := found
    injection same with value_eq rest_eq
    dsimp only at rest_eq
    subst value_eq rest_eq
    obtain ⟨string, rfl, rfl⟩ := exists_string_of_string? read
    refine ⟨.string string, trivial, ?_, rfl⟩
    simp only [Written.bytes, WrittenString.quoted, List.cons_append, List.append_assoc, List.nil_append]
  · obtain ⟨split, rfl⟩ := eq_append_of_keyword? h
    exact ⟨.null, trivial, split, rfl⟩
  · obtain ⟨split, rfl⟩ := eq_append_of_keyword? h
    exact ⟨.bool true, trivial, split, rfl⟩
  · obtain ⟨split, rfl⟩ := eq_append_of_keyword? h
    exact ⟨.bool false, trivial, split, rfl⟩
  · obtain ⟨found, read, same⟩ := Option.map_eq_some_iff.mp h
    obtain ⟨literal, rest'⟩ := found
    injection same with value_eq rest_eq
    dsimp only at rest_eq
    subst value_eq rest_eq
    obtain ⟨number, split, rfl⟩ := exists_writtenNumber_of_number? read
    exact ⟨.number number, trivial, split, rfl⟩

theorem Written.IsScalar.flat {written : Written} (isScalar : written.IsScalar) :
    written.depth = 0 ∧ written.Readable := by
  cases written with
  | array blank items => exact isScalar.elim
  | object blank members => exact isScalar.elim
  | _ => exact ⟨rfl, trivial⟩

theorem exists_name_of_member? {value : Reader Value} {bytes rest : List UInt8} {name : String}
    {found : Value} (h : member? value bytes = some ((name, found), rest)) :
    ∃ (written : Padded WrittenString) (behind : List UInt8), bytes = nameBytes written ++ behind ∧
      written.inner.text = name ∧ value behind = some (found, rest) := by
  obtain ⟨before, whole⟩ := exists_blanks bytes
  unfold member? at h
  split at h
  · rename_i inside quoted
    rw [quoted] at whole
    simp only [bind, Option.bind, pure] at h
    split at h
    · cases h
    · rename_i part read
      obtain ⟨text, after⟩ := part
      obtain ⟨string, closed, rfl⟩ := exists_string_of_string? read
      obtain ⟨blank, behind⟩ := exists_blanks after
      dsimp only at h
      split at h
      · rename_i rest' colon
        rw [colon] at behind
        split at h
        · cases h
        · rename_i part read'
          obtain ⟨value', rest'⟩ := part
          injection h with h
          injection h with member_eq rest_eq
          injection member_eq with name_eq value_eq
          dsimp only at value_eq rest_eq
          subst value_eq rest_eq
          refine ⟨⟨before, string, blank⟩, _, ?_, name_eq, read'⟩
          simp only [nameBytes, WrittenString.quoted, List.append_assoc, List.cons_append,
            List.nil_append]
          rw [whole, closed, behind]
      · cases h
  · cases h

section Parts

variable {α : Type} {part : Reader α} {closing : UInt8}

theorem parts?_cases {count : Nat} {bytes rest : List UInt8} {found : List α}
    (h : parts? part closing count bytes = some (found, rest)) :
    ∃ left first others after b tail, count = left + 1 ∧ found = first :: others ∧
      part bytes = some (first, (after : Blanks).val ++ b :: tail) ∧
      (b = closing ∧ others = [] ∧ tail = rest ∨
        b = 0x2C ∧ parts? part closing left tail = some (others, rest)) := by
  cases count with
  | zero => cases h
  | succ left =>
    simp only [parts?, bind, Option.bind, pure] at h
    split at h
    · cases h
    · rename_i piece read
      obtain ⟨first, behind⟩ := piece
      dsimp only at h
      obtain ⟨after, split⟩ := exists_blanks behind
      split at h
      · cases h
      · rename_i b tail stop
        rw [stop] at split
        subst split
        split at h
        · rename_i isClosing
          injection h with h
          injection h with found_eq rest_eq
          exact ⟨left, first, [], after, b, tail, rfl, found_eq.symm, read,
            .inl ⟨isClosing, rfl, rest_eq⟩⟩
        · split at h
          · rename_i isComma
            split at h
            · cases h
            · rename_i remaining more
              obtain ⟨others, rest'⟩ := remaining
              injection h with h
              injection h with found_eq rest_eq
              dsimp only at found_eq rest_eq
              subst rest_eq
              exact ⟨left, first, others, after, b, tail, rfl, found_eq.symm, read, .inr ⟨isComma, more⟩⟩
          · cases h

theorem contents?_cases {count : Nat} {bytes rest : List UInt8} {found : List α}
    (h : contents? part closing count bytes = some (found, rest)) :
    (∃ blank : Blanks, bytes = blank.val ++ closing :: rest ∧ found = []) ∨
      parts? part closing count bytes = some (found, rest) := by
  obtain ⟨blank, split⟩ := exists_blanks bytes
  unfold contents? at h
  split at h
  · cases h
  · rename_i b tail stop
    split at h
    · rename_i isClosing
      injection h with h
      injection h with found_eq rest_eq
      rw [stop, isClosing, rest_eq] at split
      exact .inl ⟨blank, split, found_eq.symm⟩
    · exact .inr h

end Parts

def ReadsValues (depth : Nat) (value : Reader Value) : Prop :=
  ∀ {bytes rest : List UInt8} {found : Value}, value bytes = some (found, rest) →
    ∃ (before : Blanks) (written : Written), bytes = before.val ++ (written.bytes ++ rest) ∧
      written.depth ≤ depth ∧ written.Readable ∧ written.value = found

theorem exists_items_of_parts? {depth : Nat} {value : Reader Value} (reads : ReadsValues depth value)
    {count : Nat} {bytes rest : List UInt8} {found : List Value}
    (h : parts? value 0x5D count bytes = some (found, rest)) :
    ∃ items : WrittenItems, items ≠ [] ∧ bytes = itemsBytes true items ++ 0x5D :: rest ∧
      itemsDepth items ≤ depth ∧ ItemsReadable items ∧ itemValues items = found := by
  induction count generalizing bytes found with
  | zero => cases h
  | succ count ih =>
    obtain ⟨left, first, others, after, b, tail, same, rfl, read, next⟩ := parts?_cases h
    cases same
    obtain ⟨before, written, rfl, deep, readable, rfl⟩ := reads read
    rcases next with ⟨rfl, rfl, rfl⟩ | ⟨rfl, more⟩
    · refine ⟨[⟨before, written, after⟩], List.cons_ne_nil _ _, ?_, ?_, ⟨readable, trivial⟩, rfl⟩
      · simp only [itemsBytes, separator, ite_true, List.nil_append, List.append_nil, List.append_assoc]
      · simpa only [itemsDepth, Nat.max_zero] using deep
    · obtain ⟨items, present, rfl, deep', readable', rfl⟩ := ih more
      obtain ⟨next, items, rfl⟩ := List.exists_cons_of_ne_nil present
      refine ⟨⟨before, written, after⟩ :: next :: items, List.cons_ne_nil _ _, ?_, Nat.max_le.mpr ⟨deep, deep'⟩,
        ⟨readable, readable'⟩, rfl⟩
      simp only [itemsBytes, separator, ite_true, Bool.false_eq_true, ite_false, List.nil_append,
        List.append_assoc, List.cons_append]

theorem exists_members_of_parts? {depth : Nat} {value : Reader Value} (reads : ReadsValues depth value)
    {count : Nat} {bytes rest : List UInt8} {found : List (String × Value)}
    (h : parts? (member? value) 0x7D count bytes = some (found, rest)) :
    ∃ members : WrittenMembers, members ≠ [] ∧ bytes = membersBytes true members ++ 0x7D :: rest ∧
      membersDepth members ≤ depth ∧ MembersReadable members ∧ memberValues members = found := by
  induction count generalizing bytes found with
  | zero => cases h
  | succ count ih =>
    obtain ⟨left, first, others, after, b, tail, same, rfl, read, next⟩ := parts?_cases h
    cases same
    obtain ⟨text, value'⟩ := first
    obtain ⟨name, behind, rfl, rfl, read'⟩ := exists_name_of_member? read
    obtain ⟨before, written, rfl, deep, readable, rfl⟩ := reads read'
    rcases next with ⟨rfl, rfl, rfl⟩ | ⟨rfl, more⟩
    · refine ⟨[(name, ⟨before, written, after⟩)], List.cons_ne_nil _ _, ?_, ?_, ⟨readable, trivial⟩, rfl⟩
      · simp only [membersBytes, separator, ite_true, List.nil_append, List.append_nil, List.append_assoc]
      · simpa only [membersDepth, Nat.max_zero] using deep
    · obtain ⟨members, present, rfl, deep', readable', rfl⟩ := ih more
      obtain ⟨next, members, rfl⟩ := List.exists_cons_of_ne_nil present
      refine ⟨(name, ⟨before, written, after⟩) :: next :: members, List.cons_ne_nil _ _, ?_,
        Nat.max_le.mpr ⟨deep, deep'⟩, ⟨readable, readable'⟩, rfl⟩
      simp only [membersBytes, separator, ite_true, Bool.false_eq_true, ite_false, List.nil_append,
        List.append_assoc, List.cons_append]

theorem readsValues_value? (count depth : Nat) : ReadsValues depth (value? count depth) := by
  induction depth with
  | zero =>
    intro bytes rest found h
    obtain ⟨before, split⟩ := exists_blanks bytes
    obtain ⟨written, isScalar, same, rfl⟩ := exists_scalar_of_scalar? h
    rw [same] at split
    exact ⟨before, written, split, Nat.le_of_eq isScalar.flat.1, isScalar.flat.2, rfl⟩
  | succ depth ih =>
    intro bytes rest found h
    obtain ⟨before, split⟩ := exists_blanks bytes
    unfold value? at h
    split at h
    · rename_i inside bracket
      obtain ⟨part, read, same⟩ := Option.map_eq_some_iff.mp h
      obtain ⟨values, rest'⟩ := part
      injection same with value_eq rest_eq
      dsimp only at rest_eq
      subst value_eq rest_eq
      rw [bracket] at split
      rcases contents?_cases read with ⟨blank, rfl, rfl⟩ | read
      · refine ⟨before, .array blank [], ?_, Nat.le_add_left _ _, trivial, rfl⟩
        simpa only [Written.bytes, itemsBytes, List.nil_append, List.cons_append, List.append_assoc]
          using split
      · obtain ⟨items, _, rfl, deep, readable, rfl⟩ := exists_items_of_parts? ih read
        refine ⟨before, .array ⟨[], fun _ member => by cases member⟩ items, ?_, Nat.succ_le_succ deep,
          readable, rfl⟩
        simpa only [Written.bytes, List.nil_append, List.cons_append, List.append_assoc] using split
    · rename_i inside bracket
      simp only [bind, Option.bind, pure] at h
      split at h
      · cases h
      · rename_i part read
        obtain ⟨values, rest'⟩ := part
        dsimp only at h
        split at h
        · cases h
        · rename_i meant found_eq
          injection h with h
          injection h with value_eq rest_eq
          subst value_eq rest_eq
          rw [bracket] at split
          have only : meant = ofMembers values ∧ NumberOnly values := by
            rcases ofMembers?_eq values with ⟨whole, only⟩ | ⟨nothing, _⟩
            · rw [whole] at found_eq
              exact ⟨(Option.some.inj found_eq).symm, only⟩
            · rw [nothing] at found_eq
              cases found_eq
          obtain ⟨rfl, only⟩ := only
          rcases contents?_cases read with ⟨blank, rfl, rfl⟩ | read
          · refine ⟨before, .object blank [], ?_, Nat.le_add_left _ _, ⟨only, trivial⟩, rfl⟩
            simpa only [Written.bytes, membersBytes, List.nil_append, List.cons_append,
              List.append_assoc] using split
          · obtain ⟨members, _, rfl, deep, readable, rfl⟩ := exists_members_of_parts? ih read
            refine ⟨before, .object ⟨[], fun _ member => by cases member⟩ members, ?_,
              Nat.succ_le_succ deep, ⟨only, readable⟩, rfl⟩
            simpa only [Written.bytes, List.nil_append, List.cons_append, List.append_assoc] using split
    · obtain ⟨written, isScalar, same, rfl⟩ := exists_scalar_of_scalar? h
      rw [same] at split
      refine ⟨before, written, split, ?_, isScalar.flat.2, rfl⟩
      rw [isScalar.flat.1]
      exact Nat.zero_le _

/-- A text is read as a value exactly when it writes one that is readable and not nested too deep. -/
theorem parse?_eq_some_iff {bytes : List UInt8} {value : Value} :
    parse? bytes = some value ↔
      ∃ padded : Padded Written, bytes = padded.before.val ++ (padded.inner.bytes ++ padded.after.val) ∧
        padded.inner.depth ≤ maxDepth ∧ padded.inner.Readable ∧ padded.inner.value = value := by
  constructor
  · intro h
    simp only [parse?, bind, Option.bind] at h
    split at h
    · cases h
    · rename_i part read
      obtain ⟨found, rest⟩ := part
      dsimp only at h
      split at h
      · rename_i nothing
        injection h with h
        subst h
        obtain ⟨before, written, split, deep, readable, rfl⟩ := readsValues_value? _ _ read
        obtain ⟨after, split'⟩ := exists_blanks rest
        rw [nothing, List.append_nil] at split'
        exact ⟨⟨before, written, after⟩, split' ▸ split, deep, readable, rfl⟩
      · cases h
  · rintro ⟨⟨before, written, after⟩, rfl, deep, readable, rfl⟩
    dsimp only at deep readable ⊢
    have delimited : Delimited after.val := by
      have ends := delimited_blanks after (show Delimited [] from fun b head => by cases head)
      rwa [List.append_nil] at ends
    have read := value?_written (before.val ++ (written.bytes ++ after.val)).length maxDepth delimited
      written readable deep (by simp only [List.length_append]; omega)
    rw [← value?_blanks _ _ before] at read
    have nothing : skipSpaces after.val = [] := by
      have skipped := skipSpaces_blanks after []
      rwa [List.append_nil] at skipped
    simp only [parse?, read, bind, Option.bind, nothing, ite_true]

end EpcisDigest.Json
