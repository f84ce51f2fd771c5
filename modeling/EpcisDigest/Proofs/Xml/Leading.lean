import EpcisDigest.CommandLine.Invocation
import EpcisDigest.Proofs.Json.Shifted
import EpcisDigest.Proofs.Text.Blank
import EpcisDigest.Proofs.Xml.CharacterData
import Mathlib.Data.List.TakeWhile

namespace EpcisDigest.Xml

open CommandLine (isLeadingBlank)

theorem isLeadingBlank_of_isSpace {b : UInt8} (space : isSpace b = true) : isLeadingBlank b = true := by
  simp only [isSpace, isLeadingBlank, Bool.or_eq_true] at space ⊢
  rcases space with ((h | h) | h) | h <;> simp [h]

theorem mem_of_mem_trimmed {bytes : List UInt8} {b : UInt8} (member : b ∈ trimmed bytes) : b ∈ bytes := by
  rw [trimmed, Lexer.trimmedEnd, List.mem_reverse] at member
  have kept := List.mem_reverse.mp ((List.dropWhile_suffix _).subset member)
  exact (List.dropWhile_suffix _).subset kept

theorem isSpace_json (b : UInt8) : Json.isSpace b = isSpace b := by
  rw [Json.isSpace, isSpace, Bool.or_right_comm]

theorem unmarked_blank {b : UInt8} {blank : List UInt8} (blanks : ∀ c ∈ b :: blank, isLeadingBlank c = true)
    (rest : List UInt8) : (b :: blank ++ rest).head? ≠ some 0xEF := by
  intro head
  have first := blanks b List.mem_cons_self
  rw [Option.some.inj head] at first
  cases first

theorem resolved_encodeChar {c : Char} (plain : c ≠ '&') :
    resolved (String.utf8EncodeChar c) = .ok (String.ofList [c]) := by
  have read : Text.ofBytes? (String.utf8EncodeChar c) = some (String.ofList [c]) := by
    rw [Text.ofBytes?_eq_some_iff, Text.bytesOf_ofList, List.flatMap_singleton]
  rw [resolved, read]
  simp only [String.toList_ofList, resolveFrom, if_neg plain]
  rfl

theorem exists_resolved_leadingBlank {b : UInt8} (blank : isLeadingBlank b = true) :
    ∃ text, resolved [b] = .ok text ∧ Text.trim text = "" := by
  have codes : ∃ c : Char, String.utf8EncodeChar c = [b] ∧ c ≠ '&' ∧ Text.isBlank c = true := by
    simp only [isLeadingBlank, Bool.or_eq_true, beq_iff_eq] at blank
    rcases blank with (((rfl | rfl) | rfl) | rfl) | rfl
    · exact ⟨' ', by decide, by decide, by decide⟩
    · exact ⟨'\t', by decide, by decide, by decide⟩
    · exact ⟨'\n', by decide, by decide, by decide⟩
    · exact ⟨'\x0C', by decide, by decide, by decide⟩
    · exact ⟨'\r', by decide, by decide, by decide⟩
  obtain ⟨c, code, plain, isBlank⟩ := codes
  refine ⟨String.ofList [c], code ▸ resolved_encodeChar plain, ?_⟩
  rw [Text.trim_eq_empty_iff, String.toList_ofList]
  simpa using isBlank

theorem exists_resolved_blank {bytes : List UInt8} (blanks : ∀ b ∈ bytes, isLeadingBlank b = true) :
    ∃ text, resolved bytes = .ok text ∧ Text.trim text = "" := by
  induction bytes with
  | nil => exact ⟨"", resolved_nil, rfl⟩
  | cons b bytes ih =>
    obtain ⟨blank, others⟩ := List.forall_mem_cons.mp blanks
    obtain ⟨first, read, nothing⟩ := exists_resolved_leadingBlank blank
    obtain ⟨rest, read', nothing'⟩ := ih others
    refine ⟨first ++ rest, ?_, Text.trim_append_eq_empty_iff.mpr ⟨nothing, nothing'⟩⟩
    have both := resolved_append read bytes
    rw [read'] at both
    exact both

structure IsData (bytes : List UInt8) : Prop where
  plain : ∀ b ∈ bytes, b ≠ 0x3C
  read : ∃ text, resolved bytes = .ok text

namespace IsData

variable {bytes front back : List UInt8}

theorem blank (blanks : ∀ b ∈ bytes, isLeadingBlank b = true) : IsData bytes where
  plain := by
    rintro b member rfl
    cases blanks _ member
  read := by
    obtain ⟨text, read, -⟩ := exists_resolved_blank blanks
    exact ⟨text, read⟩

theorem mark (marked : Bool) : IsData (Json.markBytes marked) := by
  cases marked with
  | true =>
    have code : String.utf8EncodeChar '\uFEFF' = Json.markBytes true := by decide
    exact ⟨by simp [Json.markBytes], _, code ▸ resolved_encodeChar (by decide)⟩
  | false => exact ⟨List.forall_mem_nil _, _, resolved_nil⟩

theorem append (first : IsData front) (second : IsData back) : IsData (front ++ back) where
  plain := List.forall_mem_append.mpr ⟨first.plain, second.plain⟩
  read := by
    obtain ⟨text, read⟩ := first.read
    obtain ⟨text', read'⟩ := second.read
    exact ⟨text ++ text', by rw [resolved_append read, read', Except.map]⟩

theorem dropBlanks (data : IsData bytes) : ∃ text, resolved (bytes.dropWhile isSpace) = .ok text := by
  obtain ⟨text, read⟩ := data.read
  have blanks : ∀ b ∈ bytes.takeWhile isSpace, isLeadingBlank b = true :=
    fun b member => isLeadingBlank_of_isSpace (List.all_eq_true.mp List.all_takeWhile b member)
  obtain ⟨first, read', -⟩ := exists_resolved_blank blanks
  rw [← List.takeWhile_append_dropWhile (p := isSpace) (l := bytes), resolved_append read'] at read
  obtain ⟨text, read, -⟩ := exists_of_map_ok read
  exact ⟨text, read⟩

end IsData

theorem trim_resolved_bracket {b : UInt8} (opens : b = 0x7B ∨ b = 0x5B) {bytes : List UInt8} {text : String}
    (read : resolved (b :: bytes) = .ok text) : Text.trim text ≠ "" := by
  have codes : ∃ c : Char, String.utf8EncodeChar c = [b] ∧ c ≠ '&' ∧ Text.isBlank c = false := by
    rcases opens with rfl | rfl
    · exact ⟨'\x7B', by decide, by decide, by decide⟩
    · exact ⟨'[', by decide, by decide, by decide⟩
  obtain ⟨c, code, plain, solid⟩ := codes
  have first : resolved [b] = .ok (String.ofList [c]) := code ▸ resolved_encodeChar plain
  have both := resolved_append first bytes
  rw [List.singleton_append, read] at both
  intro nothing
  cases rest : resolved bytes with
  | error cause =>
    rw [rest] at both
    cases both
  | ok more =>
    rw [rest] at both
    injection both with text_eq
    rw [text_eq] at nothing
    have blank := Text.trim_eq_empty_iff.mp (Text.trim_append_eq_empty_iff.mp nothing).1 c (by simp)
    rw [solid] at blank
    cases blank

namespace Lexer

theorem ofSource_unmarked {bytes : List UInt8} (unmarked : bytes.head? ≠ some 0xEF) (failure : Option String) :
    ofSource ⟨bytes, failure⟩ = ⟨bytes, failure, 0, []⟩ := by
  cases bytes with
  | nil => rfl
  | cons b bytes =>
    have other : (0xEF == b) = false := beq_false_of_ne fun same => unmarked (congrArg some same.symm)
    simp only [ofSource, List.isPrefixOf, other, Bool.false_and, Bool.false_eq_true, if_false]

variable (settings : Settings) {builder : Builder}

/-- Blanks before a document are no text of it, the form feed among them. -/
theorem trees_leading (outside : builder.depth = 0) {blank rest : List UInt8}
    (blanks : ∀ b ∈ blank, isLeadingBlank b = true) (stop : ∀ b ∈ rest.head?, b = 0x3C) (failure : Option String)
    (offset : Nat) (names : List (List UInt8)) : trees settings builder ⟨blank ++ rest, failure, offset, names⟩ =
      trees settings builder ⟨rest, failure, offset, names⟩ := by
  have kept : ∀ b ∈ trimmed blank, isLeadingBlank b = true := fun b member => blanks b (mem_of_mem_trimmed member)
  obtain ⟨text, read, nothing⟩ := exists_resolved_blank kept
  have added : builder.addText text = .ok builder := by rw [Builder.addText, if_pos outside, if_pos nothing]
  -- Without the blanks there is an empty text, which is not added either.
  have bare := trees_text settings builder (List.forall_mem_nil _) stop failure offset names
  have none : trimmed [] = [] := rfl
  rw [List.nil_append, none, resolved_nil] at bare
  rw [trees_text settings builder (IsData.blank blanks).plain stop, bare, read]
  simp only [Builder.onStep, Builder.step, added, Builder.addText_empty]

theorem trees_bracket (outside : builder.depth = 0) {front : List UInt8} (before : IsData front) {b : UInt8}
    (opens : b = 0x7B ∨ b = 0x5B) (rest : List UInt8) (failure : Option String) (offset : Nat)
    (names : List (List UInt8)) :
    ∃ e, trees settings builder ⟨front ++ b :: rest, failure, offset, names⟩ = ([.error e], builder.namespaces) := by
  obtain ⟨data, tail, rfl, plain', stop⟩ := exists_data rest
  have solid : isSpace b = false ∧ b ≠ 0x3C := by rcases opens with rfl | rfl <;> decide
  have all : ∀ b' ∈ front ++ b :: data, b' ≠ 0x3C :=
    List.forall_mem_append.mpr ⟨before.plain, List.forall_mem_cons.mpr ⟨solid.2, plain'⟩⟩
  rw [← List.cons_append, ← List.append_assoc, trees_text settings builder all stop]
  split
  · exact ⟨_, rfl⟩
  · cases whole : resolved (trimmed (front ++ b :: data)) with
    | error cause => exact ⟨_, rfl⟩
    | ok found =>
      have kept : trimmed (front ++ b :: data) = front.dropWhile isSpace ++ b :: trimmedEnd data := by
        have last : (front.dropWhile isSpace ++ [b]).getLast?.any isSpace = false := by simpa using solid.1
        have core : (front ++ b :: data).dropWhile isSpace = front.dropWhile isSpace ++ [b] ++ data := by
          rw [List.dropWhile_append, List.dropWhile_cons_of_neg (by simpa using solid.1), List.append_assoc,
            List.singleton_append]
          split
          · rename_i nothing
            rw [List.isEmpty_iff.mp nothing, List.nil_append]
          · rfl
        rw [trimmed, core, trimmedEnd_append last, List.append_assoc, List.singleton_append]
      obtain ⟨text, read⟩ := before.dropBlanks
      rw [kept, resolved_append read] at whole
      obtain ⟨more, read', rfl⟩ := exists_of_map_ok whole
      have refused : builder.addText (text ++ more) = .error .textOutside := by
        have visible : Text.trim (text ++ more) ≠ "" := fun nothing =>
          trim_resolved_bracket opens read' (Text.trim_append_eq_empty_iff.mp nothing).2
        rw [Builder.addText, if_pos outside, if_neg visible]
      refine ⟨.refused .textOutside, ?_⟩
      dsimp only
      rw [Builder.onStep, Builder.step, refused]
      rfl

/-- A byte order mark is dropped where nothing stands before it, and is character data elsewhere. -/
theorem exists_ofSource_bracket {blank : List UInt8} (blanks : ∀ b ∈ blank, isLeadingBlank b = true) (marked : Bool)
    (before : Json.Blanks) {b : UInt8} (opens : b = 0x7B ∨ b = 0x5B) (rest : List UInt8) (failure : Option String) :
    ∃ front, IsData front ∧ ofSource ⟨blank ++ (Json.markBytes marked ++ (before.val ++ b :: rest)), failure⟩ =
      ⟨front ++ b :: rest, failure, 0, []⟩ := by
  have noMark : b ≠ 0xEF := by rcases opens with rfl | rfl <;> decide
  have last : IsData before.val := .blank fun c member =>
    isLeadingBlank_of_isSpace (isSpace_json c ▸ before.property c member)
  cases blank with
  | nil =>
    refine ⟨before.val, last, ?_⟩
    cases marked with
    | true => rfl
    | false => exact ofSource_unmarked (before.unmarked noMark rest) failure
  | cons c blank =>
    refine ⟨c :: blank ++ Json.markBytes marked ++ before.val, ((IsData.blank blanks).append (.mark marked)).append last, ?_⟩
    rw [ofSource_unmarked (unmarked_blank blanks _)]
    simp only [List.append_assoc]

end Lexer

end EpcisDigest.Xml

namespace EpcisDigest

open Xml

variable {settings : Settings}

theorem allOk_of_untilError {ε α : Type} {results : List (Except ε α)} (allOk : AllOk (untilError results)) :
    AllOk results := by
  induction results with
  | nil => exact allOk
  | cons result results ih =>
    cases result with
    | ok a =>
      obtain ⟨first, others⟩ := List.forall_mem_cons.mp allOk
      exact List.forall_mem_cons.mpr ⟨first, ih others⟩
    | error e => cases allOk _ List.mem_cons_self

theorem hashXml_of_reading {source source' : Source} (same : reading settings source = reading settings source')
    (allOk : AllOk (hashXml settings source)) : hashXml settings source = hashXml settings source' := by
  have placed : ∀ trees trees' : List (Except ReadError EventTree),
      AllOk (trees.map fun tree => (tree.mapError HashError.xml).bind (hashTree settings)) →
        trees.map (Except.mapError ReadError.placeless) = trees'.map (Except.mapError ReadError.placeless) →
          trees = trees' := by
    intro trees trees' allOk same
    induction trees generalizing trees' with
    | nil => exact (List.map_eq_nil_iff.mp same.symm).symm
    | cons tree trees ih =>
      cases trees' with
      | nil => cases same
      | cons tree' trees' =>
        obtain ⟨first, others⟩ := List.forall_mem_cons.mp allOk
        injection same with same sames
        rw [ih trees' others sames]
        cases tree with
        | error e => cases first
        | ok tree =>
          cases tree' with
          | error e => cases same
          | ok tree' => cases same; rfl
  rw [hashXml, hashXml, placed _ _ (allOk_of_untilError allOk) (congrArg Prod.fst same)]

/-- Blanks before a document do not change what it gives. -/
theorem hashXml_leading {blank rest : List UInt8} {failure : Option String}
    (blanks : ∀ b ∈ blank, CommandLine.isLeadingBlank b = true) (stop : ∀ b ∈ rest.head?, b = 0x3C)
    (allOk : AllOk (hashXml settings ⟨blank ++ rest, failure⟩)) :
    hashXml settings ⟨blank ++ rest, failure⟩ = hashXml settings ⟨rest, failure⟩ := by
  have unmarked : rest.head? ≠ some 0xEF := fun head => by cases stop _ head
  have unmarked' : (blank ++ rest).head? ≠ some 0xEF := by
    cases blank with
    | nil => exact unmarked
    | cons b blank => exact unmarked_blank blanks rest
  refine hashXml_of_reading ?_ allOk
  rw [Lexer.reading_eq, Lexer.reading_eq, Lexer.ofSource_unmarked unmarked, Lexer.ofSource_unmarked unmarked']
  exact Lexer.trees_leading settings rfl blanks stop failure 0 []

/-- A document that a bracket begins, behind blanks and byte order marks, gives an error at once. -/
theorem hashXml_bracket {blank : List UInt8} (blanks : ∀ b ∈ blank, CommandLine.isLeadingBlank b = true) {marked : Bool}
    {before : Json.Blanks} {b : UInt8} (opens : b = 0x7B ∨ b = 0x5B) {rest : List UInt8} {failure : Option String} :
    ∃ e, hashXml settings ⟨blank ++ (Json.markBytes marked ++ (before.val ++ b :: rest)), failure⟩ = [.error e] := by
  obtain ⟨front, data, begun⟩ := Lexer.exists_ofSource_bracket blanks marked before opens rest failure
  obtain ⟨e, refused⟩ := @Lexer.trees_bracket settings .empty rfl front data b opens rest failure 0 []
  have reads := Lexer.reading_eq settings ⟨blank ++ (Json.markBytes marked ++ (before.val ++ b :: rest)), failure⟩
  rw [begun, refused] at reads
  obtain ⟨tree, found, same⟩ := List.map_eq_singleton_iff.mp (congrArg Prod.fst reads)
  cases tree with
  | ok tree => cases same
  | error e =>
    refine ⟨.xml e, ?_⟩
    rw [hashXml, found]
    rfl

end EpcisDigest
