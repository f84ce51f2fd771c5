import EpcisDigest.Proofs.Json.Numeral
import EpcisDigest.Xml.Token

namespace EpcisDigest.Xml

open Json (takeWhile_append_of_head)

theorem tagLength?_split {quote : Option UInt8} {length found : Nat} {bytes : List UInt8}
    (h : tagLength? quote length bytes = some found) :
    ∃ content rest, bytes = content ++ 0x3E :: rest ∧ found = length + content.length ∧
      ∀ rest', tagLength? quote length (content ++ 0x3E :: rest') = some found := by
  induction bytes generalizing quote length with
  | nil => cases h
  | cons b bytes ih =>
    have longer : ∀ {quote'}, tagLength? quote' (length + 1) bytes = some found →
        (∀ rest, tagLength? quote length (b :: rest) = tagLength? quote' (length + 1) rest) →
        ∃ content rest, b :: bytes = content ++ 0x3E :: rest ∧ found = length + content.length ∧
          ∀ rest', tagLength? quote length (content ++ 0x3E :: rest') = some found := by
      intro quote' h same
      obtain ⟨content, rest, rfl, rfl, again⟩ := ih h
      refine ⟨b :: content, rest, rfl, by rw [List.length_cons]; omega, fun rest' => ?_⟩
      rw [List.cons_append, same]
      exact again rest'
    cases quote with
    | some mark => exact longer h fun _ => rfl
    | none =>
      simp only [tagLength?] at h
      split at h
      · rename_i ends
        injection h with h
        subst ends h
        exact ⟨[], bytes, rfl, rfl, fun _ => rfl⟩
      · rename_i other
        exact longer h fun rest => by rw [tagLength?, if_neg other]

theorem lengthBefore?_split {tail seen bytes : List UInt8} {least length found : Nat}
    (h : lengthBefore? tail least length seen bytes = some found) :
    ∃ content rest, bytes = content ++ 0x3E :: rest ∧ found = length + content.length ∧
      tail.length ≤ content.length + seen.length ∧
      ∀ rest', lengthBefore? tail least length seen (content ++ 0x3E :: rest') = some found := by
  induction bytes generalizing length seen with
  | nil => cases h
  | cons b bytes ih =>
    rw [lengthBefore?] at h
    split at h
    · rename_i ends
      injection h with h
      obtain ⟨rfl, enough, present⟩ := ends
      subst h
      have fits := (List.isPrefixOf_iff_prefix.mp present).length_le
      refine ⟨[], bytes, rfl, rfl, by rw [List.length_nil]; omega, fun rest' => ?_⟩
      rw [List.nil_append, lengthBefore?, if_pos ⟨rfl, enough, present⟩]
    · rename_i other
      obtain ⟨content, rest, rfl, rfl, fits, again⟩ := ih h
      rw [List.length_cons] at fits
      refine ⟨b :: content, rest, rfl, ?_, ?_, fun rest' => ?_⟩
      · rw [List.length_cons]
        omega
      · rw [List.length_cons]
        omega
      · rw [List.cons_append, lengthBefore?, if_neg other]
        exact again rest'

theorem balancedLength?_append {level length found : Nat} {bytes : List UInt8}
    (h : balancedLength? level length bytes = some found) (more : List UInt8) :
    balancedLength? level length (bytes ++ more) = some found ∧ length ≤ found ∧ found < length + bytes.length := by
  induction bytes generalizing level length with
  | nil => cases h
  | cons b bytes ih =>
    have later : ∀ {level'}, balancedLength? level' (length + 1) bytes = some found →
        balancedLength? level' (length + 1) (bytes ++ more) = some found ∧ length ≤ found ∧
          found < length + (b :: bytes).length := by
      intro level' h
      obtain ⟨again, least, most⟩ := ih h
      rw [List.length_cons]
      exact ⟨again, by omega, by omega⟩
    simp only [List.cons_append, balancedLength?] at h ⊢
    split at h
    · rw [if_pos ‹_›]
      exact later h
    · rw [if_neg ‹_›]
      split at h
      · rw [if_pos ‹_›]
        cases level with
        | zero =>
          injection h with h
          subst h
          exact ⟨rfl, Nat.le_refl _, by rw [List.length_cons]; omega⟩
        | succ level => exact later h
      · rw [if_neg ‹_›]
        exact later h

/-- The bytes before a `>` are found by a function that looks at no other ones. -/
def Splits (find : List UInt8 → Option Nat) : Prop :=
  ∀ {bytes found}, find bytes = some found → ∃ content rest, bytes = content ++ 0x3E :: rest ∧
    found = content.length ∧ ∀ rest', find (content ++ 0x3E :: rest') = some found

theorem splits_tagLength? : Splits (tagLength? none 0) := by
  intro bytes found h
  obtain ⟨content, rest, split, length, again⟩ := tagLength?_split h
  exact ⟨content, rest, split, length.trans (Nat.zero_add _), again⟩

theorem splits_lengthBefore? {tail : List UInt8} {least : Nat} : Splits (lengthBefore? tail least 0 []) := by
  intro bytes found h
  obtain ⟨content, rest, split, length, _, again⟩ := lengthBefore?_split h
  exact ⟨content, rest, split, length.trans (Nat.zero_add _), again⟩

def Token.depth (depth : Nat) : Token → Nat
  | opening _ => depth + 1
  | closing => depth - 1
  | _ => depth

structure Token.IsFlat (token : Token) : Prop where
  depth : ∀ depth, token.depth depth = depth
  notText : ∀ text, token ≠ .text text

theorem isFlat_verbatim {content : List UInt8} {token : Token} (h : verbatimToken content = .ok token) :
    token.IsFlat := by
  simp only [verbatimToken] at h
  split at h
  · injection h with token_eq
    subst token_eq
    exact ⟨fun _ => rfl, fun _ => Token.noConfusion⟩
  · cases h

theorem isFlat_ignored : Token.ignored.IsFlat := ⟨fun _ => rfl, fun _ => Token.noConfusion⟩

theorem isFlat_comment {content : List UInt8} {token : Token} (h : commentToken content = .ok token) : token.IsFlat := by
  rw [commentToken] at h
  split at h
  · injection h with token_eq
    exact token_eq ▸ isFlat_ignored
  · cases h

theorem isFlat_instruction {content : List UInt8} {token : Token} (h : Lexer.instructionToken content = .ok token) :
    token.IsFlat := by
  rw [Lexer.instructionToken] at h
  split at h
  · injection h with token_eq
    exact token_eq ▸ isFlat_ignored
  · cases h

namespace Lexer

/-- A token is cut off by a function of the lexer that looks at no byte but those that it takes, the last of
    which is a `>`. -/
structure Cuts (action : Lexer → Cut) (lexer : Lexer) (token : Token) (after : Lexer) (content : List UInt8) :
    Prop where
  split : lexer.rest = content ++ 0x3E :: after.rest
  failure : after.failure = lexer.failure
  depth : after.openNames.length = token.depth lexer.openNames.length
  notText : ∀ text, token ≠ .text text
  again : ∀ rest failure offset, action ⟨content ++ 0x3E :: rest, failure, offset, lexer.openNames⟩ =
    .token token ⟨rest, failure, offset + (content.length + 1), after.openNames⟩

theorem advance_content (content rest : List UInt8) (failure : Option String) (offset : Nat)
    (names : List (List UInt8)) : advance (content.length + 1) ⟨content ++ 0x3E :: rest, failure, offset, names⟩ =
      ⟨rest, failure, offset + (content.length + 1), names⟩ := by
  rw [advance, List.append_cons]
  have drops := @List.drop_left _ (content ++ [0x3E]) rest
  rw [List.length_append, List.length_singleton] at drops
  rw [drops]

section Cut

variable {find : List UInt8 → Option Nat} {make : List UInt8 → Except Cause Token} {lexer after : Lexer} {token : Token}

theorem cut_content {content : List UInt8} (made : make content = .ok token) (rest : List UInt8)
    (failure : Option String) (offset : Nat) (names : List (List UInt8)) :
    cut ⟨content ++ 0x3E :: rest, failure, offset, names⟩ (some content.length) make =
      .token token ⟨rest, failure, offset + (content.length + 1), names⟩ := by
  simp only [cut, List.take_left, made, advance_content]

theorem cut_ne_doctype {length : Option Nat} : lexer.cut length make ≠ .doctype := by
  intro same
  simp only [cut] at same
  split at same
  · cases same
  · split at same <;> cases same

theorem cuts_cut (splits : Splits find)
    (flat : ∀ {content token}, make content = .ok token → token.IsFlat)
    (h : lexer.cut (find lexer.rest) make = .token token after) :
    ∃ content, find lexer.rest = some content.length ∧
      Cuts (fun lexer => lexer.cut (find lexer.rest) make) lexer token after content := by
  obtain ⟨bytes, failure, offset, names⟩ := lexer
  simp only [cut] at h
  split at h
  · cases h
  · rename_i found cuts
    obtain ⟨content, rest, rfl, rfl, again⟩ := splits cuts
    rw [List.take_left] at h
    split at h
    · rename_i made
      rw [advance_content] at h
      injection h with token_eq after_eq
      subst token_eq after_eq
      refine ⟨content, cuts, rfl, rfl, ((flat made).depth _).symm, (flat made).notText, fun rest' failure' offset' => ?_⟩
      dsimp only
      rw [again, cut_content made]
    · cases h

end Cut

/-- A declaration of a kind, which its second byte tells, is cut off behind two certain bytes. -/
theorem cuts_declared {mark b c : UInt8} {least : Nat} {make : List UInt8 → Except Cause Token} {lexer after : Lexer}
    {token : Token} {rest : List UInt8} (bytes : lexer.rest = b :: c :: rest)
    (declares : ∀ rest failure offset, declaration ⟨b :: c :: rest, failure, offset, lexer.openNames⟩ =
      cut ⟨b :: c :: rest, failure, offset, lexer.openNames⟩
        (lengthBefore? [mark, mark] least 0 [] (b :: c :: rest)) make)
    (flat : ∀ {content token}, make content = .ok token → token.IsFlat)
    (h : lexer.declaration = .token token after) : ∃ content, Cuts declaration lexer token after content := by
  have whole := declares rest lexer.failure lexer.offset
  rw [← bytes] at whole
  obtain ⟨content, found, cuts⟩ := cuts_cut splits_lengthBefore? flat (whole.symm.trans h)
  obtain ⟨_, _, _, length, fits, _⟩ := lengthBefore?_split found
  have split := bytes.symm.trans cuts.split
  obtain ⟨content, rfl⟩ : ∃ inner, content = b :: c :: inner := by
    match content, split with
    | [], _ => simp at length fits; omega
    | [_], _ => simp at length fits; omega
    | b' :: c' :: inner, split =>
      injection split with b_eq split
      injection split with c_eq _
      exact ⟨inner, by rw [b_eq, c_eq]⟩
  refine ⟨b :: c :: content, cuts.split, cuts.failure, cuts.depth, cuts.notText, fun rest failure offset => ?_⟩
  exact (declares _ failure offset).trans (cuts.again rest failure offset)

theorem cuts_declaration {lexer after : Lexer} {token : Token} (h : lexer.declaration = .token token after) :
    ∃ content, Cuts declaration lexer token after content := by
  match bytes : lexer.rest with
  | [] =>
    simp only [declaration, bytes] at h
    cases h
  | [b] =>
    simp only [declaration, bytes] at h
    cases h
  | b :: c :: rest =>
    by_cases verbatim : c = 0x5B
    · subst verbatim
      have declares : ∀ rest failure offset, declaration ⟨b :: 0x5B :: rest, failure, offset, lexer.openNames⟩ =
          cut ⟨b :: 0x5B :: rest, failure, offset, lexer.openNames⟩
            (lengthBefore? [0x5D, 0x5D] 0 0 [] (b :: 0x5B :: rest)) verbatimToken := fun _ _ _ => rfl
      exact cuts_declared bytes declares isFlat_verbatim h
    · by_cases comment : c = 0x2D
      · subst comment
        have declares : ∀ rest failure offset, declaration ⟨b :: 0x2D :: rest, failure, offset, lexer.openNames⟩ =
            cut ⟨b :: 0x2D :: rest, failure, offset, lexer.openNames⟩
              (lengthBefore? [0x2D, 0x2D] 5 0 [] (b :: 0x2D :: rest)) commentToken := fun _ _ _ => rfl
        exact cuts_declared bytes declares isFlat_comment h
      · simp only [declaration, bytes, if_neg verbatim, if_neg comment] at h
        split at h
        · split at h
          · cases h
          · split at h
            · split at h <;> cases h
            · cases h
        · cases h

theorem cuts_closing {lexer after : Lexer} {token : Token} (h : lexer.closing = .token token after) :
    ∃ content, Cuts closing lexer token after content := by
  obtain ⟨bytes, failure, offset, names⟩ := lexer
  simp only [closing] at h
  split at h
  · cases h
  · rename_i found cuts
    obtain ⟨content, rest, rfl, rfl, again⟩ := splits_tagLength? cuts
    rw [List.take_left, advance_content] at h
    split at h
    · cases h
    · rename_i name names
      split at h
      · rename_i same
        injection h with token_eq after_eq
        subst token_eq after_eq
        refine ⟨content, rfl, rfl, rfl, fun _ => Token.noConfusion, fun rest' failure' offset' => ?_⟩
        simp only [closing, again, List.take_left, if_pos same, advance_content]
      · cases h

theorem cuts_opening {lexer after : Lexer} {token : Token} (h : lexer.opening = .token token after) :
    ∃ content, Cuts opening lexer token after content := by
  obtain ⟨bytes, failure, offset, names⟩ := lexer
  simp only [opening] at h
  split at h
  · cases h
  · rename_i found cuts
    obtain ⟨content, rest, rfl, rfl, again⟩ := splits_tagLength? cuts
    rw [List.take_left, advance_content] at h
    split at h
    · rename_i slash
      injection h with token_eq after_eq
      subst token_eq after_eq
      refine ⟨content, rfl, rfl, rfl, fun _ => Token.noConfusion, fun rest' failure' offset' => ?_⟩
      simp only [opening, again, List.take_left, if_pos slash, advance_content]
    · rename_i slash
      injection h with token_eq after_eq
      subst token_eq after_eq
      refine ⟨content, rfl, rfl, rfl, fun _ => Token.noConfusion, fun rest' failure' offset' => ?_⟩
      simp only [opening, again, List.take_left, if_neg slash, advance_content]

theorem Cuts.of_head {action action' : Lexer → Cut} {lexer after : Lexer} {token : Token} {content rest : List UInt8}
    {b : UInt8} (bytes : lexer.rest = b :: rest)
    (same : ∀ rest failure offset, action' ⟨b :: rest, failure, offset, lexer.openNames⟩ =
      action ⟨b :: rest, failure, offset, lexer.openNames⟩)
    (cuts : Cuts action lexer token after content) : Cuts action' lexer token after content := by
  refine ⟨cuts.split, cuts.failure, cuts.depth, cuts.notText, fun rest' failure offset => ?_⟩
  have head : ∃ inner, content ++ 0x3E :: rest' = b :: inner := by
    have split := bytes.symm.trans cuts.split
    cases content with
    | nil =>
      injection split with b_eq _
      exact ⟨rest', by rw [b_eq, List.nil_append]⟩
    | cons first content =>
      injection split with b_eq _
      exact ⟨content ++ 0x3E :: rest', by rw [b_eq, List.cons_append]⟩
  have again := cuts.again rest' failure offset
  obtain ⟨inner, head⟩ := head
  rw [head] at again ⊢
  exact (same inner failure offset).trans again

theorem cuts_markup {lexer after : Lexer} {token : Token} (h : lexer.markup = .token token after) :
    ∃ content, Cuts markup lexer token after content := by
  match bytes : lexer.rest with
  | [] =>
    simp only [markup, bytes] at h
    cases h
  | b :: rest =>
    simp only [markup, bytes] at h
    split at h
    · rename_i declares
      obtain ⟨content, cuts⟩ := cuts_declaration h
      exact ⟨content, cuts.of_head bytes fun _ _ _ => by simp only [markup, if_pos declares]⟩
    · rename_i notDeclaration
      split at h
      · rename_i closes
        obtain ⟨content, cuts⟩ := cuts_closing h
        exact ⟨content, cuts.of_head bytes fun _ _ _ => by simp only [markup, if_neg notDeclaration, if_pos closes]⟩
      · rename_i notClosing
        split at h
        · rename_i instructs
          rw [← bytes] at h
          obtain ⟨content, _, cuts⟩ := cuts_cut splits_lengthBefore? isFlat_instruction h
          exact ⟨content, cuts.of_head bytes fun _ _ _ => by
            simp only [markup, if_neg notDeclaration, if_neg notClosing, if_pos instructs]⟩
        · rename_i notInstruction
          obtain ⟨content, cuts⟩ := cuts_opening h
          exact ⟨content, cuts.of_head bytes fun _ _ _ => by
            simp only [markup, if_neg notDeclaration, if_neg notClosing, if_neg notInstruction]⟩

theorem declaration_doctype {bytes : List UInt8} {failure : Option String} {offset : Nat} {names : List (List UInt8)}
    (h : declaration ⟨bytes, failure, offset, names⟩ = .doctype) (more : List UInt8) (failure' : Option String)
    (offset' : Nat) : declaration ⟨bytes ++ more, failure', offset', names⟩ = .doctype := by
  match bytes with
  | [] => cases h
  | [_] => cases h
  | b :: c :: bytes =>
    simp only [declaration, List.cons_append] at h ⊢
    split at h
    · exact absurd h cut_ne_doctype
    · rename_i notVerbatim
      split at h
      · exact absurd h cut_ne_doctype
      · rename_i notComment
        rw [if_neg notVerbatim, if_neg notComment]
        split at h
        · rename_i letter
          rw [if_pos letter]
          split at h
          · cases h
          · rename_i found balanced
            obtain ⟨again, _, fits⟩ := balancedLength?_append balanced more
            rw [Nat.zero_add] at fits
            simp only [List.cons_append] at again
            have taken := @List.take_append_of_le_length _ _ more _ (Nat.le_of_lt fits)
            simp only [List.cons_append] at taken
            simp only [again, taken]
            exact h
        · cases h

theorem markup_doctype {bytes : List UInt8} {failure : Option String} {offset : Nat} {names : List (List UInt8)}
    (h : markup ⟨bytes, failure, offset, names⟩ = .doctype) (more : List UInt8) (failure' : Option String)
    (offset' : Nat) : markup ⟨bytes ++ more, failure', offset', names⟩ = .doctype := by
  cases bytes with
  | nil => cases h
  | cons b bytes =>
    simp only [markup, List.cons_append] at h ⊢
    split at h
    · rename_i declares
      rw [if_pos declares]
      exact declaration_doctype h more failure' offset'
    · split at h
      · simp only [closing] at h
        split at h
        · cases h
        · cases names with
          | nil => cases h
          | cons name names =>
            dsimp only at h
            split at h <;> cases h
      · split at h
        · exact absurd h cut_ne_doctype
        · simp only [opening] at h
          split at h
          · cases h
          · split at h <;> cases h

theorem rest_ofSource_suffix (source : Source) : (ofSource source).rest <:+ source.bytes := by
  rw [ofSource]
  dsimp only
  split
  · exact List.drop_suffix 3 source.bytes
  · exact List.suffix_refl _

/-- Where a document has begun with more than a byte order mark, what is left of it goes on as the document does. -/
theorem ofSource_append {front : List UInt8} (begun : 0x3C ∈ front) (failure : Option String) :
    ∃ used, ∀ rest, ofSource ⟨front ++ rest, failure⟩ = ⟨used ++ rest, failure, 0, []⟩ := by
  by_cases mark : [0xEF, 0xBB, 0xBF] <+: front
  · obtain ⟨used, rfl⟩ := mark
    refine ⟨used, fun rest => ?_⟩
    have whole : [0xEF, 0xBB, 0xBF] <+: [0xEF, 0xBB, 0xBF] ++ used ++ rest := by
      rw [List.append_assoc]
      exact List.prefix_append _ _
    rw [ofSource, if_pos (List.isPrefixOf_iff_prefix.mpr whole)]
    rfl
  · refine ⟨front, fun rest => ?_⟩
    have whole : ¬ [0xEF, 0xBB, 0xBF] <+: front ++ rest := by
      intro marks
      rcases List.prefix_or_prefix_of_prefix marks (List.prefix_append front rest) with marks | inside
      · exact mark marks
      · exact absurd (inside.subset begun) (by decide)
    rw [ofSource, if_neg (mt List.isPrefixOf_iff_prefix.mp whole)]

def here (lexer : Lexer) : Cut :=
  match lexer.rest with
  | [] => if lexer.failure.isSome then .failed .source else .finished
  | b :: rest =>
    if b = 0x3C then markup (lexer.advance 1)
    else
      let content := b :: rest.takeWhile (· != 0x3C)
      if (rest.dropWhile (· != 0x3C)).isEmpty ∧ lexer.failure.isSome then .failed .source
      else .token (.text (trimmedEnd content)) (lexer.advance content.length)

theorem next_eq (blank rest : List UInt8) (blanks : ∀ b ∈ blank, isSpace b = true)
    (stop : ∀ b ∈ rest.head?, isSpace b = false) (failure : Option String) (offset : Nat) (names : List (List UInt8)) :
    next ⟨blank ++ rest, failure, offset, names⟩ = here ⟨rest, failure, offset + blank.length, names⟩ := by
  have taken := (takeWhile_append_of_head blanks stop).1
  simp only [next, taken, advance, List.drop_left]
  rfl

theorem exists_blank (bytes : List UInt8) : ∃ blank rest, bytes = blank ++ rest ∧ (∀ b ∈ blank, isSpace b = true) ∧
    ∀ b ∈ rest.head?, isSpace b = false := by
  refine ⟨_, _, (List.takeWhile_append_dropWhile (p := isSpace) (l := bytes)).symm,
    fun b member => List.all_eq_true.mp List.all_takeWhile b member, fun b head => ?_⟩
  have failed := List.head?_dropWhile_not isSpace bytes
  rw [head] at failed
  simpa using failed

theorem exists_next (lexer : Lexer) : ∃ blank rest, lexer.rest = blank ++ rest ∧ (∀ b ∈ blank, isSpace b = true) ∧
    (∀ b ∈ rest.head?, isSpace b = false) ∧
    lexer.next = here ⟨rest, lexer.failure, lexer.offset + blank.length, lexer.openNames⟩ := by
  obtain ⟨bytes, failure, offset, names⟩ := lexer
  obtain ⟨blank, rest, rfl, blanks, stop⟩ := exists_blank bytes
  exact ⟨blank, rest, rfl, blanks, stop, next_eq blank rest blanks stop failure offset names⟩

theorem here_markup (rest : List UInt8) (failure : Option String) (offset : Nat) (names : List (List UInt8)) :
    here ⟨0x3C :: rest, failure, offset, names⟩ = markup ⟨rest, failure, offset + 1, names⟩ := rfl

theorem takeWhile_data {data tail : List UInt8} (plain : ∀ b ∈ data, b ≠ 0x3C) (stop : ∀ b ∈ tail.head?, b = 0x3C) :
    (data ++ tail).takeWhile (· != 0x3C) = data ∧ (data ++ tail).dropWhile (· != 0x3C) = tail := by
  have all : ∀ b ∈ data, (b != 0x3C) = true := fun b member => bne_iff_ne.mpr (plain b member)
  have ends : ∀ b ∈ tail.head?, (b != 0x3C) = false := fun b head => by simp [stop b head]
  exact takeWhile_append_of_head all ends

theorem here_text {b : UInt8} {data tail : List UInt8} (plain : ∀ b' ∈ b :: data, b' ≠ 0x3C)
    (stop : ∀ b' ∈ tail.head?, b' = 0x3C) (failure : Option String) (offset : Nat) (names : List (List UInt8)) :
    here ⟨b :: data ++ tail, failure, offset, names⟩ =
      if tail = [] ∧ failure.isSome = true then .failed .source
      else .token (.text (trimmedEnd (b :: data))) ⟨tail, failure, offset + (b :: data).length, names⟩ := by
  have first := plain b List.mem_cons_self
  obtain ⟨taken, dropped⟩ := takeWhile_data (fun b' member => plain b' (List.mem_cons_of_mem _ member)) stop
  simp only [here, List.cons_append, if_neg first, taken, dropped, List.isEmpty_iff]
  split
  · rfl
  · have drops : (b :: (data ++ tail)).drop (b :: data).length = tail := List.drop_left
    rw [advance, drops]

theorem exists_data (bytes : List UInt8) : ∃ data tail, bytes = data ++ tail ∧ (∀ b ∈ data, b ≠ 0x3C) ∧
    ∀ b ∈ tail.head?, b = 0x3C := by
  refine ⟨_, _, (List.takeWhile_append_dropWhile (p := (· != 0x3C)) (l := bytes)).symm, fun b member => ?_,
    fun b head => ?_⟩
  · exact bne_iff_ne.mp (List.all_eq_true.mp List.all_takeWhile b member)
  · have failed := List.head?_dropWhile_not (· != 0x3C) bytes
    rw [head] at failed
    simpa using failed

def Marked (failure : Option String) (rest : List UInt8) : Prop :=
  rest.head? = some 0x3C ∨ rest = [] ∧ failure = none

theorem marked_cons {failure : Option String} {b : UInt8} {rest : List UInt8} :
    Marked failure (b :: rest) ↔ b = 0x3C := by
  simp [Marked]

def Ends (token : Token) (failure : Option String) (rest : List UInt8) : Prop :=
  ∀ content, token = .text content → Marked failure rest

structure Reads (lexer : Lexer) (token : Token) (after : Lexer) (used : List UInt8) : Prop where
  split : lexer.rest = used ++ after.rest
  present : used ≠ []
  failure : after.failure = lexer.failure
  depth : after.openNames.length = token.depth lexer.openNames.length
  opens : after.openNames = lexer.openNames ∨ 0x3C ∈ used
  ends : Ends token after.failure after.rest
  again : ∀ rest failure offset, Ends token failure rest →
    next ⟨used ++ rest, failure, offset, lexer.openNames⟩ =
      .token token ⟨rest, failure, offset + used.length, after.openNames⟩

theorem reads_markup {lexer after : Lexer} {token : Token} {blank bytes : List UInt8} {offset : Nat}
    (split : lexer.rest = blank ++ 0x3C :: bytes) (blanks : ∀ b ∈ blank, isSpace b = true)
    (h : markup ⟨bytes, lexer.failure, offset, lexer.openNames⟩ = .token token after) :
    ∃ used, Reads lexer token after used := by
  obtain ⟨content, cuts⟩ := cuts_markup h
  have inside : bytes = content ++ 0x3E :: after.rest := cuts.split
  have stop : ∀ {rest : List UInt8}, ∀ b ∈ (0x3C :: rest).head?, isSpace b = false := by
    intro rest b first
    obtain rfl : 0x3C = b := Option.some.inj first
    rfl
  refine ⟨blank ++ 0x3C :: (content ++ [0x3E]), ?_, by simp, cuts.failure, cuts.depth, .inr (by simp),
    fun text same => absurd same (cuts.notText text), fun rest failure offset' _ => ?_⟩
  · rw [split, inside]
    simp only [List.append_assoc, List.cons_append, List.nil_append]
  · have again := cuts.again rest failure (offset' + blank.length + 1)
    have begins := next_eq blank (0x3C :: (content ++ 0x3E :: rest)) blanks stop failure offset' lexer.openNames
    rw [here_markup, again] at begins
    simp only [List.append_assoc, List.cons_append, List.nil_append, begins, List.length_append, List.length_cons,
      List.length_nil]
    congr 2
    omega

theorem reads_text {lexer : Lexer} {blank data tail : List UInt8} {b : UInt8} {offset : Nat}
    (split : lexer.rest = blank ++ (b :: data ++ tail)) (blanks : ∀ b ∈ blank, isSpace b = true)
    (begins : isSpace b = false) (plain : ∀ b' ∈ b :: data, b' ≠ 0x3C) (stop : ∀ b' ∈ tail.head?, b' = 0x3C)
    (goesOn : ¬ (tail = [] ∧ lexer.failure.isSome = true)) :
    Reads lexer (.text (trimmedEnd (b :: data))) ⟨tail, lexer.failure, offset, lexer.openNames⟩ (blank ++ (b :: data)) := by
  refine ⟨?_, by simp, rfl, rfl, .inl rfl, fun _ _ => ?_, fun rest failure offset' follows => ?_⟩
  · rw [split, List.append_assoc]
  · cases tail with
    | nil => exact .inr ⟨rfl, by simpa using goesOn⟩
    | cons c tail => exact marked_cons.mpr (stop c rfl)
  · have follows := follows _ rfl
    have stop' : ∀ b' ∈ rest.head?, b' = 0x3C := by
      intro b' head
      cases rest with
      | nil => cases head
      | cons c rest =>
        obtain rfl : c = b' := Option.some.inj head
        exact marked_cons.mp follows
    have goesOn' : ¬ (rest = [] ∧ failure.isSome = true) := by
      rintro ⟨rfl, failing⟩
      rcases follows with marked | ⟨_, rfl⟩
      · cases marked
      · cases failing
    have first : ∀ b' ∈ (b :: data ++ rest).head?, isSpace b' = false := by
      intro b' head
      obtain rfl : b = b' := Option.some.inj head
      exact begins
    have next := next_eq blank (b :: data ++ rest) blanks first failure offset' lexer.openNames
    rw [here_text plain stop', if_neg goesOn'] at next
    rw [List.append_assoc, next, List.length_append, Nat.add_assoc]

theorem exists_reads {lexer after : Lexer} {token : Token} (h : lexer.next = .token token after) :
    ∃ used, Reads lexer token after used := by
  obtain ⟨blank, bytes, split, blanks, stop, next_eq_here⟩ := exists_next lexer
  rw [next_eq_here] at h
  cases bytes with
  | nil =>
    rw [here] at h
    dsimp only at h
    split at h <;> cases h
  | cons b bytes =>
    by_cases markup : b = 0x3C
    · subst markup
      exact reads_markup split blanks h
    · obtain ⟨data, tail, rfl, plain, ends⟩ := exists_data bytes
      have all : ∀ b' ∈ b :: data, b' ≠ 0x3C := List.forall_mem_cons.mpr ⟨markup, plain⟩
      rw [← List.cons_append, here_text all ends] at h
      split at h
      · cases h
      · rename_i goesOn
        injection h with token_eq after_eq
        subst token_eq after_eq
        exact ⟨_, reads_text split blanks (stop b rfl) all ends goesOn⟩

def Cut.placeless : Cut → Cut
  | .token found after => .token found { after with offset := 0 }
  | cut => cut

def Placeless (action : Lexer → Cut) : Prop :=
  ∀ rest failure offset offset' names,
    (action ⟨rest, failure, offset, names⟩).placeless = (action ⟨rest, failure, offset', names⟩).placeless

theorem placeless_cut (find : List UInt8 → Option Nat) (make : List UInt8 → Except Cause Token) :
    Placeless fun lexer => lexer.cut (find lexer.rest) make := by
  intro rest failure offset offset' names
  simp only [cut, shortage]
  cases find rest with
  | none => rfl
  | some length =>
    dsimp only
    cases make (rest.take length) <;> rfl

theorem placeless_declaration : Placeless declaration := by
  intro rest failure offset offset' names
  match rest with
  | [] => rfl
  | [_] => rfl
  | b :: c :: rest =>
    simp only [declaration]
    split
    · exact placeless_cut _ _ _ _ _ _ _
    · split
      · exact placeless_cut _ _ _ _ _ _ _
      · rfl

theorem placeless_closing : Placeless closing := by
  intro rest failure offset offset' names
  simp only [closing, shortage]
  cases tagLength? none 0 rest with
  | none => rfl
  | some length =>
    cases names with
    | nil => rfl
    | cons name names =>
      dsimp only
      split <;> rfl

theorem placeless_opening : Placeless opening := by
  intro rest failure offset offset' names
  simp only [opening, shortage]
  cases tagLength? none 0 rest with
  | none => rfl
  | some length =>
    dsimp only
    split <;> rfl

theorem placeless_markup : Placeless markup := by
  intro rest failure offset offset' names
  cases rest with
  | nil => rfl
  | cons b rest =>
    simp only [markup]
    split
    · exact placeless_declaration _ _ _ _ _
    · split
      · exact placeless_closing _ _ _ _ _
      · split
        · exact placeless_cut _ _ _ _ _ _ _
        · exact placeless_opening _ _ _ _ _

theorem placeless_here : Placeless here := by
  intro rest failure offset offset' names
  cases rest with
  | nil => simp only [here]
  | cons b rest =>
    simp only [here]
    split
    · exact placeless_markup _ _ _ _ _
    · split <;> rfl

/-- Blanks before a token do not matter. -/
theorem next_placeless {blank : List UInt8} (blanks : ∀ b ∈ blank, isSpace b = true) (rest : List UInt8)
    (failure : Option String) (offset offset' : Nat) (names : List (List UInt8)) :
    (next ⟨blank ++ rest, failure, offset, names⟩).placeless = (next ⟨rest, failure, offset', names⟩).placeless := by
  obtain ⟨more, bytes, split, blanks', stop, next_eq_here⟩ := exists_next ⟨rest, failure, offset', names⟩
  dsimp only at split next_eq_here
  have both : ∀ b ∈ blank ++ more, isSpace b = true := List.forall_mem_append.mpr ⟨blanks, blanks'⟩
  rw [next_eq_here, split, ← List.append_assoc, next_eq _ _ both stop]
  exact placeless_here _ _ _ _ _

/-- A document type declaration stays one, whatever follows it. -/
theorem next_doctype {bytes : List UInt8} {failure : Option String} {offset : Nat} {names : List (List UInt8)}
    (h : next ⟨bytes, failure, offset, names⟩ = .doctype) (more : List UInt8) (failure' : Option String) (offset' : Nat) :
    next ⟨bytes ++ more, failure', offset', names⟩ = .doctype ∧ 0x3C ∈ bytes := by
  obtain ⟨blank, rest, rfl, blanks, stop⟩ := exists_blank bytes
  rw [next_eq blank rest blanks stop] at h
  cases rest with
  | nil =>
    rw [here] at h
    dsimp only at h
    split at h <;> cases h
  | cons b rest =>
    by_cases mark : b = 0x3C
    · subst mark
      rw [here_markup] at h
      rw [List.append_assoc, List.cons_append, next_eq blank (0x3C :: (rest ++ more)) blanks stop, here_markup]
      exact ⟨markup_doctype h more failure' _, by simp⟩
    · rw [here] at h
      dsimp only at h
      rw [if_neg mark] at h
      split at h <;> cases h

end Lexer

end EpcisDigest.Xml
