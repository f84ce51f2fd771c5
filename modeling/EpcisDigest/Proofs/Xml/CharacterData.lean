import EpcisDigest.Proofs.Text.Utf8
import EpcisDigest.Proofs.Xml.Reading

namespace EpcisDigest.Text

theorem exists_of_encoded_append {cs us : List Char} {bytes : List UInt8}
    (h : us.flatMap String.utf8EncodeChar = cs.flatMap String.utf8EncodeChar ++ bytes) :
    ∃ ds, us = cs ++ ds ∧ bytes = ds.flatMap String.utf8EncodeChar := by
  induction cs generalizing us with
  | nil => exact ⟨us, rfl, h.symm⟩
  | cons c cs ih =>
    cases us with
    | nil =>
      obtain ⟨first, more, encoded, _⟩ := encodeChar_eq_cons c
      rw [List.flatMap_nil, List.flatMap_cons, encoded] at h
      cases h
    | cons u us =>
      rw [List.flatMap_cons, List.flatMap_cons, List.append_assoc] at h
      obtain ⟨rfl, others⟩ := encodeChar_append_inj h
      obtain ⟨ds, rfl, rfl⟩ := ih others
      exact ⟨ds, rfl, rfl⟩

theorem ofBytes?_append {first : List UInt8} {s : String} (h : ofBytes? first = some s) (bytes : List UInt8) :
    ofBytes? (first ++ bytes) = (ofBytes? bytes).map (s ++ ·) := by
  have front := ofBytes?_eq_some_iff.mp h
  cases read : ofBytes? bytes with
  | some t =>
    have back := ofBytes?_eq_some_iff.mp read
    refine ofBytes?_eq_some_iff.mpr ?_
    rw [← front, ← back, bytesOf, String.toList_append, List.flatMap_append]
    rfl
  | none =>
    cases whole : ofBytes? (first ++ bytes) with
    | none => rfl
    | some u =>
      have encoded := ofBytes?_eq_some_iff.mp whole
      rw [← front, bytesOf, bytesOf] at encoded
      obtain ⟨ds, _, rfl⟩ := exists_of_encoded_append encoded
      rw [ofBytes?_eq_some_iff.mpr (bytesOf_ofList ds)] at read
      cases read

end EpcisDigest.Text

namespace EpcisDigest.Xml

theorem resolveFrom_append {name : Option (List Char)} {cs meant : List Char} (h : resolveFrom name cs = some meant)
    (ds : List Char) : resolveFrom name (cs ++ ds) = (resolveFrom none ds).map (meant ++ ·) := by
  induction cs generalizing name meant with
  | nil =>
    cases name with
    | none =>
      cases h
      rw [List.nil_append]
      cases resolveFrom none ds <;> rfl
    | some name => cases h
  | cons c cs ih =>
    rw [List.cons_append]
    cases name with
    | none =>
      simp only [resolveFrom] at h ⊢
      split at h
      · rw [if_pos ‹_›]
        exact ih h
      · rw [if_neg ‹_›]
        obtain ⟨others, resolved, rfl⟩ := Option.map_eq_some_iff.mp h
        rw [ih resolved, Option.map_map]
        rfl
    | some name =>
      simp only [resolveFrom] at h ⊢
      split at h
      · rw [if_pos ‹_›]
        cases reference : reference? name.reverse with
        | none =>
          rw [reference] at h
          cases h
        | some character =>
          rw [reference] at h
          cases resolved : resolveFrom none cs with
          | none =>
            rw [resolved] at h
            cases h
          | some others =>
            rw [resolved] at h
            injection h with h
            subst h
            simp only [Option.bind_eq_bind, Option.bind_some, ih resolved]
            cases resolveFrom none ds <;> rfl
      · rw [if_neg ‹_›]
        split at h
        · cases h
        · rw [if_neg ‹_›]
          exact ih h

theorem resolved_append {first : List UInt8} {text : String} (h : resolved first = .ok text) (bytes : List UInt8) :
    resolved (first ++ bytes) = (resolved bytes).map (text ++ ·) := by
  rw [resolved] at h
  cases read : Text.ofBytes? first with
  | none =>
    rw [read] at h
    cases h
  | some front =>
    rw [read] at h
    cases meant : resolveFrom none front.toList with
    | none =>
      simp only [meant] at h
      cases h
    | some cs =>
      simp only [meant] at h
      injection h with h
      subst h
      rw [resolved, resolved, Text.ofBytes?_append read]
      cases Text.ofBytes? bytes with
      | none => rfl
      | some back =>
        simp only [Option.map_some, String.toList_append, resolveFrom_append meant]
        cases resolveFrom none back.toList with
        | none => rfl
        | some ds =>
          simp only [Option.map_some, Except.map]
          rw [String.ofList_append]

theorem resolved_nil : resolved [] = .ok "" := by
  have read : Text.ofBytes? [] = some "" := Text.ofBytes?_eq_some_iff.mpr rfl
  rw [resolved, read]
  rfl

def trimmed (bytes : List UInt8) : List UInt8 :=
  Lexer.trimmedEnd (bytes.dropWhile isSpace)

theorem trimmed_blank_append {blank : List UInt8} (blanks : ∀ b ∈ blank, isSpace b = true) (bytes : List UInt8) :
    trimmed (blank ++ bytes) = trimmed bytes := by
  rw [trimmed, List.dropWhile_append_of_pos blanks, trimmed]

theorem trimmed_blank {blank : List UInt8} (blanks : ∀ b ∈ blank, isSpace b = true) : trimmed blank = [] := by
  have nothing := trimmed_blank_append blanks []
  rwa [List.append_nil] at nothing

theorem trimmedEnd_append {first : List UInt8} (last : first.getLast?.any isSpace = false) (bytes : List UInt8) :
    Lexer.trimmedEnd (first ++ bytes) = first ++ Lexer.trimmedEnd bytes := by
  have kept : first.reverse.dropWhile isSpace = first.reverse := by
    rw [← List.head?_reverse] at last
    cases reversed : first.reverse with
    | nil => rfl
    | cons b others =>
      rw [reversed] at last
      exact List.dropWhile_cons_of_neg (by simpa using last)
  rw [Lexer.trimmedEnd, List.reverse_append, List.dropWhile_append, Lexer.trimmedEnd]
  split
  · rename_i nothing
    rw [List.isEmpty_iff.mp nothing, kept, List.reverse_reverse, List.reverse_nil, List.append_nil]
  · rw [List.reverse_append, List.reverse_reverse]

theorem trimmedEnd_append_blank (bytes : List UInt8) {blank : List UInt8} (blanks : ∀ b ∈ blank, isSpace b = true) :
    Lexer.trimmedEnd (bytes ++ blank) = Lexer.trimmedEnd bytes := by
  have reversed : ∀ b ∈ blank.reverse, isSpace b = true := fun b member => blanks b (List.mem_reverse.mp member)
  rw [Lexer.trimmedEnd, List.reverse_append, List.dropWhile_append_of_pos reversed, Lexer.trimmedEnd]

theorem exists_trimmedEnd (bytes : List UInt8) : ∃ blank, bytes = Lexer.trimmedEnd bytes ++ blank ∧
    (∀ b ∈ blank, isSpace b = true) ∧ (Lexer.trimmedEnd bytes).getLast?.any isSpace = false := by
  obtain ⟨blank, rest, reversed, blanks, stop⟩ := Lexer.exists_blank bytes.reverse
  have kept : Lexer.trimmedEnd bytes = rest.reverse := by
    rw [Lexer.trimmedEnd, reversed, (Json.takeWhile_append_of_head blanks stop).2]
  refine ⟨blank.reverse, ?_, fun b member => blanks b (List.mem_reverse.mp member), ?_⟩
  · rw [kept, ← List.reverse_append, ← reversed, List.reverse_reverse]
  · rw [kept, List.getLast?_reverse]
    cases rest with
    | nil => rfl
    | cons b rest => exact stop b rfl

theorem trimmed_append_blank (bytes : List UInt8) {blank : List UInt8} (blanks : ∀ b ∈ blank, isSpace b = true) :
    trimmed (bytes ++ blank) = trimmed bytes := by
  rw [trimmed, List.dropWhile_append]
  split
  · rename_i nothing
    have none : blank.dropWhile isSpace = [] := by
      rw [← List.append_nil blank, List.dropWhile_append_of_pos blanks, List.dropWhile_nil]
    rw [none, trimmed, List.isEmpty_iff.mp nothing]
  · rw [trimmedEnd_append_blank _ blanks, trimmed]

/-- Where no blank stands on either side, two pieces are trimmed as they are when they are one. -/
theorem trimmed_append {first bytes : List UInt8} (last : first.getLast?.any isSpace = false)
    (next : bytes.head?.any isSpace = false) : trimmed (first ++ bytes) = trimmed first ++ trimmed bytes := by
  have kept : bytes.dropWhile isSpace = bytes := by
    cases bytes with
    | nil => rfl
    | cons b bytes => exact List.dropWhile_cons_of_neg (by simpa using next)
  rw [trimmed, List.dropWhile_append, trimmed, trimmed, kept]
  split
  · rename_i nothing
    rw [List.isEmpty_iff.mp nothing]
    rfl
  · have core : (first.dropWhile isSpace).getLast?.any isSpace = false := by
      have whole := List.takeWhile_append_dropWhile (p := isSpace) (l := first)
      rw [← whole, List.getLast?_append] at last
      cases ends : (first.dropWhile isSpace).getLast? with
      | none => rfl
      | some b =>
        rw [ends] at last
        exact last
    have alone := trimmedEnd_append core []
    rw [List.append_nil] at alone
    rw [trimmedEnd_append core, alone]
    simp [Lexer.trimmedEnd]

namespace Builder

def gain (builder : Builder) (text : String) : Builder :=
  let gained (frame : Frame) : Frame := { frame with text := frame.text ++ text }
  { builder with frames := if builder.ignored = 0 then builder.frames.modifyHead gained else builder.frames }

theorem gain_namespaces (builder : Builder) (text : String) :
    (builder.gain text).namespaces = builder.namespaces := rfl

theorem gain_depth (builder : Builder) (text : String) : (builder.gain text).depth = builder.depth := rfl

theorem addText_inside {builder : Builder} (inside : builder.depth ≠ 0) (text : String) :
    builder.addText text = .ok (builder.gain text) := by
  obtain ⟨namespaces, frames, depth, ignored⟩ := builder
  rw [addText, if_neg inside, gain]
  cases ignored with
  | zero => cases frames <;> rfl
  | succ ignored => cases frames <;> rfl

theorem addText_empty (builder : Builder) : builder.addText "" = .ok builder := by
  obtain ⟨namespaces, frames, depth, ignored⟩ := builder
  rw [addText]
  split
  · rfl
  · cases frames with
    | nil => rfl
    | cons frame frames =>
      cases ignored with
      | zero => simp only [String.append_empty]
      | succ ignored => rfl

theorem gain_gain (builder : Builder) (text more : String) :
    (builder.gain text).gain more = builder.gain (text ++ more) := by
  simp only [gain]
  split
  · rw [List.modifyHead_modifyHead]
    simp only [Function.comp_def, String.append_assoc]
  · rfl

theorem gain_empty (builder : Builder) : builder.gain "" = builder := by
  simp only [gain, String.append_empty]
  split
  · rw [show (fun frame : Frame => frame) = id from rfl, List.modifyHead_id]
    rfl
  · rfl

end Builder

namespace Lexer

variable (settings : Settings)

/-- Character data is one text, without the blanks around it. -/
theorem trees_text (builder : Builder) {data tail : List UInt8} (plain : ∀ b ∈ data, b ≠ 0x3C)
    (stop : ∀ b ∈ tail.head?, b = 0x3C) (failure : Option String) (offset : Nat) (names : List (List UInt8)) :
    trees settings builder ⟨data ++ tail, failure, offset, names⟩ =
      if tail = [] ∧ failure.isSome = true then ([.error (.markup 0 .source)], builder.namespaces)
      else match resolved (trimmed data) with
        | .error cause => ([.error (.markup 0 cause)], builder.namespaces)
        | .ok text => builder.onStep settings (trees settings · ⟨tail, failure, 0, names⟩) (.text text) := by
  obtain ⟨blank, core, rfl, blanks, ends⟩ := exists_blank data
  rw [List.append_assoc, trees_blanks settings blanks (core ++ tail) failure offset 0, trimmed_blank_append blanks]
  cases core with
  | nil =>
    have nothing : trimmed [] = [] := rfl
    rw [nothing, resolved_nil, List.nil_append]
    dsimp only
    rw [Builder.onStep, Builder.step, Builder.addText_empty]
    split
    · rename_i ended
      obtain ⟨rfl, failing⟩ := ended
      have cut : next ⟨[], failure, 0, names⟩ = .failed .source := by
        rw [← List.nil_append [], next_eq [] [] (List.forall_mem_nil _) (by simp), here, if_pos failing]
      exact trees_failed settings cut builder
    · rfl
  | cons b core =>
    have all : ∀ b' ∈ b :: core, b' ≠ 0x3C := fun b' member => plain b' (List.mem_append_right _ member)
    have begins : ∀ b' ∈ (b :: core ++ tail).head?, isSpace b' = false := by
      intro b' head
      cases head
      exact ends b rfl
    have core_eq : trimmed (b :: core) = trimmedEnd (b :: core) := by
      rw [trimmed, List.dropWhile_cons_of_neg (by simpa using ends b rfl)]
    have cut := next_eq [] (b :: core ++ tail) (List.forall_mem_nil _) begins failure 0 names
    rw [here_text all stop] at cut
    rw [core_eq]
    split
    · rename_i ended
      rw [if_pos ended] at cut
      exact trees_failed settings cut builder
    · rename_i goesOn
      rw [if_neg goesOn] at cut
      rw [← List.nil_append (b :: core ++ tail), trees_token settings cut, Builder.onToken, Step.ofToken]
      cases resolved (trimmedEnd (b :: core)) with
      | error cause => rfl
      | ok text =>
        dsimp only [Except.map]
        congr 1
        exact funext fun after => trees_moved settings tail failure _ 0 names after

def dataTrees (builder : Builder) (data tail : List UInt8) (failure : Option String) (names : List (List UInt8)) :
    Outcome :=
  if tail = [] ∧ failure.isSome = true then ([.error (.markup 0 .source)], builder.namespaces)
  else match resolved (trimmed data) with
    | .error cause => ([.error (.markup 0 cause)], builder.namespaces)
    | .ok text => trees settings (builder.gain text) ⟨tail, failure, 0, names⟩

theorem trees_data {builder : Builder} (inside : builder.depth ≠ 0) {data tail : List UInt8}
    (plain : ∀ b ∈ data, b ≠ 0x3C) (stop : ∀ b ∈ tail.head?, b = 0x3C) (failure : Option String) (offset : Nat)
    (names : List (List UInt8)) :
    trees settings builder ⟨data ++ tail, failure, offset, names⟩ =
      dataTrees settings builder data tail failure names := by
  rw [trees_text settings builder plain stop, dataTrees]
  cases resolved (trimmed data) with
  | error cause => rfl
  | ok text =>
    dsimp only
    rw [Builder.onStep, Builder.step, Builder.addText_inside inside]
    rfl

/-- No blank stands on either side of a position, or only blanks on one side of it up to the next markup. -/
def Joint (left right : List UInt8) : Prop :=
  (left.getLast?.any isSpace = false ∧ right.head?.any isSpace = false) ∨ left.all isSpace = true ∨
    (right.takeWhile (· != 0x3C)).all isSpace = true

instance (left right : List UInt8) : Decidable (Joint left right) := inferInstanceAs (Decidable (_ ∨ _))

/-- At such a position character data can be read in two pieces. -/
theorem trees_joint {builder : Builder} (inside : builder.depth ≠ 0) {left right : List UInt8}
    (plain : ∀ b ∈ left, b ≠ 0x3C) {text : String} (read : resolved (trimmed left) = .ok text) (joint : Joint left right)
    (failure : Option String) (offset : Nat) (names : List (List UInt8)) :
    trees settings builder ⟨left ++ right, failure, offset, names⟩ =
      trees settings (builder.gain text) ⟨right, failure, 0, names⟩ := by
  obtain ⟨data, tail, rfl, plain', stop⟩ := exists_data right
  have both : ∀ b ∈ left ++ data, b ≠ 0x3C := List.forall_mem_append.mpr ⟨plain, plain'⟩
  have inside' : (builder.gain text).depth ≠ 0 := by rwa [Builder.gain_depth]
  -- Where a side is blank it gives no text, and the whole is trimmed to the other side.
  have whole : resolved (trimmed (left ++ data)) = (resolved (trimmed data)).map (text ++ ·) := by
    rcases joint with ⟨last, next⟩ | blanks | blanks
    · have next' : data.head?.any isSpace = false := by
        cases data with
        | nil => rfl
        | cons b data => exact next
      rw [trimmed_append last next', resolved_append read]
    · rw [List.all_eq_true] at blanks
      rw [trimmed_blank blanks, resolved_nil] at read
      cases read
      rw [trimmed_blank_append blanks]
      cases resolved (trimmed data) with
      | error cause => rfl
      | ok more => rw [Except.map, String.empty_append]
    · rw [(takeWhile_data plain' stop).1, List.all_eq_true] at blanks
      rw [trimmed_append_blank left blanks, trimmed_blank blanks, resolved_nil, read, Except.map, String.append_empty]
  rw [← List.append_assoc, trees_data settings inside both stop, trees_data settings inside' plain' stop, dataTrees,
    dataTrees, whole, Builder.gain_namespaces]
  cases resolved (trimmed data) with
  | error cause => rfl
  | ok more =>
    dsimp only [Except.map]
    rw [Builder.gain_gain]

end Lexer

end EpcisDigest.Xml
