import EpcisDigest.Proofs.Xml.Asides

namespace EpcisDigest

def HashError.placeless : HashError → HashError
  | xml error => xml error.placeless
  | error => error

theorem untilError_map {ε ε' α : Type} (f : ε → ε') (results : List (Except ε α)) :
    (untilError results).map (Except.mapError f) = untilError (results.map (Except.mapError f)) := by
  induction results with
  | nil => rfl
  | cons result results ih =>
    cases result with
    | ok a => exact congrArg (.ok a :: ·) ih
    | error e => rfl

def hashing (settings : Settings) (source : Source) : List (Except HashError Results) :=
  (hashXml settings source).map (Except.mapError HashError.placeless)

theorem hashing_eq (settings : Settings) (source : Source) : hashing settings source =
    untilError ((Xml.reading settings source).1.map fun tree => (tree.mapError .xml).bind (hashTree settings)) := by
  have each : ∀ tree : Except Xml.ReadError EventTree,
      ((tree.mapError .xml).bind (hashTree settings)).mapError HashError.placeless =
        ((tree.mapError Xml.ReadError.placeless).mapError .xml).bind (hashTree settings) := by
    intro tree
    cases tree with
    | error error => rfl
    | ok tree =>
      change (hashTree settings tree).mapError HashError.placeless = hashTree settings tree
      rw [hashTree]
      cases tree.results settings with
      | ok results => rfl
      | error fault => cases fault <;> rfl
  rw [hashing, hashXml, untilError_map, Xml.reading, List.map_map, List.map_map]
  exact congrArg untilError (List.map_congr_left fun tree _ => each tree)

end EpcisDigest

namespace EpcisDigest.Xml

/-- A position in a document, which is read up to `lexer`, less than a token before the position. -/
structure Position (source : Source) where
  front : List UInt8
  left : List UInt8
  right : List UInt8
  lexer : Lexer
  bytes : source.bytes = front ++ (left ++ right)
  passes : Lexer.Passes (.ofSource source) lexer
  rest : lexer.rest = left ++ right

namespace Position

variable {source : Source} (position : Position source)

def replaced (rest : List UInt8) : Source :=
  ⟨position.front ++ rest, source.failure⟩

def insert (aside : Aside) : Source :=
  position.replaced (position.left ++ (aside.bytes ++ position.right))

def closed : Source :=
  position.replaced (Lexer.trimmedEnd position.left ++ position.right.dropWhile isSpace)

/-- The position is in an element, beside or in character data. No character and no reference goes on behind it. -/
structure InContent : Prop where
  inside : position.lexer.openNames ≠ []
  plain : 0x3C ∉ position.left
  complete : (resolved (trimmed position.left)).isOk = true

def IsBehindDoctype : Prop :=
  Lexer.next { position.lexer with rest := position.left, failure := none } = .doctype

theorem replaced_self : position.replaced (position.left ++ position.right) = source := by
  obtain ⟨bytes, failure⟩ := source
  rw [replaced, ← position.bytes]

variable (settings : Settings)

theorem reading_replaced {shared behind rest rest' : List UInt8}
    (split : position.left ++ position.right = shared ++ behind)
    (begun : position.lexer.openNames ≠ [] ∨ 0x3C ∈ shared)
    (marked : Lexer.Marked position.lexer.failure (position.left ++ position.right) →
      Lexer.Marked position.lexer.failure (shared ++ rest) ∧ Lexer.Marked position.lexer.failure (shared ++ rest'))
    (agree : Lexer.Agree settings { position.lexer with rest := shared ++ rest }
      { position.lexer with rest := shared ++ rest' }) :
    reading settings (position.replaced (shared ++ rest)) = reading settings (position.replaced (shared ++ rest')) := by
  rw [← position.rest] at marked
  obtain ⟨used, reached, opens, agree⟩ := position.passes.agree marked agree
  have begins : 0x3C ∈ position.front ++ shared := by
    rcases begun with inside | begun
    · rcases opens with none | begun
      · exact absurd none inside
      · obtain ⟨mark, whole⟩ := Lexer.rest_ofSource_suffix source
        rw [reached, position.rest, position.bytes, ← List.append_assoc] at whole
        have front := List.append_cancel_right whole
        exact List.mem_append_left _ (front ▸ List.mem_append_right mark begun)
    · exact List.mem_append_right _ begun
  obtain ⟨started, again⟩ := Lexer.ofSource_append begins source.failure
  have origin : Lexer.ofSource source = ⟨started ++ behind, source.failure, 0, []⟩ := by
    rw [← again behind, List.append_assoc, ← split, ← position.bytes]
  rw [origin, position.rest, split, ← List.append_assoc] at reached
  obtain rfl : started = used ++ shared := List.append_cancel_right reached
  have same := agree .empty (by rw [origin]; rfl)
  rw [origin] at same
  rw [Lexer.reading_eq, Lexer.reading_eq, replaced, replaced, ← List.append_assoc, ← List.append_assoc, again, again,
    List.append_assoc, List.append_assoc]
  exact same

variable {position}

/-- In the content of an element what stands around the position can be replaced where it is read alike. -/
theorem InContent.reading_replaced (content : position.InContent) {rest rest' : List UInt8}
    (marked : position.left = [] → Lexer.Marked position.lexer.failure position.right →
      Lexer.Marked position.lexer.failure rest ∧ Lexer.Marked position.lexer.failure rest')
    (agree : ∀ builder : Builder, builder.depth ≠ 0 →
      Lexer.trees settings builder { position.lexer with rest } =
        Lexer.trees settings builder { position.lexer with rest := rest' }) :
    reading settings (position.replaced rest) = reading settings (position.replaced rest') := by
  refine @Position.reading_replaced source position settings [] _ rest rest' rfl (.inl content.inside) ?_ ?_
  · intro before
    have nothing : position.left = [] := by
      cases left : position.left with
      | nil => rfl
      | cons b others =>
        rw [left] at before
        obtain rfl : b = 0x3C := Lexer.marked_cons.mp before
        exact absurd (left ▸ List.mem_cons_self) content.plain
    rw [nothing] at before
    exact marked nothing before
  · intro builder depth
    exact agree builder (by rw [depth]; exact mt List.length_eq_zero_iff.mp content.inside)

theorem marked_of_blanks {blank rest : List UInt8} {failure : Option String} (blanks : ∀ b ∈ blank, isSpace b = true)
    (marked : Lexer.Marked failure (blank ++ rest)) : Lexer.Marked failure rest := by
  cases blank with
  | nil => exact marked
  | cons b blank =>
    obtain rfl : b = 0x3C := Lexer.marked_cons.mp marked
    cases blanks 0x3C List.mem_cons_self

theorem InContent.exists_text (content : position.InContent) : ∃ text, resolved (trimmed position.left) = .ok text := by
  have complete := content.complete
  cases read : resolved (trimmed position.left) with
  | error cause =>
    rw [read] at complete
    cases complete
  | ok text => exact ⟨text, rfl⟩

/-- With the insertion a document gives what it gives without some of the blanks around the position, if these do not
    stand between two words there. -/
theorem InContent.reading_insert (content : position.InContent) {left right blank blank' : List UInt8}
    (before : position.left = left ++ blank) (behind : position.right = blank' ++ right)
    (blanks : ∀ b ∈ blank, isSpace b = true) (blanks' : ∀ b ∈ blank', isSpace b = true)
    (joint : Lexer.Joint left right) (aside : Aside) :
    reading settings (position.insert aside) = reading settings (position.replaced (left ++ right)) := by
  obtain ⟨text, read⟩ := content.exists_text
  have read' := read
  rw [before, trimmed_append_blank left blanks] at read'
  have plain : ∀ b ∈ position.left, b ≠ 0x3C := fun _ member mark => content.plain (mark ▸ member)
  have plain' : ∀ b ∈ left, b ≠ 0x3C := fun b member => plain b (before ▸ List.mem_append_left blank member)
  apply content.reading_replaced settings
  · intro none marked
    obtain ⟨rfl, rfl⟩ := List.append_eq_nil_iff.mp (before.symm.trans none)
    rw [none]
    exact ⟨.inl rfl, marked_of_blanks blanks' (behind ▸ marked)⟩
  · intro builder inside
    calc Lexer.trees settings builder
          { position.lexer with rest := position.left ++ (aside.bytes ++ position.right) }
      _ = Lexer.trees settings (builder.gain text) { position.lexer with rest := position.right, offset := 0 } :=
        Lexer.trees_before_aside settings inside plain read aside _ _ _ _
      _ = Lexer.trees settings (builder.gain text) { position.lexer with rest := right, offset := 0 } := by
        rw [behind]
        exact Lexer.trees_blanks settings blanks' right _ 0 0 _ _
      _ = Lexer.trees settings builder { position.lexer with rest := left ++ right } :=
        (Lexer.trees_joint settings inside plain' read' joint _ _ _).symm

theorem InContent.reading_closed (content : position.InContent) (aside : Aside) :
    reading settings (position.insert aside) = reading settings position.closed := by
  obtain ⟨blank, before, blanks, ends⟩ := exists_trimmedEnd position.left
  obtain ⟨blank', right, behind, blanks', begins⟩ := Lexer.exists_blank position.right
  have dropped := (Json.takeWhile_append_of_head blanks' begins).2
  rw [closed, behind, dropped]
  refine content.reading_insert settings before behind blanks blanks' (.inl ⟨ends, ?_⟩) aside
  cases right with
  | nil => rfl
  | cons b right => exact begins b rfl

theorem IsBehindDoctype.reading_insert (behind : position.IsBehindDoctype) (aside : Aside) :
    reading settings (position.insert aside) = reading settings source := by
  have refused := fun more => Lexer.next_doctype behind more position.lexer.failure position.lexer.offset
  have begun := (refused []).2
  obtain ⟨b, others, left⟩ := List.exists_cons_of_ne_nil (List.ne_nil_of_mem begun)
  suffices same : reading settings (position.insert aside) =
      reading settings (position.replaced (position.left ++ position.right)) by
    rwa [position.replaced_self] at same
  refine position.reading_replaced settings rfl (.inr begun) ?_ ?_
  · intro marked
    rw [left] at marked ⊢
    have mark := Lexer.marked_cons.mp marked
    exact ⟨Lexer.marked_cons.mpr mark, Lexer.marked_cons.mpr mark⟩
  · intro builder _
    rw [Lexer.trees_eq, Lexer.trees_eq, (refused _).1, (refused _).1]

end Position

structure ReadAlike (settings : Settings) (source source' : Source) : Prop where
  reading : reading settings source = reading settings source'
  hashing : hashing settings source = hashing settings source'

theorem ReadAlike.of_reading {settings : Settings} {source source' : Source}
    (same : Xml.reading settings source = Xml.reading settings source') : ReadAlike settings source source' :=
  ⟨same, by rw [hashing_eq, hashing_eq, same]⟩

/-- In the content of an element a comment or a processing instruction takes the blanks around it away. Where these do
    not stand between two words it does not matter, and nowhere behind a document type declaration, which is refused. -/
theorem readAlike_insert (settings : Settings) {source : Source} (position : Position source) (aside : Aside) :
    (position.InContent → ReadAlike settings (position.insert aside) position.closed) ∧
    (position.InContent → Lexer.Joint position.left position.right →
      ReadAlike settings (position.insert aside) source) ∧
    (position.IsBehindDoctype → ReadAlike settings (position.insert aside) source) := by
  refine ⟨fun content => .of_reading (content.reading_closed settings aside), fun content joint => .of_reading ?_,
    fun behind => .of_reading (behind.reading_insert settings aside)⟩
  have none : ∀ b ∈ ([] : List UInt8), isSpace b = true := List.forall_mem_nil _
  have same := content.reading_insert settings (List.append_nil _).symm (List.nil_append _).symm none none joint aside
  rwa [position.replaced_self] at same

def shortComment : Aside :=
  .comment [0x78] (by decide)

def spokenSource (left right : List UInt8) : Source :=
  .whole (Text.bytesOf "<ObjectEvent><note>" ++ (left ++ right))

theorem passes_spoken (left right : List UInt8) : Lexer.Passes (.ofSource (spokenSource left right))
    ⟨left ++ right, none, 19, [Text.bytesOf "note", Text.bytesOf "ObjectEvent"]⟩ := by
  have event : Lexer.next (.ofSource (spokenSource left right)) = .token (.opening (Text.bytesOf "ObjectEvent"))
      ⟨Text.bytesOf "<note>" ++ (left ++ right), none, 13, [Text.bytesOf "ObjectEvent"]⟩ := rfl
  have note : Lexer.next ⟨Text.bytesOf "<note>" ++ (left ++ right), none, 13, [Text.bytesOf "ObjectEvent"]⟩ =
      .token (.opening (Text.bytesOf "note"))
        ⟨left ++ right, none, 19, [Text.bytesOf "note", Text.bytesOf "ObjectEvent"]⟩ := rfl
  exact .token event (.token note (.here _))

def spokenPosition (left right : List UInt8) : Position (spokenSource left right) where
  front := Text.bytesOf "<ObjectEvent><note>"
  left := left
  right := right
  lexer := ⟨left ++ right, none, 19, [Text.bytesOf "note", Text.bytesOf "ObjectEvent"]⟩
  bytes := rfl
  passes := passes_spoken left right
  rest := rfl

theorem inContent_spoken {left : List UInt8} (plain : 0x3C ∉ left) (complete : (resolved (trimmed left)).isOk = true)
    (right : List UInt8) : (spokenPosition left right).InContent :=
  ⟨List.cons_ne_nil _ _, plain, complete⟩

def refusedSource : Source :=
  .whole (Text.bytesOf "<!DOCTYPE a><a>" ++ Text.bytesOf "b</a>")

def refusedPosition : Position refusedSource where
  front := []
  left := Text.bytesOf "<!DOCTYPE a><a>"
  right := Text.bytesOf "b</a>"
  lexer := .ofSource refusedSource
  bytes := rfl
  passes := .here _
  rest := rfl

theorem readAlike_insert_word :
    let left := Text.bytesOf "fo"
    let right := Text.bytesOf "o</note></ObjectEvent>"
    let position := spokenPosition left right
    position.InContent ∧ Lexer.Joint left right ∧ refusedPosition.IsBehindDoctype ∧
    (hashing Settings.standard (spokenSource left right)).map Except.isOk = [true] ∧
    ReadAlike Settings.standard (position.insert shortComment) position.closed ∧
    ReadAlike Settings.standard (position.insert shortComment) (spokenSource left right) ∧
    ReadAlike Settings.standard (refusedPosition.insert shortComment) refusedSource := by
  intro left right position
  have content : position.InContent := inContent_spoken (by decide) (by decide +kernel) right
  have joint : Lexer.Joint left right := by decide
  have behind : refusedPosition.IsBehindDoctype := by
    have cut : Lexer.next ⟨Text.bytesOf "<!DOCTYPE a><a>", none, 0, []⟩ = .doctype := by decide +kernel
    exact cut
  obtain ⟨closed, same, _⟩ := readAlike_insert Settings.standard position shortComment
  obtain ⟨_, _, refused⟩ := readAlike_insert Settings.standard refusedPosition shortComment
  exact ⟨content, joint, behind, by decide +kernel, closed content, same content joint, refused behind⟩

def prehashed : Settings :=
  ⟨Settings.Draft.standard.request [Output.prehashName], List.cons_ne_nil _ _⟩

/-- In `foo <!--x-->bar` the comment takes the blank away. -/
theorem not_readAlike_insert_spaced :
    let left := Text.bytesOf "foo "
    let right := Text.bytesOf "bar</note></ObjectEvent>"
    (spokenPosition left right).InContent ∧
    reading prehashed ((spokenPosition left right).insert shortComment) ≠ reading prehashed (spokenSource left right) ∧
    hashing prehashed ((spokenPosition left right).insert shortComment) ≠ hashing prehashed (spokenSource left right) := by
  intro left right
  have trees : (reading prehashed ((spokenPosition left right).insert shortComment)).1.map Except.toOption ≠
      (reading prehashed (spokenSource left right)).1.map Except.toOption := by decide +kernel
  have results : (hashing prehashed ((spokenPosition left right).insert shortComment)).map Except.toOption ≠
      (hashing prehashed (spokenSource left right)).map Except.toOption := by decide +kernel
  exact ⟨inContent_spoken (by decide) (by decide +kernel) right,
    mt (congrArg fun outcome => outcome.1.map Except.toOption) trees, mt (congrArg (List.map Except.toOption)) results⟩

end EpcisDigest.Xml
