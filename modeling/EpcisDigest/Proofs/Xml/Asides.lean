import EpcisDigest.Proofs.Xml.CharacterData

namespace EpcisDigest.Xml

theorem lengthBefore?_first {tail seen content : List UInt8} {least length : Nat}
    (earlier : ∀ pre, pre ++ [0x3E] <+: content → least ≤ length + pre.length → ¬ tail <+: pre.reverse ++ seen)
    (enough : least ≤ length + content.length) (ends : tail <+: content.reverse ++ seen) (rest : List UInt8) :
    lengthBefore? tail least length seen (content ++ 0x3E :: rest) = some (length + content.length) := by
  induction content generalizing length seen with
  | nil =>
    rw [List.nil_append, lengthBefore?, if_pos ⟨rfl, enough, List.isPrefixOf_iff_prefix.mpr ends⟩]
    rfl
  | cons b content ih =>
    have goesOn : ¬ (b = 0x3E ∧ least ≤ length ∧ tail.isPrefixOf seen = true) := by
      rintro ⟨rfl, reached, present⟩
      exact earlier [] (List.prefix_append [0x3E] content) reached (List.isPrefixOf_iff_prefix.mp present)
    have earlier' : ∀ pre, pre ++ [0x3E] <+: content → least ≤ length + 1 + pre.length →
        ¬ tail <+: pre.reverse ++ b :: seen := by
      intro pre before reached present
      have before' : (b :: pre) ++ [0x3E] <+: b :: content := (List.prefix_cons_inj b).mpr before
      refine earlier (b :: pre) before' (by rw [List.length_cons]; omega) ?_
      rwa [List.reverse_cons, List.append_assoc]
    rw [List.length_cons] at enough ⊢
    rw [List.reverse_cons, List.append_assoc] at ends
    rw [List.cons_append, lengthBefore?, if_neg goesOn, ih earlier' (by omega) ends]
    congr 1
    omega

theorem infix_of_early {mark body pre : List UInt8} (free : 0x3E ∉ mark) (before : pre ++ [0x3E] <+: body ++ mark)
    (ends : mark <:+ pre) : mark ++ [0x3E] <:+: body := by
  obtain ⟨front, rfl⟩ := ends
  obtain ⟨post, same⟩ := before
  rcases List.append_eq_append_iff.mp same.symm with ⟨more, whole, split⟩ | ⟨more, rfl, _⟩
  · rcases List.eq_nil_or_concat more with rfl | ⟨others, last, rfl⟩
    · rw [List.append_nil] at whole
      exact ⟨front, [], by rw [List.append_nil, ← List.append_assoc, whole]⟩
    · rw [List.concat_eq_append, ← List.append_assoc] at whole
      obtain rfl := List.singleton_inj.mp (List.append_inj' whole rfl).2
      exact absurd (split ▸ List.mem_append_left post (by simp)) free
  · exact ⟨front, more, by simp only [List.append_assoc]⟩

theorem lengthBefore?_marked {mark body seen : List UInt8} {least length : Nat} (free : 0x3E ∉ mark)
    (unended : ¬ mark ++ [0x3E] <:+: body) (enough : least ≤ length + mark.length)
    (reach : least = length + mark.length ∨ seen = []) (rest : List UInt8) :
    lengthBefore? mark.reverse least length seen (body ++ mark ++ 0x3E :: rest) = some (length + (body ++ mark).length) := by
  apply lengthBefore?_first
  · intro pre before reached present
    refine unended (infix_of_early free before ?_)
    rw [← List.reverse_prefix]
    rcases reach with rfl | rfl
    · refine List.prefix_of_prefix_length_le present (List.prefix_append _ _) ?_
      rw [List.length_reverse, List.length_reverse]
      omega
    · rwa [List.append_nil] at present
  · rw [List.length_append]
    omega
  · rw [List.reverse_append, List.append_assoc]
    exact List.prefix_append _ _

inductive Aside where
  | comment (body : List UInt8) (unended : ¬ [0x2D, 0x2D, 0x3E] <:+: body)
  | instruction (body : List UInt8) (unended : ¬ [0x3F, 0x3E] <:+: 0x3F :: body)

namespace Aside

def content : Aside → List UInt8
  | comment body _ => 0x21 :: 0x2D :: 0x2D :: (body ++ [0x2D, 0x2D])
  | instruction body _ => 0x3F :: body ++ [0x3F]

def bytes (aside : Aside) : List UInt8 :=
  0x3C :: (aside.content ++ [0x3E])

end Aside

namespace Lexer

theorem markup_aside (aside : Aside) (rest : List UInt8) (failure : Option String) (offset : Nat)
    (names : List (List UInt8)) : markup ⟨aside.content ++ 0x3E :: rest, failure, offset, names⟩ =
      .token .ignored ⟨rest, failure, offset + (aside.content.length + 1), names⟩ := by
  cases aside with
  | comment body unended =>
    have found : lengthBefore? [0x2D, 0x2D] 5 0 [] (0x21 :: 0x2D :: 0x2D :: (body ++ [0x2D, 0x2D] ++ 0x3E :: rest)) =
        some (0x21 :: 0x2D :: 0x2D :: (body ++ [0x2D, 0x2D])).length := by
      have begun : lengthBefore? [0x2D, 0x2D] 5 0 [] (0x21 :: 0x2D :: 0x2D :: (body ++ [0x2D, 0x2D] ++ 0x3E :: rest)) =
          lengthBefore? [0x2D, 0x2D] 5 3 [0x2D, 0x2D, 0x21] (body ++ [0x2D, 0x2D] ++ 0x3E :: rest) := rfl
      have ends := @lengthBefore?_marked [0x2D, 0x2D] body [0x2D, 0x2D, 0x21] 5 3 (by decide) unended (by decide)
        (.inl rfl) rest
      rw [begun]
      exact ends.trans (congrArg some (Nat.add_comm _ _))
    have made : commentToken (0x21 :: 0x2D :: 0x2D :: (body ++ [0x2D, 0x2D])) = .ok .ignored := by
      have lead : Text.bytesOf "!--" = [0x21, 0x2D, 0x2D] := by decide
      simp [commentToken, lead]
    have declared : markup ⟨(Aside.comment body unended).content ++ 0x3E :: rest, failure, offset, names⟩ =
        cut ⟨0x21 :: 0x2D :: 0x2D :: (body ++ [0x2D, 0x2D]) ++ 0x3E :: rest, failure, offset, names⟩
          (lengthBefore? [0x2D, 0x2D] 5 0 [] (0x21 :: 0x2D :: 0x2D :: (body ++ [0x2D, 0x2D] ++ 0x3E :: rest)))
          commentToken := rfl
    rw [declared, found]
    exact cut_content made rest failure offset names
  | instruction body unended =>
    have found := @lengthBefore?_marked [0x3F] (0x3F :: body) [] 0 0 (by decide) unended (by decide) (.inr rfl) rest
    rw [Nat.zero_add] at found
    have made : instructionToken (0x3F :: body ++ [0x3F]) = .ok .ignored := by
      simp [instructionToken]
    have instructed : markup ⟨(Aside.instruction body unended).content ++ 0x3E :: rest, failure, offset, names⟩ =
        cut ⟨0x3F :: body ++ [0x3F] ++ 0x3E :: rest, failure, offset, names⟩
          (lengthBefore? [0x3F] 0 0 [] (0x3F :: body ++ [0x3F] ++ 0x3E :: rest)) instructionToken := rfl
    rw [instructed]
    exact (congrArg (cut _ · instructionToken) found).trans (cut_content made rest failure offset names)

theorem next_aside (aside : Aside) (rest : List UInt8) (failure : Option String) (offset : Nat)
    (names : List (List UInt8)) : next ⟨aside.bytes ++ rest, failure, offset, names⟩ =
      .token .ignored ⟨rest, failure, offset + 1 + (aside.content.length + 1), names⟩ := by
  have begun := next_eq [] (aside.bytes ++ rest) (List.forall_mem_nil _) (by simp [Aside.bytes, isSpace]) failure offset names
  rw [List.nil_append] at begun
  rw [begun, Aside.bytes, List.cons_append, here_markup, List.append_assoc]
  exact markup_aside aside rest failure _ names

variable (settings : Settings)

theorem trees_aside (builder : Builder) (aside : Aside) (rest : List UInt8) (failure : Option String) (offset offset' : Nat)
    (names : List (List UInt8)) : trees settings builder ⟨aside.bytes ++ rest, failure, offset, names⟩ =
      trees settings builder ⟨rest, failure, offset', names⟩ := by
  rw [trees_token settings (next_aside aside rest failure offset names)]
  exact trees_moved settings rest failure _ offset' names builder

/-- Character data that an aside ends is read on its own. -/
theorem trees_before_aside {builder : Builder} (inside : builder.depth ≠ 0) {left : List UInt8}
    (plain : ∀ b ∈ left, b ≠ 0x3C) {text : String} (read : resolved (trimmed left) = .ok text) (aside : Aside)
    (right : List UInt8) (failure : Option String) (offset : Nat) (names : List (List UInt8)) :
    trees settings builder ⟨left ++ (aside.bytes ++ right), failure, offset, names⟩ =
      trees settings (builder.gain text) ⟨right, failure, 0, names⟩ := by
  have stop : ∀ b ∈ (aside.bytes ++ right).head?, b = 0x3C := by simp [Aside.bytes]
  have more : ¬ (aside.bytes ++ right = [] ∧ failure.isSome = true) := by simp [Aside.bytes]
  rw [trees_data settings inside plain stop, dataTrees, if_neg more, read]
  exact trees_aside settings _ aside right failure 0 0 names

end Lexer

end EpcisDigest.Xml
