import EpcisDigest.Hashing
import EpcisDigest.Proofs.Xml.Lexing

namespace EpcisDigest.Xml

def ReadError.placeless : ReadError → ReadError
  | markup _ cause => markup 0 cause
  | refused refusal => refused refusal

abbrev Outcome := List (Except ReadError EventTree) × Namespaces

def reading (settings : Settings) (source : Source) : Outcome :=
  ((eventTrees settings source).1.map (Except.mapError ReadError.placeless), (eventTrees settings source).2)

namespace Builder

variable (settings : Settings)

def ending (builder : Builder) (refusal : Option Refusal) (failure : Option ReadError) : Option ReadError :=
  match refusal, failure with
  | some refusal, _ => some (.refused refusal)
  | none, some failure => some failure
  | none, none => if builder.isOpen then some (.refused .unclosed) else none

def outcome (builder : Builder) (steps : List Step) (failure : Option ReadError) : Outcome :=
  let (trees, refusal, builder) := builder.run settings steps
  (trees.map .ok ++ ((builder.ending refusal failure).map .error).toList, builder.namespaces)

theorem eventTrees_eq (source : Source) :
    eventTrees settings source = empty.outcome settings (steps source).1 (steps source).2 := rfl

theorem outcome_placeless (builder : Builder) (steps : List Step) (failure : Option ReadError) :
    builder.outcome settings steps (failure.map ReadError.placeless) =
      ((builder.outcome settings steps failure).1.map (Except.mapError ReadError.placeless),
        (builder.outcome settings steps failure).2) := by
  have trees : ∀ trees : List EventTree,
      (trees.map (.ok : EventTree → Except ReadError EventTree)).map (Except.mapError ReadError.placeless) =
        trees.map .ok := by
    intro trees
    rw [List.map_map]
    rfl
  rw [outcome, outcome]
  rcases builder.run settings steps with ⟨found, refusal, after⟩
  dsimp only
  rw [List.map_append, trees]
  cases refusal with
  | some refusal => rfl
  | none =>
    cases failure with
    | some failure => rfl
    | none =>
      rw [Option.map_none, ending]
      split <;> rfl

def onStep (continued : Builder → Outcome) (builder : Builder) (step : Step) : Outcome :=
  match builder.step settings step with
  | .error refusal => ([.error (.refused refusal)], builder.namespaces)
  | .ok (tree, builder) => (tree.toList.map .ok ++ (continued builder).1, (continued builder).2)

theorem outcome_cons (builder : Builder) (step : Step) (steps : List Step) (failure : Option ReadError) :
    builder.outcome settings (step :: steps) failure =
      builder.onStep settings (fun builder => builder.outcome settings steps failure) step := by
  rw [outcome, run, onStep]
  cases builder.step settings step with
  | error refusal => rfl
  | ok result =>
    obtain ⟨tree, after⟩ := result
    simp only [outcome, List.map_append, List.append_assoc]

def onToken (continued : Builder → Outcome) (builder : Builder) (token : Token) : Outcome :=
  match Step.ofToken token with
  | .error cause => ([.error (.markup 0 cause)], builder.namespaces)
  | .ok none => continued builder
  | .ok (some step) => builder.onStep settings continued step

end Builder

theorem exists_of_map_ok {ε α β : Type} {f : α → β} {result : Except ε α} {b : β} (h : result.map f = .ok b) :
    ∃ a, result = .ok a ∧ b = f a := by
  cases result with
  | error e => cases h
  | ok a =>
    injection h with h
    exact ⟨a, rfl, h.symm⟩

def Step.depth (depth : Nat) : Step → Nat
  | opening _ _ false => depth + 1
  | closing => depth - 1
  | _ => depth

theorem depth_element {content : List UInt8} {isEmpty : Bool} {step : Step} (h : element content isEmpty = .ok step) :
    ∃ name attributes, step = .opening name attributes isEmpty := by
  rw [element] at h
  dsimp only [bind, Except.bind] at h
  split at h
  · cases h
  · injection h with step_eq
    exact ⟨_, _, step_eq.symm⟩

theorem depth_ofToken {token : Token} {step : Option Step} (h : Step.ofToken token = .ok step) (depth : Nat) :
    step.elim depth (Step.depth depth) = token.depth depth := by
  cases token with
  | opening content =>
    obtain ⟨opened, made, rfl⟩ := exists_of_map_ok h
    obtain ⟨name, attributes, rfl⟩ := depth_element made
    rfl
  | empty content =>
    obtain ⟨opened, made, rfl⟩ := exists_of_map_ok h
    obtain ⟨name, attributes, rfl⟩ := depth_element made
    rfl
  | text content =>
    obtain ⟨text, _, rfl⟩ := exists_of_map_ok h
    rfl
  | closing => cases h; rfl
  | verbatim content => cases h; rfl
  | ignored => cases h; rfl

namespace Builder

variable (settings : Settings)

theorem depth_openElement (builder : Builder) (name : String) (attributes : List (String × String)) :
    (builder.openElement settings name attributes).depth = builder.depth := by
  obtain ⟨namespaces, frames, depth, ignored⟩ := builder
  simp only [openElement]
  split
  · rfl
  · cases frames <;> dsimp only <;> split <;> rfl

theorem depth_closeElement (builder : Builder) : builder.closeElement.2.depth = builder.depth := by
  obtain ⟨namespaces, frames, depth, ignored⟩ := builder
  simp only [closeElement]
  split
  · rfl
  · match frames with
    | [] => rfl
    | [_] => rfl
    | _ :: _ :: _ => rfl

theorem depth_addText {builder after : Builder} {text : String} (h : builder.addText text = .ok after) :
    after.depth = builder.depth := by
  obtain ⟨namespaces, frames, depth, ignored⟩ := builder
  simp only [addText] at h
  split at h
  · split at h
    · cases h; rfl
    · cases h
  · split at h <;> cases h <;> rfl

theorem depth_step {builder after : Builder} {step : Step} {tree : Option EventTree}
    (h : builder.step settings step = .ok (tree, after)) : after.depth = step.depth builder.depth := by
  cases step with
  | opening name attributes isEmpty =>
    injection h with h
    cases isEmpty with
    | false =>
      injection h with _ after_eq
      rw [← after_eq, depth_openElement]
      rfl
    | true =>
      have closed := depth_closeElement (builder.deeper.openElement settings name attributes).shallower
      have opened := depth_openElement settings builder.deeper name attributes
      rw [if_pos rfl] at h
      rw [h] at closed
      rw [closed, shallower, opened]
      rfl
  | closing =>
    injection h with h
    have closed := depth_closeElement builder.shallower
    rw [h] at closed
    exact closed
  | text text =>
    obtain ⟨added, ok, same⟩ := exists_of_map_ok h
    injection same with _ after_eq
    rw [after_eq]
    exact depth_addText ok

theorem onToken_congr {continued continued' : Builder → Outcome} {builder : Builder} {token : Token}
    (agree : ∀ after, after.depth = token.depth builder.depth → continued after = continued' after) :
    builder.onToken settings continued token = builder.onToken settings continued' token := by
  rw [onToken, onToken]
  cases made : Step.ofToken token with
  | error cause => rfl
  | ok step =>
    have depth := depth_ofToken made builder.depth
    cases step with
    | none => exact agree builder depth
    | some step =>
      dsimp only
      rw [onStep, onStep]
      cases stepped : builder.step settings step with
      | error refusal => rfl
      | ok result =>
        obtain ⟨tree, after⟩ := result
        dsimp only
        rw [agree after ((depth_step settings stepped).trans depth)]

end Builder

namespace Lexer

theorem Reads.fewer {lexer after : Lexer} {token : Token} {used : List UInt8} (reads : Reads lexer token after used) :
    after.rest.length < lexer.rest.length := by
  have some := List.length_pos_iff.mpr reads.present
  rw [reads.split, List.length_append]
  omega

/-- It does not matter how many tokens are allowed, when there are enough. -/
theorem stepsWithin_enough {lexer : Lexer} {count count' : Nat} (enough : lexer.rest.length < count)
    (enough' : lexer.rest.length < count') : stepsWithin count lexer = stepsWithin count' lexer := by
  induction bound : lexer.rest.length using Nat.strongRecOn generalizing lexer count count' with
  | ind length ih =>
    subst bound
    obtain ⟨count, rfl⟩ := Nat.exists_eq_add_of_lt (Nat.lt_of_le_of_lt (Nat.zero_le _) enough)
    obtain ⟨count', rfl⟩ := Nat.exists_eq_add_of_lt (Nat.lt_of_le_of_lt (Nat.zero_le _) enough')
    simp only [Nat.zero_add] at enough enough' ⊢
    rw [stepsWithin, stepsWithin]
    cases cut : lexer.next with
    | token token after =>
      obtain ⟨used, reads⟩ := exists_reads cut
      have fewer := reads.fewer
      have same := @ih _ fewer after count count' (by omega) (by omega) rfl
      dsimp only
      rw [same]
    | finished => rfl
    | failed cause => rfl
    | doctype => rfl

variable (settings : Settings)

def trees (builder : Builder) (lexer : Lexer) : Outcome :=
  let (steps, failure) := stepsWithin (lexer.rest.length + 1) lexer
  builder.outcome settings steps (failure.map ReadError.placeless)

def Cut.trees (continued : Builder → Lexer → Outcome) (builder : Builder) : Cut → Outcome
  | .token found after => builder.onToken settings (continued · after) found
  | .finished => builder.outcome settings [] none
  | .failed cause => ([.error (.markup 0 cause)], builder.namespaces)
  | .doctype => ([.error (.refused .doctype)], builder.namespaces)

theorem trees_eq (builder : Builder) (lexer : Lexer) :
    trees settings builder lexer = lexer.next.trees settings (trees settings) builder := by
  rw [trees, stepsWithin]
  cases cut : lexer.next with
  | token token after =>
    obtain ⟨used, reads⟩ := exists_reads cut
    have enough := @stepsWithin_enough after lexer.rest.length (after.rest.length + 1) reads.fewer (Nat.lt_succ_self _)
    rw [Cut.trees, Builder.onToken]
    dsimp only
    rw [enough]
    cases Step.ofToken token with
    | error cause => rfl
    | ok step =>
      cases step with
      | none => rfl
      | some step => exact Builder.outcome_cons settings builder step _ _
  | finished => rfl
  | failed cause => rfl
  | doctype => rfl

theorem trees_failed {lexer : Lexer} {cause : Cause} (cut : lexer.next = .failed cause) (builder : Builder) :
    trees settings builder lexer = ([.error (.markup 0 cause)], builder.namespaces) := by
  rw [trees_eq, cut, Cut.trees]

theorem trees_token {lexer after : Lexer} {token : Token} (cut : lexer.next = .token token after) (builder : Builder) :
    trees settings builder lexer = builder.onToken settings (trees settings · after) token := by
  rw [trees_eq, cut, Cut.trees]

theorem Cut.trees_congr {continued : Builder → Lexer → Outcome} {cut cut' : Cut} (same : cut.placeless = cut'.placeless)
    (agree : ∀ found after offset, cut = .token found after → ∀ builder,
      continued builder after = continued builder { after with offset }) (builder : Builder) :
    cut.trees settings continued builder = cut'.trees settings continued builder := by
  cases cut with
  | token found after =>
    cases cut' with
    | token found' after' =>
      injection same with found_eq after_eq
      have moved : after' = { after with offset := after'.offset } := by
        obtain ⟨rest, failure, offset, names⟩ := after
        obtain ⟨rest', failure', offset', names'⟩ := after'
        injection after_eq with rest_eq failure_eq _ names_eq
        rw [rest_eq, failure_eq, names_eq]
      have agrees : (continued · after) = (continued · after') := by
        funext builder
        rw [moved]
        exact agree found after after'.offset rfl builder
      rw [Cut.trees, Cut.trees, found_eq, agrees]
    | _ => cases same
  | finished => cases cut' <;> cases same; rfl
  | failed cause => cases cut' <;> cases same; rfl
  | doctype => cases cut' <;> cases same; rfl

/-- Neither the place of a document nor blanks before it matter. -/
theorem trees_blanks {blank : List UInt8} (blanks : ∀ b ∈ blank, isSpace b = true) (rest : List UInt8)
    (failure : Option String) (offset offset' : Nat) (names : List (List UInt8)) (builder : Builder) :
    trees settings builder ⟨blank ++ rest, failure, offset, names⟩ =
      trees settings builder ⟨rest, failure, offset', names⟩ := by
  -- On the number of bytes: the same token is cut off on both sides and leaves lexers that differ by the offset only.
  induction bound : rest.length using Nat.strongRecOn generalizing blank rest failure offset offset' names builder with
  | ind length ih =>
    rw [trees_eq, trees_eq]
    refine (Cut.trees_congr settings (next_placeless blanks rest failure offset offset' names).symm ?_ builder).symm
    intro found after offset'' cut builder
    obtain ⟨used, reads⟩ := exists_reads cut
    exact ih _ (bound ▸ reads.fewer) (List.forall_mem_nil _) after.rest after.failure _ _ after.openNames builder rfl

theorem trees_moved (rest : List UInt8) (failure : Option String) (offset offset' : Nat) (names : List (List UInt8))
    (builder : Builder) :
    trees settings builder ⟨rest, failure, offset, names⟩ = trees settings builder ⟨rest, failure, offset', names⟩ :=
  trees_blanks settings (List.forall_mem_nil _) rest failure offset offset' names builder

theorem reading_eq (source : Source) : reading settings source = trees settings .empty (ofSource source) := by
  have bytes := (rest_ofSource_suffix source).length_le
  have enough := @stepsWithin_enough (ofSource source) (source.bytes.length + 1) ((ofSource source).rest.length + 1)
    (by omega) (by omega)
  rw [reading, Builder.eventTrees_eq, steps, enough, ← Builder.outcome_placeless]
  rfl

/-- Two documents of which the same comes for every builder that stands as deep as the first one. -/
def Agree (lexer lexer' : Lexer) : Prop :=
  ∀ builder : Builder, builder.depth = lexer.openNames.length → trees settings builder lexer = trees settings builder lexer'

inductive Passes : Lexer → Lexer → Prop
  | here (lexer : Lexer) : Passes lexer lexer
  | token {lexer between after : Lexer} {token : Token} (cut : lexer.next = .token token between)
      (passes : Passes between after) : Passes lexer after

variable {settings}

/-- Two documents agree that begin alike, if they agree on what follows and it does not continue character data. -/
theorem Passes.agree {lexer after : Lexer} {rest rest' : List UInt8} (passes : Passes lexer after)
    (marked : Marked after.failure after.rest → Marked after.failure rest ∧ Marked after.failure rest')
    (agree : Agree settings { after with rest } { after with rest := rest' }) :
    ∃ used, lexer.rest = used ++ after.rest ∧ (after.openNames = lexer.openNames ∨ 0x3C ∈ used) ∧
      Agree settings { lexer with rest := used ++ rest } { lexer with rest := used ++ rest' } := by
  suffices after.failure = lexer.failure ∧ _ from this.2
  induction passes with
  | here lexer => exact ⟨rfl, [], rfl, .inl rfl, agree⟩
  | @token lexer between after token cut passes ih =>
    obtain ⟨failure, behind, split, opens, agree⟩ := ih marked agree
    obtain ⟨used, reads⟩ := exists_reads cut
    -- Character data that is one token stays one before the other bytes.
    have ends : ∀ {found}, (Marked after.failure after.rest → Marked after.failure found) →
        Ends token lexer.failure (behind ++ found) := by
      intro found marked content same
      have before := reads.ends content same
      rw [split] at before
      rw [← reads.failure]
      cases behind with
      | nil =>
        rw [← failure] at before ⊢
        exact marked before
      | cons b behind => exact marked_cons.mpr (marked_cons.mp before)
    have again := reads.again (behind ++ rest) lexer.failure lexer.offset (ends fun before => (marked before).1)
    have again' := reads.again (behind ++ rest') lexer.failure lexer.offset (ends fun before => (marked before).2)
    rw [← List.append_assoc] at again again'
    refine ⟨failure.trans reads.failure, used ++ behind, ?_, ?_, fun builder depth => ?_⟩
    · rw [reads.split, split, List.append_assoc]
    · rcases reads.opens with same | inside
      · rcases opens with same' | inside
        · exact .inl (same'.trans same)
        · exact .inr (List.mem_append_right _ inside)
      · exact .inr (List.mem_append_left _ inside)
    · rw [trees_token settings again, trees_token settings again']
      apply Builder.onToken_congr
      intro continued level
      rw [depth, ← reads.depth] at level
      have same := agree continued level
      rw [reads.failure] at same
      exact (trees_moved settings _ _ _ _ _ _).trans (same.trans (trees_moved settings _ _ _ _ _ _))

end Lexer

end EpcisDigest.Xml
