import EpcisDigest.Proofs.Event.NodeLines
import EpcisDigest.Proofs.Json.Resuming

namespace EpcisDigest.Json

namespace Input

def Cut (input : Input) : Prop := input.failure.isSome = true

def resumed (more : List UInt8) (input : Input) : Input := ⟨input.rest ++ more, none, input.offset⟩

theorem resumed_advance (more : List UInt8) {count : Nat} {input : Input} (within : count ≤ input.rest.length) :
    (input.resumed more).advance count = (input.advance count).resumed more := by
  rw [advance, resumed, advance, resumed, List.drop_append_of_le_length within]

end Input

namespace Reading

open Input

variable {more : List UInt8}

theorem exists_of_peek_cut {input input' : Input} {found : Option UInt8} (before : input.Cut)
    (h : peek input = .ok found input') : input' = input ∧ ∃ b rest, input.rest = b :: rest ∧ found = some b := by
  obtain ⟨rest, failure, offset⟩ := input
  cases rest with
  | cons b rest =>
    injection h with found_eq input_eq
    exact ⟨input_eq.symm, b, rest, rfl, found_eq.symm⟩
  | nil =>
    cases failure with
    | none => cases before
    | some text => cases h

theorem resumes_peek : Resumes Cut (resumed more) peek := by
  intro input found input' before h
  obtain ⟨rfl, b, rest, present, rfl⟩ := exists_of_peek_cut before h
  refine ⟨before, ?_⟩
  rw [resumed, present]
  rfl

theorem resumes_next : Resumes Cut (resumed more) next := by
  intro input found input' before h
  obtain ⟨head, between, peeked, skips⟩ := exists_of_bind_ok h
  obtain ⟨rfl, b, rest, present, rfl⟩ := exists_of_peek_cut before peeked
  injection skips with found_eq input_eq
  subst found_eq input_eq
  refine ⟨before, (bind_of_ok (resumes_peek _ _ _ before peeked).2).trans ?_⟩
  have within : 1 ≤ between.rest.length := by rw [present]; exact Nat.succ_pos _
  exact congrArg (EStateM.Result.ok (some b)) (resumed_advance more within)

theorem resumes_takeMark (mark : List UInt8) : Resumes Cut (resumed more) (takeMark mark) := by
  induction mark with
  | nil => exact resumes_pure ()
  | cons wanted mark ih =>
    refine resumes_next.bind fun found => ?_
    split
    · exact ih
    · exact resumes_refuse _

theorem resumes_skipMark : Resumes Cut (resumed more) skipMark := by
  refine Resumes.get_bind (fun _ => rfl) fun input => ?_
  split
  · refine resumes_peek.bind fun found => ?_
    split
    · exact resumes_takeMark _
    · exact resumes_pure _
  · exact resumes_pure _

theorem takeWhile_resumed {bytes : List UInt8} (present : bytes.drop (bytes.takeWhile isSpace).length ≠ []) :
    (bytes ++ more).takeWhile isSpace = bytes.takeWhile isSpace := by
  rw [List.takeWhile_append, if_neg]
  intro all
  rw [all, List.drop_length] at present
  exact present rfl

/-- The blanks before a cut are known to end only when a byte behind them is there. -/
theorem resumes_skipBlanks : Resumes Cut (resumed more) skipBlanks := by
  refine resumes_skipMark.bind fun _ => ?_
  intro input found input' before h
  obtain ⟨_, _, got, skips⟩ := exists_of_bind_ok h
  injection got with same same'
  subst same same'
  obtain ⟨_, passed, blanks, peeks⟩ := exists_of_bind_ok skips
  injection blanks with _ passed_eq
  subst passed_eq
  have between : (input.advance (input.rest.takeWhile isSpace).length).Cut := before
  obtain ⟨_, settled, peeked, _⟩ := exists_of_bind_ok peeks
  obtain ⟨_, b, rest, present, _⟩ := exists_of_peek_cut between peeked
  have stays : (input.rest ++ more).takeWhile isSpace = input.rest.takeWhile isSpace := by
    refine takeWhile_resumed fun nothing => ?_
    cases nothing.symm.trans present
  have advanced := resumed_advance more (List.takeWhile_prefix isSpace (l := input.rest)).length_le
  obtain ⟨after, again⟩ := (resumes_peek.bind fun _ => resumes_pure PUnit.unit) _ _ _ between peeks
  refine ⟨after, (bind_of_ok (get_apply _)).trans ?_⟩
  have skipped : skip ((input.resumed more).rest.takeWhile isSpace).length (input.resumed more) =
      .ok () ((input.advance (input.rest.takeWhile isSpace).length).resumed more) := by
    rw [← advanced, ← stays]
    rfl
  exact (bind_of_ok skipped).trans again

theorem resumes_peekSignificant : Resumes Cut (resumed more) peekSignificant :=
  resumes_skipBlanks.bind fun _ => resumes_peek

theorem exists_of_peekSignificant_cut {input input' : Input} {found : Option UInt8} (before : input.Cut)
    (h : peekSignificant input = .ok found input') : ∃ b rest, input'.rest = b :: rest ∧ found = some b := by
  obtain ⟨_, between, skipped, peeked⟩ := exists_of_bind_ok h
  have cut := (@resumes_skipBlanks [] _ _ _ before skipped).1
  obtain ⟨rfl, byte⟩ := exists_of_peek_cut cut peeked
  exact byte

theorem resumes_takeIf (wanted : UInt8) : Resumes Cut (resumed more) (takeIf wanted) := by
  intro input taken input' before h
  obtain ⟨head, between, peeked, follows⟩ := exists_of_bind_ok h
  obtain ⟨middle, again⟩ := @resumes_peekSignificant more _ _ _ before peeked
  obtain ⟨b, rest, present, rfl⟩ := exists_of_peekSignificant_cut before peeked
  rw [takeIf, bind_of_ok again]
  split at follows
  · rename_i found
    injection follows with taken_eq input_eq
    subst taken_eq input_eq
    have within : 1 ≤ between.rest.length := by rw [present]; exact Nat.succ_pos _
    rw [if_pos found]
    exact ⟨middle, congrArg (EStateM.Result.ok true) (resumed_advance more within)⟩
  · rename_i other
    rw [if_neg other]
    exact resumes_pure false _ _ _ middle follows

theorem resumes_stringBody : Resumes Cut (resumed more) stringBody := by
  intro input text input' before h
  rw [stringBody] at h
  split at h
  · rename_i text length closed
    injection h with text_eq input_eq
    subst text_eq input_eq
    obtain ⟨string, rest, split, rfl, rfl⟩ := exists_writtenString_of_closed closed
    have within : string.bytes.length + 1 ≤ input.rest.length := by
      rw [split, List.length_append, List.length_cons]
      omega
    have again : scanString (input.resumed more).rest = .closed string.text (string.bytes.length + 1) := by
      rw [resumed, split, List.append_assoc, List.cons_append]
      exact scanString_writtenString string (rest ++ more)
    refine ⟨before, ?_⟩
    rw [stringBody, again]
    exact congrArg (EStateM.Result.ok string.text) (resumed_advance more within)
  · cases h
  · obtain ⟨_, _, _, refused⟩ := exists_of_bind_ok h
    cases refused

theorem extentFrom_append {limit : Nat} {measuring : Measuring} {length found : Nat} {bytes : List UInt8}
    (h : extentFrom limit measuring length bytes = .complete found) :
    extentFrom limit measuring length (bytes ++ more) = .complete found := by
  induction bytes generalizing measuring length with
  | nil => cases h
  | cons b bytes ih =>
    rw [List.cons_append]
    rcases extentFrom_cons_cases limit measuring length b with ⟨size, -, ends⟩ | beyond | ⟨next, leads⟩
    · rw [ends, ← ends bytes]
      exact h
    · cases (beyond bytes).symm.trans h
    · rw [leads]
      exact ih ((leads bytes).symm.trans h)

theorem extent_append {limit found : Nat} {bytes : List UInt8} (h : extent limit bytes = .complete found) :
    extent limit (bytes ++ more) = .complete found := by
  cases bytes with
  | nil => cases h
  | cons b bytes =>
    rw [List.cons_append]
    rcases extent_cons_cases limit b with string | ⟨measuring, other⟩
    · rw [string]
      exact extentFrom_append ((string bytes).symm.trans h)
    · rw [other, ← List.cons_append]
      exact extentFrom_append ((other bytes).symm.trans h)

/-- A literal ends where another byte shows that it does; the cut is no such end. -/
theorem resumes_captured (limit : Nat) : Resumes Cut (resumed more) (captured limit) := by
  intro input taken input' before h
  rw [captured] at h
  split at h
  · rename_i length measured
    injection h with taken_eq input_eq
    subst taken_eq input_eq
    have within := extent_complete measured
    have again : extent limit (input.resumed more).rest = .complete length := extent_append measured
    refine ⟨before, ?_⟩
    rw [captured, again, ← resumed_advance more within]
    dsimp only
    rw [resumed, List.take_append_of_le_length within]
  · cases h
  · rename_i length measured
    have nothing : (input.advance length).rest = [] := by
      rw [Input.advance, extent_unfinished measured, List.drop_length]
    have cut : (input.advance length).Cut := before
    split at h
    · obtain ⟨_, _, peeked, _⟩ := exists_of_bind_ok h
      obtain ⟨_, b, rest, present, _⟩ := exists_of_peek_cut cut peeked
      cases nothing.symm.trans present
    · obtain ⟨_, _, _, refused⟩ := exists_of_bind_ok h
      cases refused

theorem resuming_cut : Input.Resuming Cut (resumed more) where
  peek := resumes_peek
  peekSignificant := resumes_peekSignificant
  takeIf := resumes_takeIf
  stringBody := resumes_stringBody
  captured := resumes_captured

end Reading

namespace Feed

abbrev Cut : Feed → Prop := Standing Input.Cut (· ≠ .done)

def resumed (more : List UInt8) (feed : Feed) : Feed :=
  { feed with input := feed.input.resumed more, size := feed.size + more.length }

end Feed

namespace Feeding

open Feed (Cut resumed)

variable {more : List UInt8}

/-- A source that breaks off never comes to its end. -/
theorem resumes_finish : Resumes Cut (resumed more) finish := by
  intro feed item feed' before h
  obtain ⟨found, between, read, follows⟩ := exists_of_bind_ok h
  obtain ⟨input, peeked, rfl⟩ := exists_input_of_reading read
  obtain ⟨b, rest, _, rfl⟩ := Reading.exists_of_peekSignificant_cut before.input peeked
  cases follows

theorem resuming_cut : Resuming Input.Cut (Input.resumed more) (· ≠ .done) (· + more.length) where
  input := Reading.resuming_cut
  fields := Phase.noConfusion
  events := fun _ => Phase.noConfusion
  finish := resumes_finish

theorem pullWithin_more {turns turns' : Nat} {feed feed' : Feed} {item : Item}
    (h : pullWithin turns feed = .ok (some item) feed') (more : turns ≤ turns') :
    pullWithin turns' feed = .ok (some item) feed' := by
  induction turns generalizing turns' feed with
  | zero => cases h
  | succ turns ih =>
    obtain ⟨turns', rfl⟩ := Nat.exists_eq_add_of_le' (Nat.le_trans (Nat.succ_le_succ (Nat.zero_le turns)) more)
    by_cases ended : feed.phase = .done
    · rw [pullWithin_done ended] at h
      cases h
    · rw [pullWithin_succ ended] at h ⊢
      split at h
      · exact h
      · exact ih h (Nat.le_of_succ_le_succ more)
      · cases h

theorem resumes_pull {turns : Nat} {feed feed' : Feed} {item : Option Item} (before : feed.Cut)
    (h : pullWithin turns feed = .ok item feed') :
    feed'.Cut ∧ ∀ turns', turns ≤ turns' → item ≠ none →
      pullWithin turns' (feed.resumed more) = .ok item (feed'.resumed more) := by
  obtain ⟨after, again⟩ := resumes_pullWithin (@resuming_cut more) turns _ _ _ before h
  refine ⟨after, fun turns' enough found => ?_⟩
  cases item with
  | none => exact absurd rfl found
  | some item => exact pullWithin_more again enough

end Feeding

namespace Feed

open Feeding

/-- A pull before a cut finds what it would find in the whole source, or does not succeed. -/
theorem next_resumed (more : List UInt8) {feed feed' : Feed} {item : Option Item} (sound : feed.Sound)
    (cut : feed.Cut) (h : feed.next = (.ok item, feed')) :
    feed'.Cut ∧ item ≠ none ∧ (feed.resumed more).next = (.ok item, feed'.resumed more) := by
  have ends := (next_ok sound h).2
  rw [next] at h
  split at h
  · rename_i pulled
    injection h with item_eq feed_eq
    injection item_eq with item_eq
    subst item_eq feed_eq
    obtain ⟨after, again⟩ := @resumes_pull more _ _ _ _ cut pulled
    have found := fun nothing => after.going (ends nothing)
    have enough : feed.size + 2 ≤ (feed.resumed more).size + 2 := Nat.add_le_add_right (Nat.le_add_right _ _) 2
    refine ⟨after, found, ?_⟩
    rw [next, again _ enough found]
  · cases h

/-- The items before a cut come from the whole source too, before any others and under the same namespaces, and
    behind them there is an error. -/
theorem Cut.leads {more : List UInt8} {feed : Feed} {items : List Item} {refusal : Option ReadError}
    (leads : Leads feed items refusal) (sound : feed.Sound) (cut : feed.Cut) {items' : List Item}
    {refusal' : Option ReadError} (leads' : Leads (feed.resumed more) items' refusal') :
    (∃ e, refusal = some e) ∧ items <+: items' ∧
      (items ≠ [] → (feed.resumed more).boundAtFirst items' = feed.boundAtFirst items) := by
  induction leads generalizing items' refusal' with
  | ended pulled => exact absurd rfl (next_resumed more sound cut pulled).2.1
  | refused pulled => exact ⟨⟨_, rfl⟩, List.nil_prefix, fun some => absurd rfl some⟩
  | @item feed feed' item items refusal pulled leads ih =>
    obtain ⟨after, _, again⟩ := next_resumed more sound cut pulled
    cases leads' with
    | ended pulled' => cases again.symm.trans pulled'
    | refused pulled' => cases again.symm.trans pulled'
    | item pulled' leads' =>
      cases again.symm.trans pulled'
      obtain ⟨refused, before, _⟩ := ih (next_item sound pulled).1 after leads'
      refine ⟨refused, List.cons_prefix_cons.mpr ⟨rfl, before⟩, fun _ => ?_⟩
      cases item with
      | event event =>
        rw [boundAtFirst_event pulled, boundAtFirst_event pulled']
        rfl
      | header header => exact absurd (next_header pulled) after.going

end Feed

end EpcisDigest.Json

namespace EpcisDigest

open Json

/-- What comes before an error comes first also when something else comes in the place of the error, and then an
    earlier error still comes behind it. -/
theorem exists_untilError {ε α : Type} (results : List (Except ε α)) (e : ε) :
    ∃ (oks : List α) (error : ε), untilError (results ++ [.error e]) = oks.map .ok ++ [.error error] ∧
      ∀ further, oks.map .ok <+: untilError (results ++ further) ∧
        (error = e ∨ untilError (results ++ further) = oks.map .ok ++ [.error error]) := by
  induction results with
  | nil => exact ⟨[], e, rfl, fun _ => ⟨List.nil_prefix, .inl rfl⟩⟩
  | cons result results ih =>
    cases result with
    | error error => exact ⟨[], error, rfl, fun _ => ⟨List.nil_prefix, .inr rfl⟩⟩
    | ok a =>
      obtain ⟨oks, error, until_eq, before⟩ := ih
      refine ⟨a :: oks, error, congrArg (Except.ok a :: ·) until_eq, fun further => ?_⟩
      obtain ⟨first, ends⟩ := before further
      exact ⟨List.cons_prefix_cons.mpr ⟨rfl, first⟩, ends.imp_right (congrArg (Except.ok a :: ·))⟩

theorem exists_hashedItems (settings : Settings) (namespaces : Namespaces) {items items' : List Item}
    (before : items <+: items') (e : ReadError) (refusal : Option ReadError) :
    ∃ (oks : List Results) (error : HashError),
      hashedItems settings namespaces items (some e) = oks.map .ok ++ [.error error] ∧
        oks.map .ok <+: hashedItems settings namespaces items' refusal ∧
        (error = .json e ∨ hashedItems settings namespaces items' refusal = oks.map .ok ++ [.error error]) := by
  obtain ⟨others, rfl⟩ := before
  obtain ⟨oks, error, until_eq, before⟩ :=
    exists_untilError ((items.filterMap Item.event?).map (hashValue settings namespaces)) (.json e)
  refine ⟨oks, error, until_eq, ?_⟩
  rw [hashedItems, List.filterMap_append, List.map_append, List.append_assoc]
  exact before _

theorem filterMap_toOption_ok (ε : Type) {α : Type} (oks : List α) :
    (oks.map (.ok : α → Except ε α)).filterMap Except.toOption = oks := by
  rw [List.filterMap_map]
  exact List.filterMap_some

/-- A document of which only a part comes is never taken for a whole one: what comes from it comes first from the whole
    document too, and behind that there is one error of the reading and then nothing, unless the whole document
    ends there in the same way. In a breakdown it can end only so. -/
theorem hashJson_broken (settings : Settings) (bytes : List UInt8) (count : Nat) (failure : String) (limit : Nat) :
    ∃ results error,
      hashJson settings (Source.broken bytes count failure) limit = results.map .ok ++ [.error error] ∧
      (JsonHashing.ofSource (Source.broken bytes count failure) limit).Yields settings
        (results.map .ok ++ [.error error]) ∧
      (JsonHashing.ofSource (Source.whole bytes) limit).Yields settings (hashJson settings (Source.whole bytes) limit) ∧
      results <+: (hashJson settings (Source.whole bytes) limit).filterMap Except.toOption ∧
      ((∃ e, error = .json e) ∨ hashJson settings (Source.whole bytes) limit = results.map .ok ++ [.error error]) := by
  have sound := Feed.ofSource_sound (Source.broken bytes count failure) limit
  have cut : (Feed.ofSource (Source.broken bytes count failure) limit).Cut := ⟨rfl, Phase.noConfusion⟩
  have whole : Feed.ofSource (Source.whole bytes) limit =
      (Feed.ofSource (Source.broken bytes count failure) limit).resumed (bytes.drop count) := by
    simp only [Feed.ofSource, Feed.resumed, Input.ofSource, Input.resumed, Source.whole, Source.broken,
      List.take_append_drop, ← List.length_append]
  obtain ⟨items, refusal, leads⟩ := Feed.exists_leads sound
  obtain ⟨items', refusal', leads'⟩ := Feed.exists_leads (Feed.ofSource_sound (Source.whole bytes) limit)
  obtain ⟨yields, results⟩ := JsonHashing.ofSource_yields settings _ _ leads
  obtain ⟨yields', results'⟩ := JsonHashing.ofSource_yields settings _ _ leads'
  rw [whole] at leads' results'
  obtain ⟨⟨e, rfl⟩, before, bound⟩ := cut.leads leads sound leads'
  obtain ⟨oks, error, until_eq, first, ends⟩ := exists_hashedItems settings
    (((Feed.ofSource (Source.broken bytes count failure) limit).resumed (bytes.drop count)).boundAtFirst items') before e
    refusal'
  have same : hashJson settings (Source.broken bytes count failure) limit = oks.map .ok ++ [.error error] := by
    rw [results, ← until_eq]
    cases items with
    | nil => rfl
    | cons item items => rw [bound (List.cons_ne_nil _ _)]
  refine ⟨oks, error, same, same ▸ yields, yields', ?_⟩
  rw [results']
  refine ⟨?_, ends.imp_left fun reading => ⟨e, reading⟩⟩
  rw [← filterMap_toOption_ok HashError oks]
  exact first.filterMap _

/-- At an event before the cut the sorting breaks down, and there is no error. -/
theorem not_hashJson_broken_disordered :
    ¬ ∀ (settings : Settings) (bytes : List UInt8) (count : Nat) (failure : String) (limit : Nat),
      ∃ (results : List Results) (error : HashError), error ≠ .unsortable ∧
        hashJson settings (Source.broken bytes count failure) limit = results.map .ok ++ [.error error] := by
  intro errs
  obtain ⟨results, error, handed, outcome⟩ := errs Settings.standard (Text.bytesOf EventTree.disorderedText)
    ((Text.bytesOf EventTree.disorderedText).length - 1) "source failed" defaultLimit
  have breaks : hashJson Settings.standard (Source.broken (Text.bytesOf EventTree.disorderedText)
      ((Text.bytesOf EventTree.disorderedText).length - 1) "source failed") defaultLimit = [.error .unsortable] := by
    decide +kernel
  rw [breaks] at outcome
  have last := congrArg List.getLast? outcome
  rw [List.getLast?_concat] at last
  cases last
  exact handed rfl

end EpcisDigest
