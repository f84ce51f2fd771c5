import EpcisDigest.Proofs.Json.Capture
import EpcisDigest.Proofs.Json.Interrupted

namespace EpcisDigest.Json

namespace Input

def Past (count : Nat) (input : Input) : Prop := count < input.offset

def since (count : Nat) (input : Input) : Input := { input with offset := input.offset - count }

variable {count : Nat} {input : Input}

theorem Past.advance (past : input.Past count) (more : Nat) : (input.advance more).Past count :=
  Nat.lt_of_lt_of_le past (Nat.le_add_right _ _)

theorem since_advance (past : input.Past count) (more : Nat) :
    (input.since count).advance more = (input.advance more).since count := by
  have moved : input.offset - count + more = input.offset + more - count := by
    unfold Past at past
    omega
  simp only [since, advance, moved]

theorem since_inside (rest : List UInt8) : (inside rest count).since count = inside rest 0 := by
  simp only [since, inside, Nat.add_sub_cancel_left, Nat.zero_add]

end Input

namespace Reading

open Input

variable {count : Nat}

theorem shifts_peek : Resumes (Past count) (since count) peek := by
  intro input found input' past h
  obtain ⟨rest, failure, offset⟩ := input
  cases rest with
  | cons b rest =>
    cases h
    exact ⟨past, rfl⟩
  | nil =>
    cases failure with
    | none =>
      cases h
      exact ⟨past, rfl⟩
    | some text => cases h

theorem shifts_skip (more : Nat) : Resumes (Past count) (since count) (skip more) := by
  intro input found input' past h
  cases h
  exact ⟨past.advance more, congrArg (EStateM.Result.ok ()) (since_advance past more)⟩

theorem shifts_skipMark : Resumes (Past count) (since count) skipMark := by
  intro input found input' past h
  have begun : ∀ input : Input, input.offset ≠ 0 → skipMark input = .ok () input := by
    intro input offset
    simp only [skipMark, bind, EStateM.bind, get_apply, offset, ite_false, pure, EStateM.pure]
  have offset : input.offset ≠ 0 := by
    unfold Past at past
    omega
  have offset' : (input.since count).offset ≠ 0 := by
    unfold Past at past
    dsimp only [since]
    omega
  rw [begun input offset] at h
  cases h
  exact ⟨past, begun _ offset'⟩

theorem shifts_skipBlanks : Resumes (Past count) (since count) skipBlanks :=
  shifts_skipMark.bind fun _ => Resumes.get_bind (fun _ => rfl) fun _ =>
    (shifts_skip _).bind fun _ => shifts_peek.bind fun _ => resumes_pure _

theorem shifts_peekSignificant : Resumes (Past count) (since count) peekSignificant :=
  shifts_skipBlanks.bind fun _ => shifts_peek

theorem shifts_takeIf (wanted : UInt8) : Resumes (Past count) (since count) (takeIf wanted) := by
  refine shifts_peekSignificant.bind fun found => ?_
  split
  · exact (shifts_skip 1).bind fun _ => resumes_pure true
  · exact resumes_pure false

theorem shifts_stringBody : Resumes (Past count) (since count) stringBody := by
  intro input text input' past h
  rw [stringBody] at h
  split at h
  · rename_i text length closed
    cases h
    refine ⟨past.advance length, ?_⟩
    rw [stringBody, show (input.since count).rest = input.rest from rfl, closed]
    exact congrArg (EStateM.Result.ok text) (since_advance past length)
  · cases h
  · obtain ⟨_, _, _, refused⟩ := exists_of_bind_ok h
    cases refused

theorem shifts_captured (limit : Nat) : Resumes (Past count) (since count) (captured limit) := by
  intro input taken input' past h
  rw [captured] at h
  split at h
  · rename_i length measured
    cases h
    refine ⟨past.advance length, ?_⟩
    rw [captured, show (input.since count).rest = input.rest from rfl, measured]
    exact congrArg (EStateM.Result.ok _) (since_advance past length)
  · cases h
  · rename_i length measured
    split at h
    · rename_i literal
      obtain ⟨after, again⟩ := (shifts_peek.bind fun _ => resumes_pure input.rest) _ _ _ (past.advance length) h
      refine ⟨after, ?_⟩
      rw [captured, show (input.since count).rest = input.rest from rfl, measured]
      dsimp only
      rw [if_pos literal, since_advance past]
      exact again
    · obtain ⟨_, _, _, refused⟩ := exists_of_bind_ok h
      cases refused

theorem resuming_since : Input.Resuming (Past count) (since count) where
  peek := shifts_peek
  peekSignificant := shifts_peekSignificant
  takeIf := shifts_takeIf
  stringBody := shifts_stringBody
  captured := shifts_captured

end Reading

namespace Feeding

open Feed (Standing changed)
open Input (Past since)

variable {count : Nat} {size : Nat → Nat}

theorem shifts_finish : Resumes (Standing (Past count) fun _ => True) (changed (since count) size) finish := by
  refine (resumes_reading Reading.shifts_peekSignificant).bind fun found => ?_
  split
  · intro feed item feed' _ h
    cases h
  · refine (resumes_setPhase trivial).bind fun _ => Resumes.get_bind (fun _ => rfl) fun feed => ?_
    dsimp only
    split
    · exact resumes_pure _
    · split
      · exact resumes_pure _
      · split <;> exact resumes_pure _

theorem resuming_since : Resuming (Past count) (since count) (fun _ => True) size where
  input := Reading.resuming_since
  fields := trivial
  events := fun _ => trivial
  finish := shifts_finish

theorem pullWithin_enough {turns turns' : Nat} {feed : Feed} (enough : feed.left ≤ turns)
    (enough' : feed.left ≤ turns') : pullWithin turns feed = pullWithin turns' feed := by
  induction turns generalizing turns' feed with
  | zero =>
    have ended : feed.phase = .done := by
      apply Decidable.byContradiction
      intro going
      rw [Feed.left, if_neg going] at enough
      omega
    rw [pullWithin_done ended, pullWithin_done ended]
  | succ turns ih =>
    by_cases ended : feed.phase = .done
    · rw [pullWithin_done ended, pullWithin_done ended]
    · have some : 0 < feed.left := by
        rw [Feed.left, if_neg ended]
        omega
      obtain ⟨turns', rfl⟩ := Nat.exists_eq_add_of_lt (Nat.lt_of_lt_of_le some enough')
      rw [Nat.zero_add] at enough' ⊢
      rw [pullWithin_succ ended, pullWithin_succ ended]
      split
      · rfl
      · rename_i between step
        have fewer := (Feed.left_of_turn ended step).2
        exact ih (by omega) (by omega)
      · rfl

end Feeding

namespace Feed

open Feeding
open Input (Past since)

variable {count : Nat} {size : Nat → Nat}

theorem left_changed (resumed : Input → Input) (feed : Feed) (same : (resumed feed.input).rest = feed.input.rest) :
    (feed.changed resumed size).left = feed.left := by
  simp only [left, changed, same]

theorem opened_changed (resumed : Input → Input) (feed : Feed) (b : UInt8) :
    (feed.opened b).changed resumed size = (feed.changed resumed size).opened b := by
  unfold opened
  split <;> rfl

theorem next_since {feed feed' : Feed} {item : Option Item} (sound : feed.Sound)
    (sound' : (feed.changed (since count) size).Sound) (past : feed.input.Past count)
    (h : feed.next = (.ok item, feed')) :
    feed'.input.Past count ∧ (feed.changed (since count) size).next = (.ok item, feed'.changed (since count) size) := by
  rw [next] at h
  split at h
  · rename_i pulled
    cases h
    obtain ⟨standing, again⟩ := resumes_pullWithin (@resuming_since count size) _ _ _ _ ⟨past, trivial⟩ pulled
    have left : (feed.changed (since count) size).left = feed.left := left_changed _ feed rfl
    rw [Sound] at sound sound'
    have enough := @pullWithin_enough (feed.size + 2) ((feed.changed (since count) size).size + 2)
      (feed.changed (since count) size) (by omega) (by omega)
    refine ⟨standing.input, ?_⟩
    rw [next, ← enough, again]
  · cases h

/-- It does not matter how much has been read before. -/
theorem leads_since {feed : Feed} {items : List Item} (leads : Leads feed items none) (sound : feed.Sound)
    (sound' : (feed.changed (since count) size).Sound) (past : feed.input.Past count) :
    Leads (feed.changed (since count) size) items none ∧
      (feed.changed (since count) size).boundAtFirst items = feed.boundAtFirst items := by
  generalize last : (none : Option ReadError) = refusal at leads
  induction leads with
  | @ended feed feed' pulled => exact ⟨last ▸ .ended (next_since sound sound' past pulled).2, rfl⟩
  | refused pulled => cases last
  | @item feed feed' item items refusal pulled leads ih =>
    obtain ⟨past', again⟩ := next_since sound sound' past pulled
    obtain ⟨leads', _⟩ := ih (next_item sound pulled).1 (next_item sound' again).1 past' last
    refine ⟨.item again leads', ?_⟩
    cases item with
    | event event =>
      rw [boundAtFirst_event pulled, boundAtFirst_event again]
      rfl
    | header header =>
      obtain ⟨rfl, -⟩ := leads_of_done (next_header pulled) leads
      rfl

theorem next_of_turn {feed between : Feed} (sound : feed.Sound) (going : feed.phase ≠ .done)
    (step : turn feed = .ok none between) : between.Sound ∧ feed.next = between.next := by
  obtain ⟨size, fewer⟩ := left_of_turn going step
  rw [Sound] at sound ⊢
  have enough := @pullWithin_enough (feed.size + 1) (between.size + 2) between (by omega) (by omega)
  have same : pullWithin (feed.size + 2) feed = pullWithin (between.size + 2) between := by
    rw [pullWithin_succ going, step]
    exact enough
  refine ⟨by omega, ?_⟩
  rw [next, next, same]

theorem next_of_start {feed begun : Feed} (sound : feed.Sound) (phase : feed.phase = .start)
    (started : start feed = .ok () begun) : begun.Sound ∧ feed.next = begun.next := by
  have going : feed.phase ≠ .done := by
    rw [phase]
    exact Phase.noConfusion
  exact next_of_turn sound going (turn_start phase started)

theorem exists_start {feed : Feed} (phase : feed.phase = .start) :
    (∃ begun, start feed = .ok () begun) ∨ ∃ e, Leads feed [] (some e) := by
  have going : feed.phase ≠ .done := by
    rw [phase]
    exact Phase.noConfusion
  cases step : turn feed with
  | ok item begun => exact .inl ⟨begun, (of_turn_start phase step).2⟩
  | error e begun =>
    have refused : feed.next = (.error e, begun.cancel) := by rw [next, pullWithin_succ going, step]
    exact .inr ⟨e, .refused refused⟩

section Congruence

variable {feed other : Feed} (same : feed.next = other.next)

include same

theorem leads_congr {items : List Item} {refusal : Option ReadError} (leads : Leads feed items refusal) :
    Leads other items refusal := by
  cases leads with
  | ended pulled => exact .ended (same ▸ pulled)
  | refused pulled => exact .refused (same ▸ pulled)
  | item pulled leads => exact .item (same ▸ pulled) leads

theorem boundAtFirst_congr (items : List Item) : feed.boundAtFirst items = other.boundAtFirst items := by
  unfold boundAtFirst
  split
  · rw [behind, behind, same]
  · rfl

end Congruence

end Feed

section Blanks

variable (blank : Blanks) {b : UInt8} (rest : List UInt8) (limit : Nat)

theorem start_blanks (opens : b = 0x7B ∨ b = 0x5B) :
    Feeding.start (Feed.ofSource (.whole (blank.val ++ b :: rest)) limit) =
      .ok () (((Feed.ofSource (.whole (blank.val ++ b :: rest)) limit).facing rest blank.val.length).opened b) := by
  have plain : isSpace b = false ∧ b ≠ 0xEF := by rcases opens with rfl | rfl <;> decide
  have peeked := @Reading.peekSignificant_found none 0 blank b plain.1 plain.2 rest
  rw [Nat.zero_add] at peeked
  exact Feeding.start_opening opens peeked

/-- Blanks before a document do not change what it gives. -/
theorem leads_blanks (opens : b = 0x7B ∨ b = 0x5B) {items : List Item}
    (leads : Leads (Feed.ofSource (.whole (blank.val ++ b :: rest)) limit) items none) :
    Leads (Feed.ofSource (.whole (b :: rest)) limit) items none ∧
      (Feed.ofSource (.whole (b :: rest)) limit).boundAtFirst items =
        (Feed.ofSource (.whole (blank.val ++ b :: rest)) limit).boundAtFirst items := by
  have started := start_blanks blank rest limit opens
  have started' := start_blanks .none rest limit opens
  obtain ⟨sound, same⟩ := Feed.next_of_start (Feed.ofSource_sound _ limit) rfl started
  obtain ⟨sound', same'⟩ := Feed.next_of_start (Feed.ofSource_sound _ limit) rfl started'
  have moved : ((Feed.ofSource (.whole (b :: rest)) limit).facing rest 0).opened b =
      (((Feed.ofSource (.whole (blank.val ++ b :: rest)) limit).facing rest blank.val.length).opened b).changed
        (Input.since blank.val.length) fun _ => (b :: rest).length := by
    rw [Feed.opened_changed]
    simp only [Feed.changed, Feed.facing, Input.since_inside]
    rfl
  have past : Input.Past blank.val.length
      (((Feed.ofSource (.whole (blank.val ++ b :: rest)) limit).facing rest blank.val.length).opened b).input := by
    rw [Feed.opened_input]
    exact Nat.lt_succ_self _
  change Feed.Sound (((Feed.ofSource (.whole (b :: rest)) limit).facing rest 0).opened b) at sound'
  change _ = (((Feed.ofSource (.whole (b :: rest)) limit).facing rest 0).opened b).next at same'
  rw [moved] at sound' same'
  obtain ⟨leads', bound⟩ := Feed.leads_since (Feed.leads_congr same leads) sound sound' past
  refine ⟨Feed.leads_congr same'.symm leads', ?_⟩
  rw [Feed.boundAtFirst_congr same, ← bound]
  exact Feed.boundAtFirst_congr same' items

end Blanks

namespace Feed

variable {source : Source} {limit : Nat}

theorem cut_ofSource (failing : source.failure.isSome = true) : (ofSource source limit).Cut :=
  ⟨failing, Phase.noConfusion⟩

theorem resumed_ofSource (source : Source) (limit : Nat) :
    (ofSource source limit).resumed [] = ofSource (.whole source.bytes) limit := by
  simp only [ofSource, resumed, Input.ofSource, Input.resumed, Source.whole, List.append_nil, List.length_nil,
    Nat.add_zero]

/-- A document that begins has a bracket behind a byte order mark and blanks. -/
theorem exists_bracket {begun : Feed} (started : Feeding.start (ofSource source limit) = .ok () begun) :
    ∃ (marked : Bool) (before : Blanks) (b : UInt8) (rest : List UInt8), (b = 0x7B ∨ b = 0x5B) ∧
      source.bytes = markBytes marked ++ (before.val ++ b :: rest) := by
  have whole : ∃ begun, Feeding.start (ofSource (.whole source.bytes) limit) = .ok () begun := by
    cases failing : source.failure with
    | none => exact ⟨begun, (congrArg Feeding.start (by rw [Source.whole, ← failing])).trans started⟩
    | some text =>
      have cut : (ofSource source limit).Cut := cut_ofSource (failing ▸ rfl)
      rw [← resumed_ofSource]
      exact ⟨_, (Feeding.resumes_start Feeding.resuming_cut _ _ _ cut started).2⟩
  obtain ⟨begun, started⟩ := whole
  obtain ⟨marked, before, b, rest, offset, opens, split, -⟩ :=
    @Feeding.of_start (ofSource (.whole source.bytes) limit) begun source.bytes started
  exact ⟨marked, before, b, rest, opens, split⟩

end Feed

end EpcisDigest.Json

namespace EpcisDigest

open Json

def AllOk {ε α : Type} (results : List (Except ε α)) : Prop := ∀ result ∈ results, result.isOk = true

theorem exists_leads_of_allOk {settings : Settings} {source : Source} {limit : Nat}
    (allOk : AllOk (hashJson settings source limit)) :
    source.failure = none ∧ ∃ items, Leads (Feed.ofSource source limit) items none := by
  have sound := Feed.ofSource_sound source limit
  obtain ⟨items, refusal, leads⟩ := Feed.exists_leads sound
  have unrefused : refusal = none := by
    cases refusal with
    | none => rfl
    | some e =>
      obtain ⟨oks, error, until_eq, -⟩ := exists_untilError
        ((items.filterMap Item.event?).map (hashValue settings ((Feed.ofSource source limit).boundAtFirst items)))
        (.json e)
      have results := (JsonHashing.ofSource_yields settings source limit leads).2
      rw [hashedItems, Option.toList_some, List.map_singleton, until_eq] at results
      have failed := allOk (.error error) (by
        rw [results]
        exact List.mem_append_right _ List.mem_cons_self)
      cases failed
  subst unrefused
  refine ⟨?_, items, leads⟩
  cases failing : source.failure with
  | none => rfl
  | some text =>
    obtain ⟨items', refusal', leads'⟩ := Feed.exists_leads (Feed.ofSource_sound (.whole source.bytes) limit)
    rw [← Feed.resumed_ofSource] at leads'
    obtain ⟨⟨e, refused⟩, -⟩ := (Feed.cut_ofSource (failing ▸ rfl)).leads leads sound leads'
    cases refused

/-- A document that begins with no bracket behind a byte order mark and blanks gives an error at once. -/
theorem hashJson_unopened {settings : Settings} {source : Source} {limit : Nat}
    (unopened : ∀ (marked : Bool) (before : Blanks) (b : UInt8) (rest : List UInt8), b = 0x7B ∨ b = 0x5B →
      source.bytes ≠ markBytes marked ++ (before.val ++ b :: rest)) :
    ∃ e, hashJson settings source limit = [.error (.json e)] := by
  rcases @Feed.exists_start (Feed.ofSource source limit) rfl with ⟨begun, started⟩ | ⟨e, leads⟩
  · obtain ⟨marked, before, b, rest, opens, split⟩ := Feed.exists_bracket started
    exact absurd split (unopened marked before b rest opens)
  · exact ⟨e, (JsonHashing.ofSource_yields settings source limit leads).2⟩

/-- A document that gives no error begins with a byte order mark, or with a bracket behind blanks that change nothing. -/
theorem hashJson_leading {settings : Settings} {source : Source} {limit : Nat}
    (allOk : AllOk (hashJson settings source limit)) :
    source.bytes.head? = some 0xEF ∨ ∃ (blank : Blanks) (b : UInt8) (rest : List UInt8),
      (b = 0x7B ∨ b = 0x5B) ∧ source.bytes = blank.val ++ b :: rest ∧
        hashJson settings ⟨b :: rest, source.failure⟩ limit = hashJson settings source limit := by
  obtain ⟨unbroken, items, leads⟩ := exists_leads_of_allOk allOk
  obtain ⟨bytes, failure⟩ := source
  dsimp only at unbroken
  subst unbroken
  have started : ∃ begun, Feeding.start (Feed.ofSource ⟨bytes, none⟩ limit) = .ok () begun := by
    refine (Feed.exists_start rfl).resolve_right ?_
    rintro ⟨e, refused⟩
    have failed := allOk (.error (.json e)) (by
      rw [(JsonHashing.ofSource_yields settings _ limit refused).2]
      exact List.mem_cons_self)
    cases failed
  obtain ⟨begun, started⟩ := started
  obtain ⟨marked, before, b, rest, opens, split⟩ := Feed.exists_bracket started
  cases marked with
  | true =>
    left
    rw [split]
    rfl
  | false =>
    have split : bytes = before.val ++ b :: rest := split
    subst split
    obtain ⟨leads', bound⟩ := leads_blanks before rest limit opens leads
    refine .inr ⟨before, b, rest, opens, rfl, ?_⟩
    rw [(JsonHashing.ofSource_yields settings _ limit leads).2]
    have results := (JsonHashing.ofSource_yields settings _ limit leads').2
    rw [bound] at results
    exact results

end EpcisDigest
