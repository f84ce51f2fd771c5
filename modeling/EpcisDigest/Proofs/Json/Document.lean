import EpcisDigest.Proofs.Json.Walk

namespace EpcisDigest.Json

structure Document where
  marked : Bool
  before : Blanks
  root : Written
  bracketed : ¬ root.IsScalar
  after : Blanks

namespace Document

def bytes (document : Document) : List UInt8 :=
  markBytes document.marked ++ (document.before.val ++ (document.root.bytes ++ document.after.val))

end Document

/-- The bytes end objects that are being read, the innermost first. Of each it is known whether its first
    member is still to come. -/
def Closes : List Bool → List UInt8 → Prop
  | [], bytes => ∃ blank : Blanks, bytes = blank.val
  | first :: outer, bytes => ∃ (blank : Blanks) (members : WrittenMembers) (tail : List UInt8),
      bytes = blank.val ++ (membersBytes first members ++ 0x7D :: tail) ∧ Closes outer tail

theorem closes_member (first : Bool) {outer : List Bool} {rest : List UInt8} (blank : Blanks)
    (name : Padded WrittenString) (before : Blanks) (written : Written)
    (closes : Closes (false :: outer) rest) :
    Closes (first :: outer)
      (blank.val ++ (separator first ++ (nameBytes name ++ (before.val ++ (written.bytes ++ rest))))) := by
  obtain ⟨after, members, tail, rfl, closes⟩ := closes
  refine ⟨blank, (name, ⟨before, written, after⟩) :: members, tail, ?_, closes⟩
  simp only [membersBytes, List.append_assoc]

theorem closes_blanks {flags : List Bool} {rest : List UInt8} (blank : Blanks) (closes : Closes flags rest) :
    Closes flags (blank.val ++ rest) := by
  cases flags with
  | nil =>
    obtain ⟨after, rfl⟩ := closes
    exact ⟨blank.append after, rfl⟩
  | cons first outer =>
    obtain ⟨between, members, tail, rfl, closes⟩ := closes
    refine ⟨blank.append between, members, tail, ?_, closes⟩
    simp only [Blanks.append, List.append_assoc]

namespace Feed

def flags (feed : Feed) : List Bool := feed.inner.map (fun entry => entry.2.first) ++ [feed.header.first]

theorem flags_eq (feed : Feed) : ∃ outer, feed.flags = feed.level.first :: outer ∧
    ∀ level : Level, (feed.setLevel level).flags = level.first :: outer := by
  obtain ⟨input, size, limit, phase, header, inner, saw, bare⟩ := feed
  cases inner with
  | nil => exact ⟨[], rfl, fun level => rfl⟩
  | cons entry inner => exact ⟨_, rfl, fun level => rfl⟩

theorem store_flags (feed : Feed) (name : String) (value : Value) : (feed.store name value).flags = feed.flags := by
  obtain ⟨outer, flags, others⟩ := feed.flags_eq
  rw [store, others, flags]

theorem begun_flags (feed : Feed) : ∃ outer, feed.flags = feed.level.first :: outer ∧
    feed.begun.flags = false :: outer := by
  obtain ⟨outer, flags, others⟩ := feed.flags_eq
  exact ⟨outer, flags, others _⟩

def Completes (feed : Feed) (bytes : List UInt8) : Prop :=
  match feed.phase with
  | .fields => feed.bareArray = false → Closes feed.flags bytes
  | .events first => ∃ (blank : Blanks) (items : WrittenItems) (tail : List UInt8),
      bytes = blank.val ++ (itemsBytes first items ++ 0x5D :: tail) ∧
        Closes (if feed.bareArray then [] else feed.flags) tail
  | .start | .done => True

theorem completes_fields {feed : Feed} {bytes : List UInt8} (phase : feed.phase = .fields) :
    feed.Completes bytes ↔ (feed.bareArray = false → Closes feed.flags bytes) := by
  rw [Completes, phase]

theorem completes_events {feed : Feed} {bytes : List UInt8} {first : Bool} (phase : feed.phase = .events first) :
    feed.Completes bytes ↔ ∃ (blank : Blanks) (items : WrittenItems) (tail : List UInt8),
      bytes = blank.val ++ (itemsBytes first items ++ 0x5D :: tail) ∧
        Closes (if feed.bareArray then [] else feed.flags) tail := by
  rw [Completes, phase]

end Feed

/-- What completes a document behind a step completes it, with the bytes of the step, before it. -/
theorem Turned.completes {feed feed' : Feed} {bytes : List UInt8} {item : Option Item}
    (turned : Turned feed bytes item feed')
    (completes : feed'.phase ≠ .done → ∀ rest offset, feed'.input = Input.inside rest offset →
      feed'.Completes rest) : feed.Completes bytes := by
  cases turned with
  | @close name level outer phase inner blank rest offset =>
    have phase' : ((Feed.store name (.object level.stored) { feed with inner := outer }).facing rest offset).phase =
        .fields := (Feed.setLevel_phase _ _).trans phase
    have next := (Feed.completes_fields phase').mp (completes (by rw [phase']; decide) rest offset rfl)
    rw [Feed.completes_fields phase, Feed.flags, inner]
    intro listed
    have closes : Closes (Feed.flags { feed with inner := outer }) rest := by
      rw [← Feed.store_flags { feed with inner := outer } name (.object level.stored)]
      exact next ((Feed.setLevel_bareArray _ _).trans listed)
    exact ⟨blank, [], rest, rfl, closes⟩
  | finish phase outermost blank after offset =>
    rw [Feed.completes_fields phase, Feed.flags, outermost]
    exact fun _ => ⟨blank, [], after.val, rfl, after, rfl⟩
  | events phase blank name before rest offset =>
    obtain ⟨outer, flags, begun⟩ := feed.begun_flags
    have next := completes (fun h => by cases h) rest offset rfl
    obtain ⟨inside, items, tail, rfl, closes⟩ := next
    rw [Feed.completes_fields phase, flags]
    intro listed
    have listed' : feed.begun.bareArray = false := (Feed.setLevel_bareArray _ _).trans listed
    have closes : Closes (if feed.begun.bareArray then [] else feed.begun.flags) tail := closes
    rw [listed', if_neg Bool.false_ne_true, begun] at closes
    have whole := closes_member feed.level.first blank name before (.array inside items) closes
    simpa only [Written.bytes, List.cons_append, List.append_assoc, List.nil_append] using whole
  | container phase blank name before rest offset =>
    obtain ⟨outer, flags, begun⟩ := feed.begun_flags
    have phase' : feed.begun.phase = .fields := (Feed.setLevel_phase _ _).trans phase
    have next := completes (by dsimp only [Feed.facing]; rw [phase']; decide) rest offset rfl
    have next : feed.begun.bareArray = false → Closes (true :: feed.begun.flags) rest :=
      (Feed.completes_fields (by exact phase')).mp next
    rw [Feed.completes_fields phase, flags]
    intro listed
    have listed' : feed.begun.bareArray = false := (Feed.setLevel_bareArray _ _).trans listed
    obtain ⟨inside, members, tail, rfl, closes⟩ := next listed'
    have closes : Closes (false :: outer) tail := begun ▸ closes
    have whole := closes_member feed.level.first blank name before (.object inside members) closes
    simpa only [Written.bytes, List.cons_append, List.append_assoc, List.nil_append] using whole
  | held phase blank name before after written rest offset =>
    obtain ⟨outer, flags, begun⟩ := feed.begun_flags
    have phase' : (feed.begun.store name.inner.text written.value).phase = .fields :=
      ((Feed.setLevel_phase _ _).trans (Feed.setLevel_phase _ _)).trans phase
    have next := completes (by dsimp only [Feed.facing]; rw [phase']; decide) rest offset rfl
    have next := (Feed.completes_fields (by exact phase')).mp next
    rw [Feed.completes_fields phase, flags]
    intro listed
    have closes := next (((Feed.setLevel_bareArray _ _).trans (Feed.setLevel_bareArray _ _)).trans listed)
    have closes : Closes (false :: outer) rest := by
      rw [← begun, ← Feed.store_flags feed.begun name.inner.text written.value]
      exact closes
    exact closes_member feed.level.first blank name before written (closes_blanks after closes)
  | listEnd phase listed blank rest offset =>
    have next := completes (fun h => by cases h) rest offset rfl
    rw [Feed.completes_events phase, listed]
    exact ⟨blank, [], rest, rfl, next listed⟩
  | arrayEnd phase bare blank after offset =>
    rw [Feed.completes_events phase, bare]
    exact ⟨blank, [], after.val, rfl, after, rfl⟩
  | @element first phase blank before after written rest offset =>
    have next := completes (fun h => by cases h) rest offset rfl
    obtain ⟨between, items, tail, rfl, closes⟩ := next
    rw [Feed.completes_events phase]
    refine ⟨blank, ⟨before, written, after.append between⟩ :: items, tail, ?_, closes⟩
    simp only [Blanks.append, itemsBytes, List.append_assoc]

theorem Walks.completes {feed : Feed} {items : List Item} (walks : Walks feed items) (isOpen : feed.phase.IsOpen)
    {bytes : List UInt8} {offset : Nat} (facing : feed.input = Input.inside bytes offset) :
    feed.Completes bytes := by
  induction walks generalizing bytes offset with
  | done ended =>
    rcases isOpen with phase | ⟨first, phase⟩ <;> (rw [phase] at ended; cases ended)
  | @turn feed feed' item items notDone step walks ih =>
    have step : Feeding.turn (feed.facing bytes offset) = .ok item feed' := by
      rw [Feed.facing, ← facing]
      exact step
    have turned := turned_of_turn isOpen step
    apply turned.completes
    intro notDone' rest offset' facing'
    cases turned.progress.1 with
    | done phase => exact absurd phase notDone'
    | atStart phase bytes unread =>
      rw [unread, Input.inside] at facing'
      injection facing' with _ _ offset_eq
      cases offset_eq
    | begun isOpen' rest offset facing'' => exact ih isOpen' facing'

theorem Feed.ofSource_ready (bytes : List UInt8) (limit : Nat) : (Feed.ofSource (Source.whole bytes) limit).Ready :=
  .atStart rfl bytes rfl

theorem drains_ofSource_iff {bytes : List UInt8} {limit : Nat} {items : List Item} :
    Drains (Feed.ofSource (Source.whole bytes) limit) items ↔
      ∃ feed, Feeding.start (Feed.ofSource (Source.whole bytes) limit) = .ok () feed ∧ Walks feed items := by
  have notDone : (Feed.ofSource (Source.whole bytes) limit).phase ≠ .done := fun h => by cases h
  rw [drains_iff_walks (Feed.ofSource_ready bytes limit) (Nat.le_succ _)]
  constructor
  · intro walks
    cases walks with
    | done ended => cases ended
    | turn notDone step walks =>
      obtain ⟨rfl, started⟩ := Feeding.of_turn_start rfl step
      exact ⟨_, started, walks⟩
  · rintro ⟨feed, started, walks⟩
    exact .turn notDone (Feeding.turn_start rfl started) walks

theorem exists_document_of_drains {bytes : List UInt8} {limit : Nat} {items : List Item}
    (drains : Drains (Feed.ofSource (Source.whole bytes) limit) items) :
    ∃ document : Document, document.bytes = bytes := by
  obtain ⟨feed, started, walks⟩ := drains_ofSource_iff.mp drains
  obtain ⟨marked, before, b, rest, offset, opens, rfl, rfl⟩ :=
    @Feeding.of_start (Feed.ofSource (Source.whole bytes) limit) feed bytes started
  have completes := walks.completes (Feed.opened_isOpen _ _) (Feed.opened_input _ _)
  rcases opens with rfl | rfl
  · have closes : Closes [true] rest := completes rfl
    obtain ⟨blank, members, tail, rfl, after, rfl⟩ := closes
    refine ⟨⟨marked, before, .object blank members, id, after⟩, ?_⟩
    simp only [Document.bytes, Written.bytes, List.cons_append, List.append_assoc, List.nil_append]
  · have ends : ∃ (blank : Blanks) (items : WrittenItems) (tail : List UInt8),
        rest = blank.val ++ (itemsBytes true items ++ 0x5D :: tail) ∧ Closes [] tail := completes
    obtain ⟨blank, items, tail, rfl, after, rfl⟩ := ends
    refine ⟨⟨marked, before, .array blank items, id, after⟩, ?_⟩
    simp only [Document.bytes, Written.bytes, List.cons_append, List.append_assoc, List.nil_append]

theorem exists_document_of_drains_emptyObject :
    Drains (Feed.ofSource (Source.whole (Text.bytesOf " [ {} ] ")) 2) [] ∧
      ∃ document : Document, document.bytes = Text.bytesOf " [ {} ] " := by
  have ended : (match (Feed.ofSource (Source.whole (Text.bytesOf " [ {} ] ")) 2).next.1 with
      | .ok none => true
      | _ => false) = true := by decide +kernel
  have drains : Drains (Feed.ofSource (Source.whole (Text.bytesOf " [ {} ] ")) 2) [] := by
    apply Drains.done
    apply Prod.ext
    · split at ended
      · rename_i nothing
        exact nothing
      · cases ended
    · rfl
  exact ⟨drains, exists_document_of_drains drains⟩

end EpcisDigest.Json
