import EpcisDigest.Proofs.Json.Results

namespace EpcisDigest.Json

section Resumes

variable {ε σ α β : Type} {cut : σ → Prop} {resumed : σ → σ}

variable (cut resumed) in
/-- What the action gives in a cut state it also gives when more follows there. -/
def Resumes (action : EStateM ε σ α) : Prop :=
  ∀ s a s', cut s → action s = .ok a s' → cut s' ∧ action (resumed s) = .ok a (resumed s')

variable {action : EStateM ε σ α} {next : α → EStateM ε σ β}

theorem Resumes.bind (first : Resumes cut resumed action) (second : ∀ a, Resumes cut resumed (next a)) :
    Resumes cut resumed (action >>= next) := by
  intro s b s' before h
  obtain ⟨a, between, did, rest⟩ := exists_of_bind_ok h
  obtain ⟨middle, again⟩ := first _ _ _ before did
  obtain ⟨after, follows⟩ := second a _ _ _ middle rest
  exact ⟨after, (bind_of_ok again).trans follows⟩

theorem resumes_pure (a : α) : Resumes cut resumed (pure a : EStateM ε σ α) := by
  intro s found s' before h
  injection h with a_eq s_eq
  subst a_eq s_eq
  exact ⟨before, rfl⟩

/-- An action that reads its state may depend on what a cut leaves as it is. -/
theorem Resumes.get_bind {next : σ → EStateM ε σ β} (same : ∀ s, next (resumed s) = next s)
    (second : ∀ s, Resumes cut resumed (next s)) : Resumes cut resumed (get >>= next) := by
  intro s b s' before h
  obtain ⟨_, _, got, rest⟩ := exists_of_bind_ok h
  injection got with same_eq same_eq'
  subst same_eq same_eq'
  obtain ⟨after, again⟩ := second s _ _ _ before rest
  refine ⟨after, (bind_of_ok (get_apply _)).trans ?_⟩
  rw [same]
  exact again

end Resumes

structure Input.Resuming (cut : Input → Prop) (resumed : Input → Input) : Prop where
  peek : Resumes cut resumed Reading.peek
  peekSignificant : Resumes cut resumed Reading.peekSignificant
  takeIf : ∀ wanted, Resumes cut resumed (Reading.takeIf wanted)
  stringBody : Resumes cut resumed Reading.stringBody
  captured : ∀ limit, Resumes cut resumed (Reading.captured limit)

namespace Reading

variable {cut : Input → Prop} {resumed : Input → Input}

theorem resumes_refuse {α : Type} (reason : Reason) : Resumes cut resumed (refuse reason : Reading α) := by
  intro input a input' _ h
  cases h

variable (resuming : Input.Resuming cut resumed)

include resuming

theorem resumes_expect (wanted : UInt8) : Resumes cut resumed (expect wanted) := by
  refine (resuming.takeIf wanted).bind fun found => ?_
  split
  · exact resuming.peek.bind fun _ => resumes_refuse _
  · exact resumes_pure _

theorem resumes_readString : Resumes cut resumed readString :=
  (resumes_expect resuming _).bind fun _ => resuming.stringBody

theorem resumes_capture (limit : Nat) : Resumes cut resumed (capture limit) := by
  refine resuming.peekSignificant.bind fun found => ?_
  split
  · exact resumes_refuse _
  · exact resuming.captured limit

end Reading

namespace Feed

structure Standing (cut : Input → Prop) (going : Phase → Prop) (feed : Feed) : Prop where
  input : cut feed.input
  going : going feed.phase

def changed (resumed : Input → Input) (size : Nat → Nat) (feed : Feed) : Feed :=
  { feed with input := resumed feed.input, size := size feed.size }

variable {cut : Input → Prop} {going : Phase → Prop}

theorem setLevel_changed (resumed : Input → Input) (size : Nat → Nat) (feed : Feed) (level : Level) :
    (feed.changed resumed size).setLevel level = (feed.setLevel level).changed resumed size := by
  obtain ⟨input, size, limit, phase, header, inner, saw, bare⟩ := feed
  cases inner <;> rfl

theorem store_changed (resumed : Input → Input) (size : Nat → Nat) (feed : Feed) (name : String) (value : Value) :
    (feed.changed resumed size).store name value = (feed.store name value).changed resumed size :=
  setLevel_changed resumed size feed _

theorem Standing.setLevel {feed : Feed} (standing : feed.Standing cut going) (level : Level) :
    (feed.setLevel level).Standing cut going := by
  obtain ⟨input, size, limit, phase, header, inner, saw, bare⟩ := feed
  cases inner <;> exact ⟨standing.input, standing.going⟩

end Feed

namespace Feeding

open Feed (Standing changed)

variable {cut : Input → Prop} {resumed : Input → Input} {going : Phase → Prop} {size : Nat → Nat}

theorem resumes_reading {α : Type} {action : Reading α} (resumes : Resumes cut resumed action) :
    Resumes (Standing cut going) (changed resumed size) (reading action) := by
  intro feed a feed' before h
  obtain ⟨input, read, rfl⟩ := exists_input_of_reading h
  obtain ⟨after, again⟩ := resumes _ _ _ before.input read
  refine ⟨⟨after, before.going⟩, ?_⟩
  rw [reading, changed, again]
  rfl

theorem resumes_throw {α : Type} (e : ReadError) :
    Resumes (Standing cut going) (changed resumed size) (throw e : Feeding α) := by
  intro feed a feed' _ h
  cases h

theorem resumes_modify {change : Feed → Feed}
    (kept : ∀ feed, Standing cut going feed → Standing cut going (change feed))
    (same : ∀ feed, change (feed.changed resumed size) = (change feed).changed resumed size) :
    Resumes (Standing cut going) (changed resumed size) (modify change : Feeding Unit) := by
  intro feed a feed' before h
  injection h with _ feed_eq
  subst feed_eq
  exact ⟨kept feed before, congrArg (EStateM.Result.ok ()) (same feed)⟩

theorem resumes_setPhase {phase : Phase} (goes : going phase) :
    Resumes (Standing cut going) (changed resumed size) (setPhase phase) :=
  resumes_modify (fun _ standing => ⟨standing.input, goes⟩) fun _ => rfl

variable (cut resumed going size) in
structure Resuming : Prop where
  input : Input.Resuming cut resumed
  fields : going .fields
  events : ∀ first, going (.events first)
  finish : Resumes (Standing cut going) (changed resumed size) finish

variable (resuming : Resuming cut resumed going size)

include resuming

theorem resumes_leave : Resumes (Standing cut going) (changed resumed size) leave := by
  intro feed item feed' before h
  obtain ⟨input, total, limit, phase, header, inner, saw, bare⟩ := feed
  cases inner with
  | nil => exact resuming.finish _ _ _ before h
  | cons entry outer =>
    injection h with item_eq feed_eq
    subst item_eq feed_eq
    have left : Standing cut going ⟨input, total, limit, phase, header, outer, saw, bare⟩ :=
      ⟨before.input, before.going⟩
    have stored := Feed.store_changed resumed size ⟨input, total, limit, phase, header, outer, saw, bare⟩ entry.1
      (.object entry.2.stored)
    exact ⟨left.setLevel _, congrArg (EStateM.Result.ok none) stored⟩

theorem resumes_separate : Resumes (Standing cut going) (changed resumed size) separate := by
  intro feed found feed' before h
  have begun : (feed.changed resumed size).begun = feed.begun.changed resumed size :=
    Feed.setLevel_changed resumed size feed _
  have level : (feed.changed resumed size).level = feed.level := rfl
  rw [separate_eq] at h ⊢
  rw [begun, level]
  split at h
  · rw [if_pos ‹_›]
    exact resumes_pure () _ _ _ (before.setLevel _) h
  · rw [if_neg ‹_›]
    exact resumes_reading (Reading.resumes_expect resuming.input _) _ _ _ (before.setLevel _) h

theorem resumes_enter (enters : Prop) [Decidable enters] (wanted : UInt8) :
    Resumes (Standing cut going) (changed resumed size)
      (if enters then reading (Reading.takeIf wanted) else pure false) := by
  split
  · exact resumes_reading (resuming.input.takeIf wanted)
  · exact resumes_pure _

theorem resumes_heldValue : Resumes (Standing cut going) (changed resumed size) heldValue := by
  refine Resumes.get_bind (fun _ => rfl) fun feed => ?_
  refine (resumes_reading (Reading.resumes_capture resuming.input feed.limit)).bind fun bytes => ?_
  split
  · exact resumes_pure _
  · exact resumes_throw _

theorem resumes_fieldValue (name : String) :
    Resumes (Standing cut going) (changed resumed size) (fieldValue name) := by
  refine (resumes_enter resuming (name = "eventList") 0x5B).bind fun found => ?_
  split
  · refine (resumes_modify ?_ ?_).bind fun _ => resumes_pure _
    · exact fun feed standing => ⟨standing.input, resuming.events true⟩
    · exact fun _ => rfl
  · refine (resumes_enter resuming (bodyContainers.contains name = true) 0x7B).bind fun found => ?_
    split
    · refine (resumes_modify ?_ ?_).bind fun _ => resumes_pure _
      · exact fun feed standing => ⟨standing.input, standing.going⟩
      · exact fun _ => rfl
    · refine (resumes_heldValue resuming).bind fun value => ?_
      refine (resumes_modify ?_ ?_).bind fun _ => resumes_pure _
      · exact fun feed standing => standing.setLevel _
      · exact fun feed => Feed.store_changed resumed size feed name value

theorem resumes_field : Resumes (Standing cut going) (changed resumed size) field := by
  rw [field_eq]
  refine (resumes_reading (resuming.input.takeIf 0x7D)).bind fun found => ?_
  split
  · exact resumes_leave resuming
  · refine (resumes_separate resuming).bind fun _ => ?_
    refine (resumes_reading (Reading.resumes_readString resuming.input)).bind fun name => ?_
    exact (resumes_reading (Reading.resumes_expect resuming.input 0x3A)).bind fun _ => resumes_fieldValue resuming name

theorem resumes_element : Resumes (Standing cut going) (changed resumed size) element :=
  (resumes_setPhase (resuming.events false)).bind fun _ => (resumes_heldValue resuming).bind fun _ => resumes_pure _

theorem resumes_entry (first : Bool) : Resumes (Standing cut going) (changed resumed size) (entry first) := by
  refine (resumes_reading (resuming.input.takeIf 0x5D)).bind fun found => ?_
  split
  · refine Resumes.get_bind (fun _ => rfl) fun feed => ?_
    split
    · exact resuming.finish
    · exact (resumes_setPhase resuming.fields).bind fun _ => resumes_pure _
  · cases first with
    | true => exact resumes_element resuming
    | false =>
      exact (resumes_reading (Reading.resumes_expect resuming.input 0x2C)).bind fun _ => resumes_element resuming

theorem resumes_start : Resumes (Standing cut going) (changed resumed size) start := by
  refine (resumes_reading resuming.input.peekSignificant).bind fun found => ?_
  split
  · exact resumes_reading (Reading.resumes_refuse _)
  · split
    · exact (resumes_reading (Reading.resumes_expect resuming.input _)).bind fun _ => resumes_setPhase resuming.fields
    · split
      · refine (resumes_reading (Reading.resumes_expect resuming.input _)).bind fun _ => resumes_modify ?_ ?_
        · exact fun feed standing => ⟨standing.input, resuming.events true⟩
        · exact fun _ => rfl
      · intro feed found feed' _ h
        cases h

theorem resumes_turn : Resumes (Standing cut going) (changed resumed size) turn := by
  refine Resumes.get_bind (fun _ => rfl) fun feed => ?_
  split
  · exact resumes_pure _
  · exact (resumes_start resuming).bind fun _ => resumes_pure _
  · exact resumes_field resuming
  · exact resumes_entry resuming _

theorem resumes_pullWithin (turns : Nat) :
    Resumes (Standing cut going) (changed resumed size) (pullWithin turns) := by
  induction turns with
  | zero => exact resumes_pure none
  | succ turns ih =>
    refine Resumes.get_bind (fun _ => rfl) fun feed => ?_
    split
    · exact resumes_pure none
    · refine (resumes_turn resuming).bind fun item => ?_
      cases item with
      | some item => exact resumes_pure _
      | none => exact ih

end Feeding

end EpcisDigest.Json
