import EpcisDigest.Identifier
import EpcisDigest.Proofs.Text.Pieces

namespace EpcisDigest

def Urn.Reads (urn : Urn) (value : String) : Prop :=
  ':' ∉ urn.scheme.toList ∧
    ∃ body, Text.Separated '.' urn.components body ∧ value = urn.level.lead ++ (urn.scheme ++ ":" ++ body)

theorem ofText?_eq_some_iff {level : UrnLevel} {value : String} {urn : Urn} :
    Urn.ofText? level value = some urn ↔ urn.level = level ∧ urn.Reads value := by
  simp only [Urn.ofText?, Option.bind_eq_bind, Option.pure_def, Option.bind_eq_some_iff, Prod.exists,
    Text.after?_eq_some_iff, Text.cut?_eq_some_iff, Option.some.injEq]
  constructor
  · rintro ⟨_, rfl, scheme, body, ⟨free, rfl⟩, rfl⟩
    exact ⟨rfl, free, body, Text.pieces_eq_iff.mp rfl, rfl⟩
  · rintro ⟨rfl, free, body, separated, rfl⟩
    refine ⟨_, rfl, urn.scheme, body, ⟨free, rfl⟩, ?_⟩
    rw [Text.pieces_eq_iff.mpr separated]

theorem lead_inj {level level' : UrnLevel} {rest rest' : String} (same : level.lead ++ rest = level'.lead ++ rest') :
    level = level' := by
  have letters := congrArg String.toList same
  rw [String.toList_append, String.toList_append] at letters
  have either := List.prefix_or_prefix_of_prefix (List.prefix_append level.lead.toList rest.toList)
    (letters ▸ List.prefix_append level'.lead.toList rest'.toList)
  cases level <;> cases level' <;> first | rfl | exact absurd either (by decide)

theorem ofText?_eq_none {level : UrnLevel} {value : String} {urn : Urn} (reads : urn.Reads value)
    (other : urn.level ≠ level) : Urn.ofText? level value = none := by
  rw [Option.eq_none_iff_forall_ne_some]
  intro urn' found
  obtain ⟨rfl, -, _, -, whole⟩ := ofText?_eq_some_iff.mp found
  obtain ⟨-, _, -, whole'⟩ := reads
  exact other (lead_inj (whole'.symm.trans whole))

theorem parse?_eq_some_iff {value : String} {urn : Urn} : Urn.parse? value = some urn ↔ urn.Reads value := by
  constructor
  · intro found
    simp only [Urn.parse?, Option.orElse_eq_orElse, Option.orElse_eq_or, Option.or_eq_some_iff] at found
    rcases found with individual | ⟨-, group | ⟨-, pattern⟩⟩
    · exact (ofText?_eq_some_iff.mp individual).2
    · exact (ofText?_eq_some_iff.mp group).2
    · exact (ofText?_eq_some_iff.mp pattern).2
  · intro reads
    have own : Urn.ofText? urn.level value = some urn := ofText?_eq_some_iff.mpr ⟨rfl, reads⟩
    have others : ∀ level, urn.level ≠ level → Urn.ofText? level value = none := fun _ => ofText?_eq_none reads
    cases level : urn.level <;> rw [level] at own others <;> simp [Urn.parse?, own, others]

end EpcisDigest
