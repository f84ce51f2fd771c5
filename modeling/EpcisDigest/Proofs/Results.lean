import EpcisDigest.Proofs.Output

namespace EpcisDigest

namespace Output

theorem ofName_cases (name : String) :
    ofName name = prehash ∨ Text.lowerAscii (Text.trim name) ≠ prehashName ∧
      ofName name = digest (Text.trim name) (Algorithm.ofName (Text.trim name)) := by
  rw [ofName]
  by_cases joined : Text.lowerAscii (Text.trim name) = prehashName
  · rw [if_pos joined]
    exact .inl rfl
  · rw [if_neg joined]
    exact .inr ⟨joined, rfl⟩

/-- Outputs that were asked for by names are the same where their keys are: no digest has the key of the lines. -/
theorem ofName_of_key {name other : String} (same : (ofName name).key = (ofName other).key) :
    ofName name = ofName other := by
  have lower : Text.lowerAscii prehashName = prehashName := by decide +kernel
  rcases ofName_cases name with named | ⟨digests, named⟩ <;> rcases ofName_cases other with named' | ⟨digests', named'⟩
  · rw [named, named']
  · rw [named, named'] at same
    rw [← show prehashName = Text.trim other from same] at digests'
    exact absurd lower digests'
  · rw [named, named'] at same
    rw [show Text.trim name = prehashName from same] at digests
    exact absurd lower digests
  · rw [named, named'] at same
    rw [named, named', show Text.trim name = Text.trim other from same]

end Output

namespace Results

variable {names : List String} {output other : Output}

theorem same_of_key (requested : output ∈ names.map Output.ofName) (requested' : other ∈ names.map Output.ofName)
    (same : output.key = other.key) : output = other := by
  obtain ⟨name, -, rfl⟩ := List.mem_map.mp requested
  obtain ⟨name', -, rfl⟩ := List.mem_map.mp requested'
  exact Output.ofName_of_key same

theorem entries_ofNames (form : CanonicalForm) (names : List String) (separator : String) (version : Version) :
    (ofForm form (names.map Output.ofName) separator version).entries =
      ((names.map Output.ofName).map fun output => (output.key, output.render form separator version)).eraseDups := by
  rw [entries_ofForm]
  apply Entries.ofList_eq
  intro binding member other member' same
  obtain ⟨output, requested, rfl⟩ := List.mem_map.mp member
  obtain ⟨output', requested', rfl⟩ := List.mem_map.mp member'
  rw [same_of_key requested requested' same]

theorem mem_entries_ofNames (form : CanonicalForm) (requested : output ∈ names.map Output.ofName) (separator : String)
    (version : Version) : (output.key, output.render form separator version) ∈
      (ofForm form (names.map Output.ofName) separator version).entries := by
  rw [entries_ofNames, List.mem_eraseDups]
  exact List.mem_map_of_mem requested

end Results

/-- Every output that is asked for is delivered under its key, in the order in which the keys first come. Outputs with
    the same key are the same, and what is asked for again or later changes nothing of what is there. -/
theorem requests_delivered (draft : Settings.Draft) (names : List String) (form : CanonicalForm) (separator : String)
    (version : Version) :
    let outputs := (draft.request names).outputs
    let results := Results.ofForm form outputs separator version
    (results.entries.map Prod.fst = (outputs.map Output.key).eraseDups ∧ (results.entries.map Prod.fst).Nodup) ∧
    (∀ output ∈ outputs, results.get? output.key = some (output.render form separator version) ∧
      results.put output.key (output.render form separator version) = results) ∧
    (∀ output ∈ outputs, ∀ other ∈ outputs, output.key = other.key → output = other) ∧
    ∀ more, results.entries <+:
      (Results.ofForm form (draft.request (names ++ more)).outputs separator version).entries := by
  intro outputs results
  have distinct : (results.entries.map Prod.fst).Nodup := Results.nodup_ofForm form outputs separator version
  refine ⟨⟨Results.keys_ofForm form outputs separator version, distinct⟩, ?_, ?_, ?_⟩
  · intro output requested
    have delivered := Results.mem_entries_ofNames form requested separator version
    exact ⟨Entries.get?_of_mem distinct delivered, congrArg Results.mk (Entries.put_of_mem distinct delivered)⟩
  · intro output requested other requested' same
    exact Results.same_of_key requested requested' same
  · intro more
    simp only [results, outputs, Settings.Draft.request, Results.entries_ofNames]
    rw [List.map_append, List.map_append, List.eraseDups_append]
    exact List.prefix_append _ _

theorem requests_delivered_repeated :
    let names := ["SHA-256", " PreHash ", "whirlpool", "SHA-256 ", "prehash", "sha-256"]
    let results := Results.ofForm ⟨["a", "b"]⟩ (Settings.Draft.standard.request names).outputs "|" .v2_0
    results.entries.map Prod.fst = ["SHA-256", "prehash", "whirlpool", "sha-256"] ∧
    (Output.prehash ∈ (Settings.Draft.standard.request names).outputs ∧ results.get? "prehash" = some "a|b") ∧
    (Output.digest "whirlpool" .sha256 ∈ (Settings.Draft.standard.request names).outputs ∧
      results.get? "whirlpool" = some (digestUri .sha256 "ab" .v2_0)) := by
  intro names results
  obtain ⟨⟨keys, -⟩, delivered, -, -⟩ := requests_delivered Settings.Draft.standard names ⟨["a", "b"]⟩ "|" .v2_0
  have prehash : Output.prehash ∈ (Settings.Draft.standard.request names).outputs := by decide +kernel
  have unknown : Output.digest "whirlpool" .sha256 ∈ (Settings.Draft.standard.request names).outputs := by
    decide +kernel
  refine ⟨keys.trans (by decide +kernel), ⟨prehash, ?_⟩, unknown, ?_⟩
  · exact (delivered _ prehash).1.trans (by decide +kernel)
  · exact (delivered _ unknown).1.trans (congrArg (some <| digestUri .sha256 · .v2_0) (by decide +kernel))

end EpcisDigest
