import EpcisDigest.Event.Tree
import EpcisDigest.Proofs.Entries
import EpcisDigest.Proofs.Event.Lines
import EpcisDigest.Proofs.Text.Pieces

namespace EpcisDigest

theorem filter_intercalate {α : Type} {p : α → Bool} {sep : List α} {parts : List (List α)}
    (dropped : ∀ a ∈ sep, p a = false) (kept : ∀ part ∈ parts, ∀ a ∈ part, p a = true) :
    (sep.intercalate parts).filter p = parts.flatten := by
  have none : sep.filter p = [] := by simpa using dropped
  induction parts with
  | nil => rfl
  | cons part parts ih =>
    obtain ⟨first, others⟩ := List.forall_mem_cons.mp kept
    have whole : part.filter p = part := List.filter_eq_self.mpr first
    have rest := ih others
    cases parts with
    | nil => simp [whole]
    | cons next parts => simp [List.intercalate_cons_cons, whole, none, rest]

theorem intercalate_nothing {α : Type} (parts : List (List α)) : ([] : List α).intercalate parts = parts.flatten := by
  have whole : (([] : List α).intercalate parts).filter (fun _ => true) = parts.flatten :=
    filter_intercalate (by simp) (by simp)
  rwa [List.filter_eq_self.mpr (by simp)] at whole

namespace CanonicalForm

variable {form : CanonicalForm}

def Clean (form : CanonicalForm) : Prop :=
  ∀ line ∈ form.lines, line ≠ "" ∧ '\n' ∉ line.toList ∧ '\r' ∉ line.toList

/-- The lines can be read off the text, and without its line ends the text is what the digests are made of. -/
structure Coherent (form : CanonicalForm) : Prop where
  clean : form.Clean
  split : form.lines ≠ [] → Text.pieces '\n' form.text = form.lines
  deleted : String.ofList (form.text.toList.filter (· != '\n')) = form.digestInput
  unseparated : form.digestInput = form.joined ""
  concatenated : form.digestInput.toList = (form.lines.map String.toList).flatten

theorem Clean.separated (clean : form.Clean) (any : form.lines ≠ []) : Text.Separated '\n' form.lines form.text :=
  ⟨any, fun line member => (clean line member).2.1, rfl⟩

theorem digestInput_toList (form : CanonicalForm) :
    form.digestInput.toList = (form.lines.map String.toList).flatten := by
  rw [digestInput, joined, String.toList_intercalate]
  exact intercalate_nothing _

theorem Clean.filter_text (clean : form.Clean) : form.text.toList.filter (· != '\n') = form.digestInput.toList := by
  rw [digestInput_toList, text, joined, String.toList_intercalate]
  apply filter_intercalate (by simp)
  intro part member c inPart
  obtain ⟨line, among, rfl⟩ := List.mem_map.mp member
  rw [bne_iff_ne]
  rintro rfl
  exact (clean line among).2.1 inPart

theorem Clean.coherent (clean : form.Clean) : form.Coherent where
  clean := clean
  split any := Text.pieces_eq_iff.mpr (clean.separated any)
  deleted := by rw [clean.filter_text, String.ofList_toList]
  unseparated := rfl
  concatenated := form.digestInput_toList

end CanonicalForm

section Forms

variable {settings settings' : Settings} {namespaces : Namespaces}

theorem clean_of_canonicalForm {fields : List Field} {form : CanonicalForm}
    (made : canonicalForm settings namespaces fields = .ok form) : form.Clean := by
  obtain ⟨_, _, _, _, rfl⟩ := exists_sorted made
  intro line member
  obtain ⟨cut, any⟩ := List.mem_filter.mp member
  obtain ⟨whole, -, rfl⟩ := List.mem_map.mp cut
  exact ⟨by simpa using any, by simp [withoutLineEnds], by simp [withoutLineEnds]⟩

structure SameLines (settings settings' : Settings) : Prop where
  version : settings'.version = settings.version
  excluded : settings'.excluded = settings.excluded

theorem SameLines.isExcluded (same : SameLines settings settings') : settings'.isExcluded = settings.isExcluded := by
  funext name
  rw [Settings.isExcluded, Settings.isExcluded, same.excluded]

theorem isExcluded_same (same : SameLines settings settings') : isExcluded settings' = isExcluded settings := by
  funext name
  rw [isExcluded, isExcluded, same.isExcluded]

theorem line?_same (same : SameLines settings settings') : Leaf.line? settings' = Leaf.line? settings := by
  funext lineage name value
  simp only [Leaf.line?, same.isExcluded]

mutual

theorem extensionLines_same (same : SameLines settings settings') (namespaces : Namespaces) :
    ∀ field, extensionLines settings' namespaces field = extensionLines settings namespaces field
  | ⟨name, value, children⟩ => by rw [extensionLines, extensionLines, extensionEntries_same same namespaces children]

theorem extensionEntries_same (same : SameLines settings settings') (namespaces : Namespaces) :
    ∀ fields, extensionEntries settings' namespaces fields = extensionEntries settings namespaces fields
  | [] => by rw [extensionEntries, extensionEntries]
  | field :: fields => by
    rw [extensionEntries, extensionEntries, isExcluded_same same, extensionLines_same same namespaces field,
      extensionEntries_same same namespaces fields]

end

mutual

theorem standardLines_same (same : SameLines settings settings') (namespaces : Namespaces) :
    ∀ field lineage, standardLines settings' namespaces lineage field = standardLines settings namespaces lineage field
  | ⟨name, value, children⟩, lineage => by
    rw [standardLines, standardLines, siblingEntries_same same namespaces children, same.version, line?_same same]

theorem siblingEntries_same (same : SameLines settings settings') (namespaces : Namespaces) :
    ∀ fields lineage,
      siblingEntries settings' namespaces lineage fields = siblingEntries settings namespaces lineage fields
  | [], _ => by rw [siblingEntries, siblingEntries]
  | field :: fields, lineage => by
    rw [siblingEntries, siblingEntries, isExcluded_same same, extensionLines_same same namespaces field,
      standardLines_same same namespaces field, siblingEntries_same same namespaces fields]

end

/-- The lines of an event depend on the version and the excluded fields alone. -/
theorem canonicalForm_same (same : SameLines settings settings') (namespaces : Namespaces) (fields : List Field) :
    canonicalForm settings' namespaces fields = canonicalForm settings namespaces fields := by
  rw [canonicalForm, canonicalForm, siblingEntries_same same, same.version]

end Forms

section Entries

variable {settings : Settings} {form : CanonicalForm}

inductive EntryOf (settings : Settings) (form : CanonicalForm) : String → String → Prop where
  | prehash (requested : Output.prehash ∈ settings.outputs) :
      EntryOf settings form "prehash" (form.joined settings.separator)
  | digest {name : String} {algorithm : Algorithm} (requested : Output.digest name algorithm ∈ settings.outputs) :
      EntryOf settings form name (digestUri algorithm (form.joined "") settings.version)

theorem entryOf_render {output : Output} (requested : output ∈ settings.outputs) :
    EntryOf settings form output.key (output.render form settings.separator settings.version) := by
  cases output with
  | prehash => exact .prehash requested
  | digest name algorithm => exact .digest requested

end Entries

namespace Results

variable {settings : Settings} {form : CanonicalForm}

theorem entries_ofForm (form : CanonicalForm) (outputs : List Output) (separator : String) (version : Version) :
    (ofForm form outputs separator version).entries =
      Entries.ofList (outputs.map fun output => (output.key, output.render form separator version)) := by
  rw [ofForm, Entries.ofList, List.foldl_map]
  exact (List.foldl_hom Results.entries fun _ _ => rfl).symm

theorem entryOf_ofForm {name value : String}
    (member : (name, value) ∈ (ofForm form settings.outputs settings.separator settings.version).entries) :
    EntryOf settings form name value := by
  rw [entries_ofForm] at member
  obtain ⟨output, requested, same⟩ := List.mem_map.mp (Entries.mem_of_mem_ofList member)
  obtain ⟨rfl, rfl⟩ := Prod.mk.inj same
  exact entryOf_render requested

/-- The outputs that were asked for have entries, in the order in which their keys first came. -/
theorem keys_ofForm (form : CanonicalForm) (outputs : List Output) (separator : String) (version : Version) :
    (ofForm form outputs separator version).entries.map Prod.fst = (outputs.map Output.key).eraseDups := by
  rw [entries_ofForm, Entries.keys_ofList, List.map_map]
  rfl

theorem mem_keys_ofForm {output : Output} {outputs : List Output} (requested : output ∈ outputs) (separator : String)
    (version : Version) : output.key ∈ (ofForm form outputs separator version).entries.map Prod.fst := by
  rw [keys_ofForm, List.mem_eraseDups]
  exact List.mem_map_of_mem requested

theorem nodup_ofForm (form : CanonicalForm) (outputs : List Output) (separator : String) (version : Version) :
    ((ofForm form outputs separator version).entries.map Prod.fst).Nodup := by
  rw [entries_ofForm]
  exact Entries.nodup_ofList _

end Results

end EpcisDigest
