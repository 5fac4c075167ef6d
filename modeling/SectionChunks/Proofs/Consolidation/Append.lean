import SectionChunks.Proofs.Consolidation.Matches

/-! # Groups put together

The merged metadata of two groups that are put together is merged from all their elements anew.
Still it can be told from the two merged records alone, once it is known where the text of the
second group begins: nothing that was left out of either record would have come into the one of
both. Moving the matches of the second group twice is moving them once by the sum of both ways; this
needs exact positions (`RegexMatch.shift`).

* `TextGroup.joinedText_append`, `TextGroup.textLength_append`: text and length of two groups.
* `TextGroup.placed_append`: the second group moves behind the first one as a whole.
* `Metadata.Appended`: what two records are put together into. There is one way only
  (`Metadata.Appended.eq`).
* `TextGroup.appended_metadata`: the merged metadata of two groups.
* `TextGroup.summary_append`: text, length and metadata of two groups from those of either. -/

namespace SectionChunks

namespace TextGroup

/-! ### Text and places -/

/-- Where the text of a group begins that is put behind this one. -/
def nextPlace (g : TextGroup) : Nat := if g.textLength = 0 then 0 else g.textLength + 2

theorem joinedText_append (g h : TextGroup) :
    (g ++ h).joinedText = g.joinedText ++
      (if g.joinedText ≠ "" ∧ h.joinedText ≠ "" then "\n\n" else "") ++ h.joinedText := by
  rw [joinedText, elements_append, List.map_append]
  exact Text.joined_append _ _

theorem textLength_append (g h : TextGroup) :
    (g ++ h).textLength =
      if h.textLength = 0 then g.textLength else g.nextPlace + h.textLength := by
  have happend : (g ++ h).textLength = Text.joinedLength g.textLength h.textLength := by
    rw [textLength, elements_append, List.map_append, Text.Extent.length_ofLengths_append]
    rfl
  rw [happend, Text.joinedLength, nextPlace]
  split_ifs <;> omega

/-- The second group moves as a whole. -/
theorem placed_append (g h : TextGroup) :
    (g ++ h).placed = g.placed ++ h.placed.map fun p => (p.1 + g.nextPlace, p.2) := by
  have hend : lastEnd 0 (placedFrom 0 g.elements) = g.textLength := by
    rw [textLength_eq_length]
    exact lastEnd_placedFrom [] g.elements
  rw [placed, elements_append, placedFrom_append, hend, placedFrom_eq_map g.textLength]
  rfl

/-! ### Matches -/

theorem matches?_append_ne_none_iff (g h : TextGroup) (name : String) :
    (g ++ h).metadata.matches? name ≠ none ↔
      g.metadata.matches? name ≠ none ∨ h.metadata.matches? name ≠ none := by
  simp only [matches?_metadata, find?_regexMatches_ne_none_iff, elements_append, List.mem_append,
    or_and_right, exists_or]

/-- The matches of both groups are those of the first one, and behind them those of the second one,
moved with its text. -/
theorem getD_matches?_append (g h : TextGroup) (name : String) :
    ((g ++ h).metadata.matches? name).getD [] = (g.metadata.matches? name).getD [] ++
      ((h.metadata.matches? name).getD []).map (·.shift g.nextPlace) := by
  have hshift : ∀ (p : Nat × Element) (ms : List RegexMatch),
      ms.map (·.shift (p.1 + g.nextPlace)) = (ms.map (·.shift p.1)).map (·.shift g.nextPlace) := by
    intro p ms
    rw [List.map_map]
    refine List.map_congr_left fun m _ => ?_
    simp only [RegexMatch.shift, Function.comp_apply, Nat.add_assoc]
  simp only [matches?_metadata, getD_find?_regexMatches]
  rw [placed_append, List.flatMap_append, List.flatMap_map, List.map_flatMap]
  simp only [hshift]

end TextGroup

/-! ### Two records as one -/

namespace Metadata

/-- **What two records are put together into**, the second one behind the first. `place` is where
the text of the second one begins. A list or matches that are absent count as empty, and if they are
still empty in the end they are absent again. -/
structure Appended (place : Nat) (a b m : Metadata) : Prop where
  first : ∀ f ∈ Field.keptFirst, m.value? f = (a.value? f).or (b.value? f)
  concatenated : ∀ f ∈ Field.concatenated, m.value? f =
    if a.items f ++ b.items f = [] then none else some (.list (a.items f ++ b.items f))
  languages : FirstOccurrences (a.items .languages ++ b.items .languages) (m.items .languages) ∧
    m.languages ≠ some []
  regexMetadata : (∀ name ms, m.matches? name = some ms ↔
    (a.matches? name ≠ none ∨ b.matches? name ≠ none) ∧
      ms = (a.matches? name).getD [] ++ ((b.matches? name).getD []).map fun x =>
        ⟨x.text, x.start + place, x.stop + place⟩) ∧ m.regexMetadata ≠ some .empty
  dropped : ∀ f ∈ Field.dropped, m.get f = none

theorem items_languages (m : Metadata) : m.items .languages = m.languages.getD [] := by
  show ((m.languages.map FieldValue.list).map FieldValue.items).getD [] = _
  cases m.languages <;> rfl

theorem matches?_eq_find? (m : Metadata) (name : String) :
    m.matches? name = (m.regexMetadata.getD .empty).find? name := by
  rw [matches?]
  cases m.regexMetadata <;> rfl

theorem eq_of_getD_eq {α : Type} {x y : Option α} {a : α} (hx : x ≠ some a) (hy : y ≠ some a)
    (h : x.getD a = y.getD a) : x = y := by
  cases x with
  | none => cases y with
    | none => rfl
    | some w => exact absurd (congrArg some h.symm) hy
  | some v => cases y with
    | none => exact absurd (congrArg some h) hx
    | some w => exact congrArg some h

theorem eq_some_iff_of_getD_eq {α : Type} {x : Option (List α)} {as bs : List α}
    (h : x.getD [] = as) : x = some bs ↔ x ≠ none ∧ bs = as := by
  cases x with
  | none => simp
  | some cs =>
    obtain rfl : cs = as := h
    simp [eq_comm]

theorem ext_table {m m' : Metadata} (hfirst : ∀ f ∈ Field.keptFirst, m.value? f = m'.value? f)
    (hconcatenated : ∀ f ∈ Field.concatenated, m.value? f = m'.value? f)
    (hlanguages : m.languages = m'.languages) (hregex : m.regexMetadata = m'.regexMetadata)
    (hdropped : ∀ f ∈ Field.dropped, m.get f = m'.get f) : m = m' := by
  refine ext_get fun f => ?_
  have hf := Field.perm_all.mem_iff.mpr f.mem_all
  simp only [List.mem_append, or_assoc] at hf
  rcases hf with hf | hf | hf | hf
  · exact get_eq_of_value?_eq (hfirst f hf)
  · exact get_eq_of_value?_eq (hconcatenated f hf)
  · rcases List.mem_pair.mp hf with rfl | rfl
    · exact hlanguages
    · exact hregex
  · exact hdropped f hf

/-- There is one way only to put two records together. -/
theorem Appended.eq {place : Nat} {a b m m' : Metadata} (h : Appended place a b m)
    (h' : Appended place a b m') : m = m' := by
  refine ext_table (fun f hf => (h.first f hf).trans (h'.first f hf).symm)
    (fun f hf => (h.concatenated f hf).trans (h'.concatenated f hf).symm) ?_ ?_
    fun f hf => (h.dropped f hf).trans (h'.dropped f hf).symm
  · have hitems := h.languages.1.eq h'.languages.1
    rw [items_languages, items_languages] at hitems
    exact eq_of_getD_eq h.languages.2 h'.languages.2 hitems
  · refine eq_of_getD_eq h.regexMetadata.2 h'.regexMetadata.2 ?_
    refine Dictionary.eq_of_find?_eq fun name => Option.ext fun ms => ?_
    rw [← matches?_eq_find?, ← matches?_eq_find?]
    exact (h.regexMetadata.1 name ms).trans (h'.regexMetadata.1 name ms).symm

theorem MergedFrom.items_eq {first : Field → Option FieldValue} {items : Field → List String}
    {matched : Prop} {regex : RegexMap} {m : Metadata} (hm : m.MergedFrom first items matched regex)
    {f : Field} (hf : f ∈ Field.concatenated) : m.items f = items f := by
  rw [Metadata.items, hm.concatenated f hf]
  split
  · next hnil => exact hnil.symm
  · rfl

end Metadata

/-! ### Two groups as one -/

namespace TextGroup

theorem mergedFrom_metadata (g : TextGroup) : g.metadata.MergedFrom
    (fun f => (g.elements.map (·.metadata)).findSome? (·.value? f))
    (fun f => (g.elements.map (·.metadata)).flatMap (·.items f))
    (∃ m ∈ g.elements.map (·.metadata), m.regexMetadata ≠ none) g.regexMatches :=
  mergedFrom_records (g.elements.map (·.metadata)) g.regexMatches

/-- The merged metadata of two groups is put together of theirs. -/
theorem appended_metadata (g h : TextGroup) :
    Metadata.Appended g.nextPlace g.metadata h.metadata (g ++ h).metadata := by
  have hg := g.mergedFrom_metadata
  have hh := h.mergedFrom_metadata
  have hboth := (g ++ h).mergedFrom_metadata
  rw [elements_append, List.map_append] at hboth
  refine ⟨fun f hf => ?_, fun f hf => ?_, ⟨?_, hboth.languages.2⟩,
    ⟨fun name ms => ?_, fun hempty => ?_⟩,
    hboth.dropped⟩
  · rw [hboth.first f hf, hg.first f hf, hh.first f hf, List.findSome?_append]
  · rw [hboth.concatenated f hf, hg.items_eq hf, hh.items_eq hf, List.flatMap_append]
  · have hkept := hboth.languages.1
    rw [List.flatMap_append] at hkept
    rw [Metadata.items_languages, Metadata.items_languages, Metadata.items_languages]
    exact hg.languages.1.append hh.languages.1 hkept
  · rw [← matches?_append_ne_none_iff]
    exact Metadata.eq_some_iff_of_getD_eq (getD_matches?_append g h name)
  · obtain ⟨hregex, -, hne⟩ := (hboth.regexMetadata _).mp hempty
    rw [← hregex] at hne
    exact hne rfl

/-- **Two groups put together** have one text behind the other, with a blank line if there are two,
are as long as that, and have the metadata that theirs are put together into. So nothing of a group
but its text and its merged metadata shows in a larger one. -/
theorem summary_append (g h : TextGroup) :
    (g ++ h).joinedText = g.joinedText ++
        (if g.joinedText ≠ "" ∧ h.joinedText ≠ "" then "\n\n" else "") ++ h.joinedText ∧
      (g ++ h).textLength =
        (if h.textLength = 0 then g.textLength else g.nextPlace + h.textLength) ∧
      ∀ m, m = (g ++ h).metadata ↔
        Metadata.Appended g.nextPlace g.metadata h.metadata m :=
  ⟨joinedText_append g h, textLength_append g h, fun _ =>
    ⟨fun heq => heq ▸ appended_metadata g h, fun happ => happ.eq (appended_metadata g h)⟩⟩

end TextGroup

end SectionChunks
