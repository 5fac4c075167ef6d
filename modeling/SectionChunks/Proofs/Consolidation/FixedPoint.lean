import SectionChunks.Proofs.Consolidation.Append

/-! # Merging a merged record

A merged record that is given to a single element is not changed by merging it again: what the table
of fields says of many records, it says of their merged record too, and it tells only one record.

* `Metadata.MergedFrom.eq`: there is one merged record only.
* `Metadata.MergedFrom.self`: a merged record is merged from itself.
* `TextGroup.regexMatches_mk_singleton`: the matches of one element stay where they are.
* `TextGroup.metadata_mk_singleton`: merging a merged record. -/

namespace SectionChunks

/-! ### Lists and matches -/

/-- Where no repetitions are left, none is left out. -/
theorem FirstOccurrences.self {items kept : List String} (h : FirstOccurrences items kept) :
    FirstOccurrences kept kept := by
  refine ⟨fun x => Iff.rfl, h.nodup, List.pairwise_iff_getElem.mpr fun i j hi hj hij => ?_⟩
  rw [h.nodup.idxOf_getElem i hi, h.nodup.idxOf_getElem j hj]
  exact hij

theorem RegexMatch.shift_zero (m : RegexMatch) : m.shift 0 = m := rfl

theorem RegexMap.union_singleton_zero (r : RegexMap) : union [(0, r)] = r := by
  refine Dictionary.eq_of_find?_eq fun name => ?_
  have hfind := find?_append_shift .empty (0, r) name
  have hempty : (Dictionary.empty : RegexMap).find? name = none := rfl
  rw [hempty, Option.or_none] at hfind
  refine hfind.trans ?_
  simp only [RegexMatch.shift_zero, List.map_id', Option.getD_none, List.nil_append, Option.map_id']

/-! ### Merged records -/

namespace Metadata.MergedFrom

variable {first : Field → Option FieldValue} {items : Field → List String} {matched : Prop}
  {regex : RegexMap} {m m' : Metadata}

/-- There is one merged record only. -/
theorem eq (h : m.MergedFrom first items matched regex)
    (h' : m'.MergedFrom first items matched regex) : m = m' :=
  ext_table (fun f hf => (h.first f hf).trans (h'.first f hf).symm)
    (fun f hf => (h.concatenated f hf).trans (h'.concatenated f hf).symm)
    (eq_of_getD_eq h.languages.2 h'.languages.2 (h.languages.1.eq h'.languages.1))
    (Option.ext fun r => (h.regexMetadata r).trans (h'.regexMetadata r).symm)
    fun f hf => (h.dropped f hf).trans (h'.dropped f hf).symm

theorem self (h : m.MergedFrom first items matched regex) :
    m.MergedFrom m.value? m.items (m.regexMetadata ≠ none) (m.regexMetadata.getD .empty) := by
  refine ⟨fun f _ => rfl, fun f hf => ?_, ⟨?_, h.languages.2⟩, fun r => ?_, h.dropped⟩
  · rw [h.items_eq hf]
    exact h.concatenated f hf
  · rw [items_languages]
    exact h.languages.1.self
  · cases hr : m.regexMetadata with
    | none => simp
    | some r' =>
      obtain ⟨rfl, -, hne⟩ := (h.regexMetadata r').mp hr
      simp [hne, eq_comm]

end Metadata.MergedFrom

/-! ### One element -/

namespace TextGroup

/-- The matches of one element are its own, if it has a text. -/
theorem regexMatches_mk_singleton (e : Element) : (mk [e]).regexMatches =
    if e.text = "" then .empty else e.metadata.regexMetadata.getD .empty := by
  rw [regexMatches, placed]
  split
  · next h => rw [placedFrom_cons_of_empty h]; rfl
  · next h =>
    rw [placedFrom_cons_of_ne_empty h]
    cases hr : e.metadata.regexMetadata with
    | none => rw [List.filterMap_cons_none (by rw [hr]; rfl)]; rfl
    | some r =>
      rw [List.filterMap_cons_some (by rw [hr]; rfl)]
      exact RegexMap.union_singleton_zero r

theorem regexMetadata_metadata_of_empty {g : TextGroup} (h : g.joinedText = "") :
    g.metadata.regexMetadata = none := by
  have hlen : g.textLength = 0 := by rw [textLength_eq_length, h]; rfl
  refine Option.eq_none_iff_forall_ne_some.mpr fun r hr => ?_
  obtain ⟨rfl, -, hne⟩ := (g.mergedFrom_metadata.regexMetadata r).mp hr
  have hempty : g.regexMatches = .empty := Dictionary.eq_of_find?_eq fun name => by
    by_contra hfound
    obtain ⟨e, he, htext, -⟩ := find?_regexMatches_ne_none_iff.mp hfound
    exact htext (textLength_eq_zero_iff.mp hlen e he)
  rw [hempty] at hne
  exact hne rfl

/-- **Merging a merged record**, with some text of the group or with none if the group has none,
gives it back. -/
theorem metadata_mk_singleton (g : TextGroup) (kind : Kind) {text : String}
    (h : text = "" → g.joinedText = "") :
    (mk [⟨kind, text, g.metadata⟩]).metadata = g.metadata := by
  have hagain := (mk [⟨kind, text, g.metadata⟩]).mergedFrom_metadata
  have hregex : (mk [⟨kind, text, g.metadata⟩]).regexMatches =
      g.metadata.regexMetadata.getD .empty := by
    rw [regexMatches_mk_singleton]
    split
    · next he => rw [regexMetadata_metadata_of_empty (h he)]; rfl
    · rfl
  simp only [hregex, List.map_cons, List.map_nil, List.findSome?_singleton, List.flatMap_singleton,
    List.mem_singleton, exists_eq_left] at hagain
  exact hagain.eq g.mergedFrom_metadata.self

end TextGroup

end SectionChunks
