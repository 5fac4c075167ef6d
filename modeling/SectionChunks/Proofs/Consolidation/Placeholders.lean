import SectionChunks.Proofs.Consolidation.Fields

/-! # Fields that are there without content

A list without items and a record without matches say no more than an absent field does. Lists that
are put together and matches never leave such a field behind. A list that is kept as it was first
found can be empty, and this is the only way (`value?_isEmpty_iff`). -/

namespace SectionChunks

/-- A value without content: a list without items, or a record without matches. -/
def FieldValue.IsEmpty : FieldValue → Prop
  | list items => items = []
  | regex r => r.entries = []
  | _ => False

/-- No field is there without content. -/
def Metadata.NoPlaceholder (m : Metadata) : Prop := ∀ f v, m.value? f = some v → ¬ v.IsEmpty

theorem FieldValue.type_of_isEmpty {v : FieldValue} (h : v.IsEmpty) :
    v.type = .list ∧ v = .list [] ∨ v.type = .regex := by
  cases v with
  | list items => exact .inl ⟨rfl, congrArg FieldValue.list h⟩
  | regex r => exact .inr rfl
  | text | integer | float | flag | coordinates => exact absurd h id

theorem Field.eq_of_mem_keptFirst {f : Field} (hf : f ∈ keptFirst) :
    f.type ≠ .regex ∧ (f.type = .list → f = .sentFrom ∨ f = .sentTo) := by
  have h : ∀ g ∈ keptFirst, g.type ≠ .regex ∧ (g.type = .list → g = .sentFrom ∨ g = .sentTo) := by
    decide
  exact h f hf

theorem Metadata.MergedFrom.first_eq_of_isEmpty {first : Field → Option FieldValue}
    {items : Field → List String} {matched : Prop} {regex : RegexMap} {m : Metadata}
    (hm : m.MergedFrom first items matched regex) {f : Field} {v : FieldValue}
    (hv : m.value? f = some v) (hempty : v.IsEmpty) :
    (f = .sentFrom ∨ f = .sentTo) ∧ first f = some (.list []) := by
  have hf := Field.perm_all.mem_iff.mpr f.mem_all
  simp only [List.mem_append, or_assoc] at hf
  rcases hf with hf | hf | hf | hf
  · -- The first value has the field's type, which is not that of matches.
    obtain ⟨hne, hlist⟩ := Field.eq_of_mem_keptFirst hf
    rw [← type_of_value? hv] at hne hlist
    rcases FieldValue.type_of_isEmpty hempty with ⟨htype, rfl⟩ | htype
    · exact ⟨hlist htype, by rw [← hm.first f hf, hv]⟩
    · exact absurd htype hne
  · rw [hm.concatenated f hf] at hv
    split at hv
    · cases hv
    · next hne =>
      cases hv
      exact absurd hempty hne
  · rcases List.mem_pair.mp hf with rfl | rfl
    · obtain ⟨kept, hkept, rfl⟩ := Option.map_eq_some_iff.mp hv
      have hnil : kept = [] := hempty
      exact absurd (hnil ▸ hkept) hm.languages.2
    · obtain ⟨r, hr, rfl⟩ := Option.map_eq_some_iff.mp hv
      obtain ⟨rfl, -, hne⟩ := (hm.regexMetadata r).mp hr
      exact absurd hempty hne
  · rw [value?, hm.dropped f hf] at hv
    cases hv

/-- **A field of a group is there without content** exactly when it names senders or receivers and
the first element that has it has an empty list. -/
theorem value?_isEmpty_iff (g : TextGroup) (f : Field) :
    (∃ v, g.metadata.value? f = some v ∧ v.IsEmpty) ↔
      (f = .sentFrom ∨ f = .sentTo) ∧
        g.elements.findSome? (·.metadata.value? f) = some (.list []) := by
  have hm : g.metadata.MergedFrom _ _ _ g.regexMatches :=
    mergedFrom_records (g.elements.map (·.metadata)) g.regexMatches
  constructor
  · rintro ⟨v, hv, hempty⟩
    obtain ⟨hf, hfirst⟩ := hm.first_eq_of_isEmpty hv hempty
    rw [List.findSome?_map] at hfirst
    exact ⟨hf, hfirst⟩
  · rintro ⟨hf, hfirst⟩
    have hmem : f ∈ Field.keptFirst := by
      rcases hf with rfl | rfl <;> decide
    refine ⟨.list [], ?_, rfl⟩
    rw [hm.first f hmem, List.findSome?_map]
    exact hfirst

/-- A mail of which nobody is known to be the sender. -/
def mailFromNobody : Element := (Element.narrativeText "x").withMetadata { sentFrom := some [] }

/-- The empty list of senders is kept. -/
theorem not_noPlaceholder_mailFromNobody :
    (TextGroup.mk [mailFromNobody]).elements ≠ [] ∧
      (∀ e ∈ (TextGroup.mk [mailFromNobody]).elements, e.kind ≠ .table) ∧
      (TextGroup.mk [mailFromNobody]).metadata.sentFrom = some [] ∧
      ¬ (TextGroup.mk [mailFromNobody]).metadata.NoPlaceholder := by
  have hsent : (TextGroup.mk [mailFromNobody]).metadata.sentFrom = some [] := by decide
  refine ⟨by decide, by decide, hsent, fun h => h .sentFrom (.list []) ?_ rfl⟩
  exact congrArg (Option.map FieldValue.list) hsent

end SectionChunks
