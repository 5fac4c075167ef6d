import SectionChunks.Consolidation
import SectionChunks.Proofs.Element.Metadata
import Mathlib.Data.List.Basic

/-! # The merged record, field by field

The fields are merged one after the other into one record, and the regex matches are used up on the
way. Still no field shows in another one.

* `Merging.get_step_self`, `Merging.get_step_of_ne`: what one step does to the fields.
* `get_consolidate`: what all steps together do to a field.
* `FirstOccurrences`: a list without its repetitions, also of two lists (`FirstOccurrences.append`).
* `mergedFrom_consolidate`: the merged record is what the documented table of fields says. -/

namespace SectionChunks

/-! ### The fields that are there -/

namespace CollectedValues

theorem mem_entries_iff {values : CollectedValues} {f : Field} {vs : List FieldValue} :
    (f, vs) ∈ values.entries ↔ values f = some vs :=
  Field.mem_filterMap_all_iff

theorem nodup_fields_entries (values : CollectedValues) : (values.entries.map (·.1)).Nodup := by
  rw [entries, Field.map_fst_filterMap_all]
  exact Field.nodup_all.sublist List.filter_sublist

end CollectedValues

/-! ### One step -/

theorem Field.strategy_eq_regex_iff {f : Field} : f.strategy = .regex ↔ f = .regexMetadata := by
  cases f <;> decide

theorem Strategy.merge_congr {s : Strategy} (hs : s ≠ .regex) (r r' : Option RegexMap)
    (vs : List FieldValue) : s.merge r vs = s.merge r' vs := by
  cases s with
  | regex => exact absurd rfl hs
  | first | concatenate | distinct | drop => rfl

/-- The value that a field comes to, if it has the field's type. -/
def Field.merged (f : Field) (regex : Option RegexMap) (vs : List FieldValue) : Option f.Value :=
  (f.strategy.merge regex vs).bind (FieldValue.as? f.type)

namespace Merging

theorem get_put_self (m : Merging) (f : Field) (v : Option FieldValue) :
    (m.put f v).get f = (v.bind (FieldValue.as? f.type)).or (m.record.get f) := by
  cases v with
  | none => rfl
  | some v =>
    rw [put, Metadata.set, Option.bind_some]
    cases v.as? f.type with
    | none => rfl
    | some w => exact Metadata.get_put_self m.record f (some w)

theorem get_put_of_ne (m : Merging) {f g : Field} (v : Option FieldValue) (h : f ≠ g) :
    (m.put f v).get g = m.record.get g := by
  cases v with
  | none => rfl
  | some v =>
    rw [put, Metadata.set]
    cases v.as? f.type with
    | none => rfl
    | some w => exact Metadata.get_put_of_ne m.record (some w) h

theorem get_step_self (m : Merging) (f : Field) (vs : List FieldValue) :
    (m.step (f, vs)).record.get f = (f.merged m.regex vs).or (m.record.get f) :=
  m.get_put_self f _

theorem get_step_of_ne (m : Merging) {entry : Field × List FieldValue} {g : Field}
    (h : entry.1 ≠ g) : (m.step entry).record.get g = m.record.get g :=
  m.get_put_of_ne _ h

theorem merged_regex_step (m : Merging) {entry : Field × List FieldValue} {g : Field}
    (h : entry.1 ≠ g) (vs : List FieldValue) :
    g.merged (m.step entry).regex vs = g.merged m.regex vs := by
  by_cases hg : g.strategy = .regex
  · have hentry : entry.1.strategy ≠ .regex := by
      intro he
      rw [Field.strategy_eq_regex_iff] at he hg
      exact h (he.trans hg.symm)
    rw [step, if_neg hentry]
  · rw [Field.merged, Field.merged, Strategy.merge_congr hg _ m.regex]

/-! ### All steps -/

theorem get_run_of_notMem {entries : List (Field × List FieldValue)} {f : Field}
    (h : f ∉ entries.map (·.1)) (m : Merging) :
    (entries.foldl step m).record.get f = m.record.get f := by
  induction entries generalizing m with
  | nil => rfl
  | cons entry entries ih =>
    obtain ⟨hne, hrest⟩ := List.ne_and_not_mem_of_not_mem_cons h
    rw [List.foldl_cons, ih hrest, get_step_of_ne m (Ne.symm hne)]

theorem get_run_of_mem {entries : List (Field × List FieldValue)}
    (hnodup : (entries.map (·.1)).Nodup) {f : Field} {vs : List FieldValue}
    (h : (f, vs) ∈ entries) (m : Merging) :
    (entries.foldl step m).record.get f = (f.merged m.regex vs).or (m.record.get f) := by
  induction entries generalizing m with
  | nil => exact absurd h List.not_mem_nil
  | cons entry entries ih =>
    obtain ⟨hentry, hrest⟩ := List.nodup_cons.mp hnodup
    rw [List.foldl_cons]
    rcases List.mem_cons.mp h with rfl | h
    · rw [get_run_of_notMem hentry, get_step_self]
    · have hne : entry.1 ≠ f := fun heq => hentry (List.mem_map.mpr ⟨(f, vs), h, heq.symm⟩)
      rw [ih hrest h, merged_regex_step m hne, get_step_of_ne m hne]

end Merging

/-- Each field is merged by itself, from its own values and the regex matches. -/
theorem get_consolidate (values : CollectedValues) (regex : RegexMap) (f : Field) :
    (consolidate values regex).get f = (values f).bind (f.merged (some regex)) := by
  have hempty : (Merging.start regex).record.get f = none := by cases f <;> rfl
  cases h : values f with
  | none =>
    have hf : f ∉ values.entries.map (·.1) := by
      intro hmem
      obtain ⟨⟨g, vs⟩, hentry, rfl⟩ := List.mem_map.mp hmem
      rw [CollectedValues.mem_entries_iff.mp hentry] at h
      cases h
    rw [consolidate, Merging.get_run_of_notMem hf, hempty]
    rfl
  | some vs =>
    rw [consolidate, Merging.get_run_of_mem values.nodup_fields_entries
      (CollectedValues.mem_entries_iff.mpr h), hempty, Option.or_none]
    rfl

/-- The values of one field only. -/
def CollectedValues.only (values : CollectedValues) (f : Field) : CollectedValues := fun g =>
  if g = f then values g else none

/-- `kept` has the items of a list, each at its first place only: nothing is missing, nothing comes
twice, and the items are in the order in which they first came up. -/
structure FirstOccurrences (items kept : List String) : Prop where
  mem_iff : ∀ x, x ∈ kept ↔ x ∈ items
  nodup : kept.Nodup
  order : kept.Pairwise fun x y => items.idxOf x < items.idxOf y

theorem idxOf_lt_of_idxOf_filter_lt {p : String → Bool} {items : List String} {x y : String}
    (hx : p x = true) (hy : p y = true)
    (h : (items.filter p).idxOf x < (items.filter p).idxOf y) : items.idxOf x < items.idxOf y := by
  induction items with
  | nil => exact absurd h (Nat.lt_irrefl _)
  | cons a items ih =>
    by_cases ha : p a = true
    · rw [List.filter_cons_of_pos ha] at h
      by_cases hay : a = y
      · rw [hay, List.idxOf_cons_self] at h
        exact absurd h (Nat.not_lt_zero _)
      · rw [List.idxOf_cons_ne _ hay] at h ⊢
        by_cases hax : a = x
        · rw [hax, List.idxOf_cons_self]
          exact Nat.succ_pos _
        · rw [List.idxOf_cons_ne _ hax] at h ⊢
          exact Nat.succ_lt_succ (ih (Nat.lt_of_succ_lt_succ h))
    · have hne : ∀ z, p z = true → a ≠ z := by
        rintro z hz rfl
        exact ha hz
      rw [List.filter_cons_of_neg ha] at h
      rw [List.idxOf_cons_ne _ (hne x hx), List.idxOf_cons_ne _ (hne y hy)]
      exact Nat.succ_lt_succ (ih h)

theorem FirstOccurrences.cons {a : String} {items kept : List String}
    (h : FirstOccurrences (items.filter fun b => !b == a) kept) :
    FirstOccurrences (a :: items) (a :: kept) := by
  have hne : ∀ x ∈ kept, x ∈ items ∧ x ≠ a := by
    intro x hx
    have hmem := List.mem_filter.mp ((h.mem_iff x).mp hx)
    exact ⟨hmem.1, by simpa using hmem.2⟩
  refine ⟨fun x => ?_, List.nodup_cons.mpr ⟨fun ha => (hne a ha).2 rfl, h.nodup⟩,
    List.pairwise_cons.mpr ⟨fun x hx => ?_, ?_⟩⟩
  · rw [List.mem_cons, List.mem_cons, h.mem_iff, List.mem_filter]
    by_cases hx : x = a <;> simp [hx]
  · have hax : a ≠ x := (hne x hx).2.symm
    rw [List.idxOf_cons_self, List.idxOf_cons_ne _ hax]
    exact Nat.succ_pos _
  · refine h.order.imp_of_mem fun {x y} hx hy hlt => ?_
    have hxa := (hne x hx).2
    have hya := (hne y hy).2
    have := idxOf_lt_of_idxOf_filter_lt (by simpa using hxa) (by simpa using hya) hlt
    rw [List.idxOf_cons_ne _ hxa.symm, List.idxOf_cons_ne _ hya.symm]
    exact Nat.succ_lt_succ this

theorem firstOccurrences_eraseDups (items : List String) :
    FirstOccurrences items items.eraseDups := by
  induction h : items.length using Nat.strongRecOn generalizing items with
  | ind n ih =>
    cases items with
    | nil => exact ⟨fun x => Iff.rfl, .nil, .nil⟩
    | cons a items =>
      rw [List.eraseDups_cons]
      have hlen := List.length_filter_le (fun b => !b == a) items
      rw [List.length_cons] at h
      exact (ih _ (by omega) _ rfl).cons

theorem FirstOccurrences.eq {items kept kept' : List String} (h : FirstOccurrences items kept)
    (h' : FirstOccurrences items kept') : kept = kept' := by
  have hperm : kept.Perm kept' := (List.perm_ext_iff_of_nodup h.nodup h'.nodup).mpr fun x =>
    (h.mem_iff x).trans (h'.mem_iff x).symm
  exact hperm.eq_of_pairwise (fun x y _ _ hxy hyx => absurd hxy (Nat.lt_asymm hyx)) h.order h'.order

theorem FirstOccurrences.idxOf_lt {items kept : List String} (h : FirstOccurrences items kept)
    {x y : String} (hx : x ∈ items) (hlt : items.idxOf x < items.idxOf y) :
    kept.idxOf x < kept.idxOf y := by
  have hxk := (h.mem_iff x).mpr hx
  by_contra hnot
  have hle : kept.idxOf y ≤ kept.idxOf x := Nat.le_of_not_lt hnot
  have hxlt : kept.idxOf x < kept.length := List.idxOf_lt_length_of_mem hxk
  have hylt : kept.idxOf y < kept.length := Nat.lt_of_le_of_lt hle hxlt
  rcases Nat.lt_or_eq_of_le hle with hlt' | heq
  · have horder := List.pairwise_iff_getElem.mp h.order _ _ hylt hxlt hlt'
    rw [List.getElem_idxOf, List.getElem_idxOf] at horder
    exact Nat.lt_asymm hlt horder
  · have hxy : y = x := (List.idxOf_inj (List.idxOf_lt_length_iff.mp hylt)).mp heq
    rw [hxy] at hlt
    exact Nat.lt_irrefl _ hlt

/-- Repetitions can be left out beforehand on either side of a list. -/
theorem FirstOccurrences.append {as bs as' bs' kept : List String} (ha : FirstOccurrences as as')
    (hb : FirstOccurrences bs bs') (h : FirstOccurrences (as ++ bs) kept) :
    FirstOccurrences (as' ++ bs') kept := by
  refine ⟨fun x => ?_, h.nodup, h.order.imp_of_mem fun {x y} hx _ hlt => ?_⟩
  · rw [h.mem_iff, List.mem_append, List.mem_append, ha.mem_iff, hb.mem_iff]
  · have hmem := List.mem_append.mp ((h.mem_iff x).mp hx)
    by_cases hxa : x ∈ as
    · have hxa' := (ha.mem_iff x).mpr hxa
      rw [List.idxOf_append_of_mem hxa] at hlt
      rw [List.idxOf_append_of_mem hxa']
      by_cases hya : y ∈ as
      · rw [List.idxOf_append_of_mem hya] at hlt
        rw [List.idxOf_append_of_mem ((ha.mem_iff y).mpr hya)]
        exact ha.idxOf_lt hxa hlt
      · rw [List.idxOf_append_of_notMem (mt (ha.mem_iff y).mp hya)]
        exact Nat.lt_add_right _ (List.idxOf_lt_length_of_mem hxa')
    · have hxb : x ∈ bs := hmem.resolve_left hxa
      -- What comes after an item of the second list is in the second list only.
      have hya : y ∉ as := by
        intro hya
        rw [List.idxOf_append_of_notMem hxa, List.idxOf_append_of_mem hya] at hlt
        have := List.idxOf_lt_length_of_mem hya
        omega
      rw [List.idxOf_append_of_notMem hxa, List.idxOf_append_of_notMem hya] at hlt
      rw [List.idxOf_append_of_notMem (mt (ha.mem_iff x).mp hxa),
        List.idxOf_append_of_notMem (mt (ha.mem_iff y).mp hya)]
      exact Nat.add_lt_add_left (hb.idxOf_lt hxb (Nat.lt_of_add_lt_add_left hlt)) _

/-! ### Values of any type -/

/-- A value that is taken as one of a type, and as a value again, is the same or was of another
type. -/
theorem FieldValue.map_ofType_as? (t : FieldType) (v : FieldValue) :
    (v.as? t).map (ofType t) = if v.type = t then some v else none := by
  cases t <;> cases v <;> rfl

theorem value?_consolidate (values : CollectedValues) (regex : RegexMap) (f : Field) :
    (consolidate values regex).value? f =
      ((values f).bind (f.strategy.merge (some regex))).filter fun v =>
        decide (v.type = f.type) := by
  have hbind : (values f).bind (f.merged (some regex)) =
      ((values f).bind (f.strategy.merge (some regex))).bind (FieldValue.as? f.type) :=
    (Option.bind_assoc _ _ _).symm
  rw [Metadata.value?, get_consolidate, hbind]
  cases (values f).bind (f.strategy.merge (some regex)) with
  | none => rfl
  | some v =>
    rw [Option.bind_some, FieldValue.map_ofType_as?, Option.filter_some]
    by_cases h : v.type = f.type <;> simp [h]

/-- The items of all lists among the values of a field. -/
def CollectedValues.items (values : CollectedValues) (f : Field) : List String :=
  ((values f).getD []).flatMap FieldValue.items

theorem value?_consolidate_of_list {values : CollectedValues} {regex : RegexMap} {f : Field}
    (htype : f.type = .list) (pick : List String → List String) (hnil : pick [] = [])
    (hmerge : ∀ vs, f.strategy.merge (some regex) vs =
      listValue? (pick (vs.flatMap FieldValue.items))) :
    (consolidate values regex).value? f = listValue? (pick (values.items f)) := by
  have hlist : ∀ items, (listValue? items).filter (fun v => decide (v.type = FieldType.list)) =
      listValue? items := by
    intro items
    cases items <;> rfl
  rw [value?_consolidate, htype, CollectedValues.items]
  cases values f with
  | none =>
    rw [Option.getD_none, List.flatMap_nil, hnil]
    rfl
  | some vs => rw [Option.bind_some, hmerge, hlist, Option.getD_some]

theorem regexMetadata_consolidate (values : CollectedValues) (regex : RegexMap) :
    (consolidate values regex).regexMetadata =
      if values .regexMetadata ≠ none ∧ regex.entries ≠ [] then some regex else none := by
  have hmerged : ∀ vs, Field.merged .regexMetadata (some regex) vs =
      if regex.entries ≠ [] then some regex else none := by
    intro vs
    have hmerge : Strategy.merge .regex (some regex) vs =
        if regex.entries ≠ [] then some (.regex regex) else none := by
      rw [Strategy.merge, Option.filter_some, Dictionary.isEmpty]
      cases regex.entries <;> rfl
    rw [Field.merged, Field.strategy, hmerge]
    split <;> rfl
  have hget := get_consolidate values regex .regexMetadata
  change (consolidate values regex).regexMetadata = _ at hget
  rw [hget]
  cases values .regexMetadata with
  | none => rfl
  | some vs => rw [Option.bind_some, hmerged]; simp

/-! ### The documented table -/

namespace Field

/-- The fields of which the first value is kept. -/
def keptFirst : List Field :=
  [filename, fileDirectory, filetype, lastModified, url, attachedToFilename, pageName, sectionName,
    subject, textAsHtml, pageNumber, sentFrom, sentTo]

/-- The fields of which all lists are put together. -/
def concatenated : List Field :=
  [emphasizedTextContents, emphasizedTextTags, linkTexts, linkUrls]

/-- The fields that say something about one element only. -/
def dropped : List Field :=
  [categoryDepth, detectionClassProb, coordinates, parentId, imagePath, detectionOrigin,
    headerFooterType, isContinuation]

theorem perm_all :
    (keptFirst ++ concatenated ++ [languages, regexMetadata] ++ dropped).Perm all := by
  decide

end Field

/-- **A record as the table of fields has it.** `first` is the first value of each field, `items`
what stands in its lists, `matched` whether regex matches are among the values, and `regex` are
these matches in the joined text. -/
structure Metadata.MergedFrom (first : Field → Option FieldValue) (items : Field → List String)
    (matched : Prop) (regex : RegexMap) (m : Metadata) : Prop where
  first : ∀ f ∈ Field.keptFirst, m.value? f = first f
  concatenated : ∀ f ∈ Field.concatenated,
    m.value? f = if items f = [] then none else some (.list (items f))
  languages : FirstOccurrences (items .languages) (m.languages.getD []) ∧ m.languages ≠ some []
  regexMetadata : ∀ r, m.regexMetadata = some r ↔ r = regex ∧ matched ∧ regex.entries ≠ []
  dropped : ∀ f ∈ Field.dropped, m.get f = none

theorem listValue?_eq_ite (items : List String) :
    listValue? items = if items = [] then none else some (.list items) := by
  cases items <;> rfl

theorem mergedFrom_values (values : CollectedValues) (regex : RegexMap) :
    (consolidate values regex).MergedFrom
      (fun f => ((values f).bind List.head?).filter fun v => decide (v.type = f.type)) values.items
      (values .regexMetadata ≠ none) regex := by
  have hfirst : ∀ f ∈ Field.keptFirst, f.strategy = .first := by decide
  have hconcatenated : ∀ f ∈ Field.concatenated, f.strategy = .concatenate ∧ f.type = .list := by
    decide
  have hdropped : ∀ f ∈ Field.dropped, f.strategy = .drop := by decide
  refine ⟨fun f hf => ?_, fun f hf => ?_, ?_, fun r => ?_, fun f hf => ?_⟩
  · rw [value?_consolidate, hfirst f hf]
    rfl
  · obtain ⟨hs, ht⟩ := hconcatenated f hf
    rw [value?_consolidate_of_list ht id rfl fun vs => by rw [hs]; rfl]
    exact listValue?_eq_ite _
  · have hlanguages : (consolidate values regex).languages.map FieldValue.list =
        listValue? (values.items .languages).eraseDups :=
      value?_consolidate_of_list (f := .languages) rfl List.eraseDups List.eraseDups_nil
        fun vs => rfl
    have hkept := firstOccurrences_eraseDups (values.items .languages)
    rw [listValue?_eq_ite] at hlanguages
    split at hlanguages
    · next hnil =>
      rw [hnil] at hkept
      rw [Option.map_eq_none_iff.mp hlanguages]
      exact ⟨hkept, nofun⟩
    · next hne =>
      obtain ⟨items, hitems, heq⟩ := Option.map_eq_some_iff.mp hlanguages
      cases heq
      rw [hitems]
      exact ⟨hkept, fun h => hne (Option.some.inj h)⟩
  · rw [regexMetadata_consolidate]
    constructor
    · intro h
      split at h
      · next hthere => exact ⟨(Option.some.inj h).symm, hthere⟩
      · cases h
    · rintro ⟨rfl, hthere⟩
      exact if_pos hthere
  · rw [get_consolidate]
    cases values f with
    | none => rfl
    | some vs =>
      rw [Option.bind_some, Field.merged, hdropped f hf]
      rfl

/-! ### Values of several records -/

/-- What stands in the list of a field. -/
def Metadata.items (m : Metadata) (f : Field) : List String :=
  ((m.value? f).map FieldValue.items).getD []

theorem collect_eq_ite (records : List Metadata) (f : Field) :
    collect records f = if records.filterMap (·.value? f) = [] then none
      else some (records.filterMap (·.value? f)) := by
  rw [collect]
  split
  · next h => rw [if_pos h]
  · next hne => rw [if_neg hne]

theorem collect_ne_none_iff {records : List Metadata} {f : Field} :
    collect records f ≠ none ↔ ∃ m ∈ records, m.value? f ≠ none := by
  have hnil : records.filterMap (·.value? f) = [] ↔ ∀ m ∈ records, m.value? f = none :=
    List.filterMap_eq_nil_iff
  rw [collect_eq_ite]
  split
  · next h => simpa using hnil.mp h
  · next h =>
    rw [hnil] at h
    simpa using h

theorem head?_collect (records : List Metadata) (f : Field) :
    (collect records f).bind List.head? = records.findSome? (·.value? f) := by
  rw [collect_eq_ite, ← List.head?_filterMap]
  split
  · next h => rw [h]; rfl
  · rfl

theorem items_collect (records : List Metadata) (f : Field) :
    (collect records).items f = records.flatMap (·.items f) := by
  have hvalues : (collect records f).getD [] = records.filterMap (·.value? f) := by
    rw [collect_eq_ite]
    split
    · next h => rw [h]; rfl
    · rfl
  have hitems : ∀ m : Metadata, (m.value? f).toList.flatMap FieldValue.items = m.items f := by
    intro m
    rw [Metadata.items]
    cases m.value? f with
    | none => rfl
    | some v => exact List.append_nil _
  rw [CollectedValues.items, hvalues, List.filterMap_eq_flatMap_toList, List.flatMap_assoc]
  simp only [hitems]

theorem mergedFrom_records (records : List Metadata) (regex : RegexMap) :
    (consolidate (collect records) regex).MergedFrom (fun f => records.findSome? (·.value? f))
      (fun f => records.flatMap (·.items f)) (∃ m ∈ records, m.regexMetadata ≠ none) regex := by
  have hmerged := mergedFrom_values (collect records) regex
  have hfirst :
      ∀ f, ((collect records f).bind List.head?).filter (fun v => decide (v.type = f.type)) =
      records.findSome? (·.value? f) := by
    intro f
    rw [head?_collect]
    cases hv : records.findSome? (·.value? f) with
    | none => rfl
    | some v =>
      -- A record's own values always have the type of their field.
      obtain ⟨m, -, hm⟩ := List.exists_of_findSome?_eq_some hv
      rw [Option.filter_some, if_pos (decide_eq_true (Metadata.type_of_value? hm))]
  have hitems : (collect records).items = fun f => records.flatMap (·.items f) :=
    funext fun f => items_collect records f
  have hmatched :
      collect records .regexMetadata ≠ none ↔ ∃ m ∈ records, m.regexMetadata ≠ none := by
    have hvalue : ∀ m : Metadata, m.value? .regexMetadata ≠ none ↔ m.regexMetadata ≠ none :=
      fun m => not_congr Option.map_eq_none_iff
    rw [collect_ne_none_iff]
    simp only [hvalue]
  simp only [hfirst, hmatched, hitems] at hmerged
  exact hmerged

end SectionChunks
