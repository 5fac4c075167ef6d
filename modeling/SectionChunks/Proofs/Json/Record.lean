import SectionChunks.Json.Record
import SectionChunks.Proofs.Dictionary

/-! # Reading values that were written

A reader that gives back every single value that was written gives back the lists, dictionaries and
records made of them.

* `natural?_ofNat`, `list?_ofList`, `dictionary?_ofDictionary`: each writer with its reader.
* `forall_of_list?`, `forall_of_dictionary?`: what is true of all values that can be read is true of
  all members of what is read.
* `RecordShape.members?_ofMembers`: the fields of a record by name.
* `lookup_filterMap`: the fields of a record of which those without a value are left out. -/

namespace SectionChunks.Json

variable {α β ι : Type}

/-! ### Single values -/

theorem text?_ofString (text : String) : text? (ofString text) = some text := rfl

theorem natural?_ofNat {bound n : Nat} (h : n < bound) : natural? bound (ofNat n) = some n := by
  have hint : integer? (ofNat n) = some (n : Int) := Decimal.integer?_ofNat n
  rw [natural?, hint, Option.bind_some, Int.toNat_natCast, if_pos ⟨Int.natCast_nonneg n, h⟩]

theorem lt_of_natural? {bound n : Nat} {j : Json} (h : natural? bound j = some n) : n < bound := by
  obtain ⟨i, -, hi⟩ := Option.bind_eq_some_iff.mp h
  by_cases hbound : 0 ≤ i ∧ i.toNat < bound
  · rw [if_pos hbound] at hi
    cases hi
    exact hbound.2
  · rw [if_neg hbound] at hi
    cases hi

/-! ### Lists -/

theorem items?_map {item : β → Option α} {write : ι → β} {value : ι → α} {is : List ι}
    (h : ∀ i ∈ is, item (write i) = some (value i)) :
    items? item (is.map write) = some (is.map value) := by
  induction is with
  | nil => rfl
  | cons i is ih =>
    obtain ⟨hi, his⟩ := List.forall_mem_cons.mp h
    rw [List.map_cons, items?, hi, ih his]
    rfl

theorem exists_of_mem_items? {item : β → Option α} {bs : List β} {as : List α}
    (h : items? item bs = some as) {a : α} (ha : a ∈ as) : ∃ b ∈ bs, item b = some a := by
  induction bs generalizing as with
  | nil =>
    cases h
    cases ha
  | cons b bs ih =>
    rw [items?] at h
    split at h
    · rename_i a' as' hb hbs
      cases h
      rcases List.mem_cons.mp ha with rfl | ha
      · exact ⟨b, List.mem_cons_self, hb⟩
      · obtain ⟨c, hc, hread⟩ := ih hbs ha
        exact ⟨c, List.mem_cons_of_mem _ hc, hread⟩
    · cases h

/-- A list that was written is read back if each of its items is. -/
theorem list?_ofList {item : Json → Option α} {write : α → Json} {as : List α}
    (h : ∀ a ∈ as, item (write a) = some a) : list? item (ofList write as) = some as := by
  rw [ofList, list?, items?_map h, List.map_id']

theorem forall_of_list? {item : Json → Option α} {P : α → Prop}
    (hP : ∀ j a, item j = some a → P a) {j : Json} {as : List α} (h : list? item j = some as) :
    ∀ a ∈ as, P a := by
  intro a ha
  cases j with
  | array items =>
    obtain ⟨b, -, hb⟩ := exists_of_mem_items? h ha
    exact hP b a hb
  | _ => cases h

/-! ### Pairs and dictionaries -/

/-- A dictionary that was written is read back if each of its values is. -/
theorem dictionary?_ofDictionary {read : Json → Option α} {write : α → Json} {d : Dictionary α}
    (h : ∀ e ∈ d.entries, read (write e.2) = some e.2) :
    dictionary? read (ofDictionary write d) = some d := by
  have hitems : items? (namedValue? read)
      (d.entries.map fun e => (some e.1, write e.2)) = some (d.entries.map id) := by
    refine items?_map fun e he => ?_
    rw [namedValue?, h e he]
    rfl
  rw [ofDictionary, ofMembers, dictionary?, List.map_map]
  simp only [Function.comp_def, hitems, List.map_id, Option.map_some, Dictionary.ofList_entries]

theorem forall_of_dictionary? {read : Json → Option α} {P : α → Prop}
    (hP : ∀ j a, read j = some a → P a) {j : Json} {d : Dictionary α}
    (h : dictionary? read j = some d) : ∀ e ∈ d.entries, P e.2 := by
  intro e he
  cases j with
  | object members =>
    obtain ⟨pairs, hpairs, rfl⟩ := Option.map_eq_some_iff.mp h
    obtain ⟨⟨name, j⟩, -, hread⟩ := exists_of_mem_items? hpairs (Dictionary.mem_of_mem_ofList he)
    cases name with
    | none => cases hread
    | some name =>
      obtain ⟨a, ha, rfl⟩ := Option.map_eq_some_iff.mp hread
      exact hP j a ha
  | _ => cases h

/-! ### Records -/

theorem memberNamed_map (members : List (String × Json)) (name : String) :
    memberNamed (members.map fun m => (some m.1, m.2)) name = members.lookup name := by
  induction members with
  | nil => rfl
  | cons m members ih =>
    rw [memberNamed] at ih ⊢
    rw [List.map_cons, List.lookup_cons, ih, Dictionary.lookup_cons_eq_ite]
    by_cases hname : name = m.1
    · rw [if_pos hname, beq_iff_eq.mpr (congrArg some hname)]
    · have hne : some name ≠ some m.1 := fun h => hname (Option.some.inj h)
      rw [if_neg hname, beq_false_of_ne hne]

theorem length_filter_name_le_one {members : List (String × Json)}
    (h : (members.map (·.1)).Nodup) (name : String) :
    ((members.map fun m => (some m.1, m.2)).filter fun m : Option String × Json =>
      m.1 = some name).length ≤ 1 := by
  induction members with
  | nil => exact Nat.zero_le 1
  | cons m members ih =>
    obtain ⟨hm, hmembers⟩ := List.nodup_cons.mp h
    rw [List.map_cons, List.filter_cons]
    split
    · rename_i hname
      have hrest : (members.map fun m => (some m.1, m.2)).filter
          (fun m : Option String × Json => m.1 = some name) = [] := by
        simp only [List.filter_eq_nil_iff, List.mem_map, decide_eq_true_eq] at hname ⊢
        rintro _ ⟨m', hm', rfl⟩ hname'
        exact hm (List.mem_map.mpr ⟨m', hm', Option.some.inj (hname'.trans hname.symm)⟩)
      rw [hrest]
      exact Nat.le_refl 1
    · exact ih hmembers

/-- The fields of a record under distinct names are found by name. If the record is closed, they
must be names of its own. -/
theorem RecordShape.members?_ofMembers {shape : RecordShape} {members : List (String × Json)}
    (hknown : shape.closed = false ∨ ∀ m ∈ members, m.1 ∈ shape.names)
    (h : (members.map (·.1)).Nodup) :
    shape.members? (ofMembers members) = some fun name => members.lookup name := by
  have hsuits : shape.suits (members.map fun m => (some m.1, m.2)) = true := by
    simp only [RecordShape.suits, Bool.and_eq_true, Bool.or_eq_true, Bool.not_eq_true',
      List.all_eq_true, List.any_eq_true, decide_eq_true_eq]
    refine ⟨⟨fun m hm => ?_, fun name _ => length_filter_name_le_one h name⟩,
      hknown.imp_right fun hnames m hm => ?_⟩
    · obtain ⟨m', -, rfl⟩ := List.mem_map.mp hm
      rfl
    · obtain ⟨m', hm', rfl⟩ := List.mem_map.mp hm
      exact ⟨m'.1, hnames m' hm', rfl⟩
  rw [ofMembers, RecordShape.members?, if_pos hsuits]
  exact congrArg some (funext fun name => memberNamed_map members name)

/-! ### Fields -/

theorem of_required {read : Json → Option α} {P : α → Prop} (hP : ∀ j a, read j = some a → P a)
    {field : Option Json} {value : α} (h : required read field = some value) : P value := by
  cases field with
  | none => cases h
  | some j => exact hP j value h

theorem of_defaulted {read : Json → Option α} {P : α → Prop} (hP : ∀ j a, read j = some a → P a)
    {default : α} (hdefault : P default) {field : Option Json} {value : α}
    (h : defaulted default read field = some value) : P value := by
  cases field with
  | none =>
    cases h
    exact hdefault
  | some j => exact hP j value h

theorem optional_some {read : Json → Option α} (hnull : read .null = none) {j : Json} {a : α}
    (h : read j = some a) : optional read (some j) = some (some a) := by
  cases j with
  | null =>
    rw [hnull] at h
    cases h
  | _ =>
    simp only [optional, h]
    rfl

theorem optional_map {read : Json → Option α} (hnull : read .null = none) {write : α → Json}
    {value : Option α} (h : ∀ a ∈ value, read (write a) = some a) :
    optional read (value.map write) = some value := by
  cases value with
  | none => rfl
  | some a => exact optional_some hnull (h a rfl)

theorem forall_of_optional {read : Json → Option α} {P : α → Prop}
    (hP : ∀ j a, read j = some a → P a) {field : Option Json} {value : Option α}
    (h : optional read field = some value) : ∀ a ∈ value, P a := by
  intro a ha
  cases ha
  unfold optional at h
  split at h
  · cases h
  · rename_i j _
    obtain ⟨a', hread, heq⟩ := Option.map_eq_some_iff.mp h
    cases heq
    exact hP j a hread
  · cases h

/-- **Of the fields with a value** each is found under its name, and the others are not there. -/
theorem lookup_filterMap {key : ι → String} (hkey : ∀ {i i'}, key i = key i' → i = i')
    (value : ι → Option Json) {is : List ι} {i : ι} (hi : i ∈ is ∨ value i = none) :
    (is.filterMap fun i => (value i).map fun j => (key i, j)).lookup (key i) = value i := by
  induction is with
  | nil =>
    rw [hi.resolve_left List.not_mem_nil]
    rfl
  | cons i' is ih =>
    cases hvalue : value i' with
    | none =>
      rw [List.filterMap_cons_none (by rw [hvalue]; rfl)]
      refine ih (hi.elim (fun hmem => ?_) .inr)
      rcases List.mem_cons.mp hmem with rfl | hmem
      · exact .inr hvalue
      · exact .inl hmem
    | some j =>
      rw [List.filterMap_cons_some (by rw [hvalue]; rfl), Dictionary.lookup_cons_eq_ite]
      by_cases hname : key i = key i'
      · rw [if_pos hname, hkey hname, hvalue]
      · rw [if_neg hname]
        refine ih (hi.imp_left fun hmem => ?_)
        rcases List.mem_cons.mp hmem with rfl | hmem
        · exact absurd rfl hname
        · exact hmem

theorem nodup_filterMap {key : ι → String} (value : ι → Option Json) {is : List ι}
    (h : (is.map key).Nodup) :
    ((is.filterMap fun i => (value i).map fun j => (key i, j)).map (·.1)).Nodup := by
  refine List.Nodup.sublist ?_ h
  induction is with
  | nil => exact .slnil
  | cons i is ih =>
    have hrest := ih (List.nodup_cons.mp h).2
    cases hvalue : value i with
    | none =>
      rw [List.filterMap_cons_none (by rw [hvalue]; rfl)]
      exact hrest.cons _
    | some j =>
      rw [List.filterMap_cons_some (by rw [hvalue]; rfl)]
      exact hrest.cons_cons _

end SectionChunks.Json
