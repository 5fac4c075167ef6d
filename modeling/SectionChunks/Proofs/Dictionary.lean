import SectionChunks.Dictionary

/-! # What stands in a dictionary

* `find?_insert`: a value that is put in is found under its name, and nothing else changes.
* `mem_entries_iff`: what stands in a dictionary is what is found there, and nothing else tells two
  dictionaries apart (`eq_of_find?_eq`).
* `mem_of_mem_ofList`: every entry of a dictionary that was made of pairs is one of the pairs.
* `ofList_eq_of_perm`: pairs under distinct names make one dictionary in any order.
* `ofList_entries`: a dictionary can be made again of its entries. -/

namespace SectionChunks.Dictionary

variable {α κ : Type} [BEq κ] [LawfulBEq κ] [DecidableEq κ]

theorem ext {d d' : Dictionary α} (h : d.entries = d'.entries) : d = d' := by
  cases d
  cases d'
  cases h
  rfl

/-! ### Look-ups -/

theorem find?_insert (d : Dictionary α) (name : String) (value : α) (other : String) :
    (d.insert name value).find? other = if other = name then some value else d.find? other :=
  find?_modify d name (fun _ => value) other

theorem lookup_eq_some_of_mem {entries : List (κ × α)} (h : (entries.map (·.1)).Nodup) {name : κ}
    {value : α} (hmem : (name, value) ∈ entries) : entries.lookup name = some value := by
  induction entries with
  | nil => cases hmem
  | cons e rest ih =>
    obtain ⟨he, hrest⟩ := List.nodup_cons.mp h
    rw [lookup_cons_eq_ite]
    rcases List.mem_cons.mp hmem with rfl | hmem
    · exact if_pos rfl
    · have hne : name ≠ e.1 := by
        rintro rfl
        exact he (List.mem_map.mpr ⟨(e.1, value), hmem, rfl⟩)
      rw [if_neg hne]
      exact ih hrest hmem

theorem mem_of_lookup_eq_some {entries : List (κ × α)} {name : κ} {value : α}
    (h : entries.lookup name = some value) : (name, value) ∈ entries := by
  induction entries with
  | nil => cases h
  | cons e rest ih =>
    rw [lookup_cons_eq_ite] at h
    by_cases hname : name = e.1
    · rw [if_pos hname] at h
      cases h
      exact hname ▸ List.mem_cons_self
    · rw [if_neg hname] at h
      exact List.mem_cons_of_mem _ (ih h)

theorem lookup_eq_none_of_notMem {entries : List (κ × α)} {name : κ}
    (h : name ∉ entries.map (·.1)) : entries.lookup name = none :=
  Option.eq_none_iff_forall_ne_some.mpr fun _ hvalue =>
    h (List.mem_map.mpr ⟨_, mem_of_lookup_eq_some hvalue, rfl⟩)

theorem lookup_eq_of_perm {entries entries' : List (κ × α)} (h : entries.Perm entries')
    (hnodup : (entries.map (·.1)).Nodup) (name : κ) :
    entries.lookup name = entries'.lookup name := by
  have hnodup' : (entries'.map (·.1)).Nodup := (h.map (·.1)).nodup_iff.mp hnodup
  refine Option.ext fun value => ⟨fun hvalue => ?_, fun hvalue => ?_⟩
  · exact lookup_eq_some_of_mem hnodup' (h.mem_iff.mp (mem_of_lookup_eq_some hvalue))
  · exact lookup_eq_some_of_mem hnodup (h.mem_iff.mpr (mem_of_lookup_eq_some hvalue))

theorem lookup_map {β : Type} (f : α → β) (entries : List (String × α)) (name : String) :
    (entries.map fun e => (e.1, f e.2)).lookup name = (entries.lookup name).map f := by
  induction entries with
  | nil => rfl
  | cons e entries ih =>
    rw [List.map_cons, lookup_cons_eq_ite, lookup_cons_eq_ite, ih]
    split <;> rfl

theorem nodup_names (d : Dictionary α) : (d.entries.map (·.1)).Nodup := by
  refine List.pairwise_map.mpr (d.ascending.imp fun {e e'} h heq => ?_)
  rw [heq] at h
  exact Text.Precedes.irrefl _ h

/-- What stands in a dictionary is what is found there. -/
theorem mem_entries_iff (d : Dictionary α) (name : String) (value : α) :
    (name, value) ∈ d.entries ↔ d.find? name = some value :=
  ⟨lookup_eq_some_of_mem d.nodup_names, mem_of_lookup_eq_some⟩

/-- A dictionary is what is found in it. -/
theorem eq_of_find?_eq {d d' : Dictionary α} (h : ∀ name, d.find? name = d'.find? name) :
    d = d' := by
  have hnodup : ∀ d : Dictionary α, d.entries.Nodup := fun d =>
    (List.pairwise_map.mp d.nodup_names).imp fun hne heq => hne (congrArg (·.1) heq)
  have hperm : d.entries.Perm d'.entries := by
    refine (List.perm_ext_iff_of_nodup (hnodup d) (hnodup d')).mpr fun e => ?_
    rw [mem_entries_iff d e.1 e.2, mem_entries_iff d' e.1 e.2, h]
  refine ext (hperm.eq_of_pairwise (fun a b _ _ hab hba => ?_) d.ascending d'.ascending)
  exact absurd (hab.trans hba) (Text.Precedes.irrefl _)

/-! ### Made of pairs -/

theorem mem_modifyEntries_const {name : String} {value : α} {entries : List (String × α)}
    {e : String × α} (h : e ∈ modifyEntries name (fun _ => value) entries) :
    e = (name, value) ∨ e ∈ entries := by
  induction entries with
  | nil => exact .inl (List.mem_singleton.mp h)
  | cons a rest ih =>
    simp only [modifyEntries] at h
    split at h
    · exact (List.mem_cons.mp h).imp_right (List.mem_cons_of_mem _)
    · split at h
      · exact List.mem_cons.mp h
      · rcases List.mem_cons.mp h with rfl | h
        · exact .inr List.mem_cons_self
        · exact (ih h).imp_right (List.mem_cons_of_mem _)

theorem mem_of_mem_foldl_insert {pairs : List (String × α)} {d : Dictionary α} {e : String × α}
    (h : e ∈ (pairs.foldl (fun d p => d.insert p.1 p.2) d).entries) :
    e ∈ d.entries ∨ e ∈ pairs := by
  induction pairs generalizing d with
  | nil => exact .inl h
  | cons p pairs ih =>
    rcases ih h with h | h
    · rcases mem_modifyEntries_const h with rfl | h
      · exact .inr List.mem_cons_self
      · exact .inl h
    · exact .inr (List.mem_cons_of_mem _ h)

/-- Every entry of a dictionary that was made of pairs is one of the pairs. -/
theorem mem_of_mem_ofList {pairs : List (String × α)} {e : String × α}
    (h : e ∈ (ofList pairs).entries) : e ∈ pairs := by
  rcases mem_of_mem_foldl_insert h with h | h
  · cases h
  · exact h

theorem find?_foldl_insert {pairs : List (String × α)} (h : (pairs.map (·.1)).Nodup)
    (d : Dictionary α) (name : String) :
    (pairs.foldl (fun d p => d.insert p.1 p.2) d).find? name =
      (pairs.lookup name).or (d.find? name) := by
  induction pairs generalizing d with
  | nil => rfl
  | cons p pairs ih =>
    obtain ⟨hp, hpairs⟩ := List.nodup_cons.mp h
    rw [List.foldl_cons, ih hpairs, find?_insert, lookup_cons_eq_ite]
    by_cases hname : name = p.1
    · rw [if_pos hname, if_pos hname, lookup_eq_none_of_notMem (hname ▸ hp)]
      rfl
    · rw [if_neg hname, if_neg hname]

/-- A dictionary of pairs under distinct names does not depend on their order. -/
theorem ofList_eq_of_perm {pairs pairs' : List (String × α)} (h : pairs.Perm pairs')
    (hnodup : (pairs.map (·.1)).Nodup) : ofList pairs = ofList pairs' := by
  have hnodup' : (pairs'.map (·.1)).Nodup := (h.map (·.1)).nodup_iff.mp hnodup
  refine eq_of_find?_eq fun name => ?_
  rw [ofList, ofList, find?_foldl_insert hnodup, find?_foldl_insert hnodup',
    lookup_eq_of_perm h hnodup]

/-! ### Made of its own entries -/

theorem modifyEntries_of_precedes {name : String} (change : Option α → α)
    {entries : List (String × α)} (h : ∀ e ∈ entries, Text.Precedes e.1 name) :
    modifyEntries name change entries = entries ++ [(name, change none)] := by
  induction entries with
  | nil => rfl
  | cons e rest ih =>
    obtain ⟨he, hrest⟩ := List.forall_mem_cons.mp h
    have hne : name ≠ e.1 := by
      rintro rfl
      exact Text.Precedes.irrefl _ he
    have hnot : ¬ Text.Precedes name e.1 := fun hlt => Text.Precedes.irrefl _ (hlt.trans he)
    rw [modifyEntries, if_neg hne, if_neg hnot, ih hrest]
    rfl

theorem entries_foldl_insert (d : Dictionary α) {rest : List (String × α)}
    (h : (d.entries ++ rest).Pairwise fun a b => Text.Precedes a.1 b.1) :
    (rest.foldl (fun d p => d.insert p.1 p.2) d).entries = d.entries ++ rest := by
  induction rest generalizing d with
  | nil => simp
  | cons e rest ih =>
    have hlast : ∀ a ∈ d.entries, Text.Precedes a.1 e.1 := fun a ha =>
      (List.pairwise_append.mp h).2.2 a ha e List.mem_cons_self
    have hinsert : (d.insert e.1 e.2).entries = d.entries ++ [e] :=
      modifyEntries_of_precedes (fun _ => e.2) hlast
    rw [List.foldl_cons, ih, hinsert, List.append_assoc]
    · rfl
    · rw [hinsert, List.append_assoc]
      exact h

/-- **A dictionary can be made again of its entries.** -/
theorem ofList_entries (d : Dictionary α) : ofList d.entries = d :=
  ext (entries_foldl_insert empty d.ascending)

end SectionChunks.Dictionary
