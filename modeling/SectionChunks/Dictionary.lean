import SectionChunks.Text.Order

/-! # Dictionaries

A dictionary pairs names with values. Its entries are kept in strictly ascending code point order
of the names, so two dictionaries with the same values under the same names are equal.

* `Dictionary.modify`: changes the value under one name, adding the name if it is new.
* `Dictionary.insert`, `Dictionary.ofList`: the last value given under a name is the one kept.
* `find?_modify`: what a change does to every look-up. -/

namespace SectionChunks

/-- Values under names, the names strictly ascending. -/
structure Dictionary (α : Type) where
  entries : List (String × α)
  ascending : entries.Pairwise fun a b => Text.Precedes a.1 b.1
  deriving DecidableEq

namespace Dictionary

variable {α β : Type}

/-- The dictionary without entries. -/
def empty : Dictionary α := ⟨[], .nil⟩

instance : Inhabited (Dictionary α) := ⟨empty⟩

/-- The names, ascending. -/
def names (d : Dictionary α) : List String := d.entries.map (·.1)

/-- Whether there is no entry. -/
def isEmpty (d : Dictionary α) : Bool := d.entries.isEmpty

/-- The value under a name, if the name is there. -/
def find? (d : Dictionary α) (name : String) : Option α := d.entries.lookup name

/-! ### Changing one entry -/

/-- Changes the value under `name` in an ascending list of entries. -/
def modifyEntries (name : String) (change : Option α → α) :
    List (String × α) → List (String × α)
  | [] => [(name, change none)]
  | e :: rest =>
    if name = e.1 then (name, change (some e.2)) :: rest
    else if Text.Precedes name e.1 then (name, change none) :: e :: rest
    else e :: modifyEntries name change rest

theorem mem_modifyEntries {name : String} {change : Option α → α} {entries : List (String × α)}
    {e : String × α} (h : e ∈ modifyEntries name change entries) :
    e.1 = name ∨ e ∈ entries := by
  induction entries with
  | nil =>
    simp only [modifyEntries, List.mem_singleton] at h
    exact .inl (by rw [h])
  | cons a rest ih =>
    simp only [modifyEntries] at h
    split at h
    · rcases List.mem_cons.mp h with rfl | h
      · exact .inl rfl
      · exact .inr (List.mem_cons_of_mem _ h)
    · split at h
      · rcases List.mem_cons.mp h with rfl | h
        · exact .inl rfl
        · exact .inr h
      · rcases List.mem_cons.mp h with rfl | h
        · exact .inr List.mem_cons_self
        · exact (ih h).imp id (List.mem_cons_of_mem _)

theorem pairwise_modifyEntries (name : String) (change : Option α → α)
    {entries : List (String × α)} (h : entries.Pairwise fun a b => Text.Precedes a.1 b.1) :
    (modifyEntries name change entries).Pairwise fun a b => Text.Precedes a.1 b.1 := by
  induction entries with
  | nil => simp [modifyEntries]
  | cons a rest ih =>
    have ⟨ha, hrest⟩ := List.pairwise_cons.mp h
    simp only [modifyEntries]
    split
    · rename_i heq
      exact List.pairwise_cons.mpr ⟨fun b hb => heq ▸ ha b hb, hrest⟩
    · rename_i hne
      split
      · rename_i hlt
        refine List.pairwise_cons.mpr ⟨fun b hb => ?_, h⟩
        rcases List.mem_cons.mp hb with rfl | hb
        · exact hlt
        · exact hlt.trans (ha b hb)
      · rename_i hlt
        refine List.pairwise_cons.mpr ⟨fun b hb => ?_, ih hrest⟩
        rcases mem_modifyEntries hb with hb | hb
        · rw [hb]
          rcases Text.precedes_or_eq_or_precedes name a.1 with h | h | h
          · exact absurd h hlt
          · exact absurd h hne
          · exact h
        · exact ha b hb

/-- Changes the value under `name`; a name that is new gets the value made from nothing. -/
def modify (d : Dictionary α) (name : String) (change : Option α → α) : Dictionary α :=
  ⟨modifyEntries name change d.entries, pairwise_modifyEntries name change d.ascending⟩

/-- Puts a value under a name, in place of the one there. -/
def insert (d : Dictionary α) (name : String) (value : α) : Dictionary α :=
  d.modify name fun _ => value

/-- The dictionary of a list of pairs: under each name the last value given. -/
def ofList (pairs : List (String × α)) : Dictionary α :=
  pairs.foldl (fun d p => d.insert p.1 p.2) empty

/-! ### Look-ups -/

theorem lookup_cons_eq_ite {κ : Type} [BEq κ] [LawfulBEq κ] [DecidableEq κ] (name : κ)
    (e : κ × α) (rest : List (κ × α)) :
    (e :: rest).lookup name = if name = e.1 then some e.2 else rest.lookup name := by
  rw [List.lookup_cons]
  by_cases h : name = e.1
  · rw [if_pos h, beq_iff_eq.mpr h]
  · rw [if_neg h, beq_false_of_ne h]

theorem lookup_eq_none_of_precedes {name : String} {entries : List (String × α)}
    (h : ∀ e ∈ entries, Text.Precedes name e.1) : entries.lookup name = none := by
  induction entries with
  | nil => rfl
  | cons e rest ih =>
    have hne : name ≠ e.1 := fun he =>
      Text.Precedes.irrefl name (he ▸ h e List.mem_cons_self)
    rw [lookup_cons_eq_ite, if_neg hne]
    exact ih fun b hb => h b (List.mem_cons_of_mem _ hb)

theorem lookup_modifyEntries (name : String) (change : Option α → α) (entries : List (String × α))
    (h : entries.Pairwise fun a b => Text.Precedes a.1 b.1) (other : String) :
    (modifyEntries name change entries).lookup other =
      if other = name then some (change (entries.lookup name)) else entries.lookup other := by
  induction entries with
  | nil => simp only [modifyEntries, lookup_cons_eq_ite, List.lookup_nil]
  | cons a rest ih =>
    have ⟨ha, hrest⟩ := List.pairwise_cons.mp h
    simp only [modifyEntries]
    split
    · rename_i heq
      simp only [lookup_cons_eq_ite, ← heq, if_true]
      split <;> rfl
    · rename_i hne
      split
      · rename_i hlt
        simp only [lookup_cons_eq_ite, if_neg hne]
        rw [lookup_eq_none_of_precedes fun b hb => hlt.trans (ha b hb)]
      · simp only [lookup_cons_eq_ite, ih hrest, if_neg hne]
        by_cases ho : other = name
        · subst ho
          simp [hne]
        · simp [ho]

/-- **A change shows under its own name only.** -/
theorem find?_modify (d : Dictionary α) (name : String) (change : Option α → α) (other : String) :
    (d.modify name change).find? other =
      if other = name then some (change (d.find? name)) else d.find? other :=
  lookup_modifyEntries name change d.entries d.ascending other

end Dictionary

end SectionChunks
