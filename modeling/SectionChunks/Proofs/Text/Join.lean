import SectionChunks.Proofs.Text.Extent

/-! # The parts of a joined text

Only the texts that are not empty take part in a joined text.

* `parts`, `joined_parts`: the texts that take part.
* `parts_eq_nil_iff`: texts without parts join to the empty text.
* `joined_append`: joining in two goes.
* `toList_joined_append_cons`: where a part stands in the joined text, namely behind all that stands
  in `front` of it.
* `front_eq`: what stands in front is the text joined so far, with a separator. -/

namespace SectionChunks.Text

/-- The texts that take part in a joined text. -/
def parts (texts : List String) : List String := texts.filter fun t => !t.isEmpty

theorem joined_eq_intercalate (texts : List String) :
    joined texts = separator.intercalate (parts texts) := rfl

theorem joined_parts (texts : List String) : joined (parts texts) = joined texts := by
  rw [joined, joined, parts, List.filter_filter]
  simp only [Bool.and_self]

theorem parts_append (as bs : List String) : parts (as ++ bs) = parts as ++ parts bs :=
  List.filter_append as bs

theorem parts_flatMap {α : Type} (f : α → List String) (as : List α) :
    parts (as.flatMap f) = as.flatMap fun a => parts (f a) := List.filter_flatMap

theorem parts_eq_nil_iff {texts : List String} : parts texts = [] ↔ joined texts = "" := by
  rw [← String.length_eq_zero_iff, ← Extent.length_ofTexts, Extent.length_ofLengths_eq_zero_iff,
    List.forall_mem_map, parts, List.filter_eq_nil_iff]
  simp

/-- Texts joined behind others: a separator comes between the two joined texts if there are two. -/
theorem joined_append (as bs : List String) :
    joined (as ++ bs) =
      joined as ++ (if joined as ≠ "" ∧ joined bs ≠ "" then separator else "") ++ joined bs := by
  rw [joined_eq_intercalate (as ++ bs), parts_append]
  by_cases ha : joined as = ""
  · rw [parts_eq_nil_iff.mpr ha, if_neg fun h => h.1 ha, ha]
    rfl
  · by_cases hb : joined bs = ""
    · rw [parts_eq_nil_iff.mpr hb, if_neg fun h => h.2 hb, hb, List.append_nil,
        String.append_empty, String.append_empty]
      rfl
    · have hne : parts as ≠ [] ∧ parts bs ≠ [] :=
        ⟨mt parts_eq_nil_iff.mp ha, mt parts_eq_nil_iff.mp hb⟩
      rw [String.intercalate_append_of_ne_nil hne.1 hne.2, if_pos ⟨ha, hb⟩]
      rfl

/-! ### Where a part stands -/

theorem intercalate_cons_eq (sep part : List Char) (after : List (List Char)) :
    sep.intercalate (part :: after) = part ++ after.flatMap (sep ++ ·) := by
  induction after generalizing part with
  | nil => rw [List.intercalate_singleton, List.flatMap_nil, List.append_nil]
  | cons a after ih =>
    rw [List.intercalate_cons_cons, ih, List.flatMap_cons, List.append_assoc, List.append_assoc]

theorem intercalate_append_cons (sep : List Char) (before : List (List Char)) (part : List Char)
    (after : List (List Char)) :
    sep.intercalate (before ++ part :: after) =
      before.flatMap (· ++ sep) ++ part ++ after.flatMap (sep ++ ·) := by
  induction before with
  | nil => exact intercalate_cons_eq sep part after
  | cons b before ih =>
    have hne : before ++ part :: after ≠ [] := by simp
    rw [List.cons_append, List.intercalate_cons_of_ne_nil hne, ih, List.flatMap_cons]
    simp only [List.append_assoc]

/-- What stands in front of a text that is joined behind others: these texts, each with a
separator. -/
def front (before : List String) : List Char :=
  (parts before).flatMap fun t => t.toList ++ separator.toList

/-- Where a part stands in the joined text: behind the parts before it, each with a separator. -/
theorem toList_joined_append_cons (before : List String) {part : String} (hpart : part ≠ "")
    (after : List String) :
    (joined (before ++ part :: after)).toList =
      front before ++ part.toList ++
        (parts after).flatMap fun t => separator.toList ++ t.toList := by
  have hparts : parts (before ++ part :: after) = parts before ++ part :: parts after := by
    rw [parts_append]
    simp [parts, hpart]
  rw [joined_eq_intercalate, hparts, String.toList_intercalate, List.map_append, List.map_cons,
    intercalate_append_cons, List.flatMap_map, List.flatMap_map]
  rfl

theorem intercalate_append_separator {sep : List Char} {texts : List (List Char)} (h : texts ≠ []) :
    sep.intercalate texts ++ sep = texts.flatMap (· ++ sep) := by
  induction texts with
  | nil => exact absurd rfl h
  | cons t texts ih =>
    cases texts with
    | nil => rw [List.intercalate_singleton, List.flatMap_singleton]
    | cons u texts =>
      have hrest := ih (List.cons_ne_nil u texts)
      rw [List.intercalate_cons_cons, List.append_assoc, hrest]
      exact (List.flatMap_cons (f := (· ++ sep))).symm

/-- **What stands in front** is the joined text with a separator, if there is a text at all. -/
theorem front_eq (before : List String) :
    front before =
      if joined before = "" then [] else (joined before).toList ++ separator.toList := by
  split
  · next h => rw [front, parts_eq_nil_iff.mpr h, List.flatMap_nil]
  · next h =>
    have hne : (parts before).map String.toList ≠ [] := by
      rw [Ne, List.map_eq_nil_iff, parts_eq_nil_iff]
      exact h
    rw [joined_eq_intercalate, String.toList_intercalate, intercalate_append_separator hne,
      List.flatMap_map]
    rfl

theorem length_front (before : List String) :
    (front before).length =
      if 0 < (joined before).length then (joined before).length + 2
      else (joined before).length := by
  have hsep : separator.toList.length = 2 := rfl
  by_cases h : joined before = ""
  · rw [front_eq, if_pos h, h]
    rfl
  · have hpos : 0 < (joined before).length :=
      Nat.pos_of_ne_zero (mt String.length_eq_zero_iff.mp h)
    rw [front_eq, if_neg h, if_pos hpos, List.length_append, String.length_toList, hsep]

theorem joined_append_empty (before : List String) : joined (before ++ [""]) = joined before := by
  rw [joined_eq_intercalate, parts_append]
  exact congrArg separator.intercalate (List.append_nil _)

theorem length_joined_append_singleton (before : List String) {t : String} (h : t ≠ "") :
    (joined (before ++ [t])).length = (front before).length + t.length := by
  rw [← String.length_toList, toList_joined_append_cons before h, List.length_append,
    List.length_append, String.length_toList]
  rfl

end SectionChunks.Text
