import SectionChunks.Text.Windows
import SectionChunks.Proofs.Text.Slices
import Mathlib.Algebra.Order.Floor.Div

/-! # Windows over a text: what they hold

A cursor is determined by the characters that are left and by its width. Its windows are the slices
of these characters (`Cursor.windows_eq`), so the laws of windows are those of slices.

* `Cursor.window_eq`, `Cursor.rest_advance`: what a cursor gives, and what is left behind it.
* `length_cuts`, `getElem?_cuts`, `cuts_eq_map_range`: how many cuts a text has, and what each of
  them is.
* `join_windows`: the windows, put together again, are the text.
* `length_le_of_mem_windows`: no window is wider than the width.
* `windows_of_length_le`: a text that is no longer than the width is its only window, and
  `one_lt_length_windows`: a longer one has several.
* `map_length_windows_congr`: the lengths of the windows depend on the length of the text only.
* `eq_empty_of_mem_windows`: only the empty text has an empty window. -/

namespace SectionChunks.Text

/-! ### Cursors -/

namespace Cursor

/-- The characters that are left. -/
def rest (c : Cursor) : List Char := (c.text.sliceFrom c.place).copy.toList

theorem rest_eq_of_splits {c : Cursor} {before after : String} (h : c.place.Splits before after) :
    c.rest = after.toList := by rw [rest, h.copy_sliceFrom_eq]

theorem exists_splits (c : Cursor) : ∃ before, c.place.Splits before (String.ofList c.rest) := by
  refine ⟨(c.text.sliceTo c.place).copy, ?_⟩
  rw [rest, String.ofList_toList]
  exact c.place.splits

theorem rest_start (width : Nat) (text : String) : (start width text).rest = text.toList :=
  rest_eq_of_splits (String.splits_startPos text)

theorem isExhausted_iff {c : Cursor} : c.isExhausted = true ↔ c.rest = [] := by
  obtain ⟨before, h⟩ := c.exists_splits
  rw [isExhausted, decide_eq_true_iff, h.eq_endPos_iff, String.ofList_eq_empty_iff]

theorem splits_windowEnd {c : Cursor} {before : String}
    (h : c.place.Splits before (String.ofList c.rest)) :
    c.windowEnd.Splits (before ++ String.ofList (c.rest.take c.width))
      (String.ofList (c.rest.drop c.width)) := by
  have hnext := h.nextn c.width
  rw [String.toList_ofList] at hnext
  exact hnext

theorem window_eq (c : Cursor) : c.window = String.ofList (c.rest.take c.width) := by
  obtain ⟨before, h⟩ := c.exists_splits
  have happend : String.ofList (c.rest.take c.width) ++ String.ofList (c.rest.drop c.width) =
      String.ofList c.rest := by
    rw [← String.ofList_append, List.take_append_drop]
  have hsplits : c.place.Splits before
      (String.ofList (c.rest.take c.width) ++ String.ofList (c.rest.drop c.width)) := by
    rw [happend]
    exact h
  obtain ⟨hle, hslice⟩ :=
    String.copy_slice_eq_iff_splits.mpr ⟨before, _, hsplits, splits_windowEnd h⟩
  rw [window, String.extract_eq_copy_slice _ _ hle, hslice]

/-- Behind a window the other characters are left. -/
theorem rest_advance (c : Cursor) : c.advance.rest = c.rest.drop c.width := by
  obtain ⟨before, h⟩ := c.exists_splits
  rw [rest_eq_of_splits (c := c.advance) (splits_windowEnd h), String.toList_ofList]

theorem windows_of_isExhausted {c : Cursor} (h : c.isExhausted = true) : c.windows = [] := by
  rw [windows, if_pos h]

theorem windows_of_not_isExhausted {c : Cursor} (h : ¬ c.isExhausted = true) :
    c.windows = c.window :: c.advance.windows := by
  rw [windows, if_neg h]

theorem window_of_isExhausted {c : Cursor} (h : c.isExhausted = true) :
    c.window = "" ∧ c.advance.isExhausted = true := by
  have hrest := isExhausted_iff.mp h
  rw [window_eq, isExhausted_iff, rest_advance, hrest, List.take_nil, List.drop_nil]
  exact ⟨rfl, rfl⟩

/-- The windows of a cursor are the slices of what is left. -/
theorem windows_eq (c : Cursor) : c.windows = (slices c.width c.rest).map String.ofList := by
  have hmax : ∀ c : Cursor, max c.width 1 = c.width := fun c => Nat.max_eq_left c.width_pos
  fun_induction windows c with
  | case1 c hend => rw [isExhausted_iff.mp hend, slices_nil, List.map_nil]
  | case2 c hend ih =>
    rw [slices_of_ne_nil c.width (mt isExhausted_iff.mpr hend), hmax, List.map_cons, ← rest_advance,
      ← window_eq, ih]
    rfl

end Cursor

/-! ### The cuts of a text -/

/-- The slices of a text, one behind the other; the empty text has none. -/
def cuts (width : Nat) (text : String) : List String := (slices width text.toList).map String.ofList

theorem Cursor.windows_start (width : Nat) (text : String) :
    (start width text).windows = cuts width text := by
  rw [windows_eq, rest_start]
  exact congrArg (List.map String.ofList) (slices_max width _)

theorem join_cuts (width : Nat) (text : String) : String.join (cuts width text) = text := by
  rw [cuts, ← String.toList_inj, String.toList_join, List.flatMap_map]
  simp only [String.toList_ofList, List.flatMap_id']
  exact flatten_slices width text.toList

theorem length_le_of_mem_cuts {width : Nat} {text s : String} (h : s ∈ cuts width text) :
    s.length ≤ max width 1 := by
  obtain ⟨cs, hcs, rfl⟩ := List.mem_map.mp h
  rw [String.length_ofList]
  exact length_le_of_mem_slices hcs

theorem ne_empty_of_mem_cuts {width : Nat} {text s : String} (h : s ∈ cuts width text) :
    s ≠ "" := by
  obtain ⟨cs, hcs, rfl⟩ := List.mem_map.mp h
  simpa using ne_nil_of_mem_slices hcs

theorem map_length_cuts_congr {width : Nat} {s t : String} (h : s.length = t.length) :
    (cuts width s).map String.length = (cuts width t).map String.length := by
  have hofList : String.length ∘ String.ofList = List.length := by
    funext cs
    exact String.length_ofList
  rw [cuts, cuts, List.map_map, List.map_map, hofList]
  exact map_length_slices_congr (by rw [String.length_toList, String.length_toList, h])

theorem getElem?_cuts {width : Nat} (hwidth : 0 < width) (text : String) (i : Nat) :
    (cuts width text)[i]? =
      if i * width < text.length then some (slice text (i * width) ((i + 1) * width))
      else none := by
  rw [cuts, List.getElem?_map, getElem?_slices hwidth, String.length_toList]
  split <;> rfl

theorem getD_getElem?_cuts {width : Nat} (hwidth : 0 < width) (text : String) (i : Nat) :
    ((cuts width text)[i]?).getD "" = slice text (i * width) ((i + 1) * width) := by
  rw [getElem?_cuts hwidth]
  split
  · rfl
  · next h => exact (slice_of_length_le (Nat.not_lt.mp h) _).symm

/-- How many cuts there are. -/
theorem length_cuts {width : Nat} (hwidth : 0 < width) (text : String) :
    (cuts width text).length = text.length ⌈/⌉ width := by
  refine eq_of_forall_ge_iff fun i => ?_
  rw [← List.getElem?_eq_none_iff, getElem?_cuts hwidth, ceilDiv_le_iff_le_mul hwidth,
    Nat.mul_comm width]
  split
  · next h => exact iff_of_false (Option.some_ne_none _) (Nat.not_le.mpr h)
  · next h => exact iff_of_true rfl (Nat.not_lt.mp h)

/-- **The cuts by their number.** -/
theorem cuts_eq_map_range {width : Nat} (hwidth : 0 < width) (text : String) :
    cuts width text = (List.range (text.length ⌈/⌉ width)).map fun i =>
      slice text (i * width) ((i + 1) * width) := by
  refine List.ext_getElem (by rw [length_cuts hwidth, List.length_map, List.length_range]) ?_
  intro i hi _
  have hcut := getD_getElem?_cuts hwidth text i
  rw [List.getElem?_eq_getElem hi, Option.getD_some] at hcut
  rw [hcut, List.getElem_map, List.getElem_range]

/-! ### Windows -/

theorem windows_empty (width : Nat) : windows width "" = [""] := by
  have hrest : (Cursor.start width "").rest = [] := Cursor.rest_start width ""
  rw [windows, Cursor.window_eq, Cursor.windows_eq, Cursor.rest_advance, hrest, List.take_nil,
    List.drop_nil, slices_nil]
  rfl

theorem windows_of_ne_empty {width : Nat} {text : String} (h : text ≠ "") :
    windows width text = cuts width text := by
  have hrest := Cursor.rest_start width text
  have hne : ¬ (Cursor.start width text).isExhausted = true := by
    rw [Cursor.isExhausted_iff, hrest]
    simpa using h
  rw [← Cursor.windows_start, Cursor.windows_of_not_isExhausted hne]
  rfl

theorem windows_ne_nil (width : Nat) (text : String) : windows width text ≠ [] :=
  List.cons_ne_nil _ _

theorem join_windows (width : Nat) (text : String) : String.join (windows width text) = text := by
  by_cases h : text = ""
  · rw [h, windows_empty]
    rfl
  · rw [windows_of_ne_empty h, join_cuts]

theorem length_le_of_mem_windows {width : Nat} {text w : String} (h : w ∈ windows width text) :
    w.length ≤ max width 1 := by
  by_cases he : text = ""
  · rw [he, windows_empty, List.mem_singleton] at h
    rw [h]
    exact Nat.zero_le _
  · rw [windows_of_ne_empty he] at h
    exact length_le_of_mem_cuts h

theorem windows_of_length_le {width : Nat} {text : String} (h : text.length ≤ max width 1) :
    windows width text = [text] := by
  by_cases he : text = ""
  · rw [he, windows_empty]
  · rw [← String.length_toList] at h
    rw [windows_of_ne_empty he, cuts, slices_of_length_le (by simpa using he) h]
    simp

theorem one_lt_length_windows {width : Nat} {text : String} (hpos : 0 < width)
    (h : width < text.length) : 1 < (windows width text).length := by
  have he : text ≠ "" := by
    rintro rfl
    simp at h
  rw [windows_of_ne_empty he, cuts, List.length_map]
  refine one_lt_length_slices ?_
  rw [String.length_toList]
  omega

theorem map_length_windows_congr {width : Nat} {s t : String} (h : s.length = t.length) :
    (windows width s).map String.length = (windows width t).map String.length := by
  by_cases hs : s = ""
  · have ht : t = "" := by rw [← String.length_eq_zero_iff, ← h, hs]; rfl
    rw [hs, ht]
  · have ht : t ≠ "" := by
      rintro rfl
      exact hs (String.length_eq_zero_iff.mp h)
    rw [windows_of_ne_empty hs, windows_of_ne_empty ht, map_length_cuts_congr h]

theorem eq_empty_of_mem_windows {width : Nat} {text : String} (h : "" ∈ windows width text) :
    text = "" := by
  by_cases he : text = ""
  · exact he
  · rw [windows_of_ne_empty he] at h
    exact absurd rfl (ne_empty_of_mem_cuts h)

end SectionChunks.Text
