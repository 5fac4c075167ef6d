/-! # Slices of a text

A slice is what stands between two positions of a text, both counted in characters.

* `slice`: one slice. A part of a text is the slice at its position (`slice_eq_of_toList_eq`).
* `slices`: the consecutive slices of one width. Together they are the whole (`flatten_slices`),
  none is empty or too long, and each stands where its number says (`getElem?_slices`). -/

namespace SectionChunks.Text

/-! ### One slice -/

/-- The characters of a text from position `start` up to position `stop`. -/
def slice (text : String) (start stop : Nat) : String :=
  String.ofList ((text.toList.take stop).drop start)

theorem toList_slice (text : String) (start stop : Nat) :
    (slice text start stop).toList = (text.toList.take stop).drop start := String.toList_ofList

theorem slice_of_length_le {text : String} {start : Nat} (h : text.length ≤ start) (stop : Nat) :
    slice text start stop = "" := by
  rw [← String.toList_inj, toList_slice, List.drop_eq_nil_of_le]
  · rfl
  · rw [← String.length_toList] at h
    exact Nat.le_trans (List.length_take_le' _ _) h

theorem slice_eq_of_toList_eq {whole part : String} {before after : List Char}
    (h : whole.toList = before ++ part.toList ++ after) :
    slice whole before.length (before.length + part.length) = part := by
  have hlen : before.length + part.length = (before ++ part.toList).length := by
    rw [List.length_append, String.length_toList]
  rw [← String.toList_inj, toList_slice, h, hlen, List.take_left, List.drop_left]

/-! ### Consecutive slices -/

/-- Consecutive slices of `max width 1` characters, the last possibly shorter. -/
def slices (width : Nat) : List Char → List (List Char)
  | [] => []
  | c :: cs =>
    (c :: cs).take (max width 1) :: slices width ((c :: cs).drop (max width 1))
termination_by cs => cs.length
decreasing_by simp only [List.length_drop, List.length_cons]; omega

theorem slices_nil (width : Nat) : slices width [] = [] := by rw [slices]

theorem slices_of_ne_nil (width : Nat) {cs : List Char} (h : cs ≠ []) :
    slices width cs = cs.take (max width 1) :: slices width (cs.drop (max width 1)) := by
  cases cs with
  | nil => exact absurd rfl h
  | cons c cs => rw [slices]

theorem slices_max (width : Nat) (cs : List Char) : slices (max width 1) cs = slices width cs := by
  have hmax : max (max width 1) 1 = max width 1 := by omega
  fun_induction slices width cs with
  | case1 => exact slices_nil _
  | case2 c cs ih => rw [slices_of_ne_nil _ (List.cons_ne_nil c cs), hmax, ih]

/-- Cutting loses nothing. -/
theorem flatten_slices (width : Nat) (cs : List Char) : (slices width cs).flatten = cs := by
  fun_induction slices width cs with
  | case1 => rfl
  | case2 c cs ih => rw [List.flatten_cons, ih, List.take_append_drop]

theorem ne_nil_of_mem_slices {width : Nat} {cs s : List Char} (h : s ∈ slices width cs) :
    s ≠ [] := by
  fun_induction slices width cs with
  | case1 => exact absurd h List.not_mem_nil
  | case2 c cs ih =>
    rcases List.mem_cons.mp h with rfl | h
    · have hpos : max width 1 ≠ 0 := by omega
      simp [hpos]
    · exact ih h

theorem length_le_of_mem_slices {width : Nat} {cs s : List Char} (h : s ∈ slices width cs) :
    s.length ≤ max width 1 := by
  fun_induction slices width cs with
  | case1 => exact absurd h List.not_mem_nil
  | case2 c cs ih =>
    rcases List.mem_cons.mp h with rfl | h
    · exact List.length_take_le _ _
    · exact ih h

theorem slices_of_length_le {width : Nat} {cs : List Char} (hne : cs ≠ [])
    (h : cs.length ≤ max width 1) : slices width cs = [cs] := by
  rw [slices_of_ne_nil width hne, List.take_of_length_le h, List.drop_eq_nil_of_le h, slices_nil]

theorem slices_ne_nil (width : Nat) {cs : List Char} (hne : cs ≠ []) : slices width cs ≠ [] := by
  rw [slices_of_ne_nil width hne]
  exact List.cons_ne_nil _ _

theorem one_lt_length_slices {width : Nat} {cs : List Char} (h : max width 1 < cs.length) :
    1 < (slices width cs).length := by
  have hne : cs ≠ [] := by
    rintro rfl
    simp at h
  have hrest : cs.drop (max width 1) ≠ [] := by
    rw [Ne, List.drop_eq_nil_iff]
    omega
  have hpos := List.length_pos_iff.mpr (slices_ne_nil width hrest)
  rw [slices_of_ne_nil width hne, List.length_cons]
  omega

theorem map_length_slices_congr {width : Nat} {as bs : List Char} (h : as.length = bs.length) :
    (slices width as).map List.length = (slices width bs).map List.length := by
  fun_induction slices width as generalizing bs with
  | case1 => rw [List.length_eq_zero_iff.mp h.symm, slices_nil]
  | case2 c cs ih =>
    have hne : bs ≠ [] := by
      rintro rfl
      simp at h
    have hrest : ((c :: cs).drop (max width 1)).length = (bs.drop (max width 1)).length := by
      rw [List.length_drop, List.length_drop, h]
    rw [slices_of_ne_nil width hne, List.map_cons, List.map_cons, ih hrest, List.length_take,
      List.length_take, h]

/-- **Each slice stands where its number says.** -/
theorem getElem?_slices {width : Nat} (hwidth : 0 < width) (cs : List Char) (i : Nat) :
    (slices width cs)[i]? =
      if i * width < cs.length then some ((cs.take ((i + 1) * width)).drop (i * width))
      else none := by
  have hmax : max width 1 = width := by omega
  fun_induction slices width cs generalizing i with
  | case1 => simp
  | case2 c cs ih =>
    rw [hmax] at ih ⊢
    cases i with
    | zero => simp
    | succ i =>
      have hstart : (i + 1) * width = width + i * width := by rw [Nat.succ_mul, Nat.add_comm]
      have hstop : (i + 1 + 1) * width = width + (i + 1) * width := by
        rw [Nat.succ_mul, Nat.add_comm]
      rw [List.getElem?_cons_succ, ih, hstop, hstart, List.length_drop, List.drop_take,
        List.drop_take,
        List.drop_drop]
      congr 1
      · exact propext (by omega)
      · congr 2
        omega

end SectionChunks.Text
