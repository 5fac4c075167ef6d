import SectionChunks.Proofs.Chunk.Cutting
import Mathlib.Logic.Function.Iterate

/-! # The windows of a text group, one by one

A cursor that moves on counts characters, but where it stands is a number of bytes. Nothing may be
read from inside a character, so every number of bytes it comes to must be that of a border between
two characters.

* `Text.windows_eq_map_range`: how many windows a text has, and what each of them is.
* `Text.Cursor.splits_after`: what a cursor has passed, and what is left, after a number of windows.
* `Text.offsetAfter?_eq`: a cursor that adds up bytes comes to the same places, and never stands
  inside a character or behind the end.
* `TextGroup.chunks_eq_map_range`: the chunks of a text group, by their number. -/

namespace SectionChunks

namespace Text

/-! ### Windows by their number -/

theorem slice_min_length (text : String) (start stop : Nat) :
    slice text start (min text.length stop) = slice text start stop := by
  rw [slice, slice, ← String.length_toList, Nat.min_comm, ← List.take_eq_take_min]

theorem cuts_max (width : Nat) (text : String) : cuts (max width 1) text = cuts width text :=
  congrArg (List.map String.ofList) (slices_max width text.toList)

/-- The windows of a text by their number. -/
theorem windows_eq_map_range (width : Nat) (text : String) :
    windows width text = (List.range (max 1 (text.length ⌈/⌉ max width 1))).map fun i =>
      slice text (i * max width 1) (min text.length ((i + 1) * max width 1)) := by
  have hpos : 0 < max width 1 := by omega
  simp only [slice_min_length]
  by_cases he : text = ""
  · rw [he, windows_empty, String.length_empty, zero_ceilDiv]
    exact congrArg ([·]) (slice_of_length_le (Nat.zero_le _) _).symm
  · have hlength : 0 < text.length := Nat.pos_of_ne_zero (mt String.length_eq_zero_iff.mp he)
    have hcount : 0 < text.length ⌈/⌉ max width 1 := by
      rw [← Nat.not_le, ceilDiv_le_iff_le_mul hpos]
      omega
    rw [windows_of_ne_empty he, ← cuts_max, Nat.max_eq_right hcount, cuts_eq_map_range hpos]

namespace Cursor

/-! ### Moving on -/

/-- The cursor behind the next windows. -/
def after (c : Cursor) (count : Nat) : Cursor := advance^[count] c

@[simp]
theorem after_zero (c : Cursor) : c.after 0 = c := rfl

theorem after_succ (c : Cursor) (i : Nat) : c.after (i + 1) = (c.after i).advance :=
  Function.iterate_succ_apply' advance i c

@[simp]
theorem text_after (c : Cursor) (i : Nat) : (c.after i).text = c.text := by
  induction i with
  | zero => rfl
  | succ i ih => rw [after_succ, ← ih]; rfl

@[simp]
theorem width_after (c : Cursor) (i : Nat) : (c.after i).width = c.width := by
  induction i with
  | zero => rfl
  | succ i ih => rw [after_succ, ← ih]; rfl

theorem rest_after (c : Cursor) (i : Nat) : (c.after i).rest = c.rest.drop (i * c.width) := by
  induction i with
  | zero => rw [Nat.zero_mul, List.drop_zero, after_zero]
  | succ i ih => rw [after_succ, rest_advance, ih, width_after, List.drop_drop, Nat.succ_mul]

/-- Where a cursor stands after a number of windows: behind all their characters, and in front of
all others. -/
theorem splits_after {c : Cursor} {before : String}
    (h : c.place.Splits before (String.ofList c.rest)) (i : Nat) :
    (c.after i).place.Splits (before ++ String.ofList (c.rest.take (i * c.width)))
      (String.ofList (c.rest.drop (i * c.width))) := by
  induction i with
  | zero => simpa using h
  | succ i ih =>
    have htake : c.rest.take ((i + 1) * c.width) =
        c.rest.take (i * c.width) ++ (c.after i).rest.take (c.after i).width := by
      rw [Nat.succ_mul, List.take_add, rest_after, width_after]
    rw [← rest_after] at ih ⊢
    rw [htake, String.ofList_append, ← String.append_assoc, after_succ, rest_advance]
    exact splits_windowEnd ih

theorem offset_after_start (width : Nat) (text : String) (i : Nat) :
    ((start width text).after i).place.offset = (slice text 0 (i * max width 1)).rawEndPos := by
  have hstart : (start width text).place.Splits "" (String.ofList (start width text).rest) := by
    rw [rest_start, String.ofList_toList]
    exact String.splits_startPos text
  have hafter := (splits_after hstart i).offset_eq_rawEndPos
  rw [String.empty_append, rest_start] at hafter
  exact hafter

theorem isValid_offset {c : Cursor} {text : String} (h : c.text = text) :
    c.place.offset.IsValid text := h ▸ c.place.isValid

theorem isExhausted_after_start (width : Nat) (text : String) (i : Nat) :
    ((start width text).after i).isExhausted = true ↔ text.length ≤ i * max width 1 := by
  rw [isExhausted_iff, rest_after, rest_start, List.drop_eq_nil_iff, String.length_toList]
  rfl

end Cursor

/-! ### Adding up bytes -/

/-- Characters, each with the number of bytes in front of it. -/
def charIndices (offset : Nat) : List Char → List (Nat × Char)
  | [] => []
  | c :: cs => (offset, c) :: charIndices (offset + c.utf8Size) cs

/-- How many bytes the next window has: those in front of the first character that has no room in
it. -/
def windowBytes (width : Nat) (rest : String) : Nat :=
  match (charIndices 0 rest.toList)[width]? with
  | some (offset, _) => offset
  | none => rest.utf8ByteSize

/-- One step from a number of bytes. There is none from inside a character, or from behind the
end. -/
def byteStep? (text : String) (width : Nat) (offset : String.Pos.Raw) : Option String.Pos.Raw :=
  (text.pos? offset).map fun place =>
    ⟨offset.byteIdx + windowBytes width (text.sliceFrom place).copy⟩

/-- The number of bytes after a number of steps. -/
def offsetAfter? (text : String) (width : Nat) : Nat → Option String.Pos.Raw
  | 0 => some 0
  | i + 1 => (offsetAfter? text width i).bind (byteStep? text width)

theorem getElem?_charIndices (offset : Nat) (cs : List Char) (i : Nat) :
    (charIndices offset cs)[i]? =
      cs[i]?.map (offset + (String.ofList (cs.take i)).utf8ByteSize, ·) := by
  induction cs generalizing offset i with
  | nil => rfl
  | cons c cs ih =>
    cases i with
    | zero => simp [charIndices]
    | succ i =>
      rw [charIndices, List.getElem?_cons_succ, List.getElem?_cons_succ, ih, List.take_succ_cons,
        String.ofList_cons, String.utf8ByteSize_append, String.utf8ByteSize_singleton,
        Nat.add_assoc]

theorem windowBytes_eq (width : Nat) (rest : String) :
    windowBytes width rest = (String.ofList (rest.toList.take width)).utf8ByteSize := by
  rw [windowBytes, getElem?_charIndices]
  cases h : rest.toList[width]? with
  | some c => simp
  | none =>
    rw [List.take_of_length_le (List.getElem?_eq_none_iff.mp h), String.ofList_toList]
    rfl

theorem pos?_offset {text : String} (place : text.Pos) : text.pos? place.offset = some place := by
  have hvalid : place.offset.isValidForSlice text.toSlice = true :=
    String.Pos.Raw.isValidForSlice_eq_true_iff.mpr place.isValid.toSlice
  rw [String.pos?, String.Slice.pos?, dif_pos hvalid]
  rfl

theorem byteStep?_offset {c : Cursor} {text : String} {width : Nat} (htext : c.text = text)
    (hwidth : c.width = width) :
    byteStep? text width c.place.offset = some c.advance.place.offset := by
  subst htext hwidth
  obtain ⟨before, h⟩ := c.exists_splits
  have hnext : c.advance.place.offset =
      (before ++ String.ofList (c.rest.take c.width)).rawEndPos :=
    (Cursor.splits_windowEnd h).offset_eq_rawEndPos
  rw [byteStep?, pos?_offset, Option.map_some, windowBytes_eq, hnext, h.offset_eq_rawEndPos]
  exact congrArg (fun n => some (String.Pos.Raw.mk n)) String.utf8ByteSize_append.symm

/-- Adding up bytes leads to the places of the cursor. -/
theorem offsetAfter?_eq (width : Nat) (text : String) (i : Nat) :
    offsetAfter? text (max width 1) i =
      some ((Cursor.start width text).after i).place.offset := by
  induction i with
  | zero => rfl
  | succ i ih =>
    rw [offsetAfter?, ih, Option.bind_some, Cursor.after_succ]
    exact byteStep?_offset (Cursor.text_after _ i) (Cursor.width_after _ i)

-- From a place inside a character there is no step.
example : offsetAfter? "aß日" 2 1 = some ⟨3⟩ ∧ byteStep? "aß日" 2 ⟨2⟩ = none := by decide +kernel

end Text

/-- **The chunks of a text group by their number.** There are as many as the text has windows, at
least one, and each of them is a composite chunk with the characters of its window. The cursor that
cuts them stands between two characters after each of its steps, also where bytes are added up
instead, and it is at the end once the text is used up. -/
theorem TextGroup.chunks_eq_map_range (g : TextGroup) (width : Nat) :
    g.chunks width = (List.range (max 1 (g.joinedText.length ⌈/⌉ max width 1))).map (fun i =>
      ⟨.composite, Text.slice g.joinedText (i * max width 1)
        (min g.joinedText.length ((i + 1) * max width 1)), g.metadata⟩) ∧
    ∀ i, let c := (Text.Cursor.start width g.joinedText).after i
      Text.offsetAfter? g.joinedText (max width 1) i = some c.place.offset ∧
      c.place.offset = (Text.slice g.joinedText 0 (i * max width 1)).rawEndPos ∧
      c.place.offset.IsValid g.joinedText ∧ c.place.offset ≤ g.joinedText.rawEndPos ∧
      (c.isExhausted = true ↔ g.joinedText.length ⌈/⌉ max width 1 ≤ i) := by
  refine ⟨?_, fun i => ?_⟩
  · rw [chunks, Text.windows_eq_map_range, List.map_map]
    rfl
  · have hvalid := Text.Cursor.isValid_offset
      (Text.Cursor.text_after (Text.Cursor.start width g.joinedText) i)
    refine ⟨Text.offsetAfter?_eq width g.joinedText i,
      Text.Cursor.offset_after_start width g.joinedText i, hvalid, hvalid.le_rawEndPos, ?_⟩
    rw [Text.Cursor.isExhausted_after_start, ceilDiv_le_iff_le_mul (by omega), Nat.mul_comm]

end SectionChunks
