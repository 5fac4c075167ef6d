/-! # Windows over a text

A text that is too long is cut into consecutive windows of one width, the last of which may be
shorter. A window holds at least one character, so a width of zero counts as one. The windows are
taken by a cursor that stands between two characters of the text and moves on behind each window.

* `Cursor`: a place in a text, and the width of the windows that are taken there.
* `Cursor.window`, `Cursor.advance`: the next window, and the cursor behind it.
* `windows`: the windows of a text; the empty text has one empty window. -/

namespace SectionChunks.Text

/-- A place in a text, from which windows of one width are taken. -/
structure Cursor where
  text : String
  /-- The place is a number of bytes, and it never stands inside a character. -/
  place : text.Pos
  width : Nat
  width_pos : 0 < width

namespace Cursor

/-- The cursor in front of a text. -/
def start (width : Nat) (text : String) : Cursor :=
  ⟨text, text.startPos, max width 1, by omega⟩

/-- Whether the text is used up. -/
def isExhausted (c : Cursor) : Bool := decide (c.place = c.text.endPos)

/-- Where the next window ends: a width further on, or at the end of the text. -/
def windowEnd (c : Cursor) : c.text.Pos := c.place.nextn c.width

/-- The next window, empty once the text is used up. -/
def window (c : Cursor) : String := String.extract c.place c.windowEnd

/-- The cursor behind the next window. -/
def advance (c : Cursor) : Cursor := { c with place := c.windowEnd }

/-- How many bytes of the text are left. -/
def remaining (c : Cursor) : Nat := c.place.remainingBytes

theorem remaining_advance_le (c : Cursor) : c.advance.remaining ≤ c.remaining :=
  (String.Pos.le_iff_remainingBytes_le _ _).mp String.Pos.le_nextn

theorem remaining_advance_lt {c : Cursor} (h : ¬ c.isExhausted = true) :
    c.advance.remaining < c.remaining := by
  have hend : c.place ≠ c.text.endPos := by simpa [isExhausted] using h
  have hsucc : c.width = c.width - 1 + 1 := by have := c.width_pos; omega
  refine (String.Pos.lt_iff_remainingBytes_lt _ _).mp ?_
  show c.place < c.place.nextn c.width
  rw [hsucc, String.Pos.nextn_add_one, dif_neg hend]
  exact String.Pos.lt_of_lt_of_le String.Pos.lt_next String.Pos.le_nextn

/-- All windows that are left. -/
def windows (c : Cursor) : List String :=
  if c.isExhausted then [] else c.window :: c.advance.windows
termination_by c.remaining
decreasing_by exact remaining_advance_lt (by assumption)

end Cursor

/-- The windows of a text, at least one. -/
def windows (width : Nat) (text : String) : List String :=
  let c := Cursor.start width text
  c.window :: c.advance.windows

end SectionChunks.Text
