/-! # Joined texts

The texts of several elements are joined with a blank line between them. An empty text takes no
part: it brings neither characters nor a separator.

* `joined`: the joined text.
* `Extent`: the running measure of a joined text, which grows by one text at a time.
* `Extent.length_ofTexts`: the measure gives the length of the joined text.
* `Extent.length_add_le_iff`: another non-empty text fits a limit exactly when it is no longer than
  the room left. -/

namespace SectionChunks.Text

/-- What stands between two joined texts. -/
def separator : String := "\n\n"

/-- The non-empty texts, a blank line between any two neighbours. -/
def joined (texts : List String) : String :=
  separator.intercalate (texts.filter fun t => !t.isEmpty)

/-- The measure of a joined text: the characters of its parts, and how many parts there are. -/
structure Extent where
  characters : Nat
  parts : Nat
  deriving DecidableEq

namespace Extent

/-- The measure of no text. -/
def zero : Extent := ⟨0, 0⟩

/-- The measure after one more text of the given length; an empty text does not count. -/
def add (x : Extent) (length : Nat) : Extent :=
  if length = 0 then x else ⟨x.characters + length, x.parts + 1⟩

/-- The measure of texts of the given lengths. -/
def ofLengths (lengths : List Nat) : Extent := lengths.foldl add zero

/-- The length of the joined text, its separators included. -/
def length (x : Extent) : Nat := x.characters + 2 * (x.parts - 1)

/-- The longest text that can still be joined without passing `limit`. -/
def room (x : Extent) (limit : Nat) : Nat := limit - x.characters - 2 * x.parts

/-! ### The measure and the joined text -/

/-- The characters of all texts, without separators. -/
def totalLength : List String → Nat
  | [] => 0
  | t :: ts => t.length + totalLength ts

theorem length_intercalate (texts : List String) :
    (separator.intercalate texts).length = totalLength texts + 2 * (texts.length - 1) := by
  rw [← String.length_toList, String.toList_intercalate]
  induction texts with
  | nil => rfl
  | cons t ts ih =>
    cases ts with
    | nil => simp [List.intercalate, totalLength, String.length_toList]
    | cons u us =>
      have hsep : separator.toList.length = 2 := rfl
      rw [List.map_cons, List.map_cons, List.intercalate_cons_cons, List.length_append,
        List.length_append, ← List.map_cons, ih, hsep]
      simp only [totalLength, List.length_cons, String.length_toList]
      omega

theorem foldl_add (x : Extent) (texts : List String) :
    (texts.map String.length).foldl add x =
      ⟨x.characters + totalLength (texts.filter fun t => !t.isEmpty),
        x.parts + (texts.filter fun t => !t.isEmpty).length⟩ := by
  induction texts generalizing x with
  | nil => rfl
  | cons t ts ih =>
    rw [List.map_cons, List.foldl_cons, ih]
    by_cases h : t = ""
    · subst h
      simp [add]
    · have hl : t.length ≠ 0 := by simpa using h
      simp [add, hl, h, totalLength]
      omega

/-- The measure gives the length of the joined text. -/
theorem length_ofTexts (texts : List String) :
    (ofLengths (texts.map String.length)).length = (joined texts).length := by
  rw [ofLengths, foldl_add, joined, length_intercalate]
  simp [length, zero]

/-- **A non-empty text fits exactly when it is no longer than the room left.** -/
theorem length_add_le_iff (x : Extent) {n limit : Nat} (hn : n ≠ 0)
    (hx : x.parts = 0 → x.characters = 0) :
    (x.add n).length ≤ limit ↔ n ≤ x.room limit := by
  simp only [add, if_neg hn, length, room]
  omega

end Extent

end SectionChunks.Text
