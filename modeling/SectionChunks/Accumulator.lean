import SectionChunks.Block
import SectionChunks.Text.Join

/-! # Accumulating pieces of text

An accumulator collects pieces, one after the other, whose texts are going to be joined, and keeps
the measure of the joined text at hand.

* `Accumulator.add`, `Accumulator.flush`: one more piece; all pieces at once, and a fresh start.
* `Accumulator.textLength`, `Accumulator.room`: the length of the joined text, and the longest
  piece that can still be added within the limit. -/

namespace SectionChunks

/-- What has a text of some length. -/
class HasTextLength (α : Type) where
  textLength : α → Nat

export HasTextLength (textLength)

instance : HasTextLength Element := ⟨Element.textLength⟩

/-- The length of a group's joined text. -/
def TextGroup.textLength (g : TextGroup) : Nat :=
  (Text.Extent.ofLengths (g.elements.map Element.textLength)).length

instance : HasTextLength TextGroup := ⟨TextGroup.textLength⟩

/-- Pieces of text collected so far, with the measure of their joined text. -/
structure Accumulator (α : Type) [HasTextLength α] where
  limit : Nat
  pieces : Array α
  extent : Text.Extent
  extent_eq : extent = Text.Extent.ofLengths (pieces.toList.map textLength)

namespace Accumulator

variable {α : Type} [HasTextLength α]

/-- No pieces. -/
def empty (limit : Nat) : Accumulator α := ⟨limit, #[], .zero, rfl⟩

/-- One more piece. -/
def add (acc : Accumulator α) (piece : α) : Accumulator α where
  limit := acc.limit
  pieces := acc.pieces.push piece
  extent := acc.extent.add (textLength piece)
  extent_eq := by
    rw [Array.toList_push, List.map_append, Text.Extent.ofLengths, List.foldl_append, acc.extent_eq]
    rfl

/-- Whether nothing was added. -/
def isEmpty (acc : Accumulator α) : Bool := acc.pieces.isEmpty

/-- The length of the joined text. -/
def textLength (acc : Accumulator α) : Nat := acc.extent.length

/-- The longest piece that can still be added within the limit. -/
def room (acc : Accumulator α) : Nat := acc.extent.room acc.limit

/-- Whether a piece can be added within the limit; one without text always can. -/
def fits (acc : Accumulator α) (piece : α) : Bool :=
  decide (HasTextLength.textLength piece ≤ acc.room)

/-- All pieces, if there are any, and the accumulator without them. -/
def flush (acc : Accumulator α) : Option (List α) × Accumulator α :=
  (if acc.isEmpty then none else some acc.pieces.toList, empty acc.limit)

end Accumulator

end SectionChunks
