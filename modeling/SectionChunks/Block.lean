import SectionChunks.Element.Basic

/-! # Blocks

Seen from far enough, a document is running text interrupted by tables. A table is a block of its
own, and running text comes in pieces: single elements at first, then ever larger groups of them.

* `Block`: a piece of running text, or a table.
* `Element.block`: an element as a block.
* `PreChunk`: elements that belong together, before they are cut to size. -/

namespace SectionChunks

/-- A piece of running text, or a table. -/
inductive Block (α : Type) where
  | text (piece : α)
  | table (table : Element)
  deriving DecidableEq

/-- The blocks with each piece of text changed. -/
def Block.map {α β : Type} (f : α → β) : Block α → Block β
  | .text piece => .text (f piece)
  | .table t => .table t

/-- An element as a block. -/
def Element.block (e : Element) : Block Element :=
  if e.kind = .table then .table e else .text e

/-- Elements of running text that belong to one section. -/
structure TextGroup where
  elements : List Element
  deriving DecidableEq

/-- What is cut into chunks as one: elements of running text that belong together, or a table. -/
abbrev PreChunk := Block TextGroup

end SectionChunks
