import SectionChunks.Section
import SectionChunks.Combining
import SectionChunks.Consolidation
import SectionChunks.Text.Windows

/-! # Chunks

A chunk is a piece of text of limited length with its metadata. Text groups are cut into windows
that all carry the group's merged metadata. A table that fits is a chunk as it is; otherwise its
text and its HTML are cut side by side. A document is divided into sections, short sections are
combined, and what results is cut to size.

* `TextGroup.chunks`, `tableChunks`, `PreChunk.chunks`: cutting to a width.
* `Element.tablePiecesFrom`: the pieces of a table that does not fit.
* `preChunks`, `chunkByTitle`: the pre-chunks and the chunks of a document. -/

namespace SectionChunks

/-- What a chunk was made of. -/
inductive ChunkKind where
  /-- One or more elements of running text. -/
  | composite
  /-- A whole table. -/
  | table
  /-- A piece of a table. -/
  | tablePiece
  deriving DecidableEq

/-- A piece of a document, ready for use. -/
structure Chunk where
  kind : ChunkKind
  text : String
  metadata : Metadata
  deriving DecidableEq

/-- How many characters a chunk's text has. -/
def Chunk.textLength (c : Chunk) : Nat := c.text.length

/-! ### Cutting -/

/-- The chunks of a text group: the windows of its joined text. -/
def TextGroup.chunks (g : TextGroup) (width : Nat) : List Chunk :=
  let metadata := g.metadata
  (Text.windows width g.joinedText).map fun text => ⟨.composite, text, metadata⟩

/-- The HTML of a table, empty if it has none. -/
def Element.html (e : Element) : String := e.metadata.textAsHtml.getD ""

/-- A piece of a table: some of its text and some of its HTML. -/
def Element.tablePiece (e : Element) (text html : String) : Chunk where
  kind := .tablePiece
  text := text
  metadata := { e.metadata with textAsHtml := if html.isEmpty then none else some html }

/-- The pieces of a table that are left when its text and its HTML are cut from the given places on.
Both cursors move with each piece, until both are at the end. -/
def Element.tablePiecesFrom (e : Element) (text html : Text.Cursor) : List Chunk :=
  if text.isExhausted ∧ html.isExhausted then []
  else e.tablePiece text.window html.window :: e.tablePiecesFrom text.advance html.advance
termination_by text.remaining + html.remaining
decreasing_by
  have ht := text.remaining_advance_le
  have hh := html.remaining_advance_le
  rcases Classical.not_and_iff_not_or_not.mp ‹_› with h | h
  · have := Text.Cursor.remaining_advance_lt h
    omega
  · have := Text.Cursor.remaining_advance_lt h
    omega

/-- The chunks of a table: the table as it is if it fits, and otherwise its pieces. -/
def tableChunks (e : Element) (width : Nat) : List Chunk :=
  if e.textLength ≤ width ∧ e.html.length ≤ width then [⟨.table, e.text, e.metadata⟩]
  else e.tablePiecesFrom (.start width e.text) (.start width e.html)

namespace PreChunk

/-- The length of the text before cutting. -/
def textLength : PreChunk → Nat
  | .text g => g.textLength
  | .table e => e.textLength

/-- The chunks of a pre-chunk. -/
def chunks (p : PreChunk) (width : Nat) : List Chunk :=
  match p with
  | .text g => g.chunks width
  | .table e => tableChunks e width

end PreChunk

/-! ### From elements to chunks -/

/-- The pre-chunks of a document. -/
def preChunks (options : Options) (elements : List Element) : List PreChunk :=
  combine options.combineRules (sections options.sectionRules elements)

/-- **The chunks of a document.** -/
def chunkByTitle (options : Options) (elements : List Element) : List Chunk :=
  (preChunks options elements).flatMap fun p => PreChunk.chunks p options.maxCharacters

end SectionChunks
