import SectionChunks.Chunk.Basic
import SectionChunks.Element.Json

/-! # Chunks in JSON

A chunk is a record of its kind, its text and its metadata, all of which must be there. All of a
chunk's document has to be representable, also the parts that are passed over: every string must
have a text, every number must be in the range of doubles, and the nesting is limited.

* `Json.representable`: whether a document is, down to a depth.
* `Chunk.ofJson?`, `Chunk.toJson`: reading and writing chunks. -/

namespace SectionChunks

open Json

namespace Json

mutual

/-- Whether a document nested at most `depth` deep can be represented. -/
def representable (depth : Nat) : Json → Bool
  | .null => true
  | .bool _ => true
  | .number literal => literal.toBinary64?.isSome
  | .string text => text.isSome
  | .array items => decide (0 < depth) && allRepresentable (depth - 1) items
  | .object members => decide (0 < depth) && allMembersRepresentable (depth - 1) members

/-- Whether all items can be represented. -/
def allRepresentable (depth : Nat) : List Json → Bool
  | [] => true
  | item :: items => representable depth item && allRepresentable depth items

/-- Whether all members can be represented, names and values. -/
def allMembersRepresentable (depth : Nat) : List (Option String × Json) → Bool
  | [] => true
  | (name, value) :: members =>
    name.isSome && representable depth value && allMembersRepresentable depth members

end

end Json

namespace ChunkKind

/-- The name of a chunk's kind. -/
def name : ChunkKind → String
  | composite => "CompositeElement"
  | table => "Table"
  | tablePiece => "TableChunk"

/-- Reads a chunk's kind, which must have one of the names. -/
def ofJson? (j : Json) : Option ChunkKind :=
  j.text?.bind fun s => [composite, table, tablePiece].find? fun k => k.name = s

end ChunkKind

namespace Chunk

/-- The form of a chunk. -/
def shape : RecordShape := ⟨["type", "text", "metadata"], 3, false⟩

/-- How deep a chunk's document may be nested. -/
def nestingLimit : Nat := 126

/-- Reads a chunk. -/
def ofJson? (j : Json) : Option Chunk :=
  if j.representable nestingLimit then do
    let members ← shape.members? j
    let kind ← required ChunkKind.ofJson? (members "type")
    let text ← required text? (members "text")
    let metadata ← required Metadata.ofJson? (members "metadata")
    return ⟨kind, text, metadata⟩
  else none

/-- Writes a chunk. -/
def toJson (c : Chunk) : Json :=
  ofMembers [("type", ofString c.kind.name), ("text", ofString c.text),
    ("metadata", c.metadata.toJson)]

/-- Reads a list of chunks. -/
def listOfJson? : Json → Option (List Chunk) := list? ofJson?

/-- Writes a list of chunks. -/
def listToJson : List Chunk → Json := ofList toJson

/-- Reads a list of chunks from the text of a document. -/
def parseList? (text : String) : Option (List Chunk) := (Json.parse? text).bind listOfJson?

end Chunk

end SectionChunks
