import SectionChunks.Json.Token

/-! # Writing a JSON text

A document is written as a row of pieces: its tokens, and in the spread style also line breaks and
spaces between them. An empty array or object is written without a break inside.

* `Style`: compact, without blanks, or spread over lines indented by two spaces.
* `pieces`: the row of pieces of a document.
* `render`: its text. -/

namespace SectionChunks.Json

/-- How a document is laid out. -/
inductive Style where
  | compact
  | spread
  deriving DecidableEq

/-- A token, or blanks between tokens. -/
inductive Piece where
  | token (t : Token)
  | newline (depth : Nat)
  | space

/-- How a piece is written. -/
def Piece.chars : Piece → List Char
  | .token t => t.chars
  | .newline depth => '\n' :: List.replicate (2 * depth) ' '
  | .space => [' ']

/-- The break before an item at the given depth. -/
def Style.lineBreak (style : Style) (depth : Nat) : List Piece :=
  match style with
  | .compact => []
  | .spread => [.newline depth]

/-- The blank after a colon. -/
def Style.afterColon : Style → List Piece
  | .compact => []
  | .spread => [.space]

mutual

/-- The pieces of a document that stands at the given depth. -/
def pieces (style : Style) (depth : Nat) : Json → List Piece
  | .null => [.token .null]
  | .bool b => [.token (.bool b)]
  | .number n => [.token (.number n)]
  | .string s => [.token (.string s)]
  | .array [] => [.token .openArray, .token .closeArray]
  | .array (item :: items) =>
    .token .openArray :: style.lineBreak (depth + 1) ++ pieces style (depth + 1) item ++
    itemPieces style (depth + 1) items ++ style.lineBreak depth ++ [.token .closeArray]
  | .object [] => [.token .openObject, .token .closeObject]
  | .object ((name, value) :: members) =>
    .token .openObject :: style.lineBreak (depth + 1) ++
    .token (.string name) :: .token .colon :: style.afterColon ++
    pieces style (depth + 1) value ++
    memberPieces style (depth + 1) members ++ style.lineBreak depth ++ [.token .closeObject]

/-- The pieces of the items after the first. -/
def itemPieces (style : Style) (depth : Nat) : List Json → List Piece
  | [] => []
  | item :: items =>
    .token .comma :: style.lineBreak depth ++ pieces style depth item ++
    itemPieces style depth items

/-- The pieces of the members after the first. -/
def memberPieces (style : Style) (depth : Nat) : List (Option String × Json) → List Piece
  | [] => []
  | (name, value) :: members =>
    .token .comma :: style.lineBreak depth ++
    .token (.string name) :: .token .colon :: style.afterColon ++
    pieces style depth value ++ memberPieces style depth members

end

/-- The text of a document. -/
def render (style : Style) (j : Json) : String :=
  String.ofList ((pieces style 0 j).flatMap Piece.chars)

end SectionChunks.Json
