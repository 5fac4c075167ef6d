import SectionChunks.Json.Lexer

/-! # Reading a JSON text

The tokens of a text are taken one at a time. The arrays and objects that are still open are kept
in a list, the innermost first, so a text may be nested to any depth.

* `Frame`: an open array or object, with what has been read of it.
* `Expected`: what may come next.
* `Expected.step`: one token.
* `parse?`: the document that a text stands for, if it is exactly one. -/

namespace SectionChunks.Json

/-- An open array or object, what has been read of it with the last first. -/
inductive Frame where
  | array (before : List Json)
  | object (before : List (Option String × Json)) (name : Option String)

/-- What may come next, inside the open frames. -/
inductive Expected where
  /-- A value. -/
  | value (outer : List Frame)
  /-- The first item of an array, or its end. -/
  | firstItem (outer : List Frame)
  /-- The first name of an object, or its end. -/
  | firstName (outer : List Frame)
  /-- A name. -/
  | name (outer : List Frame) (before : List (Option String × Json))
  /-- The colon after a name. -/
  | colon (outer : List Frame) (before : List (Option String × Json)) (name : Option String)
  /-- What goes on after a whole value: a comma or the end of the frame around it, if any. -/
  | after (outer : List Frame) (value : Json)

namespace Expected

/-- A token that starts a value. -/
def begin (outer : List Frame) : Token → Option Expected
  | .null => some (.after outer .null)
  | .bool b => some (.after outer (.bool b))
  | .number n => some (.after outer (.number n))
  | .string s => some (.after outer (.string s))
  | .openArray => some (.firstItem outer)
  | .openObject => some (.firstName outer)
  | .closeArray | .closeObject | .comma | .colon => none

/-- A token after a whole value. -/
def close (outer : List Frame) (v : Json) (t : Token) : Option Expected :=
  match outer, t with
  | .array before :: outer, .comma => some (.value (.array (v :: before) :: outer))
  | .array before :: outer, .closeArray => some (.after outer (.array (v :: before).reverse))
  | .object before key :: outer, .comma => some (.name outer ((key, v) :: before))
  | .object before key :: outer, .closeObject =>
    some (.after outer (.object ((key, v) :: before).reverse))
  | _, _ => none

/-- One token. -/
def step (e : Expected) (t : Token) : Option Expected :=
  match e with
  | .value outer => begin outer t
  | .firstItem outer =>
    match t with
    | .closeArray => some (.after outer (.array []))
    | t => begin (.array [] :: outer) t
  | .firstName outer =>
    match t with
    | .closeObject => some (.after outer (.object []))
    | .string s => some (.colon outer [] s)
    | _ => none
  | .name outer before =>
    match t with
    | .string s => some (.colon outer before s)
    | _ => none
  | .colon outer before key =>
    match t with
    | .colon => some (.value (.object before key :: outer))
    | _ => none
  | .after outer v => close outer v t

/-- The document, once all is closed. -/
def document? : Expected → Option Json
  | .after [] v => some v
  | _ => none

end Expected

/-- The document that tokens stand for. -/
def ofTokens? (tokens : List Token) : Option Json :=
  (tokens.foldlM Expected.step (.value [])).bind Expected.document?

/-- The document that a text stands for. -/
def parse? (text : String) : Option Json := (tokens? text.toList).bind ofTokens?

end SectionChunks.Json
