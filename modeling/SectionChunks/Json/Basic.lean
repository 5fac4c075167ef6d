import SectionChunks.Number.Decimal

/-! # JSON documents

A document is kept as it was written as far as a reader may ask about it: an object keeps all its
members in order, repeated names too, and a number keeps its literal. A string that names half of a
surrogate pair by an escape has no text; it is well formed all the same, and it does no harm where
nobody looks at it. -/

namespace SectionChunks

/-- A JSON document. `none` in place of a string's text means that the string has none. -/
inductive Json where
  | null
  | bool (value : Bool)
  | number (literal : Decimal)
  | string (text : Option String)
  | array (items : List Json)
  | object (members : List (Option String × Json))

namespace Json

/-- The string with the given text. -/
def ofString (text : String) : Json := .string (some text)

/-- The number with the given integer value. -/
def ofInt (n : Int) : Json := .number (.ofInt n)

/-- The number with the given natural value. -/
def ofNat (n : Nat) : Json := .number (.ofNat n)

/-- The object with the given members. -/
def ofMembers (members : List (String × Json)) : Json :=
  .object (members.map fun m => (some m.1, m.2))

end Json

end SectionChunks
