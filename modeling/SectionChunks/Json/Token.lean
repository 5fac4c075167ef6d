import SectionChunks.Json.Basic

/-! # The tokens of a JSON text

A text is a row of tokens with blanks between them. This module holds the tokens and how each is
written. In a string only the quote, the backslash and the characters below U+0020 are escaped. -/

namespace SectionChunks.Json

/-- A token of a JSON text. -/
inductive Token where
  | openArray
  | closeArray
  | openObject
  | closeObject
  | comma
  | colon
  | null
  | bool (value : Bool)
  | number (literal : Decimal)
  | string (text : Option String)
  deriving DecidableEq

/-- The blanks that may stand between tokens. -/
def isBlank (c : Char) : Bool := c = ' ' || c = '\t' || c = '\n' || c = '\r'

/-- A hexadecimal digit, in lower case. -/
def hexDigit (n : Nat) : Char := if n < 10 then Char.ofNat (48 + n) else Char.ofNat (87 + n)

/-- How a character is written inside a string. -/
def escape (c : Char) : List Char :=
  if c = '"' then ['\\', '"']
  else if c = '\\' then ['\\', '\\']
  else if c.toNat < 32 then
    if c.toNat = 8 then ['\\', 'b']
    else if c = '\t' then ['\\', 't']
    else if c = '\n' then ['\\', 'n']
    else if c.toNat = 12 then ['\\', 'f']
    else if c = '\r' then ['\\', 'r']
    else ['\\', 'u', '0', '0', hexDigit (c.toNat / 16), hexDigit (c.toNat % 16)]
  else [c]

/-- The escape of half a surrogate pair, which stands for a string without a text. -/
def halfPair : List Char := ['\\', 'u', 'd', '8', '0', '0']

/-- How a string is written between its quotes. -/
def quoted : Option String → List Char
  | some text => text.toList.flatMap escape
  | none => halfPair

/-- How a token is written. -/
def Token.chars : Token → List Char
  | .openArray => ['[']
  | .closeArray => [']']
  | .openObject => ['{']
  | .closeObject => ['}']
  | .comma => [',']
  | .colon => [':']
  | .null => ['n', 'u', 'l', 'l']
  | .bool true => ['t', 'r', 'u', 'e']
  | .bool false => ['f', 'a', 'l', 's', 'e']
  | .number literal => literal.chars
  | .string text => '"' :: quoted text ++ ['"']

end SectionChunks.Json
