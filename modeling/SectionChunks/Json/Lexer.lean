import SectionChunks.Json.Token

/-! # Splitting a JSON text into tokens

The lexer is an automaton that takes one character at a time. What it is in the middle of is its
`Mode`: nothing, a word, a number or a string. A number ends at the first character that cannot
continue it, which then starts the next token.

* `NumberPart`: how far a number has been read; `continue?` takes a character, `complete?` ends it.
* `StringPart`: how far a string has been read.
* `Lexer.step`: one character.
* `tokens?`: the tokens of a text, if each of its characters belongs to one or is a blank. -/

namespace SectionChunks.Json

open Number

/-! ### Numbers -/

/-- How far a number has been read. -/
inductive NumberPart where
  /-- The sign stands alone. -/
  | sign
  /-- The whole part is a zero, which no digit may follow. -/
  | zero (negative : Bool)
  /-- The whole part so far. -/
  | whole (negative : Bool) (value : Nat)
  /-- The point, which a digit must follow. -/
  | point (negative : Bool) (whole : Nat)
  /-- The digits after the point so far, the last first. -/
  | fraction (negative : Bool) (whole : Nat) (digits : List Digit)
  /-- The mark of the power of ten. -/
  | mark (negative : Bool) (whole : Nat) (digits : List Digit)
  /-- The sign of the power, which a digit must follow. -/
  | powerSign (negative : Bool) (whole : Nat) (digits : List Digit) (down : Bool)
  /-- The power so far. -/
  | power (negative : Bool) (whole : Nat) (digits : List Digit) (down : Bool) (value : Nat)

namespace NumberPart

/-- What a character makes of a number that it starts. -/
def start? (c : Char) : Option NumberPart :=
  if c = '-' then some .sign
  else (Digit.ofChar? c).map fun d => if d = Digit.zero then .zero false else .whole false d.val

/-- Whether a character marks a power of ten. -/
def isMark (c : Char) : Bool := c = 'e' || c = 'E'

/-- What a character makes of a number that it continues. -/
def continue? (p : NumberPart) (c : Char) : Option NumberPart :=
  match p with
  | .sign => (Digit.ofChar? c).map fun d => if d = Digit.zero then .zero true else .whole true d.val
  | .zero negative =>
    if c = '.' then some (.point negative 0)
    else if isMark c then some (.mark negative 0 [])
    else none
  | .whole negative value =>
    if c = '.' then some (.point negative value)
    else if isMark c then some (.mark negative value [])
    else (Digit.ofChar? c).map fun d => .whole negative (10 * value + d.val)
  | .point negative front => (Digit.ofChar? c).map fun d => .fraction negative front [d]
  | .fraction negative front digits =>
    if isMark c then some (.mark negative front digits)
    else (Digit.ofChar? c).map fun d => .fraction negative front (d :: digits)
  | .mark negative front digits =>
    if c = '+' then some (.powerSign negative front digits false)
    else if c = '-' then some (.powerSign negative front digits true)
    else (Digit.ofChar? c).map fun d => .power negative front digits false d.val
  | .powerSign negative front digits down =>
    (Digit.ofChar? c).map fun d => .power negative front digits down d.val
  | .power negative front digits down value =>
    (Digit.ofChar? c).map fun d => .power negative front digits down (10 * value + d.val)

/-- The literal of a number that may end here. -/
def complete? : NumberPart → Option Decimal
  | .zero negative => some ⟨negative, 0, [], none⟩
  | .whole negative value => some ⟨negative, value, [], none⟩
  | .fraction negative front digits => some ⟨negative, front, digits.reverse, none⟩
  | .power negative front digits down value =>
    some ⟨negative, front, digits.reverse, some (if down then -(value : Int) else value)⟩
  | .sign | .point .. | .mark .. | .powerSign .. => none

end NumberPart

/-! ### Strings -/

/-- What one character or escape adds to a string: a character, or half of a surrogate pair. -/
inductive StringUnit where
  | char (c : Char)
  | half (code : Nat)

/-- How far a string has been read, its units with the last first. -/
inductive StringPart where
  /-- After a whole unit. -/
  | text (units : List StringUnit)
  /-- After a backslash. -/
  | escape (units : List StringUnit)
  /-- Inside a `\u` escape, with the digits still to come and the value so far. -/
  | code (units : List StringUnit) (missing : Nat) (value : Nat)

/-- The value of a hexadecimal digit. -/
def hexValue? (c : Char) : Option Nat :=
  if 48 ≤ c.toNat ∧ c.toNat ≤ 57 then some (c.toNat - 48)
  else if 97 ≤ c.toNat ∧ c.toNat ≤ 102 then some (c.toNat - 87)
  else if 65 ≤ c.toNat ∧ c.toNat ≤ 70 then some (c.toNat - 55)
  else none

/-- Whether a code is the first half of a surrogate pair. -/
def isHighHalf (code : Nat) : Bool := decide (0xD800 ≤ code ∧ code < 0xDC00)

/-- Whether a code is the second half of a surrogate pair. -/
def isLowHalf (code : Nat) : Bool := decide (0xDC00 ≤ code ∧ code < 0xE000)

/-- The unit of a `\u` escape. -/
def StringUnit.ofCode (code : Nat) : StringUnit :=
  if isHighHalf code || isLowHalf code then .half code else .char (Char.ofNat code)

/-- The character that a two-character escape stands for. -/
def escaped? (c : Char) : Option Char :=
  if c = '"' ∨ c = '\\' ∨ c = '/' then some c
  else if c = 'b' then some (Char.ofNat 8)
  else if c = 'f' then some (Char.ofNat 12)
  else if c = 'n' then some '\n'
  else if c = 'r' then some '\r'
  else if c = 't' then some '\t'
  else none

/-- The characters of a string: each half of a pair must stand right beside the other. -/
def textOf? : List StringUnit → Option (List Char)
  | [] => some []
  | .char c :: rest => (textOf? rest).map (c :: ·)
  | .half high :: .half low :: rest =>
    if isHighHalf high && isLowHalf low then
      (textOf? rest).map (Char.ofNat (0x10000 + (high - 0xD800) * 0x400 + (low - 0xDC00)) :: ·)
    else none
  | .half _ :: _ => none

/-- The text of a finished string, from its units with the last first. -/
def finish (units : List StringUnit) : Option String := (textOf? units.reverse).map String.ofList

/-! ### The automaton -/

namespace Lexer

/-- What the lexer is in the middle of. -/
inductive Mode where
  | between
  | word (missing : List Char) (token : Token)
  | number (part : NumberPart)
  | string (part : StringPart)

/-- The tokens so far, the last first, and what comes next. -/
structure State where
  tokens : List Token
  mode : Mode

/-- The state before the first character. -/
def State.initial : State := ⟨[], .between⟩

/-- A character between two tokens: a blank, or the start of a token. -/
def start (tokens : List Token) (c : Char) : Option State :=
  if isBlank c then some ⟨tokens, .between⟩
  else if c = '[' then some ⟨.openArray :: tokens, .between⟩
  else if c = ']' then some ⟨.closeArray :: tokens, .between⟩
  else if c = '{' then some ⟨.openObject :: tokens, .between⟩
  else if c = '}' then some ⟨.closeObject :: tokens, .between⟩
  else if c = ',' then some ⟨.comma :: tokens, .between⟩
  else if c = ':' then some ⟨.colon :: tokens, .between⟩
  else if c = 'n' then some ⟨tokens, .word ['u', 'l', 'l'] .null⟩
  else if c = 't' then some ⟨tokens, .word ['r', 'u', 'e'] (.bool true)⟩
  else if c = 'f' then some ⟨tokens, .word ['a', 'l', 's', 'e'] (.bool false)⟩
  else if c = '"' then some ⟨tokens, .string (.text [])⟩
  else (NumberPart.start? c).map fun p => ⟨tokens, .number p⟩

/-- A character of a word. -/
def word (tokens : List Token) (missing : List Char) (token : Token) (c : Char) : Option State :=
  match missing with
  | [] => none
  | [m] => if c = m then some ⟨token :: tokens, .between⟩ else none
  | m :: rest => if c = m then some ⟨tokens, .word rest token⟩ else none

/-- A character of a number, or the first one after it. -/
def number (tokens : List Token) (p : NumberPart) (c : Char) : Option State :=
  match p.continue? c with
  | some p' => some ⟨tokens, .number p'⟩
  | none =>
    match p.complete? with
    | some literal => start (.number literal :: tokens) c
    | none => none

/-- A character of a string. -/
def string (tokens : List Token) (p : StringPart) (c : Char) : Option State :=
  match p with
  | .text units =>
    if c = '"' then some ⟨.string (finish units) :: tokens, .between⟩
    else if c = '\\' then some ⟨tokens, .string (.escape units)⟩
    else if c.toNat < 32 then none
    else some ⟨tokens, .string (.text (.char c :: units))⟩
  | .escape units =>
    if c = 'u' then some ⟨tokens, .string (.code units 4 0)⟩
    else (escaped? c).map fun c' => ⟨tokens, .string (.text (.char c' :: units))⟩
  | .code units missing value =>
    (hexValue? c).map fun h =>
      let value := 16 * value + h
      if missing ≤ 1 then ⟨tokens, .string (.text (.ofCode value :: units))⟩
      else ⟨tokens, .string (.code units (missing - 1) value)⟩

/-- One character. -/
def step (s : State) (c : Char) : Option State :=
  match s.mode with
  | .between => start s.tokens c
  | .word missing token => word s.tokens missing token c
  | .number p => number s.tokens p c
  | .string p => string s.tokens p c

/-- The tokens after the last character, which may end a number. -/
def State.finish? (s : State) : Option (List Token) :=
  match s.mode with
  | .between => some s.tokens.reverse
  | .number p => p.complete?.map fun literal => (Token.number literal :: s.tokens).reverse
  | .word .. | .string _ => none

end Lexer

/-- The tokens of a text. -/
def tokens? (text : List Char) : Option (List Token) :=
  (text.foldlM Lexer.step Lexer.State.initial).bind Lexer.State.finish?

end SectionChunks.Json
