import SectionChunks.Json.Basic
import SectionChunks.Dictionary
import SectionChunks.Number.Reading
import SectionChunks.Number.Shortest

/-! # Typed reading of documents

A reader turns a document into a value of one type, or refuses it. Nothing is converted: a number
is not read from a string, nor an integer from a literal with a point.

* `text?`, `bool?`, `integer64?`, `natural?`, `binary64?`: readers of single values.
* `list?`, `dictionary?`: readers of arrays, and of objects whose names are data. Of equal names in
  a dictionary the last one counts.
* `RecordShape`: the names of a record's fields. `RecordShape.members?` finds the documents of the
  fields, in an object by name and in an array by position. Of one object no field may be given
  twice; names outside the shape are passed over, unless the shape is closed.
* `required`, `optional`, `defaulted`: how a field is read. -/

namespace SectionChunks.Json

variable {α β : Type}

/-! ### Single values -/

/-- The text of a string that has one. -/
def text? : Json → Option String
  | .string text => text
  | _ => none

/-- A truth value. -/
def bool? : Json → Option Bool
  | .bool value => some value
  | _ => none

/-- An integer. -/
def integer? : Json → Option Int
  | .number literal => literal.integer?
  | _ => none

/-- A signed integer of 64 bits. -/
def integer64? (j : Json) : Option Int :=
  j.integer?.bind fun n => if Number.isInteger64 n then some n else none

/-- A natural number below `bound`. -/
def natural? (bound : Nat) (j : Json) : Option Nat :=
  j.integer?.bind fun n => if 0 ≤ n ∧ n.toNat < bound then some n.toNat else none

/-- A double. -/
def binary64? : Json → Option Binary64
  | .number literal => literal.toBinary64?
  | _ => none

/-- A pair of values, given as an array of two items. -/
def pair? (item : Json → Option α) : Json → Option (α × α)
  | .array [first, second] =>
    match item first, item second with
    | some a, some b => some (a, b)
    | _, _ => none
  | _ => none

/-! ### Lists and dictionaries -/

/-- All items read, if each of them can be. -/
def items? (item : β → Option α) : List β → Option (List α)
  | [] => some []
  | b :: bs =>
    match item b, items? item bs with
    | some a, some as => some (a :: as)
    | _, _ => none

/-- A list, given as an array. -/
def list? (item : Json → Option α) : Json → Option (List α)
  | .array items => items? item items
  | _ => none

/-- A name with its value. -/
def namedValue? (value : Json → Option α) : Option String × Json → Option (String × α)
  | (some name, j) => (value j).map (name, ·)
  | (none, _) => none

/-- A dictionary, given as an object. -/
def dictionary? (value : Json → Option α) : Json → Option (Dictionary α)
  | .object members => (items? (namedValue? value) members).map Dictionary.ofList
  | _ => none

/-! ### Records -/

/-- The form of a record: the names of its fields in order, how many of them the form by position
must have at least, and whether other names are refused. -/
structure RecordShape where
  names : List String
  least : Nat
  closed : Bool

/-- The documents given for the fields of a record. -/
abbrev Members := String → Option Json

/-- The document under a name among an object's members. -/
def memberNamed (members : List (Option String × Json)) (name : String) : Option Json :=
  members.lookup (some name)

/-- Whether the members of an object suit a shape: each name has a text, none of the shape's names
is given twice, and in a closed shape there are no others. -/
def RecordShape.suits (shape : RecordShape) (members : List (Option String × Json)) : Bool :=
  members.all (fun m => m.1.isSome) &&
  shape.names.all (fun name => decide ((members.filter fun m => m.1 = some name).length ≤ 1)) &&
  (!shape.closed || members.all fun m => shape.names.any fun name => m.1 = some name)

/-- The documents of a record's fields. -/
def RecordShape.members? (shape : RecordShape) : Json → Option Members
  | .object members => if shape.suits members then some (memberNamed members) else none
  | .array items =>
    if shape.least ≤ items.length ∧ items.length ≤ shape.names.length then
      some fun name => (shape.names.zip items).lookup name
    else none
  | _ => none

/-- A field that must be there. -/
def required (read : Json → Option α) : Option Json → Option α
  | some j => read j
  | none => none

/-- A field that may be left out or be `null`. -/
def optional (read : Json → Option α) : Option Json → Option (Option α)
  | some .null => some none
  | some j => (read j).map some
  | none => some none

/-- A field that may be left out but not be `null`. -/
def defaulted (value : α) (read : Json → Option α) : Option Json → Option α
  | some j => read j
  | none => some value

/-! ### Writing -/

/-- The number of a finite double. Any other double is written as `null`. -/
def ofBinary64 (x : Binary64) : Json := (x.toDecimal?.map Json.number).getD .null

/-- The array of a list. -/
def ofList (item : α → Json) (items : List α) : Json := .array (items.map item)

/-- The object of a dictionary, its names ascending. -/
def ofDictionary (value : α → Json) (d : Dictionary α) : Json :=
  ofMembers (d.entries.map fun e => (e.1, value e.2))

end SectionChunks.Json
