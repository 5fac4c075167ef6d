import SectionChunks.Element.Basic
import SectionChunks.Json.Record
import SectionChunks.Json.Parse

/-! # Elements in JSON

An element is a record of its kind, its text and its metadata. When it is read, the text and the
metadata may be left out, any field of the metadata may be left out or be `null`, and fields with
other names are passed over. When it is written, absent metadata fields are left out. A floating
point number that is not finite is written as `null`, which no number is read from.

* `Metadata.ofJson?`, `Metadata.toJson`: reading and writing metadata.
* `Element.ofJson?`, `Element.toJson`: reading and writing elements. -/

namespace SectionChunks

open Json

/-! ### Regex matches and coordinates -/

namespace RegexMatch

/-- The form of a match. -/
def shape : RecordShape := ⟨["text", "start", "end"], 3, false⟩

/-- Reads a match. -/
def ofJson? (j : Json) : Option RegexMatch := do
  let members ← shape.members? j
  let text ← required text? (members "text")
  let start ← required (natural? Number.naturalBound64) (members "start")
  let stop ← required (natural? Number.naturalBound64) (members "end")
  return ⟨text, start, stop⟩

/-- Writes a match. -/
def toJson (m : RegexMatch) : Json :=
  ofMembers [("text", ofString m.text), ("start", ofNat m.start), ("end", ofNat m.stop)]

end RegexMatch

namespace Coordinates

/-- The form of coordinates. -/
def shape : RecordShape := ⟨["points", "system", "layout_width", "layout_height"], 1, false⟩

/-- Reads coordinates. -/
def ofJson? (j : Json) : Option Coordinates := do
  let members ← shape.members? j
  let points ← required (list? (pair? binary64?)) (members "points")
  let system ← optional text? (members "system")
  let layoutWidth ← optional binary64? (members "layout_width")
  let layoutHeight ← optional binary64? (members "layout_height")
  return ⟨points, system, layoutWidth, layoutHeight⟩

/-- Writes a point. -/
def pointToJson (p : Binary64 × Binary64) : Json := .array [ofBinary64 p.1, ofBinary64 p.2]

/-- Writes coordinates. -/
def toJson (c : Coordinates) : Json :=
  ofMembers <|
    [("points", ofList pointToJson c.points)] ++
    (c.system.map fun s => ("system", ofString s)).toList ++
    (c.layoutWidth.map fun x => ("layout_width", ofBinary64 x)).toList ++
    (c.layoutHeight.map fun x => ("layout_height", ofBinary64 x)).toList

end Coordinates

/-! ### Metadata -/

namespace FieldType

/-- Reads a value of a type. -/
def read? : (t : FieldType) → Json → Option t.Value
  | .text => text?
  | .integer => fun j => (natural? Number.naturalBound32 j).map UInt32.ofNat
  | .float => binary64?
  | .flag => bool?
  | .list => list? text?
  | .coordinates => Coordinates.ofJson?
  | .regex => dictionary? (list? RegexMatch.ofJson?)

/-- Writes a value of a type. -/
def write : (t : FieldType) → t.Value → Json
  | .text => ofString
  | .integer => fun n => Json.ofNat n.toNat
  | .float => ofBinary64
  | .flag => .bool
  | .list => ofList ofString
  | .coordinates => Coordinates.toJson
  | .regex => ofDictionary (ofList RegexMatch.toJson)

end FieldType

namespace Metadata

/-- The form of metadata: all fields, in the order of the schema. -/
def shape : RecordShape := ⟨Field.all.map Field.name, Field.all.length, false⟩

/-- Reads one field from a record's members. -/
def readField? (members : Members) (f : Field) : Option (Option f.Value) :=
  optional f.type.read? (members f.name)

/-- Reads all fields from a record's members. -/
def ofMembers? (members : Members) : Option Metadata :=
  if Field.all.all fun f => (readField? members f).isSome then
    some (ofFields fun f => (readField? members f).join)
  else none

/-- Reads metadata. -/
def ofJson? (j : Json) : Option Metadata := (shape.members? j).bind ofMembers?

/-- Writes metadata. -/
def toJson (m : Metadata) : Json :=
  ofMembers (Field.all.filterMap fun f => (m.get f).map fun v => (f.name, f.type.write v))

end Metadata

/-! ### Elements -/

/-- Reads a kind: its name, or an object with the name as its only member and `null` under it. -/
def Kind.ofJson? : Json → Option Kind
  | .string s => s.map Kind.ofName
  | .object [(some s, .null)] => some (Kind.ofName s)
  | _ => none

namespace Element

/-- The form of an element. -/
def shape : RecordShape := ⟨["type", "text", "metadata"], 1, false⟩

/-- Reads an element. -/
def ofJson? (j : Json) : Option Element := do
  let members ← shape.members? j
  let kind ← required Kind.ofJson? (members "type")
  let text ← defaulted "" text? (members "text")
  let metadata ← defaulted Metadata.empty Metadata.ofJson? (members "metadata")
  return ⟨kind, text, metadata⟩

/-- Writes an element. -/
def toJson (e : Element) : Json :=
  ofMembers [("type", ofString e.kind.name), ("text", ofString e.text),
    ("metadata", e.metadata.toJson)]

/-- Reads a list of elements. -/
def listOfJson? : Json → Option (List Element) := list? ofJson?

/-- Writes a list of elements. -/
def listToJson : List Element → Json := ofList toJson

/-- Reads a list of elements from the text of a document. -/
def parseList? (text : String) : Option (List Element) := (Json.parse? text).bind listOfJson?

end Element

end SectionChunks
