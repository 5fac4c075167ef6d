import SectionChunks.Accumulator

/-! # Consolidating metadata

The metadata of several elements is consolidated into one record, field by field. How the values of
a field are merged depends on the field only. Lists that come to nothing when they are put together
leave their field absent.

* `Field.strategy`: how the values of a field are merged.
* `collect`: the values of each field over several records.
* `consolidate`: the merged record; the regex matches are merged beforehand, since they move with
  their texts. -/

namespace SectionChunks

/-! ### Strategies -/

/-- How the values of a field are merged. -/
inductive Strategy where
  /-- The first value. -/
  | first
  /-- The items of all lists. -/
  | concatenate
  /-- The items of all lists, each at its first place only. -/
  | distinct
  /-- The matches moved to their places in the joined text. -/
  | regex
  /-- Nothing: the field says something about one element only. -/
  | drop
  deriving DecidableEq

/-- The name of a strategy. -/
def Strategy.name : Strategy → String
  | first => "First"
  | concatenate => "ListConcatenate"
  | distinct => "ListUnique"
  | regex => "Regex"
  | drop => "Drop"

/-- How the values of a field are merged. -/
def Field.strategy : Field → Strategy
  | filename | fileDirectory | filetype | lastModified | url | attachedToFilename | pageNumber
  | pageName | sectionName | subject | textAsHtml | sentFrom | sentTo => .first
  | emphasizedTextContents | emphasizedTextTags | linkTexts | linkUrls => .concatenate
  | languages => .distinct
  | regexMetadata => .regex
  | categoryDepth | detectionClassProb | coordinates | parentId | imagePath | detectionOrigin
  | headerFooterType | isContinuation => .drop

/-! ### Values by field -/

/-- The values collected for each field. A field may be there without any value. -/
abbrev CollectedValues := Field → Option (List FieldValue)

/-- The values of each field over several records; a field that no record has is not there. -/
def collect (records : List Metadata) : CollectedValues := fun f =>
  match records.filterMap (·.value? f) with
  | [] => none
  | values => some values

/-- The fields that are there, in the order of the schema, with their values. -/
def CollectedValues.entries (values : CollectedValues) : List (Field × List FieldValue) :=
  Field.all.filterMap fun f => (values f).map (f, ·)

/-! ### Merging -/

/-- A list as a value, unless it is empty. -/
def listValue? (items : List String) : Option FieldValue :=
  if items.isEmpty then none else some (.list items)

/-- The merged value of a field. The regex matches were merged beforehand, and they are at hand
until they are used. -/
def Strategy.merge (s : Strategy) (regex : Option RegexMap) (values : List FieldValue) :
    Option FieldValue :=
  match s with
  | .first => values.head?
  | .concatenate => listValue? (values.flatMap FieldValue.items)
  | .distinct => listValue? (values.flatMap FieldValue.items).eraseDups
  | .regex => (regex.filter fun r => !r.isEmpty).map .regex
  | .drop => none

/-- A record in the making, with the regex matches as long as they are not used. -/
structure Merging where
  record : Metadata
  regex : Option RegexMap

namespace Merging

/-- Nothing merged yet. -/
def start (regex : RegexMap) : Merging := ⟨.empty, some regex⟩

/-- The record with a merged value in its field. A value of the wrong type is passed over. -/
def put (m : Merging) (f : Field) : Option FieldValue → Metadata
  | none => m.record
  | some v => (m.record.set f v).2

/-- One more field merged. -/
def step (m : Merging) (entry : Field × List FieldValue) : Merging where
  record := m.put entry.1 (entry.1.strategy.merge m.regex entry.2)
  regex := if entry.1.strategy = .regex then none else m.regex

end Merging

/-- The merged record: the fields that are there are merged one after the other. -/
def consolidate (values : CollectedValues) (regex : RegexMap) : Metadata :=
  (values.entries.foldl Merging.step (.start regex)).record

/-! ### The metadata of a group -/

/-- The elements that have a text, each with the place of its text in the joined text, of which
`length` characters are there already. -/
def placedFrom (length : Nat) : List Element → List (Nat × Element)
  | [] => []
  | e :: rest =>
    if e.textLength = 0 then placedFrom length rest
    else
      let place := if 0 < length then length + 2 else length
      (place, e) :: placedFrom (place + e.textLength) rest

namespace TextGroup

/-- The joined text of the elements. -/
def joinedText (g : TextGroup) : String := Text.joined (g.elements.map (·.text))

/-- The values of each metadata field over the elements. -/
def values (g : TextGroup) : CollectedValues := collect (g.elements.map (·.metadata))

/-- The elements that have a text, with their places in the joined text. -/
def placed (g : TextGroup) : List (Nat × Element) := placedFrom 0 g.elements

/-- The matches of all elements that have a text, moved to their places in the joined text. -/
def regexMatches (g : TextGroup) : RegexMap :=
  RegexMap.union (g.placed.filterMap fun p => p.2.metadata.regexMetadata.map (p.1, ·))

/-- The merged metadata of the elements. -/
def metadata (g : TextGroup) : Metadata := consolidate g.values g.regexMatches

end TextGroup

end SectionChunks
