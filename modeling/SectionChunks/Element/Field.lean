import SectionChunks.Element.RegexMatch
import SectionChunks.Number.Binary64

/-! # Metadata fields

The set of fields that an element's metadata can have is closed. Each field has a name and a type of
values. Beside plain values there are two records: the matches of patterns and the coordinates of an
element.

* `Coordinates`: where an element stands on its page.
* `Field.all`: the fields in the order of the schema, each once (`mem_all`, `nodup_all`).
* `Field.ofName?`: the field of a name; `ofName?_name` and `name_of_ofName?` make it the exact
  inverse of `Field.name`.
* `FieldValue`: a value of any of the types, as it is held before it is known to suit a field. -/

namespace SectionChunks

/-! ### Types of values -/

/-- The outline of an element on its page. `system` names the space of the coordinates, and the
layout measures give its extent. -/
structure Coordinates where
  points : List (Binary64 × Binary64)
  system : Option String
  layoutWidth : Option Binary64
  layoutHeight : Option Binary64
  deriving DecidableEq

/-- The types that a field's values can have. -/
inductive FieldType where
  | text
  | integer
  | float
  | flag
  | list
  | coordinates
  | regex
  deriving DecidableEq

namespace FieldType

/-- The values of a type. -/
@[reducible]
def Value : FieldType → Type
  | text => String
  | integer => UInt32
  | float => Binary64
  | flag => Bool
  | list => List String
  | coordinates => Coordinates
  | regex => RegexMap

/-- The name of a type. -/
def name : FieldType → String
  | text => "text"
  | integer => "integer"
  | float => "float"
  | flag => "flag"
  | list => "list"
  | coordinates => "coordinates"
  | regex => "regex"

instance : (t : FieldType) → DecidableEq t.Value
  | text => inferInstanceAs (DecidableEq String)
  | integer => inferInstanceAs (DecidableEq UInt32)
  | float => inferInstanceAs (DecidableEq Binary64)
  | flag => inferInstanceAs (DecidableEq Bool)
  | list => inferInstanceAs (DecidableEq (List String))
  | coordinates => inferInstanceAs (DecidableEq Coordinates)
  | regex => inferInstanceAs (DecidableEq RegexMap)

end FieldType

/-- A value of one of the types. -/
inductive FieldValue where
  | text (value : String)
  | integer (value : UInt32)
  | float (value : Binary64)
  | flag (value : Bool)
  | list (value : List String)
  | coordinates (value : Coordinates)
  | regex (value : RegexMap)
  deriving DecidableEq

namespace FieldValue

/-- The type of a value. -/
def type : FieldValue → FieldType
  | text _ => .text
  | integer _ => .integer
  | float _ => .float
  | flag _ => .flag
  | list _ => .list
  | coordinates _ => .coordinates
  | regex _ => .regex

/-- A value of a known type. -/
def ofType : (t : FieldType) → t.Value → FieldValue
  | .text, v => text v
  | .integer, v => integer v
  | .float, v => float v
  | .flag, v => flag v
  | .list, v => list v
  | .coordinates, v => coordinates v
  | .regex, v => regex v

/-- The value as one of the given type, if it is of that type. -/
def as? : (t : FieldType) → FieldValue → Option t.Value
  | .text, text v => some v
  | .integer, integer v => some v
  | .float, float v => some v
  | .flag, flag v => some v
  | .list, list v => some v
  | .coordinates, coordinates v => some v
  | .regex, regex v => some v
  | _, _ => none

/-- The items of a list, and none for a value of another type. -/
def items : FieldValue → List String
  | list v => v
  | _ => []

theorem type_ofType (t : FieldType) (v : t.Value) : (ofType t v).type = t := by
  cases t <;> rfl

theorem as?_ofType (t : FieldType) (v : t.Value) : (ofType t v).as? t = some v := by
  cases t <;> rfl

theorem as?_eq_some_iff {t : FieldType} {v : FieldValue} {w : t.Value} :
    v.as? t = some w ↔ v = ofType t w := by
  cases t <;> cases v <;> simp [as?, ofType]

theorem as?_isSome_iff {t : FieldType} {v : FieldValue} : (v.as? t).isSome ↔ v.type = t := by
  cases t <;> cases v <;> simp [as?, type]

end FieldValue

/-! ### Fields -/

/-- A field of an element's metadata. -/
inductive Field where
  | filename
  | fileDirectory
  | filetype
  | lastModified
  | url
  | attachedToFilename
  | pageNumber
  | pageName
  | sectionName
  | subject
  | textAsHtml
  | sentFrom
  | sentTo
  | emphasizedTextContents
  | emphasizedTextTags
  | linkTexts
  | linkUrls
  | languages
  | regexMetadata
  | categoryDepth
  | detectionClassProb
  | coordinates
  | parentId
  | imagePath
  | detectionOrigin
  | headerFooterType
  | isContinuation
  deriving DecidableEq

namespace Field

/-- All fields, in the order of the schema. -/
def all : List Field :=
  [filename, fileDirectory, filetype, lastModified, url, attachedToFilename, pageNumber,
    pageName, sectionName, subject, textAsHtml, sentFrom, sentTo, emphasizedTextContents,
    emphasizedTextTags, linkTexts, linkUrls, languages, regexMetadata, categoryDepth,
    detectionClassProb, coordinates, parentId, imagePath, detectionOrigin, headerFooterType,
    isContinuation]

/-- The name of a field. -/
def name : Field → String
  | filename => "filename"
  | fileDirectory => "file_directory"
  | filetype => "filetype"
  | lastModified => "last_modified"
  | url => "url"
  | attachedToFilename => "attached_to_filename"
  | pageNumber => "page_number"
  | pageName => "page_name"
  | sectionName => "section"
  | subject => "subject"
  | textAsHtml => "text_as_html"
  | sentFrom => "sent_from"
  | sentTo => "sent_to"
  | emphasizedTextContents => "emphasized_text_contents"
  | emphasizedTextTags => "emphasized_text_tags"
  | linkTexts => "link_texts"
  | linkUrls => "link_urls"
  | languages => "languages"
  | regexMetadata => "regex_metadata"
  | categoryDepth => "category_depth"
  | detectionClassProb => "detection_class_prob"
  | coordinates => "coordinates"
  | parentId => "parent_id"
  | imagePath => "image_path"
  | detectionOrigin => "detection_origin"
  | headerFooterType => "header_footer_type"
  | isContinuation => "is_continuation"

/-- The type of a field's values. -/
@[reducible]
def type : Field → FieldType
  | filename => .text
  | fileDirectory => .text
  | filetype => .text
  | lastModified => .text
  | url => .text
  | attachedToFilename => .text
  | pageNumber => .integer
  | pageName => .text
  | sectionName => .text
  | subject => .text
  | textAsHtml => .text
  | sentFrom => .list
  | sentTo => .list
  | emphasizedTextContents => .list
  | emphasizedTextTags => .list
  | linkTexts => .list
  | linkUrls => .list
  | languages => .list
  | regexMetadata => .regex
  | categoryDepth => .integer
  | detectionClassProb => .float
  | coordinates => .coordinates
  | parentId => .text
  | imagePath => .text
  | detectionOrigin => .text
  | headerFooterType => .text
  | isContinuation => .flag

/-- The values of a field. -/
abbrev Value (f : Field) : Type := f.type.Value

/-- The field of a name. -/
def ofName? (name : String) : Option Field := all.find? fun f => f.name = name

/-! ### The schema -/

theorem mem_all (f : Field) : f ∈ all := by
  cases f <;> decide

theorem nodup_all : all.Nodup := by
  decide

theorem ofName?_name (f : Field) : ofName? f.name = some f := by
  cases f <;> decide

theorem name_of_ofName? {name : String} {f : Field} (h : ofName? name = some f) :
    f.name = name := by
  simpa using List.find?_some h

theorem name_injective {f g : Field} (h : f.name = g.name) : f = g := by
  have := ofName?_name f
  rw [h, ofName?_name g] at this
  exact (Option.some.inj this).symm

end Field

end SectionChunks
