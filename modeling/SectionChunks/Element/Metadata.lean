import SectionChunks.Element.Field

/-! # Metadata

The metadata of an element or chunk is a record whose fields may each be absent. Beside the
projections there is access by field: `get` and `set`.

* `Metadata.ofFields`: the record with given field values; `get_ofFields` and `ofFields_get` say
  that a record and its values by field are the same thing.
* `Metadata.set`: puts a value into a field, unless the value's type is not the field's. The record
  is passed along, whatever comes of it.
* `Metadata.set?`: the record after a value was put into a field.
* `Metadata.populated`: the fields that are present with their values, in the schema's order. -/

namespace SectionChunks

/-- What is known about an element or chunk beside its text. -/
structure Metadata where
  filename : Option String := none
  fileDirectory : Option String := none
  filetype : Option String := none
  lastModified : Option String := none
  url : Option String := none
  attachedToFilename : Option String := none
  pageNumber : Option UInt32 := none
  pageName : Option String := none
  sectionName : Option String := none
  subject : Option String := none
  textAsHtml : Option String := none
  sentFrom : Option (List String) := none
  sentTo : Option (List String) := none
  emphasizedTextContents : Option (List String) := none
  emphasizedTextTags : Option (List String) := none
  linkTexts : Option (List String) := none
  linkUrls : Option (List String) := none
  languages : Option (List String) := none
  regexMetadata : Option RegexMap := none
  categoryDepth : Option UInt32 := none
  detectionClassProb : Option Binary64 := none
  coordinates : Option Coordinates := none
  parentId : Option String := none
  imagePath : Option String := none
  detectionOrigin : Option String := none
  headerFooterType : Option String := none
  isContinuation : Option Bool := none
  deriving DecidableEq

namespace Metadata

/-- The record without any value. -/
def empty : Metadata := {}

instance : Inhabited Metadata := ⟨empty⟩

/-- The value of a field. -/
def get (m : Metadata) : (f : Field) → Option f.Value
  | .filename => m.filename
  | .fileDirectory => m.fileDirectory
  | .filetype => m.filetype
  | .lastModified => m.lastModified
  | .url => m.url
  | .attachedToFilename => m.attachedToFilename
  | .pageNumber => m.pageNumber
  | .pageName => m.pageName
  | .sectionName => m.sectionName
  | .subject => m.subject
  | .textAsHtml => m.textAsHtml
  | .sentFrom => m.sentFrom
  | .sentTo => m.sentTo
  | .emphasizedTextContents => m.emphasizedTextContents
  | .emphasizedTextTags => m.emphasizedTextTags
  | .linkTexts => m.linkTexts
  | .linkUrls => m.linkUrls
  | .languages => m.languages
  | .regexMetadata => m.regexMetadata
  | .categoryDepth => m.categoryDepth
  | .detectionClassProb => m.detectionClassProb
  | .coordinates => m.coordinates
  | .parentId => m.parentId
  | .imagePath => m.imagePath
  | .detectionOrigin => m.detectionOrigin
  | .headerFooterType => m.headerFooterType
  | .isContinuation => m.isContinuation

/-- The record whose fields have the given values. -/
def ofFields (value : (f : Field) → Option f.Value) : Metadata where
  filename := value .filename
  fileDirectory := value .fileDirectory
  filetype := value .filetype
  lastModified := value .lastModified
  url := value .url
  attachedToFilename := value .attachedToFilename
  pageNumber := value .pageNumber
  pageName := value .pageName
  sectionName := value .sectionName
  subject := value .subject
  textAsHtml := value .textAsHtml
  sentFrom := value .sentFrom
  sentTo := value .sentTo
  emphasizedTextContents := value .emphasizedTextContents
  emphasizedTextTags := value .emphasizedTextTags
  linkTexts := value .linkTexts
  linkUrls := value .linkUrls
  languages := value .languages
  regexMetadata := value .regexMetadata
  categoryDepth := value .categoryDepth
  detectionClassProb := value .detectionClassProb
  coordinates := value .coordinates
  parentId := value .parentId
  imagePath := value .imagePath
  detectionOrigin := value .detectionOrigin
  headerFooterType := value .headerFooterType
  isContinuation := value .isContinuation

@[simp]
theorem get_ofFields (value : (f : Field) → Option f.Value) (f : Field) :
    (ofFields value).get f = value f := by
  cases f <;> rfl

@[simp]
theorem ofFields_get (m : Metadata) : ofFields m.get = m := rfl

theorem ext_get {m n : Metadata} (h : ∀ f, m.get f = n.get f) : m = n := by
  rw [← ofFields_get m, ← ofFields_get n, funext h]

/-! ### Changing a field -/

/-- Puts a value into a field, or makes the field absent. -/
def put (m : Metadata) (f : Field) (value : Option f.Value) : Metadata :=
  ofFields fun g => if h : f = g then h ▸ value else m.get g

theorem get_put_self (m : Metadata) (f : Field) (value : Option f.Value) :
    (m.put f value).get f = value := by
  simp [put]

theorem get_put_of_ne (m : Metadata) {f g : Field} (value : Option f.Value) (h : f ≠ g) :
    (m.put f value).get g = m.get g := by
  simp [put, h]

/-- A value was offered to a field of another type. -/
structure TypeMismatch where
  field : Field
  found : FieldType
  deriving DecidableEq

/-- What is told about a value of the wrong type. -/
def TypeMismatch.message (e : TypeMismatch) : String :=
  "metadata field '" ++ e.field.name ++ "' cannot hold a " ++ e.found.name ++ " value"

/-- Puts a value of any type into a field, if the field can hold it: what comes of it, and the
record after it. -/
def set (m : Metadata) (f : Field) (value : FieldValue) : Except TypeMismatch Unit × Metadata :=
  match value.as? f.type with
  | some v => (.ok (), m.put f (some v))
  | none => (.error ⟨f, value.type⟩, m)

/-- The record after a value was put into a field, unless the value is refused. -/
def set? (m : Metadata) (f : Field) (value : FieldValue) : Except TypeMismatch Metadata :=
  (m.set f value).1.map fun _ => (m.set f value).2

/-! ### All values -/

/-- The value of a field, with its type. -/
def value? (m : Metadata) (f : Field) : Option FieldValue :=
  (m.get f).map (FieldValue.ofType f.type)

/-- The fields that are present, in the order of the schema, with their values. -/
def populated (m : Metadata) : List (Field × FieldValue) :=
  Field.all.filterMap fun f => (m.value? f).map (f, ·)

end Metadata

end SectionChunks
