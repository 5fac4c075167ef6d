import SectionChunks.Element.Kind
import SectionChunks.Element.Metadata

/-! # Elements

An element is one piece of a partitioned document: its kind, its text and its metadata. -/

namespace SectionChunks

/-- A piece of a partitioned document. -/
structure Element where
  kind : Kind
  text : String
  metadata : Metadata
  deriving DecidableEq

namespace Element

/-- How many characters an element's text has. -/
def textLength (e : Element) : Nat := e.text.length

/-- An element without metadata. -/
def ofText (kind : Kind) (text : String) : Element := ⟨kind, text, .empty⟩

/-- A title. -/
def title (text : String) : Element := ofText .title text

/-- A text of no particular kind. -/
def plainText (text : String) : Element := ofText .text text

/-- A paragraph. -/
def narrativeText (text : String) : Element := ofText .narrativeText text

/-- An item of a list. -/
def listItem (text : String) : Element := ofText .listItem text

/-- A table. -/
def table (text : String) : Element := ofText .table text

/-- A check box, which has no text. -/
def checkBox : Element := ofText .checkBox ""

/-- A page break, which has no text. -/
def pageBreak : Element := ofText .pageBreak ""

/-- The element with other metadata. -/
def withMetadata (e : Element) (metadata : Metadata) : Element := { e with metadata }

end Element

end SectionChunks
