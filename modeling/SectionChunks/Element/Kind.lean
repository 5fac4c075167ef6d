/-! # Kinds of elements

A partitioned document is a row of elements, each of a kind. Two kinds matter to chunking: a title
starts a section, and a table always stands alone. All names that are no kind's name stand for the
unknown kind.

* `Kind.name`, `Kind.ofName`: the kinds by name.
* `Kind.ofName_name`: a kind is found under its name. -/

namespace SectionChunks

/-- What an element of a document is. -/
inductive Kind where
  | title
  | narrativeText
  | listItem
  | checkBox
  | uncategorizedText
  | text
  | header
  | footer
  | figureCaption
  | address
  | emailAddress
  | formula
  | image
  | table
  | pageBreak
  | pageNumber
  | codeSnippet
  | footnote
  | formKeysValues
  | unknown
  deriving DecidableEq

namespace Kind

/-- All kinds. -/
def all : List Kind :=
  [title, narrativeText, listItem, checkBox, uncategorizedText, text, header, footer,
    figureCaption, address, emailAddress, formula, image, table, pageBreak, pageNumber,
    codeSnippet, footnote, formKeysValues, unknown]

/-- The name of a kind. -/
def name : Kind → String
  | title => "Title"
  | narrativeText => "NarrativeText"
  | listItem => "ListItem"
  | checkBox => "CheckBox"
  | uncategorizedText => "UncategorizedText"
  | text => "Text"
  | header => "Header"
  | footer => "Footer"
  | figureCaption => "FigureCaption"
  | address => "Address"
  | emailAddress => "EmailAddress"
  | formula => "Formula"
  | image => "Image"
  | table => "Table"
  | pageBreak => "PageBreak"
  | pageNumber => "PageNumber"
  | codeSnippet => "CodeSnippet"
  | footnote => "Footnote"
  | formKeysValues => "FormKeysValues"
  | unknown => "Unknown"

/-- The kind of a name, unknown for every other name. -/
def ofName (name : String) : Kind := (all.find? fun k => k.name = name).getD unknown

theorem ofName_name (k : Kind) : ofName k.name = k := by
  cases k <;> decide

end Kind

end SectionChunks
