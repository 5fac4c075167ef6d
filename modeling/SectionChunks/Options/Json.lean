import SectionChunks.Options.Basic
import SectionChunks.Json.Parse
import SectionChunks.Json.Record

/-! # Options in JSON

A layer of options is a record whose fields may each be left out or be `null`. Other fields are
refused, so that a misspelt option does not go unnoticed. -/

namespace SectionChunks.OptionLayer

open Json

/-- The form of a layer. -/
def shape : RecordShape :=
  ⟨["max_characters", "new_after_n_chars", "combine_text_under_n_chars", "multipage_sections"],
    4, true⟩

/-- Reads a layer. -/
def ofJson? (j : Json) : Option OptionLayer := do
  let members ← shape.members? j
  let maxCharacters ← optional integer64? (members "max_characters")
  let newAfter ← optional integer64? (members "new_after_n_chars")
  let combineUnder ← optional integer64? (members "combine_text_under_n_chars")
  let multipageSections ← optional bool? (members "multipage_sections")
  return ⟨maxCharacters, newAfter, combineUnder, multipageSections⟩

/-- Reads a layer from the text of a document. -/
def parse? (text : String) : Option OptionLayer := (Json.parse? text).bind ofJson?

end SectionChunks.OptionLayer
