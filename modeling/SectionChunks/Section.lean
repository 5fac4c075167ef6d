import SectionChunks.Gathering
import SectionChunks.Options.Basic

/-! # Sections

A document is divided into sections. An element of running text goes on with the section of the
element before it unless it is a title, belongs to another section by its metadata, stands on
another page where sections end with the page, follows a section that is long enough, or has no room
left. A table always stands alone.

* `SectionRules.joins`: whether an element goes on with the open section.
* `sections`: the division of a document. -/

namespace SectionChunks

/-- The rules of dividing a document. -/
structure SectionRules where
  multipageSections : Bool
  newAfter : Nat
  maxCharacters : Nat
  deriving DecidableEq

/-- The rules that options give. -/
def Options.sectionRules (o : Options) : SectionRules :=
  ⟨o.multipageSections, o.newAfter, o.maxCharacters⟩

namespace SectionRules

/-- Whether two neighbouring elements stand in one place of the document. -/
def samePlace (rules : SectionRules) (before after : Element) : Bool :=
  decide (before.metadata.sectionName = after.metadata.sectionName) &&
  (rules.multipageSections ||
    decide (before.metadata.pageNumber = after.metadata.pageNumber))

/-- Whether an element goes on with the open section. -/
def joins (rules : SectionRules) (acc : Accumulator Element) (e : Element) : Bool :=
  decide (e.kind ≠ .title) &&
  acc.pieces.back?.all (rules.samePlace · e) &&
  decide (acc.textLength < rules.newAfter) &&
  acc.fits e

end SectionRules

/-- The sections of a document. -/
def sections (rules : SectionRules) (elements : List Element) : List PreChunk :=
  (gather rules.joins rules.maxCharacters (elements.map Element.block)).map (Block.map TextGroup.mk)

end SectionChunks
