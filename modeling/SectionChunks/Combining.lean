import SectionChunks.Gathering
import SectionChunks.Options.Basic

/-! # Combining short sections

Short neighbouring groups of text are combined. A group joins those before it as long as these are
shorter than a threshold and there is room for it. Tables are never combined.

* `CombineRules.joins`: whether a group joins those before it.
* `TextGroup.append`, `TextGroup.concat`: two groups as one, and any number of them.
* `combine`: the pre-chunks after combining. -/

namespace SectionChunks

/-- The rules of combining. -/
structure CombineRules where
  combineUnder : Nat
  maxCharacters : Nat
  deriving DecidableEq

/-- The rules that options give. -/
def Options.combineRules (o : Options) : CombineRules := ⟨o.combineUnder, o.maxCharacters⟩

/-- Whether a group joins those collected before it. -/
def CombineRules.joins (rules : CombineRules) (acc : Accumulator TextGroup) (g : TextGroup) :
    Bool :=
  decide (acc.textLength < rules.combineUnder) && acc.fits g

/-- A group and another one behind it. -/
def TextGroup.append (g h : TextGroup) : TextGroup := ⟨g.elements ++ h.elements⟩

instance : Append TextGroup := ⟨TextGroup.append⟩

/-- Several groups as one. -/
def TextGroup.concat (groups : List TextGroup) : TextGroup := ⟨groups.flatMap (·.elements)⟩

/-- The pre-chunks with short groups combined. -/
def combine (rules : CombineRules) (preChunks : List PreChunk) : List PreChunk :=
  (gather rules.joins rules.maxCharacters preChunks).map (Block.map TextGroup.concat)

end SectionChunks
