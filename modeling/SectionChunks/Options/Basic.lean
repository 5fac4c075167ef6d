import SectionChunks.Number.Decimal

/-! # Chunking options

Three limits and a flag govern chunking. They are set in layers, each of which may leave any of them
open, and are resolved once all layers are merged.

* `Options`: resolved options. The hard limit is positive, and `combineUnder ≤ newAfter ≤
  maxCharacters`.
* `OptionLayer.merge`: what a later layer sets takes the place of what an earlier one set.
* `OptionLayer.resolve`: checks the limits that are set and fills in the others. -/

namespace SectionChunks

/-- Resolved options. -/
structure Options where
  /-- The most characters a chunk may have. -/
  maxCharacters : Nat
  /-- Once a section's text is this long, it takes no further element. -/
  newAfter : Nat
  /-- A section shorter than this is combined with those after it. -/
  combineUnder : Nat
  /-- Whether a section may go on over a page break. -/
  multipageSections : Bool
  maxCharacters_pos : 0 < maxCharacters
  newAfter_le : newAfter ≤ maxCharacters
  combineUnder_le : combineUnder ≤ newAfter
  deriving DecidableEq

/-! ### Limits -/

/-- A limit among the options. -/
inductive Limit where
  | maxCharacters
  | newAfter
  | combineUnder
  deriving DecidableEq

namespace Limit

/-- The name of a limit. -/
def name : Limit → String
  | maxCharacters => "max_characters"
  | newAfter => "new_after_n_chars"
  | combineUnder => "combine_text_under_n_chars"

/-- The least value of a limit. The hard limit leaves room for a character. -/
def least : Limit → Int
  | maxCharacters => 1
  | newAfter => 0
  | combineUnder => 0

/-- What is asked of a limit, in words. -/
def constraint : Limit → String
  | maxCharacters => "> 0"
  | newAfter => ">= 0"
  | combineUnder => ">= 0"

end Limit

/-- A limit was set to a value that it cannot have. -/
structure InvalidLimit where
  limit : Limit
  value : Int
  deriving DecidableEq

/-- What is told about an invalid limit. -/
def InvalidLimit.message (e : InvalidLimit) : String :=
  "'" ++ e.limit.name ++ "' argument must be " ++ e.limit.constraint ++ ", got " ++
    String.ofList (Decimal.ofInt e.value).chars

/-! ### Layers -/

/-- Options as given in one place, each of them set or left open. -/
structure OptionLayer where
  maxCharacters : Option Int := none
  newAfter : Option Int := none
  combineUnder : Option Int := none
  multipageSections : Option Bool := none
  deriving DecidableEq

namespace OptionLayer

/-- The layer that leaves everything open. -/
def empty : OptionLayer := {}

/-- What `later` sets, and what it leaves open as in `base`. -/
def merge (base later : OptionLayer) : OptionLayer where
  maxCharacters := later.maxCharacters.or base.maxCharacters
  newAfter := later.newAfter.or base.newAfter
  combineUnder := later.combineUnder.or base.combineUnder
  multipageSections := later.multipageSections.or base.multipageSections

/-- Layers merged in order, the last one on top. -/
def mergeAll (layers : List OptionLayer) : OptionLayer := layers.foldl merge empty

/-- The hard limit when none is set. -/
def defaultMaxCharacters : Int := 500

/-- A soft limit as a natural number, if it is set. -/
def check (limit : Limit) : Option Int → Except InvalidLimit (Option Nat)
  | none => .ok none
  | some n => if n < limit.least then .error ⟨limit, n⟩ else .ok (some n.toNat)

/-- Options with the given limits. A soft limit left open is the hard limit, and both are capped so
that they are ordered. -/
def ofLimits (max : Nat) (newAfter combineUnder : Option Nat) (multipage : Bool)
    (h : 0 < max) : Options where
  maxCharacters := max
  newAfter := min (newAfter.getD max) max
  combineUnder := min (combineUnder.getD max) (min (newAfter.getD max) max)
  multipageSections := multipage
  maxCharacters_pos := h
  newAfter_le := Nat.min_le_right _ _
  combineUnder_le := Nat.min_le_right _ _

/-- The options of a layer. The hard limit is checked first, then the one for combining. -/
def resolve (layer : OptionLayer) : Except InvalidLimit Options :=
  let max := layer.maxCharacters.getD defaultMaxCharacters
  if h : max < Limit.maxCharacters.least then .error ⟨.maxCharacters, max⟩
  else do
    let combineUnder ← check .combineUnder layer.combineUnder
    let newAfter ← check .newAfter layer.newAfter
    return ofLimits max.toNat newAfter combineUnder (layer.multipageSections.getD true)
      (by simp only [Limit.least] at h; omega)

end OptionLayer

end SectionChunks
