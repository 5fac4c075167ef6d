/-! # Double-precision numbers

A double is finite, infinite or no number at all. A finite one is a sign and a magnitude. The
magnitudes are counted in increasing order: rank `0` is zero, and each rank is followed by the next
larger double. A magnitude is a natural number of units of `2 ^ -1074`, so all arithmetic on doubles
is exact arithmetic on natural numbers followed by one rounding.

Only finite doubles have a decimal: the others are written as `null` and are never read. So what is
proved of reading what was written asks for doubles that are read back, which are finite, and what
is proved of `null` in metadata names the doubles that are not.

* `Magnitude.units`: the value of a magnitude.
* `Magnitude.nearest?`: the double nearest to a quotient of natural numbers, of two equally near
  ones the one of even rank; nothing when the quotient is too large for a double. -/

namespace SectionChunks

/-- How many magnitudes the finite doubles have. -/
def Binary64.ranks : Nat := 2047 * Nat.pow 2 52

/-- The magnitude of a finite double, by its place among all of them. -/
abbrev Magnitude := Fin Binary64.ranks

/-- A double. Zero and infinity have two signs. What is no number is one double, whatever its bits:
nothing tells two of them apart. -/
inductive Binary64 where
  | finite (negative : Bool) (magnitude : Magnitude)
  | infinite (negative : Bool)
  | nan
  deriving DecidableEq

/-- Whether a double is finite. -/
def Binary64.isFinite : Binary64 → Bool
  | finite .. => true
  | infinite _ | nan => false

namespace Magnitude

/-- How many ranks follow each other at one spacing. -/
def runLength : Nat := Nat.pow 2 52

/-- The value of rank `r` in units of `2 ^ -1074`. Each run of ranks above the first two has
twice the spacing of the run before it. -/
def unitsAt (r : Nat) : Nat :=
  if r < runLength then r else (runLength + r % runLength) * Nat.pow 2 (r / runLength - 1)

/-- The value of a magnitude in units of `2 ^ -1074`. -/
def units (m : Magnitude) : Nat := unitsAt m.val

/-- The rank of zero. -/
def zero : Magnitude := ⟨0, by decide⟩

/-- `num / den` rounded to the nearest natural number, a half to the even neighbour. -/
def roundHalfEven (num den : Nat) : Nat :=
  let q := num / den
  let twice := 2 * (num % den)
  if twice < den ∨ (twice = den ∧ q % 2 = 0) then q else q + 1

/-- The rank of the double nearest to `num / den` units, were there no largest double. -/
def nearestRank (num den : Nat) : Nat :=
  let shift := Nat.log2 (num / den) - 52
  shift * runLength + roundHalfEven num (den * Nat.pow 2 shift)

/-- The double nearest to `num / den`, if the quotient is not too large. -/
def nearest? (num den : Nat) : Option Magnitude :=
  let rank := nearestRank (num * Nat.pow 2 1074) den
  if h : rank < Binary64.ranks then some ⟨rank, h⟩ else none

/-- The double nearest to a natural number. -/
def ofNat? (n : Nat) : Option Magnitude := nearest? n 1

/-- The double nearest to a product. -/
def mul? (a b : Magnitude) : Option Magnitude := nearest? (a.units * b.units) (Nat.pow 2 2148)

/-- The double nearest to a quotient. -/
def div? (a b : Magnitude) : Option Magnitude := nearest? a.units b.units

end Magnitude

end SectionChunks
