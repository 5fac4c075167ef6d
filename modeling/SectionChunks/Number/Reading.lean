import SectionChunks.Number.Decimal
import SectionChunks.Number.Binary64

/-! # The double that a decimal literal stands for

A literal is read in double precision throughout. Its leading digits are kept as a whole number as
long as they fit 64 bits; what the digits left out would add is only counted as powers of ten. The
whole number is then rounded to a double and scaled by one power of ten, or by two when one is out
of reach, each step rounding again. So a long literal may be read as a neighbour of the nearest
double.

* `Decimal.leading`: the kept digits and the power of ten that goes with them.
* `Decimal.toBinary64?`: the double; nothing when it is too large. -/

namespace SectionChunks

open Number

namespace Decimal

/-- The digits of a literal kept as a whole number, with a power of ten. -/
structure Leading where
  significand : Nat
  exponent : Int
  full : Bool

/-- Whether one more digit still fits 64 bits. -/
def Leading.fits (l : Leading) (d : Digit) : Bool :=
  decide (10 * l.significand + d.val < naturalBound64)

/-- Takes a digit in front of the point. Once a digit does not fit, every further one counts as a
power of ten. -/
def Leading.whole (l : Leading) (d : Digit) : Leading :=
  if l.full ∨ ¬ l.fits d then { l with exponent := l.exponent + 1, full := true }
  else { l with significand := 10 * l.significand + d.val }

/-- Takes a digit after the point. Once a digit does not fit, the further ones are dropped. -/
def Leading.fraction (l : Leading) (d : Digit) : Leading :=
  if l.full ∨ ¬ l.fits d then { l with full := true }
  else ⟨10 * l.significand + d.val, l.exponent - 1, false⟩

/-- The kept digits of a literal. Whether a digit fits is asked afresh after the point. -/
def leading (d : Decimal) : Leading :=
  let whole := (digitsOf d.whole).foldl Leading.whole ⟨0, 0, false⟩
  d.fraction.foldl Leading.fraction { whole with full := false }

/-- The largest power of ten that is scaled by in one step. -/
def scaleLimit : Nat := 308

/-- A magnitude times ten to the `power`. -/
def scaleUp? (m : Magnitude) (power : Nat) : Option Magnitude :=
  if power ≤ scaleLimit then (Magnitude.ofNat? (Nat.pow 10 power)).bind m.mul?
  else if m = Magnitude.zero then some m else none

/-- A magnitude over ten to the `power`. Two steps of `scaleLimit` leave nothing of a whole number
of 64 bits. -/
def scaleDown? (m : Magnitude) (power : Nat) : Option Magnitude :=
  if power ≤ scaleLimit then (Magnitude.ofNat? (Nat.pow 10 power)).bind m.div?
  else if power ≤ 2 * scaleLimit then
    (Magnitude.ofNat? (Nat.pow 10 scaleLimit)).bind m.div? |>.bind fun m' =>
      (Magnitude.ofNat? (Nat.pow 10 (power - scaleLimit))).bind m'.div?
  else some Magnitude.zero

/-- The largest power of ten that a literal may name. Beyond it only the power's sign counts. -/
def exponentLimit : Nat := Nat.pow 2 31 - 1

/-- The magnitude of the double that a literal stands for. -/
def magnitude? (d : Decimal) : Option Magnitude :=
  let l := d.leading
  let named := d.exponent.getD 0
  if exponentLimit < named.natAbs then
    if l.significand ≠ 0 ∧ 0 < named then none else some Magnitude.zero
  else
    let power := l.exponent + named
    (Magnitude.ofNat? l.significand).bind fun m =>
      if 0 ≤ power then scaleUp? m power.natAbs else scaleDown? m power.natAbs

/-- The double that a literal stands for, if it is not too large. -/
def toBinary64? (d : Decimal) : Option Binary64 := d.magnitude?.map (.finite d.negative)

end Decimal

end SectionChunks
