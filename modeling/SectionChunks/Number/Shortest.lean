import SectionChunks.Number.Decimal
import SectionChunks.Number.Binary64

/-! # The shortest decimal of a double

A finite double is written with the fewest digits that round to it, and among those with the digits
nearest to it. All comparisons are between natural numbers.

* `Magnitude.shortest`: the digits as a whole number, and the power of ten that goes with them.
* `Binary64.toDecimal?`: the literal of a finite double: positional when the point falls among or
  near the digits, with a power of ten otherwise. -/

namespace SectionChunks

open Number

namespace Magnitude

/-- How many digits stand in front of the point of `num / den`; for a value below a tenth, minus
the number of zeros behind the point. -/
def pointPosition (num den : Nat) : Int :=
  if den ≤ num then ((digitsOf (num / den)).length : Int)
  else
    match (List.range 400).find? fun zeros => decide (den ≤ num * Nat.pow 10 (zeros + 1)) with
    | some zeros => -(zeros : Int)
    | none => 0

/-- A whole number of steps of ten to the `power` that rounds to the double of rank `r`, if there is
one; of two the nearer, of two equally near the even one. -/
def onGrid? (r : Nat) (power : Int) : Option Nat :=
  let up := Nat.pow 10 (-power).toNat
  let den := Nat.pow 2 1075 * Nat.pow 10 power.toNat
  let low := (unitsAt (r - 1) + unitsAt r) * up
  let num := 2 * unitsAt r * up
  let high := (unitsAt r + unitsAt (r + 1)) * up
  let inside (k : Nat) : Bool :=
    if r % 2 = 0 then decide (low ≤ k * den ∧ k * den ≤ high)
    else decide (low < k * den ∧ k * den < high)
  let k := num / den
  let rest := num % den
  let lowerFirst := decide (2 * rest < den ∨ (2 * rest = den ∧ k % 2 = 0))
  let candidates := if rest = 0 then [k] else if lowerFirst then [k, k + 1] else [k + 1, k]
  candidates.find? inside

/-- The most digits that a double ever needs. -/
def mostDigits : Nat := 17

/-- The fewest digits that round to a magnitude, as a whole number and a power of ten. -/
def shortest (m : Magnitude) : Nat × Int :=
  let point := pointPosition (2 * m.units) (Nat.pow 2 1075)
  let found := (List.range mostDigits).findSome? fun extra =>
    let power := point - (extra + 1 : Nat)
    (onGrid? m.val power).map (·, power)
  found.getD (0, 0)

end Magnitude

/-- A whole number without its last zeros, and how many they were. -/
def Number.withoutTrailingZeros (n : Nat) : Nat × Nat :=
  let ds := (digitsOf n).reverse
  let zeros := (ds.takeWhile (· = Digit.zero)).length
  (n / Nat.pow 10 zeros, zeros)

namespace Binary64

/-- A double is written positionally when its point stands at most this far to the right. -/
def pointLimit : Int := 16

/-- A double is written positionally when fewer zeros than this follow its point. -/
def zerosLimit : Int := 5

/-- The literal of a finite double. A positional literal has a digit after its point. -/
def decimalOf (negative : Bool) (m : Magnitude) : Decimal :=
  if m = Magnitude.zero then ⟨negative, 0, [Digit.zero], none⟩
  else
    let (found, power) := m.shortest
    let (n, zeros) := withoutTrailingZeros found
    let power := power + zeros
    let ds := digitsOf n
    let point := ds.length + power
    if 0 < point ∧ point ≤ pointLimit then
      if 0 ≤ power then ⟨negative, n * Nat.pow 10 power.toNat, [Digit.zero], none⟩
      else ⟨negative, n / Nat.pow 10 (-power).toNat, ds.drop point.toNat, none⟩
    else if -zerosLimit < point ∧ point ≤ 0 then
      ⟨negative, 0, List.replicate (-point).toNat Digit.zero ++ ds, none⟩
    else ⟨negative, valueOf (ds.take 1), ds.drop 1, some (point - 1)⟩

/-- The literal of a double, if it is finite. -/
def toDecimal? : Binary64 → Option Decimal
  | finite negative m => some (decimalOf negative m)
  | infinite _ | nan => none

end Binary64

end SectionChunks
