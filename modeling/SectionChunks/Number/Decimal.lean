import SectionChunks.Number.Digits

/-! # Decimal literals

A decimal literal is a sign, a whole part without leading zeros, the digits after the point and a
power of ten. A literal without digits after the point and without a power stands for an integer.
Integers that come from outside are kept within the range of a machine integer. Inside, all
arithmetic on them is exact.

* `Number.isInteger64`, `Number.naturalBound64`: the ranges of machine integers.
* `Decimal.ofInt`, `Decimal.integer?`: the literals of the integers. The literal `-0` is none of
  them, since its sign says more than its value.
* `Decimal.chars`: how a literal is written.
* `integer?_ofInt`: an integer's literal stands for that integer. -/

namespace SectionChunks

namespace Number

/-- Natural numbers of 32 bits are below this bound. -/
def naturalBound32 : Nat := Nat.pow 2 32

/-- Natural numbers of 64 bits are below this bound. -/
def naturalBound64 : Nat := Nat.pow 2 64

/-- Signed integers of 64 bits are below this bound, and not below its negative. -/
def integerBound64 : Int := Int.ofNat (Nat.pow 2 63)

/-- Whether an integer can be a signed integer of 64 bits. -/
def isInteger64 (n : Int) : Bool := decide (-integerBound64 ≤ n ∧ n < integerBound64)

end Number

/-- A decimal literal: `whole.fraction` times ten to the `exponent`, with its sign. -/
structure Decimal where
  negative : Bool
  whole : Nat
  fraction : List Number.Digit
  exponent : Option Int
  deriving DecidableEq

namespace Decimal

open Number

/-- The literal of a natural number. -/
def ofNat (n : Nat) : Decimal := ⟨false, n, [], none⟩

/-- The literal of an integer. -/
def ofInt (n : Int) : Decimal := ⟨decide (n < 0), n.natAbs, [], none⟩

/-- The integer that a literal stands for. A point or a power of ten makes a literal a fraction,
whatever its value, and `-0` is no integer. -/
def integer? (d : Decimal) : Option Int :=
  if d.fraction.isEmpty ∧ d.exponent.isNone then
    if d.negative then (if d.whole = 0 then none else some (-(d.whole : Int)))
    else some d.whole
  else none

/-- How a literal is written. -/
def chars (d : Decimal) : List Char :=
  (if d.negative then ['-'] else []) ++ (digitsOf d.whole).map Digit.char ++
  (if d.fraction.isEmpty then [] else '.' :: d.fraction.map Digit.char) ++
  match d.exponent with
  | none => []
  | some e => 'e' :: (if e < 0 then ['-'] else []) ++ (digitsOf e.natAbs).map Digit.char

/-! ### Integers -/

theorem integer?_ofNat (n : Nat) : (ofNat n).integer? = some (n : Int) := rfl

theorem integer?_ofInt (n : Int) : (ofInt n).integer? = some n := by
  by_cases h : n < 0
  · have h0 : n.natAbs ≠ 0 := by omega
    simp only [integer?, ofInt, List.isEmpty_nil, Option.isNone_none, and_self, if_true, h,
      decide_true, if_neg h0]
    rw [Int.ofNat_natAbs_of_nonpos (Int.le_of_lt h), Int.neg_neg]
  · simp only [integer?, ofInt, List.isEmpty_nil, Option.isNone_none, and_self, if_true, h,
      decide_false, Bool.false_eq_true, if_false]
    rw [Int.natAbs_of_nonneg (by omega)]

end Decimal

end SectionChunks
