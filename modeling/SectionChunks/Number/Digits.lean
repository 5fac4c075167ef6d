/-! # Decimal digits

* `Digit`: a decimal digit, written and read as a character.
* `digitsOf`: the digits of a number, the highest first and without leading zeros.
* `valueOf`: the number that digits stand for.
* `valueOf_digitsOf`: writing a number and reading it back gives the number. -/

namespace SectionChunks.Number

/-- A decimal digit. -/
abbrev Digit := Fin 10

/-- The digit zero. -/
def Digit.zero : Digit := ⟨0, by decide⟩

/-- The character of a digit. -/
def Digit.char (d : Digit) : Char := Char.ofNat (48 + d.val)

/-- The digit that a character stands for. -/
def Digit.ofChar? (c : Char) : Option Digit :=
  if h : 48 ≤ c.toNat ∧ c.toNat < 58 then some ⟨c.toNat - 48, by omega⟩ else none

/-- The digits of `n` in front of those in `rest`. -/
def digitsBefore (n : Nat) (rest : List Digit) : List Digit :=
  if n < 10 then Fin.ofNat 10 n :: rest
  else digitsBefore (n / 10) (Fin.ofNat 10 n :: rest)

/-- The decimal digits of a number, the highest first; zero has the one digit `0`. -/
def digitsOf (n : Nat) : List Digit := digitsBefore n []

/-- The number whose digits continue those of `high`. -/
def valueFrom (high : Nat) (ds : List Digit) : Nat := ds.foldl (fun n d => 10 * n + d.val) high

/-- The number that the digits stand for. -/
def valueOf (ds : List Digit) : Nat := valueFrom 0 ds

/-! ### Writing and reading back -/

theorem ofChar?_char (d : Digit) : Digit.ofChar? d.char = some d := by
  revert d; decide

theorem valueFrom_cons (high : Nat) (d : Digit) (ds : List Digit) :
    valueFrom high (d :: ds) = valueFrom (10 * high + d.val) ds := rfl

theorem valueFrom_digitsBefore (n : Nat) (rest : List Digit) :
    valueFrom 0 (digitsBefore n rest) = valueFrom n rest := by
  fun_induction digitsBefore n rest with
  | case1 n rest h =>
    rw [valueFrom_cons]
    simp only [Fin.ofNat, Nat.mul_zero, Nat.zero_add]
    rw [Nat.mod_eq_of_lt h]
  | case2 n rest h ih =>
    rw [ih, valueFrom_cons]
    simp only [Fin.ofNat]
    rw [Nat.div_add_mod]

theorem valueOf_digitsOf (n : Nat) : valueOf (digitsOf n) = n := valueFrom_digitsBefore n []

end SectionChunks.Number
