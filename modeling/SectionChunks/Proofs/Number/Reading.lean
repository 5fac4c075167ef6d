import Mathlib.Algebra.Group.Nat.Defs
import SectionChunks.Number.Reading

/-! # Integers are in the range of doubles

A natural number of 64 bits can be read as a double, whatever neighbour it is rounded to. Rounding
keeps a magnitude near its run of ranks, so all that has to be followed is in which run it lies.

* `Magnitude.nearestRank_le`: the run in which a quotient is rounded.
* `Magnitude.unitsAt_lt`: how large the magnitudes of a run are.
* `Decimal.isSome_toBinary64?_ofNat`: natural numbers of 64 bits. -/

namespace SectionChunks

open Number

namespace Magnitude

/-! ### Runs of ranks -/

theorem roundHalfEven_le (num den : Nat) : roundHalfEven num den ≤ num / den + 1 := by
  simp only [roundHalfEven]
  split
  · exact Nat.le_succ _
  · exact Nat.le_refl _

theorem nearestRank_le {num den e : Nat} (h : num / den < 2 ^ e) :
    nearestRank num den ≤ (e - 53 + 2) * runLength := by
  have hshift : Nat.log2 (num / den) - 52 ≤ e - 53 := by
    by_cases hzero : num / den = 0
    · rw [hzero]
      exact Nat.zero_le _
    · have := (Nat.log2_lt hzero).mpr h
      omega
  have hquotient : num / (den * 2 ^ (Nat.log2 (num / den) - 52)) < 2 * runLength := by
    rw [← Nat.div_div_eq_div_mul, Nat.div_lt_iff_lt_mul (Nat.two_pow_pos _)]
    calc num / den < 2 ^ (Nat.log2 (num / den) + 1) := Nat.lt_log2_self
      _ ≤ 2 ^ (53 + (Nat.log2 (num / den) - 52)) := Nat.pow_le_pow_right (by decide) (by omega)
      _ = 2 * runLength * 2 ^ (Nat.log2 (num / den) - 52) := Nat.pow_add 2 53 _
  have hround := roundHalfEven_le num (den * 2 ^ (Nat.log2 (num / den) - 52))
  have hruns : (Nat.log2 (num / den) - 52) * runLength ≤ (e - 53) * runLength :=
    Nat.mul_le_mul_right _ hshift
  show (Nat.log2 (num / den) - 52) * runLength +
    roundHalfEven num (den * 2 ^ (Nat.log2 (num / den) - 52)) ≤ (e - 53 + 2) * runLength
  rw [Nat.add_mul]
  omega

theorem unitsAt_lt {r k : Nat} (h : r < (k + 1) * runLength) : unitsAt r < 2 ^ (52 + k) := by
  have hpos : 0 < runLength := by decide
  have hrun : r / runLength ≤ k := by
    rw [Nat.div_le_iff_le_mul_add_pred hpos, Nat.mul_comm]
    rw [Nat.add_mul] at h
    omega
  rw [unitsAt]
  split
  · rename_i hlow
    exact Nat.lt_of_lt_of_le hlow (Nat.pow_le_pow_right (by decide) (by omega))
  · rename_i hhigh
    have hne : 1 ≤ r / runLength := (Nat.one_le_div_iff hpos).mpr (by omega)
    have hmod : r % runLength < runLength := Nat.mod_lt r hpos
    calc (runLength + r % runLength) * 2 ^ (r / runLength - 1)
        < 2 * runLength * 2 ^ (r / runLength - 1) :=
          Nat.mul_lt_mul_of_pos_right (by omega) (Nat.two_pow_pos _)
      _ = 2 ^ (53 + (r / runLength - 1)) := (Nat.pow_add 2 53 _).symm
      _ ≤ 2 ^ (52 + k) := Nat.pow_le_pow_right (by decide) (by omega)

theorem units_lt {m : Magnitude} {k : Nat} (h : m.val < (k + 1) * runLength) :
    m.units < 2 ^ (52 + k) := unitsAt_lt h

/-! ### Whole numbers -/

theorem nearestRank_mul_pow_le {n k : Nat} (e : Nat) (h : n < 2 ^ k) :
    nearestRank (n * Nat.pow 2 e) 1 ≤ (k + e - 53 + 2) * runLength := by
  refine nearestRank_le ?_
  rw [Nat.div_one, Nat.pow_add]
  exact Nat.mul_lt_mul_of_pos_right h (Nat.two_pow_pos e)

theorem nearestRank_mul_pow_div_le {n k : Nat} (e : Nat) (h : n < 2 ^ k) :
    nearestRank (n * Nat.pow 2 e * Nat.pow 2 e) (Nat.pow 2 (e + e)) ≤ (k - 53 + 2) * runLength := by
  have hsquare : Nat.pow 2 e * Nat.pow 2 e = Nat.pow 2 (e + e) := (Nat.pow_add 2 e e).symm
  have hpos : 0 < Nat.pow 2 (e + e) := Nat.two_pow_pos _
  refine nearestRank_le ?_
  rw [Nat.mul_assoc, hsquare, Nat.mul_div_cancel n hpos]
  exact h

theorem lt_ranks_of_le {rank k : Nat} (h : rank ≤ k * runLength) (hk : k < 2047) :
    rank < Binary64.ranks :=
  Nat.lt_of_le_of_lt h (Nat.mul_lt_mul_of_pos_right hk (by decide))

/-- A quotient that is rounded to a rank of a double is rounded to that double. The size of a unit
is named here, so that nothing computes with it. -/
theorem nearest?_eq_some {num den e k : Nat} (he : e = 1074)
    (h : nearestRank (num * Nat.pow 2 e) den ≤ k * runLength) (hk : k < 2047) :
    ∃ m, nearest? num den = some m ∧ m.val ≤ k * runLength := by
  have hranks := lt_ranks_of_le h hk
  refine ⟨⟨_, hranks⟩, ?_, h⟩
  rw [nearest?, ← he]
  exact dif_pos hranks

theorem ofNat?_eq_some {n : Nat} (h : n < naturalBound64) :
    ∃ m, ofNat? n = some m ∧ m.val ≤ 1087 * runLength := by
  have hlt : n < 2 ^ 64 := h
  obtain ⟨e, he⟩ : ∃ e, e = 1074 := ⟨_, rfl⟩
  have hrank := nearestRank_mul_pow_le e hlt
  rw [show 64 + e - 53 + 2 = 1087 by omega] at hrank
  exact nearest?_eq_some he hrank (by decide)

/-- One. -/
def one : Magnitude := ⟨1023 * runLength, by decide⟩

theorem ofNat?_one : ofNat? 1 = some one := by
  decide +kernel

theorem units_one : one.units = Nat.pow 2 1074 := by
  decide +kernel

theorem mul?_one {m : Magnitude} {e : Nat} (he : e = 1074) :
    m.mul? one = nearest? (m.units * Nat.pow 2 e) (Nat.pow 2 (e + e)) := by
  have hsquare : 2148 = e + e := by omega
  rw [mul?, units_one, hsquare, ← he]

theorem isSome_mul?_one {m : Magnitude} (h : m.val ≤ 1087 * runLength) :
    (m.mul? one).isSome := by
  have hrun : m.val < (1087 + 1) * runLength :=
    Nat.lt_of_le_of_lt h (Nat.mul_lt_mul_of_pos_right (by decide) (by decide))
  obtain ⟨e, he⟩ : ∃ e, e = 1074 := ⟨_, rfl⟩
  have hrank := nearestRank_mul_pow_div_le e (units_lt hrun)
  obtain ⟨m', hm', -⟩ := nearest?_eq_some he hrank (by decide)
  rw [mul?_one he, hm']
  rfl

end Magnitude

namespace Decimal

/-! ### The digits of a natural number -/

theorem le_valueFrom (high : Nat) (ds : List Digit) : high ≤ valueFrom high ds := by
  induction ds generalizing high with
  | nil => exact Nat.le_refl high
  | cons d ds ih =>
    rw [valueFrom_cons]
    have := ih (10 * high + d.val)
    omega

theorem foldl_whole {high : Nat} (exponent : Int) {ds : List Digit}
    (h : valueFrom high ds < naturalBound64) :
    ds.foldl Leading.whole ⟨high, exponent, false⟩ = ⟨valueFrom high ds, exponent, false⟩ := by
  induction ds generalizing high with
  | nil => rfl
  | cons d ds ih =>
    rw [valueFrom_cons] at h ⊢
    have hfits : 10 * high + d.val < naturalBound64 :=
      Nat.lt_of_le_of_lt (le_valueFrom _ ds) h
    have hstep : Leading.whole ⟨high, exponent, false⟩ d =
        ⟨10 * high + d.val, exponent, false⟩ := by
      simp [Leading.whole, Leading.fits, hfits]
    rw [List.foldl_cons, hstep]
    exact ih h

theorem leading_ofNat {n : Nat} (h : n < naturalBound64) : (ofNat n).leading = ⟨n, 0, false⟩ := by
  have hvalue : valueFrom 0 (digitsOf n) = n := valueOf_digitsOf n
  have hfold := foldl_whole 0 (hvalue.symm ▸ h)
  rw [hvalue] at hfold
  rw [leading, ofNat, hfold]
  rfl

theorem scaleUp?_zero (m : Magnitude) : scaleUp? m 0 = m.mul? .one := by
  rw [scaleUp?, if_pos (Nat.zero_le _), show Nat.pow 10 0 = 1 from rfl, Magnitude.ofNat?_one,
    Option.bind_some]

theorem magnitude?_ofNat {n : Nat} (h : n < naturalBound64) :
    (ofNat n).magnitude? = (Magnitude.ofNat? n).bind (·.mul? .one) := by
  have hexponent : (ofNat n).exponent.getD 0 = 0 := rfl
  simp only [magnitude?, leading_ofNat h, hexponent, Int.natAbs_zero, Nat.not_lt_zero, if_false,
    Int.add_zero, Int.le_refl, if_true, scaleUp?_zero]

/-- **A natural number of 64 bits is in the range of doubles.** -/
theorem isSome_toBinary64?_ofNat {n : Nat} (h : n < naturalBound64) :
    (ofNat n).toBinary64?.isSome := by
  obtain ⟨m, hm, hrank⟩ := Magnitude.ofNat?_eq_some h
  rw [toBinary64?, magnitude?_ofNat h, hm, Option.bind_some, Option.isSome_map]
  exact Magnitude.isSome_mul?_one hrank

end Decimal

end SectionChunks
