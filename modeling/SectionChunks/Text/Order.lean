/-! # Texts in code point order

Names are sorted by their characters' code points, the shorter of two names first when one begins
the other.

* `Precedes`: the strict order on texts, decidable.
* `Precedes.irrefl`, `Precedes.trans`, `precedes_or_eq_or_precedes`: it is a strict total order, so
  a set of names has exactly one sorted list. -/

namespace SectionChunks.Text

/-- Whether the first character list comes strictly before the second. -/
def before : List Char → List Char → Bool
  | _, [] => false
  | [], _ :: _ => true
  | a :: as, b :: bs => if a = b then before as bs else decide (a.toNat < b.toNat)

/-- `s` comes strictly before `t` in code point order. -/
def Precedes (s t : String) : Prop := before s.toList t.toList = true

instance (s t : String) : Decidable (Precedes s t) :=
  inferInstanceAs (Decidable (before s.toList t.toList = true))

/-! ### A strict total order -/

theorem toNat_inj {a b : Char} (h : a.toNat = b.toNat) : a = b :=
  Char.ext (UInt32.toNat_inj.mp h)

theorem before_self (as : List Char) : before as as = false := by
  induction as with
  | nil => rfl
  | cons a as ih => simp [before, ih]

theorem before_trans {as bs cs : List Char} (hab : before as bs = true)
    (hbc : before bs cs = true) : before as cs = true := by
  induction as generalizing bs cs with
  | nil =>
    cases cs with
    | nil => cases bs <;> simp [before] at hbc
    | cons c cs => rfl
  | cons a as ih =>
    cases bs with
    | nil => simp [before] at hab
    | cons b bs =>
      cases cs with
      | nil => simp [before] at hbc
      | cons c cs =>
        by_cases h1 : a = b <;> by_cases h2 : b = c
        · subst h1; subst h2
          simp only [before, if_true] at hab hbc ⊢
          exact ih hab hbc
        · subst h1
          simp only [before, if_neg h2] at hbc ⊢
          exact hbc
        · subst h2
          simp only [before, if_neg h1] at hab ⊢
          exact hab
        · simp only [before, if_neg h1, if_neg h2, decide_eq_true_eq] at hab hbc
          have h3 : a ≠ c := by rintro rfl; omega
          simp only [before, if_neg h3, decide_eq_true_eq]
          omega

theorem before_or_eq_or_before (as bs : List Char) :
    before as bs = true ∨ as = bs ∨ before bs as = true := by
  induction as generalizing bs with
  | nil => cases bs <;> simp [before]
  | cons a as ih =>
    cases bs with
    | nil => simp [before]
    | cons b bs =>
      by_cases h : a = b
      · subst h
        rcases ih bs with h | h | h
        · exact .inl (by simpa [before] using h)
        · exact .inr (.inl (by rw [h]))
        · exact .inr (.inr (by simpa [before] using h))
      · have hne : a.toNat ≠ b.toNat := fun e => h (toNat_inj e)
        have h' : b ≠ a := fun e => h e.symm
        simp only [before, if_neg h, if_neg h', decide_eq_true_eq]
        omega

theorem Precedes.irrefl (s : String) : ¬ Precedes s s := by
  simp [Precedes, before_self]

theorem Precedes.trans {s t u : String} (h₁ : Precedes s t) (h₂ : Precedes t u) : Precedes s u :=
  before_trans h₁ h₂

/-- **Any two different texts are ordered**, one way or the other. -/
theorem precedes_or_eq_or_precedes (s t : String) : Precedes s t ∨ s = t ∨ Precedes t s := by
  rcases before_or_eq_or_before s.toList t.toList with h | h | h
  · exact .inl h
  · exact .inr (.inl (String.toList_inj.mp h))
  · exact .inr (.inr h)

end SectionChunks.Text
