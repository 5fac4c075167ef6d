import SectionChunks.Text.Join

/-! # The measure of a joined text

The running measures of texts that are joined one after the other add up. So the length of a text
that is joined in several goes does not depend on how the parts are put together.

* `ofLengths_append`: measures add up.
* `length_ofLengths_append`: the length of two joined texts, joined (`joinedLength`).
* `length_ofLengths_flatten`: joining joined texts is as long as joining all parts at once.
* `length_ofLengths_eq_zero_iff`: only empty parts join to nothing. -/

namespace SectionChunks.Text

/-- The length of two texts of the given lengths once they are joined. -/
def joinedLength (m n : Nat) : Nat :=
  if m = 0 then n else if n = 0 then m else m + 2 + n

theorem joinedLength_zero_right (m : Nat) : joinedLength m 0 = m := by
  unfold joinedLength
  by_cases h : m = 0
  · rw [if_pos h, h]
  · rw [if_neg h, if_pos rfl]

theorem le_joinedLength_left (m n : Nat) : m ≤ joinedLength m n := by
  unfold joinedLength
  split
  · omega
  · split <;> omega

theorem le_joinedLength_right (m n : Nat) : n ≤ joinedLength m n := by
  unfold joinedLength
  split
  · omega
  · split <;> omega

namespace Extent

/-! ### Adding up -/

theorem add_zero_length (x : Extent) : x.add 0 = x := rfl

theorem add_of_ne_zero (x : Extent) {n : Nat} (h : n ≠ 0) :
    x.add n = ⟨x.characters + n, x.parts + 1⟩ := if_neg h

theorem foldl_add_eq (lengths : List Nat) (x : Extent) :
    lengths.foldl add x =
      ⟨x.characters + (ofLengths lengths).characters, x.parts + (ofLengths lengths).parts⟩ := by
  induction lengths generalizing x with
  | nil => rfl
  | cons n lengths ih =>
    rw [ofLengths, List.foldl_cons, List.foldl_cons, ih (x.add n), ih (zero.add n)]
    by_cases h : n = 0
    · subst h
      simp [add_zero_length, zero]
    · simp only [add_of_ne_zero _ h, zero, mk.injEq]
      omega

theorem ofLengths_append (as bs : List Nat) :
    ofLengths (as ++ bs) =
      ⟨(ofLengths as).characters + (ofLengths bs).characters,
        (ofLengths as).parts + (ofLengths bs).parts⟩ := by
  rw [ofLengths, List.foldl_append, foldl_add_eq bs]
  rfl

theorem parts_bounds (lengths : List Nat) :
    (ofLengths lengths).parts ≤ (ofLengths lengths).characters ∧
      ((ofLengths lengths).parts = 0 → (ofLengths lengths).characters = 0) := by
  induction lengths with
  | nil => exact ⟨Nat.le_refl _, fun _ => rfl⟩
  | cons n lengths ih =>
    rw [← List.singleton_append, ofLengths_append]
    by_cases h : n = 0
    · subst h
      simpa [ofLengths, add_zero_length, zero] using ih
    · have hone : ofLengths [n] = ⟨0 + n, 0 + 1⟩ := add_of_ne_zero zero h
      rw [hone]
      simp only
      omega

/-! ### Texts joined in several goes -/

/-- The length of two joined texts, joined. -/
theorem length_ofLengths_append (as bs : List Nat) :
    (ofLengths (as ++ bs)).length = joinedLength (ofLengths as).length (ofLengths bs).length := by
  obtain ⟨ha, ha0⟩ := parts_bounds as
  obtain ⟨hb, hb0⟩ := parts_bounds bs
  rw [ofLengths_append]
  unfold joinedLength length
  simp only
  split
  · omega
  · split <;> omega

theorem length_ofLengths_singleton (n : Nat) : (ofLengths [n]).length = n := by
  by_cases h : n = 0
  · simp [ofLengths, add, zero, length, h]
  · simp [ofLengths, add, zero, length, h]

/-- **Joining joined texts** is as long as joining all parts at once. -/
theorem length_ofLengths_flatten (groups : List (List Nat)) :
    (ofLengths groups.flatten).length =
      (ofLengths (groups.map fun g => (ofLengths g).length)).length := by
  induction groups with
  | nil => rfl
  | cons g groups ih =>
    rw [List.flatten_cons, length_ofLengths_append, ih, List.map_cons, ← List.singleton_append,
      length_ofLengths_append, length_ofLengths_singleton]

theorem length_ofLengths_eq_zero_iff (lengths : List Nat) :
    (ofLengths lengths).length = 0 ↔ ∀ n ∈ lengths, n = 0 := by
  induction lengths with
  | nil => simp [ofLengths, zero, length]
  | cons n lengths ih =>
    rw [← List.singleton_append, length_ofLengths_append, length_ofLengths_singleton,
      List.singleton_append, List.forall_mem_cons, ← ih]
    unfold joinedLength
    split
    · omega
    · split <;> omega

end Extent

end SectionChunks.Text
