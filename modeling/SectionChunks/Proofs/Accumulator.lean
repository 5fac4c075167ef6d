import SectionChunks.Accumulator
import SectionChunks.Proofs.Text.Extent

/-! # What accumulators measure

An accumulator is determined by its limit and its pieces, and all it shows is a matter of the length
of their joined text.

* `Accumulator.ext`: limit and pieces determine the accumulator.
* `Accumulator.textLength_eq`, `Accumulator.textLength_add`: the length shown is that of the joined
  text, after each addition.
* `Accumulator.room_eq`, `Accumulator.fits_congr`: the room left, and so what fits, is a matter of
  limit and length.
* `Accumulator.fits_iff`: a piece fits when it has no text, or when the joined text stays within the
  limit. -/

namespace SectionChunks.Accumulator

variable {α : Type} [HasTextLength α]

/-! ### Limit and pieces -/

theorem ext {a b : Accumulator α} (hl : a.limit = b.limit)
    (hp : a.pieces.toList = b.pieces.toList) : a = b := by
  obtain ⟨la, pa, xa, ha⟩ := a
  obtain ⟨lb, pb, xb, hb⟩ := b
  obtain rfl : la = lb := hl
  obtain rfl : pa = pb := Array.toList_inj.mp hp
  obtain rfl : xa = xb := by rw [ha, hb]
  rfl

@[simp]
theorem limit_empty (limit : Nat) : (empty limit : Accumulator α).limit = limit := rfl

@[simp]
theorem limit_add (acc : Accumulator α) (piece : α) : (acc.add piece).limit = acc.limit := rfl

@[simp]
theorem pieces_empty (limit : Nat) : (empty limit : Accumulator α).pieces.toList = [] := rfl

@[simp]
theorem pieces_add (acc : Accumulator α) (piece : α) :
    (acc.add piece).pieces.toList = acc.pieces.toList ++ [piece] := Array.toList_push

@[simp]
theorem isEmpty_empty (limit : Nat) : (empty limit : Accumulator α).isEmpty = true := rfl

@[simp]
theorem isEmpty_add (acc : Accumulator α) (piece : α) : (acc.add piece).isEmpty = false := by
  simp [isEmpty, add]

theorem isEmpty_iff {acc : Accumulator α} : acc.isEmpty = true ↔ acc.pieces.toList = [] := by
  rw [isEmpty, Array.isEmpty_iff, ← Array.toList_eq_nil_iff]

theorem eq_empty_of_isEmpty {acc : Accumulator α} (h : acc.isEmpty = true) :
    acc = empty acc.limit := ext rfl (isEmpty_iff.mp h)

@[simp]
theorem flush_snd (acc : Accumulator α) : acc.flush.2 = empty acc.limit := rfl

/-! ### Length and room -/

/-- The length shown is that of the joined text. -/
theorem textLength_eq (acc : Accumulator α) :
    acc.textLength =
      (Text.Extent.ofLengths (acc.pieces.toList.map HasTextLength.textLength)).length := by
  rw [textLength, acc.extent_eq]

theorem textLength_add (acc : Accumulator α) (piece : α) :
    (acc.add piece).textLength =
      Text.joinedLength acc.textLength (HasTextLength.textLength piece) := by
  rw [textLength_eq, textLength_eq, pieces_add, List.map_append, List.map_singleton,
    Text.Extent.length_ofLengths_append, Text.Extent.length_ofLengths_singleton]

/-- The room left is a matter of limit and length: without text all of it, and else what is
behind the text and a separator. -/
theorem room_eq (acc : Accumulator α) :
    acc.room = if acc.textLength = 0 then acc.limit else acc.limit - (acc.textLength + 2) := by
  have hbounds := Text.Extent.parts_bounds (acc.pieces.toList.map HasTextLength.textLength)
  rw [← acc.extent_eq] at hbounds
  obtain ⟨hle, hzero⟩ := hbounds
  unfold room textLength Text.Extent.room Text.Extent.length
  split <;> omega

theorem fits_congr {β : Type} [HasTextLength β] {a : Accumulator α} {b : Accumulator β} {p : α}
    {q : β} (hlimit : a.limit = b.limit) (hlength : a.textLength = b.textLength)
    (hpiece : HasTextLength.textLength p = HasTextLength.textLength q) : a.fits p = b.fits q := by
  rw [fits, fits, room_eq, room_eq, hlimit, hlength, hpiece]

theorem fits_of_textLength_eq_zero {acc : Accumulator α} {piece : α}
    (h : HasTextLength.textLength piece = 0) : acc.fits piece = true := by
  rw [fits, h, decide_eq_true (Nat.zero_le _)]

/-- **What fits**: a piece without text, or one with which the joined text is within the limit. -/
theorem fits_iff {acc : Accumulator α} {piece : α} :
    acc.fits piece = true ↔
      HasTextLength.textLength piece = 0 ∨ (acc.add piece).textLength ≤ acc.limit := by
  by_cases h : HasTextLength.textLength piece = 0
  · exact ⟨fun _ => .inl h, fun _ => fits_of_textLength_eq_zero h⟩
  · -- Without a part there is nothing to separate, so the first piece has all the room.
    have hx : acc.extent.parts = 0 → acc.extent.characters = 0 := by
      rw [acc.extent_eq]
      exact (Text.Extent.parts_bounds _).2
    have hadd : (acc.add piece).textLength ≤ acc.limit ↔
        HasTextLength.textLength piece ≤ acc.room := Text.Extent.length_add_le_iff acc.extent h hx
    rw [fits, decide_eq_true_iff, hadd]
    exact ⟨.inr, fun hor => hor.resolve_left h⟩

theorem textLength_add_le {acc : Accumulator α} {piece : α} (hfits : acc.fits piece = true)
    (hle : acc.textLength ≤ acc.limit) : (acc.add piece).textLength ≤ acc.limit := by
  rcases fits_iff.mp hfits with h | h
  · rw [textLength_add, h, Text.joinedLength_zero_right]
    exact hle
  · exact h

end SectionChunks.Accumulator
