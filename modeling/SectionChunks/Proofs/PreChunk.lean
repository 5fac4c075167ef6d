import SectionChunks.Chunk.Basic
import SectionChunks.Combining
import SectionChunks.Proofs.Accumulator

/-! # Pre-chunks and their elements

A pre-chunk is some running text or a table. The pre-chunks of a document are `Proper`: they are
not empty, and tables stand alone. Their texts are `Sized`: a text that is over the limit is the
text of one element.

* `TextGroup.textLength_eq_length`: the length of a group is the length of its joined text.
* `TextGroup.textLength_concat`: groups put together are as long as their texts joined.
* `TextGroup.concat_cons_eq_foldl`: they can be put together one by one. -/

namespace SectionChunks

/-- The element that a block of a document is. -/
def Block.element : Block Element → Element
  | .text e => e
  | .table t => t

theorem Element.block_of_table {e : Element} (h : e.kind = .table) : e.block = .table e := if_pos h

theorem Element.block_of_ne_table {e : Element} (h : e.kind ≠ .table) : e.block = .text e :=
  if_neg h

theorem Element.block_eq_text_iff {e f : Element} :
    e.block = .text f ↔ e = f ∧ e.kind ≠ .table := by
  by_cases h : e.kind = .table
  · simp [block_of_table h, h]
  · simp [block_of_ne_table h, h]

theorem Element.block_eq_table_iff {e f : Element} :
    e.block = .table f ↔ e = f ∧ e.kind = .table := by
  by_cases h : e.kind = .table
  · simp [block_of_table h, h]
  · simp [block_of_ne_table h, h]

theorem Element.element_block (e : Element) : e.block.element = e := by
  by_cases h : e.kind = .table
  · rw [block_of_table h]; rfl
  · rw [block_of_ne_table h]; rfl

namespace PreChunk

/-- The elements of a pre-chunk. -/
def elements : PreChunk → List Element
  | .text g => g.elements
  | .table t => [t]

/-- A pre-chunk as dividing makes it: some elements without a table, or one table. -/
def Proper : PreChunk → Prop
  | .text g => g.elements ≠ [] ∧ ∀ e ∈ g.elements, e.kind ≠ .table
  | .table t => t.kind = .table

instance : (p : PreChunk) → Decidable p.Proper
  | .text g => inferInstanceAs (Decidable (g.elements ≠ [] ∧ ∀ e ∈ g.elements, e.kind ≠ .table))
  | .table t => inferInstanceAs (Decidable (t.kind = .table))

end PreChunk

namespace TextGroup

/-- **The length of a group** is the length of its joined text. -/
theorem textLength_eq_length (g : TextGroup) : g.textLength = g.joinedText.length := by
  have h := Text.Extent.length_ofTexts (g.elements.map (·.text))
  rw [List.map_map] at h
  exact h

theorem textLength_mk_singleton (e : Element) : (mk [e]).textLength = e.textLength :=
  Text.Extent.length_ofLengths_singleton e.textLength

theorem textLength_eq_zero_iff {g : TextGroup} :
    g.textLength = 0 ↔ ∀ e ∈ g.elements, e.text = "" := by
  rw [textLength, Text.Extent.length_ofLengths_eq_zero_iff, List.forall_mem_map]
  simp only [Element.textLength, String.length_eq_zero_iff]

theorem textLength_mk_le_append (elements more : List Element) :
    (mk elements).textLength ≤ (mk (elements ++ more)).textLength := by
  have h := Text.Extent.length_ofLengths_append (elements.map Element.textLength)
    (more.map Element.textLength)
  rw [← List.map_append] at h
  show _ ≤ (Text.Extent.ofLengths ((elements ++ more).map Element.textLength)).length
  rw [h]
  exact Text.le_joinedLength_left _ _

@[simp]
theorem elements_append (g h : TextGroup) : (g ++ h).elements = g.elements ++ h.elements := rfl

theorem concat_singleton (g : TextGroup) : concat [g] = g := by
  simp [concat]

theorem concat_cons_eq_foldl (g : TextGroup) (groups : List TextGroup) :
    concat (g :: groups) = groups.foldl (· ++ ·) g := by
  induction groups generalizing g with
  | nil => exact concat_singleton g
  | cons h groups ih =>
    rw [List.foldl_cons, ← ih]
    exact congrArg mk (List.append_assoc g.elements h.elements _).symm

theorem textLength_concat (groups : List TextGroup) :
    (concat groups).textLength = (Text.Extent.ofLengths (groups.map textLength)).length := by
  have h := Text.Extent.length_ofLengths_flatten
    (groups.map fun g => g.elements.map Element.textLength)
  rw [← List.flatMap_def, ← List.map_flatMap, List.map_map] at h
  exact h

/-- Within the limit, or one element that is over it. -/
def Sized (limit : Nat) (g : TextGroup) : Prop :=
  g.textLength ≤ limit ∨ ∃ e, g.elements = [e] ∧ limit < e.textLength

theorem sized_mk_singleton (limit : Nat) (e : Element) : (mk [e]).Sized limit := by
  rcases Nat.lt_or_ge limit e.textLength with h | h
  · exact .inr ⟨e, rfl, h⟩
  · exact .inl (by rw [textLength_mk_singleton]; exact h)

end TextGroup

end SectionChunks
