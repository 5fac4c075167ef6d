import Mathlib.Data.List.Infix
import SectionChunks.Chunk.Basic
import SectionChunks.Proofs.Combining
import SectionChunks.Proofs.Section

/-! # Documents that go on

The elements of a document may come in one after the other. When a document goes on, its last
section may still grow, and so the last pre-chunk is not settled before the end. All others are
(`dropLast_preChunks_prefix`): a last section that grows may no longer be combined with what stands
before it, but it cannot undo that something was kept apart. -/

namespace SectionChunks

/-- **All pre-chunks but the last are settled**, and so are their chunks, however the document goes
on. -/
theorem dropLast_preChunks_prefix (o : Options) (xs ys : List Element) :
    (preChunks o xs).dropLast <+: preChunks o (xs ++ ys) ∧
    ((preChunks o xs).dropLast.flatMap fun p => PreChunk.chunks p o.maxCharacters) <+:
      chunkByTitle o xs ∧
    ((preChunks o xs).dropLast.flatMap fun p => PreChunk.chunks p o.maxCharacters) <+:
      chunkByTitle o (xs ++ ys) := by
  have hsettled : (preChunks o xs).dropLast <+: preChunks o (xs ++ ys) := by
    rw [preChunks, preChunks]
    obtain ⟨rest, h⟩ | ⟨before, elements, more, rest, hxs, h⟩ :=
      sections_append_cases o.sectionRules xs ys
    · rw [h]
      exact dropLast_combine_prefix_append _ _
    · rw [hxs, h]
      exact dropLast_combine_prefix_of_le (TextGroup.textLength_mk_le_append elements more)
  exact ⟨hsettled, (List.dropLast_prefix _).flatMap _, hsettled.flatMap _⟩

end SectionChunks
