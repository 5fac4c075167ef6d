import SectionChunks.Chunk.Basic
import SectionChunks.Proofs.Chunk.Cutting
import SectionChunks.Proofs.Combining
import SectionChunks.Proofs.Section

/-! # The chunks of a document: what they hold, and how long they are

* `exists_rendering_chunkByTitle`: the document falls into running text and tables, one after the
  other, and the chunks hold these, one after the other.
* `whole_or_single_of_mem_preChunks`: a text is cut only where one element is longer than a chunk
  may be, and then it is on its own.
* `within_of_mem_chunkByTitle`: no chunk is longer than it may be, and none is empty without
  need. -/

namespace SectionChunks

variable {o : Options} {elements : List Element}

/-! ### Pre-chunks -/

theorem flatMap_elements_preChunks (o : Options) (elements : List Element) :
    (preChunks o elements).flatMap PreChunk.elements = elements := by
  rw [preChunks, flatMap_elements_combine, flatMap_elements_sections]

theorem proper_of_mem_preChunks {p : PreChunk} (h : p ∈ preChunks o elements) : p.Proper :=
  proper_of_mem_combine (fun _ hp => proper_of_mem_sections hp) h

theorem sized_of_mem_preChunks {g : TextGroup} (h : .text g ∈ preChunks o elements) :
    g.Sized o.maxCharacters :=
  sized_of_mem_combine o.combineRules (Nat.le_trans o.combineUnder_le o.newAfter_le)
    (fun _ hg => sized_of_mem_sections o.sectionRules o.newAfter_le hg) h

/-! ### What chunks hold -/

/-- **Only an oversized element is cut.** A text is one chunk, or it is the text of a single element
that is longer than a chunk may be. -/
theorem whole_or_single_of_mem_preChunks {g : TextGroup} (h : .text g ∈ preChunks o elements) :
    ((g.textLength ≤ o.maxCharacters ∧ g.chunks o.maxCharacters = [g.whole]) ∨
      ∃ e, g.elements = [e] ∧ o.maxCharacters < e.text.length ∧
        1 < (g.chunks o.maxCharacters).length) ∧
    (∀ e ∈ g.elements, 1 < (g.chunks o.maxCharacters).length →
      g.elements = [e] ∧ o.maxCharacters < e.text.length) ∧
    (1 < g.elements.length → g.chunks o.maxCharacters = [g.whole]) := by
  rcases sized_of_mem_preChunks h with hle | ⟨e, he, hlt⟩
  · have hchunks := TextGroup.chunks_of_textLength_le hle
    refine ⟨.inl ⟨hle, hchunks⟩, fun e _ hcut => ?_, fun _ => hchunks⟩
    rw [hchunks] at hcut
    exact absurd hcut (Nat.lt_irrefl 1)
  · have hlen : g.textLength = e.textLength := by
      rw [← TextGroup.textLength_mk_singleton, ← he]
    have hcut : 1 < (g.chunks o.maxCharacters).length :=
      TextGroup.one_lt_length_chunks o.maxCharacters_pos (by rw [hlen]; exact hlt)
    refine ⟨.inr ⟨e, he, hlt, hcut⟩, fun f hf _ => ?_, fun htwo => ?_⟩
    · rw [he, List.mem_singleton] at hf
      rw [hf]
      exact ⟨he, hlt⟩
    · rw [he] at htwo
      exact absurd htwo (Nat.lt_irrefl 1)

/-- Chunks of five characters. -/
def fiveCharacters : Options := OptionLayer.ofLimits 5 none none true (by decide)

/-- A paragraph of eight characters between page breaks. -/
def longParagraph : List Element := [.pageBreak, .narrativeText "abcdefgh", .pageBreak]

theorem single_of_mem_longParagraph :
    .text ⟨[.narrativeText "abcdefgh"]⟩ ∈ preChunks fiveCharacters longParagraph ∧
      1 < ((TextGroup.mk [.narrativeText "abcdefgh"]).chunks 5).length ∧
      fiveCharacters.maxCharacters < "abcdefgh".length := by
  have hmem : .text ⟨[.narrativeText "abcdefgh"]⟩ ∈ preChunks fiveCharacters longParagraph := by
    decide
  obtain ⟨hwhole | ⟨e, -, -, hcut⟩, hsingle, -⟩ := whole_or_single_of_mem_preChunks hmem
  · exact absurd hwhole.1 (by decide)
  · exact ⟨hmem, hcut, (hsingle _ (List.mem_singleton.mpr rfl) hcut).2⟩

/-! ### How long chunks are -/

/-- **No chunk is too long, and none is empty without need.** -/
theorem within_of_mem_chunkByTitle (o : Options) (elements : List Element) :
    (∀ c ∈ chunkByTitle o elements, c.Within o.maxCharacters) ∧
    (∀ c ∈ chunkByTitle o elements, c.kind = .composite →
      ∃ g, .text g ∈ preChunks o elements ∧ c ∈ g.chunks o.maxCharacters) ∧
    ∀ g, .text g ∈ preChunks o elements → ∀ c ∈ g.chunks o.maxCharacters, c.text = "" →
      (∀ e ∈ g.elements, e.text = "") ∧ g.chunks o.maxCharacters = [c] := by
  refine ⟨fun c hc => ?_, fun c hc hkind => ?_, fun g _ c hc he => ?_⟩
  · obtain ⟨p, -, hp⟩ := List.mem_flatMap.mp hc
    exact within_of_mem_chunks o.maxCharacters_pos hp
  · obtain ⟨p, hp, hcp⟩ := List.mem_flatMap.mp hc
    cases p with
    | text g => exact ⟨g, hp, hcp⟩
    | table t => exact absurd hkind (kind_ne_composite_of_mem_tableChunks hcp)
  · exact TextGroup.elements_empty_of_mem_chunks hc he

theorem within_of_mem_longParagraph :
    .text ⟨[.pageBreak]⟩ ∈ preChunks fiveCharacters longParagraph ∧
      (TextGroup.mk [.pageBreak]).whole ∈ chunkByTitle fiveCharacters longParagraph ∧
      (TextGroup.mk [.pageBreak]).whole.Within 5 ∧
      (TextGroup.mk [.pageBreak]).chunks 5 = [(TextGroup.mk [.pageBreak]).whole] := by
  obtain ⟨hwithin, -, hempty⟩ := within_of_mem_chunkByTitle fiveCharacters longParagraph
  have hmem : .text ⟨[.pageBreak]⟩ ∈ preChunks fiveCharacters longParagraph := by decide
  have hchunk : (TextGroup.mk [.pageBreak]).whole ∈ (TextGroup.mk [.pageBreak]).chunks 5 := by
    rw [TextGroup.chunks_of_textLength_le (by decide)]
    exact List.mem_singleton.mpr rfl
  have hall : (TextGroup.mk [.pageBreak]).whole ∈ chunkByTitle fiveCharacters longParagraph :=
    List.mem_flatMap.mpr ⟨_, hmem, hchunk⟩
  exact ⟨hmem, hall, hwithin _ hall, (hempty _ hmem _ hchunk rfl).2⟩

end SectionChunks
