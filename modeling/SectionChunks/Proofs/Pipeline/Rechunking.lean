import SectionChunks.Proofs.Consolidation.FixedPoint
import SectionChunks.Proofs.Pipeline.Basic

/-! # Chunks that are chunked again

A chunk of running text can be given to the chunker as an element, with its text and its metadata.
Then it comes out as it was: its text is short enough, and its metadata was merged before.

* `TextGroup.joinedText_mk_singleton`, `TextGroup.chunks_mk_singleton`: one element as a group.
* `chunkByTitle_singleton`: one element as a document.
* `merged_again`: the joined text and the merged metadata of a group stay what they are, and so does
  every chunk of running text. -/

namespace SectionChunks

namespace TextGroup

theorem joinedText_mk_singleton (e : Element) : (mk [e]).joinedText = e.text := by
  show Text.joined [e.text] = e.text
  by_cases h : e.text = ""
  · rw [h]
    rfl
  · rw [Text.joined, List.filter_cons_of_pos (by simpa using h)]
    exact String.intercalate_singleton

/-- A chunk of a group, taken as a group, is cut into itself. -/
theorem chunks_mk_singleton {g : TextGroup} {width : Nat} {c : Chunk} (h : c ∈ g.chunks width)
    (kind : Kind) : (mk [⟨kind, c.text, c.metadata⟩]).chunks width = [c] := by
  obtain ⟨hkind, htext, hmetadata⟩ := mem_chunks h
  have hagain : (mk [⟨kind, c.text, g.metadata⟩]).metadata = g.metadata :=
    g.metadata_mk_singleton kind fun he => Text.eq_empty_of_mem_windows (he ▸ htext)
  rw [chunks, joinedText_mk_singleton, hmetadata, hagain,
    Text.windows_of_length_le (Text.length_le_of_mem_windows htext), List.map_singleton, ← hkind,
    ← hmetadata]

end TextGroup

/-- A document of one element of running text is one group. -/
theorem chunkByTitle_singleton (o : Options) {e : Element} (h : e.kind ≠ .table) :
    chunkByTitle o [e] = (TextGroup.mk [e]).chunks o.maxCharacters := by
  have hsections : sections o.sectionRules [e] = [.text ⟨[e]⟩] := by
    rw [sections, List.map_singleton, Element.block_of_ne_table h]
    rfl
  have hpreChunks : preChunks o [e] = [.text ⟨[e]⟩] := by
    rw [preChunks, hsections]
    rfl
  rw [chunkByTitle, hpreChunks, List.flatMap_singleton]
  rfl

theorem exists_mem_chunks_of_mem_chunkByTitle {o : Options} {elements : List Element} {c : Chunk}
    (h : c ∈ chunkByTitle o elements) (hkind : c.kind = .composite) :
    ∃ g : TextGroup, c ∈ g.chunks o.maxCharacters := by
  obtain ⟨p, -, hp⟩ := List.mem_flatMap.mp h
  cases p with
  | text g => exact ⟨g, hp⟩
  | table t => exact absurd hkind (kind_ne_composite_of_mem_tableChunks hp)

/-- **What was merged stays as it is.** A group made of one element with the joined text and the
merged metadata of another group has the same joined text and the same merged metadata. So a chunk
of running text, given to the chunker as an element, comes out as it was. -/
theorem merged_again :
    (∀ (g : TextGroup) (kind : Kind),
      (TextGroup.mk [⟨kind, g.joinedText, g.metadata⟩]).joinedText = g.joinedText ∧
      (TextGroup.mk [⟨kind, g.joinedText, g.metadata⟩]).metadata = g.metadata) ∧
    ∀ (o : Options) (elements : List Element) (kind : Kind), kind ≠ .table →
      ∀ c ∈ chunkByTitle o elements, c.kind = .composite →
        chunkByTitle o [⟨kind, c.text, c.metadata⟩] = [c] := by
  refine ⟨fun g kind => ⟨TextGroup.joinedText_mk_singleton _, g.metadata_mk_singleton kind id⟩,
    fun o elements kind hkind c hc hcomposite => ?_⟩
  obtain ⟨g, hg⟩ := exists_mem_chunks_of_mem_chunkByTitle hc hcomposite
  have hsingle : chunkByTitle o [⟨kind, c.text, c.metadata⟩] =
      (TextGroup.mk [⟨kind, c.text, c.metadata⟩]).chunks o.maxCharacters :=
    chunkByTitle_singleton o hkind
  rw [hsingle, TextGroup.chunks_mk_singleton hg kind]

/-- A paragraph of eight characters in two languages. -/
def spokenParagraph : Element :=
  (Element.narrativeText "abcdefgh").withMetadata
    { sentTo := some [], linkTexts := some [], languages := some ["de", "en", "de"],
      parentId := some "p" }

/-- What is left of its metadata in each of its chunks. -/
def spokenMetadata : Metadata := { sentTo := some [], languages := some ["de", "en"] }

/-- The second chunk of the paragraph is a text of three characters, with metadata that were merged
before. -/
theorem merged_again_spokenParagraph :
    ⟨.composite, "fgh", spokenMetadata⟩ ∈ chunkByTitle fiveCharacters [spokenParagraph] ∧
      chunkByTitle fiveCharacters [⟨.title, "fgh", spokenMetadata⟩] =
        [⟨.composite, "fgh", spokenMetadata⟩] := by
  have hwindows : Text.windows 5 "abcdefgh" = ["abcde", "fgh"] := by
    simp [Text.windows_of_ne_empty, Text.cuts, Text.slices]
  have hmem : ⟨.composite, "fgh", spokenMetadata⟩ ∈
      chunkByTitle fiveCharacters [spokenParagraph] := by
    have hmetadata : (TextGroup.mk [spokenParagraph]).metadata = spokenMetadata := by decide
    rw [chunkByTitle_singleton fiveCharacters (by decide), TextGroup.chunks, hmetadata,
      TextGroup.joinedText_mk_singleton]
    refine List.mem_map.mpr ⟨"fgh", ?_, rfl⟩
    show "fgh" ∈ Text.windows 5 "abcdefgh"
    rw [hwindows]
    exact List.mem_cons_of_mem _ List.mem_cons_self
  have hagain := merged_again.2 fiveCharacters [spokenParagraph] .title (by decide) _ hmem rfl
  exact ⟨hmem, hagain⟩

end SectionChunks
