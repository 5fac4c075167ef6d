import SectionChunks.Proofs.Consolidation.Matches
import SectionChunks.Proofs.Pipeline.Basic

/-! # The regex matches of chunks

A match is recorded with its positions in a text. The positions that a chunk's matches have are
those in the text that it is cut from (`matchesLieIn_of_mem_chunks`). They are positions in the
chunk itself if nothing else is cut from that text, and so in every chunk if no element is too long
(`matchesLieIn_of_forall_le`). Otherwise they need not be: all chunks of one text have the same
matches, each of them where it stands in the whole (`match_outside_chunk_taggedParagraph`). Matches
that lie in their texts have positions far below the end of a word, so here it is no limitation that
they are moved exactly. -/

namespace SectionChunks

namespace PreChunk

theorem text_of_chunks_eq_singleton {p : PreChunk} {width : Nat} {c : Chunk}
    (h : p.chunks width = [c]) : c.text = p.fullText := by
  rw [← join_text_chunks p width, h]
  simp

theorem matchesLieIn_fullText {p : PreChunk}
    (h : ∀ e ∈ p.elements, e.metadata.MatchesLieIn e.text) {width : Nat} {c : Chunk}
    (hc : c ∈ p.chunks width) : c.metadata.MatchesLieIn p.fullText := by
  cases p with
  | text g =>
    rw [(TextGroup.mem_chunks hc).2.2]
    exact TextGroup.matchesLieIn_metadata h
  | table t =>
    have ht : t.metadata.MatchesLieIn t.text := h t (List.mem_singleton.mpr rfl)
    change c ∈ tableChunks t width at hc
    by_cases hfits : t.FitsWhole width
    · rw [tableChunks_of_fitsWhole hfits, List.mem_singleton] at hc
      rw [hc]
      exact ht
    · -- A piece has its own HTML; the rest of its metadata is the table's.
      rw [tableChunks_of_not_fitsWhole hfits] at hc
      obtain ⟨text, html, rfl, -, -⟩ := Element.mem_tablePieces hc
      exact ht

theorem exists_chunks_eq_singleton {o : Options} {elements : List Element} {p : PreChunk}
    (hp : p ∈ preChunks o elements)
    (hfits : ∀ e ∈ p.elements, e.textLength ≤ o.maxCharacters ∧
      (e.kind = .table → e.html.length ≤ o.maxCharacters)) :
    ∃ c, p.chunks o.maxCharacters = [c] := by
  cases p with
  | text g =>
    have hle : g.textLength ≤ o.maxCharacters := by
      rcases sized_of_mem_preChunks hp with hle | ⟨e, he, hlt⟩
      · exact hle
      · have hmem : e ∈ PreChunk.elements (.text g) := by simp [PreChunk.elements, he]
        have := (hfits e hmem).1
        omega
    exact ⟨g.whole, TextGroup.chunks_of_textLength_le hle⟩
  | table t =>
    have hkind : t.kind = .table := proper_of_mem_preChunks hp
    obtain ⟨htext, hhtml⟩ := hfits t (List.mem_singleton.mpr rfl)
    exact ⟨_, tableChunks_of_fitsWhole ⟨htext, hhtml hkind⟩⟩

end PreChunk

section Document
variable {o : Options} {elements : List Element}
  (helements : ∀ e ∈ elements, e.metadata.MatchesLieIn e.text)

theorem mem_of_mem_elements {p : PreChunk} (hp : p ∈ preChunks o elements) {e : Element}
    (he : e ∈ p.elements) : e ∈ elements := by
  rw [← flatMap_elements_preChunks o elements]
  exact List.mem_flatMap.mpr ⟨p, hp, he⟩

include helements

theorem matchesLieIn_fullText_of_mem_preChunks {p : PreChunk} (hp : p ∈ preChunks o elements)
    {c : Chunk} (hc : c ∈ p.chunks o.maxCharacters) : c.metadata.MatchesLieIn p.fullText :=
  PreChunk.matchesLieIn_fullText (fun e he => helements e (mem_of_mem_elements hp he)) hc

/-- Where nothing is too long, the matches of every chunk lie in its own text. -/
theorem matchesLieIn_of_forall_le
    (hfits : ∀ e ∈ elements, e.textLength ≤ o.maxCharacters ∧
      (e.kind = .table → e.html.length ≤ o.maxCharacters)) :
    ∀ c ∈ chunkByTitle o elements, c.metadata.MatchesLieIn c.text := by
  intro c hc
  obtain ⟨p, hp, hcp⟩ := List.mem_flatMap.mp hc
  have hlie := matchesLieIn_fullText_of_mem_preChunks helements hp hcp
  obtain ⟨d, hone⟩ :=
    PreChunk.exists_chunks_eq_singleton hp fun e he => hfits e (mem_of_mem_elements hp he)
  obtain rfl : c = d := by
    rw [hone] at hcp
    exact List.mem_singleton.mp hcp
  rw [PreChunk.text_of_chunks_eq_singleton hone]
  exact hlie

end Document

/-- **The matches of a chunk lie in the text that it is cut from**, and so in its own text if it is
the only chunk cut from it. -/
theorem matchesLieIn_of_mem_chunks {o : Options} {elements : List Element}
    (helements : ∀ e ∈ elements, e.metadata.MatchesLieIn e.text) {p : PreChunk}
    (hp : p ∈ preChunks o elements) {c : Chunk} (hc : c ∈ p.chunks o.maxCharacters) :
    c.metadata.MatchesLieIn p.fullText ∧
      String.join ((p.chunks o.maxCharacters).map (·.text)) = p.fullText ∧
      (p.chunks o.maxCharacters = [c] → c.metadata.MatchesLieIn c.text) := by
  have hlie := matchesLieIn_fullText_of_mem_preChunks helements hp hc
  refine ⟨hlie, p.join_text_chunks o.maxCharacters, fun hone => ?_⟩
  rw [PreChunk.text_of_chunks_eq_singleton hone]
  exact hlie

/-! ### A paragraph with a match -/

/-- A paragraph of eight characters, with a match of its last three. -/
def taggedParagraph : Element :=
  (Element.narrativeText "abcdefgh").withMetadata
    { regexMetadata := some (Dictionary.empty.insert "tail" [⟨"fgh", 5, 8⟩]) }

theorem matchesLieIn_taggedParagraph :
    taggedParagraph.metadata.MatchesLieIn taggedParagraph.text := by
  intro r hr entry hentry m hm
  cases hr
  simp only [Dictionary.insert, Dictionary.modify, Dictionary.empty, Dictionary.modifyEntries,
    List.mem_singleton] at hentry
  rw [hentry, List.mem_singleton] at hm
  rw [hm]
  exact ⟨by decide, by decide, by decide⟩

/-- Chunks of thirty characters. -/
def thirtyCharacters : Options := OptionLayer.ofLimits 30 none none true (by decide)

/-- The paragraph after another one. -/
def taggedSection : TextGroup := ⟨[.narrativeText "x", taggedParagraph]⟩

/-- The match moves with the paragraph. -/
theorem matchesLieIn_whole_taggedSection :
    (∀ e ∈ taggedSection.elements, e.metadata.MatchesLieIn e.text) ∧
      .text taggedSection ∈ preChunks thirtyCharacters taggedSection.elements ∧
      taggedSection.chunks 30 = [taggedSection.whole] ∧
      taggedSection.whole.metadata.regexMetadata =
        some (Dictionary.empty.insert "tail" [⟨"fgh", 8, 11⟩]) ∧
      taggedSection.whole.metadata.MatchesLieIn taggedSection.whole.text := by
  have helements : ∀ e ∈ taggedSection.elements, e.metadata.MatchesLieIn e.text := by
    intro e he
    rcases List.mem_cons.mp he with rfl | he
    · exact fun r hr => nomatch hr
    · rw [List.mem_singleton.mp he]
      exact matchesLieIn_taggedParagraph
  have hmem : .text taggedSection ∈ preChunks thirtyCharacters taggedSection.elements := by decide
  have hchunks : taggedSection.chunks 30 = [taggedSection.whole] :=
    TextGroup.chunks_of_textLength_le (by decide)
  have hwhole : taggedSection.whole ∈ taggedSection.chunks 30 := by
    rw [hchunks]
    exact List.mem_singleton.mpr rfl
  exact ⟨helements, hmem, hchunks, by decide,
    (matchesLieIn_of_mem_chunks helements hmem hwhole).2.2 hchunks⟩

/-- Neither half of the paragraph has a match where its record says so. -/
theorem match_outside_chunk_taggedParagraph :
    (∀ e ∈ [taggedParagraph], e.metadata.MatchesLieIn e.text) ∧
      chunkByTitle fiveCharacters [taggedParagraph] =
        [⟨.composite, "abcde", taggedParagraph.metadata⟩,
          ⟨.composite, "fgh", taggedParagraph.metadata⟩] ∧
      ∀ c ∈ chunkByTitle fiveCharacters [taggedParagraph], ¬ c.metadata.MatchesLieIn c.text := by
  have hpreChunks : preChunks fiveCharacters [taggedParagraph] = [.text ⟨[taggedParagraph]⟩] := by
    decide
  have hwindows : Text.windows 5 "abcdefgh" = ["abcde", "fgh"] := by
    simp [Text.windows_of_ne_empty, Text.cuts, Text.slices]
  have hchunks : chunkByTitle fiveCharacters [taggedParagraph] =
      [⟨.composite, "abcde", taggedParagraph.metadata⟩,
        ⟨.composite, "fgh", taggedParagraph.metadata⟩] := by
    rw [chunkByTitle, hpreChunks]
    change (Text.windows 5 "abcdefgh").map (Chunk.mk .composite · _) ++ [] = _
    rw [hwindows]
    rfl
  refine ⟨by simpa using matchesLieIn_taggedParagraph, hchunks, fun c hc hlie => ?_⟩
  have hmeta : c.metadata = taggedParagraph.metadata ∧ c.text.length ≤ 5 := by
    rw [hchunks] at hc
    rcases List.mem_cons.mp hc with rfl | hc
    · exact ⟨rfl, by decide⟩
    · rw [List.mem_singleton.mp hc]
      exact ⟨rfl, by decide⟩
  rw [hmeta.1] at hlie
  have hstop := (hlie _ rfl ("tail", [⟨"fgh", 5, 8⟩]) (List.mem_singleton.mpr rfl) ⟨"fgh", 5, 8⟩
    (List.mem_singleton.mpr rfl)).stop_le
  change 8 ≤ c.text.length at hstop
  omega

end SectionChunks
