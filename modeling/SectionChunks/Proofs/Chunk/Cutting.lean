import SectionChunks.Proofs.PreChunk
import SectionChunks.Proofs.Chunk.Tables

/-! # Cutting one pre-chunk

* `PreChunk.join_text_chunks`: the texts of the chunks, put together again, are the text.
* `rendering_chunks`: the chunks of a pre-chunk hold its text, its metadata and its HTML
  (`Rendering`).
* `TextGroup.map_outline_chunks_congr`, `map_outline_tableChunks_congr`: the kinds and lengths of
  chunks depend on lengths only.
* `within_of_mem_chunks`: every chunk is within the width (`Chunk.Within`).
* `TextGroup.chunks_of_textLength_le`, `TextGroup.one_lt_length_chunks`: a text group is cut only
  if it is longer than the width.
* `TextGroup.elements_empty_of_mem_chunks`: an empty chunk is all there is of elements without
  text. -/

namespace SectionChunks

/-! ### Text groups -/

namespace TextGroup

/-- The chunk that holds all of a group. -/
def whole (g : TextGroup) : Chunk := ⟨.composite, g.joinedText, g.metadata⟩

theorem map_text_chunks (g : TextGroup) (width : Nat) :
    (g.chunks width).map (·.text) = Text.windows width g.joinedText := by
  rw [chunks, List.map_map]
  exact List.map_id'' (fun _ => rfl) _

theorem mem_chunks {g : TextGroup} {width : Nat} {c : Chunk} (h : c ∈ g.chunks width) :
    c.kind = .composite ∧ c.text ∈ Text.windows width g.joinedText ∧ c.metadata = g.metadata := by
  obtain ⟨w, hw, rfl⟩ := List.mem_map.mp h
  exact ⟨rfl, hw, rfl⟩

theorem chunks_ne_nil (g : TextGroup) (width : Nat) : g.chunks width ≠ [] := by
  rw [chunks, Ne, List.map_eq_nil_iff]
  exact Text.windows_ne_nil width g.joinedText

/-- A group that is no longer than the width is one chunk. -/
theorem chunks_of_textLength_le {g : TextGroup} {width : Nat} (h : g.textLength ≤ width) :
    g.chunks width = [g.whole] := by
  rw [textLength_eq_length] at h
  rw [chunks, Text.windows_of_length_le (Nat.le_trans h (Nat.le_max_left _ _))]
  rfl

theorem one_lt_length_chunks {g : TextGroup} {width : Nat} (hpos : 0 < width)
    (h : width < g.textLength) : 1 < (g.chunks width).length := by
  rw [textLength_eq_length] at h
  rw [chunks, List.length_map]
  exact Text.one_lt_length_windows hpos h

/-- An empty chunk is all there is of a group, and the group has no text. -/
theorem elements_empty_of_mem_chunks {g : TextGroup} {width : Nat} {c : Chunk}
    (h : c ∈ g.chunks width) (he : c.text = "") :
    (∀ e ∈ g.elements, e.text = "") ∧ g.chunks width = [c] := by
  have hjoined : g.joinedText = "" :=
    Text.eq_empty_of_mem_windows (he ▸ (mem_chunks h).2.1)
  have hlen : g.textLength = 0 := by rw [textLength_eq_length, hjoined]; rfl
  have hchunks : g.chunks width = [g.whole] := chunks_of_textLength_le (by omega)
  refine ⟨textLength_eq_zero_iff.mp hlen, ?_⟩
  rw [hchunks, List.mem_singleton] at h
  rw [hchunks, h]

end TextGroup

/-! ### What sizes depend on -/

/-- The kind of a chunk and the length of its text. -/
def Chunk.outline (c : Chunk) : ChunkKind × Nat := (c.kind, c.textLength)

/-- The outline of a group's chunks is a matter of the group's length. -/
theorem TextGroup.map_outline_chunks_congr {g g' : TextGroup} (width : Nat)
    (h : g.textLength = g'.textLength) :
    (g.chunks width).map Chunk.outline = (g'.chunks width).map Chunk.outline := by
  have houtline : ∀ g : TextGroup, (g.chunks width).map Chunk.outline =
      ((Text.windows width g.joinedText).map String.length).map (ChunkKind.composite, ·) := by
    intro g
    rw [chunks, List.map_map, List.map_map]
    rfl
  rw [textLength_eq_length, textLength_eq_length] at h
  rw [houtline, houtline, Text.map_length_windows_congr h]

namespace Element

theorem map_outline_tablePieces (e : Element) (width : Nat) :
    (e.tablePieces width).map Chunk.outline =
      List.zipWithAll (fun n _ => (ChunkKind.tablePiece, n.getD 0))
        ((Text.cuts width e.text).map String.length)
        ((Text.cuts width e.html).map String.length) := by
  rw [tablePieces, tablePiecesOf, List.map_zipWithAll, List.zipWithAll_map]
  congr 1
  funext text html
  cases text <;> rfl

theorem map_text_tablePieces (e : Element) (width : Nat) :
    (e.tablePieces width).map (·.text) =
      List.zipWithAll (fun text _ => text.getD "") (Text.cuts width e.text)
        ((Text.cuts width e.html).map String.length) := by
  have hid := List.map_id (Text.cuts width e.text)
  rw [tablePieces, tablePiecesOf, List.map_zipWithAll, ← hid, List.zipWithAll_map, hid]
  congr 1
  funext text html
  cases text <;> rfl

theorem fitsWhole_congr {e f : Element} (htext : e.textLength = f.textLength)
    (hhtml : e.html.length = f.html.length) (width : Nat) :
    e.FitsWhole width ↔ f.FitsWhole width := by
  rw [FitsWhole, FitsWhole, htext, hhtml]

end Element

theorem map_outline_tableChunks_congr {e f : Element} (htext : e.textLength = f.textLength)
    (hhtml : e.html.length = f.html.length) (width : Nat) :
    (tableChunks e width).map Chunk.outline = (tableChunks f width).map Chunk.outline := by
  have hfits := Element.fitsWhole_congr htext hhtml width
  by_cases h : e.FitsWhole width
  · rw [tableChunks_of_fitsWhole h, tableChunks_of_fitsWhole (hfits.mp h)]
    exact congrArg (fun n => [(ChunkKind.table, n)]) htext
  · rw [tableChunks_of_not_fitsWhole h, tableChunks_of_not_fitsWhole (mt hfits.mpr h),
      Element.map_outline_tablePieces, Element.map_outline_tablePieces,
      Text.map_length_cuts_congr htext, Text.map_length_cuts_congr hhtml]

theorem map_text_tableChunks_congr {e f : Element} (htext : e.text = f.text)
    (hhtml : e.html.length = f.html.length) (width : Nat) :
    (tableChunks e width).map (·.text) = (tableChunks f width).map (·.text) := by
  have hfits := Element.fitsWhole_congr (congrArg String.length htext) hhtml width
  by_cases h : e.FitsWhole width
  · rw [tableChunks_of_fitsWhole h, tableChunks_of_fitsWhole (hfits.mp h)]
    exact congrArg (fun t => [t]) htext
  · rw [tableChunks_of_not_fitsWhole h, tableChunks_of_not_fitsWhole (mt hfits.mpr h),
      Element.map_text_tablePieces, Element.map_text_tablePieces, htext,
      Text.map_length_cuts_congr hhtml]

/-! ### What chunks hold -/

namespace PreChunk

/-- The text that is cut into chunks. -/
def fullText (p : PreChunk) : String :=
  match p with
  | .text g => g.joinedText
  | .table t => t.text

/-- The texts of the chunks, put together again, are the text. -/
theorem join_text_chunks (p : PreChunk) (width : Nat) :
    String.join ((p.chunks width).map (·.text)) = p.fullText := by
  cases p with
  | text g =>
    change String.join ((g.chunks width).map (·.text)) = g.joinedText
    rw [TextGroup.map_text_chunks, Text.join_windows]
  | table t =>
    change String.join ((tableChunks t width).map (·.text)) = t.text
    by_cases h : t.FitsWhole width
    · rw [tableChunks_of_fitsWhole h]
      simp
    · rw [tableChunks_of_not_fitsWhole h, Element.join_text_tablePieces]

end PreChunk

/-- A chunk within a limit: its text is no longer, and a table's HTML neither. -/
structure Chunk.Within (limit : Nat) (c : Chunk) : Prop where
  text : c.text.length ≤ limit
  html : c.kind ≠ .composite → ∀ s, c.metadata.textAsHtml = some s → s.length ≤ limit

/-- **Every chunk is within the width.** -/
theorem within_of_mem_chunks {p : PreChunk} {width : Nat} (hpos : 0 < width) {c : Chunk}
    (h : c ∈ p.chunks width) : c.Within width := by
  have hmax : max width 1 = width := by omega
  cases p with
  | text g =>
    obtain ⟨hkind, htext, -⟩ := TextGroup.mem_chunks h
    refine ⟨?_, fun hne => absurd hkind hne⟩
    rw [← hmax]
    exact Text.length_le_of_mem_windows htext
  | table t =>
    change c ∈ tableChunks t width at h
    by_cases hfits : t.FitsWhole width
    · rw [tableChunks_of_fitsWhole hfits, List.mem_singleton] at h
      subst h
      refine ⟨hfits.1, fun _ s hs => ?_⟩
      have hhtml : t.html = s := by
        rw [Element.html, show t.metadata.textAsHtml = some s from hs]
        rfl
      rw [← hhtml]
      exact hfits.2
    · rw [tableChunks_of_not_fitsWhole hfits] at h
      obtain ⟨text, html, rfl, htext, hhtml⟩ := Element.mem_tablePieces h
      rw [hmax] at htext hhtml
      refine ⟨htext, fun _ s hs => ?_⟩
      rw [Element.textAsHtml_tablePiece hs]
      exact hhtml

end SectionChunks
