import SectionChunks.Chunk.Basic
import SectionChunks.Proofs.Text.Windows

/-! # The chunks of a table

A table that does not fit is cut by two cursors, one over its text and one over its HTML, which move
together until both are at the end.

* `Element.tablePiecesFrom_eq`: two cursors in step give the windows of the one beside those of the
  other.
* `Element.join_text_tablePieces`, `Element.join_html_tablePieces`: the pieces, put together again,
  are the table.
* `tableChunks_eq`: how many pieces there are, and what each of them holds. -/

namespace SectionChunks

/-- The HTML of a chunk, empty if it has none. -/
def Chunk.html (c : Chunk) : String := c.metadata.textAsHtml.getD ""

/-! ### Side by side -/

section ZipWithAll
variable {α β γ : Type}

theorem mem_zipWithAll {f : Option α → Option β → γ} {as : List α} {bs : List β} {c : γ}
    (h : c ∈ List.zipWithAll f as bs) :
    ∃ a b, c = f a b ∧ (∀ x ∈ a, x ∈ as) ∧ (∀ y ∈ b, y ∈ bs) := by
  induction as generalizing bs with
  | nil =>
    rw [List.nil_zipWithAll] at h
    obtain ⟨b, hb, rfl⟩ := List.mem_map.mp h
    exact ⟨none, some b, rfl, by simp, by simpa using hb⟩
  | cons a as ih =>
    cases bs with
    | nil =>
      rw [List.zipWithAll_nil] at h
      obtain ⟨x, hx, rfl⟩ := List.mem_map.mp h
      exact ⟨some x, none, rfl, by simpa using hx, by simp⟩
    | cons b bs =>
      rcases List.mem_cons.mp h with rfl | h
      · exact ⟨some a, some b, rfl, by simp, by simp⟩
      · obtain ⟨x, y, hc, hx, hy⟩ := ih h
        exact ⟨x, y, hc, fun z hz => List.mem_cons_of_mem _ (hx z hz),
          fun z hz => List.mem_cons_of_mem _ (hy z hz)⟩

theorem getElem?_zipWithAll_getD (f : α → β → γ) (a : α) (b : β) (as : List α) (bs : List β)
    (i : Nat) :
    (List.zipWithAll (fun x y => f (x.getD a) (y.getD b)) as bs)[i]? =
      if i < max as.length bs.length then some (f (as[i]?.getD a) (bs[i]?.getD b)) else none := by
  rw [List.getElem?_zipWithAll]
  split
  · next hx hy =>
    rw [List.getElem?_eq_none_iff] at hx hy
    exact (if_neg (by omega)).symm
  · next hsome =>
    refine (if_pos (Nat.not_le.mp fun hle => ?_)).symm
    exact hsome (List.getElem?_eq_none (by omega)) (List.getElem?_eq_none (by omega))

theorem join_map_empty (as : List α) : String.join (as.map fun _ => "") = "" := by
  induction as with
  | nil => rfl
  | cons a as ih => rw [List.map_cons, String.join_cons, ih, String.empty_append]

theorem join_zipWithAll_left (as : List String) (bs : List β) :
    String.join (List.zipWithAll (fun a _ => a.getD "") as bs) = String.join as := by
  induction as generalizing bs with
  | nil =>
    rw [List.nil_zipWithAll]
    exact join_map_empty bs
  | cons a as ih =>
    cases bs with
    | nil => simp
    | cons b bs =>
      rw [List.zipWithAll_cons_cons, String.join_cons, ih bs, String.join_cons]
      rfl

end ZipWithAll

/-! ### Two cursors in step -/

namespace Element

theorem html_tablePiece (e : Element) (text html : String) :
    (e.tablePiece text html).html = html := by
  by_cases h : html = ""
  · rw [h]
    rfl
  · simp [Chunk.html, tablePiece, h]

theorem textAsHtml_tablePiece {e : Element} {text html s : String}
    (h : (e.tablePiece text html).metadata.textAsHtml = some s) : s = html := by
  rw [← html_tablePiece e text html, Chunk.html, h]
  rfl

/-- Pieces of a table with the given texts and the given HTML. Where one of them ends before the
other, it is empty. -/
def tablePiecesOf (e : Element) (texts htmls : List String) : List Chunk :=
  List.zipWithAll (fun text html => e.tablePiece (text.getD "") (html.getD "")) texts htmls

/-- The pieces of a table: its text and its HTML, cut side by side. -/
def tablePieces (e : Element) (width : Nat) : List Chunk :=
  e.tablePiecesOf (Text.cuts width e.text) (Text.cuts width e.html)

theorem tablePiecesOf_nil_cons (e : Element) (html : String) (htmls : List String) :
    e.tablePiecesOf [] (html :: htmls) = e.tablePiece "" html :: e.tablePiecesOf [] htmls := by
  rw [tablePiecesOf, tablePiecesOf, List.nil_zipWithAll, List.nil_zipWithAll]
  rfl

theorem tablePiecesOf_cons_nil (e : Element) (text : String) (texts : List String) :
    e.tablePiecesOf (text :: texts) [] = e.tablePiece text "" :: e.tablePiecesOf texts [] := by
  rw [tablePiecesOf, tablePiecesOf, List.zipWithAll_nil, List.zipWithAll_nil]
  rfl

/-- Two cursors in step: the pieces have the windows of the one beside those of the other, and a
cursor that is at the end waits there. -/
theorem tablePiecesFrom_eq (e : Element) (text html : Text.Cursor) :
    e.tablePiecesFrom text html = e.tablePiecesOf text.windows html.windows := by
  fun_induction tablePiecesFrom e text html with
  | case1 text html hend =>
    rw [Text.Cursor.windows_of_isExhausted hend.1, Text.Cursor.windows_of_isExhausted hend.2]
    rfl
  | case2 text html hmore ih =>
    rw [ih]
    by_cases ht : text.isExhausted = true
    · have hh : ¬ html.isExhausted = true := fun hh => hmore ⟨ht, hh⟩
      obtain ⟨hwindow, hend⟩ := Text.Cursor.window_of_isExhausted ht
      rw [Text.Cursor.windows_of_isExhausted ht, Text.Cursor.windows_of_isExhausted hend, hwindow,
        Text.Cursor.windows_of_not_isExhausted hh, tablePiecesOf_nil_cons]
    · rw [Text.Cursor.windows_of_not_isExhausted ht]
      by_cases hh : html.isExhausted = true
      · obtain ⟨hwindow, hend⟩ := Text.Cursor.window_of_isExhausted hh
        rw [Text.Cursor.windows_of_isExhausted hh, Text.Cursor.windows_of_isExhausted hend, hwindow,
          tablePiecesOf_cons_nil]
      · rw [Text.Cursor.windows_of_not_isExhausted hh]
        rfl

/-- Whether a table can stay whole. -/
def FitsWhole (e : Element) (width : Nat) : Prop := e.textLength ≤ width ∧ e.html.length ≤ width

end Element

theorem tableChunks_of_fitsWhole {e : Element} {width : Nat} (h : e.FitsWhole width) :
    tableChunks e width = [⟨.table, e.text, e.metadata⟩] := if_pos h

theorem tableChunks_of_not_fitsWhole {e : Element} {width : Nat} (h : ¬ e.FitsWhole width) :
    tableChunks e width = e.tablePieces width := by
  have hpieces : tableChunks e width =
      e.tablePiecesFrom (.start width e.text) (.start width e.html) := if_neg h
  rw [hpieces, Element.tablePiecesFrom_eq, Text.Cursor.windows_start, Text.Cursor.windows_start]
  rfl

/-! ### What the pieces hold -/

namespace Element

theorem mem_tablePieces {e : Element} {width : Nat} {c : Chunk} (h : c ∈ e.tablePieces width) :
    ∃ text html, c = e.tablePiece text html ∧ text.length ≤ max width 1 ∧
      html.length ≤ max width 1 := by
  have hcut : ∀ (t : String) (s : Option String),
      (∀ x ∈ s, x ∈ Text.cuts width t) → (s.getD "").length ≤ max width 1 := by
    intro t s hs
    cases s with
    | none => exact Nat.zero_le _
    | some x => exact Text.length_le_of_mem_cuts (hs x rfl)
  obtain ⟨text, html, rfl, htext, hhtml⟩ := mem_zipWithAll h
  exact ⟨_, _, rfl, hcut _ _ htext, hcut _ _ hhtml⟩

/-- The texts of the pieces, put together again, are the text. -/
theorem join_text_tablePieces (e : Element) (width : Nat) :
    String.join ((e.tablePieces width).map (·.text)) = e.text := by
  rw [tablePieces, tablePiecesOf, List.map_zipWithAll]
  exact (join_zipWithAll_left _ _).trans (Text.join_cuts width e.text)

/-- The pieces by their number: there are as many as the longer one of text and HTML needs, and
each has the slices that its number says. -/
theorem tablePieces_eq_map_range (e : Element) {width : Nat} (hwidth : 0 < width) :
    e.tablePieces width =
      (List.range (max (e.textLength ⌈/⌉ width) (e.html.length ⌈/⌉ width))).map fun i =>
        e.tablePiece (Text.slice e.text (i * width) ((i + 1) * width))
          (Text.slice e.html (i * width) ((i + 1) * width)) := by
  refine List.ext_getElem? fun i => ?_
  rw [tablePieces, tablePiecesOf, textLength, getElem?_zipWithAll_getD, Text.length_cuts hwidth,
    Text.length_cuts hwidth, Text.getD_getElem?_cuts hwidth, Text.getD_getElem?_cuts hwidth,
    List.getElem?_map]
  split
  · next h => rw [List.getElem?_range h]; rfl
  · next h => rw [List.getElem?_eq_none (by simpa using h)]; rfl

end Element

theorem kind_ne_composite_of_mem_tableChunks {e : Element} {width : Nat} {c : Chunk}
    (h : c ∈ tableChunks e width) : c.kind ≠ .composite := by
  by_cases hfits : e.FitsWhole width
  · rw [tableChunks_of_fitsWhole hfits, List.mem_singleton] at h
    rw [h]
    exact fun hk => by cases hk
  · rw [tableChunks_of_not_fitsWhole hfits] at h
    obtain ⟨text, html, rfl, -, -⟩ := Element.mem_tablePieces h
    exact fun hk => by cases hk

/-- **The chunks of a table.** A table that fits stays as it is. Otherwise there are as many pieces
as the longer one of text and HTML needs, and the piece of number `i` has the slices of number `i`.
Of the metadata only the HTML changes. -/
theorem tableChunks_eq (e : Element) {width : Nat} (hwidth : 1 ≤ width) :
    tableChunks e width =
      if e.textLength ≤ width ∧ e.html.length ≤ width then [⟨.table, e.text, e.metadata⟩]
      else (List.range (max (e.textLength ⌈/⌉ width) (e.html.length ⌈/⌉ width))).map fun i =>
        ⟨.tablePiece, Text.slice e.text (i * width) ((i + 1) * width),
          { e.metadata with
            textAsHtml :=
              if Text.slice e.html (i * width) ((i + 1) * width) = "" then none
              else some (Text.slice e.html (i * width) ((i + 1) * width)) }⟩ := by
  split
  · next h => exact tableChunks_of_fitsWhole h
  · next h =>
    rw [tableChunks_of_not_fitsWhole h, Element.tablePieces_eq_map_range e hwidth]
    refine congrArg (List.map · _) (funext fun i => ?_)
    simp only [Element.tablePiece, String.isEmpty_iff]

/-- A table with a short text and long HTML. -/
def doorSign : Element :=
  (Element.table "Tür7").withMetadata { pageNumber := some 1, textAsHtml := some "<b>ü</b>" }

/-- The text ends after two pieces, and the HTML goes on. -/
theorem tableChunks_doorSign :
    1 ≤ 2 ∧ tableChunks doorSign 2 =
      [⟨.tablePiece, "Tü", { pageNumber := some 1, textAsHtml := some "<b" }⟩,
        ⟨.tablePiece, "r7", { pageNumber := some 1, textAsHtml := some ">ü" }⟩,
        ⟨.tablePiece, "", { pageNumber := some 1, textAsHtml := some "</" }⟩,
        ⟨.tablePiece, "", { pageNumber := some 1, textAsHtml := some "b>" }⟩] :=
  ⟨by decide, (tableChunks_eq doorSign (by decide)).trans (by decide)⟩

end SectionChunks
