import SectionChunks.Json.Parse
import SectionChunks.Proofs.Json.Lexer

/-! # Reading a document that was written

* `isChain_pieces`: no two numbers stand side by side in a document, so its tokens can be told
  apart.
* `foldlM_step_pieces`: the tokens of a document, inside any open frames, are read as that document.
* `parse?_render`: **reading gives back what was written**, in either style. -/

namespace SectionChunks.Json

open Lexer

/-! ### No two numbers side by side -/

/-- A row that may stand behind a number. -/
structure Follows (row : List Piece) : Prop where
  isChain : row.IsChain Apart
  head : ∀ q ∈ row.head?, q.isNumber = false

theorem Follows.nil : Follows [] := ⟨.nil, fun _ h => by cases h⟩

theorem isChain_cons {p : Piece} {row : List Piece} (hp : p.isNumber = false)
    (h : row.IsChain Apart) : (p :: row).IsChain Apart := by
  cases row with
  | nil => exact .singleton p
  | cons q row =>
    refine List.isChain_cons_cons.mpr ⟨fun hnumber => ?_, h⟩
    rw [hp] at hnumber
    cases hnumber

theorem Follows.cons {p : Piece} {row : List Piece} (hp : p.isNumber = false)
    (h : row.IsChain Apart) : Follows (p :: row) := by
  refine ⟨isChain_cons hp h, fun q hq => ?_⟩
  cases hq
  exact hp

theorem isChain_lineBreak (style : Style) (depth : Nat) {row : List Piece}
    (h : row.IsChain Apart) : (style.lineBreak depth ++ row).IsChain Apart := by
  cases style with
  | compact => exact h
  | spread => exact isChain_cons rfl h

theorem Follows.lineBreak (style : Style) (depth : Nat) {row : List Piece} (h : Follows row) :
    Follows (style.lineBreak depth ++ row) := by
  cases style with
  | compact => exact h
  | spread => exact .cons rfl h.isChain

theorem isChain_afterColon (style : Style) {row : List Piece} (h : row.IsChain Apart) :
    (style.afterColon ++ row).IsChain Apart := by
  cases style with
  | compact => exact h
  | spread => exact isChain_cons rfl h

mutual

/-- No two numbers stand side by side in a document, nor does one at its end before a row that
may stand behind a number. -/
theorem isChain_pieces (style : Style) (depth : Nat) (j : Json) {row : List Piece}
    (h : Follows row) : (pieces style depth j ++ row).IsChain Apart := by
  match j with
  | .null | .bool _ | .string _ => exact isChain_cons rfl h.isChain
  | .number n =>
    cases row with
    | nil => exact .singleton _
    | cons q row => exact List.isChain_cons_cons.mpr ⟨fun _ => h.head q rfl, h.isChain⟩
  | .array [] | .object [] => exact isChain_cons rfl (isChain_cons rfl h.isChain)
  | .array (item :: items) =>
    simp only [pieces, List.cons_append, List.append_assoc, List.nil_append]
    have hclose : Follows (style.lineBreak depth ++ .token .closeArray :: row) :=
      .lineBreak style depth (.cons rfl h.isChain)
    exact isChain_cons rfl <| isChain_lineBreak style _ <|
      isChain_pieces style _ item (follows_itemPieces style _ items hclose)
  | .object ((name, value) :: members) =>
    simp only [pieces, List.cons_append, List.append_assoc, List.nil_append]
    have hclose : Follows (style.lineBreak depth ++ .token .closeObject :: row) :=
      .lineBreak style depth (.cons rfl h.isChain)
    exact isChain_cons rfl <| isChain_lineBreak style _ <| isChain_cons rfl <|
      isChain_cons rfl <| isChain_afterColon style <|
      isChain_pieces style _ value (follows_memberPieces style _ members hclose)

theorem follows_itemPieces (style : Style) (depth : Nat) (items : List Json) {row : List Piece}
    (h : Follows row) : Follows (itemPieces style depth items ++ row) := by
  match items with
  | [] => exact h
  | item :: items =>
    simp only [itemPieces, List.cons_append, List.append_assoc]
    exact .cons rfl <| isChain_lineBreak style depth <|
      isChain_pieces style depth item (follows_itemPieces style depth items h)

theorem follows_memberPieces (style : Style) (depth : Nat) (members : List (Option String × Json))
    {row : List Piece} (h : Follows row) : Follows (memberPieces style depth members ++ row) := by
  match members with
  | [] => exact h
  | (name, value) :: members =>
    simp only [memberPieces, List.cons_append, List.append_assoc]
    exact .cons rfl <| isChain_lineBreak style depth <| isChain_cons rfl <| isChain_cons rfl <|
      isChain_afterColon style <|
      isChain_pieces style depth value (follows_memberPieces style depth members h)

end

/-! ### From tokens to documents -/

@[simp]
theorem flatMap_tokens_lineBreak (style : Style) (depth : Nat) :
    (style.lineBreak depth).flatMap Piece.tokens = [] := by
  cases style <;> rfl

@[simp]
theorem flatMap_tokens_afterColon (style : Style) :
    style.afterColon.flatMap Piece.tokens = [] := by
  cases style <;> rfl

theorem exists_flatMap_tokens_pieces (style : Style) (depth : Nat) (j : Json) :
    ∃ t ts, (pieces style depth j).flatMap Piece.tokens = t :: ts ∧ t ≠ .closeArray := by
  match j with
  | .null | .bool _ | .string _ | .number _ | .array [] | .object [] =>
    exact ⟨_, _, rfl, fun h => by cases h⟩
  | .array (item :: items) | .object ((name, value) :: members) =>
    simp only [pieces, List.cons_append, List.flatMap_cons, Piece.tokens]
    exact ⟨_, _, rfl, fun h => by cases h⟩

theorem foldlM_step_firstItem (outer : List Frame) (style : Style) (depth : Nat) (j : Json) :
    ((pieces style depth j).flatMap Piece.tokens).foldlM Expected.step (.firstItem outer) =
      ((pieces style depth j).flatMap Piece.tokens).foldlM Expected.step
        (.value (.array [] :: outer)) := by
  obtain ⟨t, ts, htokens, hne⟩ := exists_flatMap_tokens_pieces style depth j
  have hstep :
      Expected.step (.firstItem outer) t = Expected.step (.value (.array [] :: outer)) t := by
    cases t with
    | closeArray => exact absurd rfl hne
    | _ => rfl
  rw [htokens, List.foldlM_cons, List.foldlM_cons, hstep]

mutual

/-- The tokens of a document are read as that document, inside any open frames. -/
theorem foldlM_step_pieces (outer : List Frame) (style : Style) (depth : Nat) (j : Json) :
    ((pieces style depth j).flatMap Piece.tokens).foldlM Expected.step (.value outer) =
      some (.after outer j) := by
  match j with
  | .null | .bool _ | .string _ | .number _ | .array [] | .object [] => rfl
  | .array (item :: items) =>
    have hitem := foldlM_step_pieces (.array [] :: outer) style (depth + 1) item
    have hitems := foldlM_step_itemPieces outer [] item style (depth + 1) items
    have hopen : Expected.step (.value outer) .openArray = some (.firstItem outer) := rfl
    simp only [pieces, List.cons_append, List.flatMap_cons, List.flatMap_append, Piece.tokens,
      flatMap_tokens_lineBreak, List.nil_append, List.append_nil, List.flatMap_nil,
      List.foldlM_cons, List.foldlM_append, hopen, foldlM_step_firstItem, hitem,
      Option.bind_eq_bind, Option.bind_some]
    rw [List.foldlM_append] at hitems
    simpa using hitems
  | .object ((name, value) :: members) =>
    have hvalue := foldlM_step_pieces (.object [] name :: outer) style (depth + 1) value
    have hmembers := foldlM_step_memberPieces outer [] name value style (depth + 1) members
    have hopen : Expected.step (.value outer) .openObject = some (.firstName outer) := rfl
    have hname :
        Expected.step (.firstName outer) (.string name) = some (.colon outer [] name) := rfl
    have hcolon : Expected.step (.colon outer [] name) .colon =
        some (.value (.object [] name :: outer)) := rfl
    simp only [pieces, List.cons_append, List.flatMap_cons, List.flatMap_append, Piece.tokens,
      flatMap_tokens_lineBreak, flatMap_tokens_afterColon, List.nil_append, List.append_nil,
      List.flatMap_nil, List.foldlM_cons, List.foldlM_append, hopen, hname, hcolon, hvalue,
      Option.bind_eq_bind, Option.bind_some]
    rw [List.foldlM_append] at hmembers
    simpa using hmembers

theorem foldlM_step_itemPieces (outer : List Frame) (before : List Json) (v : Json) (style : Style)
    (depth : Nat) (items : List Json) :
    ((itemPieces style depth items).flatMap Piece.tokens ++ [Token.closeArray]).foldlM Expected.step
        (.after (.array before :: outer) v) =
      some (.after outer (.array ((v :: before).reverse ++ items))) := by
  match items with
  | [] =>
    rw [List.append_nil]
    rfl
  | item :: items =>
    have hitem := foldlM_step_pieces (.array (v :: before) :: outer) style depth item
    have hitems := foldlM_step_itemPieces outer (v :: before) item style depth items
    have hcomma : Expected.step (.after (.array before :: outer) v) .comma =
        some (.value (.array (v :: before) :: outer)) := rfl
    simp only [itemPieces, List.cons_append, List.flatMap_cons, List.flatMap_append, Piece.tokens,
      flatMap_tokens_lineBreak, List.nil_append, List.append_assoc, List.foldlM_cons,
      List.foldlM_append, hcomma, hitem, Option.bind_eq_bind, Option.bind_some]
    rw [List.foldlM_append] at hitems
    simpa using hitems

theorem foldlM_step_memberPieces (outer : List Frame) (before : List (Option String × Json))
    (key : Option String) (v : Json) (style : Style) (depth : Nat)
    (members : List (Option String × Json)) :
    ((memberPieces style depth members).flatMap Piece.tokens ++ [Token.closeObject]).foldlM
        Expected.step (.after (.object before key :: outer) v) =
      some (.after outer (.object (((key, v) :: before).reverse ++ members))) := by
  match members with
  | [] =>
    rw [List.append_nil]
    rfl
  | (name, value) :: members =>
    have hvalue := foldlM_step_pieces (.object ((key, v) :: before) name :: outer) style depth value
    have hmembers := foldlM_step_memberPieces outer ((key, v) :: before) name value style depth
      members
    have hcomma : Expected.step (.after (.object before key :: outer) v) .comma =
        some (.name outer ((key, v) :: before)) := rfl
    have hname : Expected.step (.name outer ((key, v) :: before)) (.string name) =
        some (.colon outer ((key, v) :: before) name) := rfl
    have hcolon : Expected.step (.colon outer ((key, v) :: before) name) .colon =
        some (.value (.object ((key, v) :: before) name :: outer)) := rfl
    simp only [memberPieces, List.cons_append, List.flatMap_cons, List.flatMap_append,
      Piece.tokens, flatMap_tokens_lineBreak, flatMap_tokens_afterColon, List.nil_append,
      List.append_assoc, List.foldlM_cons, List.foldlM_append, hcomma, hname, hcolon, hvalue,
      Option.bind_eq_bind, Option.bind_some]
    rw [List.foldlM_append] at hmembers
    simpa using hmembers

end

theorem parse?_pieces_append (style : Style) (j : Json) {row : List Piece} (h : Follows row)
    (hblank : row.flatMap Piece.tokens = []) :
    parse? (String.ofList ((pieces style 0 j ++ row).flatMap Piece.chars)) = some j := by
  rw [parse?, String.toList_ofList, tokens?_flatMap_chars (isChain_pieces style 0 j h),
    Option.bind_some, List.flatMap_append, hblank, List.append_nil, ofTokens?, foldlM_step_pieces]
  rfl

/-- **Reading gives back what was written.** -/
theorem parse?_render (style : Style) (j : Json) : parse? (render style j) = some j := by
  have hread := parse?_pieces_append style j Follows.nil rfl
  rwa [List.append_nil] at hread

theorem parse?_render_newline (style : Style) (j : Json) :
    parse? (render style j ++ "\n") = some j := by
  have hrow : Follows [.newline 0] := .cons rfl .nil
  have htext : render style j ++ "\n" =
      String.ofList ((pieces style 0 j ++ [Piece.newline 0]).flatMap Piece.chars) := by
    rw [List.flatMap_append, String.ofList_append]
    rfl
  rw [htext]
  exact parse?_pieces_append style j hrow rfl

theorem render_injective {style style' : Style} {j j' : Json}
    (h : render style j = render style' j') : j = j' := by
  have hread := parse?_render style j
  rw [h, parse?_render] at hread
  exact (Option.some.inj hread).symm

end SectionChunks.Json
