import Mathlib.Data.List.Chain
import SectionChunks.Json.Print
import SectionChunks.Proofs.Json.Number

/-! # Reading the tokens of a text that was written

A text is written as a row of pieces, its tokens and the blanks between them, and the lexer finds
the same tokens again. It goes through the pieces one by one. Only a number needs to know what
follows it, since it ends where something stands that cannot go on with it.

* `foldlM_step_quoted`: the characters of a string.
* `from?_chars_append`: one piece, with anything behind it that stops a number.
* `tokens?_flatMap_chars`: a row of pieces without two numbers side by side. -/

namespace SectionChunks.Json

open Number NumberPart

namespace Lexer

/-- The tokens of a text, the rest of which is still to come. -/
def State.read? (s : State) (rest : List Char) : Option (List Token) :=
  (rest.foldlM step s).bind State.finish?

/-- The tokens of a text, the rest of which is still to come between two tokens. -/
def from? (tokens : List Token) (rest : List Char) : Option (List Token) :=
  (rest.foldlM step ⟨tokens, .between⟩).bind State.finish?

theorem State.read?_cons (s : State) (c : Char) (rest : List Char) :
    s.read? (c :: rest) = (step s c).bind (·.read? rest) := by
  rw [State.read?, List.foldlM_cons]
  cases step s c <;> rfl

/-! ### Strings -/

theorem hexValue?_hexDigit {n : Nat} (h : n < 16) : hexValue? (hexDigit n) = some n := by
  revert n; decide

theorem ofCode_toNat {c : Char} (h : c.toNat < 32) : StringUnit.ofCode c.toNat = .char c := by
  have hhigh : isHighHalf c.toNat = false := by
    simp only [isHighHalf, decide_eq_false_iff_not]
    omega
  have hlow : isLowHalf c.toNat = false := by
    simp only [isLowHalf, decide_eq_false_iff_not]
    omega
  rw [StringUnit.ofCode, hhigh, hlow, Char.ofNat_toNat]
  rfl

/-- The four digits of a character below U+0020. -/
theorem foldlM_step_code (tokens : List Token) (units : List StringUnit) {c : Char}
    (h : c.toNat < 32) :
    ['\\', 'u', '0', '0', hexDigit (c.toNat / 16), hexDigit (c.toNat % 16)].foldlM step
        ⟨tokens, .string (.text units)⟩ =
      some ⟨tokens, .string (.text (.char c :: units))⟩ := by
  have hhigh := hexValue?_hexDigit (show c.toNat / 16 < 16 by omega)
  have hlow := hexValue?_hexDigit (show c.toNat % 16 < 16 by omega)
  have hsum : 16 * (c.toNat / 16) + c.toNat % 16 = c.toNat := by omega
  have hzeros : ['\\', 'u', '0', '0'].foldlM step ⟨tokens, .string (.text units)⟩ =
      some ⟨tokens, .string (.code units 2 0)⟩ := rfl
  show ((['\\', 'u', '0', '0'] ++
    [hexDigit (c.toNat / 16), hexDigit (c.toNat % 16)]).foldlM step _) = _
  rw [List.foldlM_append, hzeros]
  simp [step, string, hhigh, hlow, hsum, ofCode_toNat h]

theorem foldlM_step_escape (tokens : List Token) (units : List StringUnit) (c : Char) :
    (escape c).foldlM step ⟨tokens, .string (.text units)⟩ =
      some ⟨tokens, .string (.text (.char c :: units))⟩ := by
  have hofNat : Char.ofNat c.toNat = c := Char.ofNat_toNat c
  unfold escape
  by_cases hquote : c = '"'
  · subst hquote; rfl
  by_cases hslash : c = '\\'
  · subst hslash; rfl
  rw [if_neg hquote, if_neg hslash]
  by_cases hlow : c.toNat < 32
  · rw [if_pos hlow]
    by_cases hback : c.toNat = 8
    · rw [if_pos hback, ← hofNat, hback]; rfl
    by_cases htab : c = '\t'
    · subst htab; rfl
    by_cases hline : c = '\n'
    · subst hline; rfl
    by_cases hfeed : c.toNat = 12
    · rw [if_neg hback, if_neg htab, if_neg hline, if_pos hfeed, ← hofNat, hfeed]; rfl
    by_cases hreturn : c = '\r'
    · subst hreturn; rfl
    rw [if_neg hback, if_neg htab, if_neg hline, if_neg hfeed, if_neg hreturn]
    exact foldlM_step_code tokens units hlow
  · simp [hlow, step, string, hquote, hslash]

theorem foldlM_step_flatMap_escape (tokens : List Token) (units : List StringUnit)
    (cs : List Char) :
    (cs.flatMap escape).foldlM step ⟨tokens, .string (.text units)⟩ =
      some ⟨tokens, .string (.text ((cs.map StringUnit.char).reverse ++ units))⟩ := by
  induction cs generalizing units with
  | nil => rfl
  | cons c cs ih =>
    rw [List.flatMap_cons, List.foldlM_append, foldlM_step_escape, List.map_cons,
      List.reverse_cons, List.append_assoc]
    exact ih _

theorem textOf?_map_char (cs : List Char) : textOf? (cs.map StringUnit.char) = some cs := by
  induction cs with
  | nil => rfl
  | cons c cs ih => rw [List.map_cons, textOf?, ih]; rfl

/-- What stands between the quotes of a string is read as the string. -/
theorem foldlM_step_quoted (tokens : List Token) (s : Option String) :
    ∃ units, (quoted s).foldlM step ⟨tokens, .string (.text [])⟩ =
      some ⟨tokens, .string (.text units)⟩ ∧ finish units = s := by
  cases s with
  | none => exact ⟨[.half 0xD800], rfl, rfl⟩
  | some text =>
    refine ⟨_, foldlM_step_flatMap_escape tokens [] text.toList, ?_⟩
    rw [List.append_nil, finish, List.reverse_reverse, textOf?_map_char, Option.map_some,
      String.ofList_toList]

theorem from?_string (tokens : List Token) (s : Option String) (rest : List Char) :
    from? tokens ((Token.string s).chars ++ rest) = from? (.string s :: tokens) rest := by
  obtain ⟨units, hunits, hfinish⟩ := foldlM_step_quoted tokens s
  have hopen : step ⟨tokens, .between⟩ '"' = some ⟨tokens, .string (.text [])⟩ := rfl
  have hclose : step ⟨tokens, .string (.text units)⟩ '"' =
      some ⟨.string s :: tokens, .between⟩ := by
    rw [← hfinish]; rfl
  simp only [from?, Token.chars, List.cons_append, List.append_assoc, List.foldlM_cons,
    List.foldlM_append, hopen, hunits, hclose, Option.bind_eq_bind, Option.bind_some,
    List.nil_append]

/-! ### Numbers -/

theorem start_of_start? (tokens : List Token) {c : Char} {p : NumberPart} (h : start? c = some p) :
    start tokens c = some ⟨tokens, .number p⟩ := by
  have hne : ∀ d, start? d = none → c ≠ d := by
    rintro d hd rfl
    rw [h] at hd
    cases hd
  simp [start, isBlank, hne ' ' rfl, hne '\t' rfl, hne '\n' rfl, hne '\r' rfl, hne '[' rfl,
    hne ']' rfl, hne '{' rfl, hne '}' rfl, hne ',' rfl, hne ':' rfl, hne 'n' rfl, hne 't' rfl,
    hne 'f' rfl, hne '"' rfl, h]

theorem foldlM_step_number (tokens : List Token) {cs : List Char} {p q : NumberPart}
    (h : cs.foldlM continue? p = some q) :
    cs.foldlM step ⟨tokens, .number p⟩ = some ⟨tokens, .number q⟩ := by
  induction cs generalizing p with
  | nil => cases h; rfl
  | cons c cs ih =>
    rw [List.foldlM_cons] at h ⊢
    cases hc : p.continue? c with
    | none => rw [hc] at h; cases h
    | some p' =>
      rw [hc] at h
      have hstep : step ⟨tokens, .number p⟩ c = some ⟨tokens, .number p'⟩ := by
        simp [step, number, hc]
      rw [hstep]
      exact ih h

theorem read?_number (tokens : List Token) {p : NumberPart} {d : Decimal} {rest : List Char}
    (hp : p.complete? = some d) (hrest : ∀ c ∈ rest.head?, Stops c) :
    State.read? ⟨tokens, .number p⟩ rest = from? (.number d :: tokens) rest := by
  cases rest with
  | nil => simp [State.read?, from?, State.finish?, hp]
  | cons c cs =>
    have hnone := continue?_eq_none hp (hrest c rfl)
    have hstep : step ⟨tokens, .number p⟩ c = step ⟨.number d :: tokens, .between⟩ c := by
      simp [step, number, hnone, hp]
    rw [State.read?_cons, hstep]
    exact (State.read?_cons ⟨.number d :: tokens, .between⟩ c cs).symm

theorem from?_number (tokens : List Token) (d : Decimal) (rest : List Char)
    (hrest : ∀ c ∈ rest.head?, Stops c) :
    from? tokens ((Token.number d).chars ++ rest) = from? (.number d :: tokens) rest := by
  obtain ⟨p, hread, hcomplete⟩ := read?_chars d
  have hrun : d.chars.foldlM step ⟨tokens, .between⟩ = some ⟨tokens, .number p⟩ := by
    cases hchars : d.chars with
    | nil => rw [hchars] at hread; cases hread
    | cons c cs =>
      rw [hchars] at hread
      obtain ⟨p₀, hstart, hcs⟩ := Option.bind_eq_some_iff.mp hread
      have hstep : step ⟨tokens, .between⟩ c = some ⟨tokens, .number p₀⟩ :=
        start_of_start? tokens hstart
      rw [List.foldlM_cons, hstep]
      exact foldlM_step_number tokens hcs
  rw [from?, Token.chars, List.foldlM_append, hrun]
  exact read?_number tokens hcomplete hrest

end Lexer

/-! ### Pieces -/

namespace Piece

/-- Whether a piece is a number. -/
def isNumber : Piece → Bool
  | .token (.number _) => true
  | _ => false

/-- The token of a piece, if it is one. -/
def tokens : Piece → List Token
  | .token t => [t]
  | .newline _ => []
  | .space => []

theorem stops_of_mem_head? {p : Piece} (h : p.isNumber = false) (rest : List Char) :
    ∀ c ∈ (p.chars ++ rest).head?, Stops c := by
  have hstops : ∀ c, Digit.ofChar? c = none ∧ c ≠ '.' ∧ isMark c = false → Stops c :=
    fun c hc => ⟨hc.1, hc.2.1, hc.2.2⟩
  intro c hc
  apply hstops
  cases p with
  | newline depth => cases hc; decide
  | space => cases hc; decide
  | token t =>
    cases t with
    | number d => cases h
    | bool b => cases b <;> cases hc <;> decide
    | _ => cases hc; decide

end Piece

namespace Lexer

theorem from?_replicate_space (tokens : List Token) (n : Nat) (rest : List Char) :
    from? tokens (List.replicate n ' ' ++ rest) = from? tokens rest := by
  induction n with
  | zero => rfl
  | succ n ih => rw [List.replicate_succ, List.cons_append, ← ih]; rfl

/-- One piece, with something behind it that stops it if it is a number. -/
theorem from?_chars_append (tokens : List Token) (p : Piece) (rest : List Char)
    (hrest : p.isNumber = true → ∀ c ∈ rest.head?, Stops c) :
    from? tokens (p.chars ++ rest) = from? (p.tokens ++ tokens) rest := by
  cases p with
  | space => rfl
  | newline depth => exact from?_replicate_space tokens (2 * depth) rest
  | token t =>
    cases t with
    | number d => exact from?_number tokens d rest (hrest rfl)
    | string s => exact from?_string tokens s rest
    | bool b => cases b <;> rfl
    | _ => rfl

/-- Two pieces that may stand side by side: not both of them are numbers. -/
def Apart (p q : Piece) : Prop := p.isNumber = true → q.isNumber = false

theorem from?_flatMap_chars (tokens : List Token) {row : List Piece} (h : row.IsChain Apart) :
    from? tokens (row.flatMap Piece.chars) = some (tokens.reverse ++ row.flatMap Piece.tokens) := by
  induction row generalizing tokens with
  | nil => simp [from?, State.finish?]
  | cons p row ih =>
    have hstops : p.isNumber = true → ∀ c ∈ (row.flatMap Piece.chars).head?, Stops c := by
      intro hp c hc
      cases row with
      | nil => cases hc
      | cons q row =>
        rw [List.flatMap_cons] at hc
        exact Piece.stops_of_mem_head? ((List.isChain_cons_cons.mp h).1 hp) _ c hc
    rw [List.flatMap_cons, from?_chars_append tokens p _ hstops, ih _ h.tail, List.flatMap_cons]
    cases p <;> simp [Piece.tokens]

end Lexer

/-- **The tokens of a row of pieces** are read as they were written. -/
theorem tokens?_flatMap_chars {row : List Piece} (h : row.IsChain Lexer.Apart) :
    tokens? (row.flatMap Piece.chars) = some (row.flatMap Piece.tokens) :=
  Lexer.from?_flatMap_chars [] h

end SectionChunks.Json
