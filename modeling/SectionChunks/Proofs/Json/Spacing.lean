import SectionChunks.Proofs.Json.Parse

/-! # Blanks between tokens

The blanks between the tokens of a document do not count. At a place where a text *falls apart* into
whole tokens a blank can be put in. The other way round, any blank with whole tokens on both sides
can be left out of a document. Not of every text, since the two numbers in `1 2` would become one.
But two numbers never stand side by side in a document, and all other tokens keep apart without a
blank.

* `Lexer.step_behind`: what the lexer does does not depend on the tokens that it has found already,
  so that the tokens of a text can be told from those of its parts (`tokens?_append_blank`).
* `FallsApart`: a place between two tokens.
* `FallsApart.parse?_blank`: **a blank more between two tokens** changes nothing.
* `fallsApart_of_parse?`: **every blank between tokens can be left out** of a document. -/

namespace SectionChunks.Json

open Number NumberPart

variable {before after : List Char} {c : Char} {ts ts' : List Token}

namespace Lexer

/-! ### Behind other tokens -/

/-- The same state with other tokens before. -/
def State.behind (s : State) (earlier : List Token) : State := ⟨s.tokens ++ earlier, s.mode⟩

theorem start_behind (tokens earlier : List Token) (c : Char) :
    start (tokens ++ earlier) c = (start tokens c).map (·.behind earlier) := by
  have hnumber : ∀ p? : Option NumberPart,
      p?.map (fun p => (⟨tokens ++ earlier, .number p⟩ : State)) =
        (p?.map fun p => (⟨tokens, .number p⟩ : State)).map (·.behind earlier) := by
    intro p?
    cases p? <;> rfl
  unfold start
  rw [hnumber]
  simp only [apply_ite (Option.map _)]
  rfl

/-- What the lexer does with a character does not depend on the tokens before it. -/
theorem step_behind (s : State) (earlier : List Token) (c : Char) :
    step (s.behind earlier) c = (step s c).map (·.behind earlier) := by
  obtain ⟨tokens, mode⟩ := s
  cases mode with
  | between => exact start_behind tokens earlier c
  | word missing token =>
    simp only [step, State.behind, word]
    repeat' split
    all_goals rfl
  | number p =>
    simp only [step, State.behind, number]
    split
    · rfl
    · split
      · exact start_behind (_ :: tokens) earlier c
      · rfl
  | string p =>
    simp only [step, State.behind, string]
    cases p with
    | text units => simp only [apply_ite (Option.map _)]; rfl
    | escape units => cases escaped? c <;> simp only [apply_ite (Option.map _)] <;> rfl
    | code units missing value =>
      cases hexValue? c with
      | none => rfl
      | some h => simp only [Option.map_some]; split <;> rfl

theorem foldlM_step_behind (s : State) (earlier : List Token) (cs : List Char) :
    cs.foldlM step (s.behind earlier) = (cs.foldlM step s).map (·.behind earlier) := by
  induction cs generalizing s with
  | nil => rfl
  | cons c cs ih =>
    rw [List.foldlM_cons, List.foldlM_cons, step_behind]
    cases step s c with
    | none => rfl
    | some s' => exact ih s'

theorem read?_behind (s : State) (earlier : List Token) (rest : List Char) :
    (s.behind earlier).read? rest = (s.read? rest).map (earlier.reverse ++ ·) := by
  rw [State.read?, State.read?, foldlM_step_behind]
  cases rest.foldlM step s with
  | none => rfl
  | some s' =>
    obtain ⟨tokens, mode⟩ := s'
    cases mode with
    | between => simp [State.behind, State.finish?]
    | number p => cases hp : p.complete? <;> simp [State.behind, State.finish?, hp]
    | word missing token => rfl
    | string p => rfl

theorem from?_eq_map (tokens : List Token) (rest : List Char) :
    from? tokens rest = (tokens? rest).map (tokens.reverse ++ ·) :=
  read?_behind .initial tokens rest

/-! ### A blank behind whole tokens -/

theorem stops_of_isBlank (h : isBlank c = true) : Stops c := by
  simp only [isBlank, Bool.or_eq_true, decide_eq_true_eq] at h
  rcases h with ((rfl | rfl) | rfl) | rfl <;> exact ⟨rfl, by decide, rfl⟩

theorem step_blank {s : State} (h : s.finish? = some ts) (hc : isBlank c = true) :
    step s c = some ⟨ts.reverse, .between⟩ := by
  obtain ⟨tokens, mode⟩ := s
  have hstart : ∀ tokens, start tokens c = some ⟨tokens, .between⟩ := fun tokens => by
    rw [start, if_pos hc]
  cases mode with
  | between =>
    cases h
    rw [List.reverse_reverse]
    exact hstart tokens
  | number p =>
    obtain ⟨d, hd, rfl⟩ := Option.map_eq_some_iff.mp h
    simp only [step, number, continue?_eq_none hd (stops_of_isBlank hc), hd, List.reverse_reverse]
    exact hstart _
  | word missing token => cases h
  | string p => cases h

end Lexer

open Lexer

/-- A blank behind whole tokens ends the last of them. -/
theorem tokens?_append_blank (h : tokens? before = some ts) (hc : isBlank c = true) :
    tokens? (before ++ c :: after) = (tokens? after).map (ts ++ ·) := by
  obtain ⟨s, hs, hfinish⟩ := Option.bind_eq_some_iff.mp h
  have hafter : (after.foldlM step ⟨ts.reverse, .between⟩).bind State.finish? =
      (tokens? after).map (ts.reverse.reverse ++ ·) := from?_eq_map ts.reverse after
  rw [List.reverse_reverse] at hafter
  rw [tokens?, List.foldlM_append, hs]
  simp only [Option.bind_eq_bind, Option.bind_some, List.foldlM_cons, step_blank hfinish hc, hafter]

/-! ### Places between tokens -/

/-- A text falls apart at a place if there are whole tokens on both sides of it. -/
def FallsApart (before after : List Char) : Prop :=
  ∃ ts ts', tokens? before = some ts ∧ tokens? after = some ts' ∧
    tokens? (before ++ after) = some (ts ++ ts')

theorem FallsApart.of_nil (h : tokens? after = some ts) : FallsApart [] after := ⟨[], ts, rfl, h, h⟩

theorem FallsApart.tokens?_blank (h : FallsApart before after) (hc : isBlank c = true) :
    tokens? (before ++ c :: after) = tokens? (before ++ after) := by
  obtain ⟨ts, ts', hbefore, hafter, hwhole⟩ := h
  rw [tokens?_append_blank hbefore hc, hafter, hwhole]
  rfl

/-- A blank more between two tokens changes nothing. -/
theorem FallsApart.parse?_blank (h : FallsApart before after) (hc : isBlank c = true) :
    parse? (String.ofList (before ++ c :: after)) = parse? (String.ofList (before ++ after)) := by
  rw [parse?, parse?, String.toList_ofList, String.toList_ofList, h.tokens?_blank hc]

/-! ### Two numbers are never side by side -/

theorem Expected.exists_of_step_number {e e' : Expected} {d : Decimal}
    (h : e.step (.number d) = some e') : ∃ outer v, e' = .after outer v := by
  cases e with
  | value outer | firstItem outer => cases h; exact ⟨_, _, rfl⟩
  | firstName outer | name outer before | colon outer before key => cases h
  | after outer v => rcases outer with _ | ⟨_ | _, _⟩ <;> cases h

/-- No document has two numbers side by side. -/
theorem ofTokens?_two_numbers (d d' : Decimal) :
    ofTokens? (ts ++ .number d :: .number d' :: ts') = none := by
  rw [ofTokens?, List.foldlM_append]
  cases ts.foldlM Expected.step (.value []) with
  | none => rfl
  | some e =>
    simp only [Option.bind_eq_bind, Option.bind_some, List.foldlM_cons]
    cases hd : e.step (.number d) with
    | none => rfl
    | some e' =>
      obtain ⟨outer, v, rfl⟩ := Expected.exists_of_step_number hd
      rcases outer with _ | ⟨_ | _, _⟩ <;> rfl

theorem Lexer.exists_number_of_read? {p : NumberPart} {cs : List Char}
    (h : State.read? ⟨[], .number p⟩ cs = some ts) : ∃ d ts', ts = .number d :: ts' := by
  induction cs generalizing p with
  | nil =>
    obtain ⟨d, -, rfl⟩ := Option.map_eq_some_iff.mp h
    exact ⟨d, [], rfl⟩
  | cons c cs ih =>
    rw [State.read?_cons] at h
    obtain ⟨s, hs, hread⟩ := Option.bind_eq_some_iff.mp h
    simp only [step, number] at hs
    split at hs
    · cases hs
      exact ih hread
    · split at hs
      · rename_i d _
        -- the number is whole, and all that is read now comes behind it
        rw [← List.nil_append [Token.number d], start_behind] at hs
        obtain ⟨s', -, rfl⟩ := Option.map_eq_some_iff.mp hs
        rw [read?_behind] at hread
        obtain ⟨ts', -, rfl⟩ := Option.map_eq_some_iff.mp hread
        exact ⟨d, ts', rfl⟩
      · cases hs

/-- Where whole tokens begin there is a character that stops a number, unless the first of them is a
number. -/
theorem stops_or_number (h : tokens? (c :: after) = some ts) :
    Stops c ∨ ∃ d ts', ts = .number d :: ts' := by
  by_cases hdigit : Digit.ofChar? c = none
  · refine .inl ⟨hdigit, ?_, ?_⟩
    · rintro rfl
      cases h
    · cases hmark : isMark c with
      | false => rfl
      | true =>
        simp only [isMark, Bool.or_eq_true, decide_eq_true_eq] at hmark
        rcases hmark with rfl | rfl <;> cases h
  · obtain ⟨d, hd⟩ := Option.ne_none_iff_exists'.mp hdigit
    have hminus : c ≠ '-' := by
      rintro rfl
      cases hd
    obtain ⟨p, hp⟩ : ∃ p, start? c = some p := by
      rw [start?, if_neg hminus, hd]
      exact ⟨_, rfl⟩
    have hstep : step .initial c = some ⟨[], .number p⟩ := start_of_start? [] hp
    rw [tokens?, List.foldlM_cons, hstep] at h
    exact .inr (exists_number_of_read? h)

/-- **Every blank between tokens can be left out** of a document. -/
theorem fallsApart_of_parse? {j : Json} (hc : isBlank c = true) (hbefore : tokens? before = some ts)
    (hafter : tokens? after = some ts')
    (h : parse? (String.ofList (before ++ c :: after)) = some j) : FallsApart before after := by
  refine ⟨ts, ts', hbefore, hafter, ?_⟩
  rw [parse?, String.toList_ofList, tokens?_append_blank hbefore hc, hafter] at h
  obtain ⟨s, hs, hfinish⟩ := Option.bind_eq_some_iff.mp hbefore
  have hread : tokens? (before ++ after) = s.read? after := by
    rw [tokens?, List.foldlM_append, hs]
    rfl
  have hfrom : from? ts.reverse after = some (ts ++ ts') := by
    rw [from?_eq_map, hafter, List.reverse_reverse]
    rfl
  rw [hread, ← hfrom]
  obtain ⟨tokens, mode⟩ := s
  cases mode with
  | between =>
    cases hfinish
    rw [List.reverse_reverse]
    rfl
  | number p =>
    obtain ⟨d, hd, rfl⟩ := Option.map_eq_some_iff.mp hfinish
    rw [List.reverse_reverse]
    refine read?_number tokens hd fun c' hc' => ?_
    cases after with
    | nil => cases hc'
    | cons c'' rest =>
      cases hc'
      refine (stops_or_number hafter).resolve_right ?_
      rintro ⟨d', us, rfl⟩
      have htokens : (Token.number d :: tokens).reverse ++ .number d' :: us =
          tokens.reverse ++ .number d :: .number d' :: us := by
        simp
      rw [Option.map_some, Option.bind_some, htokens, ofTokens?_two_numbers] at h
      cases h
  | word missing token => cases hfinish
  | string p => cases hfinish

end SectionChunks.Json
