import SectionChunks.Json.Lexer

/-! # Reading the literal of a number

A literal is written in four parts, the last two of which may be missing: a sign, the whole part,
the digits after the point and the power of ten. After each of them the reader has come to a state
that holds what was written so far, and the literal is complete.

* `foldlM_continue?_whole`, `foldlM_continue?_fraction`, `foldlM_continue?_power`: rows of digits.
* `read?_chars`: a literal that is written is read as it was.
* `Decimal.chars_injective`: different literals are written differently.
* `continue?_eq_none`: a complete literal ends at every character that `Stops` it. -/

namespace SectionChunks

open Number

/-! ### Digits -/

theorem Number.Digit.char_ne_point (d : Digit) : d.char ≠ '.' := by
  revert d; decide

theorem Number.Digit.isMark_char (d : Digit) : Json.NumberPart.isMark d.char = false := by
  revert d; decide

theorem Number.Digit.char_ne_sign (d : Digit) : d.char ≠ '-' ∧ d.char ≠ '+' := by
  revert d; decide

theorem Number.digitsBefore_eq_cons (n : Nat) (rest : List Digit) :
    ∃ d ds, digitsBefore n rest = d :: ds ∧ (d = Digit.zero → n = 0 ∧ ds = rest) ∧
      (n = 0 → d = Digit.zero) := by
  fun_induction digitsBefore n rest with
  | case1 n rest h =>
    refine ⟨Fin.ofNat 10 n, rest, rfl, fun hd => ⟨?_, rfl⟩, fun hn => by rw [hn]; rfl⟩
    have hval := congrArg Fin.val hd
    simp only [Fin.ofNat, Digit.zero] at hval
    omega
  | case2 n rest h ih =>
    obtain ⟨d, ds, heq, hzero, -⟩ := ih
    refine ⟨d, ds, heq, fun hd => ?_, fun hn => ?_⟩
    · have := (hzero hd).1
      omega
    · omega

namespace Json.NumberPart

/-! ### Rows of digits -/

theorem foldlM_continue?_whole (negative : Bool) (value : Nat) (ds : List Digit) :
    (ds.map Digit.char).foldlM continue? (.whole negative value) =
      some (.whole negative (valueFrom value ds)) := by
  induction ds generalizing value with
  | nil => rfl
  | cons d ds ih =>
    have hstep : continue? (.whole negative value) d.char =
        some (.whole negative (10 * value + d.val)) := by
      simp [continue?, d.char_ne_point, d.isMark_char, ofChar?_char]
    rw [List.map_cons, List.foldlM_cons, hstep, valueFrom_cons]
    exact ih _

theorem foldlM_continue?_fraction (negative : Bool) (front : Nat) (before ds : List Digit) :
    (ds.map Digit.char).foldlM continue? (.fraction negative front before) =
      some (.fraction negative front (ds.reverse ++ before)) := by
  induction ds generalizing before with
  | nil => rfl
  | cons d ds ih =>
    have hstep : continue? (.fraction negative front before) d.char =
        some (.fraction negative front (d :: before)) := by
      simp [continue?, d.isMark_char, ofChar?_char]
    rw [List.map_cons, List.foldlM_cons, hstep, List.reverse_cons, List.append_assoc]
    exact ih _

theorem foldlM_continue?_power (negative : Bool) (front : Nat) (digits : List Digit) (down : Bool)
    (value : Nat) (ds : List Digit) :
    (ds.map Digit.char).foldlM continue? (.power negative front digits down value) =
      some (.power negative front digits down (valueFrom value ds)) := by
  induction ds generalizing value with
  | nil => rfl
  | cons d ds ih =>
    have hstep : continue? (.power negative front digits down value) d.char =
        some (.power negative front digits down (10 * value + d.val)) := by
      simp [continue?, ofChar?_char]
    rw [List.map_cons, List.foldlM_cons, hstep, valueFrom_cons]
    exact ih _

/-! ### The parts of a literal -/

/-- After the first digit of the whole part. -/
def first (negative : Bool) (d : Digit) : NumberPart :=
  if d = Digit.zero then .zero negative else .whole negative d.val

/-- After the whole part. -/
def front (negative : Bool) (value : Nat) : NumberPart :=
  if value = 0 then .zero negative else .whole negative value

/-- After the digits behind the point, if there are any. -/
def behindPoint (negative : Bool) (value : Nat) (digits : List Digit) : NumberPart :=
  if digits = [] then front negative value else .fraction negative value digits.reverse

theorem foldlM_continue?_first (negative : Bool) {n : Nat} {d : Digit} {ds : List Digit}
    (h : digitsOf n = d :: ds) :
    (ds.map Digit.char).foldlM continue? (first negative d) = some (front negative n) := by
  obtain ⟨d', ds', heq, hzero, hn⟩ := digitsBefore_eq_cons n []
  obtain ⟨rfl, rfl⟩ := List.cons.inj (heq.symm.trans h)
  have hvalue := valueOf_digitsOf n
  rw [h, valueOf, valueFrom_cons] at hvalue
  by_cases hd : d' = Digit.zero
  · obtain ⟨rfl, rfl⟩ := hzero hd
    simp [first, front, hd]
  · have hne : n ≠ 0 := fun h0 => hd (hn h0)
    rw [first, if_neg hd, foldlM_continue?_whole, front, if_neg hne]
    simpa using hvalue

theorem foldlM_continue?_front (negative : Bool) (n : Nat) (ds : List Digit) :
    (if ds.isEmpty then [] else '.' :: ds.map Digit.char).foldlM continue? (front negative n) =
      some (behindPoint negative n ds) := by
  cases ds with
  | nil => rfl
  | cons d ds =>
    have hpoint : continue? (front negative n) '.' = some (.point negative n) := by
      unfold front
      split <;> simp_all [continue?]
    have hdigit : continue? (.point negative n) d.char = some (.fraction negative n [d]) := by
      simp [continue?, ofChar?_char]
    rw [List.isEmpty_cons, if_neg Bool.false_ne_true, List.foldlM_cons, hpoint]
    show (List.map Digit.char (d :: ds)).foldlM continue? (.point negative n) = _
    rw [List.map_cons, List.foldlM_cons, hdigit]
    show (ds.map Digit.char).foldlM continue? (.fraction negative n [d]) = _
    rw [foldlM_continue?_fraction, behindPoint, if_neg (List.cons_ne_nil d ds), List.reverse_cons]

/-- How the power of ten is written. -/
def powerChars : Option Int → List Char
  | none => []
  | some e => 'e' :: (if e < 0 then ['-'] else []) ++ (digitsOf e.natAbs).map Digit.char

theorem continue?_powerSign (negative : Bool) (n : Nat) (digits : List Digit) (d : Digit) :
    continue? (.powerSign negative n digits true) d.char =
      some (.power negative n digits true d.val) ∧
    continue? (.mark negative n digits) d.char = some (.power negative n digits false d.val) := by
  simp [continue?, ofChar?_char, d.char_ne_sign]

theorem foldlM_continue?_behindPoint (negative : Bool) (n : Nat) (ds : List Digit)
    (e : Option Int) :
    ∃ p, (powerChars e).foldlM continue? (behindPoint negative n ds) = some p ∧
      p.complete? = some ⟨negative, n, ds, e⟩ := by
  cases e with
  | none =>
    refine ⟨behindPoint negative n ds, rfl, ?_⟩
    unfold behindPoint front
    split
    · split <;> simp_all [complete?]
    · simp [complete?]
  | some e =>
    have hmark :
        continue? (behindPoint negative n ds) 'e' = some (.mark negative n ds.reverse) := by
      unfold behindPoint front
      split
      · split <;> simp_all [continue?, isMark]
      · simp [continue?, isMark]
    obtain ⟨d, rest, hdigits, -, -⟩ := digitsBefore_eq_cons e.natAbs []
    have hvalue : valueFrom d.val rest = e.natAbs := by
      have h := valueOf_digitsOf e.natAbs
      rw [digitsOf, hdigits, valueOf, valueFrom_cons] at h
      simpa using h
    obtain ⟨hdown, hup⟩ := continue?_powerSign negative n ds.reverse d
    by_cases he : e < 0
    · have hminus : continue? (.mark negative n ds.reverse) '-' =
          some (.powerSign negative n ds.reverse true) := by
        simp [continue?]
      refine ⟨.power negative n ds.reverse true e.natAbs, ?_, ?_⟩
      · simp only [powerChars, if_pos he, digitsOf, hdigits, List.cons_append, List.nil_append,
          List.map_cons, List.foldlM_cons, hmark, hminus, hdown, Option.bind_eq_bind,
          Option.bind_some, foldlM_continue?_power, hvalue]
      · simp only [complete?, List.reverse_reverse, if_true]
        congr
        omega
    · refine ⟨.power negative n ds.reverse false e.natAbs, ?_, ?_⟩
      · simp only [powerChars, if_neg he, digitsOf, hdigits, List.cons_append, List.nil_append,
          List.map_cons, List.foldlM_cons, hmark, hup, Option.bind_eq_bind, Option.bind_some,
          foldlM_continue?_power, hvalue]
      · simp only [complete?, List.reverse_reverse, Bool.false_eq_true, if_false]
        congr
        omega

/-! ### Whole literals -/

/-- How far a number has been read after some characters, the first of which starts it. -/
def read? : List Char → Option NumberPart
  | [] => none
  | c :: cs => (start? c).bind fun p => cs.foldlM continue? p

theorem read?_append {cs cs' : List Char} (hne : cs ≠ []) :
    read? (cs ++ cs') = (read? cs).bind fun p => cs'.foldlM continue? p := by
  cases cs with
  | nil => exact absurd rfl hne
  | cons c cs =>
    simp only [read?, List.cons_append, List.foldlM_append]
    cases start? c <;> rfl

theorem read?_front (negative : Bool) (n : Nat) :
    read? ((if negative then ['-'] else []) ++ (digitsOf n).map Digit.char) =
      some (front negative n) := by
  obtain ⟨d, ds, hdigits, -, -⟩ := digitsBefore_eq_cons n []
  have hwhole := foldlM_continue?_first negative hdigits
  have hdigits : digitsOf n = d :: ds := hdigits
  rw [hdigits]
  cases negative with
  | true =>
    have hsign : continue? .sign d.char = some (first true d) := by
      simp [continue?, ofChar?_char, first]
    simp [read?, start?, List.foldlM_cons, hsign, hwhole]
  | false =>
    have hstart : start? d.char = some (first false d) := by
      simp [start?, d.char_ne_sign, ofChar?_char, first]
    simp [read?, hstart, hwhole]

/-- A literal that is written is read as it was. -/
theorem read?_chars (d : Decimal) : ∃ p, read? d.chars = some p ∧ p.complete? = some d := by
  obtain ⟨negative, whole, fraction, exponent⟩ := d
  have hchars : Decimal.chars ⟨negative, whole, fraction, exponent⟩ =
      (((if negative then ['-'] else []) ++ (digitsOf whole).map Digit.char) ++
        (if fraction.isEmpty then [] else '.' :: fraction.map Digit.char)) ++
        powerChars exponent := by
    cases exponent <;> rfl
  have hne : (if negative then ['-'] else []) ++ (digitsOf whole).map Digit.char ≠ [] := by
    intro hnil
    have hread := read?_front negative whole
    rw [hnil] at hread
    cases hread
  obtain ⟨p, hp, hcomplete⟩ := foldlM_continue?_behindPoint negative whole fraction exponent
  refine ⟨p, ?_, hcomplete⟩
  rw [hchars, read?_append (List.append_ne_nil_of_left_ne_nil hne _), read?_append hne, read?_front]
  simp only [Option.bind_some, foldlM_continue?_front, hp]

/-! ### Where a literal ends -/

/-- A character that goes on with no literal that is complete. -/
structure Stops (c : Char) : Prop where
  digit : Digit.ofChar? c = none
  point : c ≠ '.'
  mark : isMark c = false

/-- **A complete literal ends** at every character that stops it. -/
theorem continue?_eq_none {p : NumberPart} {d : Decimal} {c : Char} (hp : p.complete? = some d)
    (hc : Stops c) : p.continue? c = none := by
  cases p with
  | zero negative => simp [continue?, hc.point, hc.mark]
  | whole negative value => simp [continue?, hc.point, hc.mark, hc.digit]
  | fraction negative front digits => simp [continue?, hc.mark, hc.digit]
  | power negative front digits down value => simp [continue?, hc.digit]
  | sign => cases hp
  | point negative whole => cases hp
  | mark negative whole digits => cases hp
  | powerSign negative whole digits down => cases hp

end Json.NumberPart

theorem Decimal.chars_injective {d d' : Decimal} (h : d.chars = d'.chars) : d = d' := by
  obtain ⟨p, hread, hp⟩ := Json.NumberPart.read?_chars d
  obtain ⟨p', hread', hp'⟩ := Json.NumberPart.read?_chars d'
  rw [h, hread'] at hread
  cases hread
  exact Option.some.inj (hp.symm.trans hp')

end SectionChunks
