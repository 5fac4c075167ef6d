import SectionChunks.Combining
import SectionChunks.Proofs.Gathering.Lockstep
import SectionChunks.Proofs.PreChunk
import SectionChunks.Section

/-! # What the two stages read

Combining reads nothing but lengths. Dividing also compares an element with the one before it, but
this can be done beforehand: once every element is marked with whether it may go on with what stands
before it, dividing reads nothing but the marks and lengths either.

* `combine_eq_gather`: combining by a `LengthRule`.
* `SectionRules.marks`, `sections_eq_gather_marks`: dividing by a `LengthRule`. -/

namespace SectionChunks

/-! ### Combining -/

/-- Any group may join. -/
def CombineRules.lengthRule (rules : CombineRules) : LengthRule TextGroup :=
  ⟨rules.combineUnder, fun _ => true⟩

theorem CombineRules.joins_lengthRule (rules : CombineRules) :
    rules.lengthRule.joins = rules.joins := by
  funext acc g
  rw [LengthRule.joins, joins, lengthRule, Bool.true_and]

theorem combine_eq_gather (rules : CombineRules) (preChunks : List PreChunk) :
    combine rules preChunks =
      (gather rules.lengthRule.joins rules.maxCharacters preChunks).map
        (Block.map TextGroup.concat) := by
  rw [rules.joins_lengthRule]
  rfl

/-! ### Dividing -/

/-- An element, and whether it may go on with what stands before it. -/
structure MarkedElement where
  element : Element
  goesOn : Bool

instance : HasTextLength MarkedElement := ⟨fun m => m.element.textLength⟩

/-- The group of marked elements. -/
def TextGroup.ofMarked (marked : List MarkedElement) : TextGroup := ⟨marked.map (·.element)⟩

namespace SectionRules

/-- Whether an element may go on with what stands before it: it is no title and stands in the same
place. -/
def goesOn (rules : SectionRules) (before : Option Element) (e : Element) : Bool :=
  decide (e.kind ≠ .title) && before.all (rules.samePlace · e)

/-- The elements marked, the first one with respect to `before`. -/
def marks (rules : SectionRules) (before : Option Element) :
    List Element → List (Block MarkedElement)
  | [] => []
  | e :: rest => e.block.map (fun e => ⟨e, rules.goesOn before e⟩) :: rules.marks (some e) rest

/-- Marked elements may join. -/
def lengthRule (rules : SectionRules) : LengthRule MarkedElement :=
  ⟨rules.newAfter, MarkedElement.goesOn⟩

theorem marks_append (rules : SectionRules) (before : Option Element) (xs ys : List Element) :
    rules.marks before (xs ++ ys) =
      rules.marks before xs ++ rules.marks (xs.getLast?.or before) ys := by
  induction xs generalizing before with
  | nil => rfl
  | cons x xs ih =>
    have hlast : (x :: xs).getLast?.or before = xs.getLast?.or (some x) := by
      rw [List.getLast?_cons]
      cases xs.getLast? <;> rfl
    rw [List.cons_append, marks, marks, ih, hlast, List.cons_append]

end SectionRules

open Gathering

theorem Element.rel_block_map {R : Element → MarkedElement → Prop} {e : Element}
    {f : Element → MarkedElement} (h : R e (f e)) : Block.Rel R Eq e.block (e.block.map f) := by
  by_cases hkind : e.kind = .table
  · rw [block_of_table hkind]
    exact .table rfl
  · rw [block_of_ne_table hkind]
    exact .text h

/-- The marks take the place of the comparison, as long as the last element of the open group is the
one before the next. -/
theorem lockstep_run_marks (rules : SectionRules) (elements : List Element)
    (before : Option Element) {s : Gathering Element} {s' : Gathering MarkedElement}
    (h : Lockstep (fun e m => e = m.element) Eq s s')
    (hlast : ∀ e, s.current.pieces.toList.getLast? = some e → before = some e) :
    Lockstep (fun e m => e = m.element) Eq (run rules.joins s (elements.map Element.block))
      (run rules.lengthRule.joins s' (rules.marks before elements)) := by
  induction elements generalizing before s s' with
  | nil => exact h
  | cons e rest ih =>
    refine ih (some e) (h.step (Element.rel_block_map rfl) fun p q hp hq hopen => ?_) ?_
    · obtain ⟨rfl, hkind⟩ := Element.block_eq_text_iff.mp hp
      rw [Element.block_of_ne_table hkind] at hq
      cases hq
      -- A group is open, so its last element is the one before `e`.
      obtain ⟨x, hx⟩ : ∃ x, s.current.pieces.toList.getLast? = some x := by
        rw [← Option.isSome_iff_exists, List.getLast?_isSome, ne_eq,
          ← Accumulator.isEmpty_iff, hopen]
        exact Bool.false_ne_true
      have hback : s.current.pieces.back? = before := by
        rw [← Array.getLast?_toList, hlast x hx, hx]
      have hlength : s.current.textLength = s'.current.textLength :=
        Accumulator.textLength_congr
          (fun e m (hm : e = m.element) => congrArg Element.textLength hm)
          h.pieces
      have hfits : s.current.fits e = s'.current.fits ⟨e, rules.goesOn before e⟩ :=
        Accumulator.fits_congr h.limit hlength rfl
      rw [SectionRules.joins, LengthRule.joins, hback, hlength, hfits]
      rfl
    · intro x hx
      by_cases hkind : e.kind = .table
      · rw [Element.block_of_table hkind] at hx
        cases hx
      · rw [Element.block_of_ne_table hkind, getLast?_step] at hx
        exact hx

/-- **Dividing reads marks and lengths.** The mark of the first element is not read. -/
theorem sections_eq_gather_marks (rules : SectionRules) (before : Option Element)
    (elements : List Element) :
    sections rules elements =
      (gather rules.lengthRule.joins rules.maxCharacters (rules.marks before elements)).map
        (Block.map TextGroup.ofMarked) := by
  have hrun := (lockstep_run_marks rules elements before
    (.start rules.maxCharacters) fun e he => by cases he).finish
  rw [sections, gather_eq_finish, gather_eq_finish, ← List.forall₂_eq_eq_eq,
    ← Block.rel_eq_eq_eq]
  refine forall₂_map_block (fun group marked hgroup => ?_) hrun
  rw [← List.forall₂_map_right_iff, List.forall₂_eq_eq_eq] at hgroup
  rw [hgroup]
  rfl

end SectionChunks
