import Mathlib.Data.List.Forall2
import SectionChunks.Proofs.Gathering

/-! # Gathering side by side

Two rows of blocks are gathered side by side, possibly of pieces of different types. As long as the
two rules take the same decisions, the groups stay alike (`Lockstep`): they are as many, with pieces
that correspond to each other.

* `Lockstep.step`: one block on either side.
* `LengthRule`: a rule that reads no more than lengths, and of the new piece whether it may join at
  all. By such a rule pieces of equal length are gathered alike (`forall₂_gather`). -/

namespace SectionChunks

/-- Blocks that correspond to each other: pieces by one relation, tables by another. -/
inductive Block.Rel {α β : Type} (R : α → β → Prop) (T : Element → Element → Prop) :
    Block α → Block β → Prop
  | text {a : α} {b : β} (h : R a b) : Rel R T (.text a) (.text b)
  | table {s t : Element} (h : T s t) : Rel R T (.table s) (.table t)

variable {α β : Type} {R : α → β → Prop} {T : Element → Element → Prop}

theorem Block.rel_eq_eq_eq : Block.Rel (Eq : α → α → Prop) Eq = Eq := by
  funext a b
  refine propext ⟨fun h => ?_, fun h => ?_⟩
  · cases h with
    | text h => rw [h]
    | table h => rw [h]
  · subst h
    cases a with
    | text a => exact .text rfl
    | table t => exact .table rfl

theorem Block.Rel.map {γ δ : Type} {Q : γ → δ → Prop} {f : α → γ} {g : β → δ}
    (hR : ∀ a b, R a b → Q (f a) (g b)) {a : Block α} {b : Block β} (h : Block.Rel R T a b) :
    Block.Rel Q T (a.map f) (b.map g) := by
  cases h with
  | text h => exact .text (hR _ _ h)
  | table h => exact .table h

/-! ### Lists of what corresponds -/

theorem map_eq_map_iff_forall₂ {γ : Type} {f : α → γ} {g : β → γ} {as : List α} {bs : List β} :
    as.map f = bs.map g ↔ List.Forall₂ (fun a b => f a = g b) as bs := by
  rw [← List.forall₂_eq_eq_eq, List.forall₂_map_left_iff, List.forall₂_map_right_iff]

theorem flatMap_eq_of_forall₂ {γ : Type} {f : α → List γ} {g : β → List γ} {as : List α}
    {bs : List β} (h : List.Forall₂ R as bs) (hfg : ∀ a b, R a b → f a = g b) :
    as.flatMap f = bs.flatMap g := by
  rw [List.flatMap_def, List.flatMap_def, map_eq_map_iff_forall₂.mpr (h.imp hfg)]

theorem forall₂_map_block {γ δ : Type} {Q : γ → δ → Prop} {f : α → γ} {g : β → δ}
    (hR : ∀ a b, R a b → Q (f a) (g b)) {as : List (Block α)} {bs : List (Block β)}
    (h : List.Forall₂ (Block.Rel R T) as bs) :
    List.Forall₂ (Block.Rel Q T) (as.map (Block.map f)) (bs.map (Block.map g)) := by
  rw [List.forall₂_map_left_iff, List.forall₂_map_right_iff]
  exact h.imp fun _ _ => Block.Rel.map hR

/-! ### Groups that correspond to each other -/

variable [HasTextLength α] [HasTextLength β]

theorem Accumulator.isEmpty_congr {a : Accumulator α} {b : Accumulator β}
    (h : List.Forall₂ R a.pieces.toList b.pieces.toList) : a.isEmpty = b.isEmpty := by
  rw [Bool.eq_iff_iff, isEmpty_iff, isEmpty_iff, ← List.length_eq_zero_iff,
    ← List.length_eq_zero_iff, h.length_eq]

theorem Accumulator.forall₂_close {a : Accumulator α} {b : Accumulator β}
    (h : List.Forall₂ R a.pieces.toList b.pieces.toList) :
    List.Forall₂ (Block.Rel (List.Forall₂ R) T) a.close b.close := by
  have hempty := isEmpty_congr h
  cases ha : a.isEmpty with
  | true =>
    rw [close_of_isEmpty ha, close_of_isEmpty (hempty ▸ ha)]
    exact .nil
  | false =>
    rw [close_of_not_isEmpty ha, close_of_not_isEmpty (hempty ▸ ha)]
    exact .cons (.text h) .nil

namespace Gathering

/-- Two gatherings with groups that correspond to each other. -/
structure Lockstep (R : α → β → Prop) (T : Element → Element → Prop) (s : Gathering α)
    (s' : Gathering β) : Prop where
  limit : s.current.limit = s'.current.limit
  closed : List.Forall₂ (Block.Rel (List.Forall₂ R) T) s.closed s'.closed
  pieces : List.Forall₂ R s.current.pieces.toList s'.current.pieces.toList

namespace Lockstep

variable {s : Gathering α} {s' : Gathering β} {joins : Accumulator α → α → Bool}
  {joins' : Accumulator β → β → Bool}

theorem start (limit : Nat) :
    Lockstep R T (start limit : Gathering α) (Gathering.start limit : Gathering β) :=
  ⟨rfl, .nil, .nil⟩

theorem finish (h : Lockstep R T s s') :
    List.Forall₂ (Block.Rel (List.Forall₂ R) T) s.finish s'.finish :=
  List.rel_append h.closed (Accumulator.forall₂_close h.pieces)

/-- One block on either side. The decisions have to agree only where a group is open. -/
theorem step (h : Lockstep R T s s') {b : Block α} {b' : Block β} (hb : Block.Rel R T b b')
    (hjoins : ∀ p q, b = .text p → b' = .text q → s.current.isEmpty = false →
      joins s.current p = joins' s'.current q) :
    Lockstep R T (step joins s b) (Gathering.step joins' s' b') := by
  cases hb with
  | table ht =>
    refine ⟨h.limit, ?_, .nil⟩
    exact List.rel_append h.finish (.cons (.table ht) .nil)
  | @text p q hpq =>
    have hempty := Accumulator.isEmpty_congr h.pieces
    have hsame : (s.current.isEmpty || joins s.current p) =
        (s'.current.isEmpty || joins' s'.current q) := by
      cases he : s.current.isEmpty with
      | true => rw [← hempty, he, Bool.true_or, Bool.true_or]
      | false => rw [← hempty, he, hjoins p q rfl rfl he]
    cases hj : (s.current.isEmpty || joins s.current p) with
    | true =>
      simp only [Gathering.step, ← hsame, hj, if_true]
      refine ⟨h.limit, h.closed, ?_⟩
      rw [Accumulator.pieces_add, Accumulator.pieces_add]
      exact List.rel_append h.pieces (.cons hpq .nil)
    | false =>
      simp only [Gathering.step, ← hsame, hj]
      exact ⟨h.limit, h.finish, .cons hpq .nil⟩

end Lockstep

end Gathering

/-! ### Rules that read lengths -/

/-- A rule of joining: a piece may join a group that is shorter than a threshold if there is room
for it and it may join at all. -/
structure LengthRule (α : Type) where
  under : Nat
  mayJoin : α → Bool

/-- Whether a piece joins by a rule. -/
def LengthRule.joins (rule : LengthRule α) (acc : Accumulator α) (piece : α) : Bool :=
  rule.mayJoin piece && decide (acc.textLength < rule.under) && acc.fits piece

variable {rule : LengthRule α} {rule' : LengthRule β}

theorem LengthRule.joins_congr (hunder : rule.under = rule'.under) {a : Accumulator α}
    {b : Accumulator β} (hlimit : a.limit = b.limit) (hlength : a.textLength = b.textLength)
    {p : α} {q : β} (hpiece : HasTextLength.textLength p = HasTextLength.textLength q)
    (hmay : rule.mayJoin p = rule'.mayJoin q) : rule.joins a p = rule'.joins b q := by
  rw [joins, joins, hmay, hlength, hunder, Accumulator.fits_congr hlimit hlength hpiece]

theorem Accumulator.textLength_congr
    (hR : ∀ p q, R p q → HasTextLength.textLength p = HasTextLength.textLength q)
    {a : Accumulator α} {b : Accumulator β}
    (h : List.Forall₂ R a.pieces.toList b.pieces.toList) : a.textLength = b.textLength := by
  have hmap : a.pieces.toList.map HasTextLength.textLength =
      b.pieces.toList.map HasTextLength.textLength := map_eq_map_iff_forall₂.mpr (h.imp hR)
  rw [textLength_eq, textLength_eq, hmap]

namespace Gathering

/-- What a relation of pieces has to keep for the two rules to decide alike. -/
structure Respects (R : α → β → Prop) (rule : LengthRule α) (rule' : LengthRule β) : Prop where
  under : rule.under = rule'.under
  textLength : ∀ p q, R p q → HasTextLength.textLength p = HasTextLength.textLength q
  mayJoin : ∀ p q, R p q → rule.mayJoin p = rule'.mayJoin q

theorem lockstep_run (hR : Respects R rule rule') {s : Gathering α} {s' : Gathering β}
    (h : Lockstep R T s s') {xs : List (Block α)} {ys : List (Block β)}
    (hxs : List.Forall₂ (Block.Rel R T) xs ys) :
    Lockstep R T (run rule.joins s xs) (run rule'.joins s' ys) := by
  induction hxs generalizing s s' with
  | nil => exact h
  | @cons b b' xs ys hb _ ih =>
    refine ih (h.step hb fun p q hp hq _ => ?_)
    subst hp hq
    cases hb with
    | text hpq =>
      exact LengthRule.joins_congr hR.under h.limit
        (Accumulator.textLength_congr hR.textLength h.pieces) (hR.textLength p q hpq)
        (hR.mayJoin p q hpq)

/-- **Pieces of equal length are gathered alike.** -/
theorem forall₂_gather (hR : Respects R rule rule') (limit : Nat) {xs : List (Block α)}
    {ys : List (Block β)} (hxs : List.Forall₂ (Block.Rel R T) xs ys) :
    List.Forall₂ (Block.Rel (List.Forall₂ R) T) (gather rule.joins limit xs)
      (gather rule'.joins limit ys) := by
  rw [gather_eq_finish, gather_eq_finish]
  exact (lockstep_run hR (.start limit) hxs).finish

end Gathering

end SectionChunks
