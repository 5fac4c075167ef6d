import SectionChunks.Proofs.Gathering.Lockstep
import SectionChunks.Proofs.Text.Join

/-! # Pieces without text

A piece without text changes neither the length nor the text of the group it joins. It may become a
group of its own, but such a group has no text either. So by a rule that reads lengths, rows of
blocks that differ only in pieces without text (`UpToBlanks`) are gathered into groups that show the
same texts (`shown_gather`).

The two gatherings do not stay in lockstep, since a piece without text may close a group that would
otherwise stay open. But it does so only if the group is long enough, and then no other piece could
have joined it (`Ended`). -/

namespace SectionChunks

/-- What holds texts that are going to be joined. -/
class HasParts (α : Type) [HasTextLength α] where
  /-- The texts that take part. -/
  parts : α → List String
  textLength_eq (a : α) : textLength a = (Text.joined (parts a)).length

export HasParts (parts)

variable {α : Type} [HasTextLength α] [HasParts α]

/-- The texts of all pieces. -/
def Accumulator.parts (acc : Accumulator α) : List String :=
  acc.pieces.toList.flatMap HasParts.parts

namespace Accumulator

theorem parts_add (acc : Accumulator α) (piece : α) :
    (acc.add piece).parts = acc.parts ++ HasParts.parts piece := by
  rw [parts, pieces_add, List.flatMap_append, List.flatMap_singleton]
  rfl

theorem parts_of_isEmpty {acc : Accumulator α} (h : acc.isEmpty = true) : acc.parts = [] := by
  rw [parts, isEmpty_iff.mp h]
  rfl

theorem textLength_eq_length_joined (acc : Accumulator α) :
    acc.textLength = (Text.joined acc.parts).length := by
  rw [textLength_eq, ← Text.Extent.length_ofTexts, parts, List.map_flatMap, List.flatMap_def,
    Text.Extent.length_ofLengths_flatten, List.map_map]
  congr 3
  funext a
  exact (HasParts.textLength_eq a).trans (Text.Extent.length_ofTexts _).symm

end Accumulator

/-! ### What is shown -/

/-- Whether a block is running text without any text in it. -/
def Block.isBlank : Block (List String) → Bool
  | .text [] => true
  | _ => false

/-- The texts of the blocks, without those that have none, and the tables. -/
def visible {γ : Type} (texts : γ → List String) (blocks : List (Block γ)) :
    List (Block (List String)) :=
  (blocks.map (Block.map texts)).filter fun b => !b.isBlank

section Visible
variable {γ : Type} {texts : γ → List String}

theorem visible_append (as bs : List (Block γ)) :
    visible texts (as ++ bs) = visible texts as ++ visible texts bs := by
  rw [visible, List.map_append, List.filter_append]
  rfl

theorem visible_map {δ : Type} (f : δ → γ) (blocks : List (Block δ)) :
    visible texts (blocks.map (Block.map f)) = visible (fun d => texts (f d)) blocks := by
  rw [visible, visible, List.map_map]
  congr 2
  funext b
  cases b <;> rfl

theorem visible_cons_blank {a : γ} (h : texts a = []) (blocks : List (Block γ)) :
    visible texts (.text a :: blocks) = visible texts blocks := by
  simp [visible, Block.map, Block.isBlank, h]

theorem visible_cons_text {a : γ} (h : texts a ≠ []) (blocks : List (Block γ)) :
    visible texts (.text a :: blocks) = .text (texts a) :: visible texts blocks := by
  cases ht : texts a with
  | nil => exact absurd ht h
  | cons t ts => simp [visible, Block.map, Block.isBlank, ht]

theorem visible_cons_table (t : Element) (blocks : List (Block γ)) :
    visible texts (.table t :: blocks) = .table t :: visible texts blocks := rfl

end Visible

/-- What groups show. -/
abbrev shown (groups : List (Block (List α))) : List (Block (List String)) :=
  visible (List.flatMap parts) groups

theorem shown_close {acc : Accumulator α} : shown acc.close = visible id [.text acc.parts] := by
  cases h : acc.isEmpty with
  | true =>
    rw [Accumulator.close_of_isEmpty h, Accumulator.parts_of_isEmpty h]
    rfl
  | false =>
    rw [Accumulator.close_of_not_isEmpty h]
    rfl

namespace Gathering

variable {s s' : Gathering α} {rule : LengthRule α}

theorem shown_finish (s : Gathering α) :
    shown s.finish = shown s.closed ++ visible id [.text s.current.parts] := by
  rw [finish, shown, visible_append, ← shown_close]

theorem shown_finish_of_blank (h : s.current.parts = []) : shown s.finish = shown s.closed := by
  rw [shown_finish, h, visible_cons_blank rfl, visible, List.map_nil, List.filter_nil,
    List.append_nil]

/-! ### Groups that have come to an end -/

/-- The open group has no text yet, or it is so long that nothing joins it. In either case the next
text starts afresh. -/
def Ended (under : Nat) (s : Gathering α) : Prop :=
  s.current.parts = [] ∨ under ≤ s.current.textLength

theorem Ended.step_text (h : Ended rule.under s) (p : α) :
    shown (step rule.joins s (.text p)).closed = shown s.finish ∧
      (step rule.joins s (.text p)).current.parts = parts p := by
  obtain ⟨t, hb, -⟩ | ⟨p, hb, -, hj, hs⟩ | ⟨p, hb, -, hs⟩ := step_cases rule.joins s (.text p)
  · cases hb
  · -- A piece has joined, so the group is not long enough and has no text yet.
    cases hb
    have hblank : s.current.parts = [] := by
      refine h.resolve_right fun hle => ?_
      simp only [LengthRule.joins, Bool.and_eq_true, decide_eq_true_eq] at hj
      omega
    rw [hs, shown_finish_of_blank hblank, Accumulator.parts_add, hblank, List.nil_append]
    exact ⟨rfl, rfl⟩
  · cases hb
    rw [hs, Accumulator.parts_add, Accumulator.parts_of_isEmpty (Accumulator.isEmpty_empty _),
      List.nil_append]
    exact ⟨rfl, rfl⟩

theorem isEmpty_of_not_ended {under : Nat} (h : ¬ Ended under s) :
    s.current.isEmpty = false ∧ s.current.textLength < under := by
  obtain ⟨hblank, hlt⟩ := not_or.mp h
  refine ⟨?_, Nat.lt_of_not_le hlt⟩
  cases he : s.current.isEmpty with
  | true => exact absurd (Accumulator.parts_of_isEmpty he) hblank
  | false => rfl

/-! ### Gatherings that show the same -/

/-- Two gatherings that show the same: the same groups and the same open group, or the same groups
once the open ones, which have come to an end, are closed as well. -/
structure SameText (under : Nat) (s s' : Gathering α) : Prop where
  limit : s.current.limit = s'.current.limit
  finish : shown s.finish = shown s'.finish
  current : (shown s.closed = shown s'.closed ∧ s.current.parts = s'.current.parts) ∨
    Ended under s ∧ Ended under s'

namespace SameText

variable {under : Nat}

theorem refl (s : Gathering α) : SameText under s s := ⟨rfl, rfl, .inl ⟨rfl, rfl⟩⟩

theorem symm (h : SameText under s s') : SameText under s' s :=
  ⟨h.limit.symm, h.finish.symm, h.current.imp (fun h => ⟨h.1.symm, h.2.symm⟩) And.symm⟩

theorem of_parts (hlimit : s.current.limit = s'.current.limit)
    (hclosed : shown s.closed = shown s'.closed) (hparts : s.current.parts = s'.current.parts) :
    SameText under s s' :=
  ⟨hlimit, by rw [shown_finish, shown_finish, hclosed, hparts], .inl ⟨hclosed, hparts⟩⟩

theorem ended (h : SameText under s s') (he : Ended under s) : Ended under s' := by
  rcases h.current with ⟨-, hparts⟩ | ⟨-, he'⟩
  · unfold Ended at he ⊢
    rwa [Accumulator.textLength_eq_length_joined, ← hparts,
      ← Accumulator.textLength_eq_length_joined]
  · exact he'

theorem parts_of_not_ended (h : SameText under s s') (he : ¬ Ended under s) :
    shown s.closed = shown s'.closed ∧ s.current.parts = s'.current.parts :=
  h.current.resolve_right fun hor => he hor.1

theorem step_text (h : SameText rule.under s s') {p q : α} (hparts : parts p = parts q)
    (hmay : rule.mayJoin p = rule.mayJoin q) :
    SameText rule.under (step rule.joins s (.text p)) (step rule.joins s' (.text q)) := by
  have hlimit : (step rule.joins s (.text p)).current.limit =
      (step rule.joins s' (.text q)).current.limit := by
    rw [limit_step, limit_step, h.limit]
  by_cases he : Ended rule.under s
  · obtain ⟨hclosed, hcurrent⟩ := he.step_text p
    obtain ⟨hclosed', hcurrent'⟩ := (h.ended he).step_text q
    exact of_parts hlimit (by rw [hclosed, hclosed', h.finish])
      (by rw [hcurrent, hcurrent', hparts])
  · -- The open groups have the same text, so they are as long and take the same decision.
    have he' : ¬ Ended rule.under s' := mt h.symm.ended he
    obtain ⟨hclosed, hcurrent⟩ := h.parts_of_not_ended he
    have hlength : s.current.textLength = s'.current.textLength := by
      rw [Accumulator.textLength_eq_length_joined, hcurrent,
        ← Accumulator.textLength_eq_length_joined]
    have hpiece : HasTextLength.textLength p = HasTextLength.textLength q := by
      rw [HasParts.textLength_eq, hparts, ← HasParts.textLength_eq]
    have hjoins : rule.joins s.current p = rule.joins s'.current q :=
      LengthRule.joins_congr rfl h.limit hlength hpiece hmay
    refine of_parts hlimit ?_ ?_ <;>
      simp only [step, (isEmpty_of_not_ended he).1, (isEmpty_of_not_ended he').1, Bool.false_or,
        ← hjoins]
    · split
      · exact hclosed
      · exact h.finish
    · split
      · rw [Accumulator.parts_add, Accumulator.parts_add, hcurrent, hparts]
      · rw [Accumulator.parts_add, Accumulator.parts_add, hparts]
        rfl

theorem step_blank (h : SameText rule.under s s') {p : α} (hblank : parts p = [])
    (hmay : rule.mayJoin p = true) : SameText rule.under (step rule.joins s (.text p)) s' := by
  have hlimit : (step rule.joins s (.text p)).current.limit = s'.current.limit := by
    rw [limit_step, h.limit]
  by_cases he : Ended rule.under s
  · obtain ⟨hclosed, hcurrent⟩ := he.step_text p
    rw [hblank] at hcurrent
    refine ⟨hlimit, ?_, .inr ⟨.inl hcurrent, h.ended he⟩⟩
    rw [shown_finish_of_blank hcurrent, hclosed, h.finish]
  · obtain ⟨hempty, hlt⟩ := isEmpty_of_not_ended he
    obtain ⟨hclosed, hcurrent⟩ := h.parts_of_not_ended he
    have hzero : HasTextLength.textLength p = 0 := by
      rw [HasParts.textLength_eq, hblank]
      rfl
    have hjoins : rule.joins s.current p = true := by
      rw [LengthRule.joins, hmay, decide_eq_true hlt, Accumulator.fits_of_textLength_eq_zero hzero]
      rfl
    refine of_parts hlimit ?_ ?_ <;> simp only [step, hempty, hjoins, Bool.or_true, if_true]
    · exact hclosed
    · rw [Accumulator.parts_add, hblank, List.append_nil, hcurrent]

theorem step_table (h : SameText under s s') {joins : Accumulator α → α → Bool} (t : Element) :
    SameText under (step joins s (.table t)) (step joins s' (.table t)) := by
  refine of_parts h.limit ?_ rfl
  show shown (s.finish ++ [.table t]) = shown (s'.finish ++ [.table t])
  simp only [shown, visible_append]
  exact congrArg (· ++ _) h.finish

end SameText

/-- Rows of blocks that differ only in pieces without text, which may join if there is a group. -/
inductive UpToBlanks (rule : LengthRule α) : List (Block α) → List (Block α) → Prop
  | nil : UpToBlanks rule [] []
  | text {p q : α} {xs ys : List (Block α)} (hparts : parts p = parts q)
      (hmay : rule.mayJoin p = rule.mayJoin q) (h : UpToBlanks rule xs ys) :
      UpToBlanks rule (.text p :: xs) (.text q :: ys)
  | table (t : Element) {xs ys : List (Block α)} (h : UpToBlanks rule xs ys) :
      UpToBlanks rule (.table t :: xs) (.table t :: ys)
  | blankLeft {p : α} {xs ys : List (Block α)} (hblank : parts p = [])
      (hmay : rule.mayJoin p = true) (h : UpToBlanks rule xs ys) :
      UpToBlanks rule (.text p :: xs) ys
  | blankRight {p : α} {xs ys : List (Block α)} (hblank : parts p = [])
      (hmay : rule.mayJoin p = true) (h : UpToBlanks rule xs ys) :
      UpToBlanks rule xs (.text p :: ys)

namespace UpToBlanks

theorem refl (xs : List (Block α)) : UpToBlanks rule xs xs := by
  induction xs with
  | nil => exact .nil
  | cons b xs ih =>
    cases b with
    | text p => exact .text rfl rfl ih
    | table t => exact .table t ih

theorem append_left (before : List (Block α)) {xs ys : List (Block α)}
    (h : UpToBlanks rule xs ys) : UpToBlanks rule (before ++ xs) (before ++ ys) := by
  induction before with
  | nil => exact h
  | cons b before ih =>
    cases b with
    | text p => exact .text rfl rfl ih
    | table t => exact .table t ih

theorem filter (hmay : ∀ p, rule.mayJoin p = true) (xs : List (Block α)) :
    UpToBlanks rule xs (xs.filter fun b => !(b.map parts).isBlank) := by
  induction xs with
  | nil => exact .nil
  | cons b xs ih =>
    cases b with
    | table t => exact .table t ih
    | text p =>
      cases hp : parts p with
      | nil =>
        rw [List.filter_cons_of_neg (by simp [Block.map, Block.isBlank, hp])]
        exact .blankLeft hp (hmay p) ih
      | cons t ts =>
        rw [List.filter_cons_of_pos (by simp [Block.map, Block.isBlank, hp])]
        exact .text rfl rfl ih

theorem of_map_eq (hmay : ∀ p, rule.mayJoin p = true) {xs ys : List (Block α)}
    (h : xs.map (Block.map parts) = ys.map (Block.map parts)) : UpToBlanks rule xs ys := by
  induction xs generalizing ys with
  | nil =>
    rw [List.map_eq_nil_iff.mp h.symm]
    exact .nil
  | cons b xs ih =>
    cases ys with
    | nil => cases h
    | cons c ys =>
      obtain ⟨hbc, hxs⟩ := List.cons.inj h
      cases b with
      | text p =>
        cases c with
        | text q => exact .text (Block.text.inj hbc) ((hmay p).trans (hmay q).symm) (ih hxs)
        | table t => cases hbc
      | table t =>
        cases c with
        | text q => cases hbc
        | table u =>
          obtain rfl : t = u := Block.table.inj hbc
          exact .table t (ih hxs)

end UpToBlanks

theorem sameText_run {xs ys : List (Block α)} (hxs : UpToBlanks rule xs ys) {s s' : Gathering α}
    (h : SameText rule.under s s') :
    SameText rule.under (run rule.joins s xs) (run rule.joins s' ys) := by
  induction hxs generalizing s s' with
  | nil => exact h
  | text hparts hmay _ ih => exact ih (h.step_text hparts hmay)
  | table t _ ih => exact ih (h.step_table t)
  | blankLeft hblank hmay _ ih => exact ih (h.step_blank hblank hmay)
  | blankRight hblank hmay _ ih => exact ih (h.symm.step_blank hblank hmay).symm

/-- **Pieces without text do not show.** -/
theorem shown_gather {xs ys : List (Block α)} (hxs : UpToBlanks rule xs ys) (limit : Nat) :
    shown (gather rule.joins limit xs) = shown (gather rule.joins limit ys) := by
  rw [gather_eq_finish, gather_eq_finish]
  exact (sameText_run hxs (SameText.refl (start limit))).finish

theorem shown_gather_of_visible_eq (hmay : ∀ p, rule.mayJoin p = true) {xs ys : List (Block α)}
    (h : visible parts xs = visible parts ys) (limit : Nat) :
    shown (gather rule.joins limit xs) = shown (gather rule.joins limit ys) := by
  rw [visible, visible, List.filter_map, List.filter_map] at h
  rw [shown_gather (.filter hmay xs), shown_gather (.filter hmay ys)]
  exact shown_gather (.of_map_eq hmay h) limit

end Gathering

end SectionChunks
