import SectionChunks.Proofs.Gathering

/-! # Gathering makes as few groups as can be

A division of blocks into groups is allowed by a rule if every group could have grown by it.
Gathering goes through the same blocks and lets every piece join that may. So it is never behind an
allowed division: after the same pieces its groups weigh no more, and if they weigh the same, its
open group is an end of the last group of the division (`Ahead`). What joins a group joins any end
of it as well (`Hereditary`).

* `Hereditary`: the rules for which this works. Where a group begins never keeps a piece out that
  could join it had it begun earlier.
* `JoinsFreely`: the weights for which this works. A group that has grown weighs as much as a single
  piece, so it costs nothing to join. Counting groups is such a weight (`joinsFreely_one`).
* `Ahead.first`, `Ahead.step`, `ahead_run`: one piece, and a whole group of the division.
* `total_gather_le`: no allowed division weighs less than the groups that are gathered, and
  `length_gather_le`: none has fewer groups. -/

namespace SectionChunks

variable {α : Type} [HasTextLength α]

/-! ### Ends of groups -/

theorem Accumulator.fits_of_textLength_le {a b : Accumulator α} {piece : α}
    (hlimit : a.limit = b.limit) (hle : a.textLength ≤ b.textLength)
    (h : b.fits piece = true) : a.fits piece = true := by
  have hroom : b.room ≤ a.room := by
    rw [room_eq, room_eq, hlimit]
    split_ifs <;> omega
  simp only [fits, decide_eq_true_eq] at h ⊢
  omega

theorem Accumulator.textLength_le_of_suffix {a b : Accumulator α}
    (h : a.pieces.toList <:+ b.pieces.toList) : a.textLength ≤ b.textLength := by
  obtain ⟨front, hfront⟩ := h
  rw [textLength_eq, textLength_eq, ← hfront, List.map_append, Text.Extent.length_ofLengths_append]
  exact Text.le_joinedLength_right _ _

namespace Gathering

variable {joins : Accumulator α → α → Bool} {limit : Nat} {weight : Block (List α) → Nat}
  {s : Gathering α}

variable (joins limit) in
/-- **What joins a group joins any end of it.** -/
def Hereditary : Prop :=
  ∀ a b : Accumulator α, a.limit = limit → b.limit = limit → a.isEmpty = false →
    a.pieces.toList <:+ b.pieces.toList → ∀ piece, joins b piece = true → joins a piece = true

theorem Grown.mono {joins' : Accumulator α → α → Bool}
    (himp : ∀ acc piece, joins acc piece = true → joins' acc piece = true) {acc : Accumulator α}
    (h : Grown joins limit acc) : Grown joins' limit acc := by
  induction h with
  | first piece => exact .first piece
  | add _ hj ih => exact .add ih (himp _ _ hj)

/-! ### Weights -/

/-- What groups and tables weigh together. -/
def total {β : Type} (weight : β → Nat) : List β → Nat
  | [] => 0
  | g :: groups => weight g + total weight groups

theorem total_append {β : Type} {weight : β → Nat} (gs hs : List β) :
    total weight (gs ++ hs) = total weight gs + total weight hs := by
  induction gs with
  | nil => exact (Nat.zero_add _).symm
  | cons g gs ih => rw [List.cons_append, total, total, ih, Nat.add_assoc]

theorem total_singleton {β : Type} {weight : β → Nat} (g : β) : total weight [g] = weight g := rfl

theorem length_flatMap_eq_total {β γ : Type} (f : β → List γ) (gs : List β) :
    (gs.flatMap f).length = total (fun g => (f g).length) gs := by
  induction gs with
  | nil => rfl
  | cons g gs ih => rw [List.flatMap_cons, List.length_append, ih, total]

variable (joins limit weight) in
/-- **Joining is free**: where a piece joins a group, the group, the piece and both together weigh
one each. -/
structure JoinsFreely : Prop where
  pos : ∀ piece, 0 < weight (.text [piece])
  group : ∀ acc piece, acc.limit = limit → joins acc piece = true →
    weight (.text acc.pieces.toList) = 1
  piece : ∀ acc piece, acc.limit = limit → joins acc piece = true → weight (.text [piece]) = 1
  joined : ∀ acc piece, acc.limit = limit → joins acc piece = true →
    weight (.text (acc.pieces.toList ++ [piece])) = 1

theorem total_finish_of_not_isEmpty (h : s.current.isEmpty = false) :
    total weight s.finish = total weight s.closed + weight (.text s.current.pieces.toList) := by
  rw [finish, Accumulator.close_of_not_isEmpty h, total_append, total_singleton]

theorem total_finish_step_table (joins : Accumulator α → α → Bool) (t : Element) :
    total weight (step joins s (.table t)).finish = total weight s.finish + weight (.table t) := by
  have hstep : (step joins s (.table t)).finish = s.finish ++ [.table t] := List.append_nil _
  rw [hstep, total_append, total_singleton]

theorem total_finish_step_text (hw : JoinsFreely joins limit weight) (hl : s.current.limit = limit)
    (piece : α) :
    (s.current.isEmpty = false ∧
      (step joins s (.text piece)).current = s.current.add piece ∧
      total weight (step joins s (.text piece)).finish = total weight s.finish) ∨
    ((s.current.isEmpty = true ∨ joins s.current piece = false) ∧
      (step joins s (.text piece)).current = (Accumulator.empty limit).add piece ∧
      total weight (step joins s (.text piece)).finish =
        total weight s.finish + weight (.text [piece])) := by
  obtain ⟨t, hb, -⟩ | ⟨p, hb, he, hj, hs⟩ | ⟨p, hb, hcut, hs⟩ :=
    step_cases joins s (.text piece)
  · cases hb
  · cases hb
    refine .inl ⟨he, by rw [hs], ?_⟩
    have hgroup := hw.group _ _ hl hj
    have hjoined := hw.joined _ _ hl hj
    rw [hs, total_finish_of_not_isEmpty (Accumulator.isEmpty_add _ _),
      total_finish_of_not_isEmpty he, Accumulator.pieces_add, hgroup, hjoined]
  · cases hb
    refine .inr ⟨hcut, by rw [hs, hl], ?_⟩
    rw [hs, total_finish_of_not_isEmpty (Accumulator.isEmpty_add _ _), Accumulator.pieces_add]
    rfl

/-! ### Staying ahead -/

variable (weight) in
/-- Gathering is ahead of a division that weighs `n` so far and whose last group is `last`. -/
structure Ahead (s : Gathering α) (n : Nat) (last : List α) : Prop where
  isOpen : s.current.isEmpty = false
  total_le : total weight s.finish ≤ n
  suffix : total weight s.finish = n → s.current.pieces.toList <:+ last

/-- The division starts a group. -/
theorem Ahead.first (hw : JoinsFreely joins limit weight) (hl : s.current.limit = limit) {n : Nat}
    (hle : total weight s.finish ≤ n) (piece : α) :
    Ahead weight (step joins s (.text piece)) (n + weight (.text [piece])) [piece] := by
  have hpos := hw.pos piece
  obtain ⟨-, hcurrent, htotal⟩ | ⟨-, hcurrent, htotal⟩ := total_finish_step_text hw hl piece
  · refine ⟨by rw [hcurrent, Accumulator.isEmpty_add], by omega, fun heq => ?_⟩
    -- A piece that joins costs nothing, so gathering is now ahead by the weight of the piece.
    omega
  · refine ⟨by rw [hcurrent, Accumulator.isEmpty_add], by omega, fun _ => ?_⟩
    rw [hcurrent]
    exact List.suffix_refl [piece]

/-- The last group of the division grows. -/
theorem Ahead.step (hends : Hereditary joins limit) (hw : JoinsFreely joins limit weight)
    (hl : s.current.limit = limit) {n : Nat} {acc : Accumulator α} (hacc : acc.limit = limit)
    (h : Ahead weight s n acc.pieces.toList) {piece : α} (hj : joins acc piece = true) :
    Ahead weight (step joins s (.text piece)) n (acc.add piece).pieces.toList := by
  have hpiece := hw.piece _ _ hacc hj
  have hle := h.total_le
  obtain ⟨-, hcurrent, htotal⟩ | ⟨hcut, hcurrent, htotal⟩ := total_finish_step_text hw hl piece
  · refine ⟨by rw [hcurrent, Accumulator.isEmpty_add], by omega, fun heq => ?_⟩
    obtain ⟨front, hfront⟩ := h.suffix (by omega)
    rw [hcurrent, Accumulator.pieces_add, Accumulator.pieces_add, ← hfront]
    exact ⟨front, (List.append_assoc _ _ _).symm⟩
  · -- Gathering refuses the piece: its open group is no end of the last group and weighs less.
    have hne : total weight s.finish ≠ n := by
      intro heq
      have hjoins := hends s.current acc hl hacc h.isOpen (h.suffix heq) piece hj
      rcases hcut with he | hno
      · rw [h.isOpen] at he
        cases he
      · rw [hjoins] at hno
        cases hno
    refine ⟨by rw [hcurrent, Accumulator.isEmpty_add], by omega, fun _ => ?_⟩
    rw [hcurrent, Accumulator.pieces_add, Accumulator.pieces_add]
    exact ⟨acc.pieces.toList, rfl⟩

/-- A whole group of the division. -/
theorem ahead_run (hends : Hereditary joins limit) (hw : JoinsFreely joins limit weight)
    (hl : s.current.limit = limit) {n : Nat} (hle : total weight s.finish ≤ n)
    {acc : Accumulator α} (h : Grown joins limit acc) :
    Ahead weight (run joins s (acc.pieces.toList.map .text))
      (n + weight (.text acc.pieces.toList)) acc.pieces.toList := by
  induction h with
  | first piece => exact Ahead.first hw hl hle piece
  | @add acc piece h hj ih =>
    have hgroup := hw.group _ _ h.limit_eq hj
    have hjoined := hw.joined _ _ h.limit_eq hj
    have hweight : weight (.text (acc.add piece).pieces.toList) =
        weight (.text acc.pieces.toList) := by
      rw [Accumulator.pieces_add, hjoined, hgroup]
    have hpieces : (acc.add piece).pieces.toList.map Block.text =
        acc.pieces.toList.map .text ++ [.text piece] := by
      rw [Accumulator.pieces_add, List.map_append]
      rfl
    rw [hpieces, run_append, hweight]
    exact ih.step hends hw ((limit_run _ _ _).trans hl) h.limit_eq hj

variable (joins limit) in
/-- Whether a division keeps to the rule: all groups could have grown by it. -/
def Allowed (division : List (Block (List α))) : Prop :=
  ∀ pieces, .text pieces ∈ division → ∃ acc, Grown joins limit acc ∧ acc.pieces.toList = pieces

theorem allowed_gather (joins : Accumulator α → α → Bool) (limit : Nat) (blocks : List (Block α)) :
    Allowed joins limit (gather joins limit blocks) := by
  rw [gather_eq_finish]
  exact (sound_run blocks).finish

theorem total_finish_run_le (hends : Hereditary joins limit) (hw : JoinsFreely joins limit weight)
    (division : List (Block (List α))) (hallowed : Allowed joins limit division)
    (hl : s.current.limit = limit) {n : Nat} (hle : total weight s.finish ≤ n) :
    total weight (run joins s (division.flatMap Block.pieces)).finish ≤
      n + total weight division := by
  -- Induction is on the groups of the division, for all runs that are not behind before them.
  induction division generalizing s n with
  | nil => exact hle
  | cons g division ih =>
    have hrest : Allowed joins limit division := fun pieces hp =>
      hallowed pieces (List.mem_cons_of_mem _ hp)
    have hgroup : total weight (run joins s g.pieces).finish ≤ n + weight g := by
      cases g with
      | table t =>
        show total weight (step joins s (.table t)).finish ≤ n + weight (.table t)
        rw [total_finish_step_table]
        omega
      | text pieces =>
        obtain ⟨acc, hacc, rfl⟩ := hallowed pieces List.mem_cons_self
        exact (ahead_run hends hw hl hle hacc).total_le
    have hind := ih hrest ((limit_run _ _ _).trans hl) hgroup
    rw [List.flatMap_cons, run_append, total]
    omega

/-- No allowed division weighs less than what is gathered. -/
theorem total_gather_le (hends : Hereditary joins limit) (hw : JoinsFreely joins limit weight)
    {division : List (Block (List α))} (hallowed : Allowed joins limit division) :
    total weight (gather joins limit (division.flatMap Block.pieces)) ≤
      total weight division := by
  have hstart : total weight (start limit : Gathering α).finish ≤ 0 := Nat.le_refl 0
  have hrun := total_finish_run_le hends hw division hallowed rfl hstart
  rw [gather_eq_finish]
  omega

/-! ### Counting groups -/

theorem total_one {β : Type} (groups : List β) : total (fun _ => 1) groups = groups.length := by
  induction groups with
  | nil => rfl
  | cons g groups ih => rw [total, ih, List.length_cons, Nat.add_comm]

theorem joinsFreely_one (joins : Accumulator α → α → Bool) (limit : Nat) :
    JoinsFreely joins limit fun _ => 1 :=
  ⟨fun _ => Nat.one_pos, fun _ _ _ _ => rfl, fun _ _ _ _ => rfl, fun _ _ _ _ => rfl⟩

/-- **No allowed division has fewer groups than are gathered.** -/
theorem length_gather_le (hends : Hereditary joins limit) {division : List (Block (List α))}
    (hallowed : Allowed joins limit division) :
    (gather joins limit (division.flatMap Block.pieces)).length ≤ division.length := by
  have htotal := total_gather_le hends (joinsFreely_one joins limit) hallowed
  rwa [total_one, total_one] at htotal

end Gathering

end SectionChunks
