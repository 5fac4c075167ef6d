import Mathlib.Data.List.Infix
import SectionChunks.Gathering
import SectionChunks.Proofs.Accumulator

/-! # Gathering, one block at a time

Gathering is a machine that takes one block after the other: its state are the groups that are
closed and the group that is open. What holds of every run is shown for one step and carried over to
runs by `run_induction`.

* `gather_eq_finish`: gathering is the run of this machine from no block on, finished by closing the
  open group.
* `flatMap_pieces_gather`: the groups, taken apart again, are the blocks.
* `grown_of_text_mem`: every group has grown from a first piece by pieces that may join (`Grown`),
  and so it stays within the limit if pieces join only within the limit
  (`Grown.single_or_textLength_le`).
* `gather_append`: where the open group is cut off before the blocks to come (`Cut`), these are
  gathered as if nothing stood before them.
* `closed_prefix_run`, `gather_append_cases`: what is closed stays closed, and only the last group
  can still grow. -/

namespace SectionChunks

/-- The pieces of a group as blocks of their own. -/
def Block.pieces {α : Type} : Block (List α) → List (Block α)
  | .text pieces => pieces.map .text
  | .table t => [.table t]

variable {α : Type} [HasTextLength α]

theorem Accumulator.close_of_isEmpty {acc : Accumulator α} (h : acc.isEmpty = true) :
    acc.close = [] := by
  simp [close, flush, h]

theorem Accumulator.close_of_not_isEmpty {acc : Accumulator α} (h : acc.isEmpty = false) :
    acc.close = [.text acc.pieces.toList] := by
  simp [close, flush, h]

theorem Accumulator.flatMap_pieces_close (acc : Accumulator α) :
    acc.close.flatMap Block.pieces = acc.pieces.toList.map .text := by
  cases h : acc.isEmpty with
  | true => rw [close_of_isEmpty h, isEmpty_iff.mp h]; rfl
  | false => rw [close_of_not_isEmpty h, List.flatMap_singleton]; rfl

/-- Gathering part-way: the groups that are closed, and the open one. -/
structure Gathering (α : Type) [HasTextLength α] where
  closed : List (Block (List α))
  current : Accumulator α

namespace Gathering

variable (joins : Accumulator α → α → Bool) (limit : Nat)

/-- Before the first block. -/
def start : Gathering α := ⟨[], .empty limit⟩

/-- Takes one block. -/
def step (s : Gathering α) : Block α → Gathering α
  | .table t => ⟨s.closed ++ s.current.close ++ [.table t], s.current.flush.2⟩
  | .text piece =>
    if s.current.isEmpty || joins s.current piece then ⟨s.closed, s.current.add piece⟩
    else ⟨s.closed ++ s.current.close, s.current.flush.2.add piece⟩

/-- Takes blocks one after the other. -/
def run (s : Gathering α) (blocks : List (Block α)) : Gathering α := blocks.foldl (step joins) s

/-- Closes the open group. -/
def finish (s : Gathering α) : List (Block (List α)) := s.closed ++ s.current.close

/-! ### Steps and runs -/

variable {joins limit} {s : Gathering α}

variable (joins s) in
/-- What one block can do: a table closes the open group and stands alone, a piece joins the
open group, or it closes the open group, if there is one, and starts another. -/
theorem step_cases (b : Block α) :
    (∃ t, b = .table t ∧ step joins s b = ⟨s.finish ++ [.table t], .empty s.current.limit⟩) ∨
    (∃ piece, b = .text piece ∧ s.current.isEmpty = false ∧ joins s.current piece = true ∧
      step joins s b = ⟨s.closed, s.current.add piece⟩) ∨
    (∃ piece, b = .text piece ∧ (s.current.isEmpty = true ∨ joins s.current piece = false) ∧
      step joins s b = ⟨s.finish, (Accumulator.empty s.current.limit).add piece⟩) := by
  cases b with
  | table t => exact .inl ⟨t, rfl, rfl⟩
  | text piece =>
    right
    cases he : s.current.isEmpty with
    | true =>
      refine .inr ⟨piece, rfl, .inl rfl, ?_⟩
      rw [← Accumulator.eq_empty_of_isEmpty he, finish, Accumulator.close_of_isEmpty he,
        List.append_nil]
      simp [step, he]
    | false =>
      cases hj : joins s.current piece with
      | true => exact .inl ⟨piece, rfl, rfl, hj, by simp [step, hj]⟩
      | false => exact .inr ⟨piece, rfl, .inr hj, by simp [step, he, hj, finish]⟩

theorem limit_step (joins : Accumulator α → α → Bool) (s : Gathering α) (b : Block α) :
    (step joins s b).current.limit = s.current.limit := by
  obtain ⟨t, -, h⟩ | ⟨piece, -, -, -, h⟩ | ⟨piece, -, -, h⟩ := step_cases joins s b <;>
    rw [h] <;> rfl

theorem limit_run (joins : Accumulator α → α → Bool) (s : Gathering α) (blocks : List (Block α)) :
    (run joins s blocks).current.limit = s.current.limit := by
  induction blocks generalizing s with
  | nil => rfl
  | cons b blocks ih =>
    have hstep := limit_step joins s b
    rw [run, List.foldl_cons, ← run, ih, hstep]

theorem run_append (xs ys : List (Block α)) :
    run joins s (xs ++ ys) = run joins (run joins s xs) ys := List.foldl_append

/-- A property of all runs, if it holds before the first block and every step keeps it. -/
theorem run_induction {P : List (Block α) → Gathering α → Prop} (hstart : P [] (start limit))
    (hstep : ∀ blocks b s, P blocks s → P (blocks ++ [b]) (step joins s b))
    (blocks : List (Block α)) : P blocks (run joins (start limit) blocks) := by
  suffices h : ∀ before s, P before s → P (before ++ blocks) (run joins s blocks) by
    exact h [] (start limit) hstart
  -- Induction is on the blocks to come, for all blocks that were taken before.
  induction blocks with
  | nil => intro before s hs; rw [List.append_nil]; exact hs
  | cons b blocks ih =>
    intro before s hs
    rw [List.append_cons]
    exact ih _ _ (hstep before b s hs)

theorem finish_run (blocks : List (Block α)) (s : Gathering α) :
    (run joins s blocks).finish = s.closed ++ gatherFrom joins s.current blocks := by
  induction blocks generalizing s with
  | nil => rfl
  | cons b blocks ih =>
    rw [run, List.foldl_cons, ← run, ih]
    cases b with
    | table t => simp [step, gatherFrom]
    | text piece =>
      simp only [step, gatherFrom]
      split
      · rfl
      · rw [List.append_assoc]

/-- Gathering is the run of the machine. -/
theorem gather_eq_finish (blocks : List (Block α)) :
    gather joins limit blocks = (run joins (start limit) blocks).finish := by
  rw [finish_run]; rfl

/-! ### Nothing is lost -/

theorem flatMap_pieces_step (b : Block α) :
    (step joins s b).finish.flatMap Block.pieces = s.finish.flatMap Block.pieces ++ [b] := by
  obtain ⟨t, rfl, h⟩ | ⟨piece, rfl, he, -, h⟩ | ⟨piece, rfl, -, h⟩ :=
    step_cases joins s b <;> rw [h, finish, List.flatMap_append]
  · rw [List.flatMap_append, Accumulator.flatMap_pieces_close]
    exact List.append_nil _
  · rw [finish, List.flatMap_append, Accumulator.flatMap_pieces_close,
      Accumulator.flatMap_pieces_close, Accumulator.pieces_add, List.map_append,
      List.append_assoc]
    rfl
  · rw [Accumulator.flatMap_pieces_close, Accumulator.pieces_add]
    rfl

variable (joins limit) in
/-- The groups, taken apart again, are the blocks. -/
theorem flatMap_pieces_gather (blocks : List (Block α)) :
    (gather joins limit blocks).flatMap Block.pieces = blocks := by
  rw [gather_eq_finish]
  refine run_induction
    (P := fun blocks s => s.finish.flatMap Block.pieces = blocks) rfl ?_ blocks
  intro blocks b s hs
  rw [flatMap_pieces_step, hs]

/-! ### How groups grow -/

variable (joins limit) in
/-- A group as gathering makes it: a first piece, and others that join those before them. -/
inductive Grown : Accumulator α → Prop
  | first (piece : α) : Grown ((Accumulator.empty limit).add piece)
  | add {acc : Accumulator α} {piece : α} (h : Grown acc) (hj : joins acc piece = true) :
      Grown (acc.add piece)

theorem Grown.limit_eq {acc : Accumulator α} (h : Grown joins limit acc) : acc.limit = limit := by
  induction h with
  | first piece => rfl
  | add h hj ih => exact ih

theorem Grown.pieces_ne_nil {acc : Accumulator α} (h : Grown joins limit acc) :
    acc.pieces.toList ≠ [] := by
  cases h <;> simp

variable (joins limit) in
/-- What gathering keeps: all groups have grown. -/
structure Sound (s : Gathering α) : Prop where
  closed : ∀ pieces, .text pieces ∈ s.closed →
    ∃ acc, Grown joins limit acc ∧ acc.pieces.toList = pieces
  current : s.current = .empty limit ∨ Grown joins limit s.current

theorem Sound.start : Sound joins limit (start limit : Gathering α) :=
  ⟨fun _ h => absurd h List.not_mem_nil, .inl rfl⟩

theorem Sound.limit_eq (h : Sound joins limit s) : s.current.limit = limit := by
  rcases h.current with h | h
  · rw [h]; rfl
  · exact h.limit_eq

theorem Sound.finish (h : Sound joins limit s) : ∀ pieces, .text pieces ∈ s.finish →
    ∃ acc, Grown joins limit acc ∧ acc.pieces.toList = pieces := by
  intro pieces hp
  rcases List.mem_append.mp hp with hp | hp
  · exact h.closed pieces hp
  · cases he : s.current.isEmpty with
    | true => rw [Accumulator.close_of_isEmpty he] at hp; exact absurd hp List.not_mem_nil
    | false =>
      rw [Accumulator.close_of_not_isEmpty he] at hp
      obtain rfl : pieces = s.current.pieces.toList := by simpa using hp
      -- A group that is not empty is not the one before the first piece, so it has grown.
      refine ⟨s.current, h.current.resolve_left ?_, rfl⟩
      intro hs
      rw [hs] at he
      simp at he

theorem Sound.step (h : Sound joins limit s) (b : Block α) :
    Sound joins limit (step joins s b) := by
  have hl := h.limit_eq
  obtain ⟨t, rfl, hs⟩ | ⟨piece, rfl, he, hj, hs⟩ | ⟨piece, rfl, -, hs⟩ :=
    step_cases joins s b <;> rw [hs]
  · refine ⟨fun pieces hp => ?_, .inl (by rw [hl])⟩
    exact h.finish pieces (by simpa using hp)
  · refine ⟨h.closed, .inr (.add (h.current.resolve_left ?_) hj)⟩
    intro hc
    rw [hc] at he
    simp at he
  · exact ⟨h.finish, .inr (by rw [hl]; exact .first piece)⟩

theorem sound_run (blocks : List (Block α)) :
    Sound joins limit (run joins (Gathering.start limit) blocks) :=
  run_induction (P := fun _ s => Sound joins limit s) .start (fun _ b _ hs => hs.step b) blocks

/-- Every group has grown from pieces that were there. The groups are seen through a function
that makes one thing of a group. -/
theorem grown_of_text_mem {β : Type} {f : List α → β} {blocks : List (Block α)} {b : β}
    (h : .text b ∈ (gather joins limit blocks).map (Block.map f)) :
    ∃ acc, Grown joins limit acc ∧ (∀ p ∈ acc.pieces.toList, .text p ∈ blocks) ∧
      b = f acc.pieces.toList := by
  obtain ⟨g, hg, hb⟩ := List.mem_map.mp h
  cases g with
  | table t => cases hb
  | text pieces =>
    cases hb
    have hmem : ∀ p ∈ pieces, .text p ∈ blocks := by
      intro p hp
      rw [← flatMap_pieces_gather joins limit blocks]
      exact List.mem_flatMap.mpr ⟨_, hg, List.mem_map_of_mem hp⟩
    rw [gather_eq_finish] at hg
    obtain ⟨acc, hacc, rfl⟩ := (sound_run blocks).finish pieces hg
    exact ⟨acc, hacc, hmem, rfl⟩

theorem table_mem_of_table_mem {β : Type} {f : List α → β} {blocks : List (Block α)} {t : Element}
    (h : .table t ∈ (gather joins limit blocks).map (Block.map f)) : .table t ∈ blocks := by
  obtain ⟨g, hg, hb⟩ := List.mem_map.mp h
  cases g with
  | text pieces => cases hb
  | table u =>
    cases hb
    rw [← flatMap_pieces_gather joins limit blocks]
    exact List.mem_flatMap.mpr ⟨_, hg, List.mem_singleton.mpr rfl⟩

/-- Groups stay within the limit unless they are single pieces, if pieces join only within the
limit. -/
theorem Grown.single_or_textLength_le
    (hjoins : ∀ acc piece, joins acc piece = true →
      acc.textLength ≤ limit ∧ acc.fits piece = true)
    {acc : Accumulator α} (h : Grown joins limit acc) :
    (∃ piece, acc.pieces.toList = [piece]) ∨ acc.textLength ≤ limit := by
  cases h with
  | first piece => exact .inl ⟨piece, rfl⟩
  | @add acc piece h hj =>
    obtain ⟨hle, hfits⟩ := hjoins acc piece hj
    rw [← h.limit_eq] at hle
    have hadd := Accumulator.textLength_add_le hfits hle
    rw [h.limit_eq] at hadd
    exact .inr hadd

/-! ### Where groups are cut off -/

variable (joins) in
/-- The open group, if there is one, is not joined by what comes next. -/
def Cut (s : Gathering α) : List (Block α) → Prop
  | .text piece :: _ => s.current.isEmpty = true ∨ joins s.current piece = false
  | _ => True

theorem gatherFrom_of_cut {blocks : List (Block α)} (h : Cut joins s blocks) :
    gatherFrom joins s.current blocks =
      s.current.close ++ gatherFrom joins (.empty s.current.limit) blocks := by
  cases he : s.current.isEmpty with
  | true =>
    rw [Accumulator.close_of_isEmpty he, ← Accumulator.eq_empty_of_isEmpty he, List.nil_append]
  | false =>
    match blocks with
    | [] => exact (List.append_nil _).symm
    | .table t :: rest => rfl
    | .text piece :: rest =>
      -- The open group is not empty, so the cut says that the piece does not join it.
      have hj : joins s.current piece = false := h.resolve_left (by simp [he])
      simp [gatherFrom, he, hj]

theorem cut_of_forall {blocks : List (Block α)}
    (h : ∀ p rest, blocks = .text p :: rest → joins s.current p = false) : Cut joins s blocks := by
  match blocks with
  | [] => trivial
  | .table t :: rest => trivial
  | .text p :: rest => exact .inr (h p rest rfl)

theorem cut_of_table_last (xs : List (Block α)) (t : Element) (ys : List (Block α)) :
    Cut joins (run joins s (xs ++ [.table t])) ys := by
  have h : (run joins s (xs ++ [.table t])).current.isEmpty = true := by
    rw [run_append]; rfl
  match ys with
  | [] => trivial
  | .table t :: rest => trivial
  | .text p :: rest => exact .inl h

variable (joins s) in
theorem getLast?_step (piece : α) :
    (step joins s (.text piece)).current.pieces.toList.getLast? = some piece := by
  obtain ⟨t, hb, -⟩ | ⟨q, hb, -, -, h⟩ | ⟨q, hb, -, h⟩ := step_cases joins s (.text piece)
  · cases hb
  all_goals
    cases hb
    rw [h, Accumulator.pieces_add, List.getLast?_concat]

theorem getLast?_run (joins : Accumulator α → α → Bool) (s : Gathering α) (xs : List (Block α))
    (piece : α) :
    (run joins s (xs ++ [.text piece])).current.pieces.toList.getLast? = some piece := by
  rw [run_append]
  exact getLast?_step joins (run joins s xs) piece

/-- What comes after a cut is gathered by itself. -/
theorem gather_append {xs ys : List (Block α)}
    (h : Cut joins (run joins (start limit) xs) ys) :
    gather joins limit (xs ++ ys) = gather joins limit xs ++ gather joins limit ys := by
  have hl : (run joins (start limit) xs).current.limit = limit := (sound_run xs).limit_eq
  rw [gather_eq_finish (xs ++ ys), run_append, finish_run, gatherFrom_of_cut h, hl,
    ← List.append_assoc, gather_eq_finish xs]
  rfl

/-! ### What is closed stays closed -/

theorem closed_prefix_finish (s : Gathering α) : s.closed <+: s.finish := List.prefix_append _ _

theorem closed_prefix_step (b : Block α) : s.closed <+: (step joins s b).closed := by
  obtain ⟨t, -, h⟩ | ⟨piece, -, -, -, h⟩ | ⟨piece, -, -, h⟩ := step_cases joins s b
  · rw [h]
    exact (closed_prefix_finish s).trans (List.prefix_append _ _)
  · rw [h]
  · rw [h]
    exact closed_prefix_finish s

/-- What is closed stays closed, however the blocks go on. -/
theorem closed_prefix_run (blocks : List (Block α)) (s : Gathering α) :
    s.closed <+: (run joins s blocks).closed := by
  induction blocks generalizing s with
  | nil => exact List.prefix_refl _
  | cons b blocks ih => exact (closed_prefix_step b).trans (ih _)

/-- Only the last group can be open. -/
theorem dropLast_finish_prefix_closed (s : Gathering α) : s.finish.dropLast <+: s.closed := by
  rw [finish]
  cases h : s.current.isEmpty with
  | true =>
    rw [Accumulator.close_of_isEmpty h, List.append_nil]
    exact List.dropLast_prefix _
  | false =>
    rw [Accumulator.close_of_not_isEmpty h, List.dropLast_concat]

theorem closed_step_prefix_of_imp {p q : α}
    (h : joins s.current q = true → joins s.current p = true) :
    (step joins s (.text p)).closed <+: (step joins s (.text q)).closed := by
  obtain ⟨t, hb, -⟩ | ⟨p', hb, -, -, hp⟩ | ⟨p', hb, hcut, hp⟩ := step_cases joins s (.text p)
  · cases hb
  · have hclosed : (step joins s (.text p)).closed = s.closed := by rw [hp]
    rw [hclosed]
    exact closed_prefix_step _
  · cases hb
    obtain ⟨t, hb, -⟩ | ⟨q', hb, he, hj, -⟩ | ⟨q', hb, -, hq⟩ := step_cases joins s (.text q)
    · cases hb
    · -- If `q` joined the open group, `p` would have joined it as well.
      cases hb
      rcases hcut with he' | hj'
      · rw [he] at he'
        cases he'
      · rw [h hj] at hj'
        cases hj'
    · rw [hp, hq]

theorem gatherFrom_of_not_isEmpty (joins : Accumulator α → α → Bool) {acc : Accumulator α}
    (he : acc.isEmpty = false)
    (blocks : List (Block α)) :
    ∃ more rest, gatherFrom joins acc blocks = .text (acc.pieces.toList ++ more) :: rest := by
  induction blocks generalizing acc with
  | nil => exact ⟨[], [], by rw [gatherFrom, Accumulator.close_of_not_isEmpty he, List.append_nil]⟩
  | cons b blocks ih =>
    have hclose : ∀ rest, ∃ more rest', acc.close ++ rest =
        .text (acc.pieces.toList ++ more) :: rest' := fun rest =>
      ⟨[], rest, by rw [Accumulator.close_of_not_isEmpty he, List.append_nil]; rfl⟩
    cases b with
    | table t => exact hclose _
    | text piece =>
      simp only [gatherFrom]
      split
      · obtain ⟨more, rest, h⟩ := ih (Accumulator.isEmpty_add acc piece)
        exact ⟨piece :: more, rest, by rw [h, Accumulator.pieces_add, List.append_assoc]; rfl⟩
      · exact hclose _

/-- **How groups go on with more blocks**: they all stay as they are, or the last one grows. -/
theorem gather_append_cases (joins : Accumulator α → α → Bool) (limit : Nat)
    (xs ys : List (Block α)) :
    (∃ rest, gather joins limit (xs ++ ys) = gather joins limit xs ++ rest) ∨
    ∃ before pieces more rest, gather joins limit xs = before ++ [.text pieces] ∧
      gather joins limit (xs ++ ys) = before ++ .text (pieces ++ more) :: rest := by
  have hall : gather joins limit (xs ++ ys) = (run joins (start limit) xs).closed ++
      gatherFrom joins (run joins (start limit) xs).current ys := by
    rw [gather_eq_finish, run_append, finish_run]
  rw [hall, gather_eq_finish xs, finish]
  generalize run joins (start limit) xs = s
  cases he : s.current.isEmpty with
  | true =>
    rw [Accumulator.close_of_isEmpty he, List.append_nil]
    exact .inl ⟨_, rfl⟩
  | false =>
    have hopen := gatherFrom_of_not_isEmpty joins he ys
    obtain ⟨more, rest, h⟩ := hopen
    rw [Accumulator.close_of_not_isEmpty he, h]
    exact .inr ⟨_, _, more, rest, rfl, rfl⟩

end Gathering

end SectionChunks
