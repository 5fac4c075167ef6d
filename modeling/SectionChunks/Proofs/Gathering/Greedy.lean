import Mathlib.Data.List.Chain
import SectionChunks.Proofs.Gathering

/-! # The greedy division

Blocks can be divided into groups in many ways. One of them is greedy: in a group every piece goes
on with the pieces before it, and no group could have taken in the first piece behind it. Nothing is
said there of how the groups are found, but there is no choice left, and gathering finds them.

* `Greedy`: the greedy division, for any condition of going on.
* `greedy_gather`: gathering divides greedily. Behind a first piece a group holds what joined it,
  and it is closed only where the next piece does not join (`isChain_gatherFrom`).
* `eq_gather_of_greedy`: there is no other greedy division. Its first group is rebuilt piece by
  piece (`run_map_text`), and what comes behind is cut off (`cut_of_apart`). -/

namespace SectionChunks

variable {α : Type}

/-- What a group could not take in: it is followed by a piece that does not go on with it, or a
table stands between. -/
def Block.Apart (goesOn : List α → α → Prop) : Block (List α) → Block (List α) → Prop
  | .text pieces, .text (next :: _) => ¬ goesOn pieces next
  | _, _ => True

/-- **The greedy division** of blocks. Every piece behind the first one of a group goes on with
those before it, and no group could have taken in more. -/
structure Greedy (goesOn : List α → α → Prop) (blocks : List (Block α))
    (division : List (Block (List α))) : Prop where
  pieces_eq : division.flatMap Block.pieces = blocks
  ne_nil : ∀ pieces, .text pieces ∈ division → pieces ≠ []
  joined : ∀ before next after, .text (before ++ next :: after) ∈ division → before ≠ [] →
    goesOn before next
  apart : division.IsChain (Block.Apart goesOn)

theorem Block.apart_table_left (goesOn : List α → α → Prop) (t : Element) (b : Block (List α)) :
    Apart goesOn (.table t) b := trivial

theorem Block.apart_table_right (goesOn : List α → α → Prop) (b : Block (List α)) (t : Element) :
    Apart goesOn b (.table t) := by
  cases b <;> trivial

theorem greedy_map_singleton {goesOn : List α → α → Prop} {blocks : List (Block α)}
    (h : (blocks.map (Block.map fun piece => [piece])).IsChain (Block.Apart goesOn)) :
    Greedy goesOn blocks (blocks.map (Block.map fun piece => [piece])) := by
  have hpieces : ∀ b : Block α, (b.map fun piece => [piece]).pieces = [b] := by
    intro b
    cases b <;> rfl
  have htext : ∀ pieces, .text pieces ∈ blocks.map (Block.map fun piece => [piece]) →
      ∃ piece, pieces = [piece] := by
    intro pieces hp
    obtain ⟨b, -, heq⟩ := List.mem_map.mp hp
    cases b with
    | table t => cases heq
    | text piece =>
      cases heq
      exact ⟨piece, rfl⟩
  refine ⟨?_, fun pieces hp => ?_, fun before next after hp hne => ?_, h⟩
  · rw [List.flatMap_map, funext hpieces]
    exact List.flatMap_singleton' blocks
  · obtain ⟨piece, rfl⟩ := htext pieces hp
    exact List.cons_ne_nil piece []
  · obtain ⟨piece, heq⟩ := htext _ hp
    rcases List.append_eq_singleton_iff.mp heq with ⟨hnil, -⟩ | ⟨-, hnil⟩
    · exact absurd hnil hne
    · cases hnil

namespace Gathering

variable [HasTextLength α] {joins : Accumulator α → α → Bool} {limit : Nat}
  {goesOn : List α → α → Prop}
  (hgoesOn : ∀ acc piece, acc.limit = limit →
    (joins acc piece = true ↔ goesOn acc.pieces.toList piece))

section
include hgoesOn

/-! ### Gathering divides greedily -/

theorem Grown.goesOn_of_pieces_eq {acc : Accumulator α} (h : Grown joins limit acc)
    {before after : List α}
    {next : α} (hpieces : acc.pieces.toList = before ++ next :: after) (hne : before ≠ []) :
    goesOn before next := by
  induction h generalizing after with
  | first piece =>
    -- A single piece has nothing before it.
    rw [Accumulator.pieces_add, Accumulator.pieces_empty, List.nil_append] at hpieces
    rcases List.append_eq_singleton_iff.mp hpieces.symm with ⟨hnil, -⟩ | ⟨-, hnil⟩
    · exact absurd hnil hne
    · cases hnil
  | @add acc piece h hj ih =>
    rw [Accumulator.pieces_add] at hpieces
    rcases List.eq_nil_or_concat after with rfl | ⟨after, last, rfl⟩
    · obtain ⟨rfl, hlast⟩ := List.append_inj' hpieces rfl
      obtain rfl : piece = next := List.singleton_inj.mp hlast
      exact (hgoesOn acc piece h.limit_eq).mp hj
    · rw [List.concat_eq_append, ← List.cons_append, ← List.append_assoc] at hpieces
      exact ih (List.append_inj' hpieces rfl).1

theorem exists_grown_of_goesOn {pieces : List α} (hne : pieces ≠ [])
    (hgo : ∀ before next after, pieces = before ++ next :: after → before ≠ [] →
      goesOn before next) :
    ∃ acc, Grown joins limit acc ∧ acc.pieces.toList = pieces := by
  induction pieces using List.reverseRecOn with
  | nil => exact absurd rfl hne
  | append_singleton pieces piece ih =>
    by_cases hnil : pieces = []
    · subst hnil
      exact ⟨_, .first piece, rfl⟩
    · obtain ⟨acc, hacc, rfl⟩ := ih hnil fun before next after hp hbefore => by
        refine hgo before next (after ++ [piece]) ?_ hbefore
        rw [hp, List.append_assoc, List.cons_append]
      have hj := (hgoesOn acc piece hacc.limit_eq).mpr (hgo _ piece [] rfl hnil)
      exact ⟨acc.add piece, hacc.add hj, Accumulator.pieces_add acc piece⟩

/-- A group is closed only where it has to be. -/
theorem isChain_gatherFrom (blocks : List (Block α)) {acc : Accumulator α}
    (hl : acc.limit = limit) :
    (gatherFrom joins acc blocks).IsChain (Block.Apart goesOn) := by
  have hclose : ∀ acc : Accumulator α, acc.close.IsChain (Block.Apart goesOn) := by
    intro acc
    cases he : acc.isEmpty with
    | true => rw [Accumulator.close_of_isEmpty he]; exact .nil
    | false => rw [Accumulator.close_of_not_isEmpty he]; exact .singleton _
  induction blocks generalizing acc with
  | nil => exact hclose acc
  | cons b blocks ih =>
    cases b with
    | table t =>
      have hrest : (gatherFrom joins acc.flush.2 blocks).IsChain (Block.Apart goesOn) := ih hl
      have htable := hrest.cons fun b _ => Block.apart_table_left goesOn t b
      refine (hclose acc).append htable fun b _ c hc => ?_
      obtain rfl : .table t = c := Option.some.inj hc
      exact Block.apart_table_right goesOn b t
    | text piece =>
      simp only [gatherFrom]
      split
      · exact ih hl
      · rename_i hnot
        obtain ⟨he, hj⟩ : acc.isEmpty = false ∧ joins acc piece = false := by simpa using hnot
        have hfirst : acc.flush.2.add piece = (Accumulator.empty limit).add piece := by
          rw [Accumulator.flush_snd, hl]
        -- The next group starts with the piece that this one refused.
        obtain ⟨more, rest, hnext⟩ := gatherFrom_of_not_isEmpty joins
          (Accumulator.isEmpty_add (Accumulator.empty limit) piece) blocks
        have hrest : (gatherFrom joins ((Accumulator.empty limit).add piece) blocks).IsChain
            (Block.Apart goesOn) := ih rfl
        rw [Accumulator.close_of_not_isEmpty he, hfirst, List.singleton_append]
        refine hrest.cons fun c hc => ?_
        rw [hnext] at hc
        obtain rfl := Option.some.inj hc
        intro hgo
        rw [(hgoesOn acc piece hl).mpr hgo] at hj
        cases hj

/-- Gathering divides greedily. -/
theorem greedy_gather (blocks : List (Block α)) :
    Greedy goesOn blocks (gather joins limit blocks) := by
  have hgrown : ∀ pieces, .text pieces ∈ gather joins limit blocks →
      ∃ acc, Grown joins limit acc ∧ acc.pieces.toList = pieces := by
    rw [gather_eq_finish]
    exact (sound_run blocks).finish
  refine ⟨flatMap_pieces_gather joins limit blocks, fun pieces hp => ?_,
    fun before next after hp hne => ?_, isChain_gatherFrom hgoesOn blocks rfl⟩
  · obtain ⟨acc, hacc, rfl⟩ := hgrown pieces hp
    exact hacc.pieces_ne_nil
  · obtain ⟨acc, hacc, hpieces⟩ := hgrown _ hp
    exact hacc.goesOn_of_pieces_eq hgoesOn hpieces hne

/-! ### There is no other greedy division -/

/-- The pieces of a group gather into this group. -/
theorem run_map_text {pieces : List α}
    (hgo : ∀ before next after, pieces = before ++ next :: after → before ≠ [] →
      goesOn before next) :
    (run joins (start limit) (pieces.map .text)).closed = [] ∧
      (run joins (start limit) (pieces.map .text)).current.pieces.toList = pieces := by
  induction pieces using List.reverseRecOn with
  | nil => exact ⟨rfl, rfl⟩
  | append_singleton pieces piece ih =>
    have hind := ih fun before next after hp hne => by
      refine hgo before next (after ++ [piece]) ?_ hne
      rw [hp, List.append_assoc, List.cons_append]
    have hl := limit_run joins (start limit) (pieces.map Block.text)
    rw [List.map_append, run_append]
    generalize run joins (start limit) (pieces.map Block.text) = s at hind hl
    obtain ⟨hclosed, hpieces⟩ := hind
    have hjoins : (s.current.isEmpty || joins s.current piece) = true := by
      rw [Bool.or_eq_true]
      by_cases hne : pieces = []
      · exact .inl (Accumulator.isEmpty_iff.mpr (hpieces.trans hne))
      · refine .inr ((hgoesOn _ _ hl).mpr ?_)
        rw [hpieces]
        exact hgo pieces piece [] rfl hne
    have hstep : run joins s ([piece].map .text) = ⟨s.closed, s.current.add piece⟩ := by
      simp only [run, List.map_singleton, List.foldl_cons, List.foldl_nil, step, hjoins, if_true]
    rw [hstep, Accumulator.pieces_add, hpieces]
    exact ⟨hclosed, rfl⟩

/-- A group that could not take in more is cut off from the groups behind it. -/
theorem cut_of_apart {s : Gathering α} (hl : s.current.limit = limit)
    {division : List (Block (List α))} (hne : ∀ pieces, .text pieces ∈ division → pieces ≠ [])
    (h : (.text s.current.pieces.toList :: division).IsChain (Block.Apart goesOn)) :
    Cut joins s (division.flatMap Block.pieces) := by
  match division with
  | [] => trivial
  | .table t :: _ => trivial
  | .text [] :: _ => exact absurd rfl (hne [] List.mem_cons_self)
  | .text (next :: more) :: _ =>
    have hapart := (List.isChain_cons_cons.mp h).1
    exact .inr (Bool.eq_false_iff.mpr fun hj => hapart ((hgoesOn _ _ hl).mp hj))

theorem gather_eq_cons_of_greedy {b : Block (List α)} {division : List (Block (List α))}
    {blocks : List (Block α)} (h : Greedy goesOn blocks (b :: division)) :
    gather joins limit blocks = b :: gather joins limit (division.flatMap Block.pieces) := by
  have hblocks : blocks = b.pieces ++ division.flatMap Block.pieces := by
    rw [← h.pieces_eq, List.flatMap_cons]
  rw [hblocks]
  cases b with
  | table t => rfl
  | text pieces =>
    have hne : pieces ≠ [] := h.ne_nil pieces List.mem_cons_self
    have hrest : ∀ pieces, .text pieces ∈ division → pieces ≠ [] := fun pieces hp =>
      h.ne_nil pieces (List.mem_cons_of_mem _ hp)
    have hl := limit_run joins (start limit) (pieces.map Block.text)
    obtain ⟨hclosed, hpieces⟩ := run_map_text hgoesOn fun before next after hp hbefore =>
      h.joined before next after (hp ▸ List.mem_cons_self) hbefore
    have hcut := cut_of_apart hgoesOn hl hrest (by rw [hpieces]; exact h.apart)
    have hempty : (run joins (start limit) (pieces.map Block.text)).current.isEmpty = false := by
      rw [Bool.eq_false_iff, Ne, Accumulator.isEmpty_iff, hpieces]
      exact hne
    have hgroup : gather joins limit (pieces.map Block.text) = [.text pieces] := by
      rw [gather_eq_finish, finish, hclosed, Accumulator.close_of_not_isEmpty hempty, hpieces]
      rfl
    rw [Block.pieces, gather_append hcut, hgroup]
    rfl

/-- **There is no other greedy division.** -/
theorem eq_gather_of_greedy {division : List (Block (List α))} {blocks : List (Block α)}
    (h : Greedy goesOn blocks division) : division = gather joins limit blocks := by
  induction division generalizing blocks with
  | nil =>
    rw [← h.pieces_eq]
    rfl
  | cons b division ih =>
    have hrest : Greedy goesOn (division.flatMap Block.pieces) division :=
      ⟨rfl, fun pieces hp => h.ne_nil pieces (List.mem_cons_of_mem _ hp),
        fun before next after hp => h.joined before next after (List.mem_cons_of_mem _ hp),
        h.apart.tail⟩
    have hind := ih hrest
    rw [gather_eq_cons_of_greedy hgoesOn h, ← hind]

theorem greedy_iff_eq_gather {division : List (Block (List α))} {blocks : List (Block α)} :
    Greedy goesOn blocks division ↔ division = gather joins limit blocks :=
  ⟨eq_gather_of_greedy hgoesOn, fun h => h ▸ greedy_gather hgoesOn blocks⟩

end

end Gathering

end SectionChunks
