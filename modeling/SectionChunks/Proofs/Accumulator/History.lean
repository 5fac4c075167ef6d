import Mathlib.Data.List.DropRight
import SectionChunks.Proofs.PreChunk

/-! # What accumulators show

The length of a joined text is found in four ways: an accumulator counts along with the pieces that
are added to it, single elements or whole groups, a group counts over its elements, and the joined
text has its characters. Whatever was done to an accumulator, they all agree.

* `Action`, `after`: the history of an accumulator.
* `sinceFlush`, `pieces_after`: what is left of a history are the pieces that were added since the
  last flush.
* `Shows`: all that an accumulator shows of its pieces, told by their joined text.
* `shows_after`: after any history, an accumulator shows the pieces that were added since the last
  flush. -/

namespace SectionChunks.Accumulator

variable {α : Type}

/-! ### Histories -/

/-- What is done to an accumulator. -/
inductive Action (α : Type) where
  | add (piece : α)
  | flush

/-- The piece that is added, if one is. -/
def Action.added? : Action α → Option α
  | add piece => some piece
  | flush => none

/-- The pieces that were added behind the last flush. -/
def sinceFlush (actions : List (Action α)) : List α :=
  (actions.rtakeWhile (·.added?.isSome)).filterMap Action.added?

theorem sinceFlush_concat_add (actions : List (Action α)) (piece : α) :
    sinceFlush (actions ++ [.add piece]) = sinceFlush actions ++ [piece] := by
  rw [sinceFlush, List.rtakeWhile_concat_pos _ _ _ rfl, List.filterMap_append]
  rfl

theorem sinceFlush_concat_flush (actions : List (Action α)) :
    sinceFlush (actions ++ [.flush]) = [] := by
  rw [sinceFlush, List.rtakeWhile_concat_neg _ _ _ Bool.false_ne_true]
  rfl

variable [HasTextLength α]

/-- The accumulator after one action. -/
def act (acc : Accumulator α) : Action α → Accumulator α
  | .add piece => acc.add piece
  | .flush => acc.flush.2

/-- An accumulator that was empty, after several actions. -/
def after (limit : Nat) (actions : List (Action α)) : Accumulator α :=
  actions.foldl act (empty limit)

theorem after_concat (limit : Nat) (actions : List (Action α)) (action : Action α) :
    after limit (actions ++ [action]) = (after limit actions).act action := List.foldl_concat ..

theorem limit_after (limit : Nat) (actions : List (Action α)) :
    (after limit actions).limit = limit := by
  induction actions using List.reverseRecOn with
  | nil => rfl
  | append_singleton actions action ih =>
    rw [after_concat]
    cases action with
    | add piece => exact ih
    | flush => exact ih

/-- What is left of a history are the pieces added since the last flush. -/
theorem pieces_after (limit : Nat) (actions : List (Action α)) :
    (after limit actions).pieces.toList = sinceFlush actions := by
  induction actions using List.reverseRecOn with
  | nil => rfl
  | append_singleton actions action ih =>
    rw [after_concat]
    cases action with
    | add piece => rw [act, pieces_add, ih, sinceFlush_concat_add]
    | flush => rw [act, flush_snd, pieces_empty, sinceFlush_concat_flush]

/-! ### What is shown -/

/-- **What an accumulator shows of its pieces.** `group` makes a group of them. The length shown is
that of the joined text. The room is the limit as long as there is no text, and else what is left
behind the text and a separator, so a piece with a text is no longer than the room exactly when the
joined text is within the limit with it. The accumulator is empty when there are no pieces. Then
nothing is flushed, and otherwise the group of all pieces, with the length shown. There is nothing
left afterwards. -/
structure Shows (group : List α → TextGroup) (limit : Nat) (pieces : List α) (acc : Accumulator α) :
    Prop where
  textLength_eq : acc.textLength = (group pieces).joinedText.length
  room_eq : acc.room =
    if (group pieces).joinedText = "" then limit else limit - acc.textLength - 2
  le_room_iff : ∀ piece, 0 < HasTextLength.textLength piece →
    (HasTextLength.textLength piece ≤ acc.room ↔
      (group (pieces ++ [piece])).joinedText.length ≤ limit)
  isEmpty_iff : acc.isEmpty = true ↔ pieces = []
  flushed_eq : acc.flush.1.map group = if pieces = [] then none else some (group pieces)
  textLength_flushed : ∀ g ∈ acc.flush.1.map group,
    g.textLength = acc.textLength ∧ g.textLength = g.joinedText.length
  flush_eq_empty : acc.flush.2 = empty limit

theorem shows_pieces (group : List α → TextGroup)
    (hgroup : ∀ pieces, (group pieces).textLength =
      (Text.Extent.ofLengths (pieces.map HasTextLength.textLength)).length)
    (acc : Accumulator α) : Shows group acc.limit acc.pieces.toList acc := by
  have hlength : ∀ acc : Accumulator α,
      acc.textLength = (group acc.pieces.toList).joinedText.length := by
    intro acc
    rw [acc.textLength_eq, ← hgroup, TextGroup.textLength_eq_length]
  have hflush : acc.flush.1.map group =
      if acc.pieces.toList = [] then none else some (group acc.pieces.toList) := by
    rw [flush]
    cases he : acc.isEmpty with
    | true => rw [if_pos rfl, if_pos (isEmpty_iff.mp he)]; rfl
    | false =>
      have hne : acc.pieces.toList ≠ [] := mt isEmpty_iff.mpr (by simp [he])
      rw [if_neg Bool.false_ne_true, if_neg hne]
      rfl
  refine ⟨hlength acc, ?_, fun piece hpiece => ?_, isEmpty_iff, hflush, fun g hg => ?_, rfl⟩
  · have hempty : (group acc.pieces.toList).joinedText = "" ↔ acc.textLength = 0 := by
      rw [hlength acc, String.length_eq_zero_iff]
    rw [room_eq, if_congr hempty.symm rfl (Nat.sub_add_eq _ _ _)]
  · have hadd := hlength (acc.add piece)
    rw [pieces_add] at hadd
    have hfits : acc.fits piece = true ↔ (acc.add piece).textLength ≤ acc.limit :=
      fits_iff.trans (or_iff_right (Nat.ne_of_gt hpiece))
    rw [← hadd, ← hfits, fits, decide_eq_true_iff]
  · rw [hflush] at hg
    split at hg
    · cases hg
    · cases hg
      rw [TextGroup.textLength_eq_length, hlength acc]
      exact ⟨rfl, rfl⟩

/-- **All lengths agree.** Whatever is done to an accumulator of elements, or to one of groups, it
shows what was added since the last flush. Groups are put together as if one by one. -/
theorem shows_after (limit : Nat) :
    (∀ actions : List (Action Element),
      Shows TextGroup.mk limit (sinceFlush actions) (after limit actions)) ∧
    (∀ actions : List (Action TextGroup),
      Shows TextGroup.concat limit (sinceFlush actions) (after limit actions)) ∧
    ∀ (g : TextGroup) (groups : List TextGroup),
      TextGroup.concat (g :: groups) = groups.foldl (· ++ ·) g := by
  refine ⟨fun actions => ?_, fun actions => ?_, TextGroup.concat_cons_eq_foldl⟩
  · have hshows := shows_pieces TextGroup.mk (fun _ => rfl) (after limit actions)
    rwa [limit_after, pieces_after] at hshows
  · have hshows := shows_pieces TextGroup.concat TextGroup.textLength_concat (after limit actions)
    rwa [limit_after, pieces_after] at hshows

/-- Neither an element without text nor what was flushed takes any room. -/
example :
    let acc := after 50 [.add (Element.plainText "old"), .flush, .add (.plainText "abcde"),
      .add .pageBreak, .add (.plainText "fghij")]
    acc.textLength = 12 ∧ acc.room = 36 := by decide

end SectionChunks.Accumulator
