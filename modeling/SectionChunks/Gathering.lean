import SectionChunks.Accumulator

/-! # Gathering text into groups

Neighbouring pieces of text are gathered into groups from left to right. A group stays open as long
as the next piece may join it, and a table closes it. Which pieces may join is a parameter.

* `gather`: the blocks with their text gathered. -/

namespace SectionChunks

variable {α : Type} [HasTextLength α]

/-- The open group as a block, if there is one. -/
def Accumulator.close (acc : Accumulator α) : List (Block (List α)) :=
  acc.flush.1.toList.map .text

/-- Gathers blocks after the group that is open in `acc`. A piece for which there is no open group
starts one whatever it is. -/
def gatherFrom (joins : Accumulator α → α → Bool) (acc : Accumulator α) :
    List (Block α) → List (Block (List α))
  | [] => acc.close
  | .table t :: rest => acc.close ++ .table t :: gatherFrom joins acc.flush.2 rest
  | .text piece :: rest =>
    if acc.isEmpty || joins acc piece then gatherFrom joins (acc.add piece) rest
    else acc.close ++ gatherFrom joins (acc.flush.2.add piece) rest

/-- Gathers blocks of text into groups within a limit. -/
def gather (joins : Accumulator α → α → Bool) (limit : Nat) (blocks : List (Block α)) :
    List (Block (List α)) :=
  gatherFrom joins (.empty limit) blocks

end SectionChunks
