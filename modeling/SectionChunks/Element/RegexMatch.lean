import SectionChunks.Dictionary

/-! # Recorded regex matches

A match is a piece of a text with the positions of its first character and of the one after its
last, counted in characters of the text that the record belongs to. An element's matches are grouped
by the name of the pattern.

Positions are natural numbers, and moving a match adds to them exactly. A machine word of 64 bits
has room for the positions of any text in memory. A record can be read from a file with positions
near the end of a word, though, and what becomes of these when they are moved beyond it is left out.

* `RegexMatch.shift`: the match in a text that stands further right.
* `RegexMap.append`: the matches of two records, name by name. -/

namespace SectionChunks

/-- A match of a pattern in a text. -/
structure RegexMatch where
  text : String
  start : Nat
  stop : Nat
  deriving DecidableEq

/-- The same match after its text has moved to the right. The sums are exact: that they fit a
machine word is taken for granted, as they do for every match that lies in its text. -/
def RegexMatch.shift (m : RegexMatch) (offset : Nat) : RegexMatch :=
  { m with start := m.start + offset, stop := m.stop + offset }

/-- Matches by the name of their pattern. -/
abbrev RegexMap := Dictionary (List RegexMatch)

namespace RegexMap

/-- All matches moved to the right. -/
def shift (r : RegexMap) (offset : Nat) : List (String × List RegexMatch) :=
  r.entries.map fun e => (e.1, e.2.map (·.shift offset))

/-- Adds matches under names, after the ones already there. -/
def append (r : RegexMap) (more : List (String × List RegexMatch)) : RegexMap :=
  more.foldl (fun r e => r.modify e.1 fun old => old.getD [] ++ e.2) r

/-- The union of several records, each moved to its own place in one text. -/
def union (records : List (Nat × RegexMap)) : RegexMap :=
  records.foldl (fun r p => r.append (p.2.shift p.1)) Dictionary.empty

end RegexMap

end SectionChunks
