import SectionChunks.Proofs.Consolidation.Fields
import SectionChunks.Proofs.Consolidation.Places
import SectionChunks.Proofs.Dictionary

/-! # Regex matches in a joined text

The matches of a group are those of its elements, each moved to where its element's text stands in
the joined text. What is said here of positions rests on exact sums (`RegexMatch.shift`), so for
records whose positions lie outside their texts it is meant as long as no sum outgrows a word.

* `RegexMatch.LiesIn`: a match tells the truth about a text, so does a record whose matches all do
  (`Metadata.MatchesLieIn`).
* `RegexMap.find?_append`, `RegexMap.getD_find?_union`: what is recorded under a name.
* `TextGroup.getD_find?_regexMatches`: the matches of a group, pattern by pattern, and those in its
  metadata (`TextGroup.matches?_metadata`).
* `TextGroup.regexMatches_joinedText`: they are all there, and they are where they say.
* `TextGroup.matchesLieIn_metadata`: if the matches of the elements lie in their texts, those of the
  group lie in the joined text. -/

namespace SectionChunks

/-! ### Matches in a text -/

/-- A match lies in a text: its positions are positions of the text, and between them stands what
was matched. -/
structure RegexMatch.LiesIn (m : RegexMatch) (text : String) : Prop where
  start_le : m.start ≤ m.stop
  stop_le : m.stop ≤ text.length
  text_eq : m.text.toList = (text.toList.take m.stop).drop m.start

theorem RegexMatch.LiesIn.shift {m : RegexMatch} {text whole : String} (h : m.LiesIn text)
    {before after : List Char} (hwhole : whole.toList = before ++ text.toList ++ after) :
    (m.shift before.length).LiesIn whole := by
  have hstop : m.stop ≤ text.toList.length := by
    rw [String.length_toList]
    exact h.stop_le
  refine ⟨Nat.add_le_add_right h.start_le _, ?_, ?_⟩
  · rw [← String.length_toList, hwhole]
    simp only [RegexMatch.shift, List.length_append]
    omega
  · have htake :
        whole.toList.take (m.stop + before.length) = before ++ text.toList.take m.stop := by
      rw [hwhole, List.append_assoc, Nat.add_comm, List.take_length_add_append,
        List.take_append_of_le_length hstop]
    show m.text.toList = (whole.toList.take (m.stop + before.length)).drop (m.start + before.length)
    rw [htake, Nat.add_comm, List.drop_length_add_append, ← h.text_eq]

/-- All matches of a record have a property. -/
def RegexMap.All (P : RegexMatch → Prop) (r : RegexMap) : Prop := ∀ e ∈ r.entries, ∀ m ∈ e.2, P m

/-- All matches of a record lie in a text. -/
def Metadata.MatchesLieIn (md : Metadata) (text : String) : Prop :=
  ∀ r ∈ md.regexMetadata, r.All (·.LiesIn text)

/-! ### Matches put together -/

namespace RegexMap

theorem all_iff {P : RegexMatch → Prop} {r : RegexMap} :
    r.All P ↔ ∀ name, ∀ m ∈ (r.find? name).getD [], P m := by
  constructor
  · intro h name m hm
    cases hms : r.find? name with
    | none =>
      rw [hms] at hm
      cases hm
    | some ms =>
      rw [hms] at hm
      exact h (name, ms) ((r.mem_entries_iff name ms).mpr hms) m hm
  · intro h e he m hm
    refine h e.1 m ?_
    rw [(r.mem_entries_iff e.1 e.2).mp he]
    exact hm

theorem lookup_shift (r : RegexMap) (offset : Nat) (name : String) :
    (r.shift offset).lookup name = (r.find? name).map (List.map (·.shift offset)) :=
  Dictionary.lookup_map _ r.entries name

theorem nodup_names_shift (r : RegexMap) (offset : Nat) : ((r.shift offset).map (·.1)).Nodup := by
  rw [shift, List.map_map]
  exact r.nodup_names

/-- What is added under a name comes after what is there already. -/
theorem find?_append {more : List (String × List RegexMatch)} (hmore : (more.map (·.1)).Nodup)
    (r : RegexMap) (name : String) :
    (r.append more).find? name =
      ((more.lookup name).map fun ms => (r.find? name).getD [] ++ ms).or (r.find? name) := by
  rw [append]
  induction more generalizing r with
  | nil => rfl
  | cons e more ih =>
    obtain ⟨he, hmore⟩ := List.nodup_cons.mp hmore
    rw [List.foldl_cons, ih hmore, Dictionary.find?_modify, Dictionary.lookup_cons_eq_ite]
    by_cases hname : name = e.1
    · -- The names are distinct, so this one does not come again.
      have hnone : more.lookup name = none := by
        refine List.lookup_eq_none_iff.mpr fun a ha => bne_iff_ne.mpr ?_
        rintro rfl
        exact he (List.mem_map.mpr ⟨a, ha, hname⟩)
      rw [if_pos hname, if_pos hname, hnone, hname]
      rfl
    · rw [if_neg hname, if_neg hname]

theorem find?_append_shift (r : RegexMap) (p : Nat × RegexMap) (name : String) :
    (r.append (p.2.shift p.1)).find? name =
      ((p.2.find? name).map fun ms => (r.find? name).getD [] ++ ms.map (·.shift p.1)).or
        (r.find? name) := by
  rw [find?_append (p.2.nodup_names_shift p.1), lookup_shift, Option.map_map]
  rfl

theorem getD_find?_union (records : List (Nat × RegexMap)) (name : String) :
    ((union records).find? name).getD [] =
      records.flatMap fun p => ((p.2.find? name).getD []).map (·.shift p.1) := by
  suffices hfold : ∀ r : RegexMap,
      ((records.foldl (fun r p => r.append (p.2.shift p.1)) r).find? name).getD [] =
        (r.find? name).getD [] ++
          records.flatMap fun p => ((p.2.find? name).getD []).map (·.shift p.1) by
    exact hfold Dictionary.empty
  induction records with
  | nil => exact fun r => (List.append_nil _).symm
  | cons p records ih =>
    intro r
    rw [List.foldl_cons, ih, find?_append_shift, List.flatMap_cons, ← List.append_assoc]
    cases p.2.find? name with
    | none => simp
    | some ms => rfl

theorem find?_union_eq_none_iff {records : List (Nat × RegexMap)} {name : String} :
    (union records).find? name = none ↔ ∀ p ∈ records, p.2.find? name = none := by
  suffices hfold : ∀ r : RegexMap,
      (records.foldl (fun r p => r.append (p.2.shift p.1)) r).find? name = none ↔
        r.find? name = none ∧ ∀ p ∈ records, p.2.find? name = none by
    exact (hfold Dictionary.empty).trans (and_iff_right rfl)
  induction records with
  | nil => exact fun r => (and_iff_left fun p hp => absurd hp List.not_mem_nil).symm
  | cons p records ih =>
    intro r
    rw [List.foldl_cons, ih, find?_append_shift, List.forall_mem_cons, ← and_assoc]
    cases p.2.find? name <;> simp

end RegexMap

/-! ### The matches of a group -/

/-- The matches of a pattern in a record, if the record has the pattern. -/
def Metadata.matches? (md : Metadata) (name : String) : Option (List RegexMatch) :=
  md.regexMetadata.bind (·.find? name)

/-- The matches of a pattern in an element, if the element has the pattern. -/
def Element.matches? (e : Element) (name : String) : Option (List RegexMatch) :=
  e.metadata.regexMetadata.bind (·.find? name)

theorem Element.liesIn_of_matchesLieIn {e : Element} (h : e.metadata.MatchesLieIn e.text)
    {name : String} {m : RegexMatch} (hm : m ∈ (e.matches? name).getD []) : m.LiesIn e.text := by
  rw [matches?] at hm
  cases hr : e.metadata.regexMetadata with
  | none =>
    rw [hr] at hm
    cases hm
  | some r =>
    rw [hr, Option.bind_some] at hm
    exact RegexMap.all_iff.mp (h r hr) name m hm

namespace TextGroup

variable {g : TextGroup} {name : String}

theorem find?_regexMatches_ne_none_iff :
    g.regexMatches.find? name ≠ none ↔ ∃ e ∈ g.elements, e.text ≠ "" ∧ e.matches? name ≠ none := by
  have hrecord : ∀ p : Nat × Element,
      (∀ r, p.2.metadata.regexMetadata.map (p.1, ·) = some r → r.2.find? name = none) ↔
        p.2.matches? name = none := by
    intro p
    rw [Element.matches?]
    cases p.2.metadata.regexMetadata <;> simp
  rw [← exists_mem_placed_iff, regexMatches, Ne, RegexMap.find?_union_eq_none_iff,
    List.forall_mem_filterMap]
  simp only [hrecord, not_forall, exists_prop, Ne]

/-- The matches of a pattern are those of the elements, one element after the other. -/
theorem getD_find?_regexMatches (g : TextGroup) (name : String) :
    (g.regexMatches.find? name).getD [] =
      g.placed.flatMap fun p => ((p.2.matches? name).getD []).map (·.shift p.1) := by
  rw [regexMatches, RegexMap.getD_find?_union, List.filterMap_eq_flatMap_toList, List.flatMap_assoc]
  refine congrArg (g.placed.flatMap ·) (funext fun p => ?_)
  rw [Element.matches?]
  cases p.2.metadata.regexMetadata with
  | none => rfl
  | some r => exact List.flatMap_singleton _ _

/-- The merged record has the matches of the group. It has them whenever there are any, since they
come from the field of an element. -/
theorem matches?_metadata (g : TextGroup) (name : String) :
    g.metadata.matches? name = g.regexMatches.find? name := by
  rw [Metadata.matches?, metadata, regexMetadata_consolidate]
  split
  · rfl
  · next hnot =>
    cases hfound : g.regexMatches.find? name with
    | none => rfl
    | some ms =>
      refine absurd ⟨?_, fun hnil => ?_⟩ hnot
      · obtain ⟨e, he, -, hmatch⟩ := find?_regexMatches_ne_none_iff.mp (by rw [hfound]; nofun)
        refine collect_ne_none_iff.mpr ⟨e.metadata, List.mem_map_of_mem he, fun hvalue => hmatch ?_⟩
        have habsent : e.metadata.regexMetadata = none := Option.map_eq_none_iff.mp hvalue
        rw [Element.matches?, habsent]
        rfl
      · rw [Dictionary.find?, hnil] at hfound
        cases hfound

theorem liesIn_joinedText {p : Nat × Element} (hp : p ∈ g.placed) {m : RegexMatch}
    (hm : m.LiesIn p.2.text) : (m.shift p.1).LiesIn g.joinedText := by
  obtain ⟨-, before, after, hplace, hjoined⟩ := exists_front_of_mem_placed hp
  rw [hplace]
  exact hm.shift hjoined

/-- The matches of a group lie in the joined text, if those of its elements lie in theirs. -/
theorem matchesLieIn_metadata (h : ∀ e ∈ g.elements, e.metadata.MatchesLieIn e.text) :
    g.metadata.MatchesLieIn g.joinedText := by
  intro r hr
  rw [metadata, regexMetadata_consolidate] at hr
  split at hr
  · cases hr
    refine RegexMap.all_iff.mpr fun name moved hmoved => ?_
    rw [getD_find?_regexMatches] at hmoved
    obtain ⟨p, hp, hmoved⟩ := List.mem_flatMap.mp hmoved
    obtain ⟨m, hm, rfl⟩ := List.mem_map.mp hmoved
    have he := h p.2 (exists_front_of_mem_placed hp).1
    exact liesIn_joinedText hp (Element.liesIn_of_matchesLieIn he hm)
  · cases hr

/-- **Every match keeps to its text.** The texts of a group stand in its joined text one behind the
other. The matches recorded for the group are those of the elements that have a text, pattern by
pattern, each moved as far as its text. So what a match says of its own text is said of the joined
text by the moved one. -/
theorem regexMatches_joinedText (g : TextGroup) :
    Layout g.elements g.joinedText g.placed ∧
      (∀ name ms, g.regexMatches.find? name = some ms ↔
        (∃ e ∈ g.elements, e.text ≠ "" ∧ e.matches? name ≠ none) ∧
          ms = g.placed.flatMap fun p => ((p.2.matches? name).getD []).map fun m =>
            ⟨m.text, m.start + p.1, m.stop + p.1⟩) ∧
      ∀ p ∈ g.placed, ∀ m : RegexMatch, m.LiesIn p.2.text →
        RegexMatch.LiesIn ⟨m.text, m.start + p.1, m.stop + p.1⟩ g.joinedText := by
  refine ⟨g.layout_placed, fun name ms => ?_, fun p hp m hm => liesIn_joinedText hp hm⟩
  have hmatches := g.getD_find?_regexMatches name
  rw [← find?_regexMatches_ne_none_iff]
  cases hfound : g.regexMatches.find? name with
  | none => simp
  | some found =>
    rw [hfound, Option.getD_some] at hmatches
    rw [Option.some_inj, and_iff_right (Option.some_ne_none found), eq_comm]
    exact ⟨fun h => h.trans hmatches, fun h => h.trans hmatches.symm⟩

end TextGroup

/-- Metadata with the matches of one pattern. -/
def Metadata.ofMatches (name : String) (found : List RegexMatch) : Metadata :=
  { regexMetadata := some (Dictionary.empty.insert name found) }

namespace TextGroup

/-- Two places behind a page break. The page break has a match, though it has no text. -/
def twoPlaces : TextGroup :=
  ⟨[Element.pageBreak.withMetadata (.ofMatches "page" [⟨"1", 0, 1⟩]),
    (Element.title "Zürich").withMetadata (.ofMatches "place" [⟨"Zürich", 0, 6⟩]),
    Element.checkBox,
    (Element.narrativeText "à 東京").withMetadata (.ofMatches "place" [⟨"東京", 2, 4⟩])]⟩

/-- The second place moves behind the first one and the blank line. -/
theorem regexMatches_joinedText_twoPlaces :
    twoPlaces.joinedText = "Zürich\n\nà 東京" ∧
      twoPlaces.regexMatches.find? "place" = some [⟨"Zürich", 0, 6⟩, ⟨"東京", 10, 12⟩] ∧
      twoPlaces.regexMatches.find? "page" = none ∧
      RegexMatch.LiesIn ⟨"東京", 10, 12⟩ twoPlaces.joinedText := by
  obtain ⟨-, hfind, hlies⟩ := regexMatches_joinedText twoPlaces
  refine ⟨by decide, (hfind "place" _).mpr ⟨by decide, by decide⟩, by decide, ?_⟩
  exact hlies (8, twoPlaces.elements[3]) (by decide) ⟨"東京", 2, 4⟩ ⟨by decide, by decide, by decide⟩

end TextGroup

end SectionChunks
