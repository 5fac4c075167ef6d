import SectionChunks.CommandLine.FileTree
import SectionChunks.Proofs.Dictionary

/-! # Writing a file

A file is written where its path leads. It is there afterwards, with the new content. All other
files are as they were, no directory comes or goes, and so every path leads where it led.

* `SameExcept`: trees that differ in one file at most.
* `find?_of_putFile?`, `sameExcept_of_putFile?`: what writing does under a row of names.
* `follow?_congr`: where a path leads is a matter of the directories.
* `read?_of_write?`, `SameExcept.read?_eq`: reading after writing. -/

namespace SectionChunks.FileTree

/-- Two trees with the same directories, and with the same files except perhaps under one row of
names. -/
structure SameExcept (names : List String) (t t' : FileTree) : Prop where
  files : ∀ other, other ≠ names → ∀ content,
    t'.find? other = some (.file content) ↔ t.find? other = some (.file content)
  directories : ∀ other, t'.hasDirectory other = t.hasDirectory other

/-! ### Entries -/

theorem lookup_putEntry (name : String) (node : FileTree) (entries : List (String × FileTree))
    (other : String) :
    (putEntry name node entries).lookup other =
      if other = name then some node else entries.lookup other := by
  induction entries with
  | nil => rw [putEntry, Dictionary.lookup_cons_eq_ite]
  | cons e rest ih =>
    simp only [putEntry]
    by_cases hname : e.1 = name
    · rw [if_pos hname, Dictionary.lookup_cons_eq_ite, Dictionary.lookup_cons_eq_ite, hname]
      split <;> rfl
    · rw [if_neg hname, Dictionary.lookup_cons_eq_ite, Dictionary.lookup_cons_eq_ite, ih]
      by_cases hother : other = e.1
      · rw [if_pos hother, if_pos hother, if_neg (hother ▸ hname)]
      · rw [if_neg hother, if_neg hother]

theorem find?_putEntry_self (name : String) (node : FileTree) (entries : List (String × FileTree))
    (names : List String) :
    (FileTree.directory (putEntry name node entries)).find? (name :: names) = node.find? names := by
  rw [find?, lookup_putEntry, if_pos rfl, Option.bind_some]

theorem find?_putEntry_of_ne {name other : String} (h : other ≠ name) (node : FileTree)
    (entries : List (String × FileTree)) (names : List String) :
    (FileTree.directory (putEntry name node entries)).find? (other :: names) =
      (FileTree.directory entries).find? (other :: names) := by
  rw [find?, find?, lookup_putEntry, if_neg h]

theorem hasDirectory_congr {t t' : FileTree} {names names' : List String}
    (h : t'.find? names' = t.find? names) : t'.hasDirectory names' = t.hasDirectory names := by
  rw [hasDirectory, hasDirectory, h]

/-! ### Under a row of names -/

theorem find?_of_putFile? {content : String} {names : List String} {t t' : FileTree}
    (h : putFile? content names t = some t') : t'.find? names = some (.file content) := by
  fun_induction putFile? content names t generalizing t' with
  | case4 name entries _ =>
    cases h
    rw [find?_putEntry_self, find?]
  | case5 name names entries _ node _ ih =>
    obtain ⟨node', hnode', rfl⟩ := Option.map_eq_some_iff.mp h
    rw [find?_putEntry_self]
    exact ih hnode'
  | case1 | case2 | case3 | case6 => cases h

theorem sameExcept_putEntry {name : String} {node : FileTree} {entries : List (String × FileTree)}
    {names : List String}
    (hfiles : ∀ other, other ≠ names → ∀ content, node.find? other = some (.file content) ↔
      (FileTree.directory entries).find? (name :: other) = some (.file content))
    (hdirectories : ∀ other,
      node.hasDirectory other = (FileTree.directory entries).hasDirectory (name :: other)) :
    SameExcept (name :: names) (.directory entries) (.directory (putEntry name node entries)) := by
  constructor
  · intro other hother content
    cases other with
    | nil => simp [find?]
    | cons o other =>
      by_cases ho : o = name
      · subst ho
        rw [find?_putEntry_self]
        exact hfiles other (fun heq => hother (congrArg _ heq)) content
      · rw [find?_putEntry_of_ne ho]
  · intro other
    cases other with
    | nil => rfl
    | cons o other =>
      by_cases ho : o = name
      · subst ho
        rw [← hdirectories other]
        exact hasDirectory_congr (find?_putEntry_self o node entries other)
      · exact hasDirectory_congr (find?_putEntry_of_ne ho node entries other)

theorem sameExcept_of_putFile? {content : String} {names : List String} {t t' : FileTree}
    (h : putFile? content names t = some t') : SameExcept names t t' := by
  fun_induction putFile? content names t generalizing t' with
  | case4 name entries hnot =>
    cases h
    -- A file was there before, or nothing; either way nothing was below it.
    have hbelow : ∀ other, other ≠ [] →
        (FileTree.directory entries).find? (name :: other) = none := by
      intro other hother
      obtain ⟨o, other, rfl⟩ := List.exists_cons_of_ne_nil hother
      match hlookup : entries.lookup name with
      | none | some (.file _) => simp [find?, hlookup]
      | some (.directory below) => exact (hnot below hlookup).elim
    have hself : (FileTree.directory entries).hasDirectory [name] = false := by
      match hlookup : entries.lookup name with
      | none | some (.file _) => simp [hasDirectory, find?, hlookup]
      | some (.directory below) => exact (hnot below hlookup).elim
    refine sameExcept_putEntry (fun other hother content' => ?_) fun other => ?_
    · obtain ⟨o, other, rfl⟩ := List.exists_cons_of_ne_nil hother
      rw [hbelow _ hother]
      rfl
    · cases other with
      | nil => exact hself.symm
      | cons o other => rw [hasDirectory, hasDirectory, hbelow _ (List.cons_ne_nil _ _)]; rfl
  | case5 name names entries _ node hlookup ih =>
    obtain ⟨node', hnode', rfl⟩ := Option.map_eq_some_iff.mp h
    have hsame := ih hnode'
    have hfind :
        ∀ other, (FileTree.directory entries).find? (name :: other) = node.find? other := by
      intro other
      rw [find?, hlookup, Option.bind_some]
    refine sameExcept_putEntry (fun other hother content => ?_) fun other => ?_
    · rw [hfind]
      exact hsame.files other hother content
    · rw [hsame.directories other]
      exact hasDirectory_congr (hfind other).symm
  | case1 | case2 | case3 | case6 => cases h

/-! ### Paths -/

/-- Where a path leads is a matter of the directories. -/
theorem follow?_congr {t t' : FileTree} (h : ∀ names, t'.hasDirectory names = t.hasDirectory names)
    (back parts : List String) : t'.follow? back parts = t.follow? back parts := by
  induction parts generalizing back with
  | nil => rfl
  | cons part parts ih => simp only [follow?, h, ih]

theorem SameExcept.locate?_eq {names : List String} {t t' : FileTree} (h : SameExcept names t t')
    (cwd : List String) (path : String) : t'.locate? cwd path = t.locate? cwd path := by
  rw [locate?, locate?, follow?_congr h.directories]

theorem read?_eq_some_iff {t : FileTree} {cwd : List String} {path content : String} :
    t.read? cwd path = some content ↔
      ∃ names, t.locate? cwd path = some names ∧ t.find? names = some (.file content) := by
  rw [← Option.bind_eq_some_iff]
  change _ ↔ t.at? cwd path = some (.file content)
  rw [read?]
  split
  · rename_i hat
    simp [hat]
  · rename_i hnot
    exact ⟨nofun, fun hat => (hnot content hat).elim⟩

/-- **What is written is read again.** -/
theorem read?_of_write? {t t' : FileTree} {cwd : List String} {path content : String}
    (h : t.write? cwd path content = some t') : t'.read? cwd path = some content := by
  obtain ⟨names, hlocate, hput⟩ := Option.bind_eq_some_iff.mp h
  refine read?_eq_some_iff.mpr ⟨names, ?_, find?_of_putFile? hput⟩
  rw [(sameExcept_of_putFile? hput).locate?_eq, hlocate]

theorem SameExcept.read?_eq {names : List String} {t t' : FileTree} (h : SameExcept names t t')
    {cwd : List String} {path : String} (hpath : t.locate? cwd path ≠ some names) :
    t'.read? cwd path = t.read? cwd path := by
  refine Option.ext fun content => ?_
  rw [read?_eq_some_iff, read?_eq_some_iff, h.locate?_eq]
  refine exists_congr fun other => and_congr_right fun hother => h.files other ?_ content
  rintro rfl
  exact hpath hother

end SectionChunks.FileTree
