import SectionChunks.CommandLine.Run
import SectionChunks.Proofs.CommandLine.FileTree

/-! # Paths below a directory

The path of a file that a walk of a directory finds is the directory's path with the file's names
behind it, and it stands for that file.

* `pathParts_append`, `pathParts_joinNames`: the parts of a path that was put together.
* `follow?_append`, `follow?_of_find?`: following them in turn.
* `at?_below`: what stands below a directory stands for itself in the whole tree. -/

namespace SectionChunks.FileTree

/-! ### The parts of a path -/

theorem splitSlashes_ne_nil (cs : List Char) : splitSlashes cs ≠ [] := by
  cases cs with
  | nil => exact List.cons_ne_nil _ _
  | cons c cs =>
    rw [splitSlashes]
    split
    · exact List.cons_ne_nil _ _
    · split <;> exact List.cons_ne_nil _ _

theorem splitSlashes_slash (cs : List Char) : splitSlashes ('/' :: cs) = [] :: splitSlashes cs := by
  obtain ⟨part, parts, hcs⟩ := List.exists_cons_of_ne_nil (splitSlashes_ne_nil cs)
  rw [splitSlashes, hcs]
  rfl

theorem splitSlashes_cons {c : Char} (h : c ≠ '/') {cs part : List Char} {parts : List (List Char)}
    (hcs : splitSlashes cs = part :: parts) : splitSlashes (c :: cs) = (c :: part) :: parts := by
  rw [splitSlashes, hcs]
  exact if_neg h

theorem splitSlashes_append (cs ds : List Char) :
    splitSlashes (cs ++ '/' :: ds) = splitSlashes cs ++ splitSlashes ds := by
  induction cs with
  | nil => exact splitSlashes_slash ds
  | cons c cs ih =>
    obtain ⟨part, parts, hcs⟩ := List.exists_cons_of_ne_nil (splitSlashes_ne_nil cs)
    rw [hcs] at ih
    by_cases hc : c = '/'
    · subst hc
      rw [List.cons_append, splitSlashes_slash, splitSlashes_slash, ih, hcs]
      rfl
    · rw [List.cons_append, splitSlashes_cons hc ih, splitSlashes_cons hc hcs]
      rfl

theorem splitSlashes_of_notMem {cs : List Char} (h : '/' ∉ cs) : splitSlashes cs = [cs] := by
  induction cs with
  | nil => rfl
  | cons c cs ih =>
    obtain ⟨hc, hcs⟩ := not_or.mp (mt List.mem_cons.mpr h)
    exact splitSlashes_cons (Ne.symm hc) (ih hcs)

theorem pathParts_append (path rest : String) :
    pathParts (path ++ "/" ++ rest) = pathParts path ++ pathParts rest := by
  have hlist : (path ++ "/" ++ rest).toList = path.toList ++ '/' :: rest.toList := by simp
  rw [pathParts, hlist, splitSlashes_append, List.map_append]
  rfl

theorem pathParts_joinNames {names : List String} (hne : names ≠ [])
    (hnames : ∀ name ∈ names, IsName name) : pathParts (joinNames names) = names := by
  have hname : ∀ name, IsName name → pathParts name = [name] := by
    intro name h
    rw [pathParts, splitSlashes_of_notMem h.slash_notMem, List.map_singleton, String.ofList_toList]
  induction names with
  | nil => exact absurd rfl hne
  | cons name rest ih =>
    obtain ⟨h, hrest⟩ := List.forall_mem_cons.mp hnames
    cases rest with
    | nil => rw [joinNames, String.intercalate_singleton, hname name h]
    | cons next rest =>
      have hjoin : joinNames (name :: next :: rest) =
          name ++ "/" ++ joinNames (next :: rest) := String.intercalate_cons_cons
      rw [hjoin, pathParts_append, hname name h, ih (List.cons_ne_nil _ _) hrest]
      rfl

/-! ### Following the parts -/

theorem follow?_append (t : FileTree) (back parts more : List String) :
    t.follow? back (parts ++ more) =
      (t.follow? back parts).bind fun names => t.follow? names.reverse more := by
  induction parts generalizing back with
  | nil => simp [follow?]
  | cons part parts ih =>
    simp only [List.cons_append, follow?]
    split
    · split
      · exact ih back
      · split
        · exact ih back.tail
        · exact ih (part :: back)
    · rfl

theorem follow?_of_find? {t d node : FileTree} {back names : List String}
    (hback : t.find? back.reverse = some d) (hfind : d.find? names = some node)
    (hnames : ∀ name ∈ names, IsName name) :
    t.follow? back names = some (back.reverse ++ names) := by
  induction names generalizing back d with
  | nil => rw [follow?, List.append_nil]
  | cons name rest ih =>
    obtain ⟨hname, hrest⟩ := List.forall_mem_cons.mp hnames
    cases d with
    | file content => cases hfind
    | directory entries =>
      obtain ⟨next, hlookup, hnext⟩ := Option.bind_eq_some_iff.mp hfind
      have hdirectory : t.hasDirectory back.reverse = true := by
        rw [hasDirectory, hback]
      have hback' : t.find? (name :: back).reverse = some next := by
        rw [List.reverse_cons, find?_append, hback, Option.bind_some, find?, hlookup,
          Option.bind_some, find?]
      have hplain : ¬ (name = "" ∨ name = ".") := not_or.mpr ⟨hname.ne_empty, hname.ne_dot⟩
      simp only [follow?, if_pos hdirectory, if_neg hplain, if_neg hname.ne_dots,
        ih hback' hnext hrest, List.reverse_cons, List.append_assoc, List.singleton_append]

theorem locate?_eq_some_iff {t : FileTree} {cwd names : List String} {path : String} :
    t.locate? cwd path = some names ↔
      path ≠ "" ∧ t.follow? (origin cwd path).reverse (pathParts path) = some names := by
  by_cases h : path = ""
  · subst h
    exact iff_of_false nofun fun hnot => hnot.1 rfl
  · simp [locate?, h]

theorem origin_append (cwd : List String) {path : String} (h : path ≠ "") (rest : String) :
    origin cwd (path ++ rest) = origin cwd path := by
  obtain ⟨c, cs, hpath⟩ := List.exists_cons_of_ne_nil (mt String.toList_eq_nil_iff.mp h)
  simp [origin, hpath]

/-- The path of something below a directory is followed by way of the directory. -/
theorem locate?_below {t : FileTree} {cwd up : List String} {path rest : String}
    (h : t.locate? cwd path = some up) :
    t.locate? cwd (CommandLine.below path rest) = t.follow? up.reverse (pathParts rest) := by
  obtain ⟨hne, hup⟩ := locate?_eq_some_iff.mp h
  have hlocate : ∀ more, t.locate? cwd (path ++ more) =
      t.follow? (origin cwd path).reverse (pathParts (path ++ more)) := by
    intro more
    have hne' : path ++ more ≠ "" := fun heq => hne (String.append_eq_empty_iff.mp heq).1
    refine Option.ext fun names => ?_
    rw [locate?_eq_some_iff, origin_append cwd hne, and_iff_right hne']
  rw [CommandLine.below]
  split
  · -- A path that ends in a slash has one part more, which leads nowhere else.
    rename_i hlast
    obtain ⟨front, hfront⟩ := List.getLast?_eq_some_iff.mp hlast
    have hslash : path = String.ofList front ++ "/" := String.toList_inj.mp (by simp [hfront])
    have hparts : pathParts path = pathParts (String.ofList front) ++ [""] := by
      have happend := pathParts_append (String.ofList front) ""
      rwa [String.append_empty, ← hslash] at happend
    rw [hparts, follow?_append] at hup
    obtain ⟨names, hnames, hlast⟩ := Option.bind_eq_some_iff.mp hup
    have hsame : names = up := by
      simp only [follow?, true_or, if_true, List.reverse_reverse] at hlast
      split at hlast
      · exact Option.some.inj hlast
      · cases hlast
    have happend :
        pathParts (path ++ rest) = pathParts (String.ofList front) ++ pathParts rest := by
      rw [hslash, pathParts_append]
    rw [hlocate, happend, follow?_append, hnames, Option.bind_some, hsame]
  · rw [String.append_assoc, hlocate, ← String.append_assoc, pathParts_append, follow?_append, hup,
      Option.bind_some]

/-- **What stands below a directory** stands under the directory's path with the names behind it. -/
theorem at?_below {t d node : FileTree} {cwd : List String} {path : String} {names : List String}
    (hpath : t.at? cwd path = some d) (hne : names ≠ []) (hfind : d.find? names = some node)
    (hnames : ∀ name ∈ names, IsName name) :
    t.at? cwd (CommandLine.below path (joinNames names)) = some node := by
  obtain ⟨up, hlocate, hup⟩ := Option.bind_eq_some_iff.mp hpath
  have hback : t.find? up.reverse.reverse = some d := by
    rw [List.reverse_reverse]
    exact hup
  rw [at?, locate?_below hlocate, pathParts_joinNames hne hnames,
    follow?_of_find? hback hfind hnames, Option.bind_some, find?_append, hback, Option.bind_some,
    hfind]

end SectionChunks.FileTree
