import SectionChunks.Text.Order

/-! # File trees

A file tree is what a program sees of a file system: files with their texts, and directories with
named entries. A path is a text with `/` between names. It is followed from the root if it begins
with a slash, and from the working directory otherwise. The working directory is given by the names
that lead to it from the root.

* `locate?`: the names on the way from the root to what a path stands for; `.`, `..` and repeated
  slashes are resolved, and the root is the directory above itself.
* `read?`, `write?`: reading a file, and creating or replacing one.
* `files`: all files below a directory, each directory's entries in the order of their names. -/

namespace SectionChunks

/-- A file with its text, if it holds one that can be read, or a directory with its entries. -/
inductive FileTree where
  | file (content : Option String)
  | directory (entries : List (String × FileTree))

namespace FileTree

/-- The directory without entries. -/
def empty : FileTree := .directory []

/-! ### Paths -/

/-- The parts of a path between its slashes. -/
def splitSlashes : List Char → List (List Char)
  | [] => [[]]
  | c :: cs =>
    match splitSlashes cs with
    | [] => [[c]]
    | part :: parts => if c = '/' then [] :: part :: parts else (c :: part) :: parts

/-- The parts of a path, as texts. -/
def pathParts (path : String) : List String := (splitSlashes path.toList).map String.ofList

/-- What stands under a row of names. -/
def find? : FileTree → List String → Option FileTree
  | t, [] => some t
  | .directory entries, name :: names => (entries.lookup name).bind (·.find? names)
  | .file _, _ :: _ => none

/-- Whether a row of names leads to a directory. -/
def hasDirectory (t : FileTree) (names : List String) : Bool :=
  match t.find? names with
  | some (.directory _) => true
  | _ => false

/-- Follows the parts of a path from the directory that lies under the names `back`, the last first.
Every part must be taken from a directory, so a path that ends in a slash stands for a directory. -/
def follow? (t : FileTree) (back : List String) : List String → Option (List String)
  | [] => some back.reverse
  | part :: parts =>
    if t.hasDirectory back.reverse then
      if part = "" ∨ part = "." then t.follow? back parts
      else if part = ".." then t.follow? back.tail parts
      else t.follow? (part :: back) parts
    else none

/-- The directory that a path is followed from. -/
def origin (cwd : List String) (path : String) : List String :=
  if path.toList.head? = some '/' then [] else cwd

/-- The names that lead to what a path stands for, whether or not something is there. -/
def locate? (t : FileTree) (cwd : List String) (path : String) : Option (List String) :=
  if path.isEmpty then none else t.follow? (origin cwd path).reverse (pathParts path)

/-- What a path stands for. -/
def at? (t : FileTree) (cwd : List String) (path : String) : Option FileTree :=
  (t.locate? cwd path).bind t.find?

/-! ### Reading and writing -/

/-- The text of the file that a path stands for. -/
def read? (t : FileTree) (cwd : List String) (path : String) : Option String :=
  match t.at? cwd path with
  | some (.file content) => content
  | _ => none

/-- Puts something under a name among entries, in place of what is there. -/
def putEntry (name : String) (node : FileTree) :
    List (String × FileTree) → List (String × FileTree)
  | [] => [(name, node)]
  | e :: rest => if e.1 = name then (name, node) :: rest else e :: putEntry name node rest

/-- Puts a file under a row of names. The directories must be there, and no directory is
replaced. -/
def putFile? (content : String) : List String → FileTree → Option FileTree
  | [], _ => none
  | _, .file _ => none
  | [name], .directory entries =>
    match entries.lookup name with
    | some (.directory _) => none
    | _ => some (.directory (putEntry name (.file content) entries))
  | name :: names, .directory entries =>
    match entries.lookup name with
    | some node => (putFile? content names node).map fun node =>
        .directory (putEntry name node entries)
    | none => none

/-- Writes a file: the tree after it. -/
def write? (t : FileTree) (cwd : List String) (path content : String) : Option FileTree :=
  (t.locate? cwd path).bind fun names => putFile? content names t

/-! ### Walking -/

/-- Puts an entry where it belongs by name. -/
def insertByName {α : Type} (e : String × α) : List (String × α) → List (String × α)
  | [] => [e]
  | f :: rest => if Text.Precedes f.1 e.1 then f :: insertByName e rest else e :: f :: rest

/-- Entries in the order of their names. -/
def sortByName {α : Type} (entries : List (String × α)) : List (String × α) :=
  entries.foldr insertByName []

/-- A file below a directory: the names that lead to it, and its text, if it can be read. -/
abbrev Found := List String × Option String

mutual

/-- The files in and below an entry. -/
def filesOfEntry (name : String) : FileTree → List Found
  | .file content => [([name], content)]
  | .directory entries =>
    (sortByName (filesByEntry entries)).flatMap fun e => e.2.map fun f => (name :: f.1, f.2)

/-- The files in and below each entry. -/
def filesByEntry : List (String × FileTree) → List (String × List Found)
  | [] => []
  | (name, node) :: rest => (name, filesOfEntry name node) :: filesByEntry rest

end

/-- All files below a directory, entry by entry in the order of names. -/
def files : FileTree → List Found
  | .file _ => []
  | .directory entries => (sortByName (filesByEntry entries)).flatMap (·.2)

/-- The path that a row of names makes. -/
def joinNames (names : List String) : String := "/".intercalate names

/-- The files of a tree that another tree does not have with the same text. -/
def changes (before after : FileTree) : List (List String × String) :=
  after.files.filterMap fun f =>
    match before.find? f.1 with
    | some (.file content) => if content = f.2 then none else f.2.map (f.1, ·)
    | _ => f.2.map (f.1, ·)

/-! ### Building -/

/-- Puts a node under a row of names, making the directories on the way. -/
def insert (node : FileTree) : List String → FileTree → FileTree
  | [], _ => node
  | name :: names, .directory entries =>
    .directory (putEntry name (insert node names ((entries.lookup name).getD empty)) entries)
  | name :: names, .file _ => .directory [(name, insert node names empty)]

/-- The tree of files given by their paths; a path that ends in a slash gives a directory. -/
def ofFiles (files : List (String × String)) : FileTree :=
  files.foldl (fun t f =>
    let names := pathParts f.1
    if names.getLast? = some "" then
      if (t.find? names.dropLast).isSome then t else insert empty names.dropLast t
    else insert (.file f.2) names t) empty

end FileTree

end SectionChunks
