import SectionChunks.CommandLine.Arguments
import SectionChunks.CommandLine.FileTree
import SectionChunks.Options.Json
import SectionChunks.Chunk.Json
import SectionChunks.Json.Print

/-! # A run of the program

A run reads its options, then its input, and last writes its output. The input is a file with
elements, or a directory, of which every file whose name ends in `.json` is chunked on its own. A
run that fails writes nothing. What a run does is said once, for any files that it may be given:
those of a tree, and those of the system that the program runs on.

* `Arguments.resolve`: the options, from the configuration file and the command line.
* `Arguments.text`: the text to be put out.
* `Files`: what a run asks of the files around it.
* `Arguments.runOn`, `runOn`: what a run does with them.
* `run`: the outcome of a command line in a file tree, and the tree after it. -/

namespace SectionChunks.CommandLine

/-! ### Failures -/

/-- Why a run failed. -/
inductive Failure where
  | readConfig (path : String)
  | parseConfig (path : String)
  | options (e : InvalidLimit)
  | read (path : String)
  | parse (path : String)
  | write (path : String)
  deriving DecidableEq

/-- What is told about a failure. -/
def Failure.message : Failure → String
  | readConfig path => "failed to read config " ++ path
  | parseConfig path => "invalid config " ++ path
  | options _ => "invalid chunking options"
  | read path => "failed to read " ++ path
  | parse path => "failed to parse elements from " ++ path
  | write path => "failed to write " ++ path

/-- What is told about the cause of a failure, where it has one of its own. -/
def Failure.cause? : Failure → Option String
  | options e => some e.message
  | _ => none

/-! ### Options -/

/-- The options of a run. `config` is the content of the configuration file, if one is named and can
be read. What the command line sets takes the place of what the file sets. -/
def Arguments.resolve (a : Arguments) (config : Option String) : Except Failure Options := do
  let base ← match a.config, config with
    | none, _ => pure OptionLayer.empty
    | some path, none => throw (.readConfig path)
    | some path, some text =>
      match OptionLayer.parse? text with
      | some layer => pure layer
      | none => throw (.parseConfig path)
  match (base.merge a.options).resolve with
  | .ok options => return options
  | .error e => throw (.options e)

/-! ### Input and output -/

/-- What the input names: a file with its text, if there is one that can be read, or a directory
with the files below it. -/
inductive Source where
  | file (content : Option String)
  | directory (files : List FileTree.Found)

/-- Why there are no elements in a file with this text. -/
def unreadable (path : String) : Option String → Failure
  | none => .read path
  | some _ => .parse path

/-- The chunks of a file's elements. -/
def chunkFile (options : Options) (path : String) (content : Option String) :
    Except Failure (List Chunk) :=
  match content.bind Element.parseList? with
  | some elements => .ok (chunkByTitle options elements)
  | none => .error (unreadable path content)

/-- The ending of the files that a directory is searched for. -/
def elementsEnding : List Char := ['.', 'j', 's', 'o', 'n']

/-- Whether a file of this name is chunked. The ending alone is no such name. -/
def isElementsName (name : String) : Bool :=
  elementsEnding.isSuffixOf name.toList && decide (elementsEnding.length < name.toList.length)

/-- A path with a relative path below it. -/
def below (path : String) (relative : String) : String :=
  if path.toList.getLast? = some '/' then path ++ relative else path ++ "/" ++ relative

/-- The key of a file in the output: its relative path, every backslash turned into a slash. -/
def outputKey (names : List String) : String :=
  String.ofList ((FileTree.joinNames names).toList.map fun c => if c = '\\' then '/' else c)

/-- The files of a directory that are chunked. -/
def elementFiles (files : List FileTree.Found) : List FileTree.Found :=
  files.filter fun f => (f.1.getLast?.map isElementsName).getD false

/-- The chunks of a directory's files, by key. Of files with one key the last one counts. -/
def chunkFiles (options : Options) (input : String) (done : Dictionary (List Chunk)) :
    List FileTree.Found → Except Failure (Dictionary (List Chunk))
  | [] => .ok done
  | f :: rest =>
    match chunkFile options (below input (FileTree.joinNames f.1)) f.2 with
    | .ok chunks => chunkFiles options input (done.insert (outputKey f.1) chunks) rest
    | .error e => .error e

/-- The document that a run puts out. -/
def document (options : Options) (input : String) : Source → Except Failure Json
  | .file content => (chunkFile options input content).map Chunk.listToJson
  | .directory files =>
    (chunkFiles options input Dictionary.empty (elementFiles files)).map
      (Json.ofDictionary Chunk.listToJson)

/-- The text that a run puts out. -/
def Arguments.text (a : Arguments) (options : Options) (source : Source) : Except Failure String :=
  (document options a.input source).map (Json.render (if a.pretty then .spread else .compact))

/-! ### Runs -/

/-- How a run ends. -/
inductive Outcome where
  | usage
  | help
  | version
  | failed (f : Failure)
  | done (stdout : String)
  deriving DecidableEq

/-- The exit code of a run. -/
def Outcome.exitCode : Outcome → Nat
  | usage => 2
  | failed _ => 1
  | help | version | done _ => 0

/-- What the program says about its version. -/
def versionText : String := "element-chunker 0.1.0\n"

/-- What a run asks of the files around it: the text of a file, what an input path names, and to
write a file, which says whether it could be written. -/
structure Files (m : Type → Type) where
  read? : String → m (Option String)
  source : String → m Source
  write : String → String → m Bool

section Step

variable {m : Type → Type} [Monad m] (files : Files m)

/-- The text of the configuration file, if one is named and can be read. -/
def Arguments.configText? (a : Arguments) : m (Option String) :=
  match a.config with
  | some path => files.read? path
  | none => pure none

/-- Puts a text out as asked: it is printed, or written to the output file. -/
def Arguments.putOut (a : Arguments) (text : String) : m Outcome :=
  match a.output with
  | none => pure (.done (text ++ "\n"))
  | some path => do
    if ← files.write path text then return .done ""
    else return .failed (.write path)

/-- Chunks as asked: how the run ends. -/
def Arguments.runOn (a : Arguments) : m Outcome := do
  match a.resolve (← a.configText? files) with
  | .error f => return .failed f
  | .ok options =>
    match a.text options (← files.source a.input) with
    | .error f => return .failed f
    | .ok text => a.putOut files text

/-- **What the program does** with a command line. -/
def runOn (arguments : List String) : m Outcome :=
  match Request.parse? arguments with
  | none => pure .usage
  | some .help => pure .help
  | some .version => pure .version
  | some (.chunk a) => a.runOn files

end Step

/-! ### Runs in a file tree -/

/-- What an input path names in a file tree. -/
def sourceAt (t : FileTree) (cwd : List String) (path : String) : Source :=
  match t.at? cwd path with
  | none => .file none
  | some (.file content) => .file content
  | some (.directory entries) => .directory (FileTree.directory entries).files

/-- The files of a tree. -/
def filesAt (cwd : List String) : Files (StateM FileTree) where
  read? path t := (t.read? cwd path, t)
  source path t := (sourceAt t cwd path, t)
  write path text t :=
    match t.write? cwd path text with
    | some t' => (true, t')
    | none => (false, t)

/-- Chunks as asked: how the run ends, and the files after it. -/
def Arguments.run (a : Arguments) (t : FileTree) (cwd : List String) : Outcome × FileTree :=
  a.runOn (filesAt cwd) t

/-- **A run**: how a command line ends in a file tree, and the files after it. The program runs in
the root unless another working directory is given. -/
def run (arguments : List String) (t : FileTree) (cwd : List String := []) : Outcome × FileTree :=
  runOn (filesAt cwd) arguments t

end SectionChunks.CommandLine
