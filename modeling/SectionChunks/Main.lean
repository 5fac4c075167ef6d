import SectionChunks.CommandLine.Run

/-! # The program

The outer layer of the program. It gives a run the files of the system (`systemFiles`), and tells
how the run ended. What happens in between is `runOn`, as in a file tree. -/

namespace SectionChunks.CommandLine

/-- What the program says about its use. -/
def helpText : String :=
  "Usage: element-chunker [OPTIONS] <INPUT>\n\n" ++
  "Chunk partitioned document elements at section boundaries\n\n" ++
  "INPUT is an elements file in JSON, or a directory searched for such files.\n\n" ++
  "  -o, --output <PATH>                    write chunks here instead of stdout\n" ++
  "  -c, --config <PATH>                    JSON file with chunking options\n" ++
  "      --max-characters <N>               hard maximum on chunk text length\n" ++
  "      --new-after-n-chars <N>            close a chunk once its text is this long\n" ++
  "      --combine-text-under-n-chars <N>   combine sections shorter than this\n" ++
  "      --multipage-sections <true|false>  let sections continue across pages\n" ++
  "      --pretty                           spread the output over lines\n" ++
  "  -h, --help                             print this text\n" ++
  "  -V, --version                          print the version\n"

/-- What the program says about a faulty command line. -/
def usageText : String := "error: the arguments are not as they should be; see --help"

/-- The text of a file, if there is one that can be read. -/
def loadText? (path : String) : IO (Option String) := do
  try return some (← IO.FS.readFile path)
  catch _ => return none

/-- Loads a file, or a directory with what is below it. Links are passed over, and of the files only
those are read that may be chunked. -/
partial def load (entry : IO.FS.DirEntry) : IO (Option (String × FileTree)) := do
  match (← entry.path.symlinkMetadata).type with
  | .dir =>
    let entries ← (← entry.path.readDir).toList.filterMapM load
    return some (entry.fileName, .directory entries)
  | .file =>
    if isElementsName entry.fileName then
      return some (entry.fileName, .file (← loadText? entry.path.toString))
    else return none
  | _ => return none

/-- Loads what an input path names. A directory that cannot be listed ends the program. -/
def loadSource (path : String) : IO Source := do
  let place? ← try pure (some (← IO.FS.realPath path)) catch _ => pure none
  match place? with
  | none => return .file none
  | some place =>
    if ← place.isDir then
      let entries ← (← place.readDir).toList.filterMapM load
      return .directory (FileTree.directory entries).files
    else return .file (← loadText? path)

/-- The files of the system that the program runs on. -/
def systemFiles : Files IO where
  read? := loadText?
  source := loadSource
  write path text := do
    try
      IO.FS.writeFile path text
      return true
    catch _ => return false

/-- Tells how a run ended. -/
def tell : Outcome → IO Unit
  | .usage => IO.eprintln usageText
  | .help => IO.print helpText
  | .version => IO.print versionText
  | .failed f => do
    IO.eprintln ("Error: " ++ f.message)
    if let some cause := f.cause? then IO.eprintln ("\nCaused by:\n    " ++ cause)
  | .done stdout => IO.print stdout

end SectionChunks.CommandLine

open SectionChunks.CommandLine in
/-- Runs the program. -/
def main (arguments : List String) : IO UInt32 := do
  let outcome ← runOn systemFiles arguments
  tell outcome
  return UInt32.ofNat outcome.exitCode
