import SectionChunks.Options.Basic

/-! # Command-line arguments

A command line names one input and may set an output file, a configuration file, the chunking
options and the layout of the output. No option may be given twice.

* `Arguments`: what a complete command line asks for.
* `Request.parse?`: reads a command line; a faulty one asks for nothing. Arguments are taken from
  left to right, so a request for help or for the version is answered unless a fault stands before
  it. -/

namespace SectionChunks.CommandLine

/-- What a command line asks to be chunked, and how. -/
structure Arguments where
  input : String
  output : Option String
  config : Option String
  options : OptionLayer
  pretty : Bool
  deriving DecidableEq

/-- What a command line asks for. -/
inductive Request where
  | chunk (arguments : Arguments)
  | help
  | version
  deriving DecidableEq

/-! ### Values -/

/-- The value of a row of decimal digits. -/
def digits? (cs : List Char) : Option Nat :=
  cs.foldl (fun n c => n.bind fun n => (Number.Digit.ofChar? c).map fun d => 10 * n + d.val)
    (some 0)

/-- A signed integer of 64 bits: decimal digits, perhaps with a sign before them. -/
def integer? (value : String) : Option Int :=
  let unsigned (negative : Bool) (cs : List Char) : Option Int :=
    if cs.isEmpty then none
    else (digits? cs).bind fun n =>
      let i : Int := if negative then -(n : Int) else n
      if Number.isInteger64 i then some i else none
  match value.toList with
  | '-' :: cs => unsigned true cs
  | '+' :: cs => unsigned false cs
  | cs => unsigned false cs

/-- A truth value. -/
def bool? (value : String) : Option Bool :=
  if value = "true" then some true else if value = "false" then some false else none

/-- A path, which must not be empty. -/
def path? (value : String) : Option String := if value.isEmpty then none else some value

/-! ### Options -/

/-- An option that takes a value. -/
inductive Setting where
  | output
  | config
  | limit (l : Limit)
  | multipageSections
  deriving DecidableEq

/-- An option. -/
inductive Flag where
  | setting (s : Setting)
  | pretty
  | help
  | version
  deriving DecidableEq

/-- The option of a long name. -/
def Flag.ofName? (name : String) : Option Flag :=
  if name = "output" then some (.setting .output)
  else if name = "config" then some (.setting .config)
  else if name = "max-characters" then some (.setting (.limit .maxCharacters))
  else if name = "new-after-n-chars" then some (.setting (.limit .newAfter))
  else if name = "combine-text-under-n-chars" then some (.setting (.limit .combineUnder))
  else if name = "multipage-sections" then some (.setting .multipageSections)
  else if name = "pretty" then some .pretty
  else if name = "help" then some .help
  else if name = "version" then some .version
  else none

/-- The option of a letter. -/
def Flag.ofLetter? (c : Char) : Option Flag :=
  if c = 'o' then some (.setting .output)
  else if c = 'c' then some (.setting .config)
  else if c = 'h' then some .help
  else if c = 'V' then some .version
  else none

/-- Whether the next argument can be the value of a setting. Only a limit takes a value with a minus
sign from there. -/
def Setting.takes (s : Setting) (value : String) : Bool :=
  match value.toList with
  | '-' :: _ :: _ =>
    match s with
    | .limit _ => (integer? value).isSome
    | _ => false
  | _ => true

/-! ### Reading -/

/-- What has been read of a command line. -/
structure Draft where
  input : Option String := none
  output : Option String := none
  config : Option String := none
  options : OptionLayer := {}
  pretty : Bool := false

/-- Fills a place that is still free. -/
def fill {α : Type} (place value : Option α) : Option (Option α) :=
  match place, value with
  | none, some v => some (some v)
  | _, _ => none

namespace Draft

/-- Takes the value of a setting. -/
def set (d : Draft) (s : Setting) (value : String) : Option Draft :=
  match s with
  | .output => (fill d.output (path? value)).map fun v => { d with output := v }
  | .config => (fill d.config (path? value)).map fun v => { d with config := v }
  | .limit .maxCharacters => (fill d.options.maxCharacters (integer? value)).map fun v =>
      { d with options := { d.options with maxCharacters := v } }
  | .limit .newAfter => (fill d.options.newAfter (integer? value)).map fun v =>
      { d with options := { d.options with newAfter := v } }
  | .limit .combineUnder => (fill d.options.combineUnder (integer? value)).map fun v =>
      { d with options := { d.options with combineUnder := v } }
  | .multipageSections => (fill d.options.multipageSections (bool? value)).map fun v =>
      { d with options := { d.options with multipageSections := v } }

/-- Takes the input. -/
def setInput (d : Draft) (value : String) : Option Draft :=
  (fill d.input (path? value)).map fun v => { d with input := v }

/-- Takes the request for a layout. -/
def setPretty (d : Draft) : Option Draft :=
  if d.pretty then none else some { d with pretty := true }

/-- The request of a command line that ends here. -/
def finish (d : Draft) : Option Request :=
  d.input.map fun input => .chunk ⟨input, d.output, d.config, d.options, d.pretty⟩

end Draft

/-- An argument by its form. -/
inductive Form where
  /-- An input. -/
  | plain
  /-- Two dashes, after which all arguments are inputs. -/
  | dashes
  /-- An option, with the value that is attached to it. -/
  | flag (f : Flag) (attached : Option String)
  /-- An option that there is not. -/
  | unknown

/-- A text up to its first equals sign, and what follows the sign. -/
def splitEquals : List Char → List Char × Option (List Char)
  | [] => ([], none)
  | c :: cs =>
    if c = '=' then ([], some cs)
    else
      let (name, value) := splitEquals cs
      (c :: name, value)

/-- The form of an argument. -/
def Form.of (argument : String) : Form :=
  match argument.toList with
  | ['-', '-'] => .dashes
  | '-' :: '-' :: cs =>
    let (name, value) := splitEquals cs
    match Flag.ofName? (String.ofList name) with
    | some f => .flag f (value.map String.ofList)
    | none => .unknown
  | '-' :: c :: cs =>
    match Flag.ofLetter? c with
    | some (.setting s) =>
      .flag (.setting s) (match cs with
        | [] => none
        | '=' :: value => some (String.ofList value)
        | value => some (String.ofList value))
    | some f => .flag f none
    | none => .unknown
  | _ => .plain

/-- Reads arguments that can only be inputs. -/
def parseInputs (d : Draft) : List String → Option Request
  | [] => d.finish
  | argument :: rest => (d.setInput argument).bind fun d => parseInputs d rest

/-- Reads arguments from left to right. -/
def parseFrom (d : Draft) : List String → Option Request
  | [] => d.finish
  | argument :: rest =>
    match Form.of argument with
    | .plain => (d.setInput argument).bind fun d => parseFrom d rest
    | .dashes => parseInputs d rest
    | .unknown => none
    | .flag .pretty none => d.setPretty.bind fun d => parseFrom d rest
    | .flag .help none => some .help
    | .flag .version none => some .version
    | .flag (.setting s) (some value) => (d.set s value).bind fun d => parseFrom d rest
    | .flag (.setting s) none =>
      match rest with
      | [] => none
      | value :: rest =>
        if s.takes value then (d.set s value).bind fun d => parseFrom d rest else none
    | .flag _ (some _) => none

/-- Reads a command line. -/
def Request.parse? (arguments : List String) : Option Request := parseFrom {} arguments

end SectionChunks.CommandLine
