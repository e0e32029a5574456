import GzipStream.Command.Number
import GzipStream.Options

/-!
# Command line arguments

A command line is a subcommand with options and files. Long options take their value behind `=` or
as the next argument, short options directly, behind `=` or as the next argument, and short flags
may stand together. Behind `--` everything is a file. An option that needs a value does not take
an argument that looks like an option, unless it says so; every option but `-v` stands at most
once.
-/

namespace GzipStream.Command

inductive OptionKey
  | output
  | format
  | level
  | bufferSize
  | name
  | comment
  | mtime
  | json
  | verbose
  | help
  | version
  deriving DecidableEq, Repr, Inhabited

/-- How an option is written. -/
structure OptionSpec where
  key : OptionKey
  short : Option Char := none
  long : String
  takesValue : Bool := true
  /-- the value may look like an option -/
  anyValue : Bool := false
  deriving DecidableEq, Repr, Inhabited

def verboseSpec : OptionSpec :=
  { key := .verbose, short := some 'v', long := "verbose", takesValue := false }
def helpSpec : OptionSpec :=
  { key := .help, short := some 'h', long := "help", takesValue := false }
def versionSpec : OptionSpec :=
  { key := .version, short := some 'V', long := "version", takesValue := false }
def outputSpec : OptionSpec := { key := .output, short := some 'o', long := "output" }
def formatSpec : OptionSpec := { key := .format, short := some 'f', long := "format" }
def levelSpec : OptionSpec :=
  { key := .level, short := some 'l', long := "level", anyValue := true }
def bufferSizeSpec : OptionSpec := { key := .bufferSize, short := some 'b', long := "buffer-size" }
def nameSpec : OptionSpec := { key := .name, long := "name" }
def commentSpec : OptionSpec := { key := .comment, long := "comment" }
def mtimeSpec : OptionSpec := { key := .mtime, long := "mtime" }
def jsonSpec : OptionSpec :=
  { key := .json, short := some 'j', long := "json", takesValue := false }

inductive Verb
  | compress
  | decompress
  | header
  | completions
  deriving DecidableEq, Repr, Inhabited

namespace Verb

def ofName? (s : String) : Option Verb :=
  if s = "compress" ∨ s = "c" then some compress
  else if s = "decompress" ∨ s = "d" then some decompress
  else if s = "header" ∨ s = "i" then some header
  else if s = "completions" then some completions
  else none

def specs : Verb → List OptionSpec
  | compress =>
    [outputSpec, formatSpec, levelSpec, bufferSizeSpec, nameSpec, commentSpec, mtimeSpec,
      verboseSpec, helpSpec]
  | decompress => [outputSpec, formatSpec, bufferSizeSpec, verboseSpec, helpSpec]
  | header => [jsonSpec, verboseSpec, helpSpec]
  | completions => [verboseSpec, helpSpec]

/-- Whether the one argument without a name is needed. -/
def needsOperand : Verb → Bool
  | compress | decompress => false
  | header | completions => true

def shells : List String := ["bash", "elvish", "fish", "powershell", "zsh"]

/-- Whether an argument without a name is accepted: a shell, or a path that is not empty. -/
def acceptsOperand : Verb → String → Bool
  | completions, s => shells.contains s
  | _, s => s ≠ ""

end Verb

def formatOfName? (s : String) : Option Format :=
  if s = "gzip" then some .gzip else if s = "flate" then some .flate else none

def level? (s : String) : Option Int := (integer? s).filter fun l => -1 ≤ l ∧ l ≤ 9

def bufferSize? (s : String) : Option Nat := (natural? s).filter (· < 18446744073709551616)

def mtime? (s : String) : Option Nat :=
  ((integer? s).filter fun t => 0 ≤ t ∧ t < 4294967296).map Int.toNat

/-- Whether a value is accepted for an option. -/
def OptionKey.accepts : OptionKey → String → Bool
  | .output, s => s ≠ ""
  | .format, s => (formatOfName? s).isSome
  | .level, s => (level? s).isSome
  | .bufferSize, s => (bufferSize? s).isSome
  | .mtime, s => (mtime? s).isSome
  | _, _ => true

/-- What is known of a command line so far. -/
structure Given where
  values : List (OptionKey × String) := []
  operand : Option String := none
  deriving DecidableEq, Repr, Inhabited

def Given.value? (g : Given) (k : OptionKey) : Option String := g.values.lookup k

def Given.has (g : Given) (k : OptionKey) : Bool := (g.value? k).isSome

/-- Why reading a command line stops early. -/
inductive Stop
  | wrongUsage
  | help
  | version
  deriving DecidableEq, Repr, Inhabited

/-- Notes an option with its value. -/
def Given.add (g : Given) (k : OptionKey) (v : String) : Except Stop Given :=
  if k = .help then .error .help
  else if k = .version then .error .version
  else if k = .verbose then .ok g
  else if g.has k || !k.accepts v then .error .wrongUsage
  else .ok { g with values := (k, v) :: g.values }

def Given.addOperand (verb : Verb) (g : Given) (s : String) : Except Stop Given :=
  if g.operand.isSome || !verb.acceptsOperand s then .error .wrongUsage
  else .ok { g with operand := some s }

/-- An argument that starts with a hyphen and is more than that. -/
def looksLikeOption (s : String) : Bool :=
  match s.toList with
  | '-' :: _ :: _ => true
  | _ => false

/-- An option behind its hyphens, and what follows `=`. -/
def splitAtEquals (cs : List Char) : String × Option String :=
  match cs.span (· ≠ '=') with
  | (name, _ :: value) => (String.ofList name, some (String.ofList value))
  | (name, []) => (String.ofList name, none)

/-- What an argument that starts with a hyphen comes to. -/
inductive OptionResult
  | complete (given : Given)
  /-- the value is the next argument -/
  | awaiting (spec : OptionSpec) (given : Given)
  deriving DecidableEq, Repr, Inhabited

/-- Reads an option behind `--`. -/
def longOption (specs : List OptionSpec) (g : Given) (cs : List Char) : Except Stop OptionResult :=
  let (name, value) := splitAtEquals cs
  match specs.find? fun s => s.long == name, value with
  | none, _ => .error .wrongUsage
  | some s, some v =>
    if s.takesValue then do .ok (.complete (← g.add s.key v)) else .error .wrongUsage
  | some s, none =>
    if s.takesValue then .ok (.awaiting s g) else do .ok (.complete (← g.add s.key ""))

/-- Reads options behind a single hyphen. -/
def shortOptions (specs : List OptionSpec) (g : Given) : List Char → Except Stop OptionResult
  | [] => .ok (.complete g)
  | c :: cs =>
    match specs.find? fun s => s.short == some c with
    | none => .error .wrongUsage
    | some s =>
      if s.takesValue then
        match cs with
        | [] => .ok (.awaiting s g)
        | '=' :: v => do .ok (.complete (← g.add s.key (String.ofList v)))
        | v => do .ok (.complete (← g.add s.key (String.ofList v)))
      else
        match g.add s.key "" with
        | .error e => .error e
        | .ok g => shortOptions specs g cs

/-- Reads an argument that looks like an option. -/
def oneOption (specs : List OptionSpec) (g : Given) (arg : String) : Except Stop OptionResult :=
  match arg.toList with
  | '-' :: '-' :: cs => longOption specs g cs
  | _ :: cs => shortOptions specs g cs
  | [] => .error .wrongUsage

/-- Reads arguments without names only. -/
def operands (verb : Verb) (g : Given) : List String → Except Stop Given
  | [] => .ok g
  | s :: rest => do operands verb (← g.addOperand verb s) rest

/-- Reads the arguments behind a subcommand. -/
def verbArguments (verb : Verb) (g : Given) : List String → Except Stop Given
  | [] => .ok g
  | arg :: rest =>
    if arg = "--" then operands verb g rest
    else if looksLikeOption arg then
      match oneOption verb.specs g arg with
      | .error e => .error e
      | .ok (.complete g) => verbArguments verb g rest
      | .ok (.awaiting s g) =>
        match rest with
        | [] => .error .wrongUsage
        | v :: rest =>
          if s.anyValue || !looksLikeOption v then
            match g.add s.key v with
            | .error e => .error e
            | .ok g => verbArguments verb g rest
          else .error .wrongUsage
    else
      match g.addOperand verb arg with
      | .error e => .error e
      | .ok g => verbArguments verb g rest

/-- Arguments of `help`: a subcommand at most, and nothing below it. -/
def helpArguments : List String → Stop
  | [] => .help
  | [s] => if s = "help" ∨ (Verb.ofName? s).isSome then .help else .wrongUsage
  | _ => .wrongUsage

/-- Reads a whole command line. -/
def commandLine : List String → Except Stop (Verb × Given)
  | [] => .error .wrongUsage
  | arg :: rest =>
    if arg = "--" then .error .wrongUsage
    else if looksLikeOption arg then
      match oneOption [verboseSpec, helpSpec, versionSpec] {} arg with
      | .error e => .error e
      | .ok _ => commandLine rest
    else if arg = "help" then .error (helpArguments rest)
    else
      match Verb.ofName? arg with
      | none => .error .wrongUsage
      | some verb => do
        let g ← verbArguments verb {} rest
        if verb.needsOperand && g.operand.isNone then .error .wrongUsage else .ok (verb, g)

/-- A path that does not stand for standard input or output. -/
def filePath? (path : Option String) : Option String := path.filter (· ≠ "-")

structure CompressRequest where
  input : Option String
  output : Option String
  format : Format
  level : Option Int
  bufferSize : Option Nat
  name : Option String
  comment : Option String
  mtime : Option Nat
  deriving DecidableEq, Repr, Inhabited

structure DecompressRequest where
  input : Option String
  output : Option String
  format : Format
  bufferSize : Option Nat
  deriving DecidableEq, Repr, Inhabited

/-- What a command line asks for. -/
inductive Request
  | compress (request : CompressRequest)
  | decompress (request : DecompressRequest)
  | header (path : String) (json : Bool)
  | completions (shell : String)
  deriving DecidableEq, Repr, Inhabited

def Request.ofGiven (verb : Verb) (g : Given) : Request :=
  let format := ((g.value? .format).bind formatOfName?).getD .gzip
  let bufferSize := (g.value? .bufferSize).bind bufferSize?
  match verb with
  | .compress =>
    .compress {
      input := filePath? g.operand
      output := filePath? (g.value? .output)
      format := format
      level := (g.value? .level).bind level?
      bufferSize := bufferSize
      name := g.value? .name
      comment := g.value? .comment
      mtime := (g.value? .mtime).bind mtime? }
  | .decompress =>
    .decompress {
      input := filePath? g.operand
      output := filePath? (g.value? .output)
      format := format
      bufferSize := bufferSize }
  | .header => .header (g.operand.getD "") (g.has .json)
  | .completions => .completions (g.operand.getD "")

def parseArguments (args : List String) : Except Stop Request := do
  let (verb, g) ← commandLine args
  .ok (.ofGiven verb g)

end GzipStream.Command
