import GzipStream.Command.Host
import GzipStream.Command.Pipeline

/-!
# Running a command

Input is opened before output is created, and both before any byte is read. Exit codes: 0 for
success, 1 for a failure, 2 for a command line that is not understood.
-/

namespace GzipStream.Command

variable {m : Type → Type} [Monad m] [Host m]

/-- The bytes of a file, or the failure to read it. -/
def fileSource (path : String) : m Source := do
  match ← Host.contents path with
  | .ok bs => return [.data bs]
  | .error f => return [.failure f]

/-- The bytes of a file, or of standard input for reads of `capacity` bytes. -/
def readSource (capacity : Nat) : (path : Option String) → m Source
  | some p => fileSource p
  | none => do return .buffered capacity (← Host.standardInput)

/-- Writes to a file, or to standard output. -/
def emitOutput (path : Option String) (bs : Bytes) : m Unit :=
  match path with
  | some p => Host.append p bs
  | none => Host.print bs

def openInput (path : Option String) : m (Except IoFailure Unit) :=
  match path with
  | some p => Host.openFile p
  | none => pure (.ok ())

def openOutput (path : Option String) : m (Except IoFailure Unit) :=
  match path with
  | some p => Host.createFile p
  | none => pure (.ok ())

/-- Opens input and output, then puts one, in reads of `capacity` bytes, through `work` into the
other. -/
def throughFiles (capacity : Nat) (input output : Option String)
    (work : Source → m (Bytes × Option Failure)) : m (Option Failure) := do
  match ← openInput input with
  | .error f => return some (.io f)
  | .ok () =>
    match ← openOutput output with
    | .error f => return some (.io f)
    | .ok () =>
      let (bs, failure) ← work (← readSource capacity input)
      emitOutput output bs
      return failure

def runCompress (r : CompressRequest) : m (Option Failure) := do
  if !r.isConsistent then return some .headerNeedsGzip
  else
    throughFiles copySize r.input r.output fun source => do
      let modified ← match r.input with
        | some p => Host.modified p
        | none => pure none
      let header := if r.format = .gzip then some (r.header modified) else none
      return compressSource r.options header source

def runDecompress (r : DecompressRequest) : m (Option Failure) :=
  throughFiles r.options.effectiveBufferSize r.input r.output fun source =>
    pure (decompressSource r.options source)

def runHeader (path : String) (json : Bool) : m (Option Failure) := do
  match ← openInput (some path) with
  | .error f => return some (.io f)
  | .ok () =>
    match inspectSource path (← fileSource path) with
    | .error f => return some f
    | .ok report =>
      Host.print (utf8Bytes (if json then report.json else report.text))
      return none

def runRequest : Request → m (Option Failure)
  | .compress r => runCompress r
  | .decompress r => runDecompress r
  | .header path json => runHeader path json
  | .completions _ => pure none

def versionText : String := "oxiflate 0.2.1\n"

def usageText : String :=
  "Usage: oxiflate [-v] compress|decompress|header|completions [OPTIONS] [FILE]\n"

/-- Runs a command line; the answer is the exit code. -/
def run (args : List String) : m Nat := do
  match parseArguments args with
  | .error .version =>
    Host.print (utf8Bytes versionText)
    return 0
  | .error .help =>
    Host.print (utf8Bytes usageText)
    return 0
  | .error .wrongUsage =>
    Host.complain "error: wrong usage"
    return 2
  | .ok request =>
    match ← runRequest request with
    | none => return 0
    | some f =>
      Host.complain ("Error: " ++ f.message)
      return 1

end GzipStream.Command
