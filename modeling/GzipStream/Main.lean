import GzipStream.Command.Run

/-!
# The command line program

Runs a command against the files, standard input and standard output of the process.
-/

namespace GzipStream.Command

/-- An operating system's failure, by its number where it has one. -/
def ioFailureOf (e : IO.Error) : IoFailure :=
  match e with
  | .noFileOrDirectory _ code _ | .permissionDenied _ code _ | .inappropriateType _ code _
  | .resourceExhausted _ code _ | .alreadyExists _ code _ | .invalidArgument _ code _ =>
    .os code.toNat
  | .otherError code _ | .resourceBusy code _ | .resourceVanished code _ | .hardwareFault code _ =>
    .os code.toNat
  | e => .described .other (toString e)

/-- The answer of an action, or its failure. -/
def attempted {α : Type} (action : IO α) : IO (Except IoFailure α) := do
  try
    return .ok (← action)
  catch e => return .error (ioFailureOf e)

instance : Host IO where
  openFile path := attempted do
    let _ ← IO.FS.Handle.mk path .read
  createFile path := attempted do
    let _ ← IO.FS.Handle.mk path .write
  modified path := do
    match ← attempted (IO.FS.DirEntry.mk ⟨"."⟩ path).path.metadata with
    | .ok data => return some data.modified.sec
    | .error _ => return none
  contents path := attempted do
    return (← IO.FS.readBinFile path).data.toList
  append path bs := do
    let h ← IO.FS.Handle.mk path .append
    h.write ⟨bs.toArray⟩
  standardInput := do
    return (← (← IO.getStdin).readBinToEnd).data.toList
  print bs := do
    let out ← IO.getStdout
    out.write ⟨bs.toArray⟩
    out.flush
  complain line := IO.eprintln line

end GzipStream.Command

def main (args : List String) : IO UInt32 := do
  return UInt32.ofNat (← GzipStream.Command.run args)
