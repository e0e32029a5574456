import GzipStream.Bytes
import GzipStream.IoFailure

/-!
# What a command needs of the system

Files are named by paths; a file that is being read and one that is being written may be the same.
-/

namespace GzipStream.Command

class Host (m : Type → Type) where
  /-- opens a file or directory for reading -/
  openFile : String → m (Except IoFailure Unit)
  /-- makes an empty file, or empties the one there -/
  createFile : String → m (Except IoFailure Unit)
  /-- seconds since 1970 when a file was last changed -/
  modified : String → m (Option Int)
  /-- all bytes of a file that was opened -/
  contents : String → m (Except IoFailure Bytes)
  /-- appends to a file that was created -/
  append : String → Bytes → m Unit
  standardInput : m Bytes
  /-- writes to standard output -/
  print : Bytes → m Unit
  /-- writes a line of error output -/
  complain : String → m Unit

end GzipStream.Command
