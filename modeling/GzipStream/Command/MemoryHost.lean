import GzipStream.Command.Host
import GzipStream.Command.Path

/-!
# A system in memory

Files below a working directory, standard input and what was printed. A directory is there when a
file is below it; the working directory, those above it, the root and its usual directories always
are. Paths are followed name by name, so that a missing directory, a file in place of one and an
overlong name are told apart.
-/

namespace GzipStream.Command

structure StoredFile where
  data : Bytes
  modified : Int := 0
  deriving DecidableEq, Repr, Inhabited

structure MemoryHost where
  /-- files by the names on the way to them -/
  files : List (List String × StoredFile) := []
  input : Bytes := []
  printed : Array UInt8 := #[]
  complaints : List String := []
  deriving DecidableEq, Repr, Inhabited

/-- A file that stands for something else. -/
inductive Device
  | null
  | input
  | output
  deriving DecidableEq, Repr, Inhabited

namespace MemoryHost

def noEntry : IoFailure := .os 2
def notADirectory : IoFailure := .os 20
def isADirectory : IoFailure := .os 21
def nameTooLong : IoFailure := .os 36

/-- Most bytes of a name and of a path. -/
def maxName : Nat := 255
def maxPath : Nat := 4095

/-- A place is the names that lead to it from the working directory, two dots for each step up. A
place below the root starts with a slash. -/
def rootPlace : List String := ["/"]

def rootDirectories : List String :=
  ["bin", "boot", "dev", "etc", "home", "lib", "media", "mnt", "opt", "proc", "root", "run",
   "sbin", "srv", "sys", "tmp", "usr", "var"]

def device? (place : List String) : Option Device :=
  if place = ["/", "dev", "null"] then some .null
  else if place = ["/", "dev", "stdin"] then some .input
  else if place = ["/", "dev", "stdout"] then some .output
  else none

def file? (s : MemoryHost) (place : List String) : Option StoredFile := s.files.lookup place

/-- Whether something other than a directory is there. -/
def isFile (s : MemoryHost) (place : List String) : Bool :=
  (device? place).isSome || (s.file? place).isSome

def isUsualDirectory (place : List String) : Bool :=
  match place with
  | ["/"] => true
  | ["/", name] => rootDirectories.contains name
  | names => names.all (· = "..")

def isDirectory (s : MemoryHost) (place : List String) : Bool :=
  isUsualDirectory place || s.files.any fun (path, _) => place.isPrefixOf path && place != path

/-- The directory above a place. There is none above the root. -/
def above (place : List String) : List String :=
  if place = rootPlace then place
  else
    match place.getLast? with
    | some name => if name = ".." then place ++ [".."] else place.dropLast
    | none => [".."]

/-- Goes from one place to the next name. -/
def enter (s : MemoryHost) (place : List String) (name : String) :
    Except IoFailure (List String) :=
  if s.isFile place then .error notADirectory
  else if !s.isDirectory place then .error noEntry
  else if Path.isIdle name then .ok place
  else if name = ".." then .ok (above place)
  else if maxName < name.utf8ByteSize then .error nameTooLong
  else .ok (place ++ [name])

/-- The place that names of a path lead to. The last one need not be there. -/
def walk (s : MemoryHost) (path : String) (names : List String) :
    Except IoFailure (List String) :=
  if maxPath < path.utf8ByteSize then .error nameTooLong
  else names.foldlM s.enter (if Path.isRooted path then rootPlace else [])

def resolve (s : MemoryHost) (path : String) : Except IoFailure (List String) :=
  s.walk path (Path.names path)

def openFile (s : MemoryHost) (path : String) : Except IoFailure Unit := do
  let place ← s.resolve path
  if s.isFile place || s.isDirectory place then .ok () else .error noEntry

/-- Puts a file in place of one that may be there. -/
def store (s : MemoryHost) (place : List String) (f : StoredFile) : MemoryHost :=
  { s with files := (place, f) :: s.files.filter fun (path, _) => path != place }

/-- Makes a file. A name behind which a slash stands is refused before it is looked up. -/
def createFile (s : MemoryHost) (path : String) : Except IoFailure MemoryHost := do
  let names := Path.trimmedNames path
  let last := names.getLast?.getD ""
  let directory ← s.walk path names.dropLast
  let directory ← s.enter directory "."
  if Path.endsInSlash path then .error isADirectory
  else
    let place ← s.enter directory last
    if (device? place).isSome then .ok s
    else if s.isDirectory place then .error isADirectory
    else .ok (s.store place { data := [] })

def contents (s : MemoryHost) (path : String) : Except IoFailure Bytes := do
  let place ← s.resolve path
  match device? place with
  | some .input => .ok s.input
  | some _ => .ok []
  | none =>
    match s.file? place with
    | some f => .ok f.data
    | none => if s.isDirectory place then .error isADirectory else .error noEntry

def modified (s : MemoryHost) (path : String) : Option Int :=
  match s.resolve path with
  | .ok place => (s.file? place).map StoredFile.modified
  | .error _ => none

def print (s : MemoryHost) (bs : Bytes) : MemoryHost := { s with printed := s.printed ++ bs }

def append (s : MemoryHost) (path : String) (bs : Bytes) : MemoryHost :=
  match s.resolve path with
  | .ok place =>
    if device? place = some .output then s.print bs
    else
      match s.file? place with
      | some f => s.store place { f with data := f.data ++ bs }
      | none => s
  | .error _ => s

end MemoryHost

instance : Host (StateM MemoryHost) where
  openFile path := do return (← get).openFile path
  createFile path := do
    match (← get).createFile path with
    | .ok s =>
      set s
      return .ok ()
    | .error f => return .error f
  modified path := do return (← get).modified path
  contents path := do return (← get).contents path
  append path bs := modify fun s => s.append path bs
  standardInput := do return (← get).input
  print bs := modify fun s => s.print bs
  complain line := modify fun s => { s with complaints := s.complaints ++ [line] }

end GzipStream.Command
