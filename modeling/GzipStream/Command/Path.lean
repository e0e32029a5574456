/-!
# Paths

A path is a list of names between slashes.
-/

namespace GzipStream.Command.Path

def isRooted (path : String) : Bool := path.startsWith "/"

def endsInSlash (path : String) : Bool := path.endsWith "/"

/-- Names between slashes; empty ones stand for repeated or closing slashes. -/
def names (path : String) : List String := path.splitOn "/"

/-- A name that leads to where one is already. -/
def isIdle (name : String) : Bool := name = "" || name = "."

/-- The names that lead somewhere. -/
def properNames (path : String) : List String := (names path).filter fun s => !isIdle s

/-- The last name, unless the path ends above a directory or is only slashes and dots. -/
def fileName? (path : String) : Option String :=
  (properNames path).getLast?.filter (· ≠ "..")

/-- Names without those of closing slashes, of which the first one is kept. -/
def trimmedNames (path : String) : List String :=
  match (names path).reverse.dropWhile (· = "") with
  | [] => [""]
  | ns => ns.reverse

end GzipStream.Command.Path
