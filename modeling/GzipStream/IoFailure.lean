import GzipStream.OsError

/-!
# Failures of sources, sinks and files

A failure comes from the operating system with an error number, or is made with a kind and a
text, or with a kind alone. `IoFailure.kind` and `IoFailure.text` are all that a caller sees of
it. A failure of kind `interrupted` asks for the call to be made again.
-/

namespace GzipStream

inductive IoFailure
  /-- reported by the operating system -/
  | os (code : Int)
  | described (kind : IoKind) (text : String)
  | plain (kind : IoKind)
  deriving DecidableEq, Repr, Inhabited

namespace IoFailure

def kind : IoFailure → IoKind
  | os code => (OsError.ofCode code).kind
  | described kind _ => kind
  | plain kind => kind

def text : IoFailure → String
  | os code => (OsError.ofCode code).text ++ s!" (os error {code})"
  | described _ text => text
  | plain kind => kind.text

/-- The call that failed is to be made again. -/
def isInterrupted (f : IoFailure) : Bool := f.kind == .interrupted

def osCode? : IoFailure → Option Int
  | os code => some code
  | _ => none

/-- The failure made anew, from its number or else from its kind and text. -/
def copy (f : IoFailure) : IoFailure :=
  match f.osCode? with
  | some code => os code
  | none => described f.kind f.text

@[simp] theorem kind_copy (f : IoFailure) : f.copy.kind = f.kind := by
  cases f <;> rfl

@[simp] theorem text_copy (f : IoFailure) : f.copy.text = f.text := by
  cases f <;> rfl

@[simp] theorem copy_copy (f : IoFailure) : f.copy.copy = f.copy := by
  cases f <;> rfl

end IoFailure

end GzipStream
