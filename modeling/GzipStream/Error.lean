import GzipStream.IoFailure

/-!
# Errors

What can go wrong when a stream is compressed, decompressed or driven. `Error.message` is the
text of an error, `Error.ioKind` its kind where it leaves a reader or a writer as an I/O failure. An
error that is kept, and one that is reported again, is a copy: alike (`Error.alike_copy`), and the
same however often it was copied (`Error.copy_copy`).
-/

namespace GzipStream

inductive Error
  | io (failure : IoFailure)
  | config (message : String)
  | dataCorrupt (message : String)
  /-- the input ended inside a member, after `consumed` bytes -/
  | truncatedStream (consumed : Nat)
  | outOfMemory
  | bufferTooSmall
  | versionMismatch
  | streamState
  | os (failure : IoFailure)
  /-- the sink accepted `written` of `expected` bytes -/
  | shortWrite (written expected : Nat)
  | usage (message : String)
  | unknownStatus (code : Int)
  deriving DecidableEq, Repr, Inhabited

namespace Error

def message : Error → String
  | io f => "I/O error: " ++ f.text
  | config m => "Invalid configuration: " ++ m
  | dataCorrupt m => "Corrupted data: " ++ m
  | truncatedStream n => s!"Truncated stream: input ended after {n} bytes inside a member"
  | outOfMemory => "Engine out of memory"
  | bufferTooSmall => "Engine reported buffer too small with no progress"
  | versionMismatch => "Engine version mismatch"
  | streamState => "Engine stream state error"
  | os f => "OS error: " ++ f.text
  | shortWrite w e => s!"Short write: sink accepted {w} of {e} bytes"
  | usage m => "Usage error: " ++ m
  | unknownStatus c => s!"Unknown engine status {c}"

def ioKind : Error → IoKind
  | io f | os f => f.kind
  | config _ | usage _ => .invalidInput
  | dataCorrupt _ => .invalidData
  | truncatedStream _ => .unexpectedEof
  | outOfMemory => .outOfMemory
  | shortWrite _ _ => .writeZero
  | bufferTooSmall | versionMismatch | streamState | unknownStatus _ => .other

/-- The compressed input itself is at fault. -/
def isDataError : Error → Bool
  | dataCorrupt _ | truncatedStream _ => true
  | _ => false

/-- A call was made out of order. -/
def isUsageError : Error → Bool
  | usage _ => true
  | _ => false

/-- A failure of the source or the sink, which passes the boundary unchanged. -/
def ioFailure? : Error → Option IoFailure
  | io f => some f
  | _ => none

/-- The text seen by a caller who knows I/O failures only: the failure's own text, or the
message of the error that it wraps. -/
def boundaryText (e : Error) : String :=
  match e.ioFailure? with
  | some f => f.text
  | none => e.message

/-- The error as it is kept and reported again. -/
def copy : Error → Error
  | io f => io f.copy
  | os f => os f.copy
  | e => e

@[simp] theorem copy_copy (e : Error) : e.copy.copy = e.copy := by
  cases e with
  | io f => exact congrArg io f.copy_copy
  | os f => exact congrArg os f.copy_copy
  | _ => rfl

@[simp] theorem ioFailure?_copy (e : Error) : e.copy.ioFailure? = e.ioFailure?.map .copy := by
  cases e <;> rfl

theorem ioFailure?_copy_of_none {e : Error} (he : e.ioFailure? = none) :
    e.copy.ioFailure? = none := by
  rw [ioFailure?_copy, he, Option.map_none]

/-- Two errors that a caller cannot tell apart by their variant, their text and their kind. -/
structure Alike (e e' : Error) : Prop where
  variant : e.ctorIdx = e'.ctorIdx
  message : e.message = e'.message
  ioKind : e.ioKind = e'.ioKind

theorem Alike.refl (e : Error) : e.Alike e := ⟨rfl, rfl, rfl⟩

theorem Alike.trans {e e' e'' : Error} (h : e.Alike e') (h' : e'.Alike e'') : e.Alike e'' :=
  ⟨h.variant.trans h'.variant, h.message.trans h'.message, h.ioKind.trans h'.ioKind⟩

theorem alike_copy (e : Error) : e.copy.Alike e := by
  cases e with
  | io f => exact ⟨rfl, congrArg ("I/O error: " ++ ·) f.text_copy, f.kind_copy⟩
  | os f => exact ⟨rfl, congrArg ("OS error: " ++ ·) f.text_copy, f.kind_copy⟩
  | _ => exact .refl _

/-- The error itself or a copy of it is kept. -/
def KeptIn (e : Error) (failure : Option Error) : Prop :=
  ∃ kept, failure = some kept ∧ kept.copy = e.copy

theorem keptIn_copy (e : Error) : e.KeptIn (some e.copy) := ⟨_, rfl, e.copy_copy⟩

theorem copy_keptIn (e : Error) : e.copy.KeptIn (some e) := ⟨_, rfl, e.copy_copy.symm⟩

end Error

end GzipStream
