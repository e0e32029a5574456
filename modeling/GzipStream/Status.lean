import GzipStream.Error

/-!
# Status of an engine call

The outcome of one call to a compression or decompression engine. `Status.progress` says which
outcomes are errors, `Status.check` which are errors where the end of a stream is not expected.
-/

namespace GzipStream

inductive Status
  | ok
  | streamEnd
  | needDictionary
  /-- a call of the operating system failed with this error number -/
  | osError (number : Int)
  | streamError
  | dataError
  | memoryError
  /-- nothing could be consumed or produced -/
  | bufferError
  | versionError
  | other (code : Int)
  deriving DecidableEq, Repr, Inhabited

/-- What a call without error reports. -/
inductive Progress
  | going
  | ended
  deriving DecidableEq, Repr, Inhabited

namespace Status

def code : Status → Int
  | ok => 0
  | streamEnd => 1
  | needDictionary => 2
  | osError _ => -1
  | streamError => -2
  | dataError => -3
  | memoryError => -4
  | bufferError => -5
  | versionError => -6
  | other c => c

/-- The status with the given code; an error of the operating system also has its `number`. -/
def ofCode (c number : Int) : Status :=
  if c = 0 then ok
  else if c = 1 then streamEnd
  else if c = 2 then needDictionary
  else if c = -1 then osError number
  else if c = -2 then streamError
  else if c = -3 then dataError
  else if c = -4 then memoryError
  else if c = -5 then bufferError
  else if c = -6 then versionError
  else other c

@[simp] theorem code_ofCode (c number : Int) : (ofCode c number).code = c := by
  unfold ofCode
  repeat' split
  all_goals simp_all [code]

def text : Status → String
  | ok => "ok"
  | streamEnd => "stream end"
  | needDictionary => "need dictionary"
  | osError _ => "errno"
  | streamError => "stream error"
  | dataError => "data error"
  | memoryError => "memory error"
  | bufferError => "buffer error"
  | versionError => "version error"
  | other c => s!"status {c}"

def progress : Status → Except Error Progress
  | ok => .ok .going
  | streamEnd => .ok .ended
  | needDictionary => .error (.unknownStatus 2)
  | osError number => .error (.os (.os number))
  | streamError => .error .streamState
  | dataError => .error (.dataCorrupt "invalid compressed data")
  | memoryError => .error .outOfMemory
  | bufferError => .error .bufferTooSmall
  | versionError => .error .versionMismatch
  | other c => .error (.unknownStatus c)

/-- As `progress`, for calls that cannot end a stream. -/
def check (s : Status) : Except Error Unit :=
  match s.progress with
  | .ok .going => .ok ()
  | .ok .ended => .error .streamState
  | .error e => .error e

@[simp] theorem check_ok : check ok = .ok () := rfl

theorem check_eq_ok_iff (s : Status) : s.check = .ok () ↔ s = ok := by
  cases s <;> simp [check, progress]

/-- The engine can be asked for more: it did its work, or could do none. -/
def isWorking : Status → Bool
  | ok | bufferError => true
  | _ => false

/-- The engine gave up. -/
def isFailure : Status → Bool
  | ok | bufferError | streamEnd => false
  | _ => true

end Status

end GzipStream
