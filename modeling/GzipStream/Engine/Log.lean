import GzipStream.Engine.Basic

/-!
# Engines that keep a log

`Logged ε` is the engine `ε` together with all calls made to it and their answers, oldest first. The
query for the header is not logged, since it changes nothing.
-/

namespace GzipStream

inductive DecodeCall
  | captureHeader (status : Status)
  | step (offered room : Nat) (answer : Step)
  | reset (status : Status)
  | finish (status : Status)
  deriving DecidableEq, Repr, Inhabited

inductive EncodeCall
  | setHeader (status : Status)
  | step (offered room : Nat) (flush : Flush) (answer : Step)
  | finish (status : Status)
  deriving DecidableEq, Repr, Inhabited

/-- An engine and the calls made to it. -/
structure Logged (ε : Type) (κ : Type) where
  engine : ε
  calls : Array κ := #[]

instance {ε : Type} [DecodeEngine ε] : DecodeEngine (Logged ε DecodeCall) where
  step l input room :=
    let (s, e) := DecodeEngine.step l.engine input room
    (s, ⟨e, l.calls.push (.step input.length room s)⟩)
  reset l :=
    let (s, e) := DecodeEngine.reset l.engine
    (s, ⟨e, l.calls.push (.reset s)⟩)
  captureHeader l :=
    let (s, e) := DecodeEngine.captureHeader l.engine
    (s, ⟨e, l.calls.push (.captureHeader s)⟩)
  header l := DecodeEngine.header l.engine
  finish l :=
    let (s, e) := DecodeEngine.finish l.engine
    (s, ⟨e, l.calls.push (.finish s)⟩)

instance {ε : Type} [EncodeEngine ε] : EncodeEngine (Logged ε EncodeCall) where
  step l input room flush :=
    let (s, e) := EncodeEngine.step l.engine input room flush
    (s, ⟨e, l.calls.push (.step input.length room flush s)⟩)
  setHeader l h :=
    let (s, e) := EncodeEngine.setHeader l.engine h
    (s, ⟨e, l.calls.push (.setHeader s)⟩)
  finish l :=
    let (s, e) := EncodeEngine.finish l.engine
    (s, ⟨e, l.calls.push (.finish s)⟩)

namespace Logged

section
variable {ε : Type} [DecodeEngine ε] {l l' : Logged ε DecodeCall}

theorem log_step {input : Bytes} {room : Nat} {s : Step}
    (h : DecodeEngine.step l input room = (s, l')) :
    l'.calls.toList = l.calls.toList ++ [.step input.length room s] := by
  cases h
  exact Array.toList_push

theorem log_reset {status : Status} (h : DecodeEngine.reset l = (status, l')) :
    l'.calls.toList = l.calls.toList ++ [.reset status] := by
  cases h
  exact Array.toList_push

theorem log_finish {status : Status} (h : DecodeEngine.finish l = (status, l')) :
    l'.calls.toList = l.calls.toList ++ [.finish status] := by
  cases h
  exact Array.toList_push

end

section
variable {ε : Type} [EncodeEngine ε] {l l' : Logged ε EncodeCall}

theorem log_encode {input : Bytes} {room : Nat} {flush : Flush} {s : Step}
    (h : EncodeEngine.step l input room flush = (s, l')) :
    l'.calls.toList = l.calls.toList ++ [.step input.length room flush s] := by
  cases h
  exact Array.toList_push

theorem log_setHeader {header : Header} {status : Status}
    (h : EncodeEngine.setHeader l header = (status, l')) :
    l'.calls.toList = l.calls.toList ++ [.setHeader status] := by
  cases h
  exact Array.toList_push

theorem log_release {status : Status} (h : EncodeEngine.finish l = (status, l')) :
    l'.calls.toList = l.calls.toList ++ [.finish status] := by
  cases h
  exact Array.toList_push

end

end Logged

end GzipStream
