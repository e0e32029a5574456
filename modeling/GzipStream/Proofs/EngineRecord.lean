import GzipStream.Engine.Basic

/-!
# Engines that keep a record

`Recorded ε` is the engine `ε` with a record of the bytes that it took and gave.
-/

namespace GzipStream

/-- An engine and all that it took and gave. -/
structure Recorded (ε : Type) where
  engine : ε
  taken : Bytes := []
  given : Bytes := []

section
variable {ε : Type} [EncodeEngine ε]

instance : EncodeEngine (Recorded ε) where
  step e input room flush :=
    let (s, engine) := EncodeEngine.step e.engine input room flush
    (s, ⟨engine, e.taken ++ input.take s.consumed, e.given ++ s.output⟩)
  setHeader e h :=
    let (status, engine) := EncodeEngine.setHeader e.engine h
    (status, ⟨engine, e.taken, e.given⟩)
  finish e :=
    let (status, engine) := EncodeEngine.finish e.engine
    (status, ⟨engine, e.taken, e.given⟩)

end

section
variable {ε : Type} [DecodeEngine ε]

instance : DecodeEngine (Recorded ε) where
  step e input room :=
    let (s, engine) := DecodeEngine.step e.engine input room
    (s, ⟨engine, e.taken ++ input.take s.consumed, e.given ++ s.output⟩)
  reset e :=
    let (status, engine) := DecodeEngine.reset e.engine
    (status, ⟨engine, e.taken, e.given⟩)
  captureHeader e :=
    let (status, engine) := DecodeEngine.captureHeader e.engine
    (status, ⟨engine, e.taken, e.given⟩)
  header e := DecodeEngine.header e.engine
  finish e :=
    let (status, engine) := DecodeEngine.finish e.engine
    (status, ⟨engine, e.taken, e.given⟩)

namespace Recorded
variable {e e' : Recorded ε} {status : Status}

theorem of_step {input : Bytes} {room : Nat} {s : Step}
    (h : DecodeEngine.step e input room = (s, e')) :
    DecodeEngine.step e.engine input room = (s, e'.engine) ∧
      e'.taken = e.taken ++ input.take s.consumed := by
  cases h
  exact ⟨rfl, rfl⟩

theorem given_of_step {input : Bytes} {room : Nat} {s : Step}
    (h : DecodeEngine.step e input room = (s, e')) : e'.given = e.given ++ s.output := by
  cases h
  rfl

theorem of_reset (h : DecodeEngine.reset e = (status, e')) :
    DecodeEngine.reset e.engine = (status, e'.engine) ∧ e'.taken = e.taken := by
  cases h
  exact ⟨rfl, rfl⟩

theorem given_of_reset (h : DecodeEngine.reset e = (status, e')) : e'.given = e.given := by
  cases h
  rfl

theorem of_finish (h : DecodeEngine.finish e = (status, e')) :
    DecodeEngine.finish e.engine = (status, e'.engine) ∧ e'.taken = e.taken := by
  cases h
  exact ⟨rfl, rfl⟩

theorem given_of_finish (h : DecodeEngine.finish e = (status, e')) : e'.given = e.given := by
  cases h
  rfl

end Recorded

end

end GzipStream
