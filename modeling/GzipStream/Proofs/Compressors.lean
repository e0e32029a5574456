import GzipStream.Proofs.Deflate.Schedule
import GzipStream.Proofs.Sessions

/-!
# What is assumed of compressors

`Compressor.Honest` is all that the layout of a member rests on: the totals say what a step took and
gave. `Compressor.Lawful` adds what it takes to read a member back: in a session the compressor is a
lawful machine, whose streams decode to what was fed.
-/

namespace GzipStream

namespace Deflate

/-- Window sizes of the format. -/
def Effort.Usable (e : Effort) : Prop := 8 ≤ e.windowBits ∧ e.windowBits ≤ 15

/-- `bs` is the beginning of a stream, which decodes to `out` so far. -/
def Shows (zlib : Bool) (bs out : Bytes) : Prop :=
  ∃ c : Cursor, (Cursor.start zlib).Takes bs c ∧ c.mode.isOpen = true ∧ c.history.toList = out

end Deflate

namespace Compressor

/-- A compressor whose totals say what its steps took and gave. -/
class Honest (κ : Type) [Compressor κ] : Prop where
  totalIn_start (zlib : Bool) (effort : Deflate.Effort) : totalIn (start zlib effort : κ) = 0
  totalOut_start (zlib : Bool) (effort : Deflate.Effort) : totalOut (start zlib effort : κ) = 0
  taken_le (e : κ) (input : Bytes) (room : Nat) (flush : Flush) :
    (machine κ e input room flush).taken ≤ input.length
  totalIn_eq (e : κ) (input : Bytes) (room : Nat) (flush : Flush) :
    totalIn (machine κ e input room flush).next = totalIn e + (machine κ e input room flush).taken
  totalOut_eq (e : κ) (input : Bytes) (room : Nat) (flush : Flush) :
    totalOut (machine κ e input room flush).next =
      totalOut e + (machine κ e input room flush).output.length

/-- A compressor that does what its sessions owe, with streams that decode to what was fed. -/
class Lawful (κ : Type) [Compressor κ] : Prop extends Honest κ where
  lawful (zlib : Bool) (effort : Deflate.Effort) (usable : effort.Usable) :
    (machine κ).Lawful (fun _ => True) (start zlib effort)
      (fun fed given => Deflate.Decodes zlib given fed) (fun fed given => Deflate.Shows zlib given fed)

theorem lawful_of_usable {κ : Type} [Compressor κ] [Lawful κ] {uses : Flush → Prop} (zlib : Bool)
    {effort : Deflate.Effort} (hu : effort.Usable) :
    (machine κ).Lawful uses (start zlib effort) (fun fed given => Deflate.Decodes zlib given fed)
      (fun fed given => Deflate.Shows zlib given fed) :=
  (Lawful.lawful zlib effort hu).mono fun _ _ => trivial

variable {κ : Type} [Compressor κ] [Honest κ] {asks : Stage → Bytes → Flush → Prop} {start e : κ}
  {stage : Stage} {fed given : Bytes}

/-- The totals say what went through the compressor. -/
theorem totals_of_session (h : (machine κ).Session asks start stage fed given e) :
    totalIn e = totalIn start + fed.length ∧ totalOut e = totalOut start + given.length := by
  induction h with
  | start => exact ⟨rfl, rfl⟩
  | @step stage fed given e before running input flush asked room fine ih =>
    have htaken := Honest.taken_le e input room flush
    constructor
    · rw [Honest.totalIn_eq, ih.1, List.length_append, List.length_take_of_le htaken, Nat.add_assoc]
    · rw [Honest.totalOut_eq, ih.2, List.length_append, Nat.add_assoc]

end Compressor

end GzipStream
