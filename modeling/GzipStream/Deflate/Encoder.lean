import GzipStream.Checksum.Adler32
import GzipStream.Deflate.Block
import GzipStream.Engine.Basic

/-!
# Encoding DEFLATE

The encoder holds input until a flush asks for it or a block is full. What it writes waits in a
queue until there is room. A step that fills its room exactly leaves what comes next (the mark of
a flush, the trailer, the end of the stream) to a later step.
-/

namespace GzipStream.Deflate

structure Encoder where
  zlib : Bool
  effort : Effort
  /-- the zlib header is written, or there is none -/
  opened : Bool := false
  /-- all input -/
  data : Array UInt8 := #[]
  /-- how much of the input is in a block -/
  blocked : Nat := 0
  /-- bits of an octet that is not complete -/
  rest : List Bool := []
  /-- output not yet delivered -/
  queue : Bytes := []
  /-- flush of the previous step; forgotten when a step fills its room -/
  previous : Option Flush := none
  /-- the last block is written -/
  closed : Bool := false
  /-- the trailer is written -/
  trailed : Bool := false
  totalOut : Nat := 0
  deriving DecidableEq, Repr, Inhabited

/-- How an encoding step went. -/
inductive EncodeVerdict
  | working
  | ended
  /-- input or flush after the stream was closed -/
  | misused
  deriving DecidableEq, Repr, Inhabited

namespace Encoder

/-- Longest block. -/
def blockSize : Nat := 65535

def totalIn (e : Encoder) : Nat := e.data.size

/-- How much input is not yet in a block. -/
def held (e : Encoder) : Nat := e.data.size - e.blocked

def start (zlib : Bool) (effort : Effort) : Encoder where
  zlib := zlib
  effort := effort
  opened := !zlib

/-- The two bytes before a zlib stream: window size and method, then level and check bits. -/
def zlibHeader (e : Effort) : Bytes :=
  let cmf := (e.windowBits - 8) * 16 + 8
  let levelBits :=
    if e.level ≤ 1 then 0 else if e.level ≤ 5 then 1 else if e.level = 6 then 2 else 3
  let flg := levelBits * 64
  let check := 31 - (cmf * 256 + flg) % 31
  [UInt8.ofNat cmf, UInt8.ofNat (flg + check)]

/-- Appends what `write` writes behind the bits at hand. -/
def emit (e : Encoder) (write : BitWriter → BitWriter) : Encoder :=
  let w := write ⟨#[], e.rest⟩
  { e with rest := w.rest, queue := e.queue ++ w.bytes.toList }

/-- Puts all held input into one block. -/
def closeBlock (e : Encoder) (final : Bool) : Encoder :=
  { e.emit (writeBlock e.effort final e.data e.blocked) with
    blocked := e.data.size, closed := final }

/-- Cuts full blocks off `data`, behind the input held so far. -/
def holdAll (e : Encoder) : Bytes → Encoder
  | [] => e
  | b :: bs =>
    match e with
    | ⟨zlib, effort, opened, data, blocked, rest, queue, previous, closed, trailed, totalOut⟩ =>
      let e : Encoder :=
        ⟨zlib, effort, opened, data.push b, blocked, rest, queue, previous, closed, trailed,
          totalOut⟩
      holdAll (if e.held = blockSize then e.closeBlock false else e) bs

/-- The mark of a flush: an empty stored block, which ends at an octet boundary. -/
def mark (e : Encoder) : Encoder := e.emit (storedBlock false [])

/-- The checksum behind the last block of a zlib stream. -/
def addTrailer (e : Encoder) : Encoder :=
  { e with queue := e.queue ++ bigEndian 4 (Adler32.ofBytes e.data.toList), trailed := true }

/-- Output of a step under way and the room that is left. -/
structure Delivery where
  encoder : Encoder
  output : Bytes := []
  room : Nat
  deriving Repr, Inhabited

/-- Moves queued output into the room. -/
def Delivery.deliver (d : Delivery) : Delivery :=
  let out := d.encoder.queue.take d.room
  { encoder := { d.encoder with
      queue := d.encoder.queue.drop d.room
      totalOut := d.encoder.totalOut + out.length }
    output := d.output ++ out
    room := d.room - out.length }

/-- Ends a step that filled its room. -/
def Delivery.pause (d : Delivery) : Delivery × EncodeVerdict :=
  ({ d with encoder := { d.encoder with previous := none } }, .working)

/-- After the last block: the trailer, then the end of the stream. -/
def Delivery.conclude (d : Delivery) : Delivery × EncodeVerdict :=
  if d.encoder.zlib && !d.encoder.trailed then
    let d := { d with encoder := d.encoder.addTrailer }.deliver
    (d, if d.encoder.queue.isEmpty then .ended else .working)
  else (d, .ended)

/-- Whether held input stays held while there is no room at all: the thorough levels compare each
byte with the next before they write it. -/
def defers (e : Encoder) : Bool := 7 ≤ e.effort.level && 2 ≤ e.held

/-- Writes the mark of a flush. -/
def Delivery.writeMark (d : Delivery) : Delivery × EncodeVerdict :=
  let d := { d with encoder := d.encoder.mark }.deliver
  if d.room = 0 then d.pause else (d, .working)

/-- Takes all input and writes what the flush asks for. -/
def Delivery.write (d : Delivery) (input : Bytes) (flush : Flush) : Delivery × EncodeVerdict :=
  let d := { d with encoder := d.encoder.holdAll input }
  match if d.room = 0 && d.encoder.defers then .none else flush with
  | .none =>
    let d := d.deliver
    if d.room = 0 then d.pause else (d, .working)
  | .sync =>
    if d.encoder.held = 0 then d.writeMark
    else
      let d := { d with encoder := d.encoder.closeBlock false }.deliver
      if d.room = 0 then d.pause else d.writeMark
  | .finish =>
    let encoder := d.encoder.closeBlock true
    let d := { d with encoder := encoder.emit .align }.deliver
    if d.room = 0 then d.pause else d.conclude

/-- Writes the zlib header in front of the first block. -/
def Delivery.begin (d : Delivery) : Delivery :=
  if d.encoder.opened then d
  else
    { d with encoder := { d.encoder with
        opened := true, queue := d.encoder.queue ++ zlibHeader d.encoder.effort } }.deliver

/-- A step behind the output that was queued. -/
def Delivery.advance (d : Delivery) (input : Bytes) (flush : Flush) : Delivery × EncodeVerdict :=
  if d.encoder.closed && !input.isEmpty then (d, .working)
  else
    let d := d.begin
    if !d.encoder.queue.isEmpty then d.pause
    else if d.encoder.closed then d.conclude
    else if input.isEmpty && flush == .none then (d, .working)
    else d.write input flush

/-- Whether nothing asks for work: no input, and no stronger flush than before. -/
def isIdle (e : Encoder) (input : Bytes) (flush : Flush) : Bool :=
  input.isEmpty && flush != .finish && e.queue.isEmpty
    && match e.previous with
      | some p => flush.rank ≤ p.rank
      | none => false

def step (e : Encoder) (input : Bytes) (room : Nat) (flush : Flush) : Delivery × EncodeVerdict :=
  if e.closed && flush != .finish then (⟨e, [], room⟩, .misused)
  else if room = 0 then (⟨e, [], room⟩, .working)
  else
    let idle := e.isIdle input flush
    let e := { e with previous := some flush }
    if idle then (⟨e, [], room⟩, .working)
    else
      let queued := !e.queue.isEmpty
      let d := Delivery.deliver ⟨e, [], room⟩
      if queued && d.room = 0 then d.pause else d.advance input flush

end Encoder

end GzipStream.Deflate
