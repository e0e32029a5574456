import GzipStream.Error

/-!
# Options

How a stream is framed, how hard it is compressed and how large the buffers are. The window
bits choose the framing of compressed output: 8 to 15 for zlib, 16 more for gzip, negated for a
bare DEFLATE stream (`Options.encodeFraming`).
-/

namespace GzipStream

inductive Format
  | gzip
  | flate
  deriving DecidableEq, Repr, Inhabited

/-- What stands around a DEFLATE stream. `auto` tells gzip from zlib by the first byte of every
member. -/
inductive Framing
  | raw
  | zlib
  | gzip
  | auto
  deriving DecidableEq, Repr, Inhabited

namespace Framing

def name : Framing → String
  | raw => "Raw"
  | zlib => "Zlib"
  | gzip => "Gzip"
  | auto => "Auto"

/-- Members may carry a gzip header. -/
def hasHeader : Framing → Bool
  | gzip | auto => true
  | raw | zlib => false

end Framing

inductive Strategy
  | default
  | filtered
  | huffmanOnly
  | rle
  | fixed
  deriving DecidableEq, Repr, Inhabited

/-- Why options are refused. -/
inductive ConfigFault
  | levelOutOfRange (level : Int)
  | invalidWindowBits (bits : Int)
  | memoryLevelOutOfRange (level : Int)
  | invalidStrategy (code : Int)
  | smallWindowFraming (framing : Framing)
  | unsupportedMemoryLevel (level : Int)
  | unsupportedStrategy (strategy : Strategy)
  deriving DecidableEq, Repr, Inhabited

namespace Strategy

def code : Strategy → Int
  | default => 0
  | filtered => 1
  | huffmanOnly => 2
  | rle => 3
  | fixed => 4

def name : Strategy → String
  | default => "Default"
  | filtered => "Filtered"
  | huffmanOnly => "HuffmanOnly"
  | rle => "Rle"
  | fixed => "Fixed"

def ofCode (c : Int) : Except ConfigFault Strategy :=
  if c = 0 then .ok default
  else if c = 1 then .ok filtered
  else if c = 2 then .ok huffmanOnly
  else if c = 3 then .ok rle
  else if c = 4 then .ok fixed
  else .error (.invalidStrategy c)

end Strategy

namespace ConfigFault

def message : ConfigFault → String
  | levelOutOfRange l => s!"compression level {l} out of range (expected -1..=9)"
  | invalidWindowBits b => s!"invalid window bits {b}"
  | memoryLevelOutOfRange m => s!"memory level {m} out of range (expected 1..=9)"
  | invalidStrategy c => s!"invalid strategy {c}"
  | smallWindowFraming f => "window bits 8 requires zlib framing, not " ++ f.name
  | unsupportedMemoryLevel m => s!"memory level {m} is not supported (only 8)"
  | unsupportedStrategy s => "strategy " ++ s.name ++ " is not supported"

def toError (f : ConfigFault) : Error := .config f.message

end ConfigFault

structure Options where
  format : Format := .gzip
  /-- capacity of a reader's or writer's buffer; 0 stands for the default -/
  bufferSize : Nat := 524288
  level : Option Int := none
  windowBits : Option Int := none
  memoryLevel : Option Int := none
  strategy : Option Strategy := none
  captureHeader : Bool := true
  deriving DecidableEq, Repr, Inhabited

namespace Options

def effectiveBufferSize (o : Options) : Nat :=
  if o.bufferSize = 0 then 524288 else o.bufferSize

theorem effectiveBufferSize_pos (o : Options) : 0 < o.effectiveBufferSize := by
  unfold effectiveBufferSize
  split <;> omega

/-- The compression level in use: at most 9, and 6 where none or a negative one is asked for. -/
def effectiveLevel (o : Options) : Nat :=
  match o.level with
  | some l => if 0 ≤ l then min l.toNat 9 else 6
  | none => 6

def decodeFraming (o : Options) : Framing :=
  match o.format with
  | .gzip => .auto
  | .flate => .raw

/-- Framing and window size (as a power of two) of compressed output. -/
def encodeFraming (o : Options) : Except ConfigFault (Framing × Nat) :=
  let bits : Int := o.windowBits.getD (match o.format with | .gzip => 31 | .flate => -15)
  if 8 ≤ bits ∧ bits ≤ 15 then .ok (.zlib, bits.toNat)
  else if 24 ≤ bits ∧ bits ≤ 31 then .ok (.gzip, (bits - 16).toNat)
  else if -15 ≤ bits ∧ bits ≤ -8 then .ok (.raw, (-bits).toNat)
  else .error (.invalidWindowBits bits)

def checkLevel (o : Options) : Except ConfigFault Unit :=
  match o.level with
  | some l => if 9 < l then .error (.levelOutOfRange l) else .ok ()
  | none => .ok ()

def checkWindowBits (o : Options) : Except ConfigFault Unit :=
  match o.windowBits with
  | some _ => do
    let _ ← o.encodeFraming
    .ok ()
  | none => .ok ()

def checkMemoryLevel (o : Options) : Except ConfigFault Unit :=
  match o.memoryLevel with
  | some m => if 1 ≤ m ∧ m ≤ 9 then .ok () else .error (.memoryLevelOutOfRange m)
  | none => .ok ()

/-- Level, window bits and memory level are in range, checked in this order. -/
def validate (o : Options) : Except ConfigFault Unit := do
  o.checkLevel
  o.checkWindowBits
  o.checkMemoryLevel

/-- An optional value as text. -/
def optionText (value : Option String) : String :=
  match value with
  | some s => "Some(" ++ s ++ ")"
  | none => "None"

/-- All fields as text. -/
def describe (o : Options) : String :=
  "Options \x7b format: " ++ (match o.format with | .gzip => "Gzip" | .flate => "Flate")
    ++ s!", buffer_size: {o.bufferSize}"
    ++ ", level: " ++ optionText (o.level.map toString)
    ++ ", window_bits: " ++ optionText (o.windowBits.map toString)
    ++ ", mem_level: " ++ optionText (o.memoryLevel.map toString)
    ++ ", strategy: " ++ optionText (o.strategy.map Strategy.name)
    ++ s!", capture_header: {o.captureHeader} \x7d"

end Options

end GzipStream
