import GzipStream.Checksum.Adler32
import GzipStream.Deflate.Alphabet

/-!
# Decoding DEFLATE

The decoder is a machine that waits for one of three things: a byte of input, room for a byte of
output, or (inside a stored block) both. It takes a byte only when the field being read needs a bit
of it, and acts on a field as soon as its last bit is there. Since reading never looks at the room
and writing never looks at the input, what a stream decodes to does not depend on how input and
room are dealt out.

`Decoder.run` runs the machine until it has to wait. `Mode.onBit` and `Mode.onByte` give the
transitions; all that was written since the stream began is kept in `history`.
-/

namespace GzipStream.Deflate

/-- Why a stream is refused. -/
inductive DecodeFault
  | badHeaderCheck
  | unknownMethod
  | badWindowSize
  | needsDictionary
  | badDataCheck
  | badBlockType
  | badStoredLength
  | tooManySymbols
  | badCodeLengthSet
  | badRepeat
  | missingEndOfBlock
  | badLiteralSet
  | badDistanceSet
  | badLiteral
  | badDistance
  | distanceTooFar
  /-- the stream was refused before -/
  | badState
  deriving DecidableEq, Repr, Inhabited

namespace DecodeFault

def message : DecodeFault → String
  | badHeaderCheck => "incorrect header check"
  | unknownMethod => "unknown compression method"
  | badWindowSize => "invalid window size"
  | needsDictionary => "requires a dictionary"
  | badDataCheck => "incorrect data check"
  | badBlockType => "invalid block type"
  | badStoredLength => "invalid stored block lengths"
  | tooManySymbols => "too many length or distance symbols"
  | badCodeLengthSet => "invalid code lengths set"
  | badRepeat => "invalid bit length repeat"
  | missingEndOfBlock => "invalid code -- missing end-of-block"
  | badLiteralSet => "invalid literal/lengths set"
  | badDistanceSet => "invalid distances set"
  | badLiteral => "invalid literal/length code"
  | badDistance => "invalid distance code"
  | distanceTooFar => "invalid distance too far back"
  | badState => "repeated call with bad state"

def text (f : DecodeFault) : String := "deflate decompression error: " ++ f.message

/-- What a stream that failed with `f` reports from then on. -/
def again : DecodeFault → DecodeFault
  | needsDictionary => needsDictionary
  | _ => badState

end DecodeFault

/-- A number being read bit by bit, least significant bit first. -/
structure Field where
  value : Nat := 0
  got : Nat := 0
  deriving DecidableEq, Repr, Inhabited

def Field.push (f : Field) (b : Bool) : Field :=
  ⟨if b then f.value + Nat.pow 2 f.got else f.value, f.got + 1⟩

/-- How many lengths of each code a block declares. -/
structure Counts where
  literals : Nat
  distances : Nat
  codeLengths : Nat
  deriving DecidableEq, Repr, Inhabited

/-- A run in the list of code lengths: `value` repeated `base` times and as often as the next
`extra` bits say. -/
structure Run where
  value : Nat
  base : Nat
  extra : Nat
  deriving DecidableEq, Repr, Inhabited

/-- What the decoder is reading or writing. -/
inductive Mode
  | zlibHeader (cmf : Option UInt8)
  | dictionaryId (left : Nat)
  | blockHeader (field : Field)
  | storedHeader (seen : Bytes)
  /-- a stored block with `left + 1` bytes to copy -/
  | stored (left : Nat)
  | counts (field : Field)
  | codeLengthLengths (counts : Counts) (seen : List Nat) (field : Field)
  | codeLengths (counts : Counts) (code node : Huffman.Tree) (seen : Array Nat)
  | repeated (counts : Counts) (code : Huffman.Tree) (seen : Array Nat) (run : Run) (field : Field)
  | symbol (codes : Codes) (node : Huffman.Tree)
  | lengthExtra (codes : Codes) (range : Range) (field : Field)
  | distance (codes : Codes) (length : Nat) (node : Huffman.Tree)
  | distanceExtra (codes : Codes) (length : Nat) (range : Range) (field : Field)
  | literal (codes : Codes) (byte : UInt8)
  /-- a match with `left + 1` bytes to copy -/
  | copy (codes : Codes) (left distance : Nat)
  | checksum (seen : Bytes)
  | done
  | failed (fault : DecodeFault)
  deriving DecidableEq, Repr, Inhabited

/-- How the stream is framed and whether the current block is the last. -/
structure Context where
  zlib : Bool
  final : Bool := false
  deriving DecidableEq, Repr, Inhabited

namespace Mode

def start (zlib : Bool) : Mode := if zlib then .zlibHeader none else .blockHeader {}

/-- After the last byte of a block. -/
def afterBlock (c : Context) : Mode :=
  if c.final then
    if c.zlib then .checksum [] else .done
  else .blockHeader {}

def beginSymbols (codes : Codes) : Mode := .symbol codes codes.literals

/-- The second byte of a zlib header is there. -/
def afterZlibHeader (cmf flg : UInt8) : Mode :=
  if (cmf.toNat * 256 + flg.toNat) % 31 ≠ 0 then .failed .badHeaderCheck
  else if cmf &&& 0x0f ≠ 8 then .failed .unknownMethod
  else if (7 : UInt8) < cmf >>> 4 then .failed .badWindowSize
  else if flg &&& 0x20 ≠ 0 then .dictionaryId 4
  else .blockHeader {}

/-- The four length bytes of a stored block are there. -/
def afterStoredHeader (c : Context) (seen : Bytes) : Mode :=
  let length := ofLittleEndian (seen.take 2)
  if length + ofLittleEndian (seen.drop 2) ≠ 65535 then .failed .badStoredLength
  else
    match length with
    | 0 => afterBlock c
    | n + 1 => .stored n

def afterCounts (value : Nat) : Mode :=
  let literals := value % 32 + 257
  let distances := value / 32 % 32 + 1
  if 286 < literals ∨ 30 < distances then .failed .tooManySymbols
  else .codeLengthLengths ⟨literals, distances, value / 1024 + 4⟩ [] {}

/-- The code that the code lengths are sent in. Where no symbol of it is used, either bit stands
for a length of 0. -/
def codeLengthTree? (lengths : List Nat) : Option Huffman.Tree :=
  if Huffman.longest lengths = 0 then some (.node (.leaf 0) (.leaf 0))
  else if Huffman.isComplete lengths then some (.ofLengths lengths)
  else none

/-- Lengths in symbol order from lengths in sending order. -/
def orderedLengths (sent : List Nat) : List Nat :=
  (List.range 19).map fun s => sent.getD (codeLengthOrder.idxOf s) 0

def afterCodeLengthLengths (counts : Counts) (sent : List Nat) : Mode :=
  match codeLengthTree? (orderedLengths sent) with
  | some code => .codeLengths counts code code #[]
  | none => .failed .badCodeLengthSet

/-- All code lengths of a block are there. -/
def afterCodeLengths (counts : Counts) (lengths : List Nat) : Mode :=
  let literals := lengths.take counts.literals
  let distances := lengths.drop counts.literals
  if literals.getD endOfBlock 0 = 0 then .failed .missingEndOfBlock
  else if !Huffman.isUsable literals then .failed .badLiteralSet
  else if !Huffman.isUsable distances then .failed .badDistanceSet
  else beginSymbols ⟨.ofLengths literals, .ofLengths distances⟩

/-- Goes on with the next code length, or with the block's symbols. -/
def nextCodeLength (counts : Counts) (code : Huffman.Tree) (seen : Array Nat) : Mode :=
  if seen.size < counts.literals + counts.distances then .codeLengths counts code code seen
  else afterCodeLengths counts seen.toList

/-- A symbol of the code length code is there. -/
def onCodeLength (counts : Counts) (code : Huffman.Tree) (seen : Array Nat) (symbol : Nat) : Mode :=
  if symbol < 16 then nextCodeLength counts code (seen.push symbol)
  else if symbol = 16 then .repeated counts code seen ⟨seen.back?.getD 0, 3, 2⟩ {}
  else if symbol = 17 then .repeated counts code seen ⟨0, 3, 3⟩ {}
  else .repeated counts code seen ⟨0, 11, 7⟩ {}

/-- The extra bits of a run are there. Only a run of two extra bits repeats an earlier length. -/
def onRepeat (counts : Counts) (code : Huffman.Tree) (seen : Array Nat) (run : Run) (n : Nat) :
    Mode :=
  let times := run.base + n
  if run.extra = 2 ∧ seen.isEmpty then .failed .badRepeat
  else if counts.literals + counts.distances < seen.size + times then .failed .badRepeat
  else nextCodeLength counts code (seen ++ Array.replicate times run.value)

def onDistance (codes : Codes) (length distance : Nat) : Mode := .copy codes (length - 1) distance

/-- A distance symbol is there. -/
def onDistanceSymbol (codes : Codes) (length symbol : Nat) : Mode :=
  match distanceRange? symbol with
  | none => .failed .badDistance
  | some r =>
    if r.extra = 0 then onDistance codes length r.base else .distanceExtra codes length r {}

def onLength (codes : Codes) (length : Nat) : Mode := .distance codes length codes.distances

/-- A literal, the end of a block or a length symbol is there. -/
def onSymbol (c : Context) (codes : Codes) (symbol : Nat) : Mode :=
  if symbol < 256 then .literal codes (UInt8.ofNat symbol)
  else if symbol = endOfBlock then afterBlock c
  else
    match lengthRange? symbol with
    | none => .failed .badLiteral
    | some r => if r.extra = 0 then onLength codes r.base else .lengthExtra codes r {}

/-- The three bits of a block header are there: bit 0 marks the last block, the others its type. -/
def onBlockHeader (zlib : Bool) (value : Nat) : Context × Mode :=
  (⟨zlib, value % 2 = 1⟩,
    match value / 2 with
    | 0 => .storedHeader []
    | 1 => beginSymbols fixedCodes
    | 2 => .counts {}
    | _ => .failed .badBlockType)

/-- Whether the next thing needed is a single bit. -/
def wantsBit : Mode → Bool
  | .blockHeader _ | .counts _ | .codeLengthLengths .. | .codeLengths .. | .repeated .. | .symbol ..
  | .lengthExtra .. | .distance .. | .distanceExtra .. => true
  | _ => false

/-- Whether the next thing needed is a whole byte, so that bits left of the last one are dropped. -/
def wantsByte : Mode → Bool
  | .zlibHeader _ | .dictionaryId _ | .storedHeader _ | .checksum _ => true
  | _ => false

/-- Takes one bit. -/
def onBit (c : Context) (m : Mode) (b : Bool) : Context × Mode :=
  match m with
  | .blockHeader f =>
    let f := f.push b
    if f.got < 3 then (c, .blockHeader f) else onBlockHeader c.zlib f.value
  | .counts f =>
    let f := f.push b
    (c, if f.got < 14 then .counts f else afterCounts f.value)
  | .codeLengthLengths n seen f =>
    let f := f.push b
    if f.got < 3 then (c, .codeLengthLengths n seen f)
    else
      let seen := seen ++ [f.value]
      (c, if seen.length < n.codeLengths then .codeLengthLengths n seen {}
        else afterCodeLengthLengths n seen)
  | .codeLengths n code node seen =>
    match node with
    | .node zero one =>
      match if b then one else zero with
      | .leaf s => (c, onCodeLength n code seen s)
      | .hole => (c, .failed .badCodeLengthSet)
      | next => (c, .codeLengths n code next seen)
    | _ => (c, .failed .badCodeLengthSet)
  | .repeated n code seen run f =>
    let f := f.push b
    (c, if f.got < run.extra then .repeated n code seen run f else onRepeat n code seen run f.value)
  | .symbol codes node =>
    match node with
    | .node zero one =>
      match if b then one else zero with
      | .leaf s => (c, onSymbol c codes s)
      | .hole => (c, .failed .badLiteral)
      | next => (c, .symbol codes next)
    | _ => (c, .failed .badLiteral)
  | .lengthExtra codes r f =>
    let f := f.push b
    (c, if f.got < r.extra then .lengthExtra codes r f else onLength codes (r.base + f.value))
  | .distance codes length node =>
    match node with
    | .node zero one =>
      match if b then one else zero with
      | .leaf s => (c, onDistanceSymbol codes length s)
      | .hole => (c, .failed .badDistance)
      | next => (c, .distance codes length next)
    | _ => (c, .failed .badDistance)
  | .distanceExtra codes length r f =>
    let f := f.push b
    (c, if f.got < r.extra then .distanceExtra codes length r f
      else onDistance codes length (r.base + f.value))
  | m => (c, m)

/-- Takes one whole byte. `output` is all that the stream decoded to so far. -/
def onByte (c : Context) (output : Array UInt8) (m : Mode) (b : UInt8) : Mode :=
  match m with
  | .zlibHeader none => .zlibHeader (some b)
  | .zlibHeader (some cmf) => afterZlibHeader cmf b
  | .dictionaryId left => if left ≤ 1 then .failed .needsDictionary else .dictionaryId (left - 1)
  | .storedHeader seen =>
    let seen := seen ++ [b]
    if seen.length < 4 then .storedHeader seen else afterStoredHeader c seen
  | .checksum seen =>
    let seen := seen ++ [b]
    if seen.length < 4 then .checksum seen
    else if seen = bigEndian 4 (Adler32.ofBytes output.toList) then .done
    else .failed .badDataCheck
  | m => m

/-- Takes bits while single bits are wanted. What is left stays for later, or is dropped where a
whole byte or nothing is wanted next. -/
def absorb (c : Context) (m : Mode) : List Bool → Context × Mode × List Bool
  | [] => (c, m, [])
  | b :: bs =>
    if m.wantsBit then
      let (c, m) := m.onBit c b
      absorb c m bs
    else
      match m with
      | .literal .. | .copy .. => (c, m, b :: bs)
      | _ => (c, m, [])

end Mode

/-- A decoder of one raw or zlib stream. -/
structure Decoder where
  context : Context
  mode : Mode
  /-- bits of the last byte that were not used yet -/
  bits : List Bool := []
  /-- all output -/
  history : Array UInt8 := #[]
  totalIn : Nat := 0
  deriving DecidableEq, Repr, Inhabited

/-- Why a decoder stopped. -/
inductive Verdict
  /-- it waits for input or for room -/
  | waiting
  | ended
  | refused (fault : DecodeFault)
  deriving DecidableEq, Repr, Inhabited

namespace Decoder

/-- A decoder at the start of a stream. -/
def start (zlib : Bool) : Decoder where
  context := ⟨zlib, false⟩
  mode := .start zlib

/-- Goes on with the bits at hand. -/
def settle (d : Decoder) : Decoder :=
  match d with
  | ⟨c, m, bits, history, n⟩ =>
    let (c, m, bits) := Mode.absorb c m bits
    ⟨c, m, bits, history, n⟩

/-- Takes one byte of input. -/
def take (d : Decoder) (b : UInt8) : Decoder :=
  match d with
  | ⟨c, m, bits, history, n⟩ =>
    if m.wantsByte then ⟨c, m.onByte c history b, [], history, n + 1⟩
    else settle ⟨c, m, bits ++ bitsOfByte b, history, n + 1⟩

/-- Writes one byte of output and goes on in mode `m`. -/
def write (d : Decoder) (b : UInt8) (m : Mode) : Decoder :=
  match d with
  | ⟨c, _, bits, history, n⟩ => settle ⟨c, m, bits, history.push b, n⟩

/-- The mode after one byte of a stored block was copied. -/
def afterStored (c : Context) : Nat → Mode
  | 0 => .afterBlock c
  | left + 1 => .stored left

/-- Copies one byte of a stored block that has `left` more. -/
def copyStored (d : Decoder) (b : UInt8) (left : Nat) : Decoder :=
  match d with
  | ⟨c, _, bits, history, n⟩ => settle ⟨c, afterStored c left, bits, history.push b, n + 1⟩

/-- The mode after one byte of a match was copied. -/
def afterCopy (codes : Codes) (distance : Nat) : Nat → Mode
  | 0 => .beginSymbols codes
  | left + 1 => .copy codes left distance

/-- Runs until the decoder has to wait, ends or refuses its input; gives the room that is left. -/
def run (d : Decoder) (input : Bytes) (room : Nat) : Decoder × Nat × Verdict :=
  match d.mode with
  | .done => (d, room, .ended)
  | .failed f => ({ d with mode := .failed f.again }, room, .refused f)
  | .literal codes b =>
    match room with
    | 0 => (d, 0, .waiting)
    | room + 1 => run (d.write b (.beginSymbols codes)) input room
  | .copy codes left distance =>
    match room with
    | 0 => (d, 0, .waiting)
    | room + 1 =>
      if distance ≤ d.history.size then
        let b := d.history.getD (d.history.size - distance) 0
        run (d.write b (afterCopy codes distance left)) input room
      else ({ d with mode := .failed DecodeFault.distanceTooFar.again }, room + 1,
        .refused .distanceTooFar)
  | .stored left =>
    match room, input with
    | room + 1, b :: rest => run (d.copyStored b left) rest room
    | room, _ => (d, room, .waiting)
  | _ =>
    match input with
    | [] => (d, room, .waiting)
    | b :: rest => run (d.take b) rest room
termination_by input.length + room

/-- Runs the decoder and gives what it wrote. -/
def decode (d : Decoder) (input : Bytes) (room : Nat) : Decoder × Bytes × Verdict :=
  let (d, left, verdict) := d.run input room
  let size := d.history.size
  (d, (d.history.extract (size - (room - left)) size).toList, verdict)

end Decoder

end GzipStream.Deflate
