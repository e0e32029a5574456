import GzipStream.Deflate.Decoder
import GzipStream.Deflate.Token
import GzipStream.Proofs.Follows

/-!
# Reading a DEFLATE stream without waiting for room

A `Cursor` takes a stream bit by bit or byte by byte and writes at once, so the bytes read so far
determine it. `Takes` and `Reads` say in addition that each byte or bit was asked for.
`Takes.modest` bounds what a stream decodes to by its length.
-/

namespace GzipStream.Deflate

namespace Mode

/-- Whether the next thing to do is to write. -/
def emits : Mode → Bool
  | .literal .. | .copy .. => true
  | _ => false

/-- Whether more input is needed. -/
def isOpen : Mode → Bool
  | .done | .failed _ | .literal .. | .copy .. => false
  | _ => true

theorem isOpen_of_wantsBit {m : Mode} (h : m.wantsBit = true) : m.isOpen = true := by
  cases m <;> first | rfl | cases h

theorem not_emits_of_isOpen {m : Mode} (h : m.isOpen = true) : m.emits = false := by
  cases m <;> first | rfl | cases h

theorem onBit_eq_self {m : Mode} (h : m.wantsBit = false) (c : Context) (b : Bool) :
    m.onBit c b = (c, m) := by
  cases m <;> first | rfl | cases h

/-- A mode that only input can move on. -/
theorem wantsBit_or_wantsByte {m : Mode} (ho : m.isOpen = true) (hs : ∀ left, m ≠ .stored left) :
    m.wantsByte = true ∧ m.wantsBit = false ∨ m.wantsByte = false ∧ m.wantsBit = true := by
  cases m with
  | stored left => exact absurd rfl (hs left)
  | _ => first | exact .inl ⟨rfl, rfl⟩ | exact .inr ⟨rfl, rfl⟩ | cases ho

theorem afterBlock_not_emits (c : Context) : (afterBlock c).emits = false := by
  unfold afterBlock
  split
  · split <;> rfl
  · rfl

theorem afterStored_not_emits (c : Context) (left : Nat) : (Decoder.afterStored c left).emits = false := by
  cases left with
  | zero => exact afterBlock_not_emits c
  | succ left => rfl

theorem onByte_not_emits (c : Context) (h : Array UInt8) {m : Mode} (hm : m.wantsByte = true)
    (b : UInt8) : (m.onByte c h b).emits = false := by
  cases m with
  | zlibHeader cmf =>
    cases cmf with
    | none => rfl
    | some cmf =>
      simp only [onByte, afterZlibHeader]
      repeat' split
      all_goals rfl
  | dictionaryId left => simp only [onByte]; split <;> rfl
  | storedHeader seen =>
    simp only [onByte, afterStoredHeader]
    split
    · rfl
    · split
      · rfl
      · split
        · exact afterBlock_not_emits c
        · rfl
  | checksum seen =>
    simp only [onByte]
    repeat' split
    all_goals rfl
  | _ => cases hm

end Mode

structure Cursor where
  context : Context
  mode : Mode
  /-- all output -/
  history : Array UInt8

namespace Cursor

/-- The beginning of a stream. -/
def start (zlib : Bool) : Cursor := ⟨⟨zlib, false⟩, .start zlib, #[]⟩

/-- Writes what is to be written. -/
def emit (c : Cursor) : Cursor :=
  match c.mode with
  | .literal codes b => ⟨c.context, .beginSymbols codes, c.history.push b⟩
  | .copy codes left distance =>
    if distance ≤ c.history.size then
      ⟨c.context, .beginSymbols codes, appendCopy c.history distance (left + 1)⟩
    else ⟨c.context, .failed .distanceTooFar, c.history⟩
  | _ => c

/-- Takes one bit; bits that nobody wants are dropped. -/
def bit (c : Cursor) (b : Bool) : Cursor :=
  emit ⟨(c.mode.onBit c.context b).1, (c.mode.onBit c.context b).2, c.history⟩

def bits (c : Cursor) (bs : List Bool) : Cursor := bs.foldl bit c

/-- Takes one byte. -/
def byte (c : Cursor) (b : UInt8) : Cursor :=
  if c.mode.wantsBit then c.bits (bitsOfByte b)
  else
    match c.mode with
    | .stored left => ⟨c.context, Decoder.afterStored c.context left, c.history.push b⟩
    | m => ⟨c.context, m.onByte c.context c.history b, c.history⟩

/-- Every bit is wanted, and the last leads to the second cursor. -/
def Reads : Cursor → List Bool → Cursor → Prop := Follows (fun c => c.mode.wantsBit) bit

/-- Every byte is asked for, and the last leads to the second cursor. -/
def Takes : Cursor → Bytes → Cursor → Prop := Follows (fun c => c.mode.isOpen) byte

@[simp] theorem bits_nil (c : Cursor) : c.bits [] = c := rfl

@[simp] theorem bits_cons (c : Cursor) (b : Bool) (bs : List Bool) :
    c.bits (b :: bs) = (c.bit b).bits bs := rfl

theorem bits_append (c : Cursor) (xs ys : List Bool) :
    c.bits (xs ++ ys) = (c.bits xs).bits ys := List.foldl_append

theorem emit_eq_self {c : Cursor} (h : c.mode.emits = false) : c.emit = c := by
  unfold emit
  split
  · next hm => rw [hm] at h; cases h
  · next hm => rw [hm] at h; cases h
  · rfl

/-- Bits that follow where none is wanted are dropped. -/
theorem bits_eq_self {c : Cursor} (hw : c.mode.wantsBit = false) (he : c.mode.emits = false)
    (bs : List Bool) : c.bits bs = c := by
  induction bs with
  | nil => rfl
  | cons b bs ih =>
    have hb : c.bit b = c := by
      unfold bit
      rw [Mode.onBit_eq_self hw]
      exact emit_eq_self he
    rw [bits_cons, hb, ih]

theorem byte_of_wantsBit {c : Cursor} (h : c.mode.wantsBit = true) (b : UInt8) :
    c.byte b = c.bits (bitsOfByte b) := if_pos h

theorem not_emits_emit (c : Cursor) : c.emit.mode.emits = false := by
  unfold emit
  split
  · rfl
  · split <;> rfl
  · next hliteral hcopy =>
    cases hm : c.mode with
    | literal codes b => exact absurd hm (hliteral codes b)
    | copy codes left distance => exact absurd hm (hcopy codes left distance)
    | _ => rfl

theorem not_emits_bits {c : Cursor} (h : c.mode.emits = false) (bs : List Bool) :
    (c.bits bs).mode.emits = false := by
  induction bs generalizing c with
  | nil => exact h
  | cons b bs ih => exact ih (not_emits_emit _)

/-- A byte leaves nothing to be written. -/
theorem not_emits_byte {c : Cursor} (h : c.mode.isOpen = true) (b : UInt8) :
    (c.byte b).mode.emits = false := by
  unfold byte
  split
  · exact not_emits_bits (Mode.not_emits_of_isOpen h) _
  · next hbit =>
    split
    · exact Mode.afterStored_not_emits _ _
    · next hstored =>
      rcases Mode.wantsBit_or_wantsByte h hstored with ⟨hw, -⟩ | ⟨-, hw⟩
      · exact Mode.onByte_not_emits _ _ hw b
      · exact absurd hw hbit

end Cursor

/-! ## Output only grows -/

theorem prefix_push (h : Array UInt8) (b : UInt8) : h.toList <+: (h.push b).toList := by
  rw [Array.toList_push]
  exact List.prefix_append _ _

theorem prefix_appendCopy (h : Array UInt8) (distance n : Nat) :
    h.toList <+: (appendCopy h distance n).toList := by
  induction n generalizing h with
  | zero => exact List.prefix_rfl
  | succ n ih => exact (prefix_push h _).trans (ih _)

namespace Cursor

theorem prefix_emit (c : Cursor) : c.history.toList <+: c.emit.history.toList := by
  unfold emit
  split
  · exact prefix_push _ _
  · split
    · exact prefix_appendCopy _ _ _
    · exact List.prefix_rfl
  · exact List.prefix_rfl

theorem prefix_bit (c : Cursor) (b : Bool) : c.history.toList <+: (c.bit b).history.toList :=
  prefix_emit ⟨(c.mode.onBit c.context b).1, (c.mode.onBit c.context b).2, c.history⟩

theorem prefix_bits (c : Cursor) (bs : List Bool) :
    c.history.toList <+: (c.bits bs).history.toList := by
  induction bs generalizing c with
  | nil => exact List.prefix_rfl
  | cons b bs ih => exact (prefix_bit c b).trans (ih _)

theorem prefix_byte (c : Cursor) (b : UInt8) : c.history.toList <+: (c.byte b).history.toList := by
  unfold byte
  split
  · exact prefix_bits _ _
  · split
    · exact prefix_push _ _
    · exact List.prefix_rfl

end Cursor

/-! ## How much one byte can stand for -/

/-- Most bytes that the field being read or written can still stand for. -/
def Mode.owes : Mode → Nat
  | .lengthExtra _ r f => r.base + f.value + (Nat.pow 2 (max r.extra (f.got + 1)) - Nat.pow 2 f.got)
  | .distance _ n _ | .distanceExtra _ n _ _ => n
  | .literal .. => 1
  | .copy _ left _ => left + 1
  | _ => 0

namespace Mode

theorem lengthRange_le {s : Nat} {r : Range} (h : lengthRange? s = some r) :
    r.base + Nat.pow 2 r.extra ≤ maxCopy + 1 := by
  have hall : ∀ r ∈ lengthRanges, r.base + Nat.pow 2 r.extra ≤ maxCopy + 1 := by decide
  unfold lengthRange? at h
  split at h
  · exact hall r (List.mem_of_getElem? h)
  · cases h

theorem owes_onSymbol (c : Context) (codes : Codes) (s : Nat) :
    (onSymbol c codes s).owes ≤ maxCopy := by
  unfold onSymbol
  split
  · show 1 ≤ maxCopy
    decide
  · split
    · unfold afterBlock
      repeat' split
      all_goals exact Nat.zero_le _
    · split
      · exact Nat.zero_le _
      · next r hr =>
        have hle := lengthRange_le hr
        split
        · next he => rw [he] at hle; exact Nat.le_of_succ_le_succ hle
        · next he =>
          have hm : max r.extra (0 + 1) = r.extra := by omega
          have hp : 0 < Nat.pow 2 r.extra := Nat.pow_pos (by decide)
          have h0 : Nat.pow 2 0 = 1 := rfl
          simp only [owes, Nat.add_zero, hm]
          omega

theorem owes_lengthExtra (codes : Codes) (r : Range) (f : Field) (b : Bool) :
    (if (f.push b).got < r.extra then lengthExtra codes r (f.push b)
      else onLength codes (r.base + (f.push b).value)).owes ≤ (lengthExtra codes r f).owes := by
  have hv : (f.push b).value ≤ f.value + Nat.pow 2 f.got := by
    unfold Field.push
    cases b <;> simp
  have hg : (f.push b).got = f.got + 1 := rfl
  have hp : Nat.pow 2 (f.got + 1) = 2 * Nat.pow 2 f.got := Nat.pow_succ'
  rw [hg]
  split
  · next hlt =>
    have h1 : max r.extra (f.got + 1) = r.extra := by omega
    have h2 : max r.extra (f.got + 1 + 1) = r.extra := by omega
    have h3 : Nat.pow 2 (f.got + 1) ≤ Nat.pow 2 r.extra :=
      Nat.pow_le_pow_right (by decide) (by omega)
    simp only [owes, hg, h1, h2]
    omega
  · next hge =>
    have h1 : max r.extra (f.got + 1) = f.got + 1 := by omega
    simp only [owes, onLength, h1]
    omega

theorem owes_nextCodeLength (n : Counts) (code : Huffman.Tree) (seen : Array Nat) :
    (nextCodeLength n code seen).owes = 0 := by
  simp only [nextCodeLength, afterCodeLengths]
  repeat' split
  all_goals rfl

theorem owes_onDistance (codes : Codes) {n : Nat} (hn : n ≤ maxCopy) (distance : Nat) :
    (onDistance codes n distance).owes ≤ maxCopy := by
  show n - 1 + 1 ≤ maxCopy
  have : 1 ≤ maxCopy := by decide
  omega

@[simp] theorem owes_beginSymbols (codes : Codes) : (beginSymbols codes).owes = 0 := rfl

theorem owes_onBlockHeader (zlib : Bool) (n : Nat) : (onBlockHeader zlib n).2.owes = 0 := by
  simp only [onBlockHeader]
  split
  · rfl
  · exact owes_beginSymbols _
  · rfl
  · rfl

theorem owes_afterCodeLengthLengths (n : Counts) (sent : List Nat) :
    (afterCodeLengthLengths n sent).owes = 0 := by
  unfold afterCodeLengthLengths
  cases codeLengthTree? (orderedLengths sent) <;> rfl

theorem owes_onBit {m : Mode} (hm : m.owes ≤ maxCopy) (c : Context) (b : Bool) :
    (m.onBit c b).2.owes ≤ maxCopy := by
  cases m with
  | blockHeader f =>
    simp only [onBit]
    split
    · exact Nat.zero_le _
    · rw [owes_onBlockHeader]
      exact Nat.zero_le _
  | counts f =>
    simp only [onBit, afterCounts]
    repeat' split
    all_goals exact Nat.zero_le _
  | codeLengthLengths n seen f =>
    simp only [onBit]
    split
    · exact Nat.zero_le _
    · split
      · exact Nat.zero_le _
      · rw [owes_afterCodeLengthLengths]
        exact Nat.zero_le _
  | codeLengths n code node seen =>
    simp only [onBit, onCodeLength]
    repeat' split
    all_goals first | exact Nat.zero_le _ | exact owes_nextCodeLength .. ▸ Nat.zero_le _
  | repeated n code seen run f =>
    simp only [onBit, onRepeat]
    repeat' split
    all_goals first | exact Nat.zero_le _ | exact owes_nextCodeLength .. ▸ Nat.zero_le _
  | symbol codes node =>
    simp only [onBit]
    repeat' split
    all_goals first | exact Nat.zero_le _ | exact owes_onSymbol ..
  | lengthExtra codes r f => exact Nat.le_trans (owes_lengthExtra codes r f b) hm
  | distance codes n node =>
    simp only [onBit, onDistanceSymbol]
    repeat' split
    all_goals first | exact Nat.zero_le _ | exact hm | exact owes_onDistance codes hm _
  | distanceExtra codes n r f =>
    simp only [onBit]
    split
    · exact hm
    · exact owes_onDistance codes hm _
  | _ => exact hm

theorem owes_onByte {m : Mode} (hm : m.owes ≤ maxCopy) (c : Context) (h : Array UInt8) (b : UInt8) :
    (m.onByte c h b).owes ≤ maxCopy := by
  cases m with
  | zlibHeader cmf =>
    cases cmf with
    | none => exact hm
    | some cmf =>
      simp only [onByte, afterZlibHeader]
      repeat' split
      all_goals exact Nat.zero_le _
  | storedHeader seen =>
    simp only [onByte, afterStoredHeader, afterBlock]
    repeat' split
    all_goals exact Nat.zero_le _
  | dictionaryId left =>
    simp only [onByte]
    split <;> exact Nat.zero_le _
  | checksum seen =>
    simp only [onByte]
    repeat' split
    all_goals exact Nat.zero_le _
  | _ => exact hm

end Mode

theorem size_appendCopy (h : Array UInt8) (distance n : Nat) :
    (appendCopy h distance n).size = h.size + n := by
  induction n generalizing h with
  | zero => rfl
  | succ n ih => rw [appendCopy, ih, Array.size_push]; omega

namespace Cursor

/-- No field owes more than the longest copy. -/
def Modest (c : Cursor) : Prop := c.mode.owes ≤ maxCopy

theorem modest_start (zlib : Bool) : (start zlib).Modest := by cases zlib <;> exact Nat.zero_le _

theorem Modest.emit {c : Cursor} (hc : c.Modest) :
    c.emit.Modest ∧ c.emit.history.size ≤ c.history.size + maxCopy := by
  have h1 : 1 ≤ maxCopy := by decide
  unfold Cursor.emit
  split
  · exact ⟨Nat.zero_le _, by rw [Array.size_push]; omega⟩
  · next codes left distance hm =>
    unfold Modest at hc
    rw [hm] at hc
    split
    · refine ⟨Nat.zero_le _, ?_⟩
      simp only [size_appendCopy]
      exact Nat.add_le_add_left hc _
    · exact ⟨Nat.zero_le _, Nat.le_add_right _ _⟩
  · exact ⟨hc, Nat.le_add_right _ _⟩

theorem Modest.bits {c : Cursor} (hc : c.Modest) (bs : List Bool) :
    (c.bits bs).Modest ∧ (c.bits bs).history.size ≤ c.history.size + bs.length * maxCopy := by
  induction bs generalizing c with
  | nil => exact ⟨hc, Nat.le_add_right _ _⟩
  | cons b bs ih =>
    have hb : (c.bit b).Modest ∧ (c.bit b).history.size ≤ c.history.size + maxCopy :=
      Modest.emit (c := ⟨_, _, c.history⟩) (Mode.owes_onBit hc c.context b)
    obtain ⟨h1, h2⟩ := ih hb.1
    refine ⟨h1, Nat.le_trans h2 ?_⟩
    rw [List.length_cons, Nat.succ_mul]
    omega

/-- Most bytes that one byte of input stands for. -/
def mostPerByte : Nat := 8 * maxCopy

theorem Modest.byte {c : Cursor} (hc : c.Modest) (b : UInt8) :
    (c.byte b).Modest ∧ (c.byte b).history.size ≤ c.history.size + mostPerByte := by
  unfold Cursor.byte
  split
  · exact hc.bits (bitsOfByte b)
  · split
    · next left hm =>
      constructor
      · unfold Modest Decoder.afterStored Mode.afterBlock
        repeat' split
        all_goals exact Nat.zero_le _
      · rw [Array.size_push]
        exact Nat.add_le_add_left (by decide) _
    · exact ⟨Mode.owes_onByte hc _ _ _, Nat.le_add_right _ _⟩

theorem Takes.modest {c c' : Cursor} {bs : Bytes} (h : c.Takes bs c') (hc : c.Modest) :
    c'.Modest ∧ c'.history.size ≤ c.history.size + bs.length * mostPerByte := by
  induction bs generalizing c with
  | nil => rw [← show c = c' from h]; exact ⟨hc, Nat.le_add_right _ _⟩
  | cons b bs ih =>
    obtain ⟨h1, h2⟩ := hc.byte b
    obtain ⟨h3, h4⟩ := ih h.2 h1
    refine ⟨h3, Nat.le_trans h4 ?_⟩
    rw [List.length_cons, Nat.succ_mul]
    omega

end Cursor

end GzipStream.Deflate
