import GzipStream.Bytes
import GzipStream.Error
import GzipStream.Text.Hex

/-!
# Gzip member trailers

The CRC-32 of the payload and its length modulo 2^32, four bytes each, least significant first.
-/

namespace GzipStream.Trailer

/-- Why a trailer is refused. -/
inductive Mismatch
  | crc (stored computed : UInt32)
  | size (stored counted : UInt32)
  deriving DecidableEq, Repr, Inhabited

def Mismatch.message : Mismatch → String
  | crc s c => "CRC mismatch: expected " ++ Hex.prefixed 1 s.toNat ++ ", computed "
      ++ Hex.prefixed 1 c.toNat
  | size s c => s!"size mismatch: expected {s.toNat}, got {c.toNat}"

def Mismatch.toError (m : Mismatch) : Error := .dataCorrupt m.message

def encode (crc size : UInt32) : Bytes := littleEndian 4 crc.toNat ++ littleEndian 4 size.toNat

/-- Compares eight trailer bytes with the checksum and the size of the payload. -/
def verify (trailer : Bytes) (crc size : UInt32) : Except Mismatch Unit :=
  let storedCrc := UInt32.ofNat (ofLittleEndian (trailer.take 4))
  let storedSize := UInt32.ofNat (ofLittleEndian (trailer.drop 4))
  if storedCrc ≠ crc then .error (.crc storedCrc crc)
  else if storedSize ≠ size then .error (.size storedSize size)
  else .ok ()

/-- The eight bytes of a trailer as they come in; those behind the first `count` are left over from
an earlier one. -/
structure Buffer where
  bytes : Bytes := .replicate 8 0
  count : Nat := 0
  length_eq : bytes.length = 8 := by rfl
  count_le : count ≤ 8 := by decide
  deriving DecidableEq, Repr

namespace Buffer

instance : Inhabited Buffer := ⟨{}⟩

/-- What came in so far. -/
def seen (b : Buffer) : Bytes := b.bytes.take b.count

/-- As much of the input as the trailer still lacks. -/
def wanted (b : Buffer) (input : Bytes) : Bytes := input.take (8 - b.count)

theorem length_wanted (b : Buffer) (input : Bytes) :
    (b.wanted input).length = min (8 - b.count) input.length := List.length_take

@[simp] theorem length_seen (b : Buffer) : b.seen.length = b.count := by
  have h := b.length_eq
  have hc := b.count_le
  rw [seen, List.length_take]
  omega

/-- Puts what is wanted of the input behind what came in so far. -/
def fill (b : Buffer) (input : Bytes) : Buffer where
  bytes := b.seen ++ b.wanted input ++ b.bytes.drop (b.count + (b.wanted input).length)
  count := b.count + (b.wanted input).length
  length_eq := by
    have h := b.length_eq
    have hc := b.count_le
    have hw := b.length_wanted input
    simp only [List.length_append, List.length_drop, length_seen]
    omega
  count_le := by
    have hc := b.count_le
    have hw := b.length_wanted input
    omega

@[simp] theorem seen_fill (b : Buffer) (input : Bytes) :
    (b.fill input).seen = b.seen ++ b.wanted input :=
  List.take_left' (by rw [List.length_append, length_seen]; rfl)

/-- A full buffer holds nothing else. -/
theorem seen_of_full {b : Buffer} (h : b.count = 8) : b.seen = b.bytes :=
  List.take_of_length_le (Nat.le_of_eq (b.length_eq.trans h.symm))

theorem wanted_of_full {b : Buffer} (h : b.count = 8) (input : Bytes) : b.wanted input = [] := by
  rw [wanted, h]
  rfl

theorem fill_of_full {b : Buffer} (h : b.count = 8) (input : Bytes) : b.fill input = b := by
  cases b with
  | mk bytes count length_eq count_le =>
    simp only [fill, wanted_of_full h, List.append_nil, List.length_nil, Nat.add_zero, seen,
      List.take_append_drop]

/-- Starts anew; the bytes stay. -/
def clear (b : Buffer) : Buffer := { b with count := 0, count_le := Nat.zero_le 8 }

end Buffer

end GzipStream.Trailer
