/-!
# Octet strings

Byte strings are lists of octets. A fixed-width integer is written least or most
significant octet first; `ofLittleEndian_littleEndian` says that reading undoes writing
for every number that fits, `littleEndian_ofLittleEndian` that writing undoes reading.
-/

namespace GzipStream

abbrev Bytes := List UInt8

/-- `n` in exactly `width` octets, least significant first; higher octets are dropped. -/
def littleEndian : (width : Nat) → Nat → Bytes
  | 0, _ => []
  | w + 1, n => UInt8.ofNat n :: littleEndian w (n / 256)

/-- `n` in exactly `width` octets, most significant first. -/
def bigEndian (width n : Nat) : Bytes := (littleEndian width n).reverse

def ofLittleEndian : Bytes → Nat
  | [] => 0
  | b :: bs => b.toNat + 256 * ofLittleEndian bs

@[simp] theorem length_littleEndian (w n : Nat) : (littleEndian w n).length = w := by
  induction w generalizing n with
  | zero => rfl
  | succ w ih => simp [littleEndian, ih]

theorem ofLittleEndian_littleEndian (w n : Nat) (h : n < Nat.pow 256 w) :
    ofLittleEndian (littleEndian w n) = n := by
  induction w generalizing n with
  | zero =>
    have : n = 0 := by simpa using h
    simp [this, littleEndian, ofLittleEndian]
  | succ w ih =>
    have hd : n / 256 < Nat.pow 256 w := Nat.div_lt_of_lt_mul (by rwa [Nat.mul_comm])
    simp only [littleEndian, ofLittleEndian, ih _ hd, UInt8.toNat_ofNat']
    omega

theorem littleEndian_ofLittleEndian (bs : Bytes) :
    littleEndian bs.length (ofLittleEndian bs) = bs := by
  induction bs with
  | nil => rfl
  | cons b bs ih =>
    have hb : b.toNat < 256 := b.toNat_lt
    have hlow : UInt8.ofNat (b.toNat + 256 * ofLittleEndian bs) = b := by
      apply UInt8.toNat_inj.mp
      rw [UInt8.toNat_ofNat']
      omega
    have hhigh : (b.toNat + 256 * ofLittleEndian bs) / 256 = ofLittleEndian bs := by omega
    show UInt8.ofNat (b.toNat + 256 * ofLittleEndian bs) ::
      littleEndian bs.length ((b.toNat + 256 * ofLittleEndian bs) / 256) = b :: bs
    rw [hlow, hhigh, ih]

theorem ofLittleEndian_lt (bs : Bytes) : ofLittleEndian bs < Nat.pow 256 bs.length := by
  induction bs with
  | nil => decide
  | cons b bs ih =>
    have hb : b.toNat < 256 := b.toNat_lt
    have hp : Nat.pow 256 (bs.length + 1) = 256 * Nat.pow 256 bs.length := Nat.pow_succ'
    rw [List.length_cons, hp]
    show b.toNat + 256 * ofLittleEndian bs < _
    omega

/-- The bits of an octet, least significant first. -/
def bitsOfByte (b : UInt8) : List Bool :=
  [b &&& 1 != 0, b &&& 2 != 0, b &&& 4 != 0, b &&& 8 != 0,
   b &&& 16 != 0, b &&& 32 != 0, b &&& 64 != 0, b &&& 128 != 0]

/-- The number whose bits, least significant first, are `bs`. -/
def natOfBits : List Bool → Nat
  | [] => 0
  | b :: bs => b.toNat + 2 * natOfBits bs

/-- The low `width` bits of `n`, least significant first. -/
def bitsOfNat : (width : Nat) → Nat → List Bool
  | 0, _ => []
  | w + 1, n => (n % 2 == 1) :: bitsOfNat w (n / 2)

@[simp] theorem length_bitsOfNat (w n : Nat) : (bitsOfNat w n).length = w := by
  induction w generalizing n with
  | zero => rfl
  | succ w ih => simp [bitsOfNat, ih]

end GzipStream
