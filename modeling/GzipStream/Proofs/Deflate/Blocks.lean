import GzipStream.Proofs.Deflate.Tokens

/-!
# Blocks, read back

`Written x w y` says that what a bit writer holds leads a cursor from `x` to `y`. Writing a block
of data leads it over that data (`Written.writeBlock`), whichever way the block is written.
-/

namespace GzipStream.Deflate

/-! ## Bits and octets -/

theorem bitsOfByte_ofNat : ∀ n < 256, bitsOfByte (UInt8.ofNat n) = bitsOfNat 8 n := by
  decide +kernel

theorem bitsOfNat_zero (w : Nat) : bitsOfNat w 0 = List.replicate w false := by
  induction w with
  | zero => rfl
  | succ w ih => simp [bitsOfNat, ih, List.replicate_succ]

theorem natOfBits_lt (bs : List Bool) : natOfBits bs < Nat.pow 2 bs.length := by
  induction bs with
  | nil => decide
  | cons b bs ih =>
    have hp : Nat.pow 2 (bs.length + 1) = 2 * Nat.pow 2 bs.length := Nat.pow_succ'
    have hb := b.toNat_lt
    simp only [natOfBits, List.length_cons, hp]
    omega

theorem bitsOfNat_natOfBits {bs : List Bool} {w : Nat} (h : bs.length ≤ w) :
    bitsOfNat w (natOfBits bs) = bs ++ List.replicate (w - bs.length) false := by
  induction bs generalizing w with
  | nil => exact bitsOfNat_zero w
  | cons b bs ih =>
    cases w with
    | zero => simp at h
    | succ w =>
      have hhalf : (b.toNat + 2 * natOfBits bs) / 2 = natOfBits bs := by
        have hb := b.toNat_lt
        omega
      have hlow : ((b.toNat + 2 * natOfBits bs) % 2 == 1) = b := by
        cases b <;> simp
      simp only [natOfBits, bitsOfNat, hhalf, hlow]
      rw [ih (Nat.le_of_succ_le_succ h)]
      simp

theorem bitsOfByte_octet {bs : List Bool} (h : bs.length ≤ 8) :
    bitsOfByte (BitWriter.octet bs) = bs ++ List.replicate (8 - bs.length) false := by
  have hlt : natOfBits bs < 256 := by
    have hp : Nat.pow 2 bs.length ≤ Nat.pow 2 8 := Nat.pow_le_pow_right (by decide) h
    exact Nat.lt_of_lt_of_le (natOfBits_lt bs) hp
  rw [BitWriter.octet, bitsOfByte_ofNat _ hlt, bitsOfNat_natOfBits h]

/-- The octets and the bits behind them lead from `x` to `y`. -/
def Written (x : Cursor) (w : BitWriter) (y : Cursor) : Prop :=
  ∃ z, x.Takes w.bytes.toList z ∧ z.Reads w.rest y ∧ w.rest.length < 8

section
variable {x y z : Cursor} {w : BitWriter}

/-- Bits of one octet that are all wanted. -/
theorem Cursor.Reads.byte {bs : List Bool} (h : x.Reads bs y) (hne : bs ≠ []) (hlen : bs.length ≤ 8) :
    x.mode.isOpen = true ∧
      x.byte (BitWriter.octet bs) = y.bits (List.replicate (8 - bs.length) false) := by
  have hwants : x.mode.wantsBit = true := by
    cases bs with
    | nil => exact absurd rfl hne
    | cons b bs => exact h.1
  have hbits : x.bits bs = y := h.foldl_eq
  refine ⟨Mode.isOpen_of_wantsBit hwants, ?_⟩
  rw [Cursor.byte_of_wantsBit hwants, bitsOfByte_octet hlen, Cursor.bits_append, hbits]

theorem written_pack {bytes : Array UInt8} {bs : List Bool} (ht : x.Takes bytes.toList z)
    (hr : z.Reads bs y) : Written x (BitWriter.pack bytes bs) y := by
  induction bytes, bs using BitWriter.pack.induct generalizing z with
  | case1 bytes b0 b1 b2 b3 b4 b5 b6 b7 more ih =>
    obtain ⟨hfirst, hmore⟩ : z.Reads [b0, b1, b2, b3, b4, b5, b6, b7]
        (z.bits [b0, b1, b2, b3, b4, b5, b6, b7]) ∧
        (z.bits [b0, b1, b2, b3, b4, b5, b6, b7]).Reads more y := by
      obtain ⟨h0, h1, h2, h3, h4, h5, h6, h7, h8⟩ := hr
      exact ⟨⟨h0, h1, h2, h3, h4, h5, h6, h7, rfl⟩, h8⟩
    obtain ⟨hopen, hbyte⟩ := hfirst.byte (List.cons_ne_nil _ _) (Nat.le_refl 8)
    rw [BitWriter.pack]
    refine ih ?_ hmore
    rw [Array.toList_push]
    exact ht.append ⟨hopen, hbyte⟩
  | case2 bytes bs hshort =>
    rw [BitWriter.pack]
    · refine ⟨z, ht, hr, ?_⟩
      match bs, hshort with
      | [], _ | [_], _ | [_, _], _ | [_, _, _], _ | [_, _, _, _], _ | [_, _, _, _, _], _
      | [_, _, _, _, _, _], _ | [_, _, _, _, _, _, _], _ => simp
      | b0 :: b1 :: b2 :: b3 :: b4 :: b5 :: b6 :: b7 :: more, h =>
        exact (h b0 b1 b2 b3 b4 b5 b6 b7 more rfl).elim
    · exact hshort

theorem Written.put (h : Written x w y) {bs : List Bool} (hr : y.Reads bs z) :
    Written x (w.put bs) z := by
  obtain ⟨v, ht, hrest, -⟩ := h
  exact written_pack ht (hrest.append hr)

/-- Filling the last octet, where no bit is wanted. -/
theorem Written.align (h : Written x w y) (hw : y.mode.wantsBit = false)
    (he : y.mode.emits = false) : w.align.rest = [] ∧ x.Takes w.align.bytes.toList y := by
  obtain ⟨v, ht, hrest, hlen⟩ := h
  unfold BitWriter.align
  split
  · next hempty =>
    rw [List.isEmpty_iff] at hempty
    rw [hempty] at hrest
    refine ⟨hempty, ?_⟩
    rw [← show v = y from hrest]
    exact ht
  · next hne =>
    rw [List.isEmpty_iff] at hne
    obtain ⟨hopen, hbyte⟩ := hrest.byte hne (Nat.le_of_lt hlen)
    rw [Cursor.bits_eq_self hw he] at hbyte
    refine ⟨rfl, ?_⟩
    show x.Takes (w.bytes.push (BitWriter.octet w.rest)).toList y
    rw [Array.toList_push]
    exact ht.append ⟨hopen, hbyte⟩

theorem written_putBytes {bs : Bytes} (hrest : w.rest = []) (ht : x.Takes w.bytes.toList y)
    (hbs : y.Takes bs z) : Written x (w.putBytes bs) z := by
  refine ⟨z, ?_, ?_, ?_⟩
  · show x.Takes (w.bytes ++ bs.toArray).toList z
    rw [Array.toList_append]
    exact ht.append hbs
  · show z.Reads w.rest z
    rw [hrest]
    rfl
  · show w.rest.length < 8
    rw [hrest]
    decide

end

/-! ## Stored blocks -/

namespace Cursor

variable {c : Context} {h : Array UInt8}

/-- Behind the last byte of a block. -/
def blockEnd (c : Context) (h : Array UInt8) : Cursor := ⟨c, .afterBlock c, h⟩

/-- In front of a block. -/
def between (zlib : Bool) (h : Array UInt8) : Cursor := ⟨⟨zlib, false⟩, .blockHeader {}, h⟩

theorem takes_stored {n : Nat} {bs : Bytes} (hn : bs.length = n + 1) :
    Takes ⟨c, .stored n, h⟩ bs (blockEnd c (h ++ bs)) := by
  induction bs generalizing n h with
  | nil => cases hn
  | cons b bs ih =>
    refine ⟨rfl, ?_⟩
    have hpush : h ++ (b :: bs) = h.push b ++ bs := by
      apply Array.toList_inj.mp
      simp
    rw [hpush]
    cases n with
    | zero =>
      obtain rfl : bs = [] := List.length_eq_zero_iff.mp (Nat.succ.inj hn)
      rw [Array.appendList_nil]
      rfl
    | succ n => exact ih (Nat.succ.inj hn)

theorem afterStoredHeader_eq (c : Context) (n : Nat) : n ≤ 65535 →
    Mode.afterStoredHeader c (littleEndian 2 n ++ littleEndian 2 (65535 - n)) =
      match n with
      | 0 => .afterBlock c
      | n + 1 => .stored n := by
  intro hn
  have hlow : ofLittleEndian (littleEndian 2 n) = n :=
    ofLittleEndian_littleEndian 2 n (Nat.lt_succ_of_le hn)
  have hhigh : ofLittleEndian (littleEndian 2 (65535 - n)) = 65535 - n :=
    ofLittleEndian_littleEndian 2 _ (show 65535 - n < 65536 by omega)
  have htake : (littleEndian 2 n ++ littleEndian 2 (65535 - n)).take 2 = littleEndian 2 n := rfl
  have hdrop : (littleEndian 2 n ++ littleEndian 2 (65535 - n)).drop 2 =
      littleEndian 2 (65535 - n) := rfl
  have hsum : ¬ n + (65535 - n) ≠ 65535 := by omega
  simp only [Mode.afterStoredHeader, htake, hdrop, hlow, hhigh]
  exact (if_neg hsum).trans (by cases n <;> rfl)

theorem takes_storedBytes {bs : Bytes} (hlen : bs.length ≤ 65535) :
    Takes ⟨c, .storedHeader [], h⟩
      (littleEndian 2 bs.length ++ littleEndian 2 (65535 - bs.length) ++ bs)
      (blockEnd c (h ++ bs)) := by
  have hheader : Takes ⟨c, .storedHeader [], h⟩
      (littleEndian 2 bs.length ++ littleEndian 2 (65535 - bs.length))
      ⟨c, .afterStoredHeader c (littleEndian 2 bs.length ++ littleEndian 2 (65535 - bs.length)), h⟩ :=
    ⟨rfl, rfl, rfl, rfl, rfl⟩
  rw [afterStoredHeader_eq c _ hlen] at hheader
  refine hheader.append ?_
  cases bs with
  | nil =>
    rw [Array.appendList_nil]
    rfl
  | cons b bs => exact takes_stored rfl

end Cursor

section
variable {x : Cursor} {w : BitWriter} {zlib final : Bool} {h : Array UInt8}

theorem Written.storedBlock (hw : Written x w (.between zlib h)) (final : Bool) {bs : Bytes}
    (hlen : bs.length ≤ 65535) :
    Written x (storedBlock final bs w) (.blockEnd ⟨zlib, final⟩ (h ++ bs)) := by
  have hheader : (Cursor.between zlib h).Reads [final, false, false]
      ⟨⟨zlib, final⟩, .storedHeader [], h⟩ := by
    cases final <;> exact ⟨rfl, rfl, rfl, rfl⟩
  obtain ⟨hrest, ht⟩ := (hw.put hheader).align rfl rfl
  exact written_putBytes hrest ht (Cursor.takes_storedBytes hlen)

theorem Written.fixedBlock (hw : Written x w (.between zlib h)) {body : List Bool} {h' : Array UInt8}
    (hbody : (Cursor.fixed ⟨zlib, final⟩ h).Reads body (.fixed ⟨zlib, final⟩ h')) :
    Written x (fixedBlock final body w) (.blockEnd ⟨zlib, final⟩ h') := by
  have hheader : (Cursor.between zlib h).Reads [final, true, false] (.fixed ⟨zlib, final⟩ h) := by
    cases final <;> exact ⟨rfl, rfl, rfl, rfl⟩
  exact hw.put (hheader.append (hbody.append Cursor.reads_endOfBlock))

theorem Written.writeBlock {data : Array UInt8} {first : Nat} {e : Effort}
    (hw : Written x w (.between zlib (data.extract 0 first))) (hreach : e.reach ≤ 32768)
    (hfirst : first ≤ data.size) (hlen : data.size - first ≤ 65535) :
    Written x (writeBlock e final data first w) (.blockEnd ⟨zlib, final⟩ data) := by
  simp only [Deflate.writeBlock]
  generalize hbody : (if e.level = 0 then [] else (tokenize data first e.reach).flatMap Token.bits) =
    body
  by_cases hp : e.prefersStored (data.size - first) body.length = true
  · rw [if_pos hp]
    have hshort : (data.extract first data.size).toList.length ≤ 65535 := by simpa using hlen
    have hs := hw.storedBlock final hshort
    have hdata : data.extract 0 first ++ (data.extract first data.size).toList = data := by
      apply Array.toList_inj.mp
      have htake : (data.toList.drop first).take (data.size - first) = data.toList.drop first :=
        List.take_of_length_le (by simp)
      simp [htake]
    rwa [hdata] at hs
  · have hlevel : e.level ≠ 0 := by
      intro hzero
      rw [Effort.prefersStored, hzero] at hp
      exact hp rfl
    rw [if_neg hp, ← hbody, if_neg hlevel]
    exact hw.fixedBlock (Cursor.reads_tokenize hreach hfirst)

end

end GzipStream.Deflate
