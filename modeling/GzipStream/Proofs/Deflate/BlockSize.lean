import GzipStream.Proofs.Deflate.Tokens
import GzipStream.Deflate.Block

/-!
# How long blocks get

A token takes at most eleven bits for every byte that it stands for (`length_bits_tokenAt`): nine for
a byte as it is, and thirty-two for a copy, which is of three bytes at least. So a block is at most
eleven bits for each of its bytes long, and a few octets (`count_writeBlock`).
-/

namespace GzipStream.Deflate

namespace BitWriter

/-- How many bits were written. -/
def count (w : BitWriter) : Nat := 8 * w.bytes.size + w.rest.length

theorem count_pack (bytes : Array UInt8) (bs : List Bool) :
    (pack bytes bs).count = 8 * bytes.size + bs.length := by
  induction bytes, bs using pack.induct with
  | case1 bytes b0 b1 b2 b3 b4 b5 b6 b7 more ih =>
    rw [pack, ih, Array.size_push]
    simp only [List.length_cons]
    omega
  | case2 bytes bs hshort =>
    rw [pack]
    · rfl
    · exact hshort

theorem count_put (w : BitWriter) (bs : List Bool) : (w.put bs).count = w.count + bs.length := by
  rw [put, count_pack, List.length_append, ← Nat.add_assoc]
  rfl

theorem count_align (w : BitWriter) : w.align.count ≤ w.count + 7 := by
  unfold align
  split
  · exact Nat.le_add_right _ _
  · next hrest =>
    have hpos : 0 < w.rest.length := List.length_pos_iff.mpr fun hnil => hrest (by simp [hnil])
    simp only [count, Array.size_push, List.length_nil]
    omega

theorem count_putBytes (w : BitWriter) (bs : Bytes) :
    (w.putBytes bs).count = w.count + 8 * bs.length := by
  simp only [count, putBytes, Array.size_append, List.size_toArray]
  omega

end BitWriter

/-! ## Tokens -/

@[simp] theorem length_codeWord (width n : Nat) : (codeWord width n).length = width := by
  rw [codeWord, List.length_reverse, length_bitsOfNat]

theorem length_fixedLiteralWord (symbol : Nat) : (fixedLiteralWord symbol).length ≤ 9 := by
  unfold fixedLiteralWord
  repeat' split
  all_goals simp

theorem extra_symbolFor {ranges : List Range} {most : Nat} (h : ∀ r ∈ ranges, r.extra ≤ most)
    (n : Nat) : (symbolFor ranges n).2.extra ≤ most := by
  unfold symbolFor
  simp only
  split
  · next r i hlast =>
    have hmem := List.mem_filter.mp (List.mem_of_getLast? hlast)
    exact h r (List.fst_mem_of_mem_zipIdx hmem.1)
  · exact Nat.zero_le _

theorem length_lengthBits (n : Nat) : (lengthBits n).length ≤ 14 := by
  have hextra : (symbolFor lengthRanges n).2.extra ≤ 5 := extra_symbolFor (by decide) n
  have hword := length_fixedLiteralWord (257 + (symbolFor lengthRanges n).1)
  simp only [lengthBits, List.length_append, length_bitsOfNat]
  omega

theorem length_distanceBits (d : Nat) : (distanceBits d).length ≤ 18 := by
  have hextra : (symbolFor distanceRanges d).2.extra ≤ 13 := extra_symbolFor (by decide) d
  simp only [distanceBits, fixedDistanceWord, List.length_append, length_bitsOfNat, length_codeWord]
  omega

theorem length_bits_tokenAt (data : Array UInt8) (reach i j : Nat) :
    (tokenAt data reach i j).bits.length ≤ 11 * (tokenAt data reach i j).length := by
  unfold tokenAt
  split
  · next h =>
    have h3 : minCopy = 3 := rfl
    have hlength := length_lengthBits (agreement data i j (copyLimit data i))
    have hdistance := length_distanceBits (i - j)
    simp only [Token.bits, Token.length, List.length_append]
    omega
  · have hword := length_fixedLiteralWord (data.getD i 0).toNat
    simp only [Token.bits, Token.length]
    omega

theorem length_bits_tokenizeFrom (data : Array UInt8) (reach most : Nat) (f : Finder) (i : Nat)
    (found : Array Token) :
    ((tokenizeFrom data reach most f i found).toList.flatMap Token.bits).length ≤
      (found.toList.flatMap Token.bits).length + 11 * (data.size - i) := by
  induction most generalizing f i found with
  | zero => exact Nat.le_add_right _ _
  | succ most ih =>
    unfold tokenizeFrom
    split
    · exact Nat.le_add_right _ _
    · next hlt =>
      obtain ⟨-, hle⟩ := length_tokenAt reach (Nat.lt_of_not_le hlt)
        (f.propose data reach i (copyLimit data i))
      have hbits := length_bits_tokenAt data reach i (f.propose data reach i (copyLimit data i))
      simp only
      generalize tokenAt data reach i (f.propose data reach i (copyLimit data i)) = t at *
      have hrest := ih (f.noteAll data i t.length) (i + t.length) (found.push t)
      simp only [Array.toList_push, List.flatMap_append, List.flatMap_singleton,
        List.length_append] at hrest
      omega

theorem length_bits_tokenize (data : Array UInt8) (first reach : Nat) :
    ((tokenize data first reach).flatMap Token.bits).length ≤ 11 * (data.size - first) := by
  unfold tokenize
  have h := length_bits_tokenizeFrom data reach (data.size - first)
    ((Finder.start (first - reach) (min data.size 32768)).noteAll data (first - reach)
      (first - (first - reach))) first #[]
  rwa [List.flatMap_nil, List.length_nil, Nat.zero_add] at h

/-! ## Blocks -/

theorem count_storedBlock (final : Bool) (bs : Bytes) (w : BitWriter) :
    (storedBlock final bs w).count ≤ w.count + 8 * bs.length + 42 := by
  have hput := w.count_put [final, false, false]
  have halign := (w.put [final, false, false]).count_align
  have h3 : [final, false, false].length = 3 := rfl
  rw [storedBlock, BitWriter.count_putBytes]
  simp only [List.length_append, length_littleEndian]
  omega

theorem count_fixedBlock (final : Bool) (body : List Bool) (w : BitWriter) :
    (fixedBlock final body w).count ≤ w.count + body.length + 12 := by
  have hword := length_fixedLiteralWord endOfBlock
  rw [fixedBlock, BitWriter.count_put]
  simp only [List.length_cons, List.length_append]
  omega

theorem count_writeBlock (e : Effort) (final : Bool) (data : Array UInt8) (first : Nat)
    (w : BitWriter) :
    (writeBlock e final data first w).count ≤ w.count + 11 * (data.size - first) + 42 := by
  unfold writeBlock
  simp only
  generalize hbody : (if e.level = 0 then [] else (tokenize data first e.reach).flatMap Token.bits) =
    body
  have hlen : body.length ≤ 11 * (data.size - first) := by
    rw [← hbody]
    split
    · exact Nat.zero_le _
    · exact length_bits_tokenize data first e.reach
  split
  · have hstored := count_storedBlock final (data.extract first data.size).toList w
    rw [Array.length_toList, Array.size_extract, Nat.min_self] at hstored
    omega
  · have hfixed := count_fixedBlock final body w
    omega

end GzipStream.Deflate
