import GzipStream.Header.Basic
import GzipStream.Text.LossyUtf8

/-!
# Well-formed text

Reading the UTF-8 octets of a text gives the text back (`decode_utf8Bytes`): lossy reading loses
nothing where there is nothing to replace. And it makes up no zeros: where the octets have none, the
text that is read has none either (`zero_not_mem_decode`).
-/

namespace GzipStream

namespace LossyUtf8

variable {n v : Nat} {bs rest : Bytes} {a b : UInt8}

/-! ## Octets as numbers -/

theorem toNat_octet (h : n < 256) : (UInt8.ofNat n).toNat = n := UInt8.toNat_ofNat_of_lt h

theorem octet_le (h : n < 256) {b : UInt8} : UInt8.ofNat n ≤ b ↔ n ≤ b.toNat := by
  rw [UInt8.le_iff_toNat_le, toNat_octet h]

theorem le_octet (h : n < 256) {b : UInt8} : b ≤ UInt8.ofNat n ↔ b.toNat ≤ n := by
  rw [UInt8.le_iff_toNat_le, toNat_octet h]

theorem octet_lt (h : n < 256) {b : UInt8} : UInt8.ofNat n < b ↔ n < b.toNat := by
  rw [UInt8.lt_iff_toNat_lt, toNat_octet h]

theorem octet_beq (h : n < 256) {b : UInt8} : (UInt8.ofNat n == b) = true ↔ n = b.toNat := by
  rw [beq_iff_eq, ← UInt8.toNat_inj, toNat_octet h]

/-- Whether an octet lies between two bounds. -/
theorem octet_between (h : n < 256) {a b : UInt8} :
    (decide (a ≤ UInt8.ofNat n) && decide (UInt8.ofNat n ≤ b)) = true ↔ a.toNat ≤ n ∧ n ≤ b.toNat := by
  rw [Bool.and_eq_true, decide_eq_true_eq, decide_eq_true_eq, octet_le h, le_octet h]

/-! ## Octets behind the first -/

theorem isContinuation_octet (n : Nat) : isContinuation (UInt8.ofNat (n % 64 + 128)) = true := by
  refine (octet_between (by omega)).mpr ?_
  show 128 ≤ n % 64 + 128 ∧ n % 64 + 128 ≤ 191
  omega

theorem payload_octet (n : Nat) : payload (UInt8.ofNat (n % 64 + 128)) = n % 64 := by
  rw [payload, toNat_octet (by omega)]
  omega

theorem isSecondOfThree_octet (h1 : 2047 < v) (h2 : v < 0xd800 ∨ 0xdfff < v) (h3 : v ≤ 65535) :
    isSecondOfThree (UInt8.ofNat (v / 4096 % 16 + 224)) (UInt8.ofNat (v / 64 % 64 + 128)) = true := by
  have hlead : v / 4096 % 16 + 224 < 256 := by omega
  have hsecond : v / 64 % 64 + 128 < 256 := by omega
  unfold isSecondOfThree
  split
  · next hfirst =>
    have hv : v / 4096 % 16 + 224 = 224 := (octet_beq hlead).mp hfirst
    refine (octet_between hsecond).mpr ?_
    show 160 ≤ v / 64 % 64 + 128 ∧ v / 64 % 64 + 128 ≤ 191
    omega
  · split
    · next hlast =>
      have hv : v / 4096 % 16 + 224 = 237 := (octet_beq hlead).mp hlast
      refine (octet_between hsecond).mpr ?_
      show 128 ≤ v / 64 % 64 + 128 ∧ v / 64 % 64 + 128 ≤ 159
      omega
    · exact isContinuation_octet _

theorem isSecondOfFour_octet (h1 : 65535 < v) (h2 : v < 0x110000) :
    isSecondOfFour (UInt8.ofNat (v / 262144 % 8 + 240)) (UInt8.ofNat (v / 4096 % 64 + 128)) = true := by
  have hlead : v / 262144 % 8 + 240 < 256 := by omega
  have hsecond : v / 4096 % 64 + 128 < 256 := by omega
  unfold isSecondOfFour
  split
  · next hfirst =>
    have hv : v / 262144 % 8 + 240 = 240 := (octet_beq hlead).mp hfirst
    refine (octet_between hsecond).mpr ?_
    show 144 ≤ v / 4096 % 64 + 128 ∧ v / 4096 % 64 + 128 ≤ 191
    omega
  · split
    · next hlast =>
      have hv : v / 262144 % 8 + 240 = 244 := (octet_beq hlead).mp hlast
      refine (octet_between hsecond).mpr ?_
      show 128 ≤ v / 4096 % 64 + 128 ∧ v / 4096 % 64 + 128 ≤ 143
      omega
    · exact isContinuation_octet _

/-! ## Characters of one to four octets -/

theorem decodeChars_one (h : v ≤ 127) :
    decodeChars (UInt8.ofNat v :: rest) = Char.ofNat v :: decodeChars rest := by
  have hv : v < 256 := by omega
  have hlt : UInt8.ofNat v < 0x80 := (octet_lt hv).mpr (Nat.lt_succ_of_le h)
  rw [decodeChars.eq_def]
  simp only [if_pos hlt, toNat_octet hv]

theorem decodeChars_two (h1 : 127 < v) (h2 : v ≤ 2047) :
    decodeChars (UInt8.ofNat (v / 64 % 32 + 192) :: UInt8.ofNat (v % 64 + 128) :: rest) =
      Char.ofNat v :: decodeChars rest := by
  have hlead : v / 64 % 32 + 192 < 256 := by omega
  have hlt : ¬ UInt8.ofNat (v / 64 % 32 + 192) < 0x80 := by
    rw [octet_lt hlead]
    show ¬ v / 64 % 32 + 192 < 128
    omega
  have htwo : (0xc2 ≤ UInt8.ofNat (v / 64 % 32 + 192) &&
      UInt8.ofNat (v / 64 % 32 + 192) ≤ 0xdf) = true := by
    rw [octet_between hlead]
    show 194 ≤ v / 64 % 32 + 192 ∧ v / 64 % 32 + 192 ≤ 223
    omega
  have hvalue : (v / 64 % 32 + 192) % 32 * 64 + v % 64 = v := by omega
  rw [decodeChars.eq_def]
  simp only [if_neg hlt, if_pos htwo, isContinuation_octet, if_true, payload_octet,
    toNat_octet hlead, hvalue]

theorem decodeChars_three (h1 : 2047 < v) (h2 : v < 0xd800 ∨ 0xdfff < v) (h3 : v ≤ 65535) :
    decodeChars (UInt8.ofNat (v / 4096 % 16 + 224) :: UInt8.ofNat (v / 64 % 64 + 128) ::
      UInt8.ofNat (v % 64 + 128) :: rest) = Char.ofNat v :: decodeChars rest := by
  have hlead : v / 4096 % 16 + 224 < 256 := by omega
  have hlt : ¬ UInt8.ofNat (v / 4096 % 16 + 224) < 0x80 := by
    rw [octet_lt hlead]
    show ¬ v / 4096 % 16 + 224 < 128
    omega
  have htwo : ¬ (0xc2 ≤ UInt8.ofNat (v / 4096 % 16 + 224) &&
      UInt8.ofNat (v / 4096 % 16 + 224) ≤ 0xdf) = true := by
    rw [octet_between hlead]
    show ¬ (194 ≤ v / 4096 % 16 + 224 ∧ v / 4096 % 16 + 224 ≤ 223)
    omega
  have hthree : (0xe0 ≤ UInt8.ofNat (v / 4096 % 16 + 224) &&
      UInt8.ofNat (v / 4096 % 16 + 224) ≤ 0xef) = true := by
    rw [octet_between hlead]
    show 224 ≤ v / 4096 % 16 + 224 ∧ v / 4096 % 16 + 224 ≤ 239
    omega
  have hvalue : (v / 4096 % 16 + 224) % 16 * 4096 + v / 64 % 64 * 64 + v % 64 = v := by omega
  rw [decodeChars.eq_def]
  simp only [if_neg hlt, if_neg htwo, if_pos hthree, isSecondOfThree_octet h1 h2 h3,
    isContinuation_octet, Bool.not_true, Bool.false_eq_true, if_false, if_true, payload_octet,
    toNat_octet hlead, hvalue]

theorem decodeChars_four (h1 : 65535 < v) (h2 : v < 0x110000) :
    decodeChars (UInt8.ofNat (v / 262144 % 8 + 240) :: UInt8.ofNat (v / 4096 % 64 + 128) ::
      UInt8.ofNat (v / 64 % 64 + 128) :: UInt8.ofNat (v % 64 + 128) :: rest) =
        Char.ofNat v :: decodeChars rest := by
  have hlead : v / 262144 % 8 + 240 < 256 := by omega
  have hlt : ¬ UInt8.ofNat (v / 262144 % 8 + 240) < 0x80 := by
    rw [octet_lt hlead]
    show ¬ v / 262144 % 8 + 240 < 128
    omega
  have htwo : ¬ (0xc2 ≤ UInt8.ofNat (v / 262144 % 8 + 240) &&
      UInt8.ofNat (v / 262144 % 8 + 240) ≤ 0xdf) = true := by
    rw [octet_between hlead]
    show ¬ (194 ≤ v / 262144 % 8 + 240 ∧ v / 262144 % 8 + 240 ≤ 223)
    omega
  have hthree : ¬ (0xe0 ≤ UInt8.ofNat (v / 262144 % 8 + 240) &&
      UInt8.ofNat (v / 262144 % 8 + 240) ≤ 0xef) = true := by
    rw [octet_between hlead]
    show ¬ (224 ≤ v / 262144 % 8 + 240 ∧ v / 262144 % 8 + 240 ≤ 239)
    omega
  have hfour : (0xf0 ≤ UInt8.ofNat (v / 262144 % 8 + 240) &&
      UInt8.ofNat (v / 262144 % 8 + 240) ≤ 0xf4) = true := by
    rw [octet_between hlead]
    show 240 ≤ v / 262144 % 8 + 240 ∧ v / 262144 % 8 + 240 ≤ 244
    omega
  have hvalue : (v / 262144 % 8 + 240) % 8 * 262144 + v / 4096 % 64 * 4096 + v / 64 % 64 * 64 +
      v % 64 = v := by omega
  rw [decodeChars.eq_def]
  simp only [if_neg hlt, if_neg htwo, if_neg hthree, if_pos hfour, isSecondOfFour_octet h1 h2,
    isContinuation_octet, Bool.not_true, Bool.false_eq_true, if_false, if_true, payload_octet,
    toNat_octet hlead, hvalue]

theorem utf8EncodeChar_eq (c : Char) : String.utf8EncodeChar c =
    if c.toNat ≤ 127 then [UInt8.ofNat c.toNat]
    else if c.toNat ≤ 2047 then
      [UInt8.ofNat (c.toNat / 64 % 32 + 192), UInt8.ofNat (c.toNat % 64 + 128)]
    else if c.toNat ≤ 65535 then
      [UInt8.ofNat (c.toNat / 4096 % 16 + 224), UInt8.ofNat (c.toNat / 64 % 64 + 128),
        UInt8.ofNat (c.toNat % 64 + 128)]
    else
      [UInt8.ofNat (c.toNat / 262144 % 8 + 240), UInt8.ofNat (c.toNat / 4096 % 64 + 128),
        UInt8.ofNat (c.toNat / 64 % 64 + 128), UInt8.ofNat (c.toNat % 64 + 128)] := rfl

theorem decodeChars_character (c : Char) (rest : Bytes) :
    decodeChars (String.utf8EncodeChar c ++ rest) = c :: decodeChars rest := by
  have hvalid : c.toNat < 0xd800 ∨ 0xdfff < c.toNat ∧ c.toNat < 0x110000 := c.valid
  suffices h : decodeChars (String.utf8EncodeChar c ++ rest) = Char.ofNat c.toNat :: decodeChars rest by
    rwa [Char.ofNat_toNat] at h
  rw [utf8EncodeChar_eq]
  split
  · next h1 => exact decodeChars_one h1
  · split
    · next h1 h2 => exact decodeChars_two (by omega) h2
    · split
      · next h2 h3 => exact decodeChars_three (by omega) (by omega) h3
      · exact decodeChars_four (by omega) (by omega)

theorem decodeChars_characters (cs : List Char) :
    decodeChars (cs.flatMap String.utf8EncodeChar) = cs := by
  induction cs with
  | nil => rw [List.flatMap_nil, decodeChars]
  | cons c cs ih => rw [List.flatMap_cons, decodeChars_character, ih]

/-! ## Text without zeros -/

theorem between_iff {low high : UInt8} : (decide (low ≤ b) && decide (b ≤ high)) = true ↔
    low.toNat ≤ b.toNat ∧ b.toNat ≤ high.toNat := by
  rw [Bool.and_eq_true, decide_eq_true_eq, decide_eq_true_eq, UInt8.le_iff_toNat_le,
    UInt8.le_iff_toNat_le]

theorem payload_lt (b : UInt8) : payload b < 64 := Nat.mod_lt _ (by decide)

/-- The second octet keeps the value of three from being overlong or a surrogate. -/
theorem value_of_three (ha : 0xe0 ≤ a.toNat ∧ a.toNat ≤ 0xef) (hb : isSecondOfThree a b = true) :
    0 < a.toNat % 16 * 64 + payload b ∧
      (a.toNat % 16 * 64 + payload b < 0x360 ∨
        0x37f < a.toNat % 16 * 64 + payload b ∧ a.toNat % 16 * 64 + payload b < 0x400) := by
  have hp := payload_lt b
  unfold isSecondOfThree at hb
  split at hb
  · next he0 =>
    obtain rfl : a = 0xe0 := beq_iff_eq.mp he0
    obtain ⟨hlow, hhigh⟩ := between_iff.mp hb
    simp only [payload, UInt8.reduceToNat] at *
    omega
  · next he0 =>
    have hne : a.toNat ≠ 0xe0 := fun h => he0 (beq_iff_eq.mpr (UInt8.toNat_inj.mp h))
    split at hb
    · next hed =>
      obtain rfl : a = 0xed := beq_iff_eq.mp hed
      obtain ⟨hlow, hhigh⟩ := between_iff.mp hb
      simp only [payload, UInt8.reduceToNat] at *
      omega
    · next hed =>
      have hne' : a.toNat ≠ 0xed := fun h => hed (beq_iff_eq.mpr (UInt8.toNat_inj.mp h))
      omega

theorem value_of_four (ha : 0xf0 ≤ a.toNat ∧ a.toNat ≤ 0xf4) (hb : isSecondOfFour a b = true) :
    0x10 ≤ a.toNat % 8 * 64 + payload b ∧ a.toNat % 8 * 64 + payload b < 0x110 := by
  have hp := payload_lt b
  unfold isSecondOfFour at hb
  split at hb
  · next hf0 =>
    obtain rfl : a = 0xf0 := beq_iff_eq.mp hf0
    obtain ⟨hlow, hhigh⟩ := between_iff.mp hb
    simp only [payload, UInt8.reduceToNat] at *
    omega
  · next hf0 =>
    have hne : a.toNat ≠ 0xf0 := fun h => hf0 (beq_iff_eq.mpr (UInt8.toNat_inj.mp h))
    split at hb
    · next hf4 =>
      obtain rfl : a = 0xf4 := beq_iff_eq.mp hf4
      obtain ⟨hlow, hhigh⟩ := between_iff.mp hb
      simp only [payload, UInt8.reduceToNat] at *
      omega
    · next hf4 =>
      have hne' : a.toNat ≠ 0xf4 := fun h => hf4 (beq_iff_eq.mpr (UInt8.toNat_inj.mp h))
      omega

/-- A value that is none of a character would be read as zero. -/
theorem ofNat_ne_nul (hv : v < 0xd800 ∨ 0xdfff < v ∧ v < 0x110000) (h : v ≠ 0) :
    '\x00' ≠ Char.ofNat v := by
  intro hc
  have hvalue : (Char.ofNat v).toNat = v := by
    rw [Char.ofNat, dif_pos (show v.isValidChar from hv)]
    rfl
  rw [← hc] at hvalue
  exact h hvalue.symm

theorem nul_ne_replacement : '\x00' ≠ replacement := by decide

/-- Only a zero is read as the character zero. -/
theorem nul_not_mem_decodeChars (h : 0 ∉ bs) : '\x00' ∉ decodeChars bs := by
  fun_induction decodeChars bs
  case case2 a rest hone ih =>
    rw [List.mem_cons, not_or] at h ⊢
    have hne : a.toNat ≠ 0 := fun hz => h.1 (UInt8.toNat_inj.mp hz).symm
    have hlt := a.toNat_lt
    exact ⟨ofNat_ne_nul (by omega) hne, ih h.2⟩
  case case3 a hone ha b rest hb ih =>
    rw [List.mem_cons, List.mem_cons, not_or, not_or] at h
    obtain ⟨hge, hle⟩ := between_iff.mp ha
    have hp := payload_lt b
    simp only [UInt8.reduceToNat] at hge hle
    rw [List.mem_cons, not_or]
    exact ⟨ofNat_ne_nul (by omega) (by omega), ih h.2.2⟩
  case case7 a hone htwo ha b c rest hb hc ih =>
    rw [List.mem_cons, List.mem_cons, List.mem_cons, not_or, not_or, not_or] at h
    rw [Bool.not_eq_true, Bool.not_eq_false'] at hb
    obtain ⟨hpos, hscalar⟩ := value_of_three (between_iff.mp ha) hb
    have hp := payload_lt c
    rw [List.mem_cons, not_or]
    exact ⟨ofNat_ne_nul (by omega) (by omega), ih h.2.2.2⟩
  case case14 a hone htwo hthree ha b c d rest hb hc hd ih =>
    rw [List.mem_cons, List.mem_cons, List.mem_cons, List.mem_cons, not_or, not_or, not_or,
      not_or] at h
    rw [Bool.not_eq_true, Bool.not_eq_false'] at hb
    obtain ⟨hpos, hscalar⟩ := value_of_four (between_iff.mp ha) hb
    have hp := payload_lt c
    have hp' := payload_lt d
    rw [List.mem_cons, not_or]
    exact ⟨ofNat_ne_nul (by omega) (by omega), ih h.2.2.2.2⟩
  -- everywhere else a replacement stands before what is left
  all_goals simp only [List.mem_cons, List.not_mem_nil, not_or, or_false, not_false_eq_true] at h ⊢
  all_goals simp_all [nul_ne_replacement]

theorem decodeChars_ne_nil (h : bs ≠ []) : decodeChars bs ≠ [] := by
  fun_cases decodeChars bs
  case case1 => exact absurd rfl h
  all_goals exact List.cons_ne_nil _ _

theorem zero_not_mem_utf8EncodeChar {c : Char} (h : '\x00' ≠ c) : 0 ∉ String.utf8EncodeChar c := by
  have hne : c.toNat ≠ 0 := fun hz => h (Char.toNat_inj.mp hz.symm)
  have octet_ne {n : Nat} (hpos : n ≠ 0) (hlt : n < 256) : 0 ≠ UInt8.ofNat n := by
    intro hn
    rw [← UInt8.toNat_inj, toNat_octet hlt] at hn
    exact hpos hn.symm
  rw [utf8EncodeChar_eq]
  repeat' split
  all_goals simp only [List.mem_cons, List.not_mem_nil, or_false, not_or]
  · exact octet_ne hne (by omega)
  · exact ⟨octet_ne (by omega) (by omega), octet_ne (by omega) (by omega)⟩
  · exact ⟨octet_ne (by omega) (by omega), octet_ne (by omega) (by omega),
      octet_ne (by omega) (by omega)⟩
  · exact ⟨octet_ne (by omega) (by omega), octet_ne (by omega) (by omega),
      octet_ne (by omega) (by omega), octet_ne (by omega) (by omega)⟩

end LossyUtf8

theorem utf8Bytes_eq (s : String) : utf8Bytes s = s.toList.flatMap String.utf8EncodeChar := by
  have hs : s.toByteArray = s.toList.utf8Encode := by
    rw [← String.toByteArray_ofList, String.ofList_toList]
  rw [utf8Bytes, String.toUTF8_eq_toByteArray, hs, List.utf8Encode, List.data_toByteArray]

/-- Lossy reading of what is well-formed loses nothing. -/
theorem decode_utf8Bytes (s : String) : LossyUtf8.decode (utf8Bytes s) = s := by
  rw [LossyUtf8.decode, utf8Bytes_eq, LossyUtf8.decodeChars_characters, String.ofList_toList]

theorem utf8Bytes_eq_nil_iff (s : String) : utf8Bytes s = [] ↔ s = "" := by
  constructor
  · intro h
    rw [← decode_utf8Bytes s, h, LossyUtf8.decode, LossyUtf8.decodeChars, String.ofList_nil]
  · rintro rfl
    rfl

theorem decode_ne_empty {bs : Bytes} (h : bs ≠ []) : LossyUtf8.decode bs ≠ "" := by
  intro hs
  rw [LossyUtf8.decode, ← String.ofList_nil] at hs
  exact LossyUtf8.decodeChars_ne_nil h (String.ofList_injective hs)

/-- Lossy reading makes up no zeros. -/
theorem zero_not_mem_decode {bs : Bytes} (h : 0 ∉ bs) : 0 ∉ utf8Bytes (LossyUtf8.decode bs) := by
  rw [utf8Bytes_eq, LossyUtf8.decode, String.toList_ofList, List.mem_flatMap]
  rintro ⟨c, hc, hzero⟩
  refine LossyUtf8.zero_not_mem_utf8EncodeChar ?_ hzero
  rintro rfl
  exact LossyUtf8.nul_not_mem_decodeChars h hc

end GzipStream
