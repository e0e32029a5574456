import GzipStream.Deflate.Block
import GzipStream.Proofs.Deflate.Cursor

/-!
# The fixed codes, read back

A cursor that reads the bits of a token in the fixed codes writes what the token stands for
(`reads_literal`, `reads_copy`), and the bits of the end of a block lead out of it
(`reads_endOfBlock`).
-/

namespace GzipStream.Deflate

/-- The symbol at the end of a path. -/
def symbolOf : Huffman.Tree → List Bool → Option Nat
  | .leaf s, [] => some s
  | .node zero one, b :: bs => symbolOf (if b then one else zero) bs
  | _, _ => none

theorem symbolOf_fixedLiteralWord : ∀ s < 288,
    symbolOf fixedCodes.literals (fixedLiteralWord s) = some s ∧ fixedLiteralWord s ≠ [] := by
  decide +kernel

theorem symbolOf_fixedDistanceWord : ∀ s < 30,
    symbolOf fixedCodes.distances (fixedDistanceWord s) = some s ∧ fixedDistanceWord s ≠ [] := by
  decide +kernel

namespace Cursor

section
variable {c : Context} {h : Array UInt8} {s : Nat} {t : Huffman.Tree} {bs : List Bool}

/-- Walking down a tree, where `mode` is the mode at a node of it and `next` what a symbol leads to. -/
theorem reads_path {mode : Huffman.Tree → Mode} {next : Nat → Mode}
    (hwants : ∀ t, (mode t).wantsBit = true)
    (hleaf : ∀ zero one b s, (if b then one else zero) = Huffman.Tree.leaf s →
      (mode (.node zero one)).onBit c b = (c, next s))
    (hnode : ∀ zero one b z o, (if b then one else zero) = Huffman.Tree.node z o →
      (mode (.node zero one)).onBit c b = (c, mode (.node z o)))
    (hs : symbolOf t bs = some s) (hne : bs ≠ []) :
    Reads ⟨c, mode t, h⟩ bs (emit ⟨c, next s, h⟩) := by
  induction bs generalizing t with
  | nil => exact absurd rfl hne
  | cons b bs ih =>
    cases t with
    | hole => cases hs
    | leaf s' => cases hs
    | node zero one =>
      have hs' : symbolOf (if b then one else zero) bs = some s := hs
      refine ⟨hwants _, ?_⟩
      cases hchild : (if b then one else zero) with
      | hole =>
        rw [hchild] at hs'
        cases bs <;> cases hs'
      | leaf s' =>
        rw [hchild] at hs'
        cases bs with
        | cons b' bs => cases hs'
        | nil =>
          cases hs'
          rw [bit, hleaf zero one b s hchild]
          rfl
      | node z o =>
        rw [hchild] at hs'
        have hb : bit ⟨c, mode (.node zero one), h⟩ b = ⟨c, mode (.node z o), h⟩ := by
          rw [bit, hnode zero one b z o hchild]
          exact emit_eq_self (Mode.not_emits_of_isOpen (Mode.isOpen_of_wantsBit (hwants _)))
        rw [hb]
        refine ih hs' ?_
        rintro rfl
        cases hs'

theorem reads_symbol (codes : Codes) (hs : symbolOf t bs = some s) (hne : bs ≠ []) :
    Reads ⟨c, .symbol codes t, h⟩ bs (emit ⟨c, .onSymbol c codes s, h⟩) := by
  apply reads_path (fun _ => rfl) _ _ hs hne
  · intro zero one b s hb
    simp only [Mode.onBit, hb]
  · intro zero one b z o hb
    simp only [Mode.onBit, hb]

theorem reads_distance (codes : Codes) (n : Nat) (hs : symbolOf t bs = some s) (hne : bs ≠ []) :
    Reads ⟨c, .distance codes n t, h⟩ bs (emit ⟨c, .onDistanceSymbol codes n s, h⟩) := by
  apply reads_path (fun _ => rfl) _ _ hs hne
  · intro zero one b s hb
    simp only [Mode.onBit, hb]
  · intro zero one b z o hb
    simp only [Mode.onBit, hb]

end

theorem value_push (f : Field) (n : Nat) :
    (f.push (n % 2 == 1)).value = f.value + Nat.pow 2 f.got * (n % 2) := by
  have hn : n % 2 = 0 ∨ n % 2 = 1 := by omega
  rcases hn with hn | hn <;> simp [Field.push, hn]

/-- Reading a number of `k` bits, where `mode` is the mode with a part of it and `next` what the
whole leads to. -/
theorem reads_field {c : Context} {h : Array UInt8} {k : Nat} {mode : Field → Mode}
    {next : Nat → Mode} (hwants : ∀ f, (mode f).wantsBit = true)
    (hbit : ∀ f b, (mode f).onBit c b =
      (c, if (f.push b).got < k then mode (f.push b) else next (f.push b).value))
    (w n : Nat) (f : Field) (hw : f.got + (w + 1) = k) (hn : n < Nat.pow 2 (w + 1)) :
    Reads ⟨c, mode f, h⟩ (bitsOfNat (w + 1) n)
      (emit ⟨c, next (f.value + Nat.pow 2 f.got * n), h⟩) := by
  induction w generalizing n f with
  | zero =>
    have hn' : n % 2 = n := Nat.mod_eq_of_lt hn
    have hlast : ¬ (f.push (n % 2 == 1)).got < k := by
      show ¬ f.got + 1 < k
      omega
    refine ⟨hwants f, ?_⟩
    rw [bit, hbit, if_neg hlast, value_push, hn']
    rfl
  | succ w ih =>
    have hmore : (f.push (n % 2 == 1)).got < k := by
      show f.got + 1 < k
      omega
    have hb : bit ⟨c, mode f, h⟩ (n % 2 == 1) = ⟨c, mode (f.push (n % 2 == 1)), h⟩ := by
      rw [bit, hbit, if_pos hmore]
      exact emit_eq_self (Mode.not_emits_of_isOpen (Mode.isOpen_of_wantsBit (hwants _)))
    have hvalue : (f.push (n % 2 == 1)).value + Nat.pow 2 (f.push (n % 2 == 1)).got * (n / 2) =
        f.value + Nat.pow 2 f.got * n := by
      have hp : Nat.pow 2 (f.got + 1) = Nat.pow 2 f.got * 2 := rfl
      rw [value_push, show (f.push (n % 2 == 1)).got = f.got + 1 from rfl, hp, Nat.add_assoc,
        Nat.mul_assoc, ← Nat.mul_add, Nat.mod_add_div]
    have hhalf : n / 2 < Nat.pow 2 (w + 1) := by
      have hp : Nat.pow 2 (w + 1 + 1) = Nat.pow 2 (w + 1) * 2 := rfl
      omega
    have hgot : (f.push (n % 2 == 1)).got + (w + 1) = k := by
      show f.got + 1 + (w + 1) = k
      omega
    refine ⟨hwants f, ?_⟩
    rw [hb, ← hvalue]
    exact ih (n / 2) (f.push (n % 2 == 1)) hgot hhalf

/-- As `reads_field`, from the first bit on. -/
theorem reads_number {c : Context} {h : Array UInt8} {k : Nat} (mode : Field → Mode)
    (next : Nat → Mode) (hwants : ∀ f, (mode f).wantsBit = true)
    (hbit : ∀ f b, (mode f).onBit c b =
      (c, if (f.push b).got < k then mode (f.push b) else next (f.push b).value))
    {n : Nat} (hk : k ≠ 0) (hn : n < Nat.pow 2 k) :
    Reads ⟨c, mode {}, h⟩ (bitsOfNat k n) (emit ⟨c, next n, h⟩) := by
  cases k with
  | zero => exact absurd rfl hk
  | succ w =>
    have := reads_field (h := h) hwants hbit w n {} (Nat.zero_add _) hn
    rwa [show ({} : Field).value + Nat.pow 2 ({} : Field).got * n = n by
      show 0 + 1 * n = n
      omega] at this

end Cursor

/-! ## Symbols of lengths and distances -/

/-- Symbol and range that a number is written with. -/
structure Fits (range? : Nat → Option Range) (n symbol : Nat) (r : Range) : Prop where
  range_eq : range? symbol = some r
  base_le : r.base ≤ n
  lt : n - r.base < Nat.pow 2 r.extra

instance (range? : Nat → Option Range) (n symbol : Nat) (r : Range) :
    Decidable (Fits range? n symbol r) :=
  decidable_of_iff (range? symbol = some r ∧ r.base ≤ n ∧ n - r.base < Nat.pow 2 r.extra)
    ⟨fun ⟨h1, h2, h3⟩ => ⟨h1, h2, h3⟩, fun h => ⟨h.range_eq, h.base_le, h.lt⟩⟩

theorem fits_symbolFor_length : ∀ n < 259, 3 ≤ n →
    Fits lengthRange? n (257 + (symbolFor lengthRanges n).1) (symbolFor lengthRanges n).2 ∧
      (symbolFor lengthRanges n).1 < 29 := by decide +kernel

/-- Ranges that follow one another from `lo` to `hi`. -/
def Contiguous : Nat → List Range → Nat → Prop
  | lo, [], hi => lo = hi
  | lo, r :: rs, hi => r.base = lo ∧ Contiguous (lo + Nat.pow 2 r.extra) rs hi

theorem Contiguous.base_ge {lo hi : Nat} {rs : List Range} (h : Contiguous lo rs hi) :
    ∀ r ∈ rs, lo ≤ r.base := by
  induction rs generalizing lo with
  | nil => intro r hr; cases hr
  | cons r rs ih =>
    intro r' hr'
    rcases List.mem_cons.mp hr' with rfl | hr'
    · exact Nat.le_of_eq h.1.symm
    · exact Nat.le_trans (Nat.le_add_right _ _) (ih h.2 r' hr')

/-- The last range that starts at or below a number is the one that holds it. -/
theorem Contiguous.getLast {lo hi n k : Nat} {rs : List Range} (h : Contiguous lo rs hi)
    (hlo : lo ≤ n) (hhi : n < hi) : ∃ i r, rs[i]? = some r ∧ r.base ≤ n ∧
      n - r.base < Nat.pow 2 r.extra ∧
      ((rs.zipIdx k).filter fun (r, _) => r.base ≤ n).getLast? = some (r, k + i) := by
  induction rs generalizing lo k with
  | nil =>
    have : lo = hi := h
    omega
  | cons r rs ih =>
    obtain ⟨hbase, hrest⟩ := h
    have hr : r.base ≤ n := by omega
    rw [List.zipIdx_cons, List.filter_cons_of_pos (by simpa using hr)]
    by_cases hn : n < lo + Nat.pow 2 r.extra
    · -- nothing behind it starts early enough
      have hnone : ((rs.zipIdx (k + 1)).filter fun (r, _) => r.base ≤ n) = [] := by
        rw [List.filter_eq_nil_iff]
        rintro ⟨r', i⟩ hmem
        have := hrest.base_ge r' (List.fst_mem_of_mem_zipIdx hmem)
        simp only [decide_eq_true_eq]
        omega
      refine ⟨0, r, rfl, hr, by omega, ?_⟩
      rw [hnone]
      rfl
    · obtain ⟨i, r', hi', hb, hlt, hlast⟩ := ih (k := k + 1) hrest (by omega)
      refine ⟨i + 1, r', hi', hb, hlt, ?_⟩
      rw [List.getLast?_cons, hlast]
      simp only [Option.getD_some]
      rw [Nat.add_assoc, Nat.add_comm 1 i]

theorem contiguous_distanceRanges : Contiguous 1 distanceRanges 32769 := by
  unfold distanceRanges
  simp only [Contiguous]
  decide

theorem fits_symbolFor_distance {d : Nat} (h1 : 1 ≤ d) (h2 : d ≤ 32768) :
    Fits distanceRange? d (symbolFor distanceRanges d).1 (symbolFor distanceRanges d).2 ∧
      (symbolFor distanceRanges d).1 < 30 := by
  obtain ⟨i, r, hi, hb, hlt, hlast⟩ :=
    contiguous_distanceRanges.getLast (k := 0) h1 (Nat.lt_succ_of_le h2)
  have hsym : symbolFor distanceRanges d = (i, r) := by
    simp only [symbolFor, hlast, Nat.zero_add]
  rw [hsym]
  refine ⟨⟨hi, hb, hlt⟩, ?_⟩
  obtain ⟨hlen, -⟩ := List.getElem?_eq_some_iff.mp hi
  exact hlen

/-! ## Tokens -/

namespace Cursor

variable {c : Context} {h : Array UInt8}

/-- Between two tokens of a block in the fixed codes. -/
def fixed (c : Context) (h : Array UInt8) : Cursor := ⟨c, .beginSymbols fixedCodes, h⟩

theorem reads_word {s : Nat} (hs : s < 288) :
    Reads (fixed c h) (fixedLiteralWord s) (emit ⟨c, .onSymbol c fixedCodes s, h⟩) := by
  obtain ⟨hsymbol, hne⟩ := symbolOf_fixedLiteralWord s hs
  exact reads_symbol fixedCodes hsymbol hne

theorem reads_literal (b : UInt8) :
    Reads (fixed c h) (Token.literal b).bits (fixed c (h.push b)) := by
  have hb : b.toNat < 256 := b.toNat_lt
  have hr := reads_word (c := c) (h := h) (show b.toNat < 288 by omega)
  rw [Mode.onSymbol, if_pos hb, UInt8.ofNat_toNat] at hr
  exact hr

theorem reads_endOfBlock :
    Reads (fixed c h) (fixedLiteralWord endOfBlock) ⟨c, .afterBlock c, h⟩ := by
  have hr := reads_word (c := c) (h := h) (show endOfBlock < 288 by decide)
  rw [Mode.onSymbol, if_neg (by decide), if_pos rfl,
    emit_eq_self (Mode.afterBlock_not_emits c)] at hr
  exact hr

/-- The extra bits behind the symbol of a range. -/
theorem reads_extra {range? : Nat → Option Range} {n s : Nat} {r : Range} (hfits : Fits range? n s r)
    (mode : Field → Mode) (next : Nat → Mode) (hwants : ∀ f, (mode f).wantsBit = true)
    (hbit : ∀ f b, (mode f).onBit c b =
      (c, if (f.push b).got < r.extra then mode (f.push b) else next (r.base + (f.push b).value)))
    {x : Cursor} {word : List Bool}
    (hr : x.Reads word (emit ⟨c, if r.extra = 0 then next r.base else mode {}, h⟩)) :
    x.Reads (word ++ bitsOfNat r.extra (n - r.base)) (emit ⟨c, next n, h⟩) := by
  have hbase := hfits.base_le
  have hlt := hfits.lt
  by_cases he : r.extra = 0
  · have hn : n = r.base := by
      rw [he] at hlt
      have h0 : Nat.pow 2 0 = 1 := rfl
      omega
    rw [if_pos he, ← hn] at hr
    rw [he, bitsOfNat, List.append_nil]
    exact hr
  · have hopen : (mode {}).isOpen = true := Mode.isOpen_of_wantsBit (hwants {})
    rw [if_neg he, emit_eq_self (Mode.not_emits_of_isOpen hopen)] at hr
    have hx := reads_number (c := c) (h := h) (k := r.extra) mode (fun v => next (r.base + v)) hwants
      hbit he hlt
    rw [show r.base + (n - r.base) = n by omega] at hx
    exact hr.append hx

/-- The bits of a length lead to its distance. -/
theorem reads_length {n : Nat} (h1 : 3 ≤ n) (h2 : n ≤ 258) :
    Reads (fixed c h) (lengthBits n) ⟨c, .onLength fixedCodes n, h⟩ := by
  obtain ⟨hfits, hlt⟩ := fits_symbolFor_length n (by omega) h1
  have hr := reads_word (c := c) (h := h)
    (show 257 + (symbolFor lengthRanges n).1 < 288 by omega)
  rw [Mode.onSymbol, if_neg (by omega), if_neg (by unfold endOfBlock; omega), hfits.range_eq] at hr
  exact reads_extra hfits (.lengthExtra fixedCodes _) (.onLength fixedCodes) (fun _ => rfl)
    (fun _ _ => rfl) hr

/-- The bits of a distance lead to the copy. -/
theorem reads_distanceBits {n d : Nat} (h1 : 1 ≤ d) (h2 : d ≤ 32768) :
    Reads ⟨c, .onLength fixedCodes n, h⟩ (distanceBits d)
      (emit ⟨c, .onDistance fixedCodes n d, h⟩) := by
  obtain ⟨hfits, hlt⟩ := fits_symbolFor_distance h1 h2
  obtain ⟨hsymbol, hne⟩ := symbolOf_fixedDistanceWord _ hlt
  have hr := reads_distance (c := c) (h := h) fixedCodes n hsymbol hne
  rw [Mode.onDistanceSymbol, hfits.range_eq] at hr
  exact reads_extra hfits (.distanceExtra fixedCodes n _) (.onDistance fixedCodes n) (fun _ => rfl)
    (fun _ _ => rfl) hr

theorem reads_copy {n d : Nat} (hn1 : 3 ≤ n) (hn2 : n ≤ 258) (hd1 : 1 ≤ d) (hd2 : d ≤ 32768)
    (hd : d ≤ h.size) : Reads (fixed c h) (Token.copy n d).bits (fixed c (appendCopy h d n)) := by
  have hr := (reads_length (c := c) (h := h) hn1 hn2).append (reads_distanceBits hd1 hd2)
  have hcopy : emit ⟨c, .onDistance fixedCodes n d, h⟩ = fixed c (appendCopy h d n) := by
    simp only [emit, Mode.onDistance, if_pos hd, show n - 1 + 1 = n by omega]
    rfl
  rw [hcopy] at hr
  exact hr

end Cursor

end GzipStream.Deflate
