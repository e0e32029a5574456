import GzipStream.Proofs.Deflate.FixedCodes

/-!
# Tokens stand for the data

A copy is of bytes that were compared, so it continues the data wherever the finder looked for it,
and the tokens expand to the data, with lengths and distances that the format can write
(`expandFrom_tokenize`). The bits of such tokens read as what the tokens expand to (`reads_tokens`).
Together: the bits of all tokens give the data back (`reads_tokenize`).
-/

namespace GzipStream.Deflate

variable {data : Array UInt8}

theorem agreement_le (data : Array UInt8) (i j limit : Nat) : agreement data i j limit ≤ limit := by
  induction limit generalizing i j with
  | zero => exact Nat.le_refl _
  | succ n ih =>
    unfold agreement
    split
    · exact Nat.succ_le_succ (ih _ _)
    · exact Nat.zero_le _

theorem getD_of_lt_agreement {i j limit k : Nat} (hk : k < agreement data i j limit) :
    data.getD (i + k) 0 = data.getD (j + k) 0 := by
  induction limit generalizing i j k with
  | zero => exact absurd hk (Nat.not_lt_zero _)
  | succ n ih =>
    unfold agreement at hk
    split at hk
    · next heq =>
      cases k with
      | zero => exact heq
      | succ k =>
        have := ih (i := i + 1) (j := j + 1) (Nat.lt_of_succ_lt_succ hk)
        rwa [Nat.add_right_comm i, Nat.add_right_comm j] at this
    · exact absurd hk (Nat.not_lt_zero _)

theorem push_extract {i : Nat} (hi : i < data.size) :
    (data.extract 0 i).push (data.getD i 0) = data.extract 0 (i + 1) := by
  have hget : data.getD i 0 = data[i] := by simp [Array.getD, hi]
  rw [hget]
  exact Array.push_extract_getElem hi |>.trans (by simp)

theorem getD_extract {i j : Nat} (hj : j < i) (hi : i ≤ data.size) :
    (data.extract 0 i).getD j 0 = data.getD j 0 := by
  have h1 : j < min i data.size := by omega
  have h2 : j < data.size := by omega
  simp [Array.getD, h1, h2]

/-- Copying bytes that agree continues the data. -/
theorem appendCopy_extract {i j n : Nat} (hj : j < i) (hn : i + n ≤ data.size)
    (h : ∀ k < n, data.getD (i + k) 0 = data.getD (j + k) 0) :
    appendCopy (data.extract 0 i) (i - j) n = data.extract 0 (i + n) := by
  induction n generalizing i j with
  | zero => rfl
  | succ n ih =>
    have hsize : (data.extract 0 i).size = i := by
      rw [Array.size_extract]
      omega
    have hbyte : (data.extract 0 i).getD ((data.extract 0 i).size - (i - j)) 0 = data.getD i 0 := by
      rw [hsize, show i - (i - j) = j by omega, getD_extract hj (by omega)]
      exact (h 0 (Nat.succ_pos n)).symm
    have hrest : ∀ k < n, data.getD (i + 1 + k) 0 = data.getD (j + 1 + k) 0 := by
      intro k hk
      have := h (k + 1) (Nat.succ_lt_succ hk)
      rwa [Nat.add_right_comm i 1 k, Nat.add_right_comm j 1 k]
    rw [appendCopy, hbyte, push_extract (by omega), show i - j = i + 1 - (j + 1) by omega,
      ih (by omega) (by omega) hrest]
    congr 1
    omega

/-- A token for data that is there stands for some of it. -/
theorem length_tokenAt (reach : Nat) {i : Nat} (hi : i < data.size) (j : Nat) :
    0 < (tokenAt data reach i j).length ∧ i + (tokenAt data reach i j).length ≤ data.size := by
  have hle := agreement_le data i j (copyLimit data i)
  have hlimit : copyLimit data i ≤ data.size - i := Nat.min_le_right _ _
  have h3 : minCopy = 3 := rfl
  unfold tokenAt
  split <;> simp only [Token.length] <;> omega

/-! ## What the tokens of data expand to -/

theorem expandFrom_tokenAt (reach : Nat) {i : Nat} (hi : i < data.size) (j : Nat)
    (tokens : List Token) :
    expandFrom (data.extract 0 i) (tokenAt data reach i j :: tokens) =
      expandFrom (data.extract 0 (i + (tokenAt data reach i j).length)) tokens := by
  by_cases h : j < i ∧ i - j ≤ reach ∧ minCopy ≤ agreement data i j (copyLimit data i)
  · rw [tokenAt, if_pos h, expandFrom]
    obtain ⟨hj, -, -⟩ := h
    have hle := agreement_le data i j (copyLimit data i)
    have hlimit : copyLimit data i ≤ data.size - i := Nat.min_le_right _ _
    rw [appendCopy_extract hj (by omega) fun k hk => getD_of_lt_agreement hk]
    rfl
  · rw [tokenAt, if_neg h, expandFrom, push_extract hi]
    rfl

/-- A token that the format can write behind `h`. -/
def Token.Expressible (h : Array UInt8) : Token → Prop
  | .literal _ => True
  | .copy n d => minCopy ≤ n ∧ n ≤ maxCopy ∧ 1 ≤ d ∧ d ≤ 32768 ∧ d ≤ h.size

/-- Tokens that the format can write one after the other behind `h`. -/
def Expressible (h : Array UInt8) : List Token → Prop
  | [] => True
  | t :: ts => t.Expressible h ∧ Expressible (expandFrom h [t]) ts

theorem expressible_tokenAt {reach : Nat} (hreach : reach ≤ 32768) {i : Nat} (hi : i < data.size)
    (j : Nat) : (tokenAt data reach i j).Expressible (data.extract 0 i) := by
  by_cases h : j < i ∧ i - j ≤ reach ∧ minCopy ≤ agreement data i j (copyLimit data i)
  · rw [tokenAt, if_pos h]
    obtain ⟨hj, hd, hmin⟩ := h
    have hle := agreement_le data i j (copyLimit data i)
    have hlimit : copyLimit data i ≤ maxCopy := Nat.min_le_left _ _
    have hsize : (data.extract 0 i).size = i := by
      rw [Array.size_extract]
      omega
    exact ⟨hmin, by omega, by omega, by omega, by omega⟩
  · rw [tokenAt, if_neg h]
    trivial

/-- However many tokens are found, those behind `found` expand to the rest of the data. -/
theorem expandFrom_tokenizeFrom (reach most : Nat) (f : Finder) (i : Nat) (found : Array Token)
    (hi : i ≤ data.size) (hmost : data.size ≤ i + most) :
    ∃ tokens, (tokenizeFrom data reach most f i found).toList = found.toList ++ tokens ∧
      expandFrom (data.extract 0 i) tokens = data ∧
      (reach ≤ 32768 → Expressible (data.extract 0 i) tokens) := by
  induction most generalizing f i found with
  | zero =>
    exact ⟨[], (List.append_nil _).symm, Array.extract_eq_self_of_le hmost, fun _ => trivial⟩
  | succ most ih =>
    unfold tokenizeFrom
    split
    · next hle =>
      exact ⟨[], (List.append_nil _).symm, Array.extract_eq_self_of_le hle, fun _ => trivial⟩
    · next hlt =>
      have hi' := Nat.lt_of_not_le hlt
      simp only
      generalize f.propose data reach i (copyLimit data i) = j
      obtain ⟨hpos, hle⟩ := length_tokenAt reach hi' j
      have hexpand := expandFrom_tokenAt reach hi' j
      have hexpressible := fun hreach : reach ≤ 32768 => expressible_tokenAt hreach hi' j
      generalize tokenAt data reach i j = t at *
      obtain ⟨tokens, htokens, hdata, hrest⟩ :=
        ih (f.noteAll data i t.length) (i + t.length) (found.push t) hle (by omega)
      refine ⟨t :: tokens, ?_, (hexpand tokens).trans hdata, fun hreach => ⟨hexpressible hreach, ?_⟩⟩
      · rw [htokens, Array.toList_push, List.append_assoc, List.singleton_append]
      · rw [hexpand []]
        exact hrest hreach

/-- The tokens of the data from `first` on expand to it, whatever the finder proposes, and the
format can write them. -/
theorem expandFrom_tokenize (reach : Nat) {first : Nat} (hfirst : first ≤ data.size) :
    expandFrom (data.extract 0 first) (tokenize data first reach) = data ∧
      (reach ≤ 32768 → Expressible (data.extract 0 first) (tokenize data first reach)) := by
  obtain ⟨tokens, htokens, hdata⟩ := expandFrom_tokenizeFrom reach (data.size - first)
    ((Finder.start (first - reach) (min data.size 32768)).noteAll data (first - reach)
      (first - (first - reach))) first #[] hfirst (by omega)
  unfold tokenize
  rw [htokens]
  exact hdata

/-! ## What their bits read as -/

namespace Cursor

variable {c : Context} {h : Array UInt8}

theorem reads_token {t : Token} (ht : t.Expressible h) :
    Reads (fixed c h) t.bits (fixed c (expandFrom h [t])) := by
  cases t with
  | literal b => exact reads_literal b
  | copy n d =>
    obtain ⟨hn1, hn2, hd1, hd2, hd⟩ := ht
    exact reads_copy hn1 hn2 hd1 hd2 hd

theorem expandFrom_cons (h : Array UInt8) (t : Token) (ts : List Token) :
    expandFrom h (t :: ts) = expandFrom (expandFrom h [t]) ts := by
  cases t <;> rfl

/-- The bits of tokens lead to what the tokens expand to. -/
theorem reads_tokens {tokens : List Token} (ht : Expressible h tokens) :
    Reads (fixed c h) (tokens.flatMap Token.bits) (fixed c (expandFrom h tokens)) := by
  induction tokens generalizing h with
  | nil => rfl
  | cons t ts ih =>
    rw [List.flatMap_cons, expandFrom_cons]
    exact (reads_token ht.1).append (ih ht.2)

/-- The bits of the tokens of data lead from what is in front of them to the whole. -/
theorem reads_tokenize {reach : Nat} (hreach : reach ≤ 32768) {first : Nat}
    (hfirst : first ≤ data.size) :
    Reads (fixed c (data.extract 0 first)) ((tokenize data first reach).flatMap Token.bits)
      (fixed c data) := by
  obtain ⟨hdata, hexpressible⟩ := expandFrom_tokenize reach hfirst
  have hr := reads_tokens (c := c) (hexpressible hreach)
  rwa [hdata] at hr

end Cursor

end GzipStream.Deflate
