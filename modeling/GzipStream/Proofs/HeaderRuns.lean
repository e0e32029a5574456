import GzipStream.Header.Parser
import GzipStream.Proofs.Follows
import GzipStream.Proofs.Member
import Mathlib.Algebra.GroupWithZero.Nat

/-!
# Runs of the header parser

`p.Reads bs q` says that `p` asks for every byte of `bs`, finds no fault in them and is then `q`;
`p.Refuses bs d` that it finds a fault before their end. How the bytes were cut into pieces does not
show in the outcome (`parseAll_eq_parse`): a header that is read from its first byte to its last is
read from any pieces, and what is behind it is left alone (`Reads.parseAll_eq`).
-/

namespace GzipStream.HeaderParser

/-- A parser that is not done and has found no fault. -/
def asks (s : HeaderParser × Option HeaderDefect) : Bool := s.2.isNone && !s.1.isDone

def Reads (p : HeaderParser) (bs : Bytes) (q : HeaderParser) : Prop :=
  Follows asks (fun s b => s.1.feed b) (p, none) bs (q, none)

variable {p q r : HeaderParser} {b : UInt8} {xs ys bs : Bytes} {d : HeaderDefect}

theorem Reads.nil (p : HeaderParser) : p.Reads [] p := rfl

theorem Reads.append (h : p.Reads xs q) (h' : q.Reads ys r) : p.Reads (xs ++ ys) r :=
  Follows.append h h'

theorem Reads.cons (hd : p.isDone = false) (hb : p.feed b = (q, none)) (h : q.Reads bs r) :
    p.Reads (b :: bs) r := by
  refine ⟨by rw [asks, hd]; rfl, ?_⟩
  show Follows asks _ (p.feed b) bs (r, none)
  rw [hb]
  exact h

theorem Reads.of_cons (h : p.Reads (b :: bs) r) :
    p.isDone = false ∧ ∃ q, p.feed b = (q, none) ∧ q.Reads bs r := by
  obtain ⟨ha, hrest⟩ := h
  refine ⟨by simpa [asks] using ha, ?_⟩
  rcases hf : p.feed b with ⟨q, fault⟩
  simp only [hf] at hrest
  cases fault with
  | none => exact ⟨q, rfl, hrest⟩
  | some d => cases (hrest.eq_nil rfl).2

theorem Reads.split (h : p.Reads (xs ++ ys) r) : ∃ q, p.Reads xs q ∧ q.Reads ys r := by
  induction xs generalizing p with
  | nil => exact ⟨p, .nil p, h⟩
  | cons b xs ih =>
    obtain ⟨hd, p', hb, hrest⟩ := h.of_cons
    obtain ⟨q, hxs, hys⟩ := ih hrest
    exact ⟨q, .cons hd hb hxs, hys⟩

theorem Reads.of_append (h : p.Reads xs q) (h' : p.Reads (xs ++ ys) r) : q.Reads ys r :=
  Follows.of_append h h'

/-- The bytes determine the parser behind them. -/
theorem Reads.eq (h : p.Reads bs q) (h' : p.Reads bs r) : q = r :=
  congrArg Prod.fst (Follows.foldl_eq h ▸ Follows.foldl_eq h')

theorem Reads.of_isDone (h : p.Reads bs q) (hp : p.isDone = true) : bs = [] ∧ q = p := by
  obtain ⟨hbs, hs⟩ := h.eq_nil (by rw [asks, hp]; rfl)
  exact ⟨hbs, (congrArg Prod.fst hs).symm⟩

theorem Reads.not_stalled (h : p.Reads bs q) (hp : p.stalled? = none) : q.stalled? = none := by
  induction bs generalizing p with
  | nil => cases h; exact hp
  | cons b bs ih =>
    obtain ⟨hd, p', hb, hrest⟩ := h.of_cons
    exact ih hrest (stalled_feed hb hd)

theorem Reads.feedAll_eq (h : p.Reads xs q) (n : Nat) (ys : Bytes) :
    p.feedAll n (xs ++ ys) = q.feedAll (n + xs.length) ys := by
  induction xs generalizing p n with
  | nil => cases h; rfl
  | cons b xs ih =>
    obtain ⟨hd, p', hb, hrest⟩ := h.of_cons
    rw [List.cons_append, feedAll, if_neg (by rw [hd]; exact Bool.false_ne_true), hb]
    simp only
    rw [ih hrest, List.length_cons, Nat.add_assoc, Nat.add_comm 1]

/-- The converse: what was used was read. -/
theorem reads_of_feedAll {n k : Nat} (h : p.feedAll n bs = (q, .ok k)) :
    ∃ used rest, bs = used ++ rest ∧ k = n + used.length ∧ p.Reads used q ∧
      (rest = [] ∨ q.isDone = true) := by
  induction bs generalizing p n with
  | nil => cases h; exact ⟨[], [], rfl, rfl, .nil _, .inl rfl⟩
  | cons b bs ih =>
    unfold feedAll at h
    split at h
    · next hd =>
      cases h
      exact ⟨[], b :: bs, rfl, rfl, .nil _, .inr hd⟩
    · next hd =>
      split at h
      · next p' hb =>
        obtain ⟨used, rest, rfl, rfl, hr, hrest⟩ := ih h
        refine ⟨b :: used, rest, rfl, by rw [List.length_cons]; omega, ?_, hrest⟩
        exact .cons (Bool.eq_false_iff.mpr hd) hb hr
      · cases h

/-- Reading stops behind the header. -/
theorem Reads.unique {q' : HeaderParser} {input : Bytes} (h : p.Reads xs q) (h' : p.Reads ys q')
    (hx : xs <+: input) (hy : ys <+: input) (hq : q.isDone = true) (hq' : q'.isDone = true) :
    xs = ys ∧ q = q' := by
  have ended {s : HeaderParser} (hs : s.isDone = true) : asks (s, none) = false := by
    rw [asks, hs]
    rfl
  obtain ⟨hxy, hs⟩ := Follows.unique h h' hx hy (ended hq) (ended hq')
  exact ⟨hxy, congrArg Prod.fst hs⟩

/-! ## Faults -/

/-- The parser reads until a byte shows the defect. -/
def Refuses (p : HeaderParser) (bs : Bytes) (d : HeaderDefect) : Prop :=
  ∃ used b rest q r, bs = used ++ b :: rest ∧ p.Reads used q ∧ q.isDone = false ∧
    q.feed b = (r, some d)

theorem Refuses.behind (h : p.Reads xs q) (h' : q.Refuses ys d) : p.Refuses (xs ++ ys) d := by
  obtain ⟨used, b, rest, q', r, rfl, hread, hd, hb⟩ := h'
  exact ⟨xs ++ used, b, rest, q', r, (List.append_assoc _ _ _).symm, h.append hread, hd, hb⟩

theorem Refuses.append (h : p.Refuses xs d) (ys : Bytes) : p.Refuses (xs ++ ys) d := by
  obtain ⟨used, b, rest, q, r, rfl, hread, hd, hb⟩ := h
  exact ⟨used, b, rest ++ ys, q, r, List.append_assoc _ _ _, hread, hd, hb⟩

/-- Bytes that are read show no defect. -/
theorem Refuses.not_reads (h : p.Refuses bs d) : ¬ p.Reads bs q := by
  obtain ⟨used, b, rest, q', r, rfl, hread, hd, hb⟩ := h
  intro hall
  obtain ⟨-, s, hs, -⟩ := (hread.of_append hall).of_cons
  rw [hb] at hs
  cases hs

/-! ## Calls -/

theorem parse_eq_feedAll (hp : p.stalled? = none) (xs : Bytes) : p.parse xs = p.feedAll 0 xs := by
  rw [parse, hp]

theorem parse_of_isDone (h : p.isDone = true) (xs : Bytes) : p.parse xs = (p, .ok 0) := by
  have hstage : p.stage = .done := by simpa [isDone] using h
  rw [parse, stalled?, hstage]
  exact feedAll_of_isDone h 0 xs

theorem Reads.parse_eq (h : p.Reads xs q) (hp : p.stalled? = none) :
    p.parse xs = (q, .ok xs.length) := by
  have hf := h.feedAll_eq 0 []
  rw [List.append_nil, Nat.zero_add] at hf
  rw [parse_eq_feedAll hp]
  exact hf

/-- A parser does not look behind the header. -/
theorem Reads.parse_append (h : p.Reads xs q) (hp : p.stalled? = none) (hq : q.isDone = true)
    (ys : Bytes) : p.parse (xs ++ ys) = (q, .ok xs.length) := by
  rw [parse_eq_feedAll hp, h.feedAll_eq, feedAll_of_isDone hq, Nat.zero_add]

theorem Refuses.parse_eq (h : p.Refuses bs d) (hp : p.stalled? = none) :
    ∃ r, p.parse bs = (r, .error d) := by
  obtain ⟨used, b, rest, q, r, rfl, hread, hd, hb⟩ := h
  refine ⟨r, ?_⟩
  rw [parse_eq_feedAll hp, hread.feedAll_eq, feedAll, hd, hb]
  rfl

/-- Where parsing went well, it stopped at the end of the input or of the header. -/
theorem parse_ok (hp : p.stalled? = none) {n : Nat} (h : p.parse xs = (q, .ok n)) :
    q.stalled? = none ∧ n ≤ xs.length ∧ (n = xs.length ∨ q.isDone = true) := by
  rw [parse_eq_feedAll hp] at h
  obtain ⟨used, rest, rfl, rfl, hread, hstop⟩ := reads_of_feedAll h
  rw [List.length_append, Nat.zero_add]
  refine ⟨hread.not_stalled hp, Nat.le_add_right _ _, hstop.imp_left ?_⟩
  rintro rfl
  rfl

theorem feedAll_append (p : HeaderParser) (n : Nat) (xs ys : Bytes) :
    p.feedAll n (xs ++ ys) = match p.feedAll n xs with
      | (q, .ok k) => q.feedAll k ys
      | (q, .error d) => (q, .error d) := by
  induction xs generalizing p n with
  | nil => rfl
  | cons b xs ih =>
    rw [List.cons_append, feedAll, feedAll]
    split
    · next hd => exact (feedAll_of_isDone hd n ys).symm
    · split
      · next q hb => exact ih q (n + 1)
      · rfl

/-- Bytes that were counted before are added to the answer. -/
theorem feedAll_add (p : HeaderParser) (n k : Nat) (xs : Bytes) :
    p.feedAll (n + k) xs = ((p.feedAll k xs).1, (p.feedAll k xs).2.map (n + ·)) := by
  induction xs generalizing p k with
  | nil => rfl
  | cons b xs ih =>
    rw [feedAll, feedAll]
    split
    · rfl
    · split
      · next q hb => exact ih q (k + 1)
      · rfl

theorem parse_append (hp : p.stalled? = none) (xs ys : Bytes) :
    p.parse (xs ++ ys) = match p.parse xs with
      | (q, .ok n) => ((q.parse ys).1, (q.parse ys).2.map (n + ·))
      | (q, .error d) => (q, .error d) := by
  rw [parse_eq_feedAll hp, feedAll_append, ← parse_eq_feedAll hp]
  rcases hx : p.parse xs with ⟨q, d | n⟩
  · rfl
  · simp only [parse_eq_feedAll (parse_ok hp hx).1]
    exact feedAll_add q n 0 ys

/-! ## Bytes in pieces -/

/-- Parses one piece after the other; the answers are the numbers of bytes used. -/
def parseAll (p : HeaderParser) : List Bytes → HeaderParser × Except HeaderDefect (List Nat)
  | [] => (p, .ok [])
  | piece :: pieces =>
    match p.parse piece with
    | (p, .error d) => (p, .error d)
    | (p, .ok n) =>
      match p.parseAll pieces with
      | (p, .ok ns) => (p, .ok (n :: ns))
      | failed => failed

/-- How many of the first `n` bytes stand in each piece. -/
def shares (n : Nat) : List Bytes → List Nat
  | [] => []
  | piece :: pieces => min n piece.length :: shares (n - piece.length) pieces

theorem sum_shares (n : Nat) (pieces : List Bytes) :
    (shares n pieces).sum = min n pieces.flatten.length := by
  induction pieces generalizing n with
  | nil => simp [shares]
  | cons piece pieces ih =>
    rw [shares, List.sum_cons, ih, List.flatten_cons, List.length_append]
    omega

/-- Bytes behind the pieces have no share in them. -/
theorem shares_min (n : Nat) (pieces : List Bytes) :
    shares (min n pieces.flatten.length) pieces = shares n pieces := by
  induction pieces generalizing n with
  | nil => rfl
  | cons piece pieces ih =>
    rw [shares, shares, List.flatten_cons, List.length_append, ← ih (n - piece.length)]
    congr 1
    · omega
    · congr 1
      omega

theorem parseAll_cons {n : Nat} {ns : List Nat} {piece : Bytes} {pieces : List Bytes}
    (h : p.parse piece = (q, .ok n)) (h' : q.parseAll pieces = (r, .ok ns)) :
    p.parseAll (piece :: pieces) = (r, .ok (n :: ns)) := by
  rw [parseAll, h]
  simp only
  rw [h']

/-- A parser that is done uses none of the pieces. -/
theorem parseAll_of_isDone (h : p.isDone = true) (pieces : List Bytes) :
    p.parseAll pieces = (p, .ok (pieces.map fun _ => 0)) := by
  induction pieces with
  | nil => rfl
  | cons piece pieces ih => exact parseAll_cons (parse_of_isDone h piece) ih

/-- Pieces are parsed as if they were one, and each is used as far as the header goes. -/
theorem parseAll_eq_parse (hp : p.stalled? = none) (pieces : List Bytes) :
    p.parseAll pieces = ((p.parse pieces.flatten).1,
      (p.parse pieces.flatten).2.map (shares · pieces)) := by
  induction pieces generalizing p with
  | nil =>
    rw [List.flatten_nil, parse_eq_feedAll hp]
    rfl
  | cons piece pieces ih =>
    rw [List.flatten_cons, parse_append hp]
    rcases hx : p.parse piece with ⟨q, d | n⟩
    · rw [parseAll, hx]
      rfl
    · obtain ⟨hq, hn, hstop⟩ := parse_ok hp hx
      have hrest := ih hq
      rcases hy : q.parse pieces.flatten with ⟨r, d | m⟩
      · rw [hy] at hrest
        rw [parseAll, hx]
        simp only [hrest, hy]
        rfl
      · rw [hy] at hrest
        -- what the first piece has left over is of no use to the others
        have hm : n = piece.length ∨ m = 0 := by
          refine hstop.imp_right fun hd => ?_
          rw [parse_of_isDone hd] at hy
          cases hy
          rfl
        have hshares : shares (n + m) (piece :: pieces) = n :: shares m pieces := by
          rw [shares]
          congr 1
          · omega
          · congr 1
            omega
        rw [parseAll_cons hx hrest]
        simp only [hy, Except.map, hshares]

/-- Each piece is used as far as the header goes. -/
theorem Reads.parseAll_eq {head rest : Bytes} {pieces : List Bytes} (h : p.Reads head q)
    (hp : p.stalled? = none) (hq : q.isDone = true) (hpieces : pieces.flatten <+: head ++ rest) :
    ∃ r, p.parseAll pieces = (r, .ok (shares head.length pieces)) ∧
      (r.isDone = true ↔ head.length ≤ pieces.flatten.length) ∧ (r.isDone = true → r = q) := by
  have hall := parseAll_eq_parse hp pieces
  obtain hshort | hlong := Nat.le_total pieces.flatten.length head.length
  · -- the pieces end inside the header
    obtain ⟨later, rfl⟩ : pieces.flatten <+: head :=
      List.prefix_of_prefix_length_le hpieces (List.prefix_append _ _) hshort
    obtain ⟨r, hfirst, hlater⟩ := h.split
    rw [hfirst.parse_eq hp, Except.map] at hall
    refine ⟨r, ?_, ⟨fun hr => ?_, fun hle => ?_⟩, fun hr => ?_⟩
    · rw [← shares_min, Nat.min_eq_right hshort]
      exact hall
    · exact Nat.le_of_eq (by rw [(hlater.of_isDone hr).1, List.append_nil])
    · obtain rfl : later = [] := by
        rw [List.length_append] at hle
        exact List.length_eq_zero_iff.mp (by omega)
      cases hlater
      exact hq
    · exact (hlater.of_isDone hr).2.symm
  · -- the header ends inside the pieces
    obtain ⟨behind, hbehind⟩ : head <+: pieces.flatten :=
      List.prefix_of_prefix_length_le (List.prefix_append _ _) hpieces hlong
    rw [← hbehind, h.parse_append hp hq, Except.map] at hall
    exact ⟨q, hall, ⟨fun _ => hlong, fun _ => hq⟩, fun _ => rfl⟩

end GzipStream.HeaderParser
