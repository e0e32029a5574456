import GzipStream.Proofs.HeaderGrammar

/-!
# Calls of the header parser

A caller gives a parser bytes, also when it has failed before, resets it, and takes the header it
has so far. What no byte destroys holds after all calls (`uses_keeps`). So between two calls a
parser is short of the field it reads, unless that is a checksum that did not match (`Sound`).
-/

namespace GzipStream.HeaderParser

variable {p q : HeaderParser} {bs : Bytes}

inductive Use
  | parse (input : Bytes)
  | reset
  | takeHeader
  deriving DecidableEq, Repr

inductive Reply
  | parsed (answer : Except HeaderDefect Nat)
  | reset
  | header (h : Header)
  deriving Repr

def use (p : HeaderParser) : Use → HeaderParser × Reply
  | .parse input => ((p.parse input).1, .parsed (p.parse input).2)
  | .reset => ({}, .reset)
  | .takeHeader => (p.takeHeader.2, .header p.takeHeader.1)

/-- Calls one behind the other: where they lead, and their replies. -/
def uses (p : HeaderParser) : List Use → HeaderParser × List Reply
  | [] => (p, [])
  | u :: us => (((p.use u).1.uses us).1, (p.use u).2 :: ((p.use u).1.uses us).2)

/-! ## What every call keeps -/

section Keeps

variable {P : HeaderParser → Prop}
  (hfeed : ∀ p b, P p → p.isDone = false → p.stalled? = none → P (p.feed b).1)

include hfeed

theorem feedAll_keeps (hp : P p) (hs : p.stalled? = none) (n : Nat) (bs : Bytes) :
    P (p.feedAll n bs).1 := by
  induction bs generalizing p n with
  | nil => exact hp
  | cons b bs ih =>
    unfold feedAll
    split
    · exact hp
    · next hd =>
      have hopen : p.isDone = false := Bool.eq_false_iff.mpr hd
      have hb : P (p.feed b).1 := hfeed p b hp hopen hs
      split
      · next q hq =>
        rw [hq] at hb
        exact ih hb (stalled_feed hq hopen) (n + 1)
      · next q d hq =>
        rw [hq] at hb
        exact hb

theorem parse_keeps (hp : P p) (input : Bytes) : P (p.parse input).1 := by
  unfold parse
  split
  · exact hp
  · next hs => exact feedAll_keeps hfeed hp hs 0 input

variable (hstart : P {}) (htake : ∀ p, P p → P p.takeHeader.2)

include hstart htake

theorem use_keeps (hp : P p) (u : Use) : P (p.use u).1 := by
  cases u with
  | parse input => exact parse_keeps hfeed hp input
  | reset => exact hstart
  | takeHeader => exact htake p hp

theorem uses_keeps (us : List Use) : P (uses {} us).1 := by
  have hall (p : HeaderParser) (hp : P p) : P (p.uses us).1 := by
    induction us generalizing p with
    | nil => exact hp
    | cons u us ih => exact ih _ (use_keeps hfeed hstart htake hp u)
  exact hall {} hstart

end Keeps

/-! ## How much of a field a parser holds -/

/-- The length of the field, where it is known. -/
def Stage.wanted : Stage → Option Nat
  | .fixed => some 10
  | .extraLength => some 2
  | .extra n => some n
  | .checksum => some 2
  | .filename => none
  | .comment => none
  | .done => none

/-- A field is not longer than it should be. -/
def Fits (p : HeaderParser) : Prop := ∀ n, p.stage.wanted = some n → p.field.size ≤ n

/-- A field is shorter than it will be. -/
def Short (p : HeaderParser) : Prop := ∀ n, p.stage.wanted = some n → p.field.size < n

/-- The checksum was read and is another one. -/
structure Mismatched (p : HeaderParser) : Prop where
  stage_eq : p.stage = .checksum
  size_eq : p.field.size = 2
  stored_ne : ofLittleEndian p.field.toList ≠ p.shortCrc

def Sound (p : HeaderParser) : Prop := p.Short ∨ p.Mismatched

theorem Mismatched.stalled_eq (h : p.Mismatched) : p.stalled? =
    some (.checksumMismatch (ofLittleEndian p.field.toList) p.shortCrc) := by
  rw [stalled?, h.stage_eq]
  exact if_neg (by rw [h.size_eq]; exact Nat.lt_irrefl 2)

theorem Sound.short (h : p.Sound) (hs : p.stalled? = none) : p.Short := by
  refine h.resolve_right fun hm => ?_
  rw [hm.stalled_eq] at hs
  cases hs

theorem Sound.fits (h : p.Sound) : p.Fits := by
  intro n hn
  obtain hshort | hm := h
  · exact Nat.le_of_lt (hshort n hn)
  · rw [hm.stage_eq] at hn
    cases hn
    exact Nat.le_of_eq hm.size_eq

/-- At the start of a field nothing of it is there yet. -/
theorem short_of_field_nil (hf : p.field = #[]) (hs : p.stage ≠ .extra 0) : p.Short := by
  intro n hn
  rw [hf]
  cases n with
  | succ n => exact Nat.succ_pos n
  | zero =>
    cases hstage : p.stage with
    | extra m =>
      rw [hstage] at hn hs
      cases hn
      exact absurd rfl hs
    | fixed | extraLength | filename | comment | checksum | done =>
      rw [hstage] at hn
      cases hn

/-- Behind a field another one is next, but never extra bytes without their length. -/
theorem firstFrom_ne_extra {flags : UInt8} {s : Stage} {n : Nat} (h : s ≠ .extra n) :
    firstFrom flags s ≠ .extra n := by
  cases s with
  | fixed | done => exact h
  | extra m => exact h
  | extraLength | filename | comment | checksum =>
    unfold firstFrom
    repeat' split
    all_goals nofun

theorem short_gather {n : Nat} (hn : p.stage.wanted = some n) (h : (p.gather bs).field.size < n) :
    (p.gather bs).Short := by
  intro m hm
  cases hn.symm.trans hm
  exact h

theorem finishExtra_ne_extra (p : HeaderParser) (n : Nat) : p.finishExtra.stage ≠ .extra n :=
  show firstFrom p.flags .filename ≠ .extra n from firstFrom_ne_extra nofun

theorem short_finishExtra (p : HeaderParser) : p.finishExtra.Short :=
  short_of_field_nil rfl (p.finishExtra_ne_extra 0)

theorem stage_finishFixed (hs : p.stage = .fixed) (f : Array UInt8) (n : Nat) :
    (p.finishFixed f).1.stage ≠ .extra n := by
  unfold finishFixed
  simp only
  repeat' split
  · exact fun h => nomatch hs.symm.trans h
  · exact fun h => nomatch hs.symm.trans h
  · exact fun h => nomatch hs.symm.trans h
  · exact firstFrom_ne_extra (s := .extraLength) nofun

theorem short_finishFixed (hs : p.stage = .fixed) (f : Array UInt8) :
    (p.finishFixed f).1.Short :=
  short_of_field_nil (field_finishFixed p f) (stage_finishFixed hs f 0)

theorem short_text {t : TextField} (hs : p.stage = t.stage) : p.Short := by
  intro n hn
  rw [hs] at hn
  cases t <;> cases hn

theorem Sound.feed (hp : p.Sound) (hd : p.isDone = false) (hs : p.stalled? = none) (b : UInt8) :
    (p.feed b).1.Sound := by
  have htext (t : TextField) (ht : p.stage = t.stage) : (p.feed b).1.Sound := by
    by_cases hb : b = 0
    · rw [hb, feed_zero ht]
      refine .inl (short_of_field_nil rfl (firstFrom_ne_extra (s := t.next) ?_))
      cases t <;> nofun
    · rw [feed_text ht hb]
      exact .inl (short_text (t := t) ht)
  cases hstage : p.stage with
  | fixed =>
    rw [feed_fixed hstage]
    split
    · next hlt => exact .inl (short_gather (by rw [hstage]; rfl) hlt)
    · exact .inl (short_finishFixed (p := p.gather [b]) hstage _)
  | extraLength =>
    rw [feed_extraLength hstage]
    split
    · next hlt => exact .inl (short_gather (by rw [hstage]; rfl) hlt)
    · simp only
      split
      · exact .inl (short_finishExtra _)
      · next hne =>
        exact .inl (short_of_field_nil rfl fun h => hne (Stage.extra.inj h))
  | extra n =>
    rw [feed_extra hstage]
    split
    · next hlt => exact .inl (short_gather (by rw [hstage]; rfl) hlt)
    · exact .inl (short_finishExtra _)
  | filename => exact htext .filename hstage
  | comment => exact htext .comment hstage
  | checksum =>
    have hshort : p.field.size < 2 := hp.short hs 2 (by rw [hstage]; rfl)
    rw [feed_checksum hstage]
    split
    · next hlt =>
      refine .inl fun n hn => ?_
      rw [show ({ p with field := p.field.push b } : HeaderParser).stage = _ from hstage] at hn
      cases hn
      simpa using hlt
    · next hge =>
      split
      · exact .inl (short_of_field_nil rfl nofun)
      · next hne =>
        refine .inr ⟨hstage, ?_, hne⟩
        rw [Array.size_push]
        omega
  | done =>
    rw [isDone, hstage] at hd
    cases hd

theorem sound_start : ({} : HeaderParser).Sound :=
  .inl (short_of_field_nil rfl nofun)

theorem Sound.takeHeader (hp : p.Sound) : p.takeHeader.2.Sound :=
  hp.imp id fun hm => ⟨hm.stage_eq, hm.size_eq, hm.stored_ne⟩

theorem Sound.use (hp : p.Sound) (u : Use) : (p.use u).1.Sound :=
  use_keeps (fun _ b hp hd hs => hp.feed hd hs b) sound_start (fun _ hp => hp.takeHeader) hp u

/-- After any calls. -/
theorem sound_uses (us : List Use) : (uses {} us).1.Sound :=
  uses_keeps (fun _ b hp hd hs => hp.feed hd hs b) sound_start (fun _ hp => hp.takeHeader) us

end GzipStream.HeaderParser
