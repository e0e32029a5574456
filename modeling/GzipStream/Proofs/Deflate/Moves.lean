import GzipStream.Proofs.Deflate.Delivery

/-!
# The moves of an encoder

A step that is not a flush is made of a few moves (`worked_step`): output is given, the stream is
opened, input is taken, the stream is closed, its trailer is written. What every move keeps, a step
keeps: here, that the stream is at most twice as long as its input, and a few bytes (`Moves.slim`).
-/

namespace GzipStream.Deflate.Encoder

namespace Delivery

/-- What single moves make of `d`; `taken` is the input that one of them takes. -/
inductive Moves (d : Delivery) : (taken : Bytes) → Delivery → Prop
  | start : Moves d [] d
  | gave {taken : Bytes} {d' : Delivery} (moves : Moves d taken d') : Moves d taken d'.deliver
  | noted {taken : Bytes} {d' : Delivery} (moves : Moves d taken d') (p : Option Flush) :
      Moves d taken { d' with encoder := { d'.encoder with previous := p } }
  | opened {taken : Bytes} {d' : Delivery} (moves : Moves d taken d')
      (unopened : d'.encoder.opened = false) :
      Moves d taken { d' with encoder := d'.encoder.opening }
  | took {d' : Delivery} (moves : Moves d [] d') (unclosed : d'.encoder.closed = false)
      (input : Bytes) : Moves d input { d' with encoder := d'.encoder.holdAll input }
  | closed {taken : Bytes} {d' : Delivery} (moves : Moves d taken d')
      (unclosed : d'.encoder.closed = false) :
      Moves d taken { d' with encoder := d'.encoder.closing }
  | trailed {taken : Bytes} {d' : Delivery} (moves : Moves d taken d')
      (untrailed : d'.encoder.trailed = false) :
      Moves d taken { d' with encoder := d'.encoder.addTrailer }

/-- What a step comes to: moves that take all input, or none of it and close nothing. -/
def Worked (d : Delivery) (input : Bytes) (r : Delivery × EncodeVerdict) : Prop :=
  ∃ taken, d.Moves taken r.1 ∧
    (taken = input ∨ taken = [] ∧ r.1.encoder.closed = d.encoder.closed)

section
variable {d d' : Delivery} {taken input : Bytes} {flush : Flush}

theorem Moves.data_eq (h : d.Moves taken d') : d'.encoder.data = d.encoder.data ++ taken := by
  induction h with
  | start => exact Array.appendList_nil.symm
  | gave moves ih => exact ih
  | noted moves p ih => exact ih
  | opened moves unopened ih => exact ih
  | took moves unclosed input ih =>
    rw [Array.appendList_nil] at ih
    exact (holds_holdAll unclosed input).data_eq.trans (by rw [ih])
  | closed moves unclosed ih => exact ih
  | trailed moves untrailed ih => exact ih

/-- A step that left its input closed nothing. -/
theorem Worked.unread {r : Delivery × EncodeVerdict} (h : d.Worked input r) (hne : input ≠ [])
    (hdata : r.1.encoder.data = d.encoder.data) : r.1.encoder.closed = d.encoder.closed := by
  obtain ⟨taken, hmoves, rfl | ⟨-, hsame⟩⟩ := h
  · have hlen := congrArg Array.size (hmoves.data_eq.symm.trans hdata)
    rw [← Array.length_toList, Array.toList_appendList, List.length_append, Array.length_toList] at hlen
    exact absurd (List.length_eq_zero_iff.mp (by omega)) hne
  · exact hsame

theorem Moves.pause (h : d.Moves taken d') : d.Moves taken d'.pause.1 := h.noted none

/-- The trailer is given. -/
theorem Moves.conclude (h : d.Moves taken d') : d.Moves taken d'.conclude.1 := by
  unfold Delivery.conclude
  split
  · next ht =>
    simp only [Bool.and_eq_true, Bool.not_eq_true'] at ht
    exact (h.trailed ht.2).gave
  · exact h

/-- Output is given, and the step pauses where that fills the room. -/
theorem Moves.deliver (h : d.Moves taken d') : d.Moves taken
    (if d'.deliver.room = 0 then d'.deliver.pause else (d'.deliver, .working)).1 := by
  split
  · exact h.gave.pause
  · exact h.gave

/-- All input is taken, and the stream closed if that is asked. -/
theorem Moves.write (h : d.Moves [] d') (hc : d'.encoder.closed = false) (input : Bytes)
    (hflush : flush ≠ .sync) : d.Moves input (d'.write input flush).1 := by
  let held : Delivery := { d' with encoder := d'.encoder.holdAll input }
  have htook : d.Moves input held := h.took hc input
  have hwrite : d'.write input flush =
      held.asked (if held.room = 0 && held.encoder.defers then .none else flush) := rfl
  rw [hwrite]
  split
  · -- there is no room at all, so finishing is put off
    exact htook.deliver
  · cases flush with
    | none => exact htook.deliver
    | sync => exact absurd rfl hflush
    | finish =>
      have hgave := (htook.closed ((holds_holdAll hc input).closed_eq.trans hc)).gave
      simp only [asked]
      split
      · exact hgave.pause
      · exact hgave.conclude

/-- The header of the stream is given, if that was not done before. -/
theorem Moves.begin (h : d.Moves taken d') : d.Moves taken d'.begin ∧
    d'.begin.encoder.closed = d'.encoder.closed := by
  unfold Delivery.begin
  split
  · exact ⟨h, rfl⟩
  · next ho =>
    have hopened : d.Moves taken { d' with encoder := d'.encoder.opening } :=
      h.opened (eq_false_of_ne_true ho)
    exact ⟨hopened.gave, rfl⟩

/-- What comes behind the output that was queued. -/
theorem Moves.advance (h : d.Moves [] d') (hsame : d'.encoder.closed = d.encoder.closed)
    (hflush : flush ≠ .sync) (hc : d.encoder.closed = true → input = []) :
    d.Worked input (d'.advance input flush) := by
  obtain ⟨hbegin, hclosed⟩ := h.begin
  have hkept : d'.begin.encoder.closed = d.encoder.closed := hclosed.trans hsame
  unfold Delivery.advance
  split
  · next hlate =>
    simp only [Bool.and_eq_true, Bool.not_eq_true', List.isEmpty_eq_false_iff] at hlate
    exact absurd (hc (hsame ▸ hlate.1)) hlate.2
  · simp only
    split
    · exact ⟨[], hbegin.pause, .inr ⟨rfl, hkept⟩⟩
    · split
      · next hcl =>
        have hnil : input = [] := hc (hkept ▸ hcl)
        exact ⟨[], hbegin.conclude, .inl hnil.symm⟩
      · next hcl =>
        split
        · next hidle =>
          simp only [Bool.and_eq_true, List.isEmpty_iff, beq_iff_eq] at hidle
          exact ⟨[], hbegin, .inl hidle.1.symm⟩
        · exact ⟨input, hbegin.write (eq_false_of_ne_true hcl) input hflush, .inl rfl⟩

end

end Delivery

open Delivery in
/-- A step that is not a flush, where input comes before the last block. -/
theorem worked_step (e : Encoder) {input : Bytes} (room : Nat) {flush : Flush}
    (hflush : flush ≠ .sync) (hc : e.closed = true → flush = .finish ∧ input = []) :
    Worked ⟨e, [], room⟩ input (e.step input room flush) := by
  have hused : ¬ (e.closed && flush != .finish) = true := by
    simp only [Bool.and_eq_true, bne_iff_ne, not_and]
    exact fun hcl hne => hne (hc hcl).1
  rw [Encoder.step, if_neg hused]
  split
  · exact ⟨[], .start, .inr ⟨rfl, rfl⟩⟩
  · have hnoted : Moves ⟨e, [], room⟩ [] ⟨{ e with previous := some flush }, [], room⟩ :=
      Moves.start.noted (some flush)
    simp only
    split
    · exact ⟨[], hnoted, .inr ⟨rfl, rfl⟩⟩
    · split
      · exact ⟨[], hnoted.gave.pause, .inr ⟨rfl, rfl⟩⟩
      · exact hnoted.gave.advance rfl hflush fun hcl => (hc hcl).2

/-! ## Length -/

/-- Most bits that were written so far: sixteen for every byte in a block, and what frames them. -/
def allotted (e : Encoder) : Nat :=
  16 * e.blocked + 16 * e.opened.toNat + 64 * e.closed.toNat + 32 * e.trailed.toNat

/-- What was given and what waits keeps within what is allotted. -/
structure Slim (e : Encoder) (given : Nat) : Prop where
  bits_le : 8 * (given + e.queue.length) + e.rest.length ≤ e.allotted
  blocked_le : e.blocked ≤ e.data.size

section
variable {e : Encoder} {given : Nat}

/-- Less than two bytes for every byte of input. -/
theorem Slim.length_le (h : e.Slim given) : given + e.queue.length ≤ 2 * e.data.size + 14 := by
  have hbits := h.bits_le
  have hblocked := h.blocked_le
  have ho := e.opened.toNat_le
  have hc := e.closed.toNat_le
  have ht := e.trailed.toNat_le
  unfold allotted at hbits
  omega

theorem bits_emit {k : Nat} {write : BitWriter → BitWriter} (e : Encoder)
    (hwrite : ∀ w, (write w).count ≤ w.count + k) :
    8 * (e.emit write).queue.length + (e.emit write).rest.length ≤
      8 * e.queue.length + e.rest.length + k := by
  have h := hwrite ⟨#[], e.rest⟩
  simp only [BitWriter.count, List.size_toArray, List.length_nil] at h
  simp only [emit, List.length_append, Array.length_toList]
  omega

theorem bits_closeBlock (e : Encoder) (final : Bool) :
    8 * (e.closeBlock final).queue.length + (e.closeBlock final).rest.length ≤
      8 * e.queue.length + e.rest.length + (11 * e.held + 42) :=
  e.bits_emit fun w => count_writeBlock e.effort final e.data e.blocked w

theorem Slim.holdAll (h : e.Slim given) (hc : e.closed = false) (bs : Bytes) :
    (e.holdAll bs).Slim given := by
  induction bs generalizing e with
  | nil => exact h
  | cons b bs ih =>
    have hbits := h.bits_le
    have hblocked := h.blocked_le
    let e' : Encoder := { e with data := e.data.push b }
    have hsize : e'.data.size = e.data.size + 1 := Array.size_push _
    have hstep : e.holdAll (b :: bs) =
        (if e'.held = blockSize then e'.closeBlock false else e').holdAll bs := rfl
    rw [hstep]
    split
    · next hfull =>
      -- a full block is long enough to pay for what frames it
      have hblock := e'.bits_closeBlock false
      have hbound : blockSize = 65535 := rfl
      have hheld : e'.held = e'.data.size - e.blocked := rfl
      refine ih ⟨?_, Nat.le_refl _⟩ rfl
      simp only [allotted, hc] at hbits
      simp only [allotted, closeBlock] at hblock ⊢
      simp only [e', emit] at *
      omega
    · refine ih ⟨hbits, ?_⟩ hc
      show e.blocked ≤ e'.data.size
      omega

theorem Slim.closing (h : e.Slim given) (hc : e.closed = false) : e.closing.Slim given := by
  have hbits := h.bits_le
  have hblocked := h.blocked_le
  have hblock := e.bits_closeBlock true
  have halign := (e.closeBlock true).bits_emit BitWriter.count_align
  have hheld : e.held = e.data.size - e.blocked := rfl
  refine ⟨?_, Nat.le_refl _⟩
  simp only [allotted, hc] at hbits
  show 8 * (given + e.closing.queue.length) + e.closing.rest.length ≤
    16 * e.data.size + 16 * e.opened.toNat + 64 * (true).toNat + 32 * e.trailed.toNat
  simp only [Encoder.closing, Bool.toNat_true, Bool.toNat_false] at *
  omega

open Delivery in
/-- Whatever moves are made, a slim stream stays slim. -/
theorem Delivery.Moves.slim {d d' : Delivery} {taken : Bytes} (h : d.Moves taken d')
    (hd : d.encoder.Slim (given + d.output.length)) : d'.encoder.Slim (given + d'.output.length) := by
  induction h with
  | start => exact hd
  | @gave taken d' moves ih =>
    have hbits := ih.bits_le
    have hlength := d'.length_deliver
    have hqueue := d'.queue_deliver
    refine ⟨?_, ih.blocked_le⟩
    show 8 * (given + d'.deliver.output.length + d'.deliver.encoder.queue.length) +
      d'.encoder.rest.length ≤ d'.encoder.allotted
    omega
  | noted moves p ih => exact ⟨ih.bits_le, ih.blocked_le⟩
  | @opened taken d' moves unopened ih =>
    have hbits := ih.bits_le
    refine ⟨?_, ih.blocked_le⟩
    simp only [allotted, unopened] at hbits
    simp only [allotted, opening, List.length_append, zlibHeader, List.length_cons, List.length_nil,
      Bool.toNat_true, Bool.toNat_false] at *
    omega
  | took moves unclosed input ih => exact ih.holdAll unclosed input
  | closed moves unclosed ih => exact ih.closing unclosed
  | @trailed taken d' moves untrailed ih =>
    have hbits := ih.bits_le
    refine ⟨?_, ih.blocked_le⟩
    simp only [allotted, untrailed] at hbits
    simp only [allotted, addTrailer, List.length_append, bigEndian, List.length_reverse,
      length_littleEndian, Bool.toNat_true, Bool.toNat_false] at *
    omega

end

theorem slim_start (zlib : Bool) (effort : Effort) : (start zlib effort).Slim 0 :=
  ⟨Nat.zero_le _, Nat.le_refl _⟩

end GzipStream.Deflate.Encoder
