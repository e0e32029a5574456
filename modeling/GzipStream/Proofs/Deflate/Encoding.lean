import GzipStream.Proofs.Compressors
import GzipStream.Proofs.Deflate.Blocks

/-!
# Encoding, read back

`Encoder.Sent e sent` says that what an encoder has given so far, and what waits in its queue, leads
a cursor to the place that the encoder's state stands for. Taking input, marks, blocks, the header
and the trailer keep it so, and a stream that ended decodes to all input (`Sent.takes_done`).
-/

namespace GzipStream.Deflate

theorem Effort.Usable.reach_le {e : Effort} (h : e.Usable) : e.reach ≤ 32768 := by
  have hp : Nat.pow 2 e.windowBits ≤ Nat.pow 2 15 := Nat.pow_le_pow_right (by decide) h.2
  have h15 : Nat.pow 2 15 = 32768 := by decide
  unfold Effort.reach
  omega

namespace Encoder

variable {e : Encoder} {sent : Bytes}

/-- Where what was written so far leads. -/
def target (e : Encoder) : Cursor :=
  if !e.opened then .start e.zlib
  else if !e.closed then .between e.zlib (e.data.extract 0 e.blocked)
  else if e.trailed then ⟨⟨e.zlib, true⟩, .done, e.data⟩
  else .blockEnd ⟨e.zlib, true⟩ e.data

/-- What was sent, what is queued and the bits behind it lead to `y`. -/
def Leads (e : Encoder) (sent : Bytes) (y : Cursor) : Prop :=
  Written (.start e.zlib) ⟨(sent ++ e.queue).toArray, e.rest⟩ y

structure Sent (e : Encoder) (sent : Bytes) : Prop where
  leads : e.Leads sent e.target
  usable : e.effort.Usable
  blocked_le : e.blocked ≤ e.data.size
  held_lt : e.held < blockSize
  unopened : e.opened = false → e.zlib = true ∧ e.data = #[] ∧ e.closed = false ∧ e.rest = []
  aligned : e.closed = true → e.rest = []
  trailed : e.trailed = true → e.closed = true ∧ e.zlib = true

theorem Leads.takes {y : Cursor} (h : e.Leads sent y) (hr : e.rest = []) :
    (Cursor.start e.zlib).Takes (sent ++ e.queue) y := by
  obtain ⟨z, ht, hz, -⟩ := h
  simp only [hr] at hz
  rw [← show z = y from hz]
  exact ht

theorem leads_of_takes {y : Cursor} (hr : e.rest = [])
    (h : (Cursor.start e.zlib).Takes (sent ++ e.queue) y) : e.Leads sent y := by
  refine ⟨y, h, ?_, ?_⟩
  · simp only [hr]
    rfl
  · simp only [hr]
    decide

/-- Writing behind what is there. -/
theorem Leads.emit {y y' : Cursor} (h : e.Leads sent y) (write : BitWriter → BitWriter)
    (hwrite : ∀ {z w}, Written z w y → Written z (write w) y') : (e.emit write).Leads sent y' := by
  obtain ⟨z, ht, hr, hlen⟩ := h
  obtain ⟨z', ht', hr', hlen'⟩ := hwrite (z := z) (w := ⟨#[], e.rest⟩) ⟨z, rfl, hr, hlen⟩
  refine ⟨z', ?_, hr', hlen'⟩
  show (Cursor.start e.zlib).Takes (sent ++ (e.queue ++ (write ⟨#[], e.rest⟩).bytes.toList)) z'
  rw [← List.append_assoc]
  exact ht.append ht'

theorem target_of_open (ho : e.opened = true) (hc : e.closed = false) :
    e.target = .between e.zlib (e.data.extract 0 e.blocked) := by
  simp only [target, ho, hc]
  rfl

section
variable (h : e.Sent sent)
include h

theorem Sent.opened_of_closed (hc : e.closed = true) : e.opened = true := by
  cases ho : e.opened with
  | true => rfl
  | false =>
    obtain ⟨-, -, hclosed, -⟩ := h.unopened ho
    exact absurd (hclosed.symm.trans hc) Bool.false_ne_true

theorem Sent.leads_closed (hc : e.closed = true) (ht : e.trailed = false) :
    e.Leads sent (.blockEnd ⟨e.zlib, true⟩ e.data) := by
  have hl := h.leads
  simp only [target, h.opened_of_closed hc, hc, ht] at hl
  exact hl

/-- The empty block of a flush leads nowhere else. -/
theorem Sent.mark (ho : e.opened = true) (hc : e.closed = false) : e.mark.Sent sent := by
  have hl := h.leads
  rw [target_of_open ho hc] at hl
  have hmark := hl.emit (storedBlock false []) fun hw => hw.storedBlock false (Nat.zero_le _)
  rw [Array.appendList_nil] at hmark
  refine ⟨?_, h.usable, h.blocked_le, h.held_lt, ?_, ?_, h.trailed⟩
  · rw [target_of_open (show e.mark.opened = true from ho) (show e.mark.closed = false from hc)]
    exact hmark
  · intro hopened
    exact absurd (hopened.symm.trans ho) Bool.false_ne_true
  · intro hclosed
    exact absurd (hc.symm.trans hclosed) Bool.false_ne_true

end

/-- A block of all that is held. -/
theorem Leads.closeBlock (final : Bool)
    (hl : e.Leads sent (.between e.zlib (e.data.extract 0 e.blocked))) (hu : e.effort.Usable)
    (hb : e.blocked ≤ e.data.size) (hheld : e.held ≤ blockSize) :
    (e.closeBlock final).Leads sent (.blockEnd ⟨e.zlib, final⟩ e.data) :=
  hl.emit _ fun hw => hw.writeBlock hu.reach_le hb hheld

/-- A block in the middle of the stream. -/
theorem sent_closeBlock (hl : e.Leads sent (.between e.zlib (e.data.extract 0 e.blocked)))
    (hu : e.effort.Usable) (hb : e.blocked ≤ e.data.size) (hheld : e.held ≤ blockSize)
    (ho : e.opened = true) (ht : e.trailed = false) : (e.closeBlock false).Sent sent := by
  have hnew := hl.closeBlock false hu hb hheld
  refine ⟨?_, hu, Nat.le_refl _, ?_, ?_, nofun, ?_⟩
  · rw [target_of_open (show (e.closeBlock false).opened = true from ho) rfl]
    show (e.closeBlock false).Leads sent (.between e.zlib (e.data.extract 0 e.data.size))
    rw [Array.extract_size]
    exact hnew
  · show e.data.size - e.data.size < blockSize
    rw [Nat.sub_self]
    decide
  · intro hopened
    exact absurd (hopened.symm.trans ho) Bool.false_ne_true
  · intro htrailed
    exact absurd (ht.symm.trans htrailed) Bool.false_ne_true

theorem Sent.not_trailed (h : e.Sent sent) (hc : e.closed = false) : e.trailed = false := by
  cases ht : e.trailed with
  | false => rfl
  | true => exact absurd (hc.symm.trans (h.trailed ht).1) Bool.false_ne_true

theorem Sent.closeBlock (h : e.Sent sent) (ho : e.opened = true) (hc : e.closed = false) :
    (e.closeBlock false).Sent sent := by
  have hl := h.leads
  rw [target_of_open ho hc] at hl
  exact sent_closeBlock hl h.usable h.blocked_le (Nat.le_of_lt h.held_lt) ho (h.not_trailed hc)

/-- What taking input leaves as it was, and the input behind what was taken before. -/
structure Holds (e : Encoder) (bs : Bytes) (e' : Encoder) : Prop where
  opened_eq : e'.opened = e.opened
  closed_eq : e'.closed = e.closed
  zlib_eq : e'.zlib = e.zlib
  data_eq : e'.data = e.data ++ bs

theorem holds_holdAll (hc : e.closed = false) (bs : Bytes) : e.Holds bs (e.holdAll bs) := by
  induction bs generalizing e with
  | nil => exact ⟨rfl, rfl, rfl, Array.appendList_nil.symm⟩
  | cons b bs ih =>
    have hpush : e.data ++ (b :: bs) = e.data.push b ++ bs := by
      apply Array.toList_inj.mp
      simp
    simp only [Encoder.holdAll]
    split
    · have h := ih (e := ({ e with data := e.data.push b } : Encoder).closeBlock false) rfl
      exact ⟨h.opened_eq, h.closed_eq.trans hc.symm, h.zlib_eq, h.data_eq.trans hpush.symm⟩
    · have h := ih (e := { e with data := e.data.push b }) hc
      exact ⟨h.opened_eq, h.closed_eq, h.zlib_eq, h.data_eq.trans hpush.symm⟩

/-- Taking input, with blocks cut off wherever they are full. -/
theorem Sent.holdAll (h : e.Sent sent) (ho : e.opened = true) (hc : e.closed = false) (bs : Bytes) :
    (e.holdAll bs).Sent sent := by
  induction bs generalizing e with
  | nil => exact h
  | cons b bs ih =>
    have hl := h.leads
    rw [target_of_open ho hc] at hl
    have hb := h.blocked_le
    have hheld := h.held_lt
    -- the byte is held; what is in a block stays
    let e' : Encoder := { e with data := e.data.push b }
    have hextract : e'.data.extract 0 e'.blocked = e.data.extract 0 e.blocked :=
      Array.extract_push_of_le hb
    have hb' : e'.blocked ≤ e'.data.size := by
      show e.blocked ≤ (e.data.push b).size
      rw [Array.size_push]
      omega
    have hheld' : e'.held ≤ blockSize := by
      show (e.data.push b).size - e.blocked ≤ blockSize
      rw [Array.size_push]
      unfold held at hheld
      omega
    have hl' : e'.Leads sent (.between e'.zlib (e'.data.extract 0 e'.blocked)) := by
      rw [hextract]
      exact hl
    have hstep : e.holdAll (b :: bs) =
        (if e'.held = blockSize then e'.closeBlock false else e').holdAll bs := rfl
    rw [hstep]
    split
    · exact ih (sent_closeBlock hl' h.usable hb' hheld' ho (h.not_trailed hc)) ho rfl
    · next hfull =>
      refine ih ⟨?_, h.usable, hb', ?_, ?_, ?_, ?_⟩ ho hc
      · rw [target_of_open (show e'.opened = true from ho) (show e'.closed = false from hc)]
        exact hl'
      · exact Nat.lt_of_le_of_ne hheld' hfull
      · intro hopened
        exact absurd (hopened.symm.trans ho) Bool.false_ne_true
      · exact h.aligned
      · exact h.trailed

/-! ## Both ends of a stream -/

theorem takes_zlibHeader {effort : Effort} (h : effort.Usable) :
    (Cursor.start true).Takes (zlibHeader effort) (.between true #[]) := by
  have hheader : ∀ bits < 16, 8 ≤ bits → ∀ levelBits < 4,
      Mode.afterZlibHeader (UInt8.ofNat ((bits - 8) * 16 + 8)) (UInt8.ofNat
        (levelBits * 64 + (31 - (((bits - 8) * 16 + 8) * 256 + levelBits * 64) % 31))) =
          .blockHeader {} := by
    decide +kernel
  have hmode := hheader effort.windowBits (Nat.lt_succ_of_le h.2) h.1
    (if effort.level ≤ 1 then 0 else if effort.level ≤ 5 then 1 else if effort.level = 6 then 2 else 3)
    (by repeat' split
        all_goals decide)
  refine ⟨rfl, rfl, ?_⟩
  show Cursor.mk _ (Mode.afterZlibHeader _ _) _ = _
  rw [hmode]
  rfl

/-- The encoder with its header queued. -/
def opening (e : Encoder) : Encoder :=
  { e with opened := true, queue := e.queue ++ zlibHeader e.effort }

theorem Sent.opening (h : e.Sent sent) (ho : e.opened = false) : e.opening.Sent sent := by
  obtain ⟨hzlib, hdata, hclosed, hrest⟩ := h.unopened ho
  have hl := h.leads.takes hrest
  have htarget : e.target = .start true := by simp only [target, ho, hzlib]; rfl
  rw [htarget, hzlib] at hl
  have hheader := hl.append (takes_zlibHeader h.usable)
  refine ⟨leads_of_takes hrest ?_, h.usable, h.blocked_le, h.held_lt, nofun, h.aligned, h.trailed⟩
  have hextract : (#[] : Array UInt8).extract 0 e.blocked = #[] := by simp
  rw [target_of_open rfl (show e.opening.closed = false from hclosed)]
  simp only [Encoder.opening, hzlib, hdata, hextract, ← List.append_assoc]
  exact hheader

/-- The encoder behind its last block. -/
def closing (e : Encoder) : Encoder := (e.closeBlock true).emit .align

theorem rest_align (w : BitWriter) : w.align.rest = [] := by
  unfold BitWriter.align
  split
  · next h => exact List.isEmpty_iff.mp h
  · rfl

theorem Sent.closing (h : e.Sent sent) (ho : e.opened = true) (hc : e.closed = false) :
    e.closing.Sent sent := by
  have hl := h.leads
  rw [target_of_open ho hc] at hl
  have halign {z : Cursor} {w : BitWriter} (hw : Written z w (.blockEnd ⟨e.zlib, true⟩ e.data)) :
      Written z w.align (.blockEnd ⟨e.zlib, true⟩ e.data) := by
    obtain ⟨hrest, ht⟩ := hw.align (by cases e.zlib <;> rfl) (by cases e.zlib <;> rfl)
    refine ⟨_, ht, ?_, ?_⟩
    · rw [hrest]
      rfl
    · rw [hrest]
      decide
  have hclosed := (hl.closeBlock true h.usable h.blocked_le (Nat.le_of_lt h.held_lt)).emit .align halign
  refine ⟨?_, h.usable, Nat.le_refl _, ?_, ?_, fun _ => rest_align _, ?_⟩
  · have htarget : e.closing.target = .blockEnd ⟨e.zlib, true⟩ e.data := by
      unfold target
      rw [show e.closing.opened = e.opened from rfl, show e.closing.trailed = e.trailed from rfl, ho,
        h.not_trailed hc]
      rfl
    rw [htarget]
    exact hclosed
  · show e.data.size - e.data.size < blockSize
    rw [Nat.sub_self]
    decide
  · intro hopened
    exact absurd (hopened.symm.trans ho) Bool.false_ne_true
  · intro htrailed
    exact absurd ((h.not_trailed hc).symm.trans htrailed) Bool.false_ne_true

/-- The last block is of at least one octet, since no octet in front of it can end the stream. -/
theorem Sent.closing_queue (h : e.Sent sent) (ho : e.opened = true) (hc : e.closed = false) :
    e.closing.queue ≠ [] := by
  intro hnil
  have hq : e.queue = [] := by
    have : e.closing.queue = e.queue ++ _ ++ _ := rfl
    rw [this, List.append_eq_nil_iff, List.append_eq_nil_iff] at hnil
    exact hnil.1.1
  obtain ⟨z, ht, hr, -⟩ := h.leads
  rw [target_of_open ho hc] at hr
  have hend := (h.closing ho hc).leads_closed rfl (h.not_trailed hc) |>.takes (rest_align _)
  rw [hnil] at hend
  simp only [hq] at ht
  have hz : z = .blockEnd ⟨e.zlib, true⟩ e.data := ht.foldl_eq.symm.trans hend.foldl_eq
  have hwants : (Cursor.blockEnd ⟨e.zlib, true⟩ e.data).mode.wantsBit = false := by
    cases e.zlib <;> rfl
  rw [hz] at hr
  obtain ⟨-, hsame⟩ := hr.eq_nil hwants
  have hmode := congrArg (fun c : Cursor => c.mode.wantsBit) hsame
  rw [hwants] at hmode
  cases hmode

theorem takes_checksum (c : Context) (data : Array UInt8) :
    Cursor.Takes ⟨c, .checksum [], data⟩ (bigEndian 4 (Adler32.ofBytes data.toList))
      ⟨c, .done, data⟩ := by
  have hbytes {b0 b1 b2 b3 : UInt8}
      (h : [b0, b1, b2, b3] = bigEndian 4 (Adler32.ofBytes data.toList)) :
      Cursor.Takes ⟨c, .checksum [], data⟩ [b0, b1, b2, b3] ⟨c, .done, data⟩ := by
    have ht : Cursor.Takes ⟨c, .checksum [], data⟩ [b0, b1, b2, b3]
        ⟨c, if [b0, b1, b2, b3] = bigEndian 4 (Adler32.ofBytes data.toList) then .done
          else .failed .badDataCheck, data⟩ := ⟨rfl, rfl, rfl, rfl, rfl⟩
    rwa [if_pos h] at ht
  exact hbytes rfl

theorem Sent.addTrailer (h : e.Sent sent) (hz : e.zlib = true) (hc : e.closed = true)
    (ht : e.trailed = false) : e.addTrailer.Sent sent := by
  have hrest := h.aligned hc
  have hl := (h.leads_closed hc ht).takes hrest
  rw [hz] at hl
  have htrailer := hl.append (takes_checksum ⟨true, true⟩ e.data)
  refine ⟨leads_of_takes hrest ?_, h.usable, h.blocked_le, h.held_lt, ?_, h.aligned,
    fun _ => ⟨hc, hz⟩⟩
  · have htarget : e.addTrailer.target = ⟨⟨true, true⟩, .done, e.data⟩ := by
      simp only [target, Encoder.addTrailer, h.opened_of_closed hc, hc, hz]
      rfl
    rw [htarget]
    simp only [Encoder.addTrailer, hz, ← List.append_assoc]
    exact htrailer
  · intro hopened
    exact absurd (hopened.symm.trans (h.opened_of_closed hc)) Bool.false_ne_true

/-- All is written and given. -/
structure Finished (e : Encoder) : Prop where
  closed : e.closed = true
  queue_eq : e.queue = []
  trailed : e.zlib = true → e.trailed = true

theorem Sent.takes_done (h : e.Sent sent) (hf : e.Finished) :
    (Cursor.start e.zlib).Takes sent ⟨⟨e.zlib, true⟩, .done, e.data⟩ := by
  have hl := h.leads.takes (h.aligned hf.closed)
  have htarget : e.target = ⟨⟨e.zlib, true⟩, .done, e.data⟩ := by
    simp only [target, h.opened_of_closed hf.closed, hf.closed]
    cases hz : e.zlib with
    | false => cases e.trailed <;> rfl
    | true =>
      rw [hf.trailed hz]
      rfl
  rw [htarget, hf.queue_eq, List.append_nil] at hl
  exact hl

theorem sent_start (zlib : Bool) (effort : Effort) (h : effort.Usable) :
    (start zlib effort).Sent [] := by
  refine ⟨leads_of_takes rfl ?_, h, Nat.le_refl _, ?_, ?_, nofun, nofun⟩
  · cases zlib <;> rfl
  · show 0 < blockSize
    decide
  · intro ho
    cases zlib with
    | false => cases ho
    | true => exact ⟨rfl, rfl, rfl, rfl⟩

end Encoder

end GzipStream.Deflate
