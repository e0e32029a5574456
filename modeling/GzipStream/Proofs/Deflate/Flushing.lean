import GzipStream.Proofs.Deflate.Delivery

/-!
# Flushing an encoder

A flush is done where nothing is held, queued or left in bits (`Encoder.Flushed`): what was given
then leads to the end of a block, behind all input (`Sent.takes_between`). A step that flushes gets
there or fills its room (`Synced.step`). A flush that is asked for twice is not done twice, so what
an encoder remembers of its last step must be true (`Encoder.Synced`).
-/

namespace GzipStream.Deflate.Encoder

variable {e : Encoder} {sent input : Bytes} {room : Nat} {flush : Flush}

structure Flushed (e : Encoder) : Prop where
  opened : e.opened = true
  held_eq : e.held = 0
  queue_eq : e.queue = []
  rest_eq : e.rest = []

/-- If the last step is remembered as a flush, the flush is done. -/
def Synced (e : Encoder) : Prop := e.previous = none ∨ e.previous = some .none ∨ e.Flushed

/-- All that was given is whole blocks, and they hold all input. -/
theorem Sent.takes_between (h : e.Sent sent) (hf : e.Flushed) (hc : e.closed = false) :
    (Cursor.start e.zlib).Takes sent (.between e.zlib e.data) := by
  have ht := h.leads.takes hf.rest_eq
  have hall : e.data.size ≤ e.blocked := by
    have hheld : e.data.size - e.blocked = 0 := hf.held_eq
    omega
  rwa [target_of_open hf.opened hc, hf.queue_eq, List.append_nil,
    Array.extract_eq_self_of_le hall] at ht

theorem rest_mark (e : Encoder) : e.mark.rest = [] := rest_align _

theorem previous_holdAll (e : Encoder) (bs : Bytes) : (e.holdAll bs).previous = e.previous := by
  induction bs generalizing e with
  | nil => rfl
  | cons b bs ih =>
    simp only [holdAll]
    split
    · exact ih _
    · exact ih _

namespace Delivery

variable {d : Delivery}

/-- What a step leaves that does not end the stream. -/
structure Settles (flush : Flush) (r : Delivery × EncodeVerdict) : Prop where
  synced : r.1.encoder.Synced
  flushed : flush = .sync → r.1.room ≠ 0 → r.1.encoder.Flushed

/-- A step that filled its room remembers nothing. -/
theorem settles_pause (flush : Flush) (h : d.room = 0) : Settles flush d.pause :=
  ⟨.inl rfl, fun _ hroom => absurd h hroom⟩

theorem settles_none {v : EncodeVerdict} (h : d.encoder.previous = some .none) :
    Settles .none (d, v) := ⟨.inr (.inl h), nofun⟩

theorem settles_deliver (h : d.encoder.previous = some .none) : Settles .none
    (if d.deliver.room = 0 then d.deliver.pause else (d.deliver, .working)) := by
  split
  · next hroom => exact settles_pause .none hroom
  · exact settles_none h

/-- The mark ends at an octet. -/
theorem settles_writeMark (ho : d.encoder.opened = true) (hh : d.encoder.held = 0) :
    Settles .sync d.writeMark := by
  unfold writeMark
  simp only
  split
  · next hroom => exact settles_pause .sync hroom
  · next hroom =>
    have hf : (deliver { d with encoder := d.encoder.mark }).encoder.Flushed :=
      ⟨ho, hh, queue_deliver_of_room hroom, d.encoder.rest_mark⟩
    exact ⟨.inr (.inr hf), fun _ _ => hf⟩

theorem settles_sync (ho : d.encoder.opened = true) : Settles .sync (d.asked .sync) := by
  simp only [asked]
  split
  · next hheld => exact settles_writeMark ho hheld
  · split
    · next hroom => exact settles_pause .sync hroom
    · exact settles_writeMark ho (Nat.sub_self _)

theorem settles_write (ho : d.encoder.opened = true) (hc : d.encoder.closed = false)
    (hp : d.encoder.previous = some flush) (hf : flush ≠ .finish) :
    Settles flush (d.write input flush) := by
  let held : Delivery := { d with encoder := d.encoder.holdAll input }
  have hwrite : d.write input flush =
      held.asked (if held.room = 0 && held.encoder.defers then .none else flush) := rfl
  rw [hwrite]
  split
  · next hdefers =>
    -- there is no room at all, so the flush is put off
    have hroom : held.deliver.room = 0 := by
      simp only [Bool.and_eq_true, decide_eq_true_eq] at hdefers
      rw [room_deliver, hdefers.1]
      rfl
    rw [asked, if_pos hroom]
    exact settles_pause flush hroom
  · cases flush with
    | none => exact settles_deliver ((d.encoder.previous_holdAll input).trans hp)
    | sync => exact settles_sync ((holds_holdAll hc input).opened_eq.trans ho)
    | finish => exact absurd rfl hf

theorem opened_begin (d : Delivery) : d.begin.encoder.opened = true := by
  unfold begin
  split
  · next ho => exact ho
  · rfl

theorem closed_begin (d : Delivery) : d.begin.encoder.closed = d.encoder.closed := by
  unfold begin
  split <;> rfl

theorem previous_begin (d : Delivery) : d.begin.encoder.previous = d.encoder.previous := by
  unfold begin
  split <;> rfl

/-- A header that is left over filled the room. -/
theorem room_begin (hq : d.encoder.queue = []) (hne : d.begin.encoder.queue ≠ []) :
    d.begin.room = 0 := by
  unfold begin at hne ⊢
  split
  · next ho =>
    rw [if_pos ho] at hne
    exact absurd hq hne
  · next ho =>
    rw [if_neg ho] at hne
    exact Decidable.byContradiction fun hroom => hne (queue_deliver_of_room hroom)

theorem settles_advance (hc : d.encoder.closed = false) (hq : d.encoder.queue = [])
    (hp : d.encoder.previous = some flush) (hf : flush ≠ .finish) :
    Settles flush (d.advance input flush) := by
  have hbegun : d.begin.encoder.closed = false := d.closed_begin.trans hc
  unfold advance
  rw [hc]
  simp only [Bool.false_and, Bool.false_eq_true, if_false, hbegun]
  split
  · next hqueue =>
    simp only [Bool.not_eq_true', List.isEmpty_eq_false_iff] at hqueue
    exact settles_pause flush (room_begin hq hqueue)
  · split
    · next hidle =>
      simp only [Bool.and_eq_true, beq_iff_eq] at hidle
      obtain ⟨-, rfl⟩ := hidle
      exact settles_none (d.previous_begin.trans hp)
    · exact settles_write d.opened_begin hbegun (d.previous_begin.trans hp) hf

end Delivery

/-- An encoder that has nothing to do for a flush is flushed. -/
theorem Synced.flushed_of_idle (h : e.Synced) (hidle : e.isIdle input .sync = true) : e.Flushed := by
  simp only [isIdle, Bool.and_eq_true] at hidle
  rcases h with hp | hp | hf
  · rw [hp] at hidle
    cases hidle.2
  · rw [hp] at hidle
    cases hidle.2
  · exact hf

open Delivery in
/-- A step does not forget what it has to do, and a flush goes on until it is done or the room is
used up. -/
theorem Synced.step (h : e.Synced) (hc : e.closed = false) (input : Bytes) (room : Nat)
    (hf : flush ≠ .finish) : Settles flush (e.step input room flush) := by
  have hused : ¬ (e.closed && flush != .finish) = true := by simp [hc]
  rw [Encoder.step, if_neg hused]
  split
  · next hroom => exact ⟨h, fun _ hne => absurd hroom hne⟩
  · simp only
    split
    · next hidle =>
      cases flush with
      | none => exact settles_none rfl
      | sync =>
        have hflushed := h.flushed_of_idle hidle
        have hnoted : Flushed { e with previous := some .sync } :=
          ⟨hflushed.opened, hflushed.held_eq, hflushed.queue_eq, hflushed.rest_eq⟩
        exact ⟨.inr (.inr hnoted), fun _ _ => hnoted⟩
      | finish => exact absurd rfl hf
    · split
      · next hfull =>
        simp only [Bool.and_eq_true, decide_eq_true_eq] at hfull
        exact settles_pause flush hfull.2
      · next hfull =>
        refine settles_advance hc ?_ rfl hf
        -- the queue was empty, or there is room behind it
        simp only [Bool.and_eq_true, Bool.not_eq_true', List.isEmpty_eq_false_iff,
          decide_eq_true_eq, not_and] at hfull
        by_cases hq : e.queue = []
        · simp [deliver, hq]
        · exact queue_deliver_of_room (hfull hq)

end GzipStream.Deflate.Encoder
