import GzipStream.Proofs.Deflate.Delivery

/-!
# The totals of an encoder

The totals of an encoder say what its steps took and gave, whatever is asked of it in which order
(`counted_step`).
-/

namespace GzipStream.Deflate.Encoder

namespace Delivery

variable {d d' d'' : Delivery} {taken input : Bytes} {flush : Flush}

/-- From `d` to `d'` the totals grow by what was taken and what was given. -/
structure Counted (d : Delivery) (taken : Bytes) (d' : Delivery) : Prop where
  data_eq : d'.encoder.data = d.encoder.data ++ taken
  totalOut_eq : d'.encoder.totalOut + d.output.length = d.encoder.totalOut + d'.output.length

/-- Nothing is given while the encoder is changed. -/
theorem counted_of_encoder {e : Encoder} (hdata : e.data = d.encoder.data ++ taken)
    (hout : e.totalOut = d.encoder.totalOut) : d.Counted taken { d with encoder := e } :=
  ⟨hdata, by rw [hout]⟩

theorem counted_of_data {e : Encoder} (hdata : e.data = d.encoder.data)
    (hout : e.totalOut = d.encoder.totalOut) : d.Counted [] { d with encoder := e } :=
  counted_of_encoder (hdata.trans Array.appendList_nil.symm) hout

theorem Counted.refl (d : Delivery) : d.Counted [] d := counted_of_data rfl rfl

/-- Giving on behind what was taken. -/
theorem Counted.trans (h : d.Counted taken d') (h' : d'.Counted [] d'') : d.Counted taken d'' := by
  refine ⟨?_, ?_⟩
  · rw [h'.data_eq, Array.appendList_nil, h.data_eq]
  · have hout := h.totalOut_eq
    have hout' := h'.totalOut_eq
    omega

/-- Taking input behind what was given. -/
theorem Counted.after (h : d.Counted [] d') (h' : d'.Counted taken d'') : d.Counted taken d'' := by
  refine ⟨?_, ?_⟩
  · rw [h'.data_eq, h.data_eq, Array.appendList_nil]
  · have hout := h.totalOut_eq
    have hout' := h'.totalOut_eq
    omega

theorem counted_deliver (d : Delivery) : d.Counted [] d.deliver := by
  refine ⟨Array.appendList_nil.symm, ?_⟩
  show d.encoder.totalOut + (d.encoder.queue.take d.room).length + d.output.length =
    d.encoder.totalOut + (d.output ++ d.encoder.queue.take d.room).length
  rw [List.length_append]
  omega

theorem counted_pause (d : Delivery) : d.Counted [] d.pause.1 := counted_of_data rfl rfl

theorem counted_conclude (d : Delivery) : d.Counted [] d.conclude.1 := by
  unfold conclude
  split
  · exact (counted_of_data (e := d.encoder.addTrailer) rfl rfl).trans (counted_deliver _)
  · exact .refl d

/-- Output is given, and the step pauses or goes on. -/
theorem Counted.given {r : Delivery × EncodeVerdict} (h : d.Counted taken d')
    (hr : d'.deliver.Counted [] r.1) :
    d.Counted taken (if d'.deliver.room = 0 then d'.deliver.pause else r).1 := by
  have hgave := h.trans d'.counted_deliver
  split
  · exact hgave.trans (counted_pause _)
  · exact hgave.trans hr

theorem counted_writeMark (d : Delivery) : d.Counted [] d.writeMark.1 :=
  (counted_of_data (e := d.encoder.mark) rfl rfl).given (r := (_, .working)) (.refl _)

theorem counted_asked (d : Delivery) (flush : Flush) : d.Counted [] (d.asked flush).1 := by
  cases flush with
  | none => exact (Counted.refl d).given (r := (_, .working)) (.refl _)
  | sync =>
    rw [asked]
    split
    · exact d.counted_writeMark
    · exact (counted_of_data (e := d.encoder.closeBlock false) rfl rfl).given (counted_writeMark _)
  | finish => exact (counted_of_data (e := d.encoder.closing) rfl rfl).given (counted_conclude _)

theorem totalOut_holdAll (e : Encoder) (bs : Bytes) : (e.holdAll bs).totalOut = e.totalOut := by
  induction bs generalizing e with
  | nil => rfl
  | cons b bs ih =>
    simp only [Encoder.holdAll]
    rw [ih]
    split <;> rfl

theorem counted_write (hc : d.encoder.closed = false) (input : Bytes) (flush : Flush) :
    d.Counted input (d.write input flush).1 := by
  let held : Delivery := { d with encoder := d.encoder.holdAll input }
  have htook : d.Counted input held :=
    counted_of_encoder (holds_holdAll hc input).data_eq (totalOut_holdAll _ input)
  exact htook.trans (held.counted_asked _)

theorem counted_begin (d : Delivery) : d.Counted [] d.begin := by
  unfold begin
  split
  · exact .refl d
  · exact (counted_of_data (e := d.encoder.opening) rfl rfl).trans (counted_deliver _)

/-- A step takes nothing or all there is. -/
theorem counted_advance (d : Delivery) (input : Bytes) (flush : Flush) :
    ∃ taken, (taken = [] ∨ taken = input) ∧ d.Counted taken (d.advance input flush).1 := by
  unfold advance
  split
  · exact ⟨[], .inl rfl, .refl d⟩
  · have hbegin := d.counted_begin
    simp only
    split
    · exact ⟨[], .inl rfl, hbegin.trans (counted_pause _)⟩
    · split
      · exact ⟨[], .inl rfl, hbegin.trans (counted_conclude _)⟩
      · next hopen =>
        split
        · exact ⟨[], .inl rfl, hbegin⟩
        · exact ⟨input, .inr rfl, hbegin.after (counted_write (eq_false_of_ne_true hopen) input flush)⟩

end Delivery

open Delivery in
theorem counted_step (e : Encoder) (input : Bytes) (room : Nat) (flush : Flush) :
    ∃ taken, (taken = [] ∨ taken = input) ∧
      Counted ⟨e, [], room⟩ taken (e.step input room flush).1 := by
  have hnoted : Counted ⟨e, [], room⟩ [] ⟨{ e with previous := some flush }, [], room⟩ :=
    counted_of_data rfl rfl
  have hgave := hnoted.trans (counted_deliver _)
  unfold step
  split
  · exact ⟨[], .inl rfl, .refl _⟩
  · split
    · exact ⟨[], .inl rfl, .refl _⟩
    · simp only
      split
      · exact ⟨[], .inl rfl, hnoted⟩
      · split
        · exact ⟨[], .inl rfl, hgave.trans (counted_pause _)⟩
        · obtain ⟨taken, htaken, hcounted⟩ := counted_advance
            (deliver ⟨{ e with previous := some flush }, [], room⟩) input flush
          exact ⟨taken, htaken, hgave.after hcounted⟩

theorem size_append_list (a : Array UInt8) (bs : Bytes) : (a ++ bs).size = a.size + bs.length := by
  rw [← Array.length_toList, Array.toList_appendList, List.length_append, Array.length_toList]

/-- A step took what its total grew by. -/
theorem taken_machine {e : Encoder} {room : Nat} {taken : Bytes}
    (h : Delivery.Counted ⟨e, [], room⟩ taken (e.step input room flush).1) :
    (Compressor.machine Encoder e input room flush).taken = taken.length := by
  have hsize := congrArg Array.size h.data_eq
  rw [size_append_list] at hsize
  show (e.step input room flush).1.encoder.data.size - e.data.size = taken.length
  simp only at hsize
  omega

instance : Compressor.Honest Encoder where
  totalIn_start _ _ := rfl
  totalOut_start _ _ := rfl
  taken_le e input room flush := by
    obtain ⟨taken, htaken, hcounted⟩ := e.counted_step input room flush
    rw [taken_machine hcounted]
    rcases htaken with rfl | rfl
    · exact Nat.zero_le _
    · exact Nat.le_refl _
  totalIn_eq e input room flush := by
    obtain ⟨taken, -, hcounted⟩ := e.counted_step input room flush
    rw [taken_machine hcounted]
    show (e.step input room flush).1.encoder.data.size = e.data.size + taken.length
    rw [hcounted.data_eq, size_append_list]
  totalOut_eq e input room flush := by
    obtain ⟨taken, -, hcounted⟩ := e.counted_step input room flush
    exact hcounted.totalOut_eq

end GzipStream.Deflate.Encoder
