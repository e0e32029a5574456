import GzipStream.Proofs.Deflate.EncoderTotals
import GzipStream.Proofs.Deflate.Flushing
import GzipStream.Proofs.Deflate.Moves

/-!
# Sessions of the encoder

`Encoder.InStage` is what holds of an encoder at every place of a session: what it gave stands for
what it took, and it is closed no sooner than it was asked to end. Each proper step keeps it so
(`InStage.step`), which makes the encoder a lawful compressor. Without flushes its streams are less
than twice as long as their input (`length_of_session`).
-/

namespace GzipStream.Deflate.Encoder

variable {uses : Flush → Prop} {zlib : Bool} {effort : Effort} {stage : Stage}
  {fed given input : Bytes} {e : Encoder} {room : Nat} {flush : Flush}

/-- What an encoder is in a stage. -/
def Suits (e : Encoder) : Stage → Prop
  | .feeding => e.closed = false ∧ e.Synced
  | .finishing left => e.closed = true → left = []
  | .ended => e.Finished

structure InStage (zlib : Bool) (stage : Stage) (fed given : Bytes) (e : Encoder) : Prop where
  sent : e.Sent given
  zlib_eq : e.zlib = zlib
  data_eq : e.data.toList = fed
  suits : e.Suits stage

/-- What a step took: all of its input, or nothing. -/
inductive Took (e : Encoder) (input : Bytes) (room : Nat) (flush : Flush) : Prop
  | all (ne_nil : input ≠ []) (data_eq : (e.step input room flush).1.encoder.data = e.data ++ input)
      (taken_eq : (Compressor.machine Encoder e input room flush).taken = input.length)
  | none (data_eq : (e.step input room flush).1.encoder.data = e.data)
      (taken_eq : (Compressor.machine Encoder e input room flush).taken = 0)

theorem Stepped.took (h : e.Stepped given input room flush (e.step input room flush)) :
    e.Took input room flush := by
  rcases h.outcome with ⟨hne, hdata⟩ | ⟨hdata, -⟩
  · refine .all hne hdata ?_
    show (e.step input room flush).1.encoder.data.size - e.data.size = input.length
    rw [hdata, size_append_list, Nat.add_sub_cancel_left]
  · refine .none hdata ?_
    show (e.step input room flush).1.encoder.data.size - e.data.size = 0
    rw [hdata, Nat.sub_self]

theorem Took.data_eq (h : e.Took input room flush) :
    (e.step input room flush).1.encoder.data.toList =
      e.data.toList ++ input.take (Compressor.machine Encoder e input room flush).taken := by
  cases h with
  | all ne_nil data_eq taken_eq => rw [taken_eq, List.take_length, data_eq, Array.toList_appendList]
  | none data_eq taken_eq => rw [taken_eq, List.take_zero, List.append_nil, data_eq]

theorem InStage.closed (h : InStage zlib stage fed given e) (hasked : stage.Allows input flush)
    (hc : e.closed = true) : flush = .finish ∧ input = [] := by
  have hsuits := h.suits
  cases stage with
  | feeding => exact absurd (hsuits.1.symm.trans hc) Bool.false_ne_true
  | finishing left =>
    obtain ⟨rfl, rfl⟩ := hasked
    exact ⟨rfl, hsuits hc⟩
  | ended => exact hasked.elim

/-- A finishing step that left input closed nothing. -/
theorem InStage.unread (h : InStage zlib stage fed given e) (hasked : stage.Allows input .finish)
    (hdata : (e.step input room .finish).1.encoder.data = e.data)
    (hc : (e.step input room .finish).1.encoder.closed = true) : input = [] := by
  have hworked := e.worked_step room (nofun : Flush.finish ≠ .sync) (h.closed hasked)
  by_cases hne : input = []
  · exact hne
  · rw [hworked.unread hne hdata] at hc
    exact (h.closed hasked hc).2

theorem InStage.stepped (h : InStage zlib stage fed given e) (hasked : stage.Allows input flush)
    (room : Nat) : e.Stepped given input room flush (e.step input room flush) :=
  h.sent.step input room flush (h.closed hasked)

theorem InStage.answers (h : InStage zlib stage fed given e) (hasked : stage.Allows input flush)
    (room : Nat) :
    Machine.Answers input room flush (Compressor.machine Encoder e input room flush) := by
  have hstep := h.stepped hasked room
  have htook := hstep.took
  refine ⟨?_, ?_, hstep.not_misused, fun hended => ?_, fun hroom hgives => ?_⟩
  · exact Compressor.Honest.taken_le e input room flush
  · have hroom := hstep.room_eq
    show (e.step input room flush).1.output.length ≤ room
    omega
  · have hfinished := hstep.ended hended
    obtain rfl : flush = .finish := Decidable.byContradiction fun hne =>
      absurd ((hstep.closed hne).symm.trans hfinished.closed) Bool.false_ne_true
    cases htook with
    | all ne_nil data_eq taken_eq => exact ⟨rfl, taken_eq⟩
    | none data_eq taken_eq =>
      rw [taken_eq, h.unread hasked data_eq hfinished.closed]
      exact ⟨rfl, rfl⟩
  · rcases hstep.outcome with ⟨hne, hdata⟩ | ⟨-, -, hshowed⟩
    · left
      cases htook with
      | all ne_nil data_eq taken_eq =>
        rw [taken_eq]
        exact Nat.ne_of_gt (List.length_pos_iff.mpr hne)
      | none data_eq taken_eq =>
        have hsize := congrArg Array.size (data_eq.symm.trans hdata)
        rw [size_append_list] at hsize
        exact absurd (List.length_eq_zero_iff.mp (by omega)) hne
    · exact .inr (hshowed hroom hgives).symm

/-- A proper step leads to the next stage. -/
theorem InStage.step (h : InStage zlib stage fed given e) (hasked : stage.Allows input flush)
    (room : Nat) :
    InStage zlib
      (.behind (input.drop (Compressor.machine Encoder e input room flush).taken) flush
        (e.step input room flush).2)
      (fed ++ input.take (Compressor.machine Encoder e input room flush).taken)
      (given ++ (e.step input room flush).1.output) (e.step input room flush).1.encoder := by
  have hstep := h.stepped hasked room
  have htook := hstep.took
  refine ⟨hstep.sent, hstep.zlib_eq.trans h.zlib_eq, ?_, ?_⟩
  · rw [htook.data_eq, h.data_eq]
  · by_cases hended : (e.step input room flush).2 = .ended
    · rw [hended, Stage.behind_ended]
      exact hstep.ended hended
    · by_cases hf : flush = .finish
      · subst hf
        rw [Stage.behind_finish hended]
        intro hc
        cases htook with
        | all ne_nil data_eq taken_eq => rw [taken_eq, List.drop_length]
        | none data_eq taken_eq => rw [h.unread hasked data_eq hc, List.drop_nil]
      · rw [Stage.behind_feed hended hf]
        cases stage with
        | feeding => exact ⟨hstep.closed hf, (h.suits.2.step h.suits.1 input room hf).synced⟩
        | finishing left => exact absurd hasked.1 hf
        | ended => exact hasked.elim

theorem inStage_start (zlib : Bool) (h : effort.Usable) :
    InStage zlib .feeding [] [] (start zlib effort) :=
  ⟨sent_start zlib effort h, rfl, rfl, rfl, .inl rfl⟩

/-- The sessions of the encoder. -/
abbrev Session (uses : Flush → Prop) (zlib : Bool) (effort : Effort) :
    Stage → (fed given : Bytes) → Encoder → Prop :=
  (Compressor.machine Encoder).Session (Stage.Proper uses) (start zlib effort)

theorem inStage_of_session (hu : effort.Usable) (h : Session uses zlib effort stage fed given e) :
    InStage zlib stage fed given e := by
  induction h with
  | start => exact inStage_start zlib hu
  | step before running asked room fine ih => exact ih.step asked.1 room

/-- Without input, steps that give more than a mark come nearer to the end of the stream. -/
theorem InStage.calm (h : InStage zlib stage fed given e) :
    (Compressor.machine Encoder).Calm (Stage.Proper uses) stage e := by
  -- on what is still to be written, then on the output that waits
  induction hrank : e.rank using Nat.strongRecOn generalizing stage given e with
  | _ rank ihrank =>
    induction hqueue : e.queue.length using Nat.strongRecOn generalizing stage given e with
    | _ queue ihqueue =>
      subst hrank hqueue
      refine .intro fun input room flush hasked hnone hmore => ?_
      have hnext := h.step hasked.1 room
      rw [hnone, List.take_zero, List.append_nil, List.drop_zero] at hnext
      have hstep := h.stepped hasked.1 room
      rcases hstep.outcome with ⟨hne, hdata⟩ | ⟨-, hcost, -⟩
      · -- the input was taken
        have hsize : (e.step input room flush).1.encoder.data.size - e.data.size = 0 := hnone
        rw [hdata, size_append_list] at hsize
        exact absurd (List.length_eq_zero_iff.mp (by omega)) hne
      · have hmore' : flush.allowance < (e.step input room flush).1.output.length := hmore
        rcases hcost with hless | ⟨hsame, hle⟩
        · exact ihrank _ hless hnext rfl
        · have hqueue : (e.step input room flush).1.encoder.queue.length < e.queue.length := by omega
          exact ihqueue _ hqueue hnext hsame rfl

theorem InStage.readable (h : InStage zlib .feeding fed given e) (input : Bytes)
    (hroom : (e.step input room .sync).1.output.length < room) :
    Shows zlib (given ++ (e.step input room .sync).1.output)
      (fed ++ input.take (Compressor.machine Encoder e input room .sync).taken) := by
  have hasked : Stage.feeding.Allows input .sync := trivial
  have hstep := h.stepped hasked room
  have hset := h.suits.2.step h.suits.1 input room (nofun : Flush.sync ≠ .finish)
  have hflushed := hset.flushed rfl (by have := hstep.room_eq; omega)
  have htakes := hstep.sent.takes_between hflushed (hstep.closed nofun)
  rw [hstep.zlib_eq, h.zlib_eq] at htakes
  refine ⟨_, htakes, rfl, ?_⟩
  rw [← h.data_eq]
  exact hstep.took.data_eq

instance : Compressor.Lawful Encoder where
  lawful zlib effort usable :=
    { answers := fun session asked room => (inStage_of_session usable session).answers asked.1 room
      calm := fun session => (inStage_of_session usable session).calm
      whole := fun session => by
        have h := inStage_of_session usable session
        have hdecodes := decodes_of_takes (h.sent.takes_done h.suits) rfl
        rw [h.zlib_eq] at hdecodes
        exact h.data_eq ▸ hdecodes
      readable := fun session _ input room hroom =>
        (inStage_of_session usable session).readable input hroom }

/-! ## Length -/

theorem slim_of_session (hu : effort.Usable)
    (h : Session (· ≠ .sync) zlib effort stage fed given e) : e.Slim given.length := by
  induction h with
  | start => exact slim_start zlib effort
  | @step stage fed given e before running input flush asked room fine ih =>
    have hstage := inStage_of_session hu before
    obtain ⟨taken, hmoves, -⟩ := e.worked_step room asked.2 (hstage.closed asked.1)
    have hslim := hmoves.slim (d := ⟨e, [], room⟩) ih
    rw [List.length_append]
    exact hslim

/-- A stream that was never flushed. -/
theorem length_of_session (hu : effort.Usable)
    (h : Session (· ≠ .sync) zlib effort stage fed given e) : given.length ≤ 2 * fed.length + 14 := by
  have hlength := (slim_of_session hu h).length_le
  rw [← Array.length_toList, (inStage_of_session hu h).data_eq] at hlength
  omega

end GzipStream.Deflate.Encoder
