import GzipStream.Engine.Log
import GzipStream.Proofs.WriterLedger

/-!
# Writers and views of their engines

A view of an engine hides a part of its state that no answer depends on, such as a record or a log.
A writer makes the same calls with a view of an engine as with the engine itself (`calls_view`), so
what the record or the log says is true of the writer without it.
-/

namespace GzipStream

/-- An engine seen through `φ`: it gives the same answers. -/
structure EncodeEngine.View {ε δ : Type} [EncodeEngine ε] [EncodeEngine δ] (φ : ε → δ) : Prop where
  step (e : ε) (input : Bytes) (room : Nat) (flush : Flush) :
    EncodeEngine.step (φ e) input room flush = Prod.map id φ (EncodeEngine.step e input room flush)
  setHeader (e : ε) (h : Header) :
    EncodeEngine.setHeader (φ e) h = Prod.map id φ (EncodeEngine.setHeader e h)
  finish (e : ε) : EncodeEngine.finish (φ e) = Prod.map id φ (EncodeEngine.finish e)

section
variable {ε δ : Type} [EncodeEngine ε] [EncodeEngine δ]

theorem Recorded.view_engine : EncodeEngine.View (Recorded.engine : Recorded ε → ε) :=
  ⟨fun _ _ _ _ => rfl, fun _ _ => rfl, fun _ => rfl⟩

theorem Logged.view_engine : EncodeEngine.View (Logged.engine : Logged ε EncodeCall → ε) :=
  ⟨fun _ _ _ _ => rfl, fun _ _ => rfl, fun _ => rfl⟩

theorem EncodeEngine.View.comp {γ : Type} [EncodeEngine γ] {φ : ε → δ} {ψ : δ → γ}
    (hψ : EncodeEngine.View ψ) (hφ : EncodeEngine.View φ) : EncodeEngine.View (ψ ∘ φ) where
  step e input room flush := by
    rw [Function.comp_apply, hψ.step, hφ.step]
    rfl
  setHeader e h := by
    rw [Function.comp_apply, hψ.setHeader, hφ.setHeader]
    rfl
  finish e := by
    rw [Function.comp_apply, hψ.finish, hφ.finish]
    rfl

/-- An engine respects its slices if it does so in a view. -/
theorem EncodeEngine.View.respectful {φ : ε → δ} (hφ : EncodeEngine.View φ)
    (hδ : EncodeEngine.Respectful δ) : EncodeEngine.Respectful ε := by
  intro e input room flush
  have hfits := hδ (φ e) input room flush
  rw [hφ.step] at hfits
  exact hfits

end

namespace Writer

section
variable {ε δ : Type} (φ : ε → δ)

/-- The writer with a view of its engine. -/
def view (w : Writer ε) : Writer δ :=
  ⟨w.sink, φ w.engine, w.options, w.started, w.released, w.failure, w.totalIn, w.totalOut⟩

def Turn.view : Turn ε → Turn δ
  | .stop result w => .stop result (w.view φ)
  | .again w rest => .again (w.view φ) rest

/-- An answer and the writer behind it, with a view of its engine. -/
def viewAll {α : Type} (r : Option (α × Writer ε)) : Option (α × Writer δ) :=
  r.map (Prod.map id (view φ))

variable {φ} in
theorem viewAll_eq_some {α : Type} {r : Option (α × Writer ε)} {a : α} {v : Writer δ}
    (h : viewAll φ r = some (a, v)) : ∃ w, r = some (a, w) ∧ w.view φ = v := by
  obtain ⟨⟨a', w⟩, hr, heq⟩ := Option.map_eq_some_iff.mp h
  cases heq
  exact ⟨w, hr, rfl⟩

theorem afterStep_view (w : Writer ε) (rest : Bytes) (flush : Flush) (s : Step) (filled : Bool) :
    (w.view φ).afterStep rest flush s filled = (w.afterStep rest flush s filled).view φ := by
  unfold afterStep
  repeat' split
  all_goals rfl

theorem record_view (w : Writer ε) (result : Except Error Unit) :
    (w.view φ).record result = (w.record result).view φ := by
  cases result <;> rfl

theorem flushSink_view (w : Writer ε) :
    (w.view φ).flushSink = (w.flushSink.1, w.flushSink.2.view φ) := rfl

end

section
variable {ε δ : Type} [EncodeEngine ε] [EncodeEngine δ] {φ : ε → δ} (hφ : EncodeEngine.View φ)
include hφ

theorem turn_view (w : Writer ε) (rest : Bytes) (flush : Flush) :
    (w.view φ).turn rest flush = (w.turn rest flush).view φ := by
  have hroom : (w.view φ).room flush = w.room flush := by cases flush <;> rfl
  have hstep : EncodeEngine.step (w.view φ).engine rest (w.room flush) flush =
      Prod.map id φ (EncodeEngine.step w.engine rest (w.room flush) flush) := hφ.step ..
  unfold turn
  simp only [hroom, hstep]
  rcases EncodeEngine.step w.engine rest (w.room flush) flush with ⟨s, e⟩
  simp only [Prod.map, id]
  rcases hdrain : w.sink.drain s.output with ⟨r, sink⟩
  rw [show (w.view φ).sink = w.sink from rfl, hdrain]
  cases r with
  | error e' => rfl
  | ok u =>
    exact afterStep_view φ
      ⟨sink, e, w.options, w.started, w.released, w.failure, w.totalIn + s.consumed,
        w.totalOut + s.produced⟩ _ _ _ _

theorem turnLoop_view (turns : Nat) (w : Writer ε) (rest : Bytes) (flush : Flush) :
    (w.view φ).turnLoop turns rest flush = viewAll φ (w.turnLoop turns rest flush) := by
  induction turns generalizing w rest with
  | zero => rfl
  | succ turns ih =>
    unfold turnLoop
    rw [turn_view hφ]
    cases w.turn rest flush with
    | stop result w' => rfl
    | again w' rest' => exact ih w' rest'

theorem drive_view (turns : Nat) (w : Writer ε) (bs : Bytes) (flush : Flush) :
    (w.view φ).drive turns bs flush = viewAll φ (w.drive turns bs flush) := by
  unfold drive
  split
  · next h => rw [if_pos (show w.released = true from h)]; rfl
  · next h =>
    rw [if_neg (show ¬ w.released = true from h)]
    exact turnLoop_view hφ turns { w with started := true } bs flush

theorem release_view (w : Writer ε) :
    (w.view φ).release = (w.release.1, w.release.2.view φ) := by
  have hfinish : EncodeEngine.finish (w.view φ).engine = Prod.map id φ (EncodeEngine.finish w.engine) :=
    hφ.finish ..
  unfold release
  rw [hfinish]
  split
  · next h => rw [if_pos (show w.released = true from h)]
  · next h => rw [if_neg (show ¬ w.released = true from h)]; rfl

theorem write_view (turns : Nat) (w : Writer ε) (bs : Bytes) :
    (w.view φ).write turns bs = viewAll φ (w.write turns bs) := by
  unfold write
  rw [show (w.view φ).failure = w.failure from rfl, show (w.view φ).released = w.released from rfl,
    drive_view hφ]
  split
  · rfl
  · split
    · rfl
    · split
      · rfl
      · rcases w.drive turns bs .none with _ | ⟨_ | _, w'⟩ <;> rfl

theorem flush_view (turns : Nat) (w : Writer ε) :
    (w.view φ).flush turns = viewAll φ (w.flush turns) := by
  have hdrive : (if w.released then some (.ok (), w.view φ) else (w.view φ).drive turns [] .sync) =
      viewAll φ (if w.released then some (.ok (), w) else w.drive turns [] .sync) := by
    split
    · rfl
    · exact drive_view hφ turns w [] .sync
  unfold flush
  rw [show (w.view φ).failure = w.failure from rfl, show (w.view φ).released = w.released from rfl,
    hdrive]
  split
  · rfl
  · generalize (if w.released then some (.ok (), w) else w.drive turns [] .sync) = driven
    rcases driven with _ | ⟨_ | _, w'⟩
    · rfl
    · rfl
    · simp only [viewAll, Option.map, Prod.map, id, flushSink_view, record_view]

theorem close_view (turns : Nat) (w : Writer ε) :
    (w.view φ).close turns = viewAll φ (w.close turns) := by
  unfold close
  rw [show (w.view φ).failure = w.failure from rfl, show (w.view φ).released = w.released from rfl,
    drive_view hφ, release_view hφ]
  split
  · rfl
  · split
    · rfl
    · rcases w.drive turns [] .finish with _ | ⟨e | _, w'⟩
      · rfl
      · simp only [viewAll, Option.map, Prod.map, id, record_view, release_view hφ]
      · simp only [viewAll, Option.map, Prod.map, id, release_view hφ]
        split
        · simp only [record_view]
        · simp only [flushSink_view, record_view]

theorem setHeader_view (w : Writer ε) (h : Header) :
    (w.view φ).setHeader h = ((w.setHeader h).1, (w.setHeader h).2.view φ) := by
  have hset : EncodeEngine.setHeader (w.view φ).engine h =
      Prod.map id φ (EncodeEngine.setHeader w.engine h) := hφ.setHeader ..
  unfold setHeader
  rw [show (w.view φ).released = w.released from rfl, show (w.view φ).started = w.started from rfl]
  simp only [hset]
  rcases EncodeEngine.setHeader w.engine h with ⟨status, e⟩
  simp only [Prod.map, id]
  repeat' split
  all_goals rfl

theorem call_view (turns : Nat) (w : Writer ε) (c : Call) :
    (w.view φ).call turns c = viewAll φ (w.call turns c) := by
  cases c with
  | write bs => exact write_view hφ turns w bs
  | flush =>
    simp only [call]
    rw [flush_view hφ]
    rcases w.flush turns with _ | ⟨_ | _, w'⟩ <;> rfl
  | setHeader h =>
    simp only [call]
    rw [setHeader_view hφ]
    rcases w.setHeader h with ⟨_ | _, w'⟩ <;> rfl
  | close =>
    simp only [call]
    rw [close_view hφ]
    rcases w.close turns with _ | ⟨_ | _, w'⟩ <;> rfl

/-- What is hidden from the view changes nothing. -/
theorem calls_view (turns : Nat) (cs : List Call) (w : Writer ε) :
    (w.view φ).calls turns cs = viewAll φ (w.calls turns cs) := by
  induction cs generalizing w with
  | nil => rfl
  | cons c cs ih =>
    unfold calls
    rw [call_view hφ]
    rcases w.call turns c with _ | ⟨answer, w'⟩
    · rfl
    · simp only [viewAll, Option.map, Prod.map, id, ih]
      rcases w'.calls turns cs with _ | ⟨answers, w''⟩ <;> rfl

end

end Writer

end GzipStream
