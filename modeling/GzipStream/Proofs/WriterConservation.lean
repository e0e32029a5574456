import GzipStream.Proofs.EngineView

/-!
# A writer conserves bytes

A writer with a recorded engine makes the same calls as one without the record (`calls_forget`), so
the books that the one keeps are those of the other.
-/

namespace GzipStream

namespace Writer

section
variable {ε : Type}

/-- The writer without the record of its engine. -/
def forget (w : Writer (Recorded ε)) : Writer ε :=
  ⟨w.sink, w.engine.engine, w.options, w.started, w.released, w.failure, w.totalIn, w.totalOut⟩

/-- The writer with an empty record. -/
def recorded (w : Writer ε) : Writer (Recorded ε) :=
  ⟨w.sink, ⟨w.engine, [], []⟩, w.options, w.started, w.released, w.failure, w.totalIn, w.totalOut⟩

/-- An answer and the writer behind it, without the record. -/
def forgetAll {α : Type} (r : Option (α × Writer (Recorded ε))) : Option (α × Writer ε) :=
  r.map fun (a, w) => (a, w.forget)

theorem data_flushSink (w : Writer ε) : w.flushSink.2.sink.data = w.sink.data := by
  have := w.sink.passed_flush.data_eq
  rw [List.append_nil] at this
  exact Array.toList_inj.mp this

theorem sink_record (w : Writer ε) (result : Except Error Unit) : (w.record result).sink = w.sink := by
  cases result <;> rfl

theorem released_record (w : Writer ε) (result : Except Error Unit) :
    (w.record result).released = w.released := by
  cases result <;> rfl

variable [EncodeEngine ε]

/-- The record changes nothing. -/
theorem calls_forget (turns : Nat) (cs : List Call) (w : Writer (Recorded ε)) :
    w.forget.calls turns cs = forgetAll (w.calls turns cs) :=
  calls_view Recorded.view_engine turns cs w

/-! ## After the end -/

theorem released_release (w : Writer ε) : w.release.2.released = true := by
  unfold release
  split
  · assumption
  · rfl

theorem released_of_close {turns : Nat} {w w' : Writer ε} (h : w.close turns = some (.ok (), w')) :
    w'.released = true := by
  unfold close at h
  split at h
  · cases h
  · split at h
    · next hr => cases h; exact hr
    · split at h
      · cases h
      · cases h
      · next w₁ _ =>
        have hr := w₁.released_release
        rcases hrel : w₁.release with ⟨status, w₂⟩
        rw [hrel] at h hr
        simp only at h
        split at h
        · cases h
        · have hw : w' = w₂.flushSink.2.record w₂.flushSink.1 := by
            simp only [Option.some.injEq, Prod.mk.injEq] at h
            exact h.2.symm
          rw [hw, released_record]
          exact hr

/-- A released writer gives nothing to its sink, and stays released. -/
theorem call_of_released {turns : Nat} {w w' : Writer ε} {c : Call} {answer : Except Error Nat}
    (hr : w.released = true) (h : w.call turns c = some (answer, w')) :
    w'.released = true ∧ w'.sink.data = w.sink.data := by
  cases c with
  | write bs =>
    simp only [call, write, hr, if_true] at h
    split at h <;> cases h <;> exact ⟨hr, rfl⟩
  | flush =>
    simp only [call, flush, hr, if_true] at h
    split at h
    · cases h
      exact ⟨hr, rfl⟩
    · obtain ⟨⟨r, w₁⟩, hf, hw⟩ := Option.map_eq_some_iff.mp h
      have hw₁ : w₁ = w.flushSink.2.record w.flushSink.1 := by
        simp only [Option.some.injEq, Prod.mk.injEq] at hf
        exact hf.2.symm
      have hw' : w' = w₁ := by
        cases r <;> cases hw <;> rfl
      rw [hw', hw₁, released_record, sink_record, data_flushSink]
      exact ⟨hr, rfl⟩
  | setHeader header =>
    simp only [call, setHeader, hr, if_true] at h
    cases h
    exact ⟨hr, rfl⟩
  | close =>
    simp only [call, close, release, hr, if_true] at h
    split at h <;> cases h <;> exact ⟨hr, rfl⟩

theorem calls_of_released {turns : Nat} {cs : List Call} {w w' : Writer ε}
    {answers : List (Except Error Nat)} (hr : w.released = true)
    (h : w.calls turns cs = some (answers, w')) : w'.sink.data = w.sink.data := by
  induction cs generalizing w answers with
  | nil => cases h; rfl
  | cons c cs ih =>
    obtain ⟨answer, w₁, answers', hcall, hcalls, rfl⟩ := exists_of_calls_cons h
    obtain ⟨hr₁, hdata⟩ := call_of_released hr hcall
    rw [ih hr₁ hcalls, hdata]

end

/-- After any calls, the engine took the slices of all successful writes and at most a part of one
that failed; what it gave reached the sink in order, all of it unless a write to the sink failed; and
behind a successful close nothing more does. -/
theorem writer_conserves_bytes {ε : Type} [EncodeEngine ε] (hε : EncodeEngine.Respectful ε)
    (sink : Sink) (engine : ε) (o : Options) (w₀ : Writer ε)
    (hw₀ : withEngine sink engine o = .ok w₀) (turns : Nat) (cs : List Call)
    (answers : List (Except Error Nat)) (w : Writer ε)
    (h : w₀.calls turns cs = some (answers, w)) :
    ∃ r : Writer (Recorded ε), w₀.recorded.calls turns cs = some (answers, r) ∧ r.forget = w ∧
      (∃ tail, r.engine.taken = written cs answers ++ tail ∧ (tail = [] ∨
        ∃ bs e, (Call.write bs, .error e) ∈ cs.zip answers ∧ tail <+: bs)) ∧
      w.totalIn = r.engine.taken.length ∧
      (∃ out used log, sink.Passed w.sink out used log ∧ out <+: r.engine.given ∧
        (Sink.Unfailing used log → out = r.engine.given ∧ w.totalOut = r.engine.given.length)) ∧
      (∀ more w₁ later answers' w₂, w.close more = some (.ok (), w₁) →
        w₁.calls more later = some (answers', w₂) → w₂.sink.data = w₁.sink.data) := by
  have hforget := calls_forget turns cs w₀.recorded
  rw [show w₀.recorded.forget = w₀ from rfl, h] at hforget
  obtain ⟨⟨answers', r⟩, hr, heq⟩ := Option.map_eq_some_iff.mp hforget.symm
  cases heq
  have hstart : w₀ = { sink := sink, engine := engine, options := o } := by
    unfold withEngine at hw₀
    cases hv : o.validate with
    | error e => rw [hv] at hw₀; cases hw₀
    | ok u => rw [hv] at hw₀; cases hw₀; rfl
  have hbalanced : w₀.recorded.Balanced sink [] [] := by
    rw [hstart]
    exact ⟨[], [], [], rfl, fun _ => rfl, rfl, .refl sink, List.prefix_rfl, fun _ => ⟨rfl, rfl⟩⟩
  obtain ⟨tail, ⟨out, used, log, hl⟩, htail⟩ := hbalanced.calls hε hr
  refine ⟨r, hr, rfl, ⟨tail, hl.taken_eq, htail.imp_right And.right⟩, hl.totalIn_eq,
    ⟨out, used, log, hl.passed, hl.isPrefix, fun hu => hl.complete (.inr hu)⟩, ?_⟩
  intro more w₁ later answers' w₂ hclose hcalls
  exact calls_of_released (released_of_close hclose) hcalls

/-- The engine that gives every byte as it is. -/
structure Copier where

instance : EncodeEngine Copier where
  step e input room flush :=
    let out := input.take room
    (if flush = .finish ∧ input.length ≤ room then .ended out.length out
      else .worked out.length out, e)
  setHeader e _ := (.streamError, e)
  finish e := (.ok, e)

theorem respectful_copier : EncodeEngine.Respectful Copier := by
  intro e input room flush
  simp only [EncodeEngine.step]
  split <;> exact ⟨List.length_take_le' _ _, List.length_take_le _ _⟩

/-- A sink that fails in the middle of a write. -/
def fullSink : Sink := { answers := [.accept 2, .failure (.plain .storageFull)] }

/-- The write of three bytes fails behind the second, and what follows fails with copies. -/
theorem writer_conserves_bytes_full_sink :
    ∃ w : Writer Copier, calls 4 [.write [1, 2, 3], .write [4], .close]
        { sink := fullSink, engine := ⟨⟩, options := {} } =
          some (.error (.io (.plain .storageFull)) ::
            List.replicate 2 (.error (.io (IoFailure.copy (.plain .storageFull)))), w) ∧
      ∃ r : Writer (Recorded Copier), r.forget = w ∧ r.engine.taken.length = 3 ∧
        ∃ out used log, fullSink.Passed w.sink out used log ∧ out <+: r.engine.given := by
  refine ⟨_, rfl, ?_⟩
  obtain ⟨r, -, hr, -, htotal, ⟨out, used, log, hp, hout, -⟩, -⟩ :=
    writer_conserves_bytes respectful_copier fullSink ⟨⟩ {} _ rfl 4
      [.write [1, 2, 3], .write [4], .close] _ _ rfl
  exact ⟨r, hr, htotal.symm, out, used, log, hp, hout⟩

end Writer

end GzipStream
