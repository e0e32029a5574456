import GzipStream.Proofs.Compression
import GzipStream.Proofs.Deflate.EncoderTotals
import GzipStream.Proofs.Failures

/-!
# The layout of compressed output

Header and trailer go out through one buffer, in whatever windows the steps offer, and a step can end
in any part of either. Since every step keeps the layout (`Laid.step`), any sequence of steps does
(`Laid.steps`). This holds for every compressor whose totals can be trusted, whatever is asked of it
(`compressed_layout`).
-/

namespace GzipStream.Deflater

/-! ## Sequences of steps -/

/-- What a step is asked. -/
structure Request where
  input : Bytes
  room : Nat
  flush : Flush
  deriving DecidableEq, Repr

/-- The input that the steps took. -/
def consumed : List Request → List Step → Bytes
  | r :: rs, s :: ss => r.input.take s.consumed ++ consumed rs ss
  | _, _ => []

/-- The output that the steps gave. -/
def written (ss : List Step) : Bytes := ss.flatMap Step.output

section
variable {κ : Type} [Compressor κ] {d d' : Deflater κ} {asks : Stage → Bytes → Flush → Prop}
  {stage : Stage} {head fed given : Bytes} {o : Options} {h : Header}

/-- The answers to steps one behind the other, and where they lead. -/
def steps (d : Deflater κ) : List Request → List Step × Deflater κ
  | [] => ([], d)
  | r :: rs =>
    let (s, d) := d.step r.input r.room r.flush
    let (ss, d) := d.steps rs
    (s :: ss, d)

theorem steps_cons (d : Deflater κ) (r : Request) (rs : List Request) : d.steps (r :: rs) =
    ((d.step r.input r.room r.flush).1 :: ((d.step r.input r.room r.flush).2.steps rs).1,
      ((d.step r.input r.room r.flush).2.steps rs).2) := rfl

/-- An engine before its first step, which will write the header. -/
inductive Prepared (o : Options) : Header → Deflater κ → Prop
  | new {d : Deflater κ} (new_eq : Deflater.new o = .ok d) : Prepared o {} d
  | accepted {h h' : Header} {d d' : Deflater κ} (before : Prepared o h d)
      (set_eq : d.setHeader h' = (.ok, d')) : Prepared o h' d'
  | refused {h h' : Header} {d d' : Deflater κ} {status : Status} (before : Prepared o h d)
      (set_eq : d.setHeader h' = (status, d')) (not_ok : status ≠ .ok) : Prepared o h d'

theorem Prepared.unstarted (hd : Prepared o h d) : Unstarted o h d := by
  induction hd with
  | new new_eq => exact unstarted_of_new new_eq
  | accepted before set_eq ih => exact ih.setHeader set_eq
  | refused before set_eq not_ok ih => rwa [eq_of_setHeader set_eq not_ok]

variable [Compressor.Honest κ]

theorem alike_steps (d : Deflater κ) (rs : List Request) : d.Alike (d.steps rs).2 := by
  induction rs generalizing d with
  | nil => exact d.alike_refl
  | cons r rs ih => exact (d.alike_step _ _ _).trans (ih _)

theorem Laid.steps (h : d.Laid asks head stage fed given) (hc : d.Checked fed)
    (hv : d.header.validate = .ok ()) (hasks : ∀ stage input flush, asks stage input flush)
    (rs : List Request) (hok : ∀ s ∈ (d.steps rs).1, s.status.isFailure = false) :
    (∃ stage, (d.steps rs).2.Laid asks head stage (fed ++ consumed rs (d.steps rs).1)
      (given ++ written (d.steps rs).1)) ∧
    (d.steps rs).2.Checked (fed ++ consumed rs (d.steps rs).1) ∧
    ∀ last, (d.steps rs).1.getLast? = some last → last.status = .streamEnd →
      (d.steps rs).2.phase = .done := by
  induction rs generalizing d stage fed given with
  | nil =>
    refine ⟨⟨stage, ?_⟩, ?_, nofun⟩
    · simpa [Deflater.steps, consumed, written] using h
    · simpa [Deflater.steps, consumed] using hc
  | cons r rs ih =>
    obtain ⟨n, hg⟩ := h.step hc hv (fun _ => hasks stage r.input r.flush) r.room
    obtain rfl := hg.consumed_eq
    rw [steps_cons] at hok ⊢
    obtain ⟨stage', -, hl⟩ := hg.laid (hok _ List.mem_cons_self)
    obtain ⟨hlaid, hchecked, hdone⟩ := ih hl hg.checked
      (by rwa [(d.alike_step _ _ _).header_eq]) fun s hs => hok s (List.mem_cons_of_mem _ hs)
    simp only [consumed, written, List.flatMap_cons, ← List.append_assoc]
    refine ⟨hlaid, hchecked, fun last hlast hend => ?_⟩
    rw [List.getLast?_cons, Option.some_inj] at hlast
    rcases hrest : ((d.step r.input r.room r.flush).2.steps rs).1.getLast? with _ | s
    · -- the last step is the first
      rw [hrest] at hlast
      obtain rfl : rs = [] := by
        cases rs with
        | nil => rfl
        | cons r' rs => simp [steps_cons] at hrest
      obtain rfl : (d.step r.input r.room r.flush).1 = last := hlast
      exact hg.done hend
    · rw [hrest] at hlast
      obtain rfl : s = last := hlast
      exact hdone s hrest hend

omit [Compressor.Honest κ] in
/-- At its end an engine only says so. -/
theorem steps_of_done (hp : d.phase = .done) (hs : d.started = true) (hne : d.ended = false)
    (rs : List Request) : d.steps rs = (rs.map fun _ => .ended 0 [], d) := by
  have hstep (r : Request) : d.step r.input r.room r.flush = (.ended 0 [], d) := by
    rw [step_of_started hs hne, hp]
  induction rs with
  | nil => rfl
  | cons r rs ih => simp only [steps_cons, hstep, ih, List.map_cons]

end

/-- Writing the header never fails. Where no step fails and the last one reports the end, the output
is the header, what the encoder made of the input that was taken, and the trailer of that input; for
other framings than gzip it is what the encoder made of it. From then on nothing is taken or given,
and every step reports the end again. -/
theorem compressed_layout {κ : Type} [Compressor κ] [Compressor.Honest κ] {o : Options} {h : Header}
    {d : Deflater κ} (hd : Prepared o h d) :
    (∃ bits, o.encodeFraming = .ok (d.framing, bits)) ∧
    (∀ before, ∃ d', (d.steps before).2.begin = .ok d') ∧
    ∀ rs ss d', d.steps rs = (ss, d') → (∀ s ∈ ss, s.status.isFailure = false) →
      (∃ last, ss.getLast? = some last ∧ last.status = .streamEnd) →
      (∃ stream e, (Compressor.machine κ).Session (fun _ _ _ => True)
          (Compressor.start (d.framing = .zlib) d.effort) .ended (consumed rs ss) stream e ∧
        Compressor.totalIn e = (consumed rs ss).length ∧ Compressor.totalOut e = stream.length ∧
        (d.framing = .gzip → ∃ head, h.encode o.effectiveLevel = .ok head ∧
          written ss = head ++ stream ++ littleEndian 4 (Crc32.ofBytes (consumed rs ss)).toNat
            ++ littleEndian 4 ((consumed rs ss).length % 4294967296)) ∧
        (d.framing ≠ .gzip → written ss = stream)) ∧
      ∀ more, d'.steps more = (more.map fun _ => .ended 0 [], d') := by
  have hr := hd.unstarted
  have hv : d.header.validate = .ok () := by rw [hr.header_eq, hr.validate_eq]
  refine ⟨hr.framing_eq, fun before => ?_, ?_⟩
  · exact begin_of_validate (by rwa [(d.alike_steps before).header_eq])
  · rintro rs ss d' hrun hok ⟨last, hlast, hend⟩
    obtain ⟨head, hhead, hlaid⟩ := hr.laid fun _ _ _ => True
    have hsteps := hlaid.steps hr.checked hv (fun _ _ _ => trivial) rs (by rwa [hrun])
    have halike := d.alike_steps rs
    rw [hrun] at hsteps halike
    obtain ⟨⟨stage, hl⟩, hc, hdone⟩ := hsteps
    have hp : d'.phase = .done := hdone last hlast hend
    obtain ⟨stream, hs, hgiven, henc⟩ := hl.of_done hp
    refine ⟨⟨stream, d'.encoder, ?_⟩, steps_of_done hp hs hc.not_ended⟩
    rw [List.nil_append] at hgiven henc
    rw [Streams, newEncoder, halike.framing_eq, halike.effort_eq] at henc
    obtain ⟨htotalIn, htotalOut⟩ := Compressor.totals_of_session henc
    rw [Compressor.Honest.totalIn_start, Nat.zero_add] at htotalIn
    rw [Compressor.Honest.totalOut_start, Nat.zero_add] at htotalOut
    rw [ending, halike.framing_eq] at hgiven
    refine ⟨henc, htotalIn, htotalOut, fun hf => ?_, fun hf => ?_⟩
    · rw [if_pos hf] at hhead
      refine ⟨head, hhead, ?_⟩
      rw [hgiven, if_pos hf, Trailer.ofPayload, List.append_assoc (head ++ stream)]
      rfl
    · rw [if_neg hf] at hhead
      rw [hgiven, if_neg hf, hhead, List.append_nil]
      rfl

/-- A new engine that was given a name to write. -/
def namingEngine : Deflater Deflate.Encoder where
  framing := .gzip
  effort := ⟨0, 15⟩
  encoder := .start false ⟨0, 15⟩
  header := { filename := some "a" }
  phase := .header

/-- Windows that end behind the header, inside the stream and inside the trailer, and an empty one. -/
def smallWindows : List Request :=
  [⟨[104, 105], 12, .none⟩, ⟨[104, 105], 0, .sync⟩, ⟨[104, 105], 5, .finish⟩, ⟨[], 4, .finish⟩,
    ⟨[], 40, .finish⟩]

theorem status_smallWindows : (namingEngine.steps smallWindows).1.map Step.status =
    [.ok, .bufferError, .ok, .ok, .streamEnd] := by decide +kernel

theorem consumed_smallWindows :
    consumed smallWindows (namingEngine.steps smallWindows).1 = [104, 105] := by decide +kernel

/-- The name is in the header, and input that comes too late is left alone. -/
theorem compressed_layout_small_windows :
    Prepared { level := some 0 } { filename := some "a" } namingEngine ∧
    (∃ stream e, (Compressor.machine Deflate.Encoder).Session (fun _ _ _ => True) (.start false ⟨0, 15⟩)
        .ended [104, 105] stream e ∧
      written (namingEngine.steps smallWindows).1 =
        [31, 139, 8, 8, 0, 0, 0, 0, 4, 255, 97, 0] ++ stream ++ [172, 42, 147, 216] ++ [2, 0, 0, 0]) ∧
    ((namingEngine.steps smallWindows).2.steps [⟨[33], 9, .finish⟩]).1 = [.ended 0 []] := by
  have hd : Prepared { level := some 0 } { filename := some "a" } namingEngine :=
    .accepted (.new rfl) rfl
  obtain ⟨-, -, hsteps⟩ := compressed_layout hd
  have hok (s : Step) (hs : s ∈ (namingEngine.steps smallWindows).1) : s.status.isFailure = false := by
    have hmem := List.mem_map_of_mem (f := Step.status) hs
    rw [status_smallWindows] at hmem
    simp only [List.mem_cons, List.not_mem_nil, or_false] at hmem
    rcases hmem with h | h | h | h | h <;> rw [h] <;> rfl
  have hend : ∃ last, (namingEngine.steps smallWindows).1.getLast? = some last ∧
      last.status = .streamEnd := by
    have hlast := congrArg List.getLast? status_smallWindows
    rw [List.getLast?_map] at hlast
    exact Option.map_eq_some_iff.mp hlast
  obtain ⟨⟨stream, e, hrun, -, -, hgzip, -⟩, hmore⟩ :=
    hsteps smallWindows _ _ (Prod.eta _).symm hok hend
  rw [consumed_smallWindows] at hrun hgzip
  obtain ⟨head, hhead, hwritten⟩ := hgzip rfl
  have hcrc : littleEndian 4 (Crc32.ofBytes [104, 105]).toNat = [172, 42, 147, 216] := by cbv
  cases hhead
  rw [hcrc] at hwritten
  exact ⟨hd, ⟨stream, e, hrun, hwritten⟩, congrArg Prod.fst (hmore [⟨[33], 9, .finish⟩])⟩

end GzipStream.Deflater
