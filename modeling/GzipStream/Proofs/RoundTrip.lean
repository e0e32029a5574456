import GzipStream.Proofs.CompressedMembers
import GzipStream.Proofs.Deflate.EncoderSessions
import GzipStream.Proofs.ReaderRefinement
import GzipStream.Proofs.Writing

/-!
# Round trips

Writes and flushes in any order leave one member of all that was written in a willing sink, and
reads of any sizes give it back (`round_trip`).
-/

namespace GzipStream

/-- The format in which a reader takes members of one framing. -/
def Framing.format : Framing → Format
  | .raw => .flate
  | _ => .gzip

theorem decodeFraming_of_format {o : Options} {f : Framing} (h : o.format = f.format) :
    o.decodeFraming = f.readAs := by
  rw [Options.decodeFraming, h]
  cases f <;> rfl

/-- Reads over data that is one member give its payload. -/
theorem Reader.drain_member {f : Framing} {data out : Bytes}
    (h : (Member.start f).Takes data (.done out)) {o : Options} (ho : o.validate = .ok ())
    (hf : o.decodeFraming = f) {pieces : List Bytes} (hdata : pieces.flatten = data)
    (hpieces : ∀ p ∈ pieces, p ≠ []) {sizes : Nat → Nat} (hsizes : ∀ k, 0 < sizes k) :
    ∃ r, withOptions (pieces.map .data) o = .ok r ∧
      ∀ turns reads, readTurns data.length ≤ turns → readTurns data.length ≤ reads →
        ∃ r', r.drain turns sizes reads 0 [] = some (out, none, r') ∧ r'.members = 1 ∧
          r'.totalIn = data.length ∧ r'.totalOut = out.length := by
  have hsupplies : Source.Supplies (pieces.map .data) data := by
    rw [← hdata]
    exact Source.supplies_map hpieces
  obtain ⟨r, hr, hreading, hw⟩ := reading_start hsupplies ho
  rw [hf] at hreading
  refine ⟨r, hr, ?_⟩
  intro turns reads hturns hreads
  obtain ⟨got, failure, r', hdrain, hd⟩ := hreading.drain_spec hsizes reads 0
    (Nat.lt_of_lt_of_le hw hturns) (Nat.lt_of_lt_of_le hw hreads)
  -- what the data holds is determined, so the reads gave all of it
  cases hd with
  | all archive totalIn_eq totalOut_eq close_eq =>
    obtain ⟨rfl, hmembers, -⟩ := (Archive.single h).unique archive
    exact ⟨r', hdrain, hmembers.symm, totalIn_eq, totalOut_eq⟩
  | part archive isPrefix error_eq =>
    obtain ⟨-, -, rfl⟩ := (Archive.single h).unique archive
    cases error_eq

section
variable {κ : Type} [Compressor κ] {o : Options} {engine : Deflater κ}

theorem Writer.withOptions_eq (h : Deflater.new o = .ok engine) (sink : Sink) :
    Writer.withOptions sink o = .ok { sink := sink, engine := engine, options := o } := by
  obtain ⟨hvalid, -⟩ := Deflater.exists_of_new h
  simp only [withOptions, withEngine, h, bind, Except.bind, hvalid]

/-- A writer before its first call. -/
theorem Writer.intact_new (uses : Flush → Prop) (engine : Deflater κ) (o : Options) {sink : Sink}
    (hsink : sink.Willing) (hempty : sink.data = #[]) :
    Intact uses engine .feeding { sink := sink, engine := engine, options := o } [] := by
  refine ⟨hsink, ?_, rfl, rfl⟩
  rw [hempty]
  exact .start

variable [Compressor.Lawful κ]

theorem Deflater.lawful_of_new (uses : Flush → Prop) (h : Deflater.new o = .ok engine) :
    EncodeEngine.Lawful uses engine (engine.Frames uses engine.front) (engine.Opens engine.front) :=
  (unstarted_of_new h).lawful (unstarted_of_new h).laid_front

end

/-- All calls succeed, and reads give back what was written: with any lawful compressor, data that
went through any writes and flushes comes out of any reads, as one member and counted to the byte. -/
theorem round_trip {κ : Type} [Compressor κ] [Compressor.Lawful κ] (o : Options) (engine : Deflater κ)
    (hengine : Deflater.new o = .ok engine) (sink : Sink) (hsink : sink.Willing)
    (hempty : sink.data = #[]) (data : Bytes) (calls : List Writer.Call)
    (hcalls : ∀ c ∈ calls, c = .flush ∨ ∃ bs, c = .write bs)
    (hdata : calls.flatMap Writer.Call.bytes = data) :
    ∃ w : Writer (Deflater κ), Writer.withOptions sink o = .ok w ∧ ∃ enough w₁ sink₁ w₂,
      (∀ turns, enough ≤ turns →
        w.calls turns calls = some (calls.map fun c => .ok c.bytes.length, w₁) ∧
        w₁.finish turns = some (.ok sink₁, w₂)) ∧
      ∀ o' : Options, o'.validate = .ok () → o'.format = engine.framing.format →
      ∀ pieces : List Bytes, pieces.flatten = sink₁.data.toList → (∀ p ∈ pieces, p ≠ []) →
      ∀ sizes : Nat → Nat, (∀ k, 0 < sizes k) →
        ∃ r, Reader.withOptions (pieces.map .data) o' = .ok r ∧
          ∀ turns reads, readTurns sink₁.data.size ≤ turns → readTurns sink₁.data.size ≤ reads →
            ∃ r', r.drain turns sizes reads 0 [] = some (data, none, r') ∧ r'.members = 1 ∧
              r'.totalIn = sink₁.data.size ∧ r'.totalOut = data.length := by
  have hnew := Deflater.unstarted_of_new hengine
  have hlaw := Deflater.lawful_of_new (fun _ => True) hengine
  refine ⟨_, Writer.withOptions_eq hengine sink, ?_⟩
  have hstart := Writer.intact_new (fun _ => True) engine o hsink hempty
  obtain ⟨n, w₁, hw₁, -, hwrites⟩ := hstart.calls hlaw trivial trivial hcalls
  rw [List.nil_append, hdata] at hw₁
  obtain ⟨k, w₂, hwhole, -, -, hfinish⟩ := hw₁.finish hlaw trivial
  have htakes := (hwhole.isMember hnew.usable hnew.framing_ne).takes_done (.inr rfl)
  refine ⟨max n k, w₁, w₂.sink, w₂, fun turns hturns => ?_, ?_⟩
  · exact ⟨hwrites turns (by omega), hfinish turns (by omega)⟩
  · intro o' ho' hformat pieces hpieces hne sizes hsizes
    exact Reader.drain_member htakes ho' (decodeFraming_of_format hformat) hpieces hne hsizes

/-- A sink that first accepts a single byte and is then interrupted. -/
def fitfulSink : Sink := { answers := [.accept 1, .failure (.plain .interrupted)] }

theorem willing_fitfulSink : fitfulSink.Willing := by
  refine ⟨rfl, ?_, nofun⟩
  intro a ha
  rcases List.mem_cons.mp ha with rfl | ha
  · exact .inl ⟨0, rfl⟩
  · rcases List.mem_singleton.mp ha with rfl
    exact .inr ⟨_, rfl, rfl⟩

/-- Two bytes, a flush and an empty write through buffers of one byte, read back byte by byte. -/
theorem round_trip_small_buffers :
    ∃ w : Writer (Deflater Deflate.Encoder),
      Writer.withOptions fitfulSink { bufferSize := 1 } = .ok w ∧ ∃ turns w₁ sink₁ w₂,
      w.calls turns [.write [104, 105], .flush, .write []] = some ([.ok 2, .ok 0, .ok 0], w₁) ∧
      w₁.finish turns = some (.ok sink₁, w₂) ∧
      ∃ r, Reader.withOptions ((sink₁.data.toList.map fun b => [b]).map .data) { bufferSize := 1 } =
          .ok r ∧
        ∃ turns r', r.drain turns (fun k => k + 1) turns 0 [] = some ([104, 105], none, r') ∧
          r'.members = 1 ∧ r'.totalOut = 2 := by
  obtain ⟨w, hw, enough, w₁, sink₁, w₂, hwriting, hreading⟩ := round_trip { bufferSize := 1 }
    (_ : Deflater Deflate.Encoder) rfl fitfulSink willing_fitfulSink rfl [104, 105]
    [.write [104, 105], .flush, .write []]
    (by
      intro c hc
      rcases List.mem_cons.mp hc with rfl | hc
      · exact .inr ⟨_, rfl⟩
      · rcases List.mem_cons.mp hc with rfl | hc
        · exact .inl rfl
        · rcases List.mem_singleton.mp hc with rfl
          exact .inr ⟨_, rfl⟩) rfl
  obtain ⟨hcalls, hfinish⟩ := hwriting enough (Nat.le_refl _)
  obtain ⟨r, hr, hdrain⟩ := hreading { bufferSize := 1 } rfl rfl (sink₁.data.toList.map fun b => [b])
    (by simp [List.flatten_eq_flatMap, List.flatMap_map])
    (by
      intro p hp
      obtain ⟨b, -, rfl⟩ := List.mem_map.mp hp
      exact List.cons_ne_nil b [])
    (fun k => k + 1) fun k => Nat.succ_pos k
  obtain ⟨r', hr', hmembers, -, hout⟩ := hdrain _ _ (Nat.le_refl _) (Nat.le_refl _)
  exact ⟨w, hw, enough, w₁, sink₁, w₂, hcalls, hfinish, r, hr, _, r', hr', hmembers, hout⟩

end GzipStream
