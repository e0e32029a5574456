import GzipStream.Proofs.CompressionSessions
import GzipStream.Proofs.Members

/-!
# Members from a compression engine

What an engine gives for which no header was set is a member of what it took (`Frames.isMember`), and
behind a flush it is the beginning of one (`Opens.takes`).
-/

namespace GzipStream.Deflater

section
variable {κ : Type} [Compressor κ] {d : Deflater κ} {o : Options} {uses : Flush → Prop}
  {asks : Stage → Bytes → Flush → Prop} {fed given : Bytes}

/-- The header of a member for which none was set. -/
def front (d : Deflater κ) : Bytes :=
  if d.framing = .gzip then plainHeader d.effort.level else []

theorem Unstarted.laid_front (h : d.Unstarted o {}) : d.Laid asks d.front .feeding [] [] := by
  refine .fresh h.started h.phase_eq ?_ rfl rfl rfl h.encoder_eq
  unfold front
  by_cases hf : d.framing = .gzip
  · rw [if_pos hf, if_pos hf, h.header_eq]
    exact encode_plain _
  · rw [if_neg hf, if_neg hf]

variable [Compressor.Lawful κ]

/-- A header, a stream and a trailer make a member. -/
theorem Frames.isMember (h : d.Frames uses d.front fed given) (hu : d.effort.Usable)
    (hne : d.framing ≠ .auto) : IsMember d.framing given fed := by
  obtain ⟨stream, e, hgiven, hstream⟩ := h
  have hdecodes := (Compressor.lawful_of_usable _ hu).whole hstream
  rw [hgiven, front, ending]
  cases hf : d.framing with
  | auto => exact absurd hf hne
  | gzip =>
    rw [hf] at hdecodes
    exact ⟨_, stream, rfl, accepts_plainHeader _, hdecodes⟩
  | zlib =>
    rw [hf] at hdecodes
    simpa [IsMember] using hdecodes
  | raw =>
    rw [hf] at hdecodes
    simpa [IsMember] using hdecodes

omit [Compressor κ] [Compressor.Lawful κ] in
/-- A header and the beginning of a stream make the beginning of a member. -/
theorem Opens.takes (h : d.Opens d.front fed given) (hne : d.framing ≠ .auto) {f : Framing}
    (hf : f = d.framing ∨ f = d.framing.readAs) :
    ∃ m, (Member.start f).Takes given m ∧ m.isOpen = true ∧ m.payload = fed := by
  obtain ⟨stream, rfl, c, htakes, hopen, rfl⟩ := h
  have hstream (isGzip : Bool) := Member.takes_ofCursor isGzip htakes
  simp only [Member.ofCursor_of_isOpen hopen] at hstream
  rw [front]
  cases hfr : d.framing with
  | auto => exact absurd hfr hne
  | gzip =>
    rw [hfr] at hf hstream
    have hgzip : (Member.start .gzip).Takes (plainHeader d.effort.level ++ stream) (.body true c) :=
      (HeaderParser.takes_of_accepts (accepts_plainHeader _)).append (hstream true)
    refine ⟨.body true c, ?_, rfl, rfl⟩
    rcases hf with rfl | rfl
    · exact hgzip
    · exact Member.takes_auto_of_gzip hgzip
  | zlib =>
    rw [hfr] at hf hstream htakes
    rcases hf with rfl | rfl
    · exact ⟨.body false c, hstream false, rfl, rfl⟩
    · exact Member.takes_auto_of_open htakes hopen
  | raw =>
    rw [hfr] at hf hstream
    refine ⟨.body false c, ?_, rfl, rfl⟩
    rcases hf with rfl | rfl <;> exact hstream false

end

end GzipStream.Deflater
