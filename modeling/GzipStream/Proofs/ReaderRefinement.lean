import GzipStream.Proofs.Reading

/-!
# Streams and whole byte strings decode alike

`drain_agrees_inflate` says that a reader gives what `inflate` gives, and fails where and as it
fails, however its source deals out the data and however large the reads and the buffer are.
-/

namespace GzipStream

namespace Reader

theorem withOptions_eq (source : Source) {o : Options} (ho : o.validate = .ok ()) :
    ∃ capture engineCaptures, withOptions source o = .ok
      { source := source, engine := { Inflater.new o.decodeFraming with capture := engineCaptures },
        options := o, capture := capture } := by
  simp only [withOptions, Inflater.ofOptions, withEngine, ho, bind, Except.bind,
    DecodeEngine.captureHeader, Inflater.captureHeader]
  split
  · split
    · exact ⟨_, true, rfl⟩
    · exact ⟨_, false, rfl⟩
  · exact ⟨false, false, rfl⟩

theorem Reading.weight_start {f : Framing} {data : Bytes} {r : Reader Inflater}
    (h : r.Reading f data [] [] [] data) (hp : r.pending = []) :
    r.weight data < readTurns data.length := by
  unfold weight readTurns
  rw [h.along.owing_start, hp, List.nil_append, show Inflater.perByte = 2066 from rfl]
  omega

/-- A new reader. -/
theorem reading_start {source : Source} {data : Bytes} (hs : source.Supplies data) {o : Options}
    (ho : o.validate = .ok ()) : ∃ r, withOptions source o = .ok r ∧
      r.Reading o.decodeFraming data [] [] [] data ∧ r.weight data < readTurns data.length := by
  obtain ⟨capture, engineCaptures, hr⟩ := withOptions_eq source ho
  have hreading : Reading o.decodeFraming data
      { source := source, engine := { Inflater.new o.decodeFraming with capture := engineCaptures },
        options := o, capture := capture } [] [] [] data :=
    ⟨Inflater.along_start o.decodeFraming engineCaptures none, behind_start _ _, hs, rfl, nofun,
      Nat.zero_add _, rfl, rfl, rfl⟩
  exact ⟨_, hr, hreading, hreading.weight_start rfl⟩

theorem Drained.inflate_eq {f : Framing} {data got : Bytes} {failure : Option Error}
    {r : Reader Inflater} (h : Drained f data got failure r) :
    inflate data f = match failure with | none => .ok got | some e => .error e := by
  obtain ⟨out, n, e, ha, hinflate⟩ := inflate_spec data f
  rw [hinflate]
  cases h with
  | all archive totalIn_eq totalOut_eq close_eq =>
    obtain ⟨rfl, rfl, rfl⟩ := ha.unique archive
    rfl
  | part archive isPrefix error_eq =>
    obtain ⟨rfl, rfl, rfl⟩ := ha.unique archive
    simp only [Ending.answer, error_eq]

theorem Drained.prefix_decoded {f : Framing} {data got : Bytes} {failure : Option Error}
    {r : Reader Inflater} (h : Drained f data got failure r) :
    ∃ decoded members ending, Archive f data decoded members ending ∧ got <+: decoded := by
  cases h with
  | all archive totalIn_eq totalOut_eq close_eq => exact ⟨_, _, _, archive, List.prefix_rfl⟩
  | part archive isPrefix error_eq => exact ⟨_, _, _, archive, isPrefix⟩

/-- Reads of one size. -/
theorem readToEnd_eq_drain {ε : Type} [DecodeEngine ε] (turns reads k room : Nat) (r : Reader ε)
    (got : Array UInt8) : r.readToEnd turns reads room got =
      (r.drain turns (fun _ => room) reads k got.toList).map fun (bs, e, r) => (bs.toArray, e, r) := by
  induction reads generalizing k r got with
  | zero => rfl
  | succ reads ih =>
    unfold readToEnd drain
    rcases hread : r.read turns room with _ | ⟨e | bs, r'⟩
    · rfl
    · rfl
    · cases bs with
      | nil => rfl
      | cons b bs =>
        have hrest := ih (k + 1) r' (got ++ (b :: bs))
        rw [Array.toList_appendList] at hrest
        exact hrest

end Reader

theorem decompress_eq_inflate (data : Bytes) {o : Options} (ho : o.validate = .ok ()) :
    decompress data o = inflate data o.decodeFraming := by
  obtain ⟨r, hr, hreading, hw⟩ := Reader.reading_start (Source.supplies_singleton data) ho
  obtain ⟨got, failure, r', hdrain, hd⟩ :=
    hreading.drain_spec (fun _ => show 0 < 65536 by decide) _ 0 hw hw
  have hend : r.readToEnd (readTurns data.length) (readTurns data.length) 65536 #[] =
      some (got.toArray, failure, r') := by
    rw [Reader.readToEnd_eq_drain _ _ 0, show (#[] : Array UInt8).toList = [] ++ [] from rfl, hdrain]
    rfl
  simp only [decompress, hr, hend, hd.inflate_eq]
  cases hd with
  | all archive totalIn_eq totalOut_eq close_eq => simp only [close_eq]
  | part archive isPrefix error_eq => rfl

/-- Reads of any sizes, over any source that supplies the data, end as `inflate` does: with the same
bytes, or with the same error behind a part of what can be decoded. -/
theorem drain_agrees_inflate (data : Bytes) (o : Options) (ho : o.validate = .ok ())
    (pieces : List Bytes) (hdata : pieces.flatten = data) (hpieces : ∀ p ∈ pieces, p ≠ [])
    (sizes : Nat → Nat) (hsizes : ∀ k, 0 < sizes k) :
    (∃ r, Reader.withOptions (pieces.map .data) o = .ok r ∧
      ∀ turns reads, readTurns data.length ≤ turns → readTurns data.length ≤ reads →
        ∃ got failure r', r.drain turns sizes reads 0 [] = some (got, failure, r') ∧
          (∀ bs, inflate data o.decodeFraming = .ok bs → got = bs ∧ failure = none) ∧
          (∀ e, inflate data o.decodeFraming = .error e → failure = some e ∧
            ∃ decoded members ending,
              Archive o.decodeFraming data decoded members ending ∧ got <+: decoded)) ∧
      decompress data o = inflate data o.decodeFraming := by
  refine ⟨?_, decompress_eq_inflate data ho⟩
  have hsupplies : Source.Supplies (pieces.map .data) data := by
    rw [← hdata]
    exact Source.supplies_map hpieces
  obtain ⟨r, hr, hreading, hw⟩ := Reader.reading_start hsupplies ho
  refine ⟨r, hr, ?_⟩
  intro turns reads hturns hreads
  obtain ⟨got, failure, r', hdrain, hd⟩ := hreading.drain_spec hsizes reads 0
    (Nat.lt_of_lt_of_le hw hturns) (Nat.lt_of_lt_of_le hw hreads)
  refine ⟨got, failure, r', hdrain, ?_, ?_⟩
  · intro bs hbs
    rw [hd.inflate_eq] at hbs
    cases failure with
    | none => exact ⟨Except.ok.inj hbs, rfl⟩
    | some e => cases hbs
  · intro e he
    rw [hd.inflate_eq] at he
    cases failure with
    | none => cases he
    | some e' => exact ⟨congrArg some (Except.error.inj he), hd.prefix_decoded⟩

/-- A header cut off behind its third byte, in two pieces and through a buffer of one byte. -/
theorem drain_agrees_inflate_cut_header :
    ∃ r, Reader.withOptions [.data [0x1f], .data [0x8b, 8]] { bufferSize := 1 } = .ok r ∧
      ∃ got r', r.drain (readTurns 3) (fun k => k + 1) (readTurns 3) 0 [] =
        some (got, some (.truncatedStream 3), r') := by
  obtain ⟨⟨r, hr, hdrain⟩, -⟩ := drain_agrees_inflate [0x1f, 0x8b, 8] { bufferSize := 1 } rfl
    [[0x1f], [0x8b, 8]] rfl (by decide) (fun k => k + 1) (fun k => Nat.succ_pos k)
  obtain ⟨got, failure, r', hd, -, herror⟩ := hdrain _ _ (Nat.le_refl _) (Nat.le_refl _)
  obtain ⟨rfl, -⟩ := herror (.truncatedStream 3) (by rfl)
  exact ⟨r, hr, got, r', hd⟩

end GzipStream
