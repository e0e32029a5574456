import GzipStream.Proofs.HeaderRuns
import GzipStream.Proofs.ReaderAccounts
import GzipStream.Proofs.ReaderRefinement

/-!
# Decoding comes to an end

A reader goes on over empty members and over steps without output. What it has left to do is counted
by the bytes that are still to be offered, the room that is left, and whether a member may end
without a byte of it: an engine that was just reset needs one (`DecodeEngine.NeedsInput`). Every
turn that does not stop lowers the count (`turn_again`), so a read returns (`read_returns`). The
library's engine is such an engine, and `inflate` and `decompress` return whatever they are given.
-/

namespace GzipStream

namespace DecodeEngine

variable {ε : Type} [DecodeEngine ε]

/-- What an engine can become that is offered no input. -/
inductive Unfed (e : ε) : ε → Prop
  | refl : Unfed e e
  | step {e' : ε} (before : Unfed e e') (room : Nat) : Unfed e (DecodeEngine.step e' [] room).2
  | captureHeader {e' : ε} (before : Unfed e e') : Unfed e (DecodeEngine.captureHeader e').2

/-- The first step with input does not end a member without taking a byte. -/
def NeedsInput (e : ε) : Prop :=
  ∀ e', Unfed e e' → ∀ input room, input ≠ [] →
    (DecodeEngine.step e' input room).1.status = .streamEnd →
      0 < (DecodeEngine.step e' input room).1.consumed

/-- After a reset the engine needs input. -/
def ResetsHungry (ε : Type) [DecodeEngine ε] : Prop :=
  ∀ e e' : ε, DecodeEngine.reset e = (.ok, e') → NeedsInput e'

end DecodeEngine

theorem Step.moved_of_madeProgress {s : Step} (h : s.madeProgress = true) :
    0 < s.consumed + s.output.length := by
  simp only [madeProgress, Bool.or_eq_true, decide_eq_true_eq, Bool.not_eq_true',
    List.isEmpty_eq_false_iff, ← List.length_pos_iff] at h
  omega

theorem Step.consumed_of_idle {s : Step} (h : s.madeProgress = false) : s.consumed = 0 := by
  simp only [madeProgress, Bool.or_eq_false_iff, decide_eq_false_iff_not] at h
  omega

namespace Reader

open DecodeEngine (NeedsInput ResetsHungry Respectful)

variable {ε : Type} {r r' : Reader ε} {room : Nat} {got got' : Bytes}

/-- The number of bytes that are still to be offered to the engine. -/
def load (r : Reader ε) : Nat := (r.pending ++ r.source.unread).length

theorem load_fetch {f : Option IoFailure} (h : r.fetch = (f, r')) : r'.load = r.load := by
  obtain ⟨source, pending, exhausted, rfl, hunread⟩ := fetch_unread h
  exact congrArg List.length hunread

/-- With nothing at hand after asking, the source is at its end. -/
theorem exhausted_fetch (h : r.fetch = (none, r')) (hp : r'.pending = []) :
    r'.exhausted = true := by
  unfold fetch at h
  split at h
  · rcases hanswer : r.source.readThrough r.options.effectiveBufferSize with ⟨_ | bs, source⟩
    · simp only [hanswer] at h
      cases h
    · simp only [hanswer] at h
      cases h
      exact List.isEmpty_iff.mpr hp
  · next hneeded =>
    cases h
    simpa [hp] using hneeded

theorem active_fetch {f : Option IoFailure} (h : r.fetch = (f, r')) :
    r'.active = r.active ∧ r'.engine = r.engine := by
  obtain ⟨source, pending, exhausted, rfl, -⟩ := fetch_unread h
  exact ⟨rfl, rfl⟩

theorem load_after {s : Step} {e : ε} (hc : s.consumed ≤ r.pending.length) :
    (r.after s e).load + s.consumed = r.load := by
  show (r.pending.drop s.consumed ++ r.source.unread).length + _ = _
  rw [load, List.length_append, List.length_append, List.length_drop]
  omega

/-- What a read has left to do, apart from what it `Owes`. -/
def work (r : Reader ε) (room : Nat) (got : Bytes) : Nat := 2 * (r.load + (room - got.length))

variable [DecodeEngine ε]

/-- What may be owed: 1, or nothing where the engine was just reset. -/
def Owes (r : Reader ε) (n : Nat) : Prop :=
  n = 1 ∨ n = 0 ∧ NeedsInput r.engine ∧ r.active = false

/-- A step without progress stops the read, for there is nothing to wait for. -/
theorem stepTurn_idle {s : Step} {e : ε} (hs : s.status ≠ .streamEnd) (hidle : s.madeProgress = false)
    (hstep : DecodeEngine.step r.engine r.pending (room - got.length) = (s, e))
    (hend : r.pending = [] → r.exhausted = true) :
    ∃ result r', r.stepTurn room got = .stop result r' := by
  have hconsumed := Step.consumed_of_idle hidle
  -- whatever the status is, the engine gave nothing and did not end
  have hstop : ∀ t : Turn ε, ∃ result r', (if r.exhausted && r.pending.isEmpty then
      .stop (.error (.truncatedStream (r.after s e).totalIn)) (r.after s e)
      else if !(r.after s e).pending.isEmpty then .stop (.error .bufferTooSmall) (r.after s e)
      else t) = Turn.stop result r' := by
    intro t
    by_cases hp : r.pending = []
    · rw [if_pos (by rw [hp, hend hp]; rfl)]
      exact ⟨_, _, rfl⟩
    · have hpending : (r.after s e).pending = r.pending := by
        show r.pending.drop s.consumed = _
        rw [hconsumed, List.drop_zero]
      rw [if_neg (by simp [hp]), hpending, if_pos (by simp [hp])]
      exact ⟨_, _, rfl⟩
  simp only [stepTurn, hstep, hidle, Bool.not_false, Bool.true_and]
  split
  · exact absurd ‹s.status = .streamEnd› hs
  · exact hstop _
  · exact hstop _
  · exact ⟨_, _, rfl⟩

/-- A turn that goes on has asked for input and made a step. -/
theorem again_of_turn (h : r.turn room got = .again r' got') :
    ∃ r₁, r.fetch = (none, r₁) ∧ (r₁.pending = [] → r₁.exhausted = true ∧ r₁.active = true) ∧
      r₁.stepTurn room got = .again r' got' := by
  unfold turn at h
  split at h
  · cases h
  · rcases hfetch : r.fetch with ⟨_ | f, r₁⟩
    · rw [hfetch] at h
      simp only at h
      split at h
      · cases h
      · next hgoing =>
        refine ⟨r₁, rfl, fun hp => ?_, h⟩
        have hend := exhausted_fetch hfetch hp
        rw [hend, hp] at hgoing
        exact ⟨hend, by simpa using hgoing⟩
    · rw [hfetch] at h
      cases h

/-- A turn that goes on leaves less to do, or owes nothing any more. -/
theorem turn_again (hfits : Respectful ε) (hreset : ResetsHungry ε) {n : Nat} (howes : r.Owes n)
    (hgot : got.length < room) (h : r.turn room got = .again r' got') :
    got'.length < room ∧ ∃ n', r'.Owes n' ∧ r'.work room got' + n' < r.work room got + n := by
  obtain ⟨r₁, hfetch, hend, hturn⟩ := again_of_turn h
  have hload := load_fetch hfetch
  obtain ⟨hactive, hengine⟩ := active_fetch hfetch
  obtain ⟨s, e, hstep, hout⟩ := r₁.stepTurn_outcome room got
  have hstepFits : s.Fits r₁.pending (room - got.length) := by
    have := hfits r₁.engine r₁.pending (room - got.length)
    rwa [hstep] at this
  have hafter := load_after (e := e) hstepFits.1
  have hlength : (got ++ s.output).length ≤ room := by
    have := hstepFits.2
    rw [List.length_append]
    omega
  unfold work
  rw [hturn] at hout
  cases hout with
  | more working length_ne =>
    have hprogress : s.madeProgress = true := by
      refine eq_true_of_ne_false fun hidle => ?_
      obtain ⟨result, r₂, hstop⟩ := stepTurn_idle (by intro hs; rw [hs] at working; cases working)
        hidle hstep fun hp => (hend hp).1
      rw [hturn] at hstop
      cases hstop
    have hmoved := Step.moved_of_madeProgress hprogress
    rw [List.length_append] at hlength length_ne ⊢
    refine ⟨by omega, 1, .inl rfl, ?_⟩
    omega
  | memberWithin ended reset empty =>
    have hgotNil : got = [] := (List.append_eq_nil_iff.mp empty).1
    have hnext {e' : ε} : ((r₁.after s e).nextMember e').load = (r₁.after s e).load := rfl
    refine ⟨Nat.lt_of_le_of_lt (Nat.zero_le _) hgot, 0, .inr ⟨rfl, hreset _ _ reset, rfl⟩, ?_⟩
    rw [hnext, hgotNil, ← hload]
    rcases howes with rfl | ⟨rfl, hungry, hidle⟩
    · omega
    · -- the engine was just reset, so it took a byte of the input that it was offered
      have hne : r₁.pending ≠ [] := by
        intro hp
        have := (hend hp).2
        rw [hactive, hidle] at this
        cases this
      have hpos := hungry _ .refl r₁.pending (room - got.length) hne
      rw [← hengine, hstep] at hpos
      have hconsumed : 0 < s.consumed := hpos ended
      omega

/-- A read that is under way returns, in as many turns as there is work. -/
theorem turnLoop_returns (hfits : Respectful ε) (hreset : ResetsHungry ε) {n turns : Nat}
    (howes : r.Owes n) (hgot : got.length < room) (hturns : r.work room got + n < turns) :
    ∃ result r', r.turnLoop turns room got = some (result, r') := by
  induction turns generalizing r got n with
  | zero => exact absurd hturns (Nat.not_lt_zero _)
  | succ turns ih =>
    rw [turnLoop]
    cases hturn : r.turn room got with
    | stop result r' => exact ⟨result, r', rfl⟩
    | again r₁ got₁ =>
      obtain ⟨hgot₁, n₁, howes₁, hless⟩ := turn_again hfits hreset howes hgot hturn
      exact ih howes₁ hgot₁ (by omega)

/-- A read returns, whatever state the reader is in. -/
theorem read_returns (hfits : Respectful ε) (hreset : ResetsHungry ε) (r : Reader ε) (room : Nat) :
    ∃ result r', ∀ turns, 2 * (r.load + room) + 2 ≤ turns →
      r.read turns room = some (result, r') := by
  have hread : ∃ result r', r.read (2 * (r.load + room) + 2) room = some (result, r') := by
    unfold read attempt
    cases r.failure with
    | some err => exact ⟨_, _, rfl⟩
    | none =>
      by_cases hr : r.released = true
      · rw [if_pos hr]
        exact ⟨_, _, rfl⟩
      · by_cases hroom : room = 0
        · rw [if_neg hr, if_pos hroom]
          exact ⟨_, _, rfl⟩
        · have howes : r.Owes 1 := .inl rfl
          have hroom' : ([] : Bytes).length < room := Nat.pos_of_ne_zero hroom
          have hturns : r.work room [] + 1 < 2 * (r.load + room) + 2 := Nat.lt_succ_self _
          obtain ⟨result, r', hloop⟩ := turnLoop_returns hfits hreset howes hroom' hturns
          rw [if_neg hr, if_neg hroom, hloop]
          exact ⟨_, _, rfl⟩
  obtain ⟨result, r', hread⟩ := hread
  exact ⟨result, r', fun turns hturns => read_mono hread hturns⟩

end Reader

/-! ## The library's engine -/

namespace Deflate.Decoder

/-- A run counts no more input than it is offered, and no more room than there is. -/
theorem run_bounds (d : Decoder) (input : Bytes) (room : Nat) :
    d.totalIn ≤ (d.run input room).1.totalIn ∧
      (d.run input room).1.totalIn ≤ d.totalIn + input.length ∧ (d.run input room).2.1 ≤ room := by
  fun_induction d.run input room with
  | case4 d input codes b hm room ih =>
    have hi : (d.write b (.beginSymbols codes)).totalIn = d.totalIn := rfl
    omega
  | case6 d input codes left distance hm room hs b ih =>
    have hi : (d.write b (afterCopy codes distance left)).totalIn = d.totalIn := rfl
    omega
  | case8 d left hm room b rest ih =>
    have hi : (d.copyStored b left).totalIn = d.totalIn + 1 := rfl
    rw [List.length_cons]
    omega
  | case11 d room b rest h1 h2 h3 h4 h5 ih =>
    rw [totalIn_take] at ih
    rw [List.length_cons]
    omega
  | _ => simp

theorem decode_bounds {d d' : Decoder} {input out : Bytes} {room : Nat} {v : Verdict}
    (h : d.decode input room = (d', out, v)) :
    d'.totalIn - d.totalIn ≤ input.length ∧ out.length ≤ room := by
  obtain ⟨-, hin, hroom⟩ := d.run_bounds input room
  have hd : (d.run input room).1 = d' := congrArg Prod.fst h
  have hout : (d.decode input room).2.1.length ≤ room := by
    show ((d.run input room).1.history.extract
      ((d.run input room).1.history.size - (room - (d.run input room).2.1)) _).toList.length ≤ room
    rw [Array.length_toList, Array.size_extract]
    omega
  rw [h] at hout
  rw [hd] at hin
  exact ⟨by omega, hout⟩

end Deflate.Decoder

namespace Inflater

open DecodeEngine (NeedsInput Unfed)

variable {i i' : Inflater}

theorem fits_trailerStep (i : Inflater) (input : Bytes) (n : Nat) (output : Bytes) :
    (i.trailerStep input n output).1.consumed ≤ n + input.length ∧
      (i.trailerStep input n output).1.output = output := by
  have hw := i.trailer.length_wanted input
  have hle : n + (i.trailer.wanted input).length ≤ n + input.length := by omega
  unfold trailerStep
  simp only
  split
  · exact ⟨hle, rfl⟩
  · split
    · exact ⟨hle, rfl⟩
    · exact ⟨hle, rfl⟩

theorem fits_bodyStep (i : Inflater) (input : Bytes) (room n : Nat) :
    (i.bodyStep input room n).1.consumed ≤ n + input.length ∧
      (i.bodyStep input room n).1.output.length ≤ room := by
  rcases hdec : i.decoder.decode input room with ⟨d, out, v⟩
  obtain ⟨htaken, hout⟩ := Deflate.Decoder.decode_bounds hdec
  have hle : n + (d.totalIn - i.decoder.totalIn) ≤ n + input.length := Nat.add_le_add_left htaken n
  cases v with
  | waiting =>
    rw [bodyStep_waiting hdec]
    exact ⟨hle, hout⟩
  | refused f =>
    rw [bodyStep_refused hdec]
    exact ⟨hle, hout⟩
  | ended =>
    rw [bodyStep_ended hdec]
    split
    · obtain ⟨hc, ho⟩ := fits_trailerStep { i.decoded d out with phase := .trailer }
        (input.drop (d.totalIn - i.decoder.totalIn)) (n + (d.totalIn - i.decoder.totalIn)) out
      rw [List.length_drop] at hc
      exact ⟨by omega, by rw [ho]; exact hout⟩
    · exact ⟨hle, hout⟩

theorem fits_headerStep (i : Inflater) (input : Bytes) (room : Nat) :
    (i.headerStep input room).1.Fits input room := by
  rcases hparse : i.parser.parse input with ⟨p, answer⟩
  cases answer with
  | error d =>
    rw [headerStep_refused hparse]
    exact ⟨Nat.zero_le _, Nat.zero_le _⟩
  | ok n =>
    have hn : n ≤ input.length := by
      cases hp : i.parser.stalled? with
      | none => exact (HeaderParser.parse_ok hp hparse).2.1
      | some d =>
        rw [HeaderParser.parse, hp] at hparse
        cases hparse
    cases hd : p.isDone with
    | false =>
      rw [headerStep_more hparse hd]
      exact ⟨hn, Nat.zero_le _⟩
    | true =>
      rw [headerStep_done hparse hd]
      obtain ⟨hc, ho⟩ := fits_bodyStep (i.opened p) (input.drop n) room n
      rw [List.length_drop] at hc
      exact ⟨by omega, ho⟩

/-- The engine respects its slices in every state, sound or not. -/
theorem respectful : DecodeEngine.Respectful Inflater := by
  intro i input room
  have hbody (i : Inflater) : (i.bodyStep input room 0).1.Fits input room := by
    have h := fits_bodyStep i input room 0
    rwa [Nat.zero_add] at h
  show (i.step input room).1.Fits input room
  unfold step
  split
  · exact ⟨Nat.zero_le _, Nat.zero_le _⟩
  · split
    · unfold detectStep
      split
      · exact ⟨Nat.zero_le _, Nat.zero_le _⟩
      · split
        · exact fits_headerStep _ _ _
        · exact hbody _
    · exact fits_headerStep _ _ _
    · exact hbody _
    · obtain ⟨hc, ho⟩ := fits_trailerStep i input 0 []
      rw [Nat.zero_add] at hc
      exact ⟨hc, by rw [ho]; exact Nat.zero_le _⟩
    · exact ⟨Nat.zero_le _, Nat.zero_le _⟩

/-- An engine whose member needs input. -/
structure Waits (i : Inflater) : Prop where
  sound : i.Sound
  isOpen : i.view.isOpen = true

section
variable {s : Step} {input used rest out : Bytes} {room : Nat}

/-- The end of a member that needs input is behind a byte of it. -/
theorem Advanced.consumed_pos (h : i.Advanced input room 0 [] s i' used rest out)
    (ho : i.view.isOpen = true) (hs : s.status = .streamEnd) : 0 < s.consumed := by
  rw [h.consumed_eq, Nat.zero_add]
  cases h.outcome with
  | working n o sound takes full =>
    simp only [Step.worked] at hs
    split at hs <;> cases hs
  | failed => cases hs
  | ended n o phase takes =>
    refine List.length_pos_iff.mpr ?_
    rintro rfl
    rw [show i.view = _ from takes] at ho
    cases ho

/-- Without input nothing happens to a member that needs it. -/
theorem Advanced.waits (h : i.Advanced [] room 0 [] s i' used rest out)
    (ho : i.view.isOpen = true) : i'.Waits := by
  obtain ⟨rfl, rfl⟩ := List.append_eq_nil_iff.mp h.input_eq.symm
  cases h.outcome with
  | working n o sound takes full =>
    exact ⟨sound, by rw [← show i.view = i'.view from takes]; exact ho⟩
  | ended n o phase takes =>
    rw [show i.view = _ from takes] at ho
    cases ho
  | failed n o fault ahead isPrefix takes stuck =>
    obtain rfl := List.prefix_nil.mp isPrefix
    rw [show i.view = _ from takes] at ho
    cases ho

end

theorem Waits.running (h : i.Waits) : ¬ i.ended = true := by
  rw [h.sound.running]
  exact Bool.false_ne_true

/-- A step that ends a member which needs input takes a byte, whatever room there is. -/
theorem Waits.consumed_pos (h : i.Waits) (input : Bytes) (room : Nat)
    (hs : (i.step input room).1.status = .streamEnd) : 0 < (i.step input room).1.consumed := by
  unfold step at hs ⊢
  rw [if_neg h.running] at hs ⊢
  cases hm : i.phase with
  | detect =>
    simp only [hm] at hs ⊢
    cases input with
    | nil => cases hs
    | cons b input =>
      simp only [detectStep] at hs ⊢
      split at hs
      · next hb1 =>
        rw [if_pos hb1]
        obtain ⟨used, rest, out, ha⟩ :=
          headerStep_spec (sound_asGzip h.sound hm) rfl (b :: input) room
        exact ha.consumed_pos rfl hs
      · next hb1 =>
        rw [if_neg hb1]
        obtain ⟨used, rest, out, ha⟩ :=
          bodyStep_spec (sound_asZlib h.sound hm) rfl (b :: input) room 0
        exact ha.consumed_pos rfl hs
  | header =>
    simp only [hm] at hs ⊢
    obtain ⟨used, rest, out, ha⟩ := headerStep_spec h.sound hm input room
    exact ha.consumed_pos h.isOpen hs
  | body =>
    simp only [hm] at hs ⊢
    obtain ⟨used, rest, out, ha⟩ := bodyStep_spec h.sound hm input room 0
    exact ha.consumed_pos h.isOpen hs
  | trailer =>
    simp only [hm] at hs ⊢
    obtain ⟨used, rest, ha⟩ := trailerStep_spec h.sound hm input room 0 []
    exact ha.consumed_pos h.isOpen hs
  | done =>
    have ho := h.isOpen
    rw [view, hm] at ho
    cases ho

theorem Waits.step_nil (h : i.Waits) (room : Nat) : (i.step [] room).2.Waits := by
  unfold step
  rw [if_neg h.running]
  cases hm : i.phase with
  | detect => exact h
  | header =>
    obtain ⟨used, rest, out, ha⟩ := headerStep_spec h.sound hm [] room
    exact ha.waits h.isOpen
  | body =>
    obtain ⟨used, rest, out, ha⟩ := bodyStep_spec h.sound hm [] room 0
    exact ha.waits h.isOpen
  | trailer =>
    obtain ⟨used, rest, ha⟩ := trailerStep_spec h.sound hm [] room 0 []
    exact ha.waits h.isOpen
  | done =>
    have ho := h.isOpen
    rw [view, hm] at ho
    cases ho

theorem blank_capturing (h : i.Blank) : ({ i with capture := true } : Inflater).Blank :=
  ⟨h.payload_eq, h.crc_eq, h.size_eq, h.trailer_eq⟩

theorem phaseSound_capturing {p : Phase} (h : i.PhaseSound p) :
    ({ i with capture := true } : Inflater).PhaseSound p := by
  cases p with
  | detect => exact ⟨h.1, blank_capturing h.2⟩
  | header => exact ⟨h.1, h.2.1, blank_capturing h.2.2⟩
  | body => exact h
  | trailer => exact h
  | done => trivial

theorem Waits.captureHeader (h : i.Waits) : i.captureHeader.2.Waits := by
  unfold Inflater.captureHeader
  split
  · exact ⟨⟨h.sound.running, phaseSound_capturing h.sound.phase⟩, h.isOpen⟩
  · exact h

theorem Waits.unfed (h : i.Waits) (hu : Unfed i i') : i'.Waits := by
  induction hu with
  | refl => exact h
  | step before room ih => exact ih.step_nil room
  | captureHeader before ih => exact ih.captureHeader

theorem Waits.needsInput (h : i.Waits) : NeedsInput i := fun _ hu input room _ hs =>
  (h.unfed hu).consumed_pos input room hs

theorem waits_startMember (h : i.ended = false) : i.startMember.Waits :=
  ⟨(along_startMember h).sound, (along_startMember h).caughtUp.isOpen⟩

theorem needsInput_new (f : Framing) : NeedsInput (new f) :=
  Waits.needsInput ⟨(along_new f).sound, (along_new f).caughtUp.isOpen⟩

theorem resetsHungry : DecodeEngine.ResetsHungry Inflater := by
  intro i i' hreset
  replace hreset : i.reset = (.ok, i') := hreset
  unfold reset at hreset
  split at hreset
  · cases hreset
  · next hrunning =>
    cases hreset
    exact (waits_startMember (eq_false_of_ne_true hrunning)).needsInput

end Inflater

/-! ## Whole byte strings -/

/-- The error that stands for turns that did not suffice is no answer to any data. -/
theorem Ending.answer_ne (n : Nat) (out : Bytes) (e : Ending) :
    e.answer n out ≠ .error .bufferTooSmall := by
  cases e with
  | clean => nofun
  | truncated => nofun
  | refused fault => nofun

theorem inflate_ne (data : Bytes) (f : Framing) : inflate data f ≠ .error .bufferTooSmall := by
  obtain ⟨out, members, ending, -, heq⟩ := inflate_spec data f
  rw [heq]
  exact ending.answer_ne _ _

/-- More turns than `inflate` has change nothing. -/
theorem inflateFrom_eq (data : Bytes) (f : Framing) {turns : Nat} (h : 2 * data.length < turns) :
    inflateFrom turns (.new f) data 0 false #[] = inflate data f := by
  have hnew := Inflater.along_new f
  obtain ⟨out, members, ending, ha, heq⟩ := inflateFrom_spec turns 0 (behind_start f data) hnew rfl
    (Nat.zero_add _) rfl (.inr ⟨rfl, hnew.caughtUp⟩) h
  obtain ⟨out', members', ending', ha', heq'⟩ := inflate_spec data f
  obtain ⟨rfl, rfl, rfl⟩ := ha.unique ha'
  exact heq.trans heq'.symm

theorem Reader.withOptions_of_invalid (source : Source) {o : Options} {fault : ConfigFault}
    (ho : o.validate = .error fault) : withOptions source o = .error fault := by
  simp only [withOptions, Inflater.ofOptions, ho, bind, Except.bind]

theorem decompress_ne (data : Bytes) (o : Options) :
    decompress data o ≠ .error .bufferTooSmall := by
  cases ho : o.validate with
  | error fault =>
    simp only [decompress, Reader.withOptions_of_invalid _ ho]
    intro h
    cases h
  | ok u =>
    rw [decompress_eq_inflate data ho]
    exact inflate_ne _ _

theorem Reader.readToEnd_mono {ε : Type} [DecodeEngine ε] {r : Reader ε} {room : Nat}
    {got : Array UInt8} {answer : Array UInt8 × Option Error × Reader ε}
    {turns turns' reads reads' : Nat} (h : r.readToEnd turns reads room got = some answer)
    (hturns : turns ≤ turns') (hreads : reads ≤ reads') :
    r.readToEnd turns' reads' room got = some answer := by
  induction reads generalizing r got reads' with
  | zero => cases h
  | succ reads ih =>
    cases reads' with
    | zero => exact absurd hreads (Nat.not_succ_le_zero reads)
    | succ reads' =>
      unfold readToEnd at h ⊢
      rcases hread : r.read turns room with _ | ⟨result, r'⟩
      · rw [hread] at h
        cases h
      · rw [hread] at h
        rw [read_mono hread hturns]
        rcases result with e | bs
        · exact h
        · cases bs with
          | nil => exact h
          | cons b bs => exact ih h (Nat.le_of_succ_le_succ hreads)

theorem Reader.readToEnd_returns {data : Bytes} {o : Options} {r : Reader Inflater}
    (hr : withOptions [.data data] o = .ok r) {room : Nat} (hroom : 0 < room) :
    ∃ answer, ∀ turns reads, readTurns data.length ≤ turns → readTurns data.length ≤ reads →
      r.readToEnd turns reads room #[] = some answer := by
  cases ho : o.validate with
  | error fault =>
    rw [withOptions_of_invalid _ ho] at hr
    cases hr
  | ok u =>
    obtain ⟨r₀, hr₀, hreading, hw⟩ := reading_start (Source.supplies_singleton data) ho
    obtain rfl : r₀ = r := Except.ok.inj (hr₀.symm.trans hr)
    obtain ⟨got, failure, r', hdrain, -⟩ := hreading.drain_spec (fun _ => hroom) _ 0 hw hw
    refine ⟨(got.toArray, failure, r'), fun turns reads hturns hreads => readToEnd_mono ?_ hturns hreads⟩
    rw [readToEnd_eq_drain _ _ 0, show (#[] : Array UInt8).toList = [] ++ [] from rfl, hdrain]
    rfl

/-- Decoding comes to an end. A read returns for every engine that respects its slices and, once
reset, does not end a member without a byte of it, in any state of the reader and for every source
and buffer; the library's engine is one of these; and `inflate` and `decompress` answer whatever the
data is, with the same answer however many turns there are. -/
theorem decoding_terminates :
    (∀ (ε : Type) [DecodeEngine ε], DecodeEngine.Respectful ε → DecodeEngine.ResetsHungry ε →
      ∀ (r : Reader ε) (room : Nat), ∃ result r', ∀ turns, 2 * (r.load + room) + 2 ≤ turns →
        r.read turns room = some (result, r')) ∧
    (DecodeEngine.Respectful Inflater ∧ (∀ f, DecodeEngine.NeedsInput (Inflater.new f)) ∧
      DecodeEngine.ResetsHungry Inflater) ∧
    (∀ data f, inflate data f ≠ .error .bufferTooSmall ∧ ∀ turns, 2 * data.length < turns →
      inflateFrom turns (.new f) data 0 false #[] = inflate data f) ∧
    (∀ data o, decompress data o ≠ .error .bufferTooSmall ∧
      ∀ r, Reader.withOptions [.data data] o = .ok r → ∃ answer, ∀ turns reads,
        readTurns data.length ≤ turns → readTurns data.length ≤ reads →
          r.readToEnd turns reads 65536 #[] = some answer) := by
  refine ⟨?_, ⟨Inflater.respectful, Inflater.needsInput_new, Inflater.resetsHungry⟩, ?_, ?_⟩
  · intro ε _ hfits hreset r room
    exact Reader.read_returns hfits hreset r room
  · intro data f
    exact ⟨inflate_ne data f, fun turns hturns => inflateFrom_eq data f hturns⟩
  · intro data o
    exact ⟨decompress_ne data o, fun r hr => Reader.readToEnd_returns hr (by decide)⟩

theorem resetsHungry_splitter : DecodeEngine.ResetsHungry Splitter := by
  intro e e' _ e'' _ input room _ hended
  cases input with
  | nil => cases hended
  | cons b input =>
    simp only [DecodeEngine.step] at hended ⊢
    split
    · exact Nat.one_pos
    · next hb =>
      rw [if_neg hb] at hended
      repeat' split at hended
      all_goals cases hended

/-- A read over two empty members and an interruption. -/
theorem decoding_terminates_empty_members : ∃ result r',
    ({ source := [.data [0], .failure (.plain .interrupted), .data [0]], engine := ⟨⟩, options := {},
       capture := false } : Reader Splitter).read 8 1 = some (result, r') := by
  obtain ⟨result, r', hread⟩ := decoding_terminates.1 Splitter respectful_splitter
    resetsHungry_splitter
    { source := [.data [0], .failure (.plain .interrupted), .data [0]], engine := ⟨⟩, options := {},
      capture := false } 1
  exact ⟨result, r', hread 8 (by decide)⟩

end GzipStream
