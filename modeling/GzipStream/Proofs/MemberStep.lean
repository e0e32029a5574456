import GzipStream.Inflater
import GzipStream.Proofs.Deflate.Schedule
import GzipStream.Proofs.Member

/-!
# Steps of the decompression engine

`Inflater.view` is the member that an engine stands for, `Inflater.Sound` holds of every engine that
did not fail. `step_spec` says what one step does, whatever input and room it is offered: it takes
bytes that its member asks for, moves the member by exactly these, and lags behind in output alone.
-/

namespace GzipStream

namespace Inflater

/-- What the engine gave out of the current member. -/
def payload (i : Inflater) : Bytes := i.decoder.history.toList

/-- The member that the engine stands for. -/
def view (i : Inflater) : Member :=
  match i.phase with
  | .detect => .detect
  | .header => .header i.parser
  | .body => .ofCursor (i.member = .gzip) i.decoder.cursor
  | .trailer => .trailer i.payload i.trailer.seen
  | .done => .done i.payload

/-- Nothing of the payload was decoded. -/
structure Blank (i : Inflater) : Prop where
  payload_eq : i.payload = []
  crc_eq : i.crc = {}
  size_eq : i.size = 0
  trailer_eq : i.trailer.seen = []

/-- Checksum and size of a gzip member are those of the payload. -/
def Summed (i : Inflater) : Prop :=
  i.member = .gzip → i.crc = Crc32.feed {} i.payload ∧ i.size = UInt32.ofNat i.payload.length

def PhaseSound (i : Inflater) : Phase → Prop
  | .detect => i.parser = {} ∧ i.Blank
  | .header => i.member = .gzip ∧ i.parser.Running ∧ i.Blank
  | .body => i.decoder.Settled ∧ i.trailer.seen = [] ∧ i.Summed
  | .trailer => i.member = .gzip ∧ i.trailer.count < 8 ∧ i.Summed
  | .done => True

/-- The state of an engine that did not fail. -/
structure Sound (i : Inflater) : Prop where
  running : i.ended = false
  phase : i.PhaseSound i.phase

/-- All that was decoded was given out, and more input is needed. -/
structure CaughtUp (i : Inflater) : Prop where
  isOpen : i.view.isOpen = true
  payload_eq : i.view.payload = i.payload

/-- An engine that compared the whole trailer, in vain. -/
structure Mismatched (i : Inflater) (m : Trailer.Mismatch) : Prop where
  running : i.ended = false
  phase : i.phase = .trailer
  count_eq : i.trailer.count = 8
  verify_eq : Trailer.verify i.trailer.bytes i.crc.value i.size = .error m

/-- How a step ends that took `used`, left `rest` and gave `out` into the given room. A refused
header takes nothing, so a failure may lie `ahead` of what was taken. -/
inductive Outcome (i : Inflater) (room : Nat) (used rest out : Bytes) : Step → Inflater → Prop
  | working {i' : Inflater} (n : Nat) (o : Bytes) (sound : i'.Sound)
      (takes : i.view.Takes used i'.view) (full : out.length = room ∨ rest = [] ∧ i'.CaughtUp) :
      Outcome i room used rest out (.worked n o) i'
  | ended {i' : Inflater} (n : Nat) (o : Bytes) (phase : i'.phase = .done)
      (takes : i.view.Takes used (.done i'.payload)) : Outcome i room used rest out (.ended n o) i'
  | failed {i' : Inflater} (n : Nat) (o : Bytes) (fault : Fault) (ahead : Bytes)
      (isPrefix : ahead <+: rest) (takes : i.view.Takes (used ++ ahead) (.failed i'.payload fault))
      (stuck : ∀ m, fault = .trailer m → ahead = [] ∧ i'.Mismatched m) :
      Outcome i room used rest out (.failed n o .dataError fault.message) i'

/-- What a step did that had taken `before` bytes and given `had` already. -/
structure Advanced (i : Inflater) (input : Bytes) (room before : Nat) (had : Bytes)
    (s : Step) (i' : Inflater) (used rest out : Bytes) : Prop where
  input_eq : input = used ++ rest
  consumed_eq : s.consumed = before + used.length
  output_eq : s.output = had ++ out
  length_le : out.length ≤ room
  payload_eq : i'.payload = i.payload ++ out
  framing_eq : i'.framing = i.framing
  running : i'.ended = false
  outcome : i.Outcome room used rest out s i'

/-- Goes on behind `u`, which gave `o`. -/
theorem Advanced.after {i e : Inflater} {input : Bytes} {room before : Nat} {had : Bytes}
    {s : Step} {i' : Inflater} {used rest out u o : Bytes}
    (h : e.Advanced input room (before + u.length) (had ++ o) s i' used rest out)
    (ht : i.view.Takes u e.view) (hp : e.payload = i.payload ++ o) (hf : e.framing = i.framing) :
    i.Advanced (u ++ input) (o.length + room) before had s i' (u ++ used) rest (o ++ out) where
  input_eq := by rw [h.input_eq, List.append_assoc]
  consumed_eq := by rw [h.consumed_eq, List.length_append, Nat.add_assoc]
  output_eq := by rw [h.output_eq, List.append_assoc]
  length_le := by rw [List.length_append]; exact Nat.add_le_add_left h.length_le _
  payload_eq := by rw [h.payload_eq, hp, List.append_assoc]
  framing_eq := h.framing_eq.trans hf
  running := h.running
  outcome := by
    cases h.outcome with
    | working n o' sound takes full =>
      refine .working n o' sound (ht.append takes) ?_
      rw [List.length_append]
      exact full.imp_left (fun h => by rw [h])
    | ended n o' phase takes => exact .ended n o' phase (ht.append takes)
    | failed n o' fault ahead isPrefix takes stuck =>
      refine .failed n o' fault ahead isPrefix ?_ stuck
      rw [List.append_assoc]
      exact ht.append takes

theorem trailerStep_spec {i : Inflater} (hi : i.Sound) (hm : i.phase = .trailer) (input : Bytes)
    (room before : Nat) (had : Bytes) :
    ∃ used rest, i.Advanced input room before had (i.trailerStep input before had).1
      (i.trailerStep input before had).2 used rest [] := by
  obtain ⟨hg, hl, hs⟩ : i.member = .gzip ∧ i.trailer.count < 8 ∧ i.Summed := by
    have := hi.phase
    rwa [hm] at this
  obtain ⟨hcrc, hsize⟩ := hs hg
  have hv : i.view = .trailer i.payload i.trailer.seen := by unfold view; rw [hm]
  have hinput : input = i.trailer.wanted input ++ input.drop (8 - i.trailer.count) :=
    (List.take_append_drop _ _).symm
  have hw := i.trailer.length_wanted input
  have hcount : (i.trailer.fill input).count = i.trailer.count + (i.trailer.wanted input).length :=
    rfl
  refine ⟨i.trailer.wanted input, input.drop (8 - i.trailer.count), ?_⟩
  unfold trailerStep
  simp only
  split
  · next hlt =>
    refine ⟨hinput, rfl, (List.append_nil had).symm, Nat.zero_le _, (List.append_nil _).symm, rfl,
      hi.running, .working _ _ ⟨hi.running, ?_⟩ ?_ (.inr ⟨?_, ?_⟩)⟩
    · simp only [PhaseSound, hm]
      exact ⟨hg, hlt, hs⟩
    · rw [hv]
      simp only [view, hm, Trailer.Buffer.seen_fill]
      exact Member.takes_trailer _ _ _ (by rw [Trailer.Buffer.length_seen]; omega)
    · exact List.drop_eq_nil_of_le (by omega)
    · exact ⟨by simp only [view, hm]; rfl, by simp only [view, hm]; rfl⟩
  · next hge =>
    have ht := Member.takes_ofTrailer i.payload i.trailer.seen (i.trailer.wanted input)
      (by rw [Trailer.Buffer.length_seen]; exact hl) (by rw [Trailer.Buffer.length_seen]; omega)
    have hfull : (i.trailer.fill input).count = 8 := by
      have := (i.trailer.fill input).count_le
      omega
    have hverify : Trailer.verify (i.trailer.fill input).bytes i.crc.value i.size
        = Trailer.verify (i.trailer.seen ++ i.trailer.wanted input)
          (Crc32.ofBytes i.payload) (UInt32.ofNat i.payload.length) := by
      rw [← Trailer.Buffer.seen_of_full hfull, Trailer.Buffer.seen_fill, hcrc, hsize]; rfl
    unfold Member.ofTrailer at ht
    rw [← hverify] at ht
    split
    · next m hmis =>
      rw [hmis] at ht
      refine ⟨hinput, rfl, (List.append_nil had).symm, Nat.zero_le _, (List.append_nil _).symm, rfl,
        hi.running, .failed _ _ (.trailer m) [] List.nil_prefix ?_ ?_⟩
      · rw [hv, List.append_nil]
        exact ht
      · rintro _ ⟨⟩
        exact ⟨rfl, hi.running, hm, hfull, hmis⟩
    · next hok =>
      rw [hok] at ht
      exact ⟨hinput, rfl, (List.append_nil had).symm, Nat.zero_le _, (List.append_nil _).symm, rfl,
        hi.running, .ended _ _ rfl (by rw [hv]; exact ht)⟩

/-- The engine with a decoder that gave `out`. -/
def decoded (i : Inflater) (d : Deflate.Decoder) (out : Bytes) : Inflater :=
  { i with
    decoder := d
    crc := if i.member = .gzip then i.crc.feed out else i.crc
    size := if i.member = .gzip then i.size + UInt32.ofNat out.length else i.size }

theorem Summed.decoded {i : Inflater} (hs : i.Summed) {d : Deflate.Decoder} {out : Bytes}
    (hd : d.history.toList = i.decoder.history.toList ++ out) : (i.decoded d out).Summed := by
  intro hg
  obtain ⟨hcrc, hsize⟩ := hs hg
  have hp : (i.decoded d out).payload = i.payload ++ out := hd
  have hm : i.member = .gzip := hg
  rw [hp, Crc32.feed_append, List.length_append, UInt32.ofNat_add, ← hcrc, ← hsize]
  exact ⟨if_pos hm, if_pos hm⟩

section
variable {i : Inflater} {input : Bytes} {room : Nat} {d : Deflate.Decoder} {out : Bytes}

theorem bodyStep_waiting (h : i.decoder.decode input room = (d, out, .waiting)) (before : Nat) :
    i.bodyStep input room before =
      (.worked (before + (d.totalIn - i.decoder.totalIn)) out, i.decoded d out) := by
  unfold bodyStep
  simp only [h]
  rfl

theorem bodyStep_refused {f : Deflate.DecodeFault}
    (h : i.decoder.decode input room = (d, out, .refused f)) (before : Nat) :
    i.bodyStep input room before =
      (.failed (before + (d.totalIn - i.decoder.totalIn)) out .dataError f.text,
        i.decoded d out) := by
  unfold bodyStep
  simp only [h]
  rfl

theorem bodyStep_ended (h : i.decoder.decode input room = (d, out, .ended)) (before : Nat) :
    i.bodyStep input room before =
      if i.member = .gzip then
        trailerStep { i.decoded d out with phase := .trailer }
          (input.drop (d.totalIn - i.decoder.totalIn))
          (before + (d.totalIn - i.decoder.totalIn)) out
      else
        (.ended (before + (d.totalIn - i.decoder.totalIn)) out,
          { i.decoded d out with phase := .done }) := by
  unfold bodyStep
  simp only [h]
  rfl

end

theorem bodyStep_spec {i : Inflater} (hi : i.Sound) (hm : i.phase = .body) (input : Bytes)
    (room before : Nat) :
    ∃ used rest out, i.Advanced input room before [] (i.bodyStep input room before).1
      (i.bodyStep input room before).2 used rest out := by
  obtain ⟨hset, htr, hsum⟩ : i.decoder.Settled ∧ i.trailer.seen = [] ∧ i.Summed := by
    have := hi.phase
    rwa [hm] at this
  have hv : i.view = .ofCursor (i.member = .gzip) i.decoder.cursor := by unfold view; rw [hm]
  rcases hdec : i.decoder.decode input room with ⟨d, out, v⟩
  obtain ⟨used, rest, hr⟩ := hset.decode_spec hdec
  have hused : d.totalIn - i.decoder.totalIn = used.length := by
    rw [hr.totalIn_eq]; omega
  have hlen : out.length ≤ room := by have := hr.room_eq; omega
  have hpay : (i.decoded d out).payload = i.payload ++ out := hr.history_eq
  have hsum' : (i.decoded d out).Summed := hsum.decoded hr.history_eq
  have hreach := hr.reaches
  cases v with
  | waiting =>
    obtain ⟨hset', htakes, hfull⟩ := hreach
    have hv' : (i.decoded d out).view = .ofCursor (i.member = .gzip) d.cursor := by
      simp only [view, decoded, hm]
    rw [bodyStep_waiting hdec, hused]
    refine ⟨used, rest, out, hr.input_eq, rfl, rfl, hlen, hpay, rfl, hi.running,
      .working _ _ ⟨hi.running, ?_⟩ ?_ ?_⟩
    · show PhaseSound _ i.phase
      rw [hm]
      exact ⟨hset', htr, hsum'⟩
    · rw [hv, hv']
      exact Member.takes_ofCursor _ htakes
    · obtain hz | ⟨hrest, ho⟩ := hfull
      · exact .inl (by omega)
      · have hc : d.cursor = d.position := hset'.cursor_eq (Deflate.Mode.not_emits_of_isOpen ho)
        rw [hc, Member.ofCursor_of_isOpen (show d.position.mode.isOpen = true from ho)] at hv'
        exact .inr ⟨hrest, by rw [hv']; rfl, by rw [hv']; rfl⟩
  | refused f =>
    rw [bodyStep_refused hdec, hused]
    refine ⟨used, rest, out, hr.input_eq, rfl, rfl, hlen, hpay, rfl, hi.running,
      .failed _ _ (.body f) [] List.nil_prefix ?_ nofun⟩
    rw [hv, List.append_nil]
    exact Member.takes_ofCursor _ hreach
  | ended =>
    have htakes : i.view.Takes used (if i.member = .gzip then .trailer d.history.toList []
        else .done d.history.toList) := by
      have h := Member.takes_ofCursor (i.member = .gzip) hreach.2
      simpa only [hv, Member.ofCursor, decide_eq_true_eq] using h
    rw [bodyStep_ended hdec, hused]
    have hdrop : input.drop used.length = rest := by
      rw [hr.input_eq, List.drop_left]
    split
    · next hg =>
      rw [if_pos hg] at htakes
      have he : ({ i.decoded d out with phase := .trailer } : Inflater).Sound :=
        ⟨hi.running, hg, show i.trailer.count < 8 by
          rw [← Trailer.Buffer.length_seen, htr]; decide, hsum'⟩
      have hve : ({ i.decoded d out with phase := .trailer } : Inflater).view =
          .trailer d.history.toList [] := congrArg (Member.trailer d.history.toList) htr
      obtain ⟨used', rest', ha⟩ := trailerStep_spec he rfl rest (room - out.length)
        (before + used.length) ([] ++ out)
      refine ⟨used ++ used', rest', out ++ [], ?_⟩
      rw [hdrop, hr.input_eq,
        show room = out.length + (room - out.length) by omega]
      exact ha.after (by rw [hve]; exact htakes) hpay rfl
    · next hg =>
      rw [if_neg hg] at htakes
      exact ⟨used, rest, out, hr.input_eq, rfl, rfl, hlen, hpay, rfl, hi.running,
        .ended _ _ rfl htakes⟩

/-- The engine behind a header. -/
def opened (i : Inflater) (p : HeaderParser) : Inflater :=
  { i with
    phase := .body
    decoder := .start false
    parser := p.takeHeader.2
    header := if i.capture then some p.header else i.header }

section
variable {i : Inflater} {input : Bytes} {p : HeaderParser}

theorem headerStep_refused {d : HeaderDefect} (h : i.parser.parse input = (p, .error d))
    (room : Nat) : i.headerStep input room =
      (.failed 0 [] .dataError d.toError.message, { i with parser := p }) := by
  unfold headerStep
  simp only [h]

theorem headerStep_more {n : Nat} (h : i.parser.parse input = (p, .ok n)) (hp : p.isDone = false)
    (room : Nat) : i.headerStep input room = (.worked n [], { i with parser := p }) := by
  unfold headerStep
  simp only [h, hp]
  rfl

theorem headerStep_done {n : Nat} (h : i.parser.parse input = (p, .ok n)) (hp : p.isDone = true)
    (room : Nat) : i.headerStep input room = (i.opened p).bodyStep (input.drop n) room n := by
  unfold headerStep
  simp only [h, hp]
  rfl

end

theorem sound_opened {i : Inflater} (hi : i.ended = false) (hb : i.Blank) (p : HeaderParser) :
    (i.opened p).Sound := by
  refine ⟨hi, Deflate.Decoder.settled_start false, hb.trailer_eq, fun _ => ⟨hb.crc_eq, ?_⟩⟩
  exact hb.size_eq

theorem view_opened {i : Inflater} (hg : i.member = .gzip) (p : HeaderParser) :
    (i.opened p).view = .body true (.start false) := by
  show Member.ofCursor (i.member = .gzip) (Deflate.Decoder.start false).cursor = _
  rw [Deflate.Decoder.cursor_start, Member.ofCursor_of_isOpen rfl, hg]
  rfl

theorem headerStep_spec {i : Inflater} (hi : i.Sound) (hm : i.phase = .header) (input : Bytes)
    (room : Nat) :
    ∃ used rest out, i.Advanced input room 0 [] (i.headerStep input room).1
      (i.headerStep input room).2 used rest out := by
  obtain ⟨hg, hp, hb⟩ : i.member = .gzip ∧ i.parser.Running ∧ i.Blank := by
    have := hi.phase
    rwa [hm] at this
  have hv : i.view = .header i.parser := by unfold view; rw [hm]
  have hreach := hp.parse_spec input
  rcases hparse : i.parser.parse input with ⟨p, answer⟩
  rw [hparse] at hreach
  cases answer with
  | error d =>
    obtain ⟨used, hu, ht⟩ := hreach
    rw [headerStep_refused hparse]
    refine ⟨[], input, [], rfl, rfl, rfl, Nat.zero_le _, (List.append_nil _).symm, rfl, hi.running,
      .failed _ _ (.header d) used hu ?_ nofun⟩
    rw [hv, show ({ i with parser := p } : Inflater).payload = [] from hb.payload_eq]
    exact ht
  | ok n =>
    obtain ⟨used, rest, hin, hn, hr⟩ := hreach
    rw [Nat.zero_add] at hn
    obtain ⟨hd, ht⟩ | ⟨hrest, hp', ht⟩ := hr
    · rw [headerStep_done hparse hd]
      obtain ⟨used', rest', out, ha⟩ := bodyStep_spec (sound_opened hi.running hb p) rfl rest room
        (0 + used.length)
      refine ⟨used ++ used', rest', [] ++ out, ?_⟩
      rw [hin, hn, List.drop_left]
      have ht' : i.view.Takes used (i.opened p).view := by rw [hv, view_opened hg]; exact ht
      have hpay : (i.opened p).payload = i.payload ++ [] := by rw [hb.payload_eq]; rfl
      rw [← List.nil_append []] at ha
      simpa using ha.after ht' hpay rfl
    · rw [headerStep_more hparse hp'.not_done]
      refine ⟨used, rest, [], hin, by rw [hn]; exact (Nat.zero_add _).symm, rfl, Nat.zero_le _,
        (List.append_nil _).symm, rfl, hi.running, .working _ _ ⟨hi.running, ?_⟩ ?_ (.inr ⟨hrest, ?_⟩)⟩
      · show PhaseSound _ i.phase
        rw [hm]
        exact ⟨hg, hp', hb.payload_eq, hb.crc_eq, hb.size_eq, hb.trailer_eq⟩
      · simp only [view, hm]
        exact ht
      · constructor
        · simp only [view, hm]
          rfl
        · simp only [view, hm]
          exact hb.payload_eq.symm

/-- What was given is a prefix of what was decoded. -/
theorem Sound.payload_prefix {i : Inflater} (hi : i.Sound) : i.payload <+: i.view.payload := by
  have hphase := hi.phase
  cases hm : i.phase with
  | detect =>
    rw [hm] at hphase
    rw [hphase.2.payload_eq]
    exact List.nil_prefix
  | header =>
    rw [hm] at hphase
    rw [hphase.2.2.payload_eq]
    exact List.nil_prefix
  | body =>
    simp only [view, hm, Member.payload_ofCursor]
    exact i.decoder.history_prefix
  | trailer => simp only [view, hm]; exact List.prefix_rfl
  | done => simp only [view, hm]; exact List.prefix_rfl

/-- Output lags behind by less than what a byte and a field can stand for. -/
theorem Sound.lag_le {i : Inflater} (hi : i.Sound) :
    i.view.payload.length ≤ i.payload.length + Deflate.Cursor.mostPerByte := by
  have hphase := hi.phase
  cases hm : i.phase with
  | body =>
    rw [hm] at hphase
    simp only [view, hm, Member.payload_ofCursor]
    exact hphase.1.lag_le
  | _ =>
    simp only [view, hm, Member.payload]
    first | exact Nat.zero_le _ | exact Nat.le_add_right _ _

/-- An engine that only told the framing of its member moves on like one that knew it. -/
theorem Advanced.detected {i e : Inflater} {b : UInt8} {input : Bytes} {room : Nat} {s : Step}
    {i' : Inflater} {used rest out : Bytes}
    (h : e.Advanced (b :: input) room 0 [] s i' used rest out) (hr : 0 < room)
    (he : e.view.isOpen = true) (hep : e.view.payload = []) (hi : i.view.isOpen = true)
    (hb : i.view.byte b = e.view.byte b) (hp : e.payload = i.payload) (hf : e.framing = i.framing) :
    i.Advanced (b :: input) room 0 [] s i' used rest out where
  input_eq := h.input_eq
  consumed_eq := h.consumed_eq
  output_eq := h.output_eq
  length_le := h.length_le
  payload_eq := by rw [h.payload_eq, hp]
  framing_eq := h.framing_eq.trans hf
  running := h.running
  outcome := by
    have hin := h.input_eq
    have hpay := h.payload_eq
    cases h.outcome with
    | working n o sound takes full =>
      refine .working n o sound (takes.of_move_eq hi hb ⟨rest, hin.symm⟩ ?_) full
      rintro rfl
      -- without a byte nothing can be decoded, so there would be neither output nor an end of input
      have hpre := sound.payload_prefix
      rw [← show e.view = i'.view from takes, hep, hpay, List.prefix_nil, List.append_eq_nil_iff] at hpre
      obtain hfull | ⟨hnil, -⟩ := full
      · rw [hpre.2] at hfull
        exact absurd hfull (Nat.ne_of_lt hr)
      · rw [hnil] at hin
        cases hin
    | ended n o phase takes =>
      refine .ended n o phase (takes.of_move_eq hi hb ⟨rest, hin.symm⟩ ?_)
      rintro rfl
      rw [show e.view = _ from takes] at he
      cases he
    | failed n o fault ahead isPrefix takes stuck =>
      have hpre : used ++ ahead <+: b :: input := by
        rw [hin]
        exact (List.prefix_append_right_inj used).mpr isPrefix
      refine .failed n o fault ahead isPrefix (takes.of_move_eq hi hb hpre ?_) stuck
      intro hnil
      rw [hnil] at takes
      rw [show e.view = _ from takes] at he
      cases he

/-- The engine with its member told to be gzip. -/
theorem sound_asGzip {i : Inflater} (hi : i.Sound) (hm : i.phase = .detect) :
    ({ i with member := .gzip, phase := .header } : Inflater).Sound := by
  obtain ⟨hp, hb⟩ : i.parser = {} ∧ i.Blank := by
    have := hi.phase
    rwa [hm] at this
  exact ⟨hi.running, rfl, by rw [hp]; exact HeaderParser.running_start, hb.payload_eq, hb.crc_eq,
    hb.size_eq, hb.trailer_eq⟩

/-- The engine with its member told to be a zlib stream. -/
theorem sound_asZlib {i : Inflater} (hi : i.Sound) (hm : i.phase = .detect) :
    ({ i with member := .zlib, phase := .body, decoder := .start true } : Inflater).Sound := by
  obtain ⟨-, hb⟩ : i.parser = {} ∧ i.Blank := by
    have := hi.phase
    rwa [hm] at this
  exact ⟨hi.running, Deflate.Decoder.settled_start true, hb.trailer_eq, nofun⟩

theorem detectStep_spec {i : Inflater} (hi : i.Sound) (hm : i.phase = .detect) (input : Bytes)
    {room : Nat} (hr : 0 < room) :
    ∃ used rest out, i.Advanced input room 0 [] (i.detectStep input room).1
      (i.detectStep input room).2 used rest out := by
  obtain ⟨hp, hb⟩ : i.parser = {} ∧ i.Blank := by
    have := hi.phase
    rwa [hm] at this
  have hv : i.view = .detect := by unfold view; rw [hm]
  cases input with
  | nil =>
    have hc : i.CaughtUp := ⟨by rw [hv]; rfl, by rw [hv, hb.payload_eq]; rfl⟩
    exact ⟨[], [], [], rfl, rfl, rfl, Nat.zero_le _, (List.append_nil _).symm, rfl, hi.running,
      .working _ _ hi rfl (.inr ⟨rfl, hc⟩)⟩
  | cons b input =>
    unfold detectStep
    simp only
    split
    · next hb1 =>
      have hve : ({ i with member := .gzip, phase := .header } : Inflater).view = .header {} :=
        congrArg Member.header hp
      obtain ⟨used, rest, out, ha⟩ := headerStep_spec (sound_asGzip hi hm) rfl (b :: input) room
      refine ⟨used, rest, out, ha.detected hr (by rw [hve]; rfl) (by rw [hve]; rfl)
        (by rw [hv]; rfl) ?_ rfl rfl⟩
      rw [hv, hve]
      exact if_pos hb1
    · next hb1 =>
      have hve : ({ i with member := .zlib, phase := .body, decoder := .start true } : Inflater).view =
          .body false (.start true) := rfl
      obtain ⟨used, rest, out, ha⟩ := bodyStep_spec (sound_asZlib hi hm) rfl (b :: input) room 0
      refine ⟨used, rest, out, ha.detected hr (by rw [hve]; rfl) (by rw [hve]; rfl)
        (by rw [hv]; rfl) ?_ hb.payload_eq.symm rfl⟩
      rw [hv, hve]
      exact if_neg hb1

/-- A step takes bytes that its member asks for and nothing else, moves the member by these, and
gives a prefix of what they decode to. It stops short of the end of its input only where the room
is used up or the member ended or failed. -/
theorem step_spec {i : Inflater} (hi : i.Sound) (input : Bytes) {room : Nat} (hr : 0 < room) :
    ∃ used rest out, i.Advanced input room 0 [] (i.step input room).1 (i.step input room).2
      used rest out := by
  unfold step
  rw [if_neg (by rw [hi.running]; exact Bool.false_ne_true)]
  split
  · next hm => exact detectStep_spec hi hm input hr
  · next hm => exact headerStep_spec hi hm input room
  · next hm => exact bodyStep_spec hi hm input room 0
  · next hm =>
    obtain ⟨used, rest, h⟩ := trailerStep_spec hi hm input room 0 []
    exact ⟨used, rest, [], h⟩
  · next hm =>
    have hv : i.view = .done i.payload := by unfold view; rw [hm]
    exact ⟨[], input, [], rfl, rfl, rfl, Nat.zero_le _, (List.append_nil _).symm, rfl, hi.running,
      .ended _ _ hm hv⟩

/-! ## Steps along a member -/

/-- The engine took `before`, moved its member by that and gave `output`. -/
structure Along (f : Framing) (i : Inflater) (before output : Bytes) : Prop where
  sound : i.Sound
  takes : (Member.start f).Takes before i.view
  payload_eq : i.payload = output
  framing_eq : i.framing = f

/-- The engine is at the end of its member. -/
structure Over (f : Framing) (i : Inflater) : Prop where
  running : i.ended = false
  phase : i.phase = .done
  framing_eq : i.framing = f

/-- How a step ends that was offered `input` behind `before`. It stalls only where it is offered
nothing. -/
inductive Next (f : Framing) (before output input : Bytes) (room : Nat) : Step → Inflater → Prop
  | working {i : Inflater} (used left out : Bytes) (input_eq : input = used ++ left)
      (length_le : out.length ≤ room) (moved : 0 < used.length + out.length)
      (along : i.Along f (before ++ used) (output ++ out))
      (full : out.length = room ∨ left = [] ∧ i.CaughtUp) :
      Next f before output input room ⟨used.length, out, .ok, none⟩ i
  | stalled {i : Inflater} (input_eq : input = []) (along : i.Along f before output)
      (caught : i.CaughtUp) : Next f before output input room ⟨0, [], .bufferError, none⟩ i
  | ended {i : Inflater} (used left out : Bytes) (input_eq : input = used ++ left)
      (length_le : out.length ≤ room) (isOver : i.Over f)
      (takes : (Member.start f).Takes (before ++ used) (.done (output ++ out))) :
      Next f before output input room (.ended used.length out) i
  | refused {i : Inflater} (used left out ahead : Bytes) (fault : Fault)
      (input_eq : input = used ++ left) (length_le : out.length ≤ room) (isPrefix : ahead <+: left)
      (takes : (Member.start f).Takes (before ++ used ++ ahead) (.failed (output ++ out) fault))
      (stuck : ∀ m, fault = .trailer m → ahead = [] ∧ i.Mismatched m) :
      Next f before output input room (.failed used.length out .dataError fault.message) i

theorem Along.step {f : Framing} {i i' : Inflater} {before output : Bytes} (h : i.Along f before output)
    {input : Bytes} {room : Nat} (hr : 0 < room) {s : Step} (hs : i.step input room = (s, i')) :
    Next f before output input room s i' := by
  obtain ⟨used, left, out, ha⟩ := step_spec h.sound input hr
  rw [hs] at ha
  have hconsumed : s.consumed = used.length := by rw [ha.consumed_eq, Nat.zero_add]
  have houtput : s.output = out := ha.output_eq
  have hpayload : i'.payload = output ++ out := by rw [ha.payload_eq, h.payload_eq]
  have hframing : i'.framing = f := ha.framing_eq.trans h.framing_eq
  cases ha.outcome with
  | working n o sound takes full =>
    obtain rfl : n = used.length := hconsumed
    obtain rfl : o = out := houtput
    have along : i'.Along f (before ++ used) (output ++ o) :=
      ⟨sound, h.takes.append takes, hpayload, hframing⟩
    by_cases hmoved : used.length = 0 ∧ o = []
    · obtain ⟨hused, rfl⟩ := hmoved
      obtain rfl : used = [] := List.length_eq_zero_iff.mp hused
      rw [List.append_nil, List.append_nil] at along
      obtain hroom | ⟨hleft, caught⟩ := full
      · exact absurd hroom (Nat.ne_of_lt hr)
      · exact .stalled (by rw [ha.input_eq, hleft]; rfl) along caught
    · have hpos : 0 < used.length + o.length := by
        rw [← List.length_eq_zero_iff] at hmoved
        omega
      rw [if_neg hmoved]
      exact .working used left o ha.input_eq ha.length_le hpos along full
  | ended n o phase takes =>
    obtain rfl : n = used.length := hconsumed
    obtain rfl : o = out := houtput
    rw [hpayload] at takes
    exact .ended used left o ha.input_eq ha.length_le ⟨ha.running, phase, hframing⟩
      (h.takes.append takes)
  | failed n o fault ahead isPrefix takes stuck =>
    obtain rfl : n = used.length := hconsumed
    obtain rfl : o = out := houtput
    rw [hpayload] at takes
    refine .refused used left o ahead fault ha.input_eq ha.length_le isPrefix ?_ stuck
    rw [List.append_assoc]
    exact h.takes.append takes

/-- A running engine at the start of a member; what it keeps of headers and of earlier trailers does
not matter. -/
theorem along_startMember {i : Inflater} (h : i.ended = false) :
    i.startMember.Along i.framing [] [] := by
  cases i with
  | mk f =>
    cases f with
    | auto => exact ⟨⟨h, rfl, rfl, rfl, rfl, rfl⟩, rfl, rfl, rfl⟩
    | gzip => exact ⟨⟨h, rfl, HeaderParser.running_start, rfl, rfl, rfl, rfl⟩, rfl, rfl, rfl⟩
    | zlib => exact ⟨⟨h, Deflate.Decoder.settled_start true, rfl, nofun⟩, rfl, rfl, rfl⟩
    | raw => exact ⟨⟨h, Deflate.Decoder.settled_start false, rfl, nofun⟩, rfl, rfl, rfl⟩

/-- A new engine is at the start of a member; what it keeps of headers does not matter. -/
theorem along_start (f : Framing) (capture : Bool) (header : Option Header) :
    ({ new f with capture := capture, header := header } : Inflater).Along f [] [] :=
  along_startMember (i := { new f with capture := capture, header := header }) rfl

theorem along_new (f : Framing) : (new f).Along f [] [] := along_start f false none

theorem Over.reset_eq {f : Framing} {i : Inflater} (h : i.Over f) : i.reset = (.ok, i.startMember) :=
  if_neg (by rw [h.running]; exact Bool.false_ne_true)

theorem Over.along_startMember {f : Framing} {i : Inflater} (h : i.Over f) :
    i.startMember.Along f [] [] := by
  have := Inflater.along_startMember h.running
  rwa [h.framing_eq] at this

theorem Along.caughtUp {f : Framing} {i : Inflater} (h : i.Along f [] []) : i.CaughtUp := by
  have hv : i.view = .start f := (show Member.start f = i.view from h.takes).symm
  constructor
  · rw [hv, Member.isOpen_start]
  · rw [hv, Member.payload_start, h.payload_eq]

theorem Along.output_le {f : Framing} {i : Inflater} {before output : Bytes}
    (h : i.Along f before output) : output.length ≤ before.length * Deflate.Cursor.mostPerByte := by
  have h1 := h.sound.payload_prefix.length_le
  have h2 := (h.takes.modest (Member.modest_start f)).2
  rw [Member.payload_start, List.length_nil] at h2
  rw [h.payload_eq] at h1
  omega

theorem Along.output_nil {f : Framing} {i : Inflater} {output : Bytes} (h : i.Along f [] output) :
    output = [] := by
  have := h.output_le
  rw [List.length_nil, Nat.zero_mul] at this
  exact List.length_eq_zero_iff.mp (Nat.le_zero.mp this)

/-- The same input decodes to the same, however much of it was given out. -/
theorem Along.output_prefix {f : Framing} {i i' : Inflater} {before output output' : Bytes}
    (h : i.Along f before output) (h' : i'.Along f before output') : output' <+: i.view.payload := by
  rw [← h'.payload_eq, h.takes.foldl_eq.symm.trans h'.takes.foldl_eq]
  exact h'.sound.payload_prefix

end Inflater

end GzipStream
