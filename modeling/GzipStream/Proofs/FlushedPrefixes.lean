import GzipStream.Proofs.MemberAcceptance
import GzipStream.Proofs.RoundTrip

/-!
# Reading what was flushed

`Inflater.feed` steps an engine over input that is dealt out in any way, and keeps every answer.
Steps over the beginning of a member take all of it, give all that it decodes to and then stall;
the engine can be fed on from there (`Along.feed_spec`). What a writer has in its sink behind a
flush is such a beginning, of all that was written (`flush_makes_readable`).
-/

namespace GzipStream

/-- The answer of a step that had nothing to do. -/
def Step.stalled : Step := ⟨0, [], .bufferError, none⟩

/-- Where a member is over, there is no way on. -/
theorem Member.Takes.eq_of_prefix {m m₁ m₂ : Member} {xs ys : Bytes} (h : m.Takes xs m₁)
    (h' : m.Takes ys m₂) (hp : ys <+: xs) (hover : m₂.isOpen = false) : xs = ys ∧ m₁ = m₂ := by
  cases hopen : m₁.isOpen with
  | true => exact absurd hp (Follows.not_prefix h h' hopen hover)
  | false => exact Follows.unique h h' List.prefix_rfl hp hopen hover

namespace Inflater

/-- What steps one after the other came to. -/
structure Run where
  answers : List Step
  /-- input that was not taken -/
  left : Bytes
  engine : Inflater

/-- Offers `rest` step by step. -/
def feed (i : Inflater) (rest : Bytes) : List Offer → Run
  | [] => ⟨[], rest, i⟩
  | offer :: offers =>
    let (s, i) := i.step (rest.take offer.piece) offer.room
    let run := feed i (rest.drop s.consumed) offers
    { run with answers := s :: run.answers }

namespace Run

/-- All input was taken and gave `payload`. Steps worked up to the last ones, which answered
`closing`. -/
structure Gives (r : Run) (payload : Bytes) (closing : List Step) : Prop where
  left_eq : r.left = []
  output_eq : r.answers.flatMap Step.output = payload
  answers_eq : ∃ worked, r.answers = worked ++ closing ∧ ∀ s ∈ worked, s.status = .ok

/-- When there was nothing left to take or to give, steps stalled. -/
def Exhausts (r : Run) (payload : Bytes) : Prop :=
  ∃ idle, r.Gives payload (List.replicate idle .stalled)

/-- With the last byte the member ended. -/
def Ends (r : Run) (payload : Bytes) : Prop :=
  ∃ last idle, r.Gives payload (last :: List.replicate idle (.ended 0 [])) ∧ last.status = .streamEnd

/-- A step in front of others. -/
theorem Gives.cons {r : Run} {payload : Bytes} {closing : List Step} (h : r.Gives payload closing)
    {s : Step} (hs : s.status = .ok) :
    Gives { r with answers := s :: r.answers } (s.output ++ payload) closing := by
  obtain ⟨worked, hworked, hok⟩ := h.answers_eq
  refine ⟨h.left_eq, ?_, s :: worked, ?_, ?_⟩
  · rw [List.flatMap_cons, h.output_eq]
  · rw [hworked, List.cons_append]
  · intro s' hs'
    rcases List.mem_cons.mp hs' with rfl | hs'
    · exact hs
    · exact hok s' hs'

end Run

/-- How steps end that took all of `data`: where the member stands open they stall and can go on,
behind its end they say so. -/
inductive Closes (f : Framing) (data : Bytes) : Member → List Step → Inflater → Prop
  | starved {m : Member} {i : Inflater} (idle : Nat) (isOpen : m.isOpen = true)
      (along : i.Along f data m.payload) : Closes f data m (List.replicate idle .stalled) i
  | ended {p : Bytes} {i : Inflater} (last : Step) (idle : Nat) (status : last.status = .streamEnd) :
      Closes f data (.done p) (last :: List.replicate idle (.ended 0 [])) i

section
variable {f : Framing} {i : Inflater} {before given rest : Bytes} {m : Member}

/-- Without input, an engine that has caught up stalls. -/
theorem Along.feed_nil (h : i.Along f before given) (hc : i.CaughtUp) (offers : List Offer) :
    (i.feed [] offers).answers = List.replicate offers.length .stalled ∧
      (i.feed [] offers).left = [] ∧ (i.feed [] offers).engine.Along f before given := by
  induction offers generalizing i with
  | nil => exact ⟨rfl, rfl, h⟩
  | cons offer offers ih =>
    rcases hstep : i.step (([] : Bytes).take offer.piece) offer.room with ⟨s, i'⟩
    have hnext := h.step offer.room_pos hstep
    rw [List.take_nil] at hnext
    simp only [feed, hstep, List.drop_nil]
    cases hnext with
    | stalled input_eq along caught =>
      obtain ⟨hanswers, hleft, halong⟩ := ih along caught
      refine ⟨?_, hleft, halong⟩
      rw [hanswers, List.length_cons, List.replicate_succ]
      rfl
    | working used left out input_eq length_le moved along full =>
      obtain ⟨rfl, rfl⟩ := List.append_eq_nil_iff.mp input_eq.symm
      rw [List.append_nil] at along
      rw [hc.output_eq_nil h along] at moved
      exact absurd moved (Nat.lt_irrefl 0)
    | ended used left out input_eq length_le isOver takes =>
      obtain ⟨rfl, rfl⟩ := List.append_eq_nil_iff.mp input_eq.symm
      exact absurd rfl (hc.used_ne_nil h takes)
    | refused used left out ahead fault input_eq length_le isPrefix takes stuck =>
      obtain ⟨rfl, rfl⟩ := List.append_eq_nil_iff.mp input_eq.symm
      obtain rfl := List.prefix_nil.mp isPrefix
      rw [List.append_nil, List.append_nil] at takes
      have hopen := hc.isOpen
      rw [h.takes.foldl_eq.symm.trans takes.foldl_eq] at hopen
      cases hopen

/-- Engines that gave the same out of the same input have both caught up with it, or none has. -/
theorem CaughtUp.of_along {i' : Inflater} (hc : i'.CaughtUp) (h' : i'.Along f before given)
    (h : i.Along f before given) : i.CaughtUp := by
  have hview : i.view = i'.view := h.takes.foldl_eq.symm.trans h'.takes.foldl_eq
  exact ⟨by rw [hview]; exact hc.isOpen, by rw [hview, hc.payload_eq, h'.payload_eq, h.payload_eq]⟩

theorem CaughtUp.feed_spec (hc : i.CaughtUp) (h : i.Along f before given)
    (ht : (Member.start f).Takes before m) (offers : List Offer) :
    ∃ payload closing, given ++ payload = m.payload ∧ (i.feed [] offers).Gives payload closing ∧
      Closes f before m closing (i.feed [] offers).engine := by
  obtain ⟨hanswers, hleft, halong⟩ := h.feed_nil hc offers
  have hview : i.view = m := h.takes.foldl_eq.symm.trans ht.foldl_eq
  have hpayload : m.payload = given := by rw [← hview, hc.payload_eq, h.payload_eq]
  refine ⟨[], List.replicate offers.length .stalled, ?_, ⟨hleft, ?_, [], hanswers, nofun⟩, ?_⟩
  · rw [hpayload, List.append_nil]
  · rw [hanswers]
    simp [Step.stalled]
  · refine .starved _ (by rw [← hview]; exact hc.isOpen) ?_
    rw [hpayload]
    exact halong

theorem Over.feed_nil (h : i.Over f) (offers : List Offer) :
    i.feed [] offers = ⟨List.replicate offers.length (.ended 0 []), [], i⟩ := by
  induction offers with
  | nil => rfl
  | cons offer offers ih =>
    simp only [feed, h.step_eq, List.drop_nil, ih]
    rw [List.length_cons, List.replicate_succ]

/-- Steps over input of this length come to rest. -/
theorem owed_lt {offers : List Offer} (hlen : haltTurns (before ++ rest).length ≤ offers.length) :
    rest.length + ((before ++ rest).length * Deflate.Cursor.mostPerByte - given.length) <
      offers.length := by
  have hrest : rest.length ≤ (before ++ rest).length := by
    rw [List.length_append]
    omega
  unfold haltTurns at hlen
  omega

/-- A step that moves the member leaves less to take and to give. -/
theorem Along.owed_less {used left out : Bytes} {n : Nat}
    (h : i.Along f (before ++ used) (given ++ out)) (moved : 0 < used.length + out.length)
    (hlen : (used ++ left).length + ((before ++ used ++ left).length * Deflate.Cursor.mostPerByte
      - given.length) < n + 1) :
    left.length + ((before ++ used ++ left).length * Deflate.Cursor.mostPerByte
      - (given ++ out).length) < n := by
  have hout := h.output_le
  have hmore := Nat.mul_le_mul_right Deflate.Cursor.mostPerByte
    (List.prefix_append (before ++ used) left).length_le
  have hgiven : (given ++ out).length = given.length + out.length := List.length_append
  have hused : (used ++ left).length = used.length + left.length := List.length_append
  omega

/-- Steps over input that a member takes without failing. -/
theorem Along.feed_spec (h : i.Along f before given)
    (ht : (Member.start f).Takes (before ++ rest) m) (hm : ∀ p fault, m ≠ .failed p fault)
    {offers : List Offer} (hlen : rest.length +
      ((before ++ rest).length * Deflate.Cursor.mostPerByte - given.length) < offers.length) :
    ∃ payload closing, given ++ payload = m.payload ∧ (i.feed rest offers).Gives payload closing ∧
      Closes f (before ++ rest) m closing (i.feed rest offers).engine := by
  induction offers generalizing i before given rest with
  | nil => exact absurd hlen (Nat.not_lt_zero _)
  | cons offer offers ih =>
    rcases hstep : i.step (rest.take offer.piece) offer.room with ⟨s, i'⟩
    have hnext := h.step offer.room_pos hstep
    -- what a step left of its piece stands in front of what it was not offered
    have hcut {used left : Bytes} (hin : rest.take offer.piece = used ++ left) :
        rest = used ++ (left ++ rest.drop offer.piece) := by
      rw [← List.append_assoc, ← hin, List.take_append_drop]
    cases hnext with
    | working used left out hin hle moved along full =>
      have hrest := hcut hin
      have hdrop : rest.drop used.length = left ++ rest.drop offer.piece :=
        (congrArg (List.drop used.length) hrest).trans List.drop_left
      have hwhole : before ++ rest = before ++ used ++ (left ++ rest.drop offer.piece) := by
        rw [List.append_assoc, ← hrest]
      rw [hwhole] at ht hlen ⊢
      rw [congrArg List.length hrest] at hlen
      simp only [feed, hstep, hdrop]
      obtain ⟨payload, closing, hpayload, hgives, hcloses⟩ := ih along ht (along.owed_less moved hlen)
      refine ⟨out ++ payload, closing, ?_, hgives.cons rfl, hcloses⟩
      rw [← List.append_assoc, hpayload]
    | stalled hin along caught =>
      have hnil : rest = [] := by
        rcases List.take_eq_nil_iff.mp hin with hzero | hnil
        · exact absurd hzero (Nat.ne_of_gt offer.piece_pos)
        · exact hnil
      subst hnil
      rw [List.append_nil] at ht ⊢
      exact (caught.of_along along h).feed_spec h ht (offer :: offers)
    | ended used left out hin hle isOver takes =>
      have hprefix : before ++ used <+: before ++ rest := by
        rw [hcut hin, ← List.append_assoc]
        exact List.prefix_append _ _
      obtain ⟨hall, rfl⟩ := ht.eq_of_prefix takes hprefix rfl
      obtain rfl : rest = used := List.append_cancel_left hall
      have hdrop : rest.drop (Step.ended rest.length out).consumed = [] := List.drop_length
      simp only [feed, hstep, hdrop, isOver.feed_nil]
      refine ⟨out, _, rfl, ⟨rfl, ?_, [], rfl, nofun⟩, .ended _ _ rfl⟩
      simp [Step.ended]
    | refused used left out ahead fault hin hle isPrefix takes stuck =>
      have hprefix : before ++ used ++ ahead <+: before ++ rest := by
        rw [hcut hin, ← List.append_assoc]
        exact (List.prefix_append_right_inj _).mpr (isPrefix.trans (List.prefix_append _ _))
      obtain ⟨-, rfl⟩ := ht.eq_of_prefix takes hprefix rfl
      exact absurd rfl (hm _ _)

/-- Over the beginning of a member, behind what was given of it before. -/
theorem Along.feed_open (h : i.Along f before given) {payload : Bytes}
    (ht : (Member.start f).Takes (before ++ rest) m) (ho : m.isOpen = true)
    (hp : m.payload = given ++ payload) {offers : List Offer}
    (hlen : haltTurns (before ++ rest).length ≤ offers.length) :
    (i.feed rest offers).Exhausts payload ∧
      (i.feed rest offers).engine.Along f (before ++ rest) (given ++ payload) := by
  have hm (p : Bytes) (fault : Fault) : m ≠ .failed p fault := by
    rintro rfl
    cases ho
  obtain ⟨out, closing, hout, hgives, hcloses⟩ := h.feed_spec ht hm (owed_lt hlen)
  obtain rfl : out = payload := List.append_cancel_left (hout.trans hp)
  cases hcloses with
  | starved idle isOpen along => exact ⟨⟨idle, hgives⟩, by rwa [hp] at along⟩
  | ended last idle status => cases ho

/-- Over the rest of a member. -/
theorem Along.feed_done (h : i.Along f before given) {payload : Bytes}
    (ht : (Member.start f).Takes (before ++ rest) (.done (given ++ payload))) {offers : List Offer}
    (hlen : haltTurns (before ++ rest).length ≤ offers.length) :
    (i.feed rest offers).Ends payload := by
  obtain ⟨out, closing, hout, hgives, hcloses⟩ := h.feed_spec ht nofun (owed_lt hlen)
  obtain rfl : out = payload := List.append_cancel_left hout
  cases hcloses with
  | starved idle isOpen along => cases isOpen
  | ended last idle status => exact ⟨last, idle, hgives, status⟩

end

end Inflater

/-- A flush that follows any writes and flushes succeeds, and makes all of them readable: a new
engine takes the bytes in the sink, gives exactly what was written and waits for more. What is
written later comes behind these bytes and goes on with the same stream: the engine that read the
first part reads the next, behind another flush or, when the writer is finished, to the end of the
member. -/
theorem flush_makes_readable {κ : Type} [Compressor κ] [Compressor.Lawful κ] (o : Options)
    (engine : Deflater κ) (hengine : Deflater.new o = .ok engine) (sink : Sink)
    (hsink : sink.Willing) (hempty : sink.data = #[]) (calls : List Writer.Call)
    (hcalls : ∀ c ∈ calls, c = .flush ∨ ∃ bs, c = .write bs) (f : Framing)
    (hf : f = engine.framing ∨ f = engine.framing.readAs) :
    ∃ w : Writer (Deflater κ), Writer.withOptions sink o = .ok w ∧ ∃ enough w₁ w₂,
      (∀ turns, enough ≤ turns →
        w.calls turns calls = some (calls.map fun c => .ok c.bytes.length, w₁) ∧
        w₁.flush turns = some (.ok (), w₂)) ∧
      ∀ offers : List Inflater.Offer, Inflater.haltTurns w₂.sink.data.size ≤ offers.length →
        ((Inflater.new f).feed w₂.sink.data.toList offers).Exhausts (calls.flatMap Writer.Call.bytes) ∧
        ∀ later : List Writer.Call, (∀ c ∈ later, c = .flush ∨ ∃ bs, c = .write bs) →
          ∃ enough w₃ w₄ w₅ added remaining,
            (∀ turns, enough ≤ turns →
              w₂.calls turns later = some (later.map fun c => .ok c.bytes.length, w₃) ∧
              w₃.flush turns = some (.ok (), w₄) ∧ w₃.finish turns = some (.ok w₅.sink, w₅)) ∧
            w₄.sink.data.toList = w₂.sink.data.toList ++ added ∧
            w₅.sink.data.toList = w₂.sink.data.toList ++ remaining ∧
            (∀ offers', Inflater.haltTurns w₄.sink.data.size ≤ offers'.length →
              (((Inflater.new f).feed w₂.sink.data.toList offers).engine.feed added offers').Exhausts
                (later.flatMap Writer.Call.bytes)) ∧
            ∀ offers', Inflater.haltTurns w₅.sink.data.size ≤ offers'.length →
              (((Inflater.new f).feed w₂.sink.data.toList offers).engine.feed remaining offers').Ends
                (later.flatMap Writer.Call.bytes) := by
  have hnew := Deflater.unstarted_of_new hengine
  have hlaw := Deflater.lawful_of_new (fun _ => True) hengine
  refine ⟨_, Writer.withOptions_eq hengine sink, ?_⟩
  have hstart := Writer.intact_new (fun _ => True) engine o hsink hempty
  obtain ⟨n, w₁, hw₁, -, hwrites⟩ := hstart.calls hlaw trivial trivial hcalls
  obtain ⟨k, w₂, hw₂, -, hopens₂, hflush⟩ := hw₁.flush hlaw trivial
  rw [List.nil_append] at hw₂ hopens₂
  refine ⟨max n k, w₁, w₂, fun turns hturns => ?_, fun offers hoffers => ?_⟩
  · exact ⟨hwrites turns (by omega), hflush turns (by omega)⟩
  obtain ⟨m₂, ht₂, ho₂, hp₂⟩ := hopens₂.takes hnew.framing_ne hf
  obtain ⟨hfirst, halong⟩ := (Inflater.along_new f).feed_open ht₂ ho₂ hp₂ hoffers
  refine ⟨hfirst, fun later hlater => ?_⟩
  -- the writer goes on behind the bytes that were read
  obtain ⟨n', w₃, hw₃, hgrown₃, hwrites'⟩ := hw₂.calls hlaw trivial trivial hlater
  obtain ⟨k', w₄, -, hgrown₄, hopens₄, hflush'⟩ := hw₃.flush hlaw trivial
  obtain ⟨l, w₅, hwhole, hgrown₅, -, hfinish⟩ := hw₃.finish hlaw trivial
  obtain ⟨added, hadded⟩ := hgrown₃.trans hgrown₄
  obtain ⟨remaining, hremaining⟩ := hgrown₃.trans hgrown₅
  obtain ⟨m₄, ht₄, ho₄, hp₄⟩ := hopens₄.takes hnew.framing_ne hf
  have ht₅ := (hwhole.isMember hnew.usable hnew.framing_ne).takes_done hf
  refine ⟨max n' (max k' l), w₃, w₄, w₅, added, remaining, fun turns hturns => ?_, hadded.symm,
    hremaining.symm, fun offers' hoffers' => ?_, fun offers' hoffers' => ?_⟩
  · exact ⟨hwrites' turns (by omega), hflush' turns (by omega), hfinish turns (by omega)⟩
  · rw [← hadded] at ht₄
    rw [← Array.length_toList, ← hadded] at hoffers'
    exact (halong.feed_open ht₄ ho₄ hp₄ hoffers').1
  · rw [← hremaining] at ht₅
    rw [← Array.length_toList, ← hremaining] at hoffers'
    exact halong.feed_done ht₅ hoffers'

/-- An offer of one byte and of room for one. -/
def Inflater.oneByOne : Inflater.Offer := ⟨1, 1, Nat.one_pos, Nat.one_pos⟩

/-- A greeting that is flushed through a buffer of one byte, and a mark behind it, both read byte by
byte. -/
theorem flush_makes_readable_byte_by_byte :
    ∃ w : Writer (Deflater Deflate.Encoder),
      Writer.withOptions fitfulSink { bufferSize := 1 } = .ok w ∧ ∃ turns w₁ w₂ offers,
      w.calls turns [.write [104, 105]] = some ([.ok 2], w₁) ∧ w₁.flush turns = some (.ok (), w₂) ∧
      ((Inflater.new .gzip).feed w₂.sink.data.toList offers).Exhausts [104, 105] ∧
      ∃ turns w₃ w₄ added offers', w₂.calls turns [.flush, .write [33]] = some ([.ok 0, .ok 1], w₃) ∧
        w₃.flush turns = some (.ok (), w₄) ∧
        w₄.sink.data.toList = w₂.sink.data.toList ++ added ∧
        (((Inflater.new .gzip).feed w₂.sink.data.toList offers).engine.feed added offers').Exhausts
          [33] := by
  obtain ⟨w, hw, enough, w₁, w₂, hwriting, hreading⟩ := flush_makes_readable { bufferSize := 1 }
    (_ : Deflater Deflate.Encoder) rfl fitfulSink willing_fitfulSink rfl [.write [104, 105]]
    (by
      intro c hc
      rcases List.mem_singleton.mp hc with rfl
      exact .inr ⟨_, rfl⟩) .gzip (.inl rfl)
  obtain ⟨hcalls, hflush⟩ := hwriting enough (Nat.le_refl _)
  obtain ⟨hfirst, hlater⟩ := hreading
    (List.replicate (Inflater.haltTurns w₂.sink.data.size) Inflater.oneByOne)
    (Nat.le_of_eq List.length_replicate.symm)
  obtain ⟨enough', w₃, w₄, w₅, added, remaining, hwriting', hadded, -, hnext, -⟩ :=
    hlater [.flush, .write [33]] (by
      intro c hc
      rcases List.mem_cons.mp hc with rfl | hc
      · exact .inl rfl
      · rcases List.mem_singleton.mp hc with rfl
        exact .inr ⟨_, rfl⟩)
  obtain ⟨hcalls', hflush', -⟩ := hwriting' enough' (Nat.le_refl _)
  exact ⟨w, hw, enough, w₁, w₂, _, hcalls, hflush, hfirst, enough', w₃, w₄, added,
    List.replicate (Inflater.haltTurns w₄.sink.data.size) Inflater.oneByOne, hcalls', hflush', hadded,
    hnext _ (Nat.le_of_eq List.length_replicate.symm)⟩

end GzipStream
