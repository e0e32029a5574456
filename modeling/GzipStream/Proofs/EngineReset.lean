import GzipStream.Proofs.MemberStep

/-!
# Resetting the decompression engine

A reset leaves three things of what was before: whether headers are kept, the header read last, and
the bytes of earlier trailers. `Inflater.bare` hides them. No step reads any of them, so every call
gives the same with them and without (`use_bare`), whatever the state; and a bare engine that was
just reset is a new one (`bare_startMember`).
-/

namespace GzipStream

namespace Trailer.Buffer

/-- The buffer without what is left over from earlier. -/
def fresh (b : Buffer) : Buffer where
  bytes := b.seen ++ .replicate (8 - b.count) 0
  count := b.count
  length_eq := by
    have hc := b.count_le
    rw [List.length_append, length_seen, List.length_replicate]
    omega
  count_le := b.count_le

theorem eq_of_bytes {b b' : Buffer} (hb : b.bytes = b'.bytes) (hc : b.count = b'.count) :
    b = b' := by
  cases b
  cases b'
  cases hb
  cases hc
  rfl

@[simp] theorem seen_fresh (b : Buffer) : b.fresh.seen = b.seen :=
  List.take_left' b.length_seen

theorem fresh_of_full {b : Buffer} (h : b.count = 8) : b.fresh = b := by
  refine eq_of_bytes ?_ rfl
  show b.seen ++ .replicate (8 - b.count) 0 = b.bytes
  rw [h, seen_of_full h]
  exact List.append_nil _

theorem fresh_fill (b : Buffer) (input : Bytes) : (b.fill input).fresh = b.fresh.fill input := by
  refine eq_of_bytes ?_ rfl
  have hdrop : b.fresh.bytes.drop (b.count + (b.wanted input).length) =
      .replicate (8 - (b.count + (b.wanted input).length)) 0 := by
    show (b.seen ++ .replicate (8 - b.count) 0).drop _ = _
    rw [List.drop_append, List.drop_eq_nil_of_le (by rw [length_seen]; exact Nat.le_add_right _ _),
      List.drop_replicate, length_seen, Nat.add_sub_cancel_left, Nat.sub_sub]
    rfl
  show (b.fill input).seen ++ _ = b.fresh.seen ++ b.wanted input ++ _
  rw [seen_fill, seen_fresh]
  exact congrArg _ hdrop.symm

end Trailer.Buffer

namespace Inflater

variable {i j : Inflater}

/-! ## Calls -/

/-- A call that does not release the engine. -/
inductive Use
  | step (input : Bytes) (room : Nat)
  | reset
  | captureHeader
  deriving DecidableEq, Repr

inductive Reply
  | stepped (s : Step)
  | status (s : Status)
  deriving DecidableEq, Repr

def use (i : Inflater) : Use → Reply × Inflater
  | .step input room => Prod.map .stepped id (i.step input room)
  | .reset => Prod.map .status id i.reset
  | .captureHeader => Prod.map .status id i.captureHeader

/-- Calls one behind the other: their replies, and where they lead. -/
def uses (i : Inflater) : List Use → List Reply × Inflater
  | [] => ([], i)
  | u :: us =>
    let (reply, i) := i.use u
    let (replies, i) := i.uses us
    (reply :: replies, i)

theorem uses_cons (i : Inflater) (u : Use) (us : List Use) : i.uses (u :: us) =
    ((i.use u).1 :: ((i.use u).2.uses us).1, ((i.use u).2.uses us).2) := rfl

/-! ## What calls leave as it is -/

/-- The settings that only a release changes. -/
structure Alike (i i' : Inflater) : Prop where
  framing_eq : i'.framing = i.framing
  ended_eq : i'.ended = i.ended

theorem Alike.behind {k : Inflater} (h : i.Alike k) (hframing : i.framing = j.framing)
    (hended : i.ended = j.ended) : j.Alike k :=
  ⟨h.framing_eq.trans hframing, h.ended_eq.trans hended⟩

theorem Alike.trans {k : Inflater} (h : i.Alike j) (h' : j.Alike k) : i.Alike k :=
  h'.behind h.framing_eq h.ended_eq

theorem alike_trailerStep (i : Inflater) (input : Bytes) (n : Nat) (output : Bytes) :
    i.Alike (i.trailerStep input n output).2 := by
  unfold trailerStep
  simp only
  split
  · exact ⟨rfl, rfl⟩
  · split
    · exact ⟨rfl, rfl⟩
    · exact ⟨rfl, rfl⟩

theorem alike_bodyStep (i : Inflater) (input : Bytes) (room n : Nat) :
    i.Alike (i.bodyStep input room n).2 := by
  rcases hdec : i.decoder.decode input room with ⟨d, out, v⟩
  cases v with
  | waiting =>
    rw [bodyStep_waiting hdec]
    exact ⟨rfl, rfl⟩
  | refused f =>
    rw [bodyStep_refused hdec]
    exact ⟨rfl, rfl⟩
  | ended =>
    rw [bodyStep_ended hdec]
    split
    · exact (alike_trailerStep _ _ _ _).behind rfl rfl
    · exact ⟨rfl, rfl⟩

theorem alike_headerStep (i : Inflater) (input : Bytes) (room : Nat) :
    i.Alike (i.headerStep input room).2 := by
  rcases hparse : i.parser.parse input with ⟨p, answer⟩
  cases answer with
  | error d =>
    rw [headerStep_refused hparse]
    exact ⟨rfl, rfl⟩
  | ok n =>
    cases hd : p.isDone with
    | false =>
      rw [headerStep_more hparse hd]
      exact ⟨rfl, rfl⟩
    | true =>
      rw [headerStep_done hparse hd]
      exact (alike_bodyStep _ _ _ _).behind rfl rfl

theorem alike_step (i : Inflater) (input : Bytes) (room : Nat) :
    i.Alike (i.step input room).2 := by
  unfold step
  split
  · exact ⟨rfl, rfl⟩
  · split
    · unfold detectStep
      split
      · exact ⟨rfl, rfl⟩
      · split
        · exact (alike_headerStep _ _ _).behind rfl rfl
        · exact (alike_bodyStep _ _ _ _).behind rfl rfl
    · exact alike_headerStep _ _ _
    · exact alike_bodyStep _ _ _ _
    · exact alike_trailerStep _ _ _ _
    · exact ⟨rfl, rfl⟩

theorem alike_use (i : Inflater) (u : Use) : i.Alike (i.use u).2 := by
  cases u with
  | step input room => exact alike_step i input room
  | reset =>
    simp only [use, reset]
    split
    · exact ⟨rfl, rfl⟩
    · exact ⟨rfl, rfl⟩
  | captureHeader =>
    simp only [use, captureHeader]
    split
    · exact ⟨rfl, rfl⟩
    · exact ⟨rfl, rfl⟩

theorem alike_uses (i : Inflater) (us : List Use) : i.Alike (i.uses us).2 := by
  induction us generalizing i with
  | nil => exact ⟨rfl, rfl⟩
  | cons u us ih => exact (alike_use i u).trans (ih _)

/-! ## What no call reads -/

/-- The engine without what it keeps of headers and of earlier trailers. -/
def bare (i : Inflater) : Inflater :=
  { i with trailer := i.trailer.fresh, capture := false, header := none }

@[simp] theorem framing_bare (i : Inflater) : i.bare.framing = i.framing := rfl

@[simp] theorem ended_bare (i : Inflater) : i.bare.ended = i.ended := rfl

theorem trailerStep_bare (i : Inflater) (input : Bytes) (n : Nat) (output : Bytes) :
    i.bare.trailerStep input n output = Prod.map id bare (i.trailerStep input n output) := by
  have hfill : i.bare.trailer.fill input = (i.trailer.fill input).fresh :=
    (i.trailer.fresh_fill input).symm
  unfold trailerStep
  simp only [hfill]
  by_cases hlt : (i.trailer.fill input).count < 8
  · rw [if_pos hlt, if_pos (show (i.trailer.fill input).fresh.count < 8 from hlt)]
    rfl
  · -- only a full buffer is compared, and there nothing is left of an earlier one
    have hfull : (i.trailer.fill input).fresh = i.trailer.fill input := by
      have := (i.trailer.fill input).count_le
      exact Trailer.Buffer.fresh_of_full (by omega)
    rw [if_neg hlt, if_neg (show ¬ (i.trailer.fill input).fresh.count < 8 from hlt), hfull]
    cases hv : Trailer.verify (i.trailer.fill input).bytes i.crc.value i.size with
    | error m =>
      rw [show Trailer.verify _ i.bare.crc.value i.bare.size = _ from hv]
      simp only [Prod.map, bare, hfull, id]
      rfl
    | ok u =>
      rw [show Trailer.verify _ i.bare.crc.value i.bare.size = _ from hv]
      simp only [Prod.map, bare, hfull, id]
      rfl

theorem bodyStep_bare (i : Inflater) (input : Bytes) (room n : Nat) :
    i.bare.bodyStep input room n = Prod.map id bare (i.bodyStep input room n) := by
  rcases hdec : i.decoder.decode input room with ⟨d, out, v⟩
  have hdec' : i.bare.decoder.decode input room = (d, out, v) := hdec
  cases v with
  | waiting =>
    rw [bodyStep_waiting hdec, bodyStep_waiting hdec']
    rfl
  | refused f =>
    rw [bodyStep_refused hdec, bodyStep_refused hdec']
    rfl
  | ended =>
    rw [bodyStep_ended hdec, bodyStep_ended hdec']
    by_cases hg : i.member = .gzip
    · rw [if_pos hg, if_pos (show i.bare.member = .gzip from hg)]
      exact trailerStep_bare { i.decoded d out with phase := .trailer } _ _ _
    · rw [if_neg hg, if_neg (show ¬ i.bare.member = .gzip from hg)]
      rfl

theorem headerStep_bare (i : Inflater) (input : Bytes) (room : Nat) :
    i.bare.headerStep input room = Prod.map id bare (i.headerStep input room) := by
  rcases hparse : i.parser.parse input with ⟨p, answer⟩
  have hparse' : i.bare.parser.parse input = (p, answer) := hparse
  cases answer with
  | error d =>
    rw [headerStep_refused hparse, headerStep_refused hparse']
    rfl
  | ok n =>
    cases hd : p.isDone with
    | false =>
      rw [headerStep_more hparse hd, headerStep_more hparse' hd]
      rfl
    | true =>
      rw [headerStep_done hparse hd, headerStep_done hparse' hd]
      exact bodyStep_bare (i.opened p) _ _ _

theorem step_bare (i : Inflater) (input : Bytes) (room : Nat) :
    i.bare.step input room = Prod.map id bare (i.step input room) := by
  unfold step
  by_cases he : i.ended = true
  · rw [if_pos he, if_pos (show i.bare.ended = true from he)]
    rfl
  · rw [if_neg he, if_neg (show ¬ i.bare.ended = true from he)]
    have hp : i.bare.phase = i.phase := rfl
    cases hphase : i.phase with
    | detect =>
      simp only [hp, hphase]
      cases input with
      | nil => rfl
      | cons b input =>
        simp only [detectStep]
        split
        · exact headerStep_bare { i with member := .gzip, phase := .header } _ _
        · exact bodyStep_bare { i with member := .zlib, phase := .body, decoder := .start true } _ _ _
    | header =>
      simp only [hp, hphase]
      exact headerStep_bare _ _ _
    | body =>
      simp only [hp, hphase]
      exact bodyStep_bare _ _ _ _
    | trailer =>
      simp only [hp, hphase]
      exact trailerStep_bare _ _ _ _
    | done =>
      simp only [hp, hphase]
      rfl

theorem bare_startMember (h : i.ended = false) : i.startMember.bare = new i.framing := by
  cases i
  cases h
  rfl

/-- Calls of engines that differ in nothing that a call reads. -/
theorem use_bare (h : i.bare = j.bare) (u : Use) :
    (i.use u).1 = (j.use u).1 ∧ (i.use u).2.bare = (j.use u).2.bare := by
  have hframing : i.framing = j.framing := by rw [← framing_bare, h, framing_bare]
  have hended : i.ended = j.ended := by rw [← ended_bare, h, ended_bare]
  cases u with
  | step input room =>
    have hs : Prod.map id bare (i.step input room) = Prod.map id bare (j.step input room) := by
      rw [← step_bare, ← step_bare, h]
    obtain ⟨hreply, hbare⟩ := Prod.mk.inj hs
    exact ⟨congrArg Reply.stepped hreply, hbare⟩
  | reset =>
    simp only [use, reset, hended]
    by_cases he : j.ended = true
    · rw [if_pos he, if_pos he]
      exact ⟨rfl, h⟩
    · rw [if_neg he, if_neg he]
      rw [Bool.not_eq_true] at he
      refine ⟨rfl, ?_⟩
      show i.startMember.bare = j.startMember.bare
      rw [bare_startMember (hended.trans he), bare_startMember he, hframing]
  | captureHeader =>
    unfold use captureHeader
    by_cases hc : j.framing.hasHeader = true
    · rw [if_pos hc, if_pos (show i.framing.hasHeader = true by rw [hframing]; exact hc)]
      exact ⟨rfl, h⟩
    · rw [if_neg hc, if_neg (show ¬ i.framing.hasHeader = true by rw [hframing]; exact hc)]
      exact ⟨rfl, h⟩

theorem uses_bare (h : i.bare = j.bare) (us : List Use) :
    (i.uses us).1 = (j.uses us).1 ∧ (i.uses us).2.bare = (j.uses us).2.bare := by
  induction us generalizing i j with
  | nil => exact ⟨rfl, h⟩
  | cons u us ih =>
    obtain ⟨hreply, hbare⟩ := use_bare h u
    obtain ⟨hreplies, hlast⟩ := ih hbare
    rw [uses_cons, uses_cons, hreply, hreplies]
    exact ⟨rfl, hlast⟩

/-- A reset succeeds after whatever was done with an engine short of releasing it, and from then on
it replies to every sequence of calls as a new one. What it keeps for itself is the wish for headers
and the header read last. -/
theorem reset_as_new (f : Framing) (history : List Use) :
    ∃ i, ((new f).uses history).2.reset = (.ok, i) ∧
      i.capture = ((new f).uses history).2.capture ∧
      i.header = ((new f).uses history).2.header ∧
      ∀ further, (i.uses further).1 = ((new f).uses further).1 ∧
        (i.uses further).2.bare = ((new f).uses further).2.bare := by
  have halike := alike_uses (new f) history
  have hrunning : ((new f).uses history).2.ended = false := halike.ended_eq
  have hframing : ((new f).uses history).2.framing = f := halike.framing_eq
  refine ⟨((new f).uses history).2.startMember, if_neg (by rw [hrunning]; exact Bool.false_ne_true),
    rfl, rfl, fun further => ?_⟩
  have hbare : ((new f).uses history).2.startMember.bare = (new f).bare := by
    rw [bare_startMember hrunning, hframing]
    rfl
  exact uses_bare hbare further

end Inflater

end GzipStream
