import GzipStream.Proofs.Deflate.BlockSize
import GzipStream.Proofs.Deflate.Encoding

/-!
# Steps of an encoder

A step keeps what was sent true to the input (`Sent.step`), takes all input or none, and comes
nearer to its end: what is still to be begun (`rank`) gets less, or the queue does by what is
given. Only the mark of a flush is added time and again, and it is short.
-/

namespace GzipStream.Deflate.Encoder

variable {e : Encoder} {sent : Bytes}

/-- What is still to be begun: the stream, a block of what is held, the last block, the trailer. -/
def rank (e : Encoder) : Nat :=
  (!e.opened).toNat + (e.held != 0).toNat + (!e.closed).toNat + (!e.trailed).toNat

namespace Delivery

variable {d d' d'' : Delivery} {n k : Nat}

/-- Output moves on from `d` to `d'` without new input; at most `n` bytes are added to it where
nothing is begun. -/
structure Onward (n : Nat) (d d' : Delivery) : Prop where
  zlib_eq : d'.encoder.zlib = d.encoder.zlib
  data_eq : d'.encoder.data = d.encoder.data
  grows : d.output.length ≤ d'.output.length
  room_eq : d'.output.length + d'.room = d.output.length + d.room
  cost : d'.encoder.rank < d.encoder.rank ∨ d'.encoder.rank = d.encoder.rank ∧
    d'.encoder.queue.length + d'.output.length ≤ d.encoder.queue.length + d.output.length + n

theorem Onward.refl (d : Delivery) : d.Onward 0 d :=
  ⟨rfl, rfl, Nat.le_refl _, rfl, .inr ⟨rfl, Nat.le_refl _⟩⟩

theorem Onward.trans (h : d.Onward n d') (h' : d'.Onward k d'') : d.Onward (n + k) d'' where
  zlib_eq := h'.zlib_eq.trans h.zlib_eq
  data_eq := h'.data_eq.trans h.data_eq
  grows := Nat.le_trans h.grows h'.grows
  room_eq := h'.room_eq.trans h.room_eq
  cost := by
    obtain h1 := h.cost
    obtain h2 := h'.cost
    omega

/-- Beginning something takes any output. -/
theorem Onward.of_rank (e' : Encoder) (hz : e'.zlib = d.encoder.zlib) (hd : e'.data = d.encoder.data)
    (hr : e'.rank < d.encoder.rank) : d.Onward 0 { d with encoder := e' } :=
  ⟨hz, hd, Nat.le_refl _, rfl, .inl hr⟩

theorem length_deliver (d : Delivery) :
    d.deliver.output.length = d.output.length + min d.room d.encoder.queue.length := by
  simp only [deliver, List.length_append, List.length_take]

theorem queue_deliver (d : Delivery) :
    d.deliver.encoder.queue.length = d.encoder.queue.length - d.room := by
  simp only [deliver, List.length_drop]

theorem room_deliver (d : Delivery) :
    d.deliver.room = d.room - min d.room d.encoder.queue.length := by
  simp only [deliver, List.length_take]

theorem onward_deliver (d : Delivery) : d.Onward 0 d.deliver := by
  have h1 := d.length_deliver
  have h2 := d.queue_deliver
  have h3 := d.room_deliver
  refine ⟨rfl, rfl, by omega, by omega, .inr ⟨rfl, by omega⟩⟩

/-- Room that is left was not needed. -/
theorem queue_deliver_of_room (h : d.deliver.room ≠ 0) : d.deliver.encoder.queue = [] := by
  have h2 := d.queue_deliver
  have h3 := d.room_deliver
  exact List.length_eq_zero_iff.mp (by omega)

/-- With room and something to give, something is given. -/
theorem output_deliver (hq : d.encoder.queue ≠ []) (hr : d.room ≠ 0) :
    d.output.length < d.deliver.output.length := by
  have h1 := d.length_deliver
  have hpos := List.length_pos_iff.mpr hq
  omega

theorem sent_deliver (h : d.encoder.Sent (sent ++ d.output)) :
    d.deliver.encoder.Sent (sent ++ d.deliver.output) := by
  have hmoved : sent ++ d.deliver.output ++ d.deliver.encoder.queue =
      sent ++ d.output ++ d.encoder.queue := by
    simp only [deliver, List.append_assoc, List.take_append_drop]
  refine ⟨?_, h.usable, h.blocked_le, h.held_lt, h.unopened, h.aligned, h.trailed⟩
  unfold Leads
  rw [hmoved]
  exact h.leads

theorem sent_previous (h : e.Sent sent) (p : Option Flush) :
    Encoder.Sent { e with previous := p } sent :=
  ⟨h.leads, h.usable, h.blocked_le, h.held_lt, h.unopened, h.aligned, h.trailed⟩

/-- What comes of going on from `d`. -/
structure Went (n : Nat) (sent : Bytes) (flush : Flush) (d : Delivery)
    (r : Delivery × EncodeVerdict) : Prop where
  onward : d.Onward n r.1
  sent : r.1.encoder.Sent (sent ++ r.1.output)
  ended : r.2 = .ended → r.1.encoder.Finished
  not_misused : r.2 ≠ .misused
  closed : flush ≠ .finish → r.1.encoder.closed = false

/-- It ended or gave something. -/
def Showed (d : Delivery) (r : Delivery × EncodeVerdict) : Prop :=
  r.2 = .ended ∨ d.output.length < r.1.output.length

/-- Behind something that added nothing. -/
theorem Went.after {r : Delivery × EncodeVerdict} {flush : Flush} (h : d.Onward 0 d')
    (hw : d'.Went n sent flush r) : d.Went n sent flush r where
  onward := by
    have := h.trans hw.onward
    rwa [Nat.zero_add] at this
  sent := hw.sent
  ended := hw.ended
  not_misused := hw.not_misused
  closed := hw.closed

/-- Behind the last thing that added something. -/
theorem Went.behind {r : Delivery × EncodeVerdict} {flush : Flush} (h : d.Onward n d')
    (hw : d'.Went 0 sent flush r) : d.Went n sent flush r :=
  ⟨h.trans hw.onward, hw.sent, hw.ended, hw.not_misused, hw.closed⟩

theorem went_pause (flush : Flush) (h : d.encoder.Sent (sent ++ d.output))
    (hc : flush ≠ .finish → d.encoder.closed = false) : d.Went 0 sent flush d.pause :=
  ⟨⟨rfl, rfl, Nat.le_refl _, rfl, .inr ⟨rfl, Nat.le_refl _⟩⟩, sent_previous h none, nofun, nofun, hc⟩

theorem went_working (flush : Flush) (h : d.encoder.Sent (sent ++ d.output))
    (hc : flush ≠ .finish → d.encoder.closed = false) : d.Went 0 sent flush (d, .working) :=
  ⟨.refl d, h, nofun, nofun, hc⟩

theorem Onward.mono (h : d.Onward n d') (hn : n ≤ k) : d.Onward k d' := by
  have hc := h.cost
  exact ⟨h.zlib_eq, h.data_eq, h.grows, h.room_eq, by omega⟩

theorem Went.mono {r : Delivery × EncodeVerdict} {flush : Flush} (h : d.Went n sent flush r)
    (hn : n ≤ k) : d.Went k sent flush r :=
  ⟨h.onward.mono hn, h.sent, h.ended, h.not_misused, h.closed⟩

/-! ## Marks -/

theorem onward_mark (h : d.encoder.rest.length < 8) :
    d.Onward (Flush.sync.allowance) { d with encoder := d.encoder.mark } := by
  have hcount := count_storedBlock false [] ⟨#[], d.encoder.rest⟩
  have hsize : d.encoder.mark.queue.length = d.encoder.queue.length +
      (storedBlock false [] ⟨#[], d.encoder.rest⟩).bytes.size := by
    simp [mark, emit]
  simp only [BitWriter.count, List.length_nil, List.size_toArray] at hcount
  refine ⟨rfl, rfl, Nat.le_refl _, rfl, .inr ⟨rfl, ?_⟩⟩
  show d.encoder.mark.queue.length + d.output.length ≤ d.encoder.queue.length + d.output.length + 6
  omega

/-- Giving output and going on or pausing. -/
theorem went_deliver {flush : Flush} (h : d.encoder.Sent (sent ++ d.output))
    (hc : flush ≠ .finish → d.encoder.closed = false) : d.Went 0 sent flush
      (if d.deliver.room = 0 then d.deliver.pause else (d.deliver, .working)) := by
  refine Went.after d.onward_deliver ?_
  split
  · exact went_pause flush (sent_deliver h) hc
  · exact went_working flush (sent_deliver h) hc

theorem went_writeMark (h : d.encoder.Sent (sent ++ d.output)) (ho : d.encoder.opened = true)
    (hc : d.encoder.closed = false) : d.Went (Flush.sync.allowance) sent .sync d.writeMark := by
  obtain ⟨-, -, -, hrest⟩ := h.leads
  have hmark := h.mark ho hc
  exact Went.behind (onward_mark hrest) (went_deliver hmark fun _ => hc)

/-! ## The end of the stream -/

theorem went_conclude (h : d.encoder.Sent (sent ++ d.output)) (hc : d.encoder.closed = true)
    (hq : d.encoder.queue = []) : d.Went 0 sent .finish d.conclude ∧
      (d.room ≠ 0 → d.Showed d.conclude) := by
  unfold conclude
  split
  · next ht =>
    simp only [Bool.and_eq_true, Bool.not_eq_true'] at ht
    obtain ⟨hz, ht⟩ := ht
    have htrailer := h.addTrailer hz hc ht
    have hrank : d.encoder.addTrailer.rank < d.encoder.rank := by
      simp [rank, Encoder.addTrailer, held, ht]
    have honward := Onward.of_rank (d := d) d.encoder.addTrailer rfl rfl hrank
    simp only
    refine ⟨⟨honward.trans (onward_deliver _), sent_deliver htrailer, ?_, ?_, ?_⟩, ?_⟩
    · intro hended
      refine ⟨hc, ?_, fun _ => rfl⟩
      split at hended
      · next hempty => exact List.isEmpty_iff.mp hempty
      · cases hended
    · intro hmisused
      split at hmisused <;> cases hmisused
    · intro hne
      exact absurd rfl hne
    · intro hroom
      have hqueue : d.encoder.addTrailer.queue ≠ [] := by
        intro hnil
        have := congrArg List.length hnil
        simp [Encoder.addTrailer, bigEndian] at this
      exact .inr (output_deliver (d := { d with encoder := d.encoder.addTrailer }) hqueue hroom)
  · next ht =>
    refine ⟨⟨.refl d, h, fun _ => ⟨hc, hq, fun hz => ?_⟩, EncodeVerdict.noConfusion,
      fun hne => absurd rfl hne⟩, fun _ => .inl rfl⟩
    simpa [show d.encoder.zlib = true from hz] using ht

/-- What a flush comes to where all input is taken. -/
def asked (d : Delivery) : Flush → Delivery × EncodeVerdict
  | .none => if d.deliver.room = 0 then d.deliver.pause else (d.deliver, .working)
  | .sync =>
    if d.encoder.held = 0 then d.writeMark
    else
      let d := { d with encoder := d.encoder.closeBlock false }.deliver
      if d.room = 0 then d.pause else d.writeMark
  | .finish =>
    let d := { d with encoder := d.encoder.closing }.deliver
    if d.room = 0 then d.pause else d.conclude

theorem write_eq_asked (d : Delivery) (flush : Flush) :
    d.write [] flush = d.asked (if d.room = 0 && d.encoder.defers then .none else flush) := by
  unfold write asked
  rfl

/-- The last block, and what can be given of it and of the trailer. -/
theorem went_finish (h : d.encoder.Sent (sent ++ d.output)) (ho : d.encoder.opened = true)
    (hc : d.encoder.closed = false) : d.Went 0 sent .finish (d.asked .finish) ∧
      (d.room ≠ 0 → d.Showed (d.asked .finish)) := by
  let d' : Delivery := { d with encoder := d.encoder.closing }
  have hclosing := h.closing ho hc
  have hrank : d.encoder.closing.rank < d.encoder.rank := by
    have h0 : d.encoder.closing.held = 0 := Nat.sub_self _
    have hopened : d.encoder.closing.opened = d.encoder.opened := rfl
    have hclosed : d.encoder.closing.closed = true := rfl
    have htrailed : d.encoder.closing.trailed = d.encoder.trailed := rfl
    have hzero : ((0 : Nat) != 0).toNat = 0 := rfl
    have hone : (!false).toNat = 1 := rfl
    have hnone : (!true).toNat = 0 := rfl
    simp only [rank, h0, hopened, hclosed, htrailed, hc]
    omega
  have honward : d.Onward 0 d'.deliver :=
    (Onward.of_rank (d := d) d.encoder.closing rfl rfl hrank).trans (onward_deliver _)
  have hsent := sent_deliver (d := d') hclosing
  have hgiven (hroom : d.room ≠ 0) : d.output.length < d'.deliver.output.length :=
    output_deliver (d := d') (h.closing_queue ho hc) hroom
  show d.Went 0 sent .finish (if d'.deliver.room = 0 then d'.deliver.pause else d'.deliver.conclude) ∧
    (d.room ≠ 0 → d.Showed (if d'.deliver.room = 0 then d'.deliver.pause else d'.deliver.conclude))
  split
  · exact ⟨.after honward (went_pause .finish hsent nofun), fun hroom => .inr (hgiven hroom)⟩
  · next hroom' =>
    obtain ⟨hwent, -⟩ := went_conclude hsent rfl (queue_deliver_of_room hroom')
    refine ⟨.after honward hwent, fun hroom => .inr ?_⟩
    exact Nat.lt_of_lt_of_le (hgiven hroom) hwent.onward.grows

theorem went_sync (h : d.encoder.Sent (sent ++ d.output)) (ho : d.encoder.opened = true)
    (hc : d.encoder.closed = false) : d.Went (Flush.sync.allowance) sent .sync (d.asked .sync) := by
  simp only [asked]
  split
  · exact went_writeMark h ho hc
  · next hheld =>
    have hblock := h.closeBlock ho hc
    have hrank : (d.encoder.closeBlock false).rank < d.encoder.rank := by
      have h0 : (d.encoder.closeBlock false).held = 0 := Nat.sub_self _
      have hopened : (d.encoder.closeBlock false).opened = d.encoder.opened := rfl
      have hclosed : (d.encoder.closeBlock false).closed = false := rfl
      have htrailed : (d.encoder.closeBlock false).trailed = d.encoder.trailed := rfl
      have hsome : (d.encoder.held != 0) = true := by simpa using hheld
      simp only [rank, h0, hopened, hclosed, htrailed, hc, hsome]
      simp
    have honward : d.Onward 0 (deliver { d with encoder := d.encoder.closeBlock false }) :=
      (Onward.of_rank (d.encoder.closeBlock false) rfl rfl hrank).trans (onward_deliver _)
    have hsent := sent_deliver (d := { d with encoder := d.encoder.closeBlock false }) hblock
    refine Went.after honward ?_
    split
    · exact (went_pause .sync hsent fun _ => rfl).mono (Nat.zero_le _)
    · exact went_writeMark hsent ho rfl

theorem went_write (h : d.encoder.Sent (sent ++ d.output)) (ho : d.encoder.opened = true)
    (hc : d.encoder.closed = false) (flush : Flush) :
    d.Went flush.allowance sent flush (d.write [] flush) ∧
      (flush = .finish → d.room ≠ 0 → d.Showed (d.write [] flush)) := by
  rw [write_eq_asked]
  split
  · next hdefer =>
    refine ⟨(went_deliver h fun _ => hc).mono (Nat.zero_le _), ?_⟩
    intro _ hroom
    simp [hroom] at hdefer
  · cases flush with
    | none => exact ⟨went_deliver h fun _ => hc, nofun⟩
    | sync => exact ⟨went_sync h ho hc, nofun⟩
    | finish =>
      obtain ⟨hwent, hshowed⟩ := went_finish h ho hc
      exact ⟨hwent, fun _ => hshowed⟩

/-! ## Steps -/

/-- A delivery behind the header. -/
structure Begun (sent : Bytes) (d d' : Delivery) : Prop where
  onward : d.Onward 0 d'
  sent : d'.encoder.Sent (sent ++ d'.output)
  opened : d'.encoder.opened = true
  closed_eq : d'.encoder.closed = d.encoder.closed
  same_or_given : d' = d ∨ d.output.length < d'.output.length

theorem begun_begin (h : d.encoder.Sent (sent ++ d.output)) (hroom : d.room ≠ 0) :
    Begun sent d d.begin := by
  cases ho : d.encoder.opened with
  | true =>
    rw [begin, if_pos ho]
    exact ⟨.refl d, h, ho, rfl, .inl rfl⟩
  | false =>
    have hbegin : d.begin = deliver { d with encoder := d.encoder.opening } := by
      rw [begin, ho]
      rfl
    have hopening := h.opening ho
    have hrank : d.encoder.opening.rank < d.encoder.rank := by
      have hheld : d.encoder.opening.held = d.encoder.held := rfl
      simp only [rank, hheld, ho]
      simp [Encoder.opening]
    have hqueue : d.encoder.opening.queue ≠ [] := by
      intro hnil
      have := (List.append_eq_nil_iff.mp hnil).2
      cases this
    rw [hbegin]
    refine ⟨?_, sent_deliver (d := { d with encoder := d.encoder.opening }) hopening, rfl, rfl, ?_⟩
    · exact (Onward.of_rank (d := d) d.encoder.opening rfl rfl hrank).trans (onward_deliver _)
    · exact .inr (output_deliver (d := { d with encoder := d.encoder.opening }) hqueue hroom)

/-- What comes of a step: all input is taken, or none and something is given or over. -/
inductive Advanced (sent input : Bytes) (flush : Flush) (d : Delivery)
    (r : Delivery × EncodeVerdict) : Prop
  | took (d' : Delivery) (ne_nil : input ≠ []) (data_eq : d'.encoder.data = d.encoder.data ++ input)
      (zlib_eq : d'.encoder.zlib = d.encoder.zlib)
      (room_eq : d'.output.length + d'.room = d.output.length + d.room)
      (went : d'.Went flush.allowance sent flush r)
  | left (went : d.Went flush.allowance sent flush r)
      (showed : input ≠ [] ∨ flush = .finish → d.Showed r)

theorem Showed.of_given {r : Delivery × EncodeVerdict} (h : d.output.length < d'.output.length)
    (h' : d'.output.length ≤ r.1.output.length) : d.Showed r := .inr (Nat.lt_of_lt_of_le h h')

/-- Behind the header, input is taken and what the flush asks for is written. -/
theorem Begun.advanced_write (hb : Begun sent d d') (hc : d'.encoder.closed = false)
    (hroom : d.room ≠ 0) {input : Bytes} (flush : Flush) :
    Advanced sent input flush d (d'.write input flush) := by
  cases input with
  | nil =>
    obtain ⟨hwent, hshowed⟩ := went_write hb.sent hb.opened hc flush
    refine .left (.after hb.onward hwent) ?_
    rintro (hne | hf)
    · exact absurd rfl hne
    · obtain rfl | hgiven := hb.same_or_given
      · exact hshowed hf hroom
      · exact .of_given hgiven hwent.onward.grows
  | cons b bs =>
    have hholds := holds_holdAll hc (b :: bs)
    let held : Delivery := ⟨d'.encoder.holdAll (b :: bs), d'.output, d'.room⟩
    have hwent := (went_write (d := held) (hb.sent.holdAll hb.opened hc (b :: bs))
      (hholds.opened_eq.trans hb.opened) (hholds.closed_eq.trans hc) flush).1
    refine .took held (List.cons_ne_nil b bs) ?_ ?_ hb.onward.room_eq hwent
    · rw [hholds.data_eq, hb.onward.data_eq]
    · rw [hholds.zlib_eq, hb.onward.zlib_eq]

/-- Only finishing comes behind the last block. -/
theorem open_of_ne_finish {input : Bytes} {flush : Flush}
    (hc : e.closed = true → flush = .finish ∧ input = []) (hne : flush ≠ .finish) :
    e.closed = false := by
  cases hclosed : e.closed with
  | false => rfl
  | true => exact absurd (hc hclosed).1 hne

theorem advanced {input : Bytes} {flush : Flush} (h : d.encoder.Sent (sent ++ d.output))
    (hq : d.encoder.queue = []) (hroom : d.room ≠ 0)
    (hc : d.encoder.closed = true → flush = .finish ∧ input = []) :
    Advanced sent input flush d (d.advance input flush) := by
  have hb := begun_begin h hroom
  have hinput : ¬ (d.encoder.closed && !input.isEmpty) = true := by
    simp only [Bool.and_eq_true, Bool.not_eq_true', not_and]
    intro hclosed
    simp [(hc hclosed).2]
  rw [advance, if_neg hinput]
  simp only
  by_cases hqueue : d.begin.encoder.queue = []
  · rw [hqueue]
    simp only [List.isEmpty_nil, Bool.not_true, Bool.false_eq_true, if_false]
    cases hcl : d.encoder.closed with
    | true =>
      -- a closed stream has its header, so there is room for the trailer
      obtain ⟨rfl, rfl⟩ := hc hcl
      have hsame : d.begin = d := if_pos (h.opened_of_closed hcl)
      rw [hb.closed_eq, if_pos hcl, hsame]
      obtain ⟨hwent, hshowed⟩ := went_conclude h hcl hq
      exact .left hwent fun _ => hshowed hroom
    | false =>
      rw [hb.closed_eq, hcl]
      have hcl' : d.begin.encoder.closed = false := hb.closed_eq.trans hcl
      simp only [Bool.false_eq_true, if_false]
      split
      · next hidle =>
        simp only [Bool.and_eq_true, List.isEmpty_iff, beq_iff_eq] at hidle
        have hwent := went_working flush hb.sent fun _ => hcl'
        refine .left (.after hb.onward (hwent.mono (Nat.zero_le _))) ?_
        rintro (hne | hf)
        · exact absurd hidle.1 hne
        · rw [hidle.2] at hf
          cases hf
      · exact hb.advanced_write hcl' hroom flush
  · -- the header did not fit
    have hqueue' : (!d.begin.encoder.queue.isEmpty) = true := by simpa using hqueue
    rw [if_pos hqueue']
    have hwent := went_pause flush hb.sent fun hne =>
      hb.closed_eq.trans (open_of_ne_finish hc hne)
    refine .left (.after hb.onward (hwent.mono (Nat.zero_le _))) ?_
    intro _
    obtain hsame | hgiven := hb.same_or_given
    · rw [hsame] at hqueue
      exact absurd hq hqueue
    · exact .inr hgiven

end Delivery

open Delivery in
/-- What one step of an encoder comes to. -/
structure Stepped (e : Encoder) (sent input : Bytes) (room : Nat) (flush : Flush)
    (r : Delivery × EncodeVerdict) : Prop where
  sent : r.1.encoder.Sent (sent ++ r.1.output)
  room_eq : r.1.output.length + r.1.room = room
  zlib_eq : r.1.encoder.zlib = e.zlib
  ended : r.2 = .ended → r.1.encoder.Finished
  not_misused : r.2 ≠ .misused
  closed : flush ≠ .finish → r.1.encoder.closed = false
  /-- all input is taken, or none while the stream comes nearer to its end -/
  outcome : input ≠ [] ∧ r.1.encoder.data = e.data ++ input ∨
    r.1.encoder.data = e.data ∧
      (r.1.encoder.rank < e.rank ∨ r.1.encoder.rank = e.rank ∧
        r.1.encoder.queue.length + r.1.output.length ≤ e.queue.length + flush.allowance) ∧
      (room ≠ 0 → input ≠ [] ∨ flush = .finish → r.2 = .ended ∨ r.1.output ≠ [])

open Delivery in
/-- A step that does not take its input. -/
theorem stepped_of_went {r : Delivery × EncodeVerdict} {input : Bytes} {room : Nat} {flush : Flush}
    (h : Went flush.allowance sent flush ⟨e, [], room⟩ r)
    (hs : room ≠ 0 → input ≠ [] ∨ flush = .finish → Showed ⟨e, [], room⟩ r) :
    e.Stepped sent input room flush r where
  sent := h.sent
  room_eq := h.onward.room_eq.trans (Nat.zero_add _)
  zlib_eq := h.onward.zlib_eq
  ended := h.ended
  not_misused := h.not_misused
  closed := h.closed
  outcome := by
    refine .inr ⟨h.onward.data_eq, h.onward.cost, fun hroom hin => (hs hroom hin).imp_right ?_⟩
    exact fun hlt => List.length_pos_iff.mp hlt

open Delivery in
/-- Room that is left behind the queue is used for what is asked. -/
theorem Sent.stepped_deliver (h : e.Sent sent) {input : Bytes} {room : Nat} {flush : Flush}
    (hc : e.closed = true → flush = .finish ∧ input = []) (hroom : room ≠ 0) :
    e.Stepped sent input room flush
      (if !e.queue.isEmpty && (deliver ⟨e, [], room⟩).room = 0 then (deliver ⟨e, [], room⟩).pause
        else (deliver ⟨e, [], room⟩).advance input flush) := by
  have hwaiting : e.Sent (sent ++ []) := by rwa [List.append_nil]
  have hgiven := sent_deliver (d := ⟨e, [], room⟩) hwaiting
  have honward := onward_deliver ⟨e, [], room⟩
  by_cases hfull : e.queue ≠ [] ∧ (deliver ⟨e, [], room⟩).room = 0
  · have hcond : (!e.queue.isEmpty && (deliver ⟨e, [], room⟩).room = 0) = true := by
      simp [hfull.1, hfull.2]
    rw [if_pos hcond]
    have hw := went_pause flush hgiven (open_of_ne_finish hc)
    refine stepped_of_went (.after honward (hw.mono (Nat.zero_le _))) ?_
    intro _ _
    exact .inr (output_deliver (d := ⟨e, [], room⟩) hfull.1 hroom)
  · have hcond : ¬ (!e.queue.isEmpty && (deliver ⟨e, [], room⟩).room = 0) = true := by
      simpa using hfull
    rw [if_neg hcond]
    have hroom' : (deliver ⟨e, [], room⟩).room ≠ 0 := by
      intro hzero
      have hnil : e.queue = [] := Decidable.byContradiction fun hne => hfull ⟨hne, hzero⟩
      rw [room_deliver, hnil] at hzero
      simp at hzero
      exact hroom hzero
    cases advanced hgiven (queue_deliver_of_room hroom') hroom' hc with
    | took d' ne_nil data_eq zlib_eq room_eq went =>
      refine ⟨went.sent, ?_, ?_, went.ended, went.not_misused, went.closed, .inl ⟨ne_nil, ?_⟩⟩
      · rw [went.onward.room_eq, room_eq, honward.room_eq]
        exact Nat.zero_add _
      · exact went.onward.zlib_eq.trans zlib_eq
      · exact went.onward.data_eq.trans data_eq
    | left went showed =>
      refine stepped_of_went (.after honward went) ?_
      intro _ hin
      exact (showed hin).imp_right fun hlt => Nat.lt_of_le_of_lt (Nat.zero_le _) hlt

open Delivery in
theorem Sent.step (h : e.Sent sent) (input : Bytes) (room : Nat) (flush : Flush)
    (hc : e.closed = true → flush = .finish ∧ input = []) :
    e.Stepped sent input room flush (e.step input room flush) := by
  have hused : ¬ (e.closed && flush != .finish) = true := by
    simp only [Bool.and_eq_true, bne_iff_ne, not_and]
    exact fun hcl hne => hne (hc hcl).1
  have hwaiting : e.Sent (sent ++ []) := by rwa [List.append_nil]
  rw [Encoder.step, if_neg hused]
  split
  · next hroom =>
    have hw := went_working (d := ⟨e, [], room⟩) flush hwaiting (open_of_ne_finish hc)
    exact stepped_of_went (hw.mono (Nat.zero_le _)) fun hne => absurd hroom hne
  · next hroom =>
    -- noting the flush changes nothing that counts
    have hnoted {r : Delivery × EncodeVerdict}
        (hr : Stepped { e with previous := some flush } sent input room flush r) :
        e.Stepped sent input room flush r :=
      ⟨hr.sent, hr.room_eq, hr.zlib_eq, hr.ended, hr.not_misused, hr.closed, hr.outcome⟩
    apply hnoted
    cases hidle : e.isIdle input flush with
    | true =>
      have hw := went_working (d := ⟨{ e with previous := some flush }, [], room⟩) flush
        (sent_previous hwaiting _) (open_of_ne_finish hc)
      refine stepped_of_went (hw.mono (Nat.zero_le _)) ?_
      intro _ hin
      simp only [isIdle, Bool.and_eq_true, List.isEmpty_iff, bne_iff_ne] at hidle
      rcases hin with hne | hf
      · exact absurd hidle.1.1.1 hne
      · exact absurd hf hidle.1.1.2
    | false => exact (sent_previous h (some flush)).stepped_deliver hc hroom

end GzipStream.Deflate.Encoder
