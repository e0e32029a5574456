import GzipStream.Proofs.Archive
import GzipStream.Stream

/-!
# Reading to the end

`Reader.Reading` holds of a reader between two turns: what it took, what it gave and what is left
add up to the data. `turnLoop_spec` says that every read comes back, `drain_spec` that reads of any
sizes, over a source that deals out the data in any way, give what the data holds.
-/

namespace GzipStream

namespace Inflater

/-- Bytes still to be given out, and one more for a member that is at its end. -/
def owing (i : Inflater) : Nat :=
  (i.view.payload.length - i.payload.length) + (!i.view.isOpen).toNat

/-- Most that taking a byte adds to what is owed, with a turn of its own. -/
def perByte : Nat := Deflate.Cursor.mostPerByte + 2

section
variable {f : Framing} {i i' : Inflater} {before output used out : Bytes}

theorem Along.payload_le (h : i.Along f before output) {m : Member}
    (ht : (Member.start f).Takes (before ++ used) m) :
    m.payload.length ≤ i.view.payload.length + used.length * Deflate.Cursor.mostPerByte :=
  (Member.Takes.modest (h.takes.of_append ht) (h.takes.modest (Member.modest_start f)).1).2

theorem Along.lag_eq (h : i.Along f before output) :
    output.length + (i.view.payload.length - i.payload.length) = i.view.payload.length := by
  have := h.sound.payload_prefix.length_le
  rw [h.payload_eq] at this ⊢
  omega

theorem Along.owing_working (h : i.Along f before output)
    (h' : i'.Along f (before ++ used) (output ++ out)) (hm : 0 < used.length + out.length) :
    i'.owing + out.length ≤ i.owing + used.length * perByte ∧
      i'.owing < i.owing + used.length * perByte := by
  have h1 := h.lag_eq
  have h2 := h'.lag_eq
  have h3 := h.payload_le h'.takes
  have h4 : used.length * perByte = used.length * Deflate.Cursor.mostPerByte + used.length * 2 :=
    Nat.mul_add _ _ _
  rw [List.length_append] at h2
  unfold owing
  by_cases hused : used = []
  · subst hused
    have hv : i'.view = i.view := (h.takes.of_append h'.takes).symm
    rw [hv] at h2 ⊢
    rw [List.length_nil] at hm h4
    omega
  · have := List.length_pos_iff.mpr hused
    have h5 : (!i'.view.isOpen).toNat ≤ 1 := Bool.toNat_le _
    omega

theorem Along.owing_ended (h : i.Along f before output)
    (ht : (Member.start f).Takes (before ++ used) (.done (output ++ out))) :
    out.length < i.owing + used.length * perByte := by
  have h1 := h.lag_eq
  have h3 := h.payload_le ht
  have h4 : used.length * perByte = used.length * Deflate.Cursor.mostPerByte + used.length * 2 :=
    Nat.mul_add _ _ _
  rw [Member.payload, List.length_append] at h3
  unfold owing
  by_cases hused : used = []
  · subst hused
    have hv : i.view = .done (output ++ out) := h.takes.of_append ht
    rw [List.length_nil] at h3 h4
    rw [hv] at h1 h3 ⊢
    have h5 : (!(Member.done (output ++ out)).isOpen).toNat = 1 := rfl
    rw [Member.payload, List.length_append] at h1
    omega
  · have := List.length_pos_iff.mpr hused
    omega

theorem Along.owing_start (h : i.Along f [] []) : i.owing = 0 := by
  have hc := h.caughtUp
  unfold owing
  rw [hc.payload_eq, hc.isOpen, Nat.sub_self]
  rfl

end

end Inflater

namespace Source

/-- The source answers with pieces of `bs`, and with an empty one only behind the last of them. -/
def Supplies : Source → Bytes → Prop
  | [], bs => bs = []
  | .data p :: s, bs => ∃ rest, bs = p ++ rest ∧ Supplies s rest ∧ (p = [] → rest = [])
  | _, _ => False

theorem supplies_map {pieces : List Bytes} (h : ∀ p ∈ pieces, p ≠ []) :
    Supplies (pieces.map .data) pieces.flatten := by
  induction pieces with
  | nil => rfl
  | cons p pieces ih =>
    refine ⟨pieces.flatten, rfl, ih fun q hq => h q (List.mem_cons_of_mem _ hq), ?_⟩
    exact fun hp => absurd hp (h p List.mem_cons_self)

theorem supplies_singleton (bs : Bytes) : Supplies [.data bs] bs :=
  ⟨[], (List.append_nil bs).symm, rfl, fun _ => rfl⟩

theorem Supplies.readThrough {s : Source} {bs : Bytes} (h : s.Supplies bs) {capacity : Nat}
    (hc : 0 < capacity) : ∃ piece rest s', s.readThrough capacity = (.ok piece, s') ∧
      bs = piece ++ rest ∧ s'.Supplies rest ∧ (piece = [] → rest = []) := by
  cases s with
  | nil => exact ⟨[], [], [], rfl, h, rfl, fun _ => rfl⟩
  | cons item s =>
    cases item with
    | data p =>
      obtain ⟨rest, rfl, hs, hp⟩ := h
      have htake : p.take capacity = [] → p = [] := by
        intro h
        cases p with
        | nil => rfl
        | cons b p =>
          cases capacity with
          | zero => exact absurd hc (Nat.lt_irrefl 0)
          | succ n => cases h
      refine ⟨p.take capacity, p.drop capacity ++ rest, _, rfl, ?_, ?_, ?_⟩
      · rw [← List.append_assoc, List.take_append_drop]
      · split
        · next hd => rw [List.isEmpty_iff.mp hd]; exact hs
        · next hd => exact ⟨rest, rfl, hs, fun h => absurd (List.isEmpty_iff.mpr h) hd⟩
      · intro h
        rw [htake h, hp (htake h), List.drop_nil]
        rfl
    | failure f => exact h.elim
    | endOfData => exact h.elim

end Source

namespace Reader

/-- A reader between two turns: `finished` and `output` is what it gave of complete members and of
the current one, of which the engine took `before`, and `coming` is what the source still has. -/
structure Reading (f : Framing) (data : Bytes) (r : Reader Inflater)
    (finished before output coming : Bytes) : Prop where
  along : r.engine.Along f before output
  behind : Behind f data finished r.members (before ++ (r.pending ++ coming))
  supplies : r.source.Supplies coming
  active_eq : r.active = !before.isEmpty
  exhausted : r.exhausted = true → coming = []
  totalIn_eq : r.totalIn + (r.pending ++ coming).length = data.length
  totalOut_eq : r.totalOut = (finished ++ output).length
  running : r.released = false
  failure_eq : r.failure = none

/-- Turns that a reader has in it, with a margin. -/
def weight (r : Reader Inflater) (coming : Bytes) : Nat :=
  (r.pending ++ coming).length * Inflater.perByte + r.engine.owing

/-- What a read brings that follows the bytes `given`. -/
inductive Delivered (f : Framing) (data given : Bytes) (most : Nat) :
    Except Error Bytes → Reader Inflater → Prop
  | some {bs finished before output coming : Bytes} {r : Reader Inflater}
      (reading : r.Reading f data finished before output coming)
      (given_eq : given ++ bs = finished ++ output) (ne_nil : bs ≠ [])
      (less : r.weight coming + bs.length ≤ most) : Delivered f data given most (.ok bs) r
  | none {r : Reader Inflater} (reading : r.Reading f data given [] [] [])
      (pending_eq : r.pending = []) : Delivered f data given most (.ok []) r
  | error {out : Bytes} {members : Nat} {ending : Ending} {e : Error} {r : Reader Inflater}
      (archive : Archive f data out members ending) (isPrefix : given <+: out)
      (error_eq : ending.error? data.length = some e) : Delivered f data given most (.error e) r

/-- What a turn comes to that found `got` in the buffer. -/
def Turned (f : Framing) (data given : Bytes) (most room : Nat) (before : Nat) :
    Turn Inflater → Prop
  | .stop result r => Delivered f data given most result r
  | .again r got => ∃ finished member output coming,
    r.Reading f data finished member output coming ∧ given ++ got = finished ++ output ∧
      got.length < room ∧ r.weight coming + got.length ≤ most ∧ r.weight coming < before

section
variable {f : Framing} {data finished before output coming given got : Bytes}
  {r : Reader Inflater} {most room : Nat}

/-- More input where there is none; the end of data only where all was supplied. -/
theorem Reading.fetch (h : r.Reading f data finished before output coming) :
    ∃ r' coming', r.fetch = (none, r') ∧ r'.Reading f data finished before output coming' ∧
      (r'.pending = [] → r'.exhausted = true) ∧ r'.weight coming' = r.weight coming := by
  unfold Reader.fetch
  split
  · next hempty =>
    rw [Bool.and_eq_true, List.isEmpty_iff] at hempty
    obtain ⟨piece, rest, s, hread, rfl, hs, hend⟩ :=
      h.supplies.readThrough r.options.effectiveBufferSize_pos
    have hpend : r.pending ++ (piece ++ rest) = piece ++ rest := by rw [hempty.1]; rfl
    simp only [hread]
    refine ⟨_, rest, rfl, ⟨h.along, ?_, hs, h.active_eq, ?_, ?_, h.totalOut_eq, h.running,
      h.failure_eq⟩, ?_, ?_⟩
    · have := h.behind
      rwa [hpend] at this
    · intro he
      exact hend (List.isEmpty_iff.mp he)
    · have := h.totalIn_eq
      rwa [hpend] at this
    · intro he
      exact List.isEmpty_iff.mpr he
    · unfold weight
      rw [hpend]
  · next hempty =>
    refine ⟨r, coming, rfl, h, ?_, rfl⟩
    intro hp
    rw [hp] at hempty
    simpa using hempty

/-- The reader behind a step of its engine. -/
def stepped (r : Reader Inflater) (s : Step) (i : Inflater) : Reader Inflater :=
  { r with
    engine := i
    pending := r.pending.drop s.consumed
    active := r.active || 0 < s.consumed
    totalIn := r.totalIn + s.consumed
    totalOut := r.totalOut + s.produced }

theorem stepTurn_worked {n : Nat} {out : Bytes} {i : Inflater} (hm : 0 < n + out.length)
    (hs : r.engine.step r.pending (room - got.length) = (⟨n, out, .ok, none⟩, i)) :
    r.stepTurn room got =
      if (got ++ out).length = room then .stop (.ok (got ++ out)) (r.stepped ⟨n, out, .ok, none⟩ i)
      else .again (r.stepped ⟨n, out, .ok, none⟩ i) (got ++ out) := by
  have hmoved : Step.madeProgress ⟨n, out, .ok, none⟩ = true := by
    rw [Step.madeProgress, Bool.or_eq_true, decide_eq_true_eq, Bool.not_eq_true',
      List.isEmpty_eq_false_iff, ← List.length_pos_iff]
    simp only
    omega
  simp only [stepTurn, DecodeEngine.step, hs, hmoved]
  rfl

theorem stepTurn_ended {n : Nat} {out : Bytes} {i : Inflater} (hi : i.Over f)
    (hs : r.engine.step r.pending (room - got.length) = (.ended n out, i)) :
    r.stepTurn room got =
      let r' := { r.stepped (.ended n out) i.startMember with members := r.members + 1, active := false }
      if got ++ out = [] then .again r' (got ++ out) else .stop (.ok (got ++ out)) r' := by
  simp only [stepTurn, DecodeEngine.step, hs, Step.ended, DecodeEngine.reset, hi.reset_eq,
    Status.check_ok, List.isEmpty_iff]
  rfl

theorem stepTurn_stalled {i : Inflater} (hp : r.pending = []) (he : r.exhausted = true)
    (hs : r.engine.step r.pending (room - got.length) = (⟨0, [], .bufferError, none⟩, i)) :
    ∃ r', r.stepTurn room got = .stop (.error (.truncatedStream r.totalIn)) r' := by
  rw [hp] at hs
  simp only [stepTurn, DecodeEngine.step, he, hp, hs]
  exact ⟨_, rfl⟩

theorem stepTurn_refused {n : Nat} {out : Bytes} {m : String} {i : Inflater}
    (hs : r.engine.step r.pending (room - got.length) = (.failed n out .dataError m, i)) :
    r.stepTurn room got = .stop (.error (.dataCorrupt m)) (r.stepped (.failed n out .dataError m) i) := by
  simp only [stepTurn, DecodeEngine.step, hs]
  rfl

theorem pending_stepped {used left : Bytes} {s : Step} (i : Inflater) (hp : r.pending = used ++ left)
    (hc : s.consumed = used.length) : (r.stepped s i).pending = left := by
  show r.pending.drop s.consumed = left
  rw [hp, hc, List.drop_left]

theorem Reading.totalIn_stepped {used left : Bytes} {s : Step} (i : Inflater)
    (h : r.Reading f data finished before output coming) (hp : r.pending = used ++ left)
    (hc : s.consumed = used.length) :
    (r.stepped s i).totalIn + ((r.stepped s i).pending ++ coming).length = data.length := by
  have := h.totalIn_eq
  rw [hp, List.append_assoc, List.length_append] at this
  rw [pending_stepped i hp hc]
  show r.totalIn + s.consumed + _ = _
  omega

theorem Reading.totalOut_stepped {out : Bytes} {s : Step} (i : Inflater)
    (h : r.Reading f data finished before output coming) (ho : s.output = out) :
    (r.stepped s i).totalOut = (finished ++ (output ++ out)).length := by
  show r.totalOut + s.output.length = _
  rw [h.totalOut_eq, ho, ← List.append_assoc]
  exact List.length_append.symm

theorem Reading.stepped {used left out : Bytes} {s : Step} {i : Inflater}
    (h : r.Reading f data finished before output coming) (hp : r.pending = used ++ left)
    (hc : s.consumed = used.length) (ho : s.output = out)
    (hi : i.Along f (before ++ used) (output ++ out)) :
    (r.stepped s i).Reading f data finished (before ++ used) (output ++ out) coming := by
  refine ⟨hi, ?_, h.supplies, ?_, h.exhausted, h.totalIn_stepped i hp hc, h.totalOut_stepped i ho,
    h.running, h.failure_eq⟩
  · rw [pending_stepped i hp hc, List.append_assoc, ← List.append_assoc used, ← hp]
    exact h.behind
  · show (r.active || decide (0 < s.consumed)) = _
    rw [h.active_eq, hc]
    cases before <;> cases used <;> rfl

/-- The end of a member. -/
theorem Reading.restarted {used left out : Bytes} {s : Step} {i : Inflater}
    (h : r.Reading f data finished before output coming) (hp : r.pending = used ++ left)
    (hc : s.consumed = used.length) (ho : s.output = out) (hi : i.Over f)
    (ht : (Member.start f).Takes (before ++ used) (.done (output ++ out))) :
    ({ r.stepped s i.startMember with members := r.members + 1, active := false } :
      Reader Inflater).Reading f data (finished ++ (output ++ out)) [] [] coming := by
  refine ⟨hi.along_startMember, ?_, h.supplies, rfl, h.exhausted,
    h.totalIn_stepped i.startMember hp hc, ?_, h.running, h.failure_eq⟩
  · have hb := h.behind
    rw [hp, List.append_assoc, ← List.append_assoc before] at hb
    show Behind f data _ _ ([] ++ ((r.stepped s i.startMember).pending ++ coming))
    rw [pending_stepped i.startMember hp hc]
    exact hb.member ht
  · rw [List.append_nil]
    exact h.totalOut_stepped i.startMember ho

theorem weight_stepped {used left : Bytes} {s : Step} (i : Inflater) (hp : r.pending = used ++ left)
    (hc : s.consumed = used.length) (coming : Bytes) :
    (r.stepped s i).weight coming + used.length * Inflater.perByte + r.engine.owing =
      r.weight coming + i.owing := by
  have hlen : (r.pending ++ coming).length = used.length + (left ++ coming).length := by
    rw [hp, List.append_assoc, List.length_append]
  unfold weight
  rw [pending_stepped i hp hc, hlen, Nat.add_mul]
  show _ * _ + i.owing + _ + _ = _
  omega

theorem Reading.stepTurn_spec (h : r.Reading f data finished before output coming)
    (hend : r.pending = [] → r.exhausted = true) (hbusy : r.pending = [] → before ≠ [])
    (hg : given ++ got = finished ++ output) (hroom : got.length < room)
    (hw : r.weight coming + got.length ≤ most) :
    Turned f data given most room (r.weight coming) (r.stepTurn room got) := by
  have hgiven (rest : Bytes) : given <+: finished ++ (output ++ rest) :=
    ⟨got ++ rest, by rw [← List.append_assoc, hg, List.append_assoc]⟩
  rcases hstep : r.engine.step r.pending (room - got.length) with ⟨s, i⟩
  cases h.along.step (by omega) hstep with
  | working used left out hin hlen moved along full =>
    have hreading := h.stepped (s := ⟨used.length, out, .ok, none⟩) hin rfl rfl along
    have hweight := weight_stepped (s := ⟨used.length, out, .ok, none⟩) i hin rfl coming
    obtain ⟨howing, hless⟩ := h.along.owing_working along moved
    have hg' : given ++ (got ++ out) = finished ++ (output ++ out) := by
      rw [← List.append_assoc, hg, List.append_assoc]
    have hlength : (got ++ out).length = got.length + out.length := List.length_append
    rw [stepTurn_worked moved hstep]
    split
    · next hfull =>
      exact .some hreading hg' (List.ne_nil_of_length_pos (by omega)) (by omega)
    · exact ⟨_, _, _, _, hreading, hg', by omega, by omega, by omega⟩
  | stalled hin along caught =>
    obtain ⟨r', hturn⟩ := stepTurn_stalled hin (hend hin) hstep
    rw [hturn]
    have hcoming := h.exhausted (hend hin)
    have hb := h.behind
    have htotal := h.totalIn_eq
    rw [hin, hcoming, List.append_nil, List.append_nil] at hb
    rw [hin, hcoming] at htotal
    refine .error (hb _ _ _ (.of_caughtUp along caught (hbusy hin))) ?_ ?_
    · have := hgiven []
      rwa [List.append_nil] at this
    · rw [← htotal]
      rfl
  | ended used left out hin hlen isOver takes =>
    have hreading := h.restarted (s := .ended used.length out) hin rfl rfl isOver takes
    have hweight := weight_stepped (s := .ended used.length out) i.startMember hin rfl coming
    have howing := h.along.owing_ended takes
    have hg' : given ++ (got ++ out) = finished ++ (output ++ out) ++ [] := by
      rw [← List.append_assoc, hg, List.append_assoc, List.append_nil]
    have hlength : (got ++ out).length = got.length + out.length := List.length_append
    rw [isOver.along_startMember.owing_start] at hweight
    rw [stepTurn_ended isOver hstep]
    simp only
    split
    · next hnil =>
      refine ⟨_, _, _, _, hreading, hg', ?_, ?_, ?_⟩
      · rw [hnil, List.length_nil]
        omega
      · show (r.stepped (.ended used.length out) i.startMember).weight coming + _ ≤ _
        omega
      · show (r.stepped (.ended used.length out) i.startMember).weight coming < _
        omega
    · next hne =>
      refine .some hreading hg' hne ?_
      show (r.stepped (.ended used.length out) i.startMember).weight coming + _ ≤ _
      omega
  | refused used left out ahead fault hin hlen isPrefix takes stuck =>
    have hp : before ++ used ++ ahead <+: before ++ (r.pending ++ coming) := by
      rw [hin, List.append_assoc used, ← List.append_assoc before]
      exact (List.prefix_append_right_inj _).mpr (isPrefix.trans (List.prefix_append _ _))
    rw [stepTurn_refused hstep]
    exact .error (h.behind _ _ _ (.refused fault hp takes)) (hgiven out) rfl

theorem Reading.turn_spec (h : r.Reading f data finished before output coming)
    (hg : given ++ got = finished ++ output) (hroom : got.length < room)
    (hw : r.weight coming + got.length ≤ most) :
    Turned f data given most room (r.weight coming) (r.turn room got) := by
  unfold turn
  split
  · next hstop =>
    simp only [Bool.and_eq_true, Bool.not_eq_true', List.isEmpty_eq_false_iff] at hstop
    exact .some h hg hstop.2 hw
  · obtain ⟨r', coming', hfetch, h', hend, hweight⟩ := h.fetch
    rw [← hweight] at hw ⊢
    rw [hfetch]
    simp only
    split
    · next hstop =>
      simp only [Bool.and_eq_true, Bool.not_eq_true', List.isEmpty_iff] at hstop
      obtain ⟨⟨hexhausted, hpending⟩, hidle⟩ := hstop
      have hfinished : ({ r' with finished := true } : Reader Inflater).Reading f data finished before
        output coming' := ⟨h'.along, h'.behind, h'.supplies, h'.active_eq, h'.exhausted, h'.totalIn_eq,
          h'.totalOut_eq, h'.running, h'.failure_eq⟩
      by_cases hgot : got = []
      · have hbefore : before = [] := by
          have := h'.active_eq
          rw [hidle] at this
          exact List.isEmpty_iff.mp (by simpa using this.symm)
        subst hbefore
        have houtput := h'.along.output_nil
        subst houtput
        rw [hgot, List.append_nil, List.append_nil] at hg
        rw [h'.exhausted hexhausted, ← hg] at hfinished
        rw [hgot]
        exact .none hfinished hpending
      · exact .some hfinished hg hgot hw
    · next hgo =>
      refine h'.stepTurn_spec hend ?_ hg hroom hw
      intro hp hbefore
      apply hgo
      rw [hend hp, hp, h'.active_eq, hbefore]
      rfl

/-- A read comes back within as many turns as the reader has in it. -/
theorem Reading.turnLoop_spec (turns : Nat) (h : r.Reading f data finished before output coming)
    (hg : given ++ got = finished ++ output) (hroom : got.length < room)
    (hw : r.weight coming + got.length ≤ most) (ht : r.weight coming < turns) :
    ∃ result r', r.turnLoop turns room got = some (result, r') ∧
      Delivered f data given most result r' := by
  induction turns generalizing r finished before output coming got with
  | zero => exact absurd ht (Nat.not_lt_zero _)
  | succ turns ih =>
    have hturn := h.turn_spec hg hroom hw
    unfold turnLoop
    cases hres : r.turn room got with
    | stop result r' =>
      rw [hres] at hturn
      exact ⟨result, r', rfl, hturn⟩
    | again r' got' =>
      rw [hres] at hturn
      obtain ⟨_, _, _, _, h', hg', hroom', hw', hless⟩ := hturn
      exact ih h' hg' hroom' hw' (by omega)

theorem Delivered.record {result : Except Error Bytes} (h : Delivered f data given most result r) :
    Delivered f data given most result (r.record result) := by
  cases h with
  | some reading given_eq ne_nil less => exact .some reading given_eq ne_nil less
  | none reading pending_eq => exact .none reading pending_eq
  | error archive isPrefix error_eq => exact .error archive isPrefix error_eq

theorem Reading.read_spec {turns : Nat} (h : r.Reading f data finished before output coming)
    (hroom : 0 < room) (ht : r.weight coming < turns) :
    ∃ result r', r.read turns room = some (result, r') ∧
      Delivered f data (finished ++ output) (r.weight coming) result r' := by
  have hw : r.weight coming + ([] : Bytes).length ≤ r.weight coming := Nat.le_of_eq (Nat.add_zero _)
  obtain ⟨result, r', hloop, hd⟩ := h.turnLoop_spec turns (List.append_nil (finished ++ output)) hroom
    hw ht
  refine ⟨result, r'.record result, ?_, hd.record⟩
  simp only [read, h.failure_eq, attempt, h.running, if_neg (Nat.ne_of_gt hroom), hloop]
  rfl

end

/-- Reads until the end of data or an error, the `k`-th time into a buffer of `sizes k` bytes,
behind the bytes in `got`. -/
def drain {ε : Type} [DecodeEngine ε] (turns : Nat) (sizes : Nat → Nat) : (reads k : Nat) →
    Reader ε → (got : Bytes) → Option (Bytes × Option Error × Reader ε)
  | 0, _, _, _ => none
  | reads + 1, k, r, got =>
    match r.read turns (sizes k) with
    | none => none
    | some (.error e, r) => some (got, some e, r)
    | some (.ok [], r) => some (got, none, r)
    | some (.ok bs, r) => drain turns sizes reads (k + 1) r (got ++ bs)

/-- What reads to the end of data give: all of it, or a part and the error that the data ends in. -/
inductive Drained (f : Framing) (data : Bytes) : Bytes → Option Error → Reader Inflater → Prop
  | all {got : Bytes} {r : Reader Inflater} (archive : Archive f data got r.members .clean)
      (totalIn_eq : r.totalIn = data.length) (totalOut_eq : r.totalOut = got.length)
      (close_eq : r.close.1 = .ok ()) : Drained f data got none r
  | part {got out : Bytes} {members : Nat} {ending : Ending} {e : Error} {r : Reader Inflater}
      (archive : Archive f data out members ending) (isPrefix : got <+: out)
      (error_eq : ending.error? data.length = some e) : Drained f data got (some e) r

section
variable {f : Framing} {data finished before output coming : Bytes} {r : Reader Inflater}

theorem Reading.close_eq (h : r.Reading f data finished before output coming) :
    r.close.1 = .ok () := by
  have hf : DecodeEngine.finish r.engine = (.ok, { r.engine with ended := true, header := none }) :=
    if_neg (by rw [h.along.sound.running]; exact Bool.false_ne_true)
  simp only [close, release, h.running, hf, h.failure_eq]
  rfl

theorem Reading.drain_spec {turns : Nat} {sizes : Nat → Nat} (hsizes : ∀ k, 0 < sizes k) (reads k : Nat)
    (h : r.Reading f data finished before output coming) (ht : r.weight coming < turns)
    (hr : r.weight coming < reads) :
    ∃ got failure r', r.drain turns sizes reads k (finished ++ output) = some (got, failure, r') ∧
      Drained f data got failure r' := by
  induction reads generalizing k r finished before output coming with
  | zero => exact absurd hr (Nat.not_lt_zero _)
  | succ reads ih =>
    obtain ⟨result, r', hread, hd⟩ := h.read_spec (hsizes k) ht
    unfold drain
    rw [hread]
    cases hd with
    | @some bs _ _ _ coming' _ reading given_eq ne_nil less =>
      cases bs with
      | nil => exact absurd rfl ne_nil
      | cons b bs =>
        have hless : r'.weight coming' < r.weight coming := by
          rw [List.length_cons] at less
          omega
        simp only
        rw [given_eq]
        exact ih (k + 1) reading (Nat.lt_trans hless ht) (by omega)
    | none reading pending_eq =>
      have hin := reading.totalIn_eq
      have hbehind := reading.behind
      have hout := reading.totalOut_eq
      rw [pending_eq] at hin hbehind
      have harchive := hbehind _ _ _ .empty
      rw [List.append_nil] at harchive hout
      exact ⟨_, _, _, rfl, .all harchive hin hout reading.close_eq⟩
    | error archive isPrefix error_eq => exact ⟨_, _, _, rfl, .part archive isPrefix error_eq⟩

end

end Reader

end GzipStream
