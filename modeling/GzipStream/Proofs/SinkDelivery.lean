import GzipStream.Proofs.SinkDrain

/-!
# A drain delivers or reports

A drain offers all that is left until nothing is left, the sink takes nothing or it fails.
`s.Offering bs t rest` is the way there: writes that are taken in part or interrupted lead from `s`
with `bs` to `t` with `rest`. Where that halts decides the answer (`drain_eq_iff`), and the log of the
sink shows that no byte it accepted is offered again (`OffersLeft`).
-/

namespace GzipStream.Sink

variable {s t : Sink} {bs rest : Bytes} {log log' : List SinkCall} {n expected : Nat}

/-- Writes that offer all that is left, and are taken in part or interrupted. -/
inductive Offering : (s : Sink) → (bs : Bytes) → (t : Sink) → (rest : Bytes) → Prop
  | none (s : Sink) (bs : Bytes) : Offering s bs s bs
  | taken {s s' t : Sink} {bs rest : Bytes} {n : Nat} (write_eq : s.write bs = (.ok (n + 1), s'))
      (later : Offering s' (bs.drop (n + 1)) t rest) : Offering s bs t rest
  | interrupted {s s' t : Sink} {bs rest : Bytes} {f : IoFailure} (ne_nil : bs ≠ [])
      (write_eq : s.write bs = (.error f, s')) (interrupted : f.isInterrupted = true)
      (later : Offering s' bs t rest) : Offering s bs t rest

/-- Where a drain of `expected` bytes stops, with `rest` left over, and what it answers. -/
inductive Halts (expected : Nat) (s : Sink) (rest : Bytes) : Except Error Unit × Sink → Prop
  | delivered (nil : rest = []) : Halts expected s rest (.ok (), s)
  | nothing {t : Sink} (ne_nil : rest ≠ []) (write_eq : s.write rest = (.ok 0, t)) :
      Halts expected s rest (.error (.shortWrite (expected - rest.length) expected), t)
  | failed {t : Sink} {f : IoFailure} (ne_nil : rest ≠ []) (write_eq : s.write rest = (.error f, t))
      (final : f.isInterrupted = false) : Halts expected s rest (.error (.io f), t)

/-- A write that is taken takes no more than was offered. -/
theorem passed_write_ok (h : s.write bs = (.ok n, t)) : ∃ used,
    s.Passed t (bs.take n) used [.accepted bs.length n] ∧ n ≤ bs.length := by
  rcases s.write_spec bs with ⟨k, used, hk, hp, hle, -⟩ | ⟨f, hf, -⟩
  · rw [h] at hk hp
    cases hk
    exact ⟨used, hp, hle⟩
  · rw [h] at hf
    cases hf

theorem passed_write_error {f : IoFailure} (h : s.write bs = (.error f, t)) :
    s.Passed t [] [.failure f] [.refused bs.length] := by
  rcases s.write_spec bs with ⟨k, used, hk, -⟩ | ⟨f', hf, hp⟩
  · rw [h] at hk
    cases hk
  · rw [h] at hf hp
    cases hf
    exact hp

/-! ## Drains and where they halt -/

/-- Every write uses up an answer or shortens what is left, so the writes halt. -/
theorem exists_halts (expected : Nat) (s : Sink) (bs : Bytes) :
    ∃ t rest r, s.Offering bs t rest ∧ t.Halts expected rest r := by
  generalize hm : s.answers.length + bs.length = m
  induction m using Nat.strongRecOn generalizing s bs with
  | _ m ih =>
    by_cases hne : bs = []
    · exact ⟨s, bs, _, .none s bs, .delivered hne⟩
    rcases hw : s.write bs with ⟨f | n, s'⟩
    · cases hf : f.isInterrupted with
      | false => exact ⟨s, bs, _, .none s bs, .failed hne hw hf⟩
      | true =>
        have hlen := congrArg List.length (passed_write_error hw).answers_eq
        rw [List.length_append, List.length_singleton] at hlen
        obtain ⟨t, rest, r, ho, hr⟩ := ih _ (by omega) s' bs rfl
        exact ⟨t, rest, r, .interrupted hne hw hf ho, hr⟩
    · cases n with
      | zero => exact ⟨s, bs, _, .none s bs, .nothing hne hw⟩
      | succ n =>
        obtain ⟨used, hp, hle⟩ := passed_write_ok hw
        have hlen := congrArg List.length hp.answers_eq
        rw [List.length_append] at hlen
        obtain ⟨t, rest, r, ho, hr⟩ := ih _ (by rw [← hm, List.length_drop]; omega) s'
          (bs.drop (n + 1)) rfl
        exact ⟨t, rest, r, .taken hw ho, hr⟩

theorem Halts.drainWithin {r : Except Error Unit × Sink} (h : s.Halts expected rest r)
    {tries written : Nat} (ht : 0 < tries) (hw : written + rest.length = expected) :
    s.drainWithin tries rest written expected = r := by
  obtain ⟨tries, rfl⟩ : ∃ k, tries = k + 1 := ⟨tries - 1, by omega⟩
  have hwritten : expected - rest.length = written := by omega
  unfold Sink.drainWithin
  cases h with
  | delivered nil => rw [if_pos (List.isEmpty_iff.mpr nil)]
  | nothing ne_nil write_eq =>
    rw [if_neg (by rwa [List.isEmpty_iff]), write_eq, hwritten]
    rfl
  | failed ne_nil write_eq final =>
    rw [if_neg (by rwa [List.isEmpty_iff]), write_eq]
    simp only
    rw [if_neg (by rw [final]; exact Bool.false_ne_true)]

/-- A drain goes the way of the writes. -/
theorem Offering.drainWithin (h : s.Offering bs t rest) {r : Except Error Unit × Sink}
    (hr : t.Halts expected rest r) {tries written : Nat} (ht : s.answers.length + bs.length < tries)
    (hw : written + bs.length = expected) : s.drainWithin tries bs written expected = r := by
  induction h generalizing tries written with
  | none s bs => exact hr.drainWithin (by omega) hw
  | @taken s s' t bs rest n write_eq later ih =>
    obtain ⟨used, hp, hle⟩ := passed_write_ok write_eq
    have hlen := congrArg List.length hp.answers_eq
    rw [List.length_append] at hlen
    obtain ⟨tries, rfl⟩ : ∃ k, tries = k + 1 := ⟨tries - 1, by omega⟩
    have hne : ¬ bs.isEmpty = true := by
      rw [List.isEmpty_iff]
      rintro rfl
      cases hle
    unfold Sink.drainWithin
    rw [if_neg hne, write_eq]
    exact ih hr (by rw [List.length_drop]; omega) (by rw [List.length_drop]; omega)
  | @interrupted s s' t bs rest f ne_nil write_eq interrupted later ih =>
    have hlen := congrArg List.length (passed_write_error write_eq).answers_eq
    rw [List.length_append, List.length_singleton] at hlen
    obtain ⟨tries, rfl⟩ : ∃ k, tries = k + 1 := ⟨tries - 1, by omega⟩
    unfold Sink.drainWithin
    rw [if_neg (by rwa [List.isEmpty_iff]), write_eq]
    simp only
    rw [if_pos interrupted]
    exact ih hr (by omega) hw

/-- A drain answers what the halt of its writes says. -/
theorem drain_eq_iff {r : Except Error Unit × Sink} : s.drain bs = r ↔
    ∃ t rest, s.Offering bs t rest ∧ t.Halts bs.length rest r := by
  have hdrain {t : Sink} {rest : Bytes} {r' : Except Error Unit × Sink} (ho : s.Offering bs t rest)
      (hr : t.Halts bs.length rest r') : s.drain bs = r' :=
    ho.drainWithin hr (Nat.lt_succ_self _) (Nat.zero_add _)
  constructor
  · rintro rfl
    obtain ⟨t, rest, r, ho, hr⟩ := exists_halts bs.length s bs
    rw [hdrain ho hr]
    exact ⟨t, rest, ho, hr⟩
  · rintro ⟨t, rest, ho, hr⟩
    exact hdrain ho hr

/-! ## The log of the writes -/

/-- All bytes that a log says were accepted. -/
def accepted : List SinkCall → Nat
  | [] => 0
  | .accepted _ n :: log => n + accepted log
  | .refused _ :: log => accepted log
  | .flushed :: log => accepted log

/-- Every write of the log offers exactly what is left of `left` bytes, none that was accepted. -/
def OffersLeft : (left : Nat) → (log : List SinkCall) → Prop
  | _, [] => True
  | left, .accepted offered n :: log => offered = left ∧ n ≤ left ∧ OffersLeft (left - n) log
  | left, .refused offered :: log => offered = left ∧ OffersLeft left log
  | _, .flushed :: _ => False

theorem accepted_append (log log' : List SinkCall) :
    accepted (log ++ log') = accepted log + accepted log' := by
  induction log with
  | nil => exact (Nat.zero_add _).symm
  | cons c log ih => cases c <;> simp [accepted, ih, Nat.add_assoc]

theorem OffersLeft.append {left : Nat} (h : OffersLeft left log)
    (h' : OffersLeft (left - accepted log) log') : OffersLeft left (log ++ log') := by
  induction log generalizing left with
  | nil => exact h'
  | cons c log ih =>
    cases c with
    | accepted offered n =>
      obtain ⟨heq, hle, hlater⟩ := h
      exact ⟨heq, hle, ih hlater (by rwa [Nat.sub_sub])⟩
    | refused offered => exact ⟨h.1, ih h.2 h'⟩
    | flushed => exact h.elim

/-- What writes on the way from `s` to `t` did with the first of `bs`. -/
structure Delivered (s t : Sink) (bs rest out : Bytes) (log : List SinkCall) : Prop where
  passed : ∃ used, s.Passed t out used log
  split : out ++ rest = bs
  length_eq : out.length = accepted log
  offers : OffersLeft bs.length log

theorem Offering.delivered (h : s.Offering bs t rest) :
    ∃ out log, s.Delivered t bs rest out log := by
  induction h with
  | none s bs => exact ⟨[], [], ⟨[], .refl s⟩, rfl, rfl, trivial⟩
  | @taken s s' t bs rest n write_eq later ih =>
    obtain ⟨out, log, ⟨used', hp'⟩, hsplit, hlen, hoffers⟩ := ih
    obtain ⟨used, hp, hle⟩ := passed_write_ok write_eq
    rw [List.length_drop] at hoffers
    refine ⟨_, _, ⟨_, hp.trans hp'⟩, ?_, ?_, rfl, hle, hoffers⟩
    · rw [List.append_assoc, hsplit, List.take_append_drop]
    · rw [List.length_append, List.length_take_of_le hle, hlen]
      rfl
  | @interrupted s s' t bs rest f ne_nil write_eq interrupted later ih =>
    obtain ⟨out, log, ⟨used', hp'⟩, hsplit, hlen, hoffers⟩ := ih
    exact ⟨_, _, ⟨_, (passed_write_error write_eq).trans hp'⟩, hsplit, hlen, rfl, hoffers⟩

/-- The write at which a drain halts adds nothing to what was delivered. -/
theorem Delivered.halted {out : Bytes} (h : s.Delivered t bs rest out log)
    {r : Except Error Unit × Sink} (hr : t.Halts expected rest r) :
    ∃ last, s.Delivered r.2 bs rest out (log ++ last) := by
  obtain ⟨⟨used, hp⟩, hsplit, hlen, hoffers⟩ := h
  have hleft : bs.length - accepted log = rest.length := by
    rw [← hlen, ← hsplit, List.length_append, Nat.add_sub_cancel_left]
  cases hr with
  | delivered nil => exact ⟨[], by rw [List.append_nil]; exact ⟨⟨used, hp⟩, hsplit, hlen, hoffers⟩⟩
  | nothing ne_nil write_eq =>
    obtain ⟨used', hp', -⟩ := passed_write_ok write_eq
    have hnone := hp.trans hp'
    rw [List.take_zero, List.append_nil] at hnone
    exact ⟨_, ⟨_, hnone⟩, hsplit, by rw [hlen, accepted_append]; rfl,
      hoffers.append ⟨hleft.symm, Nat.zero_le _, trivial⟩⟩
  | failed ne_nil write_eq final =>
    have hnone := hp.trans (passed_write_error write_eq)
    rw [List.append_nil] at hnone
    exact ⟨_, ⟨_, hnone⟩, hsplit, by rw [hlen, accepted_append]; rfl,
      hoffers.append ⟨hleft.symm, trivial⟩⟩

/-- A drain answers well exactly if the sink accepted all the bytes, in order; otherwise it accepted
some first part of them and not all. Every write offers exactly what was not accepted before. A short
write is reported exactly where the sink first accepts nothing, with the number of bytes that it
accepted, and a failure exactly where the sink first fails and is not interrupted. -/
theorem drain_delivers_or_reports (s : Sink) (bs : Bytes) :
    (∃ out log, (s.drain bs).2.data.toList = s.data.toList ++ out ∧
      (s.drain bs).2.calls.toList = s.calls.toList ++ log ∧ OffersLeft bs.length log ∧
      out.length = accepted log ∧ ((s.drain bs).1 = .ok () ↔ out = bs) ∧
      ∀ e, (s.drain bs).1 = .error e → out <+: bs ∧ out.length < bs.length ∧
        (e = .shortWrite out.length bs.length ∨ ∃ f, e = .io f ∧ f.isInterrupted = false)) ∧
    ∀ t,
      (s.drain bs = (.ok (), t) ↔ s.Offering bs t []) ∧
      (∀ written expected, s.drain bs = (.error (.shortWrite written expected), t) ↔
        ∃ s' rest, s.Offering bs s' rest ∧ rest ≠ [] ∧ s'.write rest = (.ok 0, t) ∧
          written = bs.length - rest.length ∧ expected = bs.length) ∧
      ∀ f, s.drain bs = (.error (.io f), t) ↔
        ∃ s' rest, s.Offering bs s' rest ∧ rest ≠ [] ∧ s'.write rest = (.error f, t) ∧
          f.isInterrupted = false := by
  refine ⟨?_, fun t => ⟨?_, fun written expected => ?_, fun f => ?_⟩⟩
  · obtain ⟨t, rest, ho, hr⟩ := drain_eq_iff.mp (rfl : s.drain bs = s.drain bs)
    obtain ⟨out, log, hd⟩ := ho.delivered
    obtain ⟨last, ⟨used, hp⟩, hsplit, hlen, hoffers⟩ := hd.halted hr
    refine ⟨out, log ++ last, hp.data_eq, hp.calls_eq, hoffers, hlen, ?_⟩
    have hrest : out = bs ↔ rest = [] := by
      rw [← hsplit]
      exact List.self_eq_append_right
    have hshort (hne : rest ≠ []) : out <+: bs ∧ out.length < bs.length := by
      have hpos := List.length_pos_iff.mpr hne
      have htotal := congrArg List.length hsplit
      rw [List.length_append] at htotal
      exact ⟨⟨rest, hsplit⟩, by omega⟩
    rw [hrest]
    generalize s.drain bs = r at hr
    cases hr with
    | delivered nil => exact ⟨⟨fun _ => nil, fun _ => rfl⟩, nofun⟩
    | nothing ne_nil write_eq =>
      refine ⟨⟨nofun, fun h => absurd h ne_nil⟩, ?_⟩
      rintro e ⟨⟩
      obtain ⟨hfirst, hlt⟩ := hshort ne_nil
      refine ⟨hfirst, hlt, .inl ?_⟩
      rw [← hsplit, List.length_append, Nat.add_sub_cancel]
    | @failed t' f ne_nil write_eq final =>
      refine ⟨⟨nofun, fun h => absurd h ne_nil⟩, ?_⟩
      rintro e ⟨⟩
      obtain ⟨hfirst, hlt⟩ := hshort ne_nil
      exact ⟨hfirst, hlt, .inr ⟨f, rfl, final⟩⟩
  · rw [drain_eq_iff]
    constructor
    · rintro ⟨s', rest, ho, hr⟩
      cases hr with
      | delivered nil => rwa [nil] at ho
    · exact fun ho => ⟨t, [], ho, .delivered rfl⟩
  · rw [drain_eq_iff]
    constructor
    · rintro ⟨s', rest, ho, hr⟩
      cases hr with
      | nothing ne_nil write_eq => exact ⟨s', rest, ho, ne_nil, write_eq, rfl, rfl⟩
    · rintro ⟨s', rest, ho, hne, hw, rfl, rfl⟩
      exact ⟨s', rest, ho, .nothing hne hw⟩
  · rw [drain_eq_iff]
    constructor
    · rintro ⟨s', rest, ho, hr⟩
      cases hr with
      | failed ne_nil write_eq final => exact ⟨s', rest, ho, ne_nil, write_eq, final⟩
    · rintro ⟨s', rest, ho, hne, hw, hfinal⟩
      exact ⟨s', rest, ho, .failed hne hw hfinal⟩

/-- Two bytes are taken, one write is interrupted, and the next takes nothing. -/
example : (({ answers := [.accept 2, .failure (.plain .interrupted), .accept 0] } : Sink).drain
    [1, 2, 3]).1 = .error (.shortWrite 2 3) := rfl

end GzipStream.Sink
