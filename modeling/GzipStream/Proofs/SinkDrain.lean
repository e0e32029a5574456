import GzipStream.Sink

/-!
# What reaches a sink

`Sink.Passed` says which bytes a sink accepted on the way from one state to another, and which of
its answers it gave. `drain_spec` says that draining a byte string passes a prefix of it, in order,
and all of it unless a write fails. A sink that is `Willing` passes all (`Willing.drain`).
-/

namespace GzipStream.Sink

/-- The sink accepted `out`, gave the answers `used` and logged `log`. -/
structure Passed (s s' : Sink) (out : Bytes) (used : List SinkAnswer) (log : List SinkCall) : Prop where
  data_eq : s'.data.toList = s.data.toList ++ out
  answers_eq : s.answers = used ++ s'.answers
  calls_eq : s'.calls.toList = s.calls.toList ++ log

/-- No write failed: every failure was an interruption, and none accepted nothing. -/
structure Unfailing (used : List SinkAnswer) (log : List SinkCall) : Prop where
  interrupted : ∀ f, .failure f ∈ used → f.isInterrupted = true
  accepted : ∀ offered, .accepted offered 0 ∉ log

theorem Passed.refl (s : Sink) : s.Passed s [] [] [] := by
  constructor <;> simp

theorem Passed.trans {s t u : Sink} {out out' : Bytes} {used used' : List SinkAnswer}
    {log log' : List SinkCall} (h : s.Passed t out used log) (h' : t.Passed u out' used' log') :
    s.Passed u (out ++ out') (used ++ used') (log ++ log') := by
  constructor
  · rw [h'.data_eq, h.data_eq, List.append_assoc]
  · rw [h.answers_eq, h'.answers_eq, List.append_assoc]
  · rw [h'.calls_eq, h.calls_eq, List.append_assoc]

theorem unfailing_append {used used' : List SinkAnswer} {log log' : List SinkCall} :
    Unfailing (used ++ used') (log ++ log') ↔ Unfailing used log ∧ Unfailing used' log' := by
  constructor
  · intro h
    refine ⟨⟨?_, ?_⟩, ⟨?_, ?_⟩⟩
    · exact fun f hf => h.interrupted f (List.mem_append_left _ hf)
    · exact fun n hn => h.accepted n (List.mem_append_left _ hn)
    · exact fun f hf => h.interrupted f (List.mem_append_right _ hf)
    · exact fun n hn => h.accepted n (List.mem_append_right _ hn)
  · rintro ⟨h, h'⟩
    constructor
    · intro f hf
      rcases List.mem_append.mp hf with hf | hf
      · exact h.interrupted f hf
      · exact h'.interrupted f hf
    · intro n hn
      rcases List.mem_append.mp hn with hn | hn
      · exact h.accepted n hn
      · exact h'.accepted n hn

theorem passed_accept (s : Sink) (bs : Bytes) (n : Nat) :
    s.Passed (s.accept bs n).2 (bs.take n) [] [.accepted bs.length n] := by
  constructor <;> simp [accept]

/-- What one write does, by its answer. -/
theorem write_spec (s : Sink) (bs : Bytes) :
    (∃ n used, (s.write bs).1 = .ok n ∧ s.Passed (s.write bs).2 (bs.take n) used [.accepted bs.length n] ∧
      n ≤ bs.length ∧ ∀ f, .failure f ∉ used) ∨
    (∃ f, (s.write bs).1 = .error f ∧
      s.Passed (s.write bs).2 [] [.failure f] [.refused bs.length]) := by
  have hfit : s.fitting bs.length ≤ bs.length := by
    unfold fitting
    split
    · exact Nat.min_le_left _ _
    · exact Nat.le_refl _
  unfold write
  split
  · exact .inl ⟨_, [], rfl, passed_accept _ _ _, hfit, by simp⟩
  · next most rest ha =>
    refine .inl ⟨_, [.accept most], rfl, ?_, ?_, by simp⟩
    · have := passed_accept { s with answers := rest } bs (min most (s.fitting bs.length))
      exact ⟨this.data_eq, by rw [ha]; rfl, this.calls_eq⟩
    · exact Nat.le_trans (Nat.min_le_right _ _) hfit
  · next f rest ha => exact .inr ⟨f, rfl, by simp, by rw [ha]; rfl, by simp⟩

/-- What was drained: a prefix, which is all unless a write failed. -/
structure DrainedTo (s : Sink) (bs : Bytes) (r : Except Error Unit × Sink) (out : Bytes)
    (used : List SinkAnswer) (log : List SinkCall) : Prop where
  passed : s.Passed r.2 out used log
  isPrefix : out <+: bs
  ok_of_unfailing : Unfailing used log → r.1 = .ok ()
  all_of_ok : r.1 = .ok () → out = bs

/-- A write in front of a drain. -/
theorem DrainedTo.after {s t : Sink} {bs out : Bytes} {n : Nat} {used used' : List SinkAnswer}
    {log log' : List SinkCall} {r : Except Error Unit × Sink} (hp : s.Passed t (bs.take n) used log)
    (h : t.DrainedTo (bs.drop n) r out used' log') :
    s.DrainedTo bs r (bs.take n ++ out) (used ++ used') (log ++ log') where
  passed := hp.trans h.passed
  isPrefix := by
    have := (List.prefix_append_right_inj (bs.take n)).mpr h.isPrefix
    rwa [List.take_append_drop] at this
  ok_of_unfailing hu := h.ok_of_unfailing (unfailing_append.mp hu).2
  all_of_ok hr := by rw [h.all_of_ok hr, List.take_append_drop]

theorem drainWithin_spec (tries : Nat) (s : Sink) (bs : Bytes) (written expected : Nat)
    (ht : s.answers.length + bs.length < tries) : ∃ out used log,
      s.DrainedTo bs (s.drainWithin tries bs written expected) out used log := by
  induction tries generalizing s bs written with
  | zero => exact absurd ht (Nat.not_lt_zero _)
  | succ tries ih =>
    unfold drainWithin
    split
    · next he =>
      have hbs : bs = [] := List.isEmpty_iff.mp he
      subst hbs
      exact ⟨[], [], [], Passed.refl s, List.nil_prefix, fun _ => rfl, fun _ => rfl⟩
    · next hne =>
      have hpos : 0 < bs.length := by
        rw [List.isEmpty_iff] at hne
        exact List.length_pos_iff.mpr hne
      rcases hw : s.write bs with ⟨answer, s'⟩
      rcases s.write_spec bs with ⟨n, used, hn, hp, hle, hused⟩ | ⟨f, hf, hp⟩
      · rw [hw] at hn hp
        obtain rfl : answer = .ok n := hn
        cases n with
        | zero =>
          refine ⟨_, _, _, hp, List.take_prefix _ _, ?_, nofun⟩
          intro hu
          exact absurd List.mem_cons_self (hu.accepted bs.length)
        | succ n =>
          have hlen := congrArg List.length hp.answers_eq
          rw [List.length_append] at hlen
          obtain ⟨out, used', log', hd⟩ := ih s' (bs.drop (n + 1)) (written + (n + 1))
            (by rw [List.length_drop]; simp only at hlen; omega)
          exact ⟨_, _, _, hd.after hp⟩
      · rw [hw] at hf hp
        obtain rfl : answer = .error f := hf
        simp only
        split
        · have hlen := congrArg List.length hp.answers_eq
          rw [List.length_append, List.length_singleton] at hlen
          obtain ⟨out, used', log', hd⟩ := ih s' bs written (by simp only at hlen; omega)
          exact ⟨_, _, _, DrainedTo.after (n := 0) hp hd⟩
        · next hi =>
          refine ⟨_, _, _, hp, List.nil_prefix, ?_, nofun⟩
          intro hu
          exact absurd (hu.interrupted f List.mem_cons_self) hi

theorem drain_spec (s : Sink) (bs : Bytes) :
    ∃ out used log, s.DrainedTo bs (s.drain bs) out used log :=
  drainWithin_spec _ s bs 0 bs.length (Nat.lt_succ_self _)

theorem passed_flush (s : Sink) : s.Passed s.flush.2 [] [] [.flushed] := by
  unfold flush
  simp only
  split <;> constructor <;> simp

/-! ## Sinks that accept what they are given -/

/-- No limit and no failure but interruptions, and every write accepts something. -/
structure Willing (s : Sink) : Prop where
  limit_eq : s.limit = none
  answers : ∀ a ∈ s.answers,
    (∃ n, a = .accept (n + 1)) ∨ ∃ f : IoFailure, a = .failure f ∧ f.isInterrupted = true
  flushes : ∀ f ∈ s.flushes, f = none

variable {s : Sink}

theorem Willing.tail (h : s.Willing) {a : SinkAnswer} {rest : List SinkAnswer}
    (ha : s.answers = a :: rest) : Willing { s with answers := rest } := by
  refine ⟨h.limit_eq, ?_, h.flushes⟩
  intro a' hmem
  exact h.answers a' (by rw [ha]; exact List.mem_cons_of_mem _ hmem)

theorem Willing.write (h : s.Willing) {bs : Bytes} (hne : bs ≠ []) :
    (s.write bs).2.Willing ∧ (s.write bs).1 ≠ .ok 0 ∧
      ∀ f, (s.write bs).1 = .error f → f.isInterrupted = true := by
  have hpos := List.length_pos_iff.mpr hne
  have hfit : s.fitting bs.length = bs.length := by
    unfold fitting
    rw [h.limit_eq]
  unfold Sink.write
  split
  · next ha =>
    refine ⟨⟨h.limit_eq, h.answers, h.flushes⟩, ?_, nofun⟩
    rw [hfit]
    intro hzero
    have hlen : bs.length = 0 := Except.ok.inj hzero
    omega
  · next most rest ha =>
    have htail := h.tail ha
    refine ⟨⟨htail.limit_eq, htail.answers, htail.flushes⟩, ?_, nofun⟩
    rcases h.answers (.accept most) (by rw [ha]; exact List.mem_cons_self) with ⟨n, hn⟩ | ⟨f, hf, -⟩
    · cases hn
      rw [hfit]
      intro hzero
      have hmin : min (n + 1) bs.length = 0 := Except.ok.inj hzero
      omega
    · cases hf
  · next f rest ha =>
    have htail := h.tail ha
    refine ⟨⟨htail.limit_eq, htail.answers, htail.flushes⟩, nofun, ?_⟩
    rintro f' ⟨⟩
    rcases h.answers (.failure f) (by rw [ha]; exact List.mem_cons_self) with ⟨n, hn⟩ | ⟨f', hf, hi⟩
    · cases hn
    · cases hf
      exact hi

theorem Willing.drainWithin (h : s.Willing) (tries : Nat) (bs : Bytes) (written expected : Nat)
    (ht : s.answers.length + bs.length < tries) :
    (s.drainWithin tries bs written expected).1 = .ok () ∧
      (s.drainWithin tries bs written expected).2.Willing := by
  induction tries generalizing s bs written with
  | zero => exact absurd ht (Nat.not_lt_zero _)
  | succ tries ih =>
    unfold Sink.drainWithin
    split
    · exact ⟨rfl, h⟩
    · next hne =>
      rw [List.isEmpty_iff] at hne
      obtain ⟨hwilling, hzero, hfailure⟩ := h.write hne
      have hpos := List.length_pos_iff.mpr hne
      rcases hw : s.write bs with ⟨answer, s'⟩
      rw [hw] at hwilling hzero hfailure
      have hs' : s'.Willing := hwilling
      rcases s.write_spec bs with ⟨n, used, hn, hp, -, -⟩ | ⟨f, hf, hp⟩
      · rw [hw] at hn hp
        obtain rfl : answer = .ok n := hn
        have hlen := congrArg List.length hp.answers_eq
        rw [List.length_append] at hlen
        cases n with
        | zero => exact absurd rfl hzero
        | succ n =>
          exact ih hs' (bs.drop (n + 1)) (written + (n + 1))
            (by rw [List.length_drop]; simp only at hlen; omega)
      · rw [hw] at hf hp
        obtain rfl : answer = .error f := hf
        have hlen := congrArg List.length hp.answers_eq
        rw [List.length_append, List.length_singleton] at hlen
        simp only [hfailure f rfl, if_true]
        exact ih hs' bs written (by simp only at hlen; omega)

theorem Willing.drain (h : s.Willing) (bs : Bytes) : (s.drain bs).1 = .ok () ∧
    (s.drain bs).2.Willing ∧ (s.drain bs).2.data.toList = s.data.toList ++ bs := by
  obtain ⟨hok, hwilling⟩ := h.drainWithin (s.answers.length + bs.length + 1) bs 0 bs.length
    (Nat.lt_succ_self _)
  obtain ⟨out, used, log, hd⟩ := s.drain_spec bs
  refine ⟨hok, hwilling, ?_⟩
  rw [hd.passed.data_eq, hd.all_of_ok hok]

theorem Willing.flush (h : s.Willing) : s.flush.1 = .ok () ∧ s.flush.2.Willing ∧
    s.flush.2.data = s.data := by
  unfold Sink.flush
  simp only
  split
  · next f rest hf =>
    have := h.flushes (some f) (by rw [hf]; exact List.mem_cons_self)
    cases this
  · next rest hf =>
    refine ⟨rfl, ⟨h.limit_eq, h.answers, ?_⟩, rfl⟩
    exact fun f hmem => h.flushes f (by rw [hf]; exact List.mem_cons_of_mem _ hmem)
  · next hf => exact ⟨rfl, ⟨h.limit_eq, h.answers, h.flushes⟩, rfl⟩

end GzipStream.Sink
