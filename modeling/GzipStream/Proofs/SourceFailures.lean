import GzipStream.Reader

/-!
# Failures of a source

A read that fails in the source can be tried again. `Reader.withoutFailures` is the reader over a
source that does not fail; a turn that fails leaves it as it is, and any other turn is a turn of it
(`turn_cases`). So calls in which failed reads are repeated give what they give over the source
without failures (`source_failures_lose_nothing`).
-/

namespace GzipStream

def SourceItem.isFailure : SourceItem → Bool
  | .failure _ => true
  | _ => false

/-- The failure of a source or a sink that a call reports. -/
def ioFailureOf {α : Type} : Except Error α → Option IoFailure
  | .error e => e.ioFailure?
  | .ok _ => none

theorem Status.ioFailure_of_progress {s : Status} {e : Error} (h : s.progress = .error e) :
    e.ioFailure? = none := by
  cases s <;> cases h <;> rfl

theorem Status.ioFailure_of_check {s : Status} {e : Error} (h : s.check = .error e) :
    e.ioFailure? = none := by
  cases s <;> cases h <;> rfl

theorem Step.ioFailure_error (s : Step) : s.error.ioFailure? = none := by
  unfold error
  split
  · rfl
  · next he _ => exact Status.ioFailure_of_progress he
  · rfl

namespace Source

/-- The source without its failures. -/
def withoutFailures (s : Source) : Source := s.filter fun item => !item.isFailure

variable {s s' : Source} {capacity : Nat}

/-- A failed read takes failures from the source and nothing else. -/
theorem readThrough_error {f : IoFailure} (h : s.readThrough capacity = (.error f, s')) :
    s'.withoutFailures = s.withoutFailures ∧ f.isInterrupted = false ∧ s'.length < s.length := by
  induction s with
  | nil => cases h
  | cons item s ih =>
    cases item with
    | data bs => cases h
    | endOfData => cases h
    | failure f' =>
      unfold readThrough at h
      split at h
      · obtain ⟨heq, hi, hlen⟩ := ih h
        exact ⟨heq, hi, Nat.lt_succ_of_lt hlen⟩
      · next hi =>
        cases h
        exact ⟨rfl, eq_false_of_ne_true hi, Nat.lt_succ_self _⟩

/-- Any other read is one of the source without its failures. -/
theorem readThrough_ok {bs : Bytes} (h : s.readThrough capacity = (.ok bs, s')) :
    s.withoutFailures.readThrough capacity = (.ok bs, s'.withoutFailures) ∧ s'.length ≤ s.length := by
  induction s with
  | nil =>
    cases h
    exact ⟨rfl, Nat.le_refl _⟩
  | cons item s ih =>
    cases item with
    | data bs' =>
      cases h
      split
      · next hleft => exact ⟨by simp [withoutFailures, readThrough, read, SourceItem.isFailure, hleft],
          Nat.le_succ _⟩
      · next hleft => exact ⟨by simp [withoutFailures, readThrough, read, SourceItem.isFailure, hleft],
          Nat.le_refl _⟩
    | endOfData =>
      cases h
      exact ⟨rfl, Nat.le_succ _⟩
    | failure f =>
      unfold readThrough at h
      split at h
      · obtain ⟨heq, hlen⟩ := ih h
        exact ⟨heq, Nat.le_succ_of_le hlen⟩
      · cases h

end Source

namespace Reader

variable {ε : Type}

/-- The reader over a source that does not fail. -/
def withoutFailures (r : Reader ε) : Reader ε := { r with source := r.source.withoutFailures }

def Turn.withoutFailures : Turn ε → Turn ε
  | .stop result r => .stop result r.withoutFailures
  | .again r got => .again r.withoutFailures got

/-- What no turn changes. -/
structure Kept (r r' : Reader ε) : Prop where
  failure_eq : r'.failure = r.failure
  released_eq : r'.released = r.released

variable {r r' r'' q : Reader ε} {turns room : Nat} {got : Bytes} {result : Except Error Bytes}

theorem Kept.trans (h : r.Kept r') (h' : r'.Kept r'') : r.Kept r'' :=
  ⟨h'.failure_eq.trans h.failure_eq, h'.released_eq.trans h.released_eq⟩

theorem Kept.of_same (h : r'.withoutFailures = r.withoutFailures) : r.Kept r' :=
  ⟨show r'.withoutFailures.failure = r.withoutFailures.failure by rw [h],
    show r'.withoutFailures.released = r.withoutFailures.released by rw [h]⟩

theorem kept_withoutFailures (r : Reader ε) : r.Kept r.withoutFailures := ⟨rfl, rfl⟩

/-- No failure of a source was kept. -/
def NoneKept (r : Reader ε) : Prop := ∀ e, r.failure = some e → e.ioFailure? = none

theorem NoneKept.of_kept (h : r.NoneKept) (hkept : r.Kept r') : r'.NoneKept := by
  intro e he
  rw [hkept.failure_eq] at he
  exact h e he

theorem noneKept_record (h : r.NoneKept) (result : Except Error Bytes) :
    (r.record result).NoneKept := by
  unfold record
  split
  · exact h
  · next e hio =>
    rintro _ ⟨⟩
    cases e with
    | io f => exact absurd rfl (hio f)
    | _ => rfl
  · exact h

theorem record_withoutFailures (r : Reader ε) (result : Except Error Bytes) :
    r.withoutFailures.record result = (r.record result).withoutFailures := by
  unfold record
  split <;> rfl

/-- The end of a turn in which the source did not fail. -/
def Turn.Plain (r : Reader ε) : Turn ε → Prop
  | .stop result r' => ioFailureOf result = none ∧ r.Kept r'
  | .again r' _ => r'.source.length ≤ r.source.length ∧ r.Kept r'

theorem Turn.Plain.after {t : Turn ε} (h : t.Plain r') (hlen : r'.source.length ≤ r.source.length)
    (hkept : r.Kept r') : t.Plain r := by
  cases t with
  | stop result q => exact ⟨h.1, hkept.trans h.2⟩
  | again q got => exact ⟨Nat.le_trans h.1 hlen, hkept.trans h.2⟩

theorem fetch_error {f : IoFailure} (h : r.fetch = (some f, r')) :
    r'.withoutFailures = r.withoutFailures ∧ f.isInterrupted = false ∧
      r'.source.length < r.source.length ∧ r.pending = [] ∧ r.exhausted = false := by
  unfold fetch at h
  split at h
  · next hempty =>
    simp only [Bool.and_eq_true, List.isEmpty_iff, Bool.not_eq_true'] at hempty
    rcases hread : r.source.readThrough r.options.effectiveBufferSize with ⟨answer, s⟩
    simp only [hread] at h
    cases answer with
    | ok bs => cases h
    | error f' =>
      cases h
      obtain ⟨heq, hi, hlen⟩ := Source.readThrough_error hread
      refine ⟨?_, hi, hlen, hempty⟩
      simp only [withoutFailures, heq]
  · cases h

theorem fetch_ok (h : r.fetch = (none, r')) :
    r.withoutFailures.fetch = (none, r'.withoutFailures) ∧ r'.source.length ≤ r.source.length ∧
      r.Kept r' := by
  unfold fetch at h ⊢
  split at h
  · next hempty =>
    rw [if_pos (show (r.withoutFailures.pending.isEmpty && !r.withoutFailures.exhausted) = true from
      hempty)]
    rcases hread : r.source.readThrough r.options.effectiveBufferSize with ⟨answer, s⟩
    simp only [hread] at h
    cases answer with
    | error f => cases h
    | ok bs =>
      cases h
      obtain ⟨heq, hlen⟩ := Source.readThrough_ok hread
      refine ⟨?_, hlen, rfl, rfl⟩
      simp only [withoutFailures, heq]
  · next hempty =>
    cases h
    rw [if_neg (show ¬ (r.withoutFailures.pending.isEmpty && !r.withoutFailures.exhausted) = true from
      hempty)]
    exact ⟨rfl, Nat.le_refl _, rfl, rfl⟩

variable [DecodeEngine ε]

theorem stepTurn_withoutFailures (r : Reader ε) (room : Nat) (got : Bytes) :
    r.withoutFailures.stepTurn room got = (r.stepTurn room got).withoutFailures := by
  simp only [stepTurn, withoutFailures]
  split
  · split
    · rfl
    · rw [apply_ite Turn.withoutFailures]
      rfl
  · simp only [apply_ite Turn.withoutFailures]
    rfl
  · simp only [apply_ite Turn.withoutFailures]
    rfl
  · rfl

theorem stepTurn_plain (r : Reader ε) (room : Nat) (got : Bytes) :
    (r.stepTurn room got).Plain r := by
  simp only [stepTurn]
  split
  · split
    · next he => exact ⟨Status.ioFailure_of_check he, rfl, rfl⟩
    · split
      · exact ⟨Nat.le_refl _, rfl, rfl⟩
      · exact ⟨rfl, rfl, rfl⟩
  · repeat' split
    all_goals exact ⟨by first | exact Nat.le_refl _ | rfl, rfl, rfl⟩
  · repeat' split
    all_goals exact ⟨by first | exact Nat.le_refl _ | rfl, rfl, rfl⟩
  · exact ⟨Step.ioFailure_error _, rfl, rfl⟩

/-- What a turn comes to: a failure of the source, which the reader without failures does not notice,
or what it comes to there. -/
inductive TurnCase (r : Reader ε) (room : Nat) (got : Bytes) : Turn ε → Prop
  | failed {f : IoFailure} {r' : Reader ε} (got_eq : got = []) (surfaces : f.isInterrupted = false)
      (same : r'.withoutFailures = r.withoutFailures) (less : r'.source.length < r.source.length) :
      TurnCase r room got (.stop (.error (.io f)) r')
  | plain {t : Turn ε} (turn_eq : r.withoutFailures.turn room got = t.withoutFailures)
      (plain : t.Plain r) : TurnCase r room got t

theorem turn_cases (r : Reader ε) (room : Nat) (got : Bytes) : r.TurnCase room got (r.turn room got) := by
  unfold turn
  split
  · next hstop => exact .plain (if_pos hstop) ⟨rfl, rfl, rfl⟩
  · next hstop =>
    have hclean : r.withoutFailures.turn room got = _ := if_neg hstop
    rcases hfetch : r.fetch with ⟨_ | f, r'⟩
    · obtain ⟨heq, hlen, hkept⟩ := fetch_ok hfetch
      rw [heq] at hclean
      simp only
      split
      · next hend => exact .plain (hclean.trans (if_pos hend)) ⟨rfl, hkept.failure_eq, hkept.released_eq⟩
      · next hgo =>
        refine .plain ?_ ((r'.stepTurn_plain room got).after hlen hkept)
        rw [hclean, ← stepTurn_withoutFailures]
        exact if_neg hgo
    · obtain ⟨heq, hi, hlen, hp, he⟩ := fetch_error hfetch
      refine .failed ?_ hi heq hlen
      simpa [hp, he] using hstop

/-- A loop that fails stops where the reader without failures goes on, with nothing in the buffer. -/
theorem turnLoop_failed {f : IoFailure} (h : r.turnLoop turns room got = some (.error (.io f), r')) :
    f.isInterrupted = false ∧ r.Kept r' ∧
      ∃ k, ∀ n, r.withoutFailures.turnLoop (k + n) room got = r'.withoutFailures.turnLoop n room [] := by
  induction turns generalizing r got with
  | zero => cases h
  | succ turns ih =>
    unfold turnLoop at h
    have hcase := r.turn_cases room got
    cases ht : r.turn room got with
    | stop result r₁ =>
      rw [ht] at h hcase
      cases h
      cases hcase with
      | failed got_eq surfaces same less =>
        refine ⟨surfaces, .of_same same, 0, ?_⟩
        intro n
        rw [Nat.zero_add, same, got_eq]
      | plain turn_eq plain => cases plain.1
    | again r₁ got₁ =>
      rw [ht] at h hcase
      cases hcase with
      | plain turn_eq plain =>
        obtain ⟨hi, hkept, k, hk⟩ := ih h
        refine ⟨hi, plain.2.trans hkept, k + 1, ?_⟩
        intro n
        rw [Nat.add_right_comm, turnLoop, turn_eq]
        exact hk n

theorem turnLoop_plain (h : r.turnLoop turns room got = some (result, r'))
    (hresult : ioFailureOf result = none) :
    r.withoutFailures.turnLoop turns room got = some (result, r'.withoutFailures) ∧ r.Kept r' := by
  induction turns generalizing r got with
  | zero => cases h
  | succ turns ih =>
    unfold turnLoop at h ⊢
    have hcase := r.turn_cases room got
    cases ht : r.turn room got with
    | stop result₁ r₁ =>
      rw [ht] at h hcase
      cases h
      cases hcase with
      | failed => cases hresult
      | plain turn_eq plain =>
        rw [turn_eq]
        exact ⟨rfl, plain.2⟩
    | again r₁ got₁ =>
      rw [ht] at h hcase
      cases hcase with
      | plain turn_eq plain =>
        rw [turn_eq]
        obtain ⟨heq, hkept⟩ := ih h
        exact ⟨heq, plain.2.trans hkept⟩

theorem turnLoop_mono {n m : Nat} (h : r.turnLoop n room got = some (result, r')) (hle : n ≤ m) :
    r.turnLoop m room got = some (result, r') := by
  induction n generalizing r got m with
  | zero => cases h
  | succ n ih =>
    cases m with
    | zero => exact absurd hle (Nat.not_succ_le_zero n)
    | succ m =>
      unfold turnLoop at h ⊢
      cases ht : r.turn room got with
      | stop result₁ r₁ =>
        rw [ht] at h
        exact h
      | again r₁ got₁ =>
        rw [ht] at h
        exact ih h (Nat.le_of_succ_le_succ hle)

/-- Where the reader without failures comes back, the reader comes back so too or fails, and from
there the former still comes back so. -/
theorem turnLoop_of_withoutFailures (h : r.withoutFailures.turnLoop turns room got = some (result, q)) :
    (∃ r', r.turnLoop turns room got = some (result, r') ∧ r'.withoutFailures = q ∧
      ioFailureOf result = none) ∨
    ∃ f r', r.turnLoop turns room got = some (.error (.io f), r') ∧
      r'.withoutFailures.turnLoop turns room [] = some (result, q) ∧
      r'.source.length < r.source.length := by
  induction turns generalizing r got with
  | zero => cases h
  | succ turns ih =>
    have hcase := r.turn_cases room got
    cases ht : r.turn room got with
    | stop result₁ r₁ =>
      rw [ht] at hcase
      cases hcase with
      | @failed f _ got_eq surfaces same less =>
        refine .inr ⟨f, r₁, ?_, ?_, less⟩
        · rw [turnLoop, ht]
        · rw [same, ← got_eq]
          exact h
      | plain turn_eq plain =>
        rw [turnLoop, turn_eq] at h
        cases h
        exact .inl ⟨r₁, by rw [turnLoop, ht], rfl, plain.1⟩
    | again r₁ got₁ =>
      rw [ht] at hcase
      cases hcase with
      | plain turn_eq plain =>
        rw [turnLoop, turn_eq] at h
        rw [turnLoop, ht]
        rcases ih h with hsame | ⟨f, r', hr', hrest, hless⟩
        · exact .inl hsame
        · exact .inr ⟨f, r', hr', turnLoop_mono hrest (Nat.le_succ turns),
            Nat.lt_of_lt_of_le hless plain.1⟩

/-! ## Reads -/

/-- A read asks neither engine nor source, or it is a loop of turns, and the same one for every
reader that is as far. -/
theorem read_cases (r : Reader ε) (room : Nat) :
    (∃ result r', (r.NoneKept → ioFailureOf result = none ∧ r'.NoneKept) ∧
      ∀ n, r.read n room = some (result, r') ∧
        r.withoutFailures.read n room = some (result, r'.withoutFailures)) ∨
    ∀ q : Reader ε, r.Kept q → ∀ n, q.read n room =
      (q.turnLoop n room []).map fun (result, q') => (result, q'.record result) := by
  cases hf : r.failure with
  | some e =>
    have hread {q : Reader ε} (hq : q.failure = some e) (n : Nat) :
        q.read n room = some (.error e.copy, q) := by
      simp only [read, hq]
    exact .inl ⟨.error e.copy, r, fun hr => ⟨Error.ioFailure?_copy_of_none (hr e hf), hr⟩,
      fun n => ⟨hread hf n, hread (q := r.withoutFailures) hf n⟩⟩
  | none =>
    by_cases hreleased : r.released = true
    · have hread {q : Reader ε} (hq : q.failure = none) (hq' : q.released = true) (n : Nat) :
          q.read n room = some (if q.finished then .ok [] else .error ReaderFault.readAfterClose.toError,
            q.record (if q.finished then .ok [] else .error ReaderFault.readAfterClose.toError)) := by
        simp only [read, attempt, hq, hq', if_true]
      refine .inl ⟨_, _, fun hr => ⟨?_, noneKept_record hr _⟩, fun n => ⟨hread hf hreleased n, ?_⟩⟩
      · split <;> rfl
      · rw [← record_withoutFailures]
        exact hread (q := r.withoutFailures) hf hreleased n
    · by_cases hroom : room = 0
      · have hread {q : Reader ε} (hq : q.failure = none) (hq' : ¬ q.released = true) (n : Nat) :
            q.read n room = some (.ok [], q) := by
          simp only [read, attempt, hq, if_neg hq', if_pos hroom, record]
        exact .inl ⟨.ok [], r, fun hr => ⟨rfl, hr⟩,
          fun n => ⟨hread hf hreleased n, hread (q := r.withoutFailures) hf hreleased n⟩⟩
      · refine .inr fun q hq n => ?_
        rw [← hq.failure_eq] at hf
        rw [← hq.released_eq] at hreleased
        simp only [read, attempt, hf, if_neg hreleased, if_neg hroom]
        cases q.turnLoop n room [] <;> rfl

theorem read_failed {f : IoFailure} (hr : r.NoneKept)
    (h : r.read turns room = some (.error (.io f), r')) : f.isInterrupted = false ∧ r'.NoneKept ∧
      ∃ k, ∀ n, r.withoutFailures.read (k + n) room = r'.withoutFailures.read n room := by
  rcases r.read_cases room with ⟨result, r₁, hnone, hread⟩ | hloop
  · rw [(hread turns).1] at h
    cases h
    cases (hnone hr).1
  · rw [hloop r ⟨rfl, rfl⟩] at h
    obtain ⟨⟨result, r₁⟩, hturns, heq⟩ := Option.map_eq_some_iff.mp h
    obtain ⟨rfl, heq⟩ := Prod.mk.inj heq
    obtain rfl : r₁ = r' := heq
    obtain ⟨hi, hkept, k, hk⟩ := turnLoop_failed hturns
    refine ⟨hi, hr.of_kept hkept, k, ?_⟩
    intro n
    rw [hloop _ r.kept_withoutFailures, hloop _ (hkept.trans r₁.kept_withoutFailures), hk n]

theorem read_plain (hr : r.NoneKept) (h : r.read turns room = some (result, r'))
    (hresult : ioFailureOf result = none) :
    r.withoutFailures.read turns room = some (result, r'.withoutFailures) ∧ r'.NoneKept := by
  rcases r.read_cases room with ⟨result₁, r₁, hnone, hread⟩ | hloop
  · obtain ⟨h₁, h₂⟩ := hread turns
    rw [h₁] at h
    cases h
    exact ⟨h₂, (hnone hr).2⟩
  · rw [hloop r ⟨rfl, rfl⟩] at h
    obtain ⟨⟨result₁, r₁⟩, hturns, heq⟩ := Option.map_eq_some_iff.mp h
    cases heq
    obtain ⟨hplain, hkept⟩ := turnLoop_plain hturns hresult
    refine ⟨?_, noneKept_record (hr.of_kept hkept) _⟩
    rw [hloop _ r.kept_withoutFailures, hplain, ← record_withoutFailures]
    rfl

theorem read_of_withoutFailures (hr : r.NoneKept)
    (h : r.withoutFailures.read turns room = some (result, q)) :
    (∃ r', r.read turns room = some (result, r') ∧ r'.withoutFailures = q ∧
      ioFailureOf result = none) ∨
    ∃ f r', r.read turns room = some (.error (.io f), r') ∧
      r'.withoutFailures.read turns room = some (result, q) ∧ r'.source.length < r.source.length := by
  rcases r.read_cases room with ⟨result₁, r₁, hnone, hread⟩ | hloop
  · obtain ⟨h₁, h₂⟩ := hread turns
    rw [h₂] at h
    cases h
    exact .inl ⟨r₁, h₁, rfl, (hnone hr).1⟩
  · rw [hloop _ r.kept_withoutFailures] at h
    obtain ⟨⟨result₁, q₁⟩, hturns, heq⟩ := Option.map_eq_some_iff.mp h
    cases heq
    rcases turnLoop_of_withoutFailures hturns with ⟨r', hr', rfl, hnone⟩ | ⟨f, r', hr', hrest, hless⟩
    · refine .inl ⟨r'.record result, ?_, (record_withoutFailures _ _).symm, hnone⟩
      rw [hloop r ⟨rfl, rfl⟩, hr']
      rfl
    · refine .inr ⟨f, r', ?_, ?_, hless⟩
      · rw [hloop r ⟨rfl, rfl⟩, hr']
        rfl
      · rw [hloop _ ((turnLoop_failed hr').2.1.trans (kept_withoutFailures _)), hrest]
        rfl

theorem read_mono {n m : Nat} (h : r.read n room = some (result, r')) (hle : n ≤ m) :
    r.read m room = some (result, r') := by
  rcases r.read_cases room with ⟨result₁, r₁, -, hread⟩ | hloop
  · rw [← h, (hread n).1, (hread m).1]
  · rw [hloop r ⟨rfl, rfl⟩] at h ⊢
    obtain ⟨⟨result₁, r₁⟩, hturns, heq⟩ := Option.map_eq_some_iff.mp h
    rw [turnLoop_mono hturns hle]
    exact congrArg some heq

/-! ## Calls -/

inductive Call
  | read (room : Nat)
  | header
  | close

inductive Answer
  | read (result : Except Error Bytes)
  | header (result : Except Error Header)
  | close (result : Except Error Unit)

/-- The failure of a source that a call reports. -/
def Answer.ioFailure? : Answer → Option IoFailure
  | .read result => ioFailureOf result
  | .header result => ioFailureOf result
  | .close result => ioFailureOf result

def call (turns : Nat) (r : Reader ε) : Call → Option (Answer × Reader ε)
  | .read room => (r.read turns room).map fun (result, r) => (.read result, r)
  | .header => some (.header r.header, r)
  | .close => some (.close r.close.1, r.close.2)

/-- A call, its answer and the totals behind it. -/
structure Entry where
  call : Call
  answer : Answer
  totalIn : Nat
  totalOut : Nat
  members : Nat

/-- The call failed in the source. -/
def Entry.failed (e : Entry) : Bool := e.answer.ioFailure?.isSome

def entry (r : Reader ε) (c : Call) (answer : Answer) : Entry :=
  ⟨c, answer, r.totalIn, r.totalOut, r.members⟩

/-- Calls one after the other. -/
def calls (turns : Nat) : List Call → Reader ε → Option (List Entry × Reader ε)
  | [], r => some ([], r)
  | c :: cs, r =>
    match r.call turns c with
    | none => none
    | some (answer, r) =>
      match calls turns cs r with
      | none => none
      | some (entries, r') => some (r.entry c answer :: entries, r')

/-- Every call that failed in the source is made again at once. -/
def Persistent : List Entry → Prop
  | [] => True
  | e :: rest => (e.failed = true → rest.head?.map Entry.call = some e.call) ∧ Persistent rest

/-- The calls that did not fail in the source. -/
def erased (entries : List Entry) : List Entry := entries.filter fun e => !e.failed

section
variable {c : Call} {answer : Answer}

theorem ioFailureOf_header (r : Reader ε) : ioFailureOf r.header = none := by
  unfold header
  repeat' split
  all_goals rfl

theorem release_withoutFailures (r : Reader ε) :
    r.withoutFailures.release = r.release.withoutFailures := by
  unfold release
  rw [apply_ite withoutFailures]
  rfl

theorem close_withoutFailures (r : Reader ε) :
    r.withoutFailures.close = (r.close.1, r.close.2.withoutFailures) := by
  simp only [close, release_withoutFailures]
  rfl

theorem NoneKept.release (h : r.NoneKept) : r.release.NoneKept := by
  unfold Reader.release
  split
  · exact h
  · intro e he
    simp only at he
    split at he
    · next hf =>
      cases he
      exact h _ hf
    · next hcheck =>
      cases he
      exact Status.ioFailure_of_check hcheck
    · cases he

theorem NoneKept.ioFailureOf_close (h : r.NoneKept) : ioFailureOf r.close.1 = none := by
  unfold close
  simp only
  split
  · next hf => exact Error.ioFailure?_copy_of_none (h.release _ hf)
  · rfl

/-- Only a read fails in the source. -/
theorem call_failed {f : IoFailure} (hr : r.NoneKept) (h : r.call turns c = some (answer, r'))
    (hf : answer.ioFailure? = some f) : f.isInterrupted = false ∧ r'.NoneKept ∧
      ∃ k, ∀ n, r.withoutFailures.call (k + n) c = r'.withoutFailures.call n c := by
  cases c with
  | read room =>
    obtain ⟨⟨result, r₁⟩, hread, heq⟩ := Option.map_eq_some_iff.mp h
    cases heq
    have hresult : result = .error (.io f) := by
      cases result with
      | ok bs => cases hf
      | error e =>
        cases e <;> cases hf
        rfl
    rw [hresult] at hread
    obtain ⟨hi, hr', k, hk⟩ := read_failed hr hread
    exact ⟨hi, hr', k, fun n => by rw [call, call, hk n]⟩
  | header =>
    cases h
    rw [Answer.ioFailure?, ioFailureOf_header] at hf
    cases hf
  | close =>
    cases h
    rw [Answer.ioFailure?, hr.ioFailureOf_close] at hf
    cases hf

theorem call_plain (hr : r.NoneKept) (h : r.call turns c = some (answer, r'))
    (hnone : answer.ioFailure? = none) :
    r.withoutFailures.call turns c = some (answer, r'.withoutFailures) ∧ r'.NoneKept := by
  cases c with
  | read room =>
    obtain ⟨⟨result, r₁⟩, hread, heq⟩ := Option.map_eq_some_iff.mp h
    cases heq
    obtain ⟨hclean, hr'⟩ := read_plain hr hread hnone
    refine ⟨?_, hr'⟩
    rw [call, hclean]
    rfl
  | header =>
    cases h
    exact ⟨rfl, hr⟩
  | close =>
    cases h
    refine ⟨?_, hr.release⟩
    rw [call, close_withoutFailures]

theorem call_mono {n m : Nat} (h : r.call n c = some (answer, r')) (hle : n ≤ m) :
    r.call m c = some (answer, r') := by
  cases c with
  | read room =>
    obtain ⟨⟨result, r₁⟩, hread, heq⟩ := Option.map_eq_some_iff.mp h
    cases heq
    rw [call, read_mono hread hle]
    rfl
  | header => exact h
  | close => exact h

theorem call_of_withoutFailures (hr : r.NoneKept)
    (h : r.withoutFailures.call turns c = some (answer, q)) :
    (∃ r', r.call turns c = some (answer, r') ∧ r'.withoutFailures = q ∧ answer.ioFailure? = none) ∨
    ∃ failed r', r.call turns c = some (failed, r') ∧ failed.ioFailure?.isSome = true ∧
      r'.withoutFailures.call turns c = some (answer, q) ∧ r'.source.length < r.source.length := by
  cases c with
  | read room =>
    obtain ⟨⟨result, q₁⟩, hread, heq⟩ := Option.map_eq_some_iff.mp h
    cases heq
    rcases read_of_withoutFailures hr hread with ⟨r', hr', hq, hnone⟩ | ⟨f, r', hr', hrest, hless⟩
    · refine .inl ⟨r', ?_, hq, hnone⟩
      rw [call, hr']
      rfl
    · refine .inr ⟨.read (.error (.io f)), r', ?_, rfl, ?_, hless⟩
      · rw [call, hr']
        rfl
      · rw [call, hrest]
        rfl
  | header =>
    cases h
    exact .inl ⟨r, rfl, rfl, ioFailureOf_header r⟩
  | close =>
    rw [call, close_withoutFailures] at h
    cases h
    exact .inl ⟨r.close.2, rfl, rfl, hr.ioFailureOf_close⟩

end

section
variable {c : Call} {cs : List Call} {answer : Answer} {entries rest : List Entry}

theorem calls_cons (h : r.call turns c = some (answer, r')) (h' : r'.calls turns cs = some (rest, r'')) :
    r.calls turns (c :: cs) = some (r'.entry c answer :: rest, r'') := by
  simp only [calls, h, h']

theorem exists_of_calls_cons (h : r.calls turns (c :: cs) = some (entries, r'')) :
    ∃ answer r' rest, r.call turns c = some (answer, r') ∧ r'.calls turns cs = some (rest, r'') ∧
      entries = r'.entry c answer :: rest := by
  unfold calls at h
  split at h
  · cases h
  · next answer r' hcall =>
    split at h
    · cases h
    · next rest q hcalls =>
      cases h
      exact ⟨answer, r', rest, hcall, hcalls, rfl⟩

theorem calls_mono {n m : Nat} (h : r.calls n cs = some (entries, r')) (hle : n ≤ m) :
    r.calls m cs = some (entries, r') := by
  induction cs generalizing r entries with
  | nil => exact h
  | cons c cs ih =>
    obtain ⟨answer, r₁, rest, hcall, hcalls, rfl⟩ := exists_of_calls_cons h
    exact calls_cons (call_mono hcall hle) (ih hcalls)

omit [DecodeEngine ε] in
/-- A call that is made again until it does not fail is made. -/
theorem Persistent.erased_cons {e : Entry} (h : Persistent (e :: rest)) :
    ∃ e' rest', erased (e :: rest) = e' :: rest' ∧ e'.call = e.call := by
  induction rest generalizing e with
  | nil =>
    have hf : e.failed = false := by
      cases hf : e.failed with
      | false => rfl
      | true => cases h.1 hf
    exact ⟨e, [], by simp [erased, hf], rfl⟩
  | cons e₁ rest ih =>
    cases hf : e.failed with
    | false => exact ⟨e, erased (e₁ :: rest), by simp [erased, hf], rfl⟩
    | true =>
      obtain ⟨e', rest', heq, hcall⟩ := ih h.2
      have hagain : e₁.call = e.call := Option.some.inj (h.1 hf)
      refine ⟨e', rest', ?_, hcall.trans hagain⟩
      rw [← heq]
      simp [erased, hf]

theorem NoneKept.calls (hr : r.NoneKept) (h : r.calls turns cs = some (entries, r')) :
    r'.NoneKept ∧ ∀ e ∈ entries, ∀ f, e.answer.ioFailure? = some f → f.isInterrupted = false := by
  induction cs generalizing r entries with
  | nil =>
    cases h
    exact ⟨hr, fun e he => absurd he List.not_mem_nil⟩
  | cons c cs ih =>
    obtain ⟨answer, r₁, rest, hcall, hcalls, rfl⟩ := exists_of_calls_cons h
    obtain ⟨hr₁, hfirst⟩ : r₁.NoneKept ∧ ∀ f, answer.ioFailure? = some f → f.isInterrupted = false := by
      cases hf : answer.ioFailure? with
      | none => exact ⟨(call_plain hr hcall hf).2, nofun⟩
      | some f =>
        obtain ⟨hi, hr₁, -⟩ := call_failed hr hcall hf
        refine ⟨hr₁, ?_⟩
        rintro _ ⟨⟩
        exact hi
    obtain ⟨hr', hrest⟩ := ih hr₁ hcalls
    refine ⟨hr', ?_⟩
    intro e he
    rcases List.mem_cons.mp he with rfl | he
    · exact hfirst
    · exact hrest e he

/-- Calls in which failed reads are repeated come to the same over the source without failures. -/
theorem NoneKept.calls_erased (hr : r.NoneKept) (h : r.calls turns cs = some (entries, r'))
    (hp : Persistent entries) : ∃ enough, ∀ n, enough ≤ n →
      r.withoutFailures.calls n ((erased entries).map Entry.call) =
        some (erased entries, r'.withoutFailures) := by
  induction cs generalizing r entries with
  | nil =>
    cases h
    exact ⟨0, fun n _ => rfl⟩
  | cons c cs ih =>
    obtain ⟨answer, r₁, rest, hcall, hcalls, rfl⟩ := exists_of_calls_cons h
    cases hf : answer.ioFailure? with
    | none =>
      obtain ⟨hclean, hr₁⟩ := call_plain hr hcall hf
      obtain ⟨enough, hrest⟩ := ih hr₁ hcalls hp.2
      have herased : erased (r₁.entry c answer :: rest) = r₁.entry c answer :: erased rest := by
        simp [erased, Entry.failed, entry, hf]
      refine ⟨max turns enough, ?_⟩
      intro n hn
      have hmade := calls_cons (call_mono hclean (show turns ≤ n by omega)) (hrest n (by omega))
      rw [herased]
      exact hmade
    | some f =>
      have hfailed : (r₁.entry c answer).failed = true := by simp [Entry.failed, entry, hf]
      obtain ⟨-, hr₁, k, hk⟩ := call_failed hr hcall hf
      obtain ⟨enough, hrest⟩ := ih hr₁ hcalls hp.2
      have herased : erased (r₁.entry c answer :: rest) = erased rest := by
        simp [erased, hfailed]
      -- the call is made again, so it is the first of those that did not fail
      obtain ⟨e, rest', hcons, hcall'⟩ : ∃ e rest', erased rest = e :: rest' ∧ e.call = c := by
        cases rest with
        | nil => cases hp.1 hfailed
        | cons e rest =>
          obtain ⟨e', rest', heq, hcall'⟩ := hp.2.erased_cons
          exact ⟨e', rest', heq, hcall'.trans (Option.some.inj (hp.1 hfailed))⟩
      refine ⟨k + enough, ?_⟩
      intro n hn
      obtain ⟨n, rfl⟩ : ∃ m, n = k + m := ⟨n - k, by omega⟩
      have hmade := hrest n (by omega)
      rw [herased]
      rw [hcons, List.map_cons, hcall'] at hmade ⊢
      obtain ⟨answer', q, tail, hq, htail, heq⟩ := exists_of_calls_cons hmade
      rw [heq]
      exact calls_cons ((hk n).trans hq) (calls_mono htail (Nat.le_add_left n k))

/-- Calls over the source without failures come about in this way. -/
theorem NoneKept.calls_of_withoutFailures (hr : r.NoneKept)
    (h : r.withoutFailures.calls turns cs = some (entries, q)) :
    ∃ cs' entries' r', r.calls turns cs' = some (entries', r') ∧ Persistent entries' ∧
      erased entries' = entries ∧ r'.withoutFailures = q ∧
      entries'.head?.map Entry.call = cs.head? := by
  induction cs generalizing r entries with
  | nil =>
    cases h
    exact ⟨[], [], r, rfl, trivial, rfl, rfl, rfl⟩
  | cons c cs ih =>
    obtain ⟨answer, q₁, rest, hcall, hcalls, rfl⟩ := exists_of_calls_cons h
    clear h
    -- a failure shortens the source, so the call fails only so many times
    induction hn : r.source.length using Nat.strongRecOn generalizing r with
    | _ n ihn =>
      rcases call_of_withoutFailures hr hcall with
        ⟨r₁, hr₁, rfl, hnone⟩ | ⟨failed, r₁, hr₁, hfailed, hagain, hless⟩
      · obtain ⟨cs', entries', r', h', hp, herased, hq, -⟩ := ih (call_plain hr hr₁ hnone).2 hcalls
        have hkept : (r₁.entry c answer).failed = false := by simp [Entry.failed, entry, hnone]
        refine ⟨c :: cs', _, r', calls_cons hr₁ h', ⟨?_, hp⟩, ?_, hq, rfl⟩
        · intro hf
          rw [hkept] at hf
          cases hf
        · rw [← herased]
          simp only [erased, List.filter_cons, hkept]
          rfl
      · obtain ⟨f, hf⟩ := Option.isSome_iff_exists.mp hfailed
        obtain ⟨cs', entries', r', h', hp, herased, hq, hhead⟩ :=
          ihn _ (hn ▸ hless) (call_failed hr hr₁ hf).2.1 hagain rfl
        have hdropped : (r₁.entry c failed).failed = true := hfailed
        refine ⟨c :: cs', _, r', calls_cons hr₁ h', ⟨fun _ => hhead, hp⟩, ?_, hq, rfl⟩
        rw [← herased]
        simp only [erased, List.filter_cons, hdropped]
        rfl

end

theorem withEngine_withoutFailures {source : Source} {engine : ε} {o : Options}
    (h : withEngine source engine o = .ok r) :
    withEngine source.withoutFailures engine o = .ok r.withoutFailures ∧ r.failure = none := by
  unfold withEngine at h ⊢
  cases hv : o.validate with
  | error fault =>
    rw [hv] at h
    cases h
  | ok u =>
    rw [hv] at h
    simp only [bind, Except.bind] at h ⊢
    split at h
    · next hcapture =>
      cases h
      rw [if_pos hcapture]
      exact ⟨rfl, rfl⟩
    · next hcapture =>
      cases h
      rw [if_neg hcapture]
      exact ⟨rfl, rfl⟩

/-- Where every read that fails in the source is made again at once, all other calls answer and count
as over the source without failures, and whatever happens there can come about so. No interruption is
ever reported, and no failure of the source is kept. -/
theorem source_failures_lose_nothing (source : Source) (engine : ε) (o : Options) (r : Reader ε)
    (hr : withEngine source engine o = .ok r) :
    withEngine source.withoutFailures engine o = .ok r.withoutFailures ∧
    (∀ turns cs entries r', r.calls turns cs = some (entries, r') →
      (Persistent entries → ∃ enough, ∀ n, enough ≤ n →
        r.withoutFailures.calls n ((erased entries).map Entry.call) =
          some (erased entries, r'.withoutFailures)) ∧
      (∀ e ∈ entries, ∀ f, e.answer.ioFailure? = some f → f.isInterrupted = false) ∧
      ∀ f, r'.failure ≠ some (.io f)) ∧
    ∀ turns cs entries q, r.withoutFailures.calls turns cs = some (entries, q) →
      ∃ cs' entries' r', r.calls turns cs' = some (entries', r') ∧ Persistent entries' ∧
        erased entries' = entries ∧ r'.withoutFailures = q := by
  obtain ⟨hclean, hf⟩ := withEngine_withoutFailures hr
  have hnone : r.NoneKept := by
    intro e he
    rw [hf] at he
    cases he
  refine ⟨hclean, ?_, ?_⟩
  · intro turns cs entries r' h
    obtain ⟨hnone', hsurfaced⟩ := hnone.calls h
    refine ⟨hnone.calls_erased h, hsurfaced, ?_⟩
    intro f hfailure
    cases hnone' _ hfailure
  · intro turns cs entries q h
    obtain ⟨cs', entries', r', h', hp, herased, hq, -⟩ := hnone.calls_of_withoutFailures h
    exact ⟨cs', entries', r', h', hp, herased, hq⟩

/-- The engine that gives every byte as it is. -/
structure Echo where

instance : DecodeEngine Echo where
  step e input room := (.worked (input.take room).length (input.take room), e)
  reset e := (.ok, e)
  captureHeader e := (.streamError, e)
  header _ := none
  finish e := (.ok, e)

/-- Two bytes with an interruption and a failure between them. -/
def flakySource : Source :=
  [.data [7], .failure (.plain .interrupted), .failure (.plain .timedOut), .data [8]]

/-- The second read fails and is made again. -/
theorem source_failures_lose_nothing_flaky : ∃ (r r' : Reader Echo) (entries : List Entry),
    withEngine flakySource Echo.mk {} = .ok r ∧
      r.calls 4 [.read 1, .read 1, .read 1] = some (entries, r') ∧
      (erased entries).map Entry.answer = [.read (.ok [7]), .read (.ok [8])] ∧
      ∃ n, r.withoutFailures.calls n [.read 1, .read 1] = some (erased entries, r'.withoutFailures) := by
  obtain ⟨r', hcalls⟩ : ∃ r', calls 4 [.read 1, .read 1, .read 1]
      ({ source := flakySource, engine := ⟨⟩, options := {}, capture := false } : Reader Echo) = some
        ([⟨.read 1, .read (.ok [7]), 1, 1, 0⟩,
          ⟨.read 1, .read (.error (.io (.plain .timedOut))), 1, 1, 0⟩,
          ⟨.read 1, .read (.ok [8]), 2, 2, 0⟩], r') := ⟨_, rfl⟩
  obtain ⟨-, hlost, -⟩ := source_failures_lose_nothing flakySource Echo.mk {} _ rfl
  obtain ⟨hpersistent, -, -⟩ := hlost _ _ _ _ hcalls
  obtain ⟨enough, hclean⟩ := hpersistent ⟨nofun, fun _ => rfl, nofun, trivial⟩
  exact ⟨_, r', _, rfl, hcalls, rfl, enough, hclean enough (Nat.le_refl _)⟩

end Reader

end GzipStream
