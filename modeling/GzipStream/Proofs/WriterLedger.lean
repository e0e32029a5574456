import GzipStream.Proofs.EngineRecord
import GzipStream.Proofs.SinkDrain
import GzipStream.Writer

/-!
# What a writer does with bytes

The engine keeps a record of the bytes that it took and gave. `Ledger` says how the record, the totals
and the sink of a writer agree between two calls, and `Balanced.calls` that calls in any order keep
it so.
-/

namespace GzipStream

namespace Writer

inductive Call
  | write (bs : Bytes)
  | flush
  | setHeader (h : Header)
  | close

/-- What a call that gives no number answers. -/
def plain {ε : Type} : Except Error Unit × Writer ε → Except Error Nat × Writer ε
  | (.ok (), w) => (.ok 0, w)
  | (.error e, w) => (.error e, w)

def call {ε : Type} [EncodeEngine ε] (turns : Nat) (w : Writer ε) :
    Call → Option (Except Error Nat × Writer ε)
  | .write bs => w.write turns bs
  | .flush => (w.flush turns).map plain
  | .setHeader h => some (plain (w.setHeader h))
  | .close => (w.close turns).map plain

/-- Calls one after the other, with their answers. -/
def calls {ε : Type} [EncodeEngine ε] (turns : Nat) :
    List Call → Writer ε → Option (List (Except Error Nat) × Writer ε)
  | [], w => some ([], w)
  | c :: cs, w =>
    match w.call turns c with
    | none => none
    | some (answer, w) =>
      match calls turns cs w with
      | none => none
      | some (answers, w) => some (answer :: answers, w)

theorem exists_of_calls_cons {ε : Type} [EncodeEngine ε] {turns : Nat} {w w' : Writer ε} {c : Call}
    {cs : List Call} {answers : List (Except Error Nat)}
    (h : w.calls turns (c :: cs) = some (answers, w')) :
    ∃ answer w₁ later, w.call turns c = some (answer, w₁) ∧ w₁.calls turns cs = some (later, w') ∧
      answers = answer :: later := by
  unfold calls at h
  split at h
  · cases h
  · next answer w₁ hcall =>
    split at h
    · cases h
    · next later w₂ hcalls =>
      cases h
      exact ⟨answer, w₁, later, hcall, hcalls, rfl⟩

/-- The slices of all writes that succeeded. -/
def written : List Call → List (Except Error Nat) → Bytes
  | .write bs :: cs, .ok _ :: answers => bs ++ written cs answers
  | _ :: cs, _ :: answers => written cs answers
  | _, _ => []

section
variable {ε : Type} {w w' w'' : Writer (Recorded ε)} {used used' made made' out out' : Bytes}
  {answers answers' : List SinkAnswer} {log log' : List SinkCall}

/-- What happened to a writer: its engine took `used` and gave `made`, of which `out` reached the
sink. -/
structure Moved (w w' : Writer (Recorded ε)) (used made out : Bytes) (answers : List SinkAnswer)
    (log : List SinkCall) : Prop where
  taken_eq : w'.engine.taken = w.engine.taken ++ used
  given_eq : w'.engine.given = w.engine.given ++ made
  totalIn_eq : w'.totalIn = w.totalIn + used.length
  passed : w.sink.Passed w'.sink out answers log
  isPrefix : out <+: made
  failure_eq : w'.failure = w.failure
  released_eq : w'.released = w.released

/-- All that was made reached the sink and was counted. -/
structure Complete (w w' : Writer (Recorded ε)) (made out : Bytes) : Prop where
  all : out = made
  totalOut_eq : w'.totalOut = w.totalOut + made.length

theorem Moved.trans (h : w.Moved w' used made out answers log) (hall : out = made)
    (h' : w'.Moved w'' used' made' out' answers' log') :
    w.Moved w'' (used ++ used') (made ++ made') (out ++ out') (answers ++ answers') (log ++ log') where
  taken_eq := by rw [h'.taken_eq, h.taken_eq, List.append_assoc]
  given_eq := by rw [h'.given_eq, h.given_eq, List.append_assoc]
  totalIn_eq := by rw [h'.totalIn_eq, h.totalIn_eq, List.length_append, Nat.add_assoc]
  passed := h.passed.trans h'.passed
  isPrefix := by rw [hall]; exact (List.prefix_append_right_inj _).mpr h'.isPrefix
  failure_eq := h'.failure_eq.trans h.failure_eq
  released_eq := h'.released_eq.trans h.released_eq

theorem Complete.trans (h : w.Complete w' made out) (h' : w'.Complete w'' made' out') :
    w.Complete w'' (made ++ made') (out ++ out') where
  all := by rw [h.all, h'.all]
  totalOut_eq := by rw [h'.totalOut_eq, h.totalOut_eq, List.length_append, Nat.add_assoc]

/-- What came of feeding `rest` to the engine. -/
structure Fed (w : Writer (Recorded ε)) (rest : Bytes) (result : Except Error Unit)
    (w' : Writer (Recorded ε)) (used left made out : Bytes) (answers : List SinkAnswer)
    (log : List SinkCall) : Prop where
  rest_eq : rest = used ++ left
  moved : w.Moved w' used made out answers log
  complete : result = .ok () ∨ Sink.Unfailing answers log → w.Complete w' made out

theorem afterStep_cases {ε : Type} (w : Writer ε) (rest : Bytes) (flush : Flush) (s : Step)
    (filled : Bool) :
    (∃ result, w.afterStep rest flush s filled = .stop result w ∧
      (result = .ok () → rest = [] ∨ flush = .finish)) ∨
    w.afterStep rest flush s filled = .again w rest := by
  unfold afterStep
  repeat' split
  all_goals first | exact .inr rfl | exact .inl ⟨_, rfl, by simp_all⟩

/-- What one turn came to. -/
def Turned (w : Writer (Recorded ε)) (rest : Bytes) (flush : Flush) : Turn (Recorded ε) → Prop
  | .stop result w' => ∃ used left made out answers log,
    w.Fed rest result w' used left made out answers log ∧
      (result = .ok () → left = [] ∨ flush = .finish)
  | .again w' left => ∃ used made out answers log, w.Fed rest (.ok ()) w' used left made out answers log

/-- The writer behind a step whose output reached the sink. -/
def stepped (w : Writer (Recorded ε)) (sink : Sink) (rest : Bytes) (s : Step) (engine : ε) :
    Writer (Recorded ε) :=
  { w with
    sink := sink
    engine := ⟨engine, w.engine.taken ++ rest.take s.consumed, w.engine.given ++ s.output⟩
    totalIn := w.totalIn + s.consumed
    totalOut := w.totalOut + s.produced }

theorem turn_spec [EncodeEngine ε] (hε : EncodeEngine.Respectful ε) (w : Writer (Recorded ε))
    (rest : Bytes) (flush : Flush) : w.Turned rest flush (w.turn rest flush) := by
  obtain ⟨hconsumed, hproduced⟩ := hε w.engine.engine rest (w.room flush) flush
  rcases hstep : EncodeEngine.step w.engine.engine rest (w.room flush) flush with ⟨s, e⟩
  rw [hstep] at hconsumed hproduced
  have hlen : (rest.take s.consumed).length = s.consumed := by
    rw [List.length_take]
    exact Nat.min_eq_left hconsumed
  have hrest : rest = rest.take s.consumed ++ rest.drop s.consumed :=
    (List.take_append_drop _ _).symm
  obtain ⟨out, answers, log, hd⟩ := w.sink.drain_spec s.output
  rcases hdrain : w.sink.drain s.output with ⟨r, sink⟩
  rw [hdrain] at hd
  simp only [turn, EncodeEngine.step, hstep, hdrain]
  cases r with
  | error e' =>
    refine ⟨_, _, _, _, _, _, ⟨hrest, ⟨rfl, rfl, ?_, hd.passed, hd.isPrefix, rfl, rfl⟩, ?_⟩, nofun⟩
    · rw [hlen]
    · rintro (h | h)
      · cases h
      · cases hd.ok_of_unfailing h
  | ok u =>
    have hfed : w.Fed rest (.ok ()) (w.stepped sink rest s e) (rest.take s.consumed)
        (rest.drop s.consumed) s.output out answers log := by
      refine ⟨hrest, ⟨rfl, rfl, ?_, hd.passed, hd.isPrefix, rfl, rfl⟩, fun _ => ⟨hd.all_of_ok rfl, rfl⟩⟩
      rw [hlen]
      rfl
    show w.Turned rest flush ((w.stepped sink rest s e).afterStep (rest.drop s.consumed) flush s
      (s.produced = w.room flush))
    rcases (w.stepped sink rest s e).afterStep_cases (rest.drop s.consumed) flush s
      (s.produced = w.room flush) with ⟨result, hstop, hok⟩ | hagain
    · rw [hstop]
      exact ⟨_, _, _, _, _, _, ⟨hfed.rest_eq, hfed.moved, fun _ => hfed.complete (.inl rfl)⟩, hok⟩
    · rw [hagain]
      exact ⟨_, _, _, _, _, hfed⟩

theorem turnLoop_spec [EncodeEngine ε] (hε : EncodeEngine.Respectful ε) (turns : Nat)
    {w w' : Writer (Recorded ε)} {rest : Bytes} {flush : Flush} {result : Except Error Unit}
    (h : w.turnLoop turns rest flush = some (result, w')) :
    ∃ used left made out answers log, w.Fed rest result w' used left made out answers log ∧
      (result = .ok () → left = [] ∨ flush = .finish) := by
  induction turns generalizing w rest with
  | zero => cases h
  | succ turns ih =>
    have hturn := turn_spec hε w rest flush
    unfold turnLoop at h
    cases ht : w.turn rest flush with
    | stop result' w₁ =>
      rw [ht] at h hturn
      cases h
      exact hturn
    | again w₁ rest₁ =>
      rw [ht] at h hturn
      obtain ⟨used, made, out, answers, log, hfed⟩ := hturn
      obtain ⟨used', left, made', out', answers', log', hfed', hleft⟩ := ih h
      have hc := hfed.complete (.inl rfl)
      refine ⟨_, left, _, _, _, _, ⟨?_, hfed.moved.trans hc.all hfed'.moved, ?_⟩, hleft⟩
      · rw [hfed.rest_eq, hfed'.rest_eq, List.append_assoc]
      · rintro hok
        refine hc.trans (hfed'.complete (hok.imp_right ?_))
        intro hu
        exact (Sink.unfailing_append.mp hu).2

/-- How record, totals and sink of a writer agree, where the sink was `sink₀` at first: what was
taken is what was `written` and the `tail` of a failed write, and what was given reached the sink as
far as no write to it failed. -/
structure Ledger (sink₀ : Sink) (w : Writer (Recorded ε)) (written tail out : Bytes)
    (answers : List SinkAnswer) (log : List SinkCall) : Prop where
  taken_eq : w.engine.taken = written ++ tail
  tail_nil : w.failure = none → tail = []
  totalIn_eq : w.totalIn = w.engine.taken.length
  passed : sink₀.Passed w.sink out answers log
  isPrefix : out <+: w.engine.given
  complete : w.failure = none ∨ Sink.Unfailing answers log →
    out = w.engine.given ∧ w.totalOut = w.engine.given.length

section
variable {sink₀ : Sink} {written tail : Bytes}

/-- A change that neither feeds the engine nor gives bytes to the sink. -/
theorem Ledger.keep (h : w.Ledger sink₀ written tail out answers log)
    (htaken : w'.engine.taken = w.engine.taken) (hgiven : w'.engine.given = w.engine.given)
    (hin : w'.totalIn = w.totalIn) (hout : w'.totalOut = w.totalOut)
    (hp : w.sink.Passed w'.sink [] [] log') (hf : w'.failure = none → w.failure = none) :
    w'.Ledger sink₀ written tail (out ++ []) (answers ++ []) (log ++ log') where
  taken_eq := htaken.trans h.taken_eq
  tail_nil hn := h.tail_nil (hf hn)
  totalIn_eq := by rw [hin, htaken, h.totalIn_eq]
  passed := h.passed.trans hp
  isPrefix := by rw [List.append_nil, hgiven]; exact h.isPrefix
  complete hok := by
    rw [List.append_nil, hgiven, hout]
    exact h.complete (hok.imp hf fun hu => (Sink.unfailing_append.mp hu).1)

/-- Bytes fed to the engine are written if all goes well, else they are the tail. -/
theorem Ledger.feed (h : w.Ledger sink₀ written tail out answers log) (hf : w.failure = none)
    {rest left : Bytes} {result : Except Error Unit}
    (hfed : w.Fed rest result w' used left made out' answers' log') {written' tail' : Bytes}
    (hsplit : written' ++ tail' = written ++ used) (hok : result = .ok () → tail' = []) :
    (w'.record result).Ledger sink₀ written' tail' (out ++ out') (answers ++ answers')
      (log ++ log') := by
  obtain ⟨hall, htotal⟩ := h.complete (.inl hf)
  have hengine : (w'.record result).engine = w'.engine := by cases result <;> rfl
  have hsink : (w'.record result).sink = w'.sink := by cases result <;> rfl
  have hin : (w'.record result).totalIn = w'.totalIn := by cases result <;> rfl
  have hout : (w'.record result).totalOut = w'.totalOut := by cases result <;> rfl
  have hresult : (w'.record result).failure = none → result = .ok () := by
    cases result with
    | ok u => exact fun _ => rfl
    | error e => exact nofun
  constructor
  · rw [hengine, hfed.moved.taken_eq, h.taken_eq, h.tail_nil hf, List.append_nil, hsplit]
  · exact fun hn => hok (hresult hn)
  · rw [hin, hengine, hfed.moved.totalIn_eq, hfed.moved.taken_eq, h.totalIn_eq, List.length_append]
  · rw [hsink]
    exact h.passed.trans hfed.moved.passed
  · rw [hengine, hfed.moved.given_eq, hall]
    exact (List.prefix_append_right_inj _).mpr hfed.moved.isPrefix
  · intro hc
    have hcomplete := hfed.complete (hc.imp hresult fun hu => (Sink.unfailing_append.mp hu).2)
    rw [hengine, hout, hfed.moved.given_eq, hall, hcomplete.all, hcomplete.totalOut_eq, htotal,
      List.length_append]
    exact ⟨rfl, rfl⟩

/-- There is a ledger, whatever it says about the sink. -/
def Balanced (sink₀ : Sink) (w : Writer (Recorded ε)) (written tail : Bytes) : Prop :=
  ∃ out answers log, w.Ledger sink₀ written tail out answers log

theorem Balanced.release [EncodeEngine ε] (h : w.Balanced sink₀ written tail) :
    w.release.2.Balanced sink₀ written tail := by
  obtain ⟨out, answers, log, hl⟩ := h
  unfold Writer.release
  split
  · exact ⟨_, _, _, hl⟩
  · exact ⟨_, _, _, hl.keep rfl rfl rfl rfl (.refl _) id⟩

theorem Balanced.record (h : w.Balanced sink₀ written tail) (result : Except Error Unit) :
    (w.record result).Balanced sink₀ written tail := by
  obtain ⟨out, answers, log, hl⟩ := h
  cases result with
  | ok u => exact ⟨_, _, _, hl⟩
  | error e => exact ⟨_, _, _, hl.keep rfl rfl rfl rfl (.refl _) nofun⟩

theorem Balanced.flushSink (h : w.Balanced sink₀ written tail) :
    w.flushSink.2.Balanced sink₀ written tail := by
  obtain ⟨out, answers, log, hl⟩ := h
  exact ⟨_, _, _, hl.keep rfl rfl rfl rfl w.sink.passed_flush id⟩

theorem Balanced.setHeader [EncodeEngine ε] (h : w.Balanced sink₀ written tail) (header : Header) :
    (w.setHeader header).2.Balanced sink₀ written tail := by
  obtain ⟨out, answers, log, hl⟩ := h
  have hkeep : ({ w with engine := (EncodeEngine.setHeader w.engine header).2 } :
      Writer (Recorded ε)).Balanced sink₀ written tail :=
    ⟨_, _, _, hl.keep rfl rfl rfl rfl (.refl _) id⟩
  unfold Writer.setHeader
  split
  · exact ⟨_, _, _, hl⟩
  · split
    · exact ⟨_, _, _, hl⟩
    · split
      · exact ⟨_, _, _, hl⟩
      · simp only
        split
        · exact hkeep
        · exact hkeep

variable [EncodeEngine ε] (hε : EncodeEngine.Respectful ε) {turns : Nat}
include hε

/-- Feeding the engine: all of the bytes are taken, or a part before a failure. -/
theorem Balanced.drive (h : w.Balanced sink₀ written tail) (hf : w.failure = none) {bs : Bytes}
    {flush : Flush} {result : Except Error Unit} (hd : w.drive turns bs flush = some (result, w'))
    (hflush : flush = .finish → bs = []) :
    (result = .ok () → (w'.record result).Balanced sink₀ (written ++ bs) []) ∧
      ∃ tail', tail' <+: bs ∧ (result ≠ .ok () → (w'.record result).Balanced sink₀ written tail') := by
  obtain ⟨out, answers, log, hl⟩ := h
  unfold Writer.drive at hd
  split at hd
  · cases hd
    refine ⟨nofun, [], List.nil_prefix, ?_⟩
    intro _
    rw [← hl.tail_nil hf]
    exact Balanced.record ⟨_, _, _, hl⟩ _
  · have hl' : ({ w with started := true } : Writer (Recorded ε)).Ledger sink₀ written tail
        (out ++ []) (answers ++ []) (log ++ []) := hl.keep rfl rfl rfl rfl (.refl _) id
    obtain ⟨used, left, made, out', answers', log', hfed, hleft⟩ := turnLoop_spec hε turns hd
    refine ⟨fun hok => ?_, used, ⟨left, hfed.rest_eq.symm⟩, fun hne => ?_⟩
    · have hused : used = bs := by
        have hrest := hfed.rest_eq
        rcases hleft hok with hnil | hfin
        · rw [hnil, List.append_nil] at hrest
          exact hrest.symm
        · rw [hflush hfin] at hrest ⊢
          exact (List.append_eq_nil_iff.mp hrest.symm).1
      exact ⟨_, _, _, hl'.feed hf hfed (by rw [List.append_nil, hused]) fun _ => rfl⟩
    · exact ⟨_, _, _, hl'.feed hf hfed rfl fun hok => absurd hok hne⟩

theorem Balanced.write (h : w.Balanced sink₀ written tail) {bs : Bytes} {answer : Except Error Nat}
    (hw : w.write turns bs = some (answer, w')) :
    (∃ n, answer = .ok n ∧ w'.Balanced sink₀ (written ++ bs) tail) ∨
      ∃ e, answer = .error e ∧ (w'.Balanced sink₀ written tail ∨
        tail = [] ∧ ∃ tail', tail' <+: bs ∧ w'.Balanced sink₀ written tail') := by
  unfold Writer.write at hw
  split at hw
  · cases hw
    exact .inr ⟨_, rfl, .inl h⟩
  · next hf =>
    have htail : tail = [] := by
      obtain ⟨_, _, _, hl⟩ := h
      exact hl.tail_nil hf
    split at hw
    · cases hw
      exact .inr ⟨_, rfl, .inl h⟩
    · split at hw
      · next hbs =>
        cases hw
        rw [List.isEmpty_iff.mp hbs, List.append_nil]
        exact .inl ⟨_, rfl, h⟩
      · split at hw
        · cases hw
        · next e w₁ hd =>
          obtain ⟨-, tail', hp, hfail⟩ := h.drive hε hf hd nofun
          cases hw
          exact .inr ⟨_, rfl, .inr ⟨htail, tail', hp, hfail nofun⟩⟩
        · next w₁ hd =>
          obtain ⟨hok, -⟩ := h.drive hε hf hd nofun
          cases hw
          rw [htail]
          exact .inl ⟨_, rfl, hok rfl⟩

/-- A call of the engine without input keeps the books, and so does what is recorded of it. -/
theorem Balanced.drive_nil (h : w.Balanced sink₀ written tail) (hf : w.failure = none)
    {flush : Flush} {result : Except Error Unit} (hd : w.drive turns [] flush = some (result, w')) :
    (w'.record result).Balanced sink₀ written tail := by
  have htail : tail = [] := by
    obtain ⟨_, _, _, hl⟩ := h
    exact hl.tail_nil hf
  obtain ⟨hok, tail', hp, hfail⟩ := h.drive hε hf hd fun _ => rfl
  rw [List.prefix_nil] at hp
  rw [List.append_nil] at hok
  rw [hp] at hfail
  rw [htail]
  by_cases hr : result = .ok ()
  · exact hok hr
  · exact hfail hr

theorem Balanced.flush (h : w.Balanced sink₀ written tail) {result : Except Error Unit}
    (hw : w.flush turns = some (result, w')) : w'.Balanced sink₀ written tail := by
  unfold Writer.flush at hw
  split at hw
  · cases hw
    exact h
  · next hf =>
    have hdrive {r : Except Error Unit} {w₁ : Writer (Recorded ε)}
        (hd : (if w.released then some (.ok (), w) else w.drive turns [] .sync) = some (r, w₁)) :
        (w₁.record r).Balanced sink₀ written tail := by
      split at hd
      · cases hd
        exact h
      · exact h.drive_nil hε hf hd
    split at hw
    · cases hw
    · next e w₁ hd =>
      cases hw
      exact hdrive hd
    · next w₁ hd =>
      cases hw
      exact (hdrive hd).flushSink.record _

theorem Balanced.close (h : w.Balanced sink₀ written tail) {result : Except Error Unit}
    (hw : w.close turns = some (result, w')) : w'.Balanced sink₀ written tail := by
  unfold Writer.close at hw
  split at hw
  · cases hw
    exact h.release
  · next hf =>
    split at hw
    · cases hw
      exact h
    · split at hw
      · cases hw
      · next e w₁ hd =>
        cases hw
        exact (h.drive_nil hε hf hd).release
      · next w₁ hd =>
        have hw₁ : w₁.release.2.Balanced sink₀ written tail := (h.drive_nil hε hf hd).release
        rcases hr : w₁.release with ⟨status, w₂⟩
        rw [hr] at hw hw₁
        simp only at hw
        split at hw
        · cases hw
          exact hw₁.record _
        · cases hw
          exact hw₁.flushSink.record _

/-- Any sequence of calls keeps the books. What was taken is what was written and, if one of the
writes failed, a part of its slice. -/
theorem Balanced.calls (h : w.Balanced sink₀ written tail) {cs : List Call}
    {results : List (Except Error Nat)} (hw : w.calls turns cs = some (results, w')) :
    ∃ tail', w'.Balanced sink₀ (written ++ Writer.written cs results) tail' ∧
      (tail' = tail ∨ tail = [] ∧ ∃ bs e, (Call.write bs, .error e) ∈ cs.zip results ∧ tail' <+: bs) := by
  induction cs generalizing w written tail results with
  | nil =>
    cases hw
    refine ⟨tail, ?_, .inl rfl⟩
    rw [show Writer.written [] [] = [] from rfl, List.append_nil]
    exact h
  | cons c cs ih =>
    obtain ⟨result, w₁, results', hcall, hcalls, rfl⟩ := exists_of_calls_cons hw
    -- a call that writes nothing and leaves the tail as it is
    have hsame (h₁ : w₁.Balanced sink₀ written tail)
        (hwritten : Writer.written (c :: cs) (result :: results') = Writer.written cs results') :
        ∃ tail', w'.Balanced sink₀ (written ++ Writer.written (c :: cs) (result :: results')) tail' ∧
          (tail' = tail ∨ tail = [] ∧ ∃ bs e, (Call.write bs, .error e) ∈
            (c :: cs).zip (result :: results') ∧ tail' <+: bs) := by
      obtain ⟨tail', hb, ht⟩ := ih h₁ hcalls
      rw [hwritten]
      refine ⟨tail', hb, ht.imp_right ?_⟩
      rintro ⟨hn, bs, e, hmem, hp⟩
      exact ⟨hn, bs, e, List.mem_cons_of_mem _ hmem, hp⟩
    cases c with
    | write bs =>
      rcases h.write hε hcall with ⟨n, rfl, h₁⟩ | ⟨e, rfl, h₁ | ⟨hn, tail₁, hp, h₁⟩⟩
      · obtain ⟨tail', hb, ht⟩ := ih h₁ hcalls
        refine ⟨tail', by rw [Writer.written, ← List.append_assoc]; exact hb, ht.imp_right ?_⟩
        rintro ⟨hn, bs', e, hmem, hp⟩
        exact ⟨hn, bs', e, List.mem_cons_of_mem _ hmem, hp⟩
      · exact hsame h₁ rfl
      · obtain ⟨tail', hb, ht⟩ := ih h₁ hcalls
        refine ⟨tail', hb, .inr ⟨hn, ?_⟩⟩
        rcases ht with rfl | ⟨-, bs', e', hmem, hp'⟩
        · exact ⟨bs, e, List.mem_cons_self, hp⟩
        · exact ⟨bs', e', List.mem_cons_of_mem _ hmem, hp'⟩
    | flush =>
      obtain ⟨⟨r, w₂⟩, hf, hr⟩ := Option.map_eq_some_iff.mp hcall
      have h₁ := h.flush hε hf
      cases r <;> cases hr <;> exact hsame h₁ rfl
    | setHeader header =>
      have h₁ := h.setHeader header
      rcases hset : w.setHeader header with ⟨r, w₂⟩
      simp only [Writer.call, hset] at hcall
      rw [hset] at h₁
      cases r <;> cases hcall <;> exact hsame h₁ rfl
    | close =>
      obtain ⟨⟨r, w₂⟩, hf, hr⟩ := Option.map_eq_some_iff.mp hcall
      have h₁ := h.close hε hf
      cases r <;> cases hr <;> exact hsame h₁ rfl

end

end

end Writer

end GzipStream
