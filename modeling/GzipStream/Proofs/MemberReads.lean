import GzipStream.Proofs.CapturedHeaders
import GzipStream.Proofs.ReaderAccounts
import GzipStream.Proofs.ReaderRefinement

/-!
# Reads and members

A read never gives bytes of two members, and behind it the reader has the header of the member that
the bytes are from. `Reader.At` places a reader in a list of members, `GzipMember.Deals` says how
reads share out their payloads.
-/

namespace GzipStream

theorem Source.Supplies.unread_eq {s : Source} {bs : Bytes} (h : s.Supplies bs) : s.unread = bs := by
  induction s generalizing bs with
  | nil => exact h.symm
  | cons item s ih =>
    cases item with
    | data p =>
      obtain ⟨rest, rfl, hs, -⟩ := h
      rw [Source.unread, ih hs]
    | failure f => exact h.elim
    | endOfData => exact h.elim

open GzipMember (joined joined_cons)

/-- A read's bytes, and what the reader says of the header right behind it. -/
abbrev TitledRead := Bytes × Except Error Header

/-- The reads give the payloads of the members one after the other. None of them gives bytes of two
members, and behind each the header is that of its member. Of the first member `given` was read
already. -/
def GzipMember.Deals : (given : Bytes) → List GzipMember → List TitledRead → Prop
  | given, [], reads => given = [] ∧ reads = []
  | given, m :: ms, reads => ∃ (chunks : List Bytes) (later : List TitledRead),
    given ++ chunks.flatten = m.payload ∧ (∀ c ∈ chunks, c ≠ []) ∧
      reads = chunks.map (·, .ok m.header) ++ later ∧ Deals [] ms later

namespace GzipMember

variable {m : GzipMember} {ms : List GzipMember} {given bs : Bytes} {reads : List TitledRead}

/-- One more read of the first member. -/
theorem Deals.read (h : Deals (given ++ bs) (m :: ms) reads) (hne : bs ≠ []) :
    Deals given (m :: ms) ((bs, .ok m.header) :: reads) := by
  obtain ⟨chunks, later, hpayload, hchunks, rfl, hlater⟩ := h
  refine ⟨bs :: chunks, later, ?_, ?_, rfl, hlater⟩
  · rw [List.flatten_cons, ← List.append_assoc, hpayload]
  · intro c hc
    obtain rfl | hc := List.mem_cons.mp hc
    · exact hne
    · exact hchunks c hc

/-- All of the first member was read. -/
theorem Deals.next (h : Deals [] ms reads) : Deals m.payload (m :: ms) reads :=
  ⟨[], reads, List.append_nil _, nofun, rfl, h⟩

end GzipMember

namespace Reader

open GzipMember (Deals)

/-- Where a reader is: `rest` are the members it has not ended, of the first of which it took
`before` and gave `output`. The header of the last member of all is `last`. -/
structure At (f : Framing) (data : Bytes) (last : Option Header) (r : Reader Inflater)
    (rest : List GzipMember) (previous : Option Header) (finished before output coming : Bytes) :
    Prop where
  reading : r.Reading f data finished before output coming
  left_eq : before ++ (r.pending ++ coming) = joined rest
  titled : r.engine.Titled previous before
  captures : r.capture = true
  last_eq : (rest.getLast?.map GzipMember.header).or previous = last

section
variable {f : Framing} {data : Bytes} {last previous : Option Header} {r r' : Reader Inflater}
  {rest : List GzipMember} {finished before output coming : Bytes}

theorem At.header_eq {h : Header} (hat : r.At f data last rest previous finished before output coming)
    (hh : r.engine.header = some h) : r.header = .ok h := by
  have hengine : DecodeEngine.header r.engine = some h := by
    show (if r.engine.capture then r.engine.header else none) = some h
    rw [hat.titled.captures, hh]
    rfl
  simp [Reader.header, hat.captures, hat.reading.running, hengine]

/-- A reader inside a member has taken a part of the first one. -/
theorem At.member (hf : f.hasHeader = true)
    (hat : r.At f data last rest previous finished before output coming) (hne : before ≠ []) :
    ∃ m later more, rest = m :: later ∧ m.data = before ++ more := by
  cases rest with
  | nil => exact absurd (List.append_eq_nil_iff.mp hat.left_eq).1 hne
  | cons m later =>
    have hleft := hat.left_eq
    rw [joined_cons] at hleft
    obtain ⟨more, hmore, -⟩ := (m.takes hf).split hat.reading.along.takes
      (List.prefix_append _ _) ⟨_, hleft⟩ rfl
    exact ⟨m, later, more, rfl, hmore⟩

/-- The header of the member that bytes are from. -/
theorem At.header_of_output (hf : f.hasHeader = true)
    (hat : r.At f data last rest previous finished before output coming) (hne : output ≠ []) :
    ∃ m later, rest = m :: later ∧ r.header = .ok m.header := by
  have hbefore : before ≠ [] := by
    rintro rfl
    exact hne hat.reading.along.output_nil
  obtain ⟨m, later, more, rfl, hmore⟩ := hat.member hf hbefore
  have hnamed := hat.titled.named (hat.reading.along.isLate hne)
  exact ⟨m, later, rfl, hat.header_eq (hnamed.header_eq hmore)⟩

theorem At.first (hat : r.At f data last rest previous finished before output coming) :
    before = [] → ∀ b more, r.pending = b :: more → b = 0x1f := by
  rintro rfl b more hp
  have hleft := hat.left_eq
  rw [hp] at hleft
  exact GzipMember.first_of_joined hleft.symm

theorem At.fetch (hat : r.At f data last rest previous finished before output coming) :
    ∃ r' coming', r.fetch = (none, r') ∧
      r'.At f data last rest previous finished before output coming' ∧
      (r'.pending = [] → r'.exhausted = true) := by
  obtain ⟨r', coming', hfetch, hreading, hend, -⟩ := hat.reading.fetch
  refine ⟨r', coming', hfetch, ?_, hend⟩
  obtain ⟨source, pending, exhausted, rfl, hmoved⟩ := fetch_unread hfetch
  rw [hreading.supplies.unread_eq, hat.reading.supplies.unread_eq] at hmoved
  refine ⟨hreading, ?_, hat.titled, hat.captures, hat.last_eq⟩
  rw [← hat.left_eq, ← hmoved]

/-- The reader behind a step that went on. -/
theorem At.stepped {used left out : Bytes} {i : Inflater} {s : Step} {room : Nat}
    (hat : r.At f data last rest previous finished before output coming)
    (hp : r.pending = used ++ left) (hs : r.engine.step r.pending room = (s, i))
    (hc : s.consumed = used.length) (ho : s.output = out) (hok : s.status ≠ .dataError)
    (hi : i.Along f (before ++ used) (output ++ out)) :
    (r.stepped s i).At f data last rest previous finished (before ++ used) (output ++ out) coming := by
  have htitled := hat.titled.step hat.first hs hok
  rw [hc, hp, List.take_left] at htitled
  refine ⟨hat.reading.stepped hp hc ho hi, ?_, htitled, hat.captures, hat.last_eq⟩
  rw [← hat.left_eq, pending_stepped i hp hc, hp, List.append_assoc, List.append_assoc]

/-- The reader behind the end of a member, which was the first of the rest. -/
theorem At.ended {used left out : Bytes} {i : Inflater} {room : Nat} (hf : f.hasHeader = true)
    (hat : r.At f data last rest previous finished before output coming)
    (hp : r.pending = used ++ left)
    (hs : r.engine.step r.pending room = (.ended used.length out, i)) (hi : i.Over f)
    (ht : (Member.start f).Takes (before ++ used) (.done (output ++ out))) :
    ∃ m later, rest = m :: later ∧ output ++ out = m.payload ∧ i.header = some m.header ∧
      ({ r.stepped (.ended used.length out) i.startMember with
          members := r.members + 1, active := false } : Reader Inflater).At f data last later
        (some m.header) (finished ++ m.payload) [] [] coming := by
  have hleft := hat.left_eq
  rw [hp, List.append_assoc, ← List.append_assoc before] at hleft
  cases rest with
  | nil => exact absurd ht (Member.not_takes_nil rfl ⟨_, hleft⟩ rfl)
  | cons m later =>
    rw [joined_cons] at hleft
    obtain ⟨hdata, hdone⟩ := ht.unique (m.takes hf) ⟨_, hleft⟩ (List.prefix_append _ _) rfl rfl
    have hpayload : output ++ out = m.payload := Member.done.inj hdone
    have htitled := hat.titled.step hat.first hs nofun
    rw [show (Step.ended used.length out).consumed = used.length from rfl, hp, List.take_left]
      at htitled
    have hlate : i.phase.isLate = true := by rw [hi.phase]; rfl
    have hall : m.data = before ++ used ++ [] := by rw [hdata, List.append_nil]
    have hheader := (htitled.named hlate).header_eq hall
    refine ⟨m, later, rfl, hpayload, hheader, ?_, ?_, ?_, hat.captures, ?_⟩
    · rw [← hpayload]
      exact hat.reading.restarted hp rfl rfl hi ht
    · rw [hdata] at hleft
      show [] ++ ((r.stepped (.ended used.length out) i.startMember).pending ++ coming) = _
      rw [pending_stepped i.startMember hp rfl, List.nil_append]
      exact List.append_cancel_left hleft
    · rw [← hheader]
      exact htitled.startMember hf hi
    · rw [← hat.last_eq]
      cases later with
      | nil => rfl
      | cons m' later => rw [List.getLast?_cons_cons]; rfl

/-- Data that is complete does not fail. -/
theorem At.not_refused {used ahead out : Bytes} {fault : Fault} (hf : f.hasHeader = true)
    (hat : r.At f data last rest previous finished before output coming)
    (hp : used ++ ahead <+: r.pending)
    (ht : (Member.start f).Takes (before ++ used ++ ahead) (.failed out fault)) : False := by
  have hprefix : before ++ used ++ ahead <+: joined rest := by
    rw [← hat.left_eq, List.append_assoc]
    exact (List.prefix_append_right_inj _).mpr (hp.trans (List.prefix_append _ _))
  cases rest with
  | nil => exact Member.not_takes_nil rfl hprefix rfl ht
  | cons m later =>
    obtain ⟨-, hne⟩ := ht.unique (m.takes hf) hprefix
      (by rw [joined_cons]; exact List.prefix_append _ _) rfl rfl
    cases hne

/-- Data that is complete does not end inside a member. -/
theorem At.not_stalled {i : Inflater} (hf : f.hasHeader = true)
    (hat : r.At f data last rest previous finished before output coming) (hp : r.pending = [])
    (hx : r.exhausted = true) (hne : before ≠ []) (hi : i.Along f before output)
    (hc : i.CaughtUp) : False := by
  have hleft := hat.left_eq
  rw [hp, hat.reading.exhausted hx, List.append_nil, List.append_nil] at hleft
  obtain ⟨m, later, more, rfl, hmore⟩ := hat.member hf hne
  refine hi.takes.not_prefix (m.takes hf) hc.isOpen rfl ?_
  rw [hleft, joined_cons]
  exact List.prefix_append _ _

theorem At.idle (hat : r.At f data last rest previous finished [] output coming)
    (hp : r.pending = []) (hx : r.exhausted = true) : rest = [] := by
  have hleft := hat.left_eq
  rw [hp, hat.reading.exhausted hx] at hleft
  cases rest with
  | nil => rfl
  | cons m later =>
    rw [joined_cons] at hleft
    exact absurd (List.append_eq_nil_iff.mp hleft.symm).1 m.data_ne_nil

end

/-! ## One read -/

/-- A read under way, of a reader that had given `given` of the first of `ms`; its buffer holds
`got`. -/
inductive Midway (f : Framing) (data : Bytes) (last : Option Header) (given : Bytes)
    (ms : List GzipMember) : Reader Inflater → Bytes → Prop
  | intro {r : Reader Inflater} {rest : List GzipMember} {previous : Option Header}
      {finished before start got coming : Bytes}
      (place : r.At f data last rest previous finished before (start ++ got) coming)
      (deals : ∀ reads, Deals start rest reads → Deals given ms reads) :
      Midway f data last given ms r got

/-- What a read comes to. -/
inductive Dealt (f : Framing) (data : Bytes) (last : Option Header) (given : Bytes)
    (ms : List GzipMember) : Except Error Bytes → Reader Inflater → Prop
  | some {r : Reader Inflater} {rest : List GzipMember} {previous : Option Header}
      {bs finished before output coming : Bytes}
      (place : r.At f data last rest previous finished before output coming) (ne_nil : bs ≠ [])
      (deals : ∀ reads, Deals output rest reads → Deals given ms ((bs, r.header) :: reads)) :
      Dealt f data last given ms (.ok bs) r
  | none {r : Reader Inflater} {previous : Option Header} {finished coming : Bytes}
      (place : r.At f data last [] previous finished [] [] coming) (deals : Deals given ms []) :
      Dealt f data last given ms (.ok []) r

def TurnDealt (f : Framing) (data : Bytes) (last : Option Header) (given : Bytes)
    (ms : List GzipMember) (room : Nat) : Turn Inflater → Prop
  | .stop result r => Dealt f data last given ms result r
  | .again r got => Midway f data last given ms r got ∧ got.length < room

section
variable {f : Framing} {data given got : Bytes} {last : Option Header} {ms : List GzipMember}
  {r r' : Reader Inflater} {room turns : Nat}

theorem midway_start {rest : List GzipMember} {previous : Option Header}
    {finished before output coming : Bytes}
    (place : r.At f data last rest previous finished before output coming)
    (deals : ∀ reads, Deals output rest reads → Deals given ms reads) :
    Midway f data last given ms r [] :=
  .intro (by rw [List.append_nil]; exact place) deals

/-- A read that stops with bytes at hand. -/
theorem Midway.stop (hf : f.hasHeader = true) (h : Midway f data last given ms r got)
    (hne : got ≠ []) : Dealt f data last given ms (.ok got) r := by
  obtain ⟨place, deals⟩ := h
  obtain ⟨m, later, rfl, hheader⟩ :=
    place.header_of_output hf (List.append_ne_nil_of_right_ne_nil _ hne)
  refine .some place hne fun reads hreads => deals _ ?_
  rw [hheader]
  exact hreads.read hne

theorem Midway.stepTurn (hf : f.hasHeader = true) {rest : List GzipMember} {previous : Option Header}
    {finished before start coming : Bytes}
    (place : r.At f data last rest previous finished before (start ++ got) coming)
    (deals : ∀ reads, Deals start rest reads → Deals given ms reads)
    (hend : r.pending = [] → r.exhausted = true) (hbusy : r.pending = [] → before ≠ [])
    (hroom : got.length < room) : TurnDealt f data last given ms room (r.stepTurn room got) := by
  rcases hstep : r.engine.step r.pending (room - got.length) with ⟨s, i⟩
  cases place.reading.along.step (by omega) hstep with
  | working used left out hin hlen moved along full =>
    have hplace := place.stepped hin hstep rfl rfl nofun along
    rw [List.append_assoc] at hplace
    have hmidway : Midway f data last given ms (r.stepped ⟨used.length, out, .ok, none⟩ i)
        (got ++ out) := .intro hplace deals
    rw [stepTurn_worked moved hstep]
    split
    · next hfull => exact hmidway.stop hf (List.ne_nil_of_length_pos (by omega))
    · next hfull =>
      rw [List.length_append] at hfull
      exact ⟨hmidway, by rw [List.length_append]; omega⟩
  | stalled hin along caught =>
    exact (place.not_stalled hf hin (hend hin) (hbusy hin) along caught).elim
  | ended used left out hin hlen isOver takes =>
    obtain ⟨m, later, rfl, hpayload, hheader, hplace⟩ := place.ended hf hin hstep isOver takes
    rw [List.append_assoc] at hpayload
    rw [stepTurn_ended isOver hstep]
    simp only
    split
    · next hnil =>
      rw [hnil, List.append_nil] at hpayload
      rw [hnil]
      refine ⟨midway_start hplace fun reads hreads => deals _ ?_, Nat.zero_lt_of_lt hroom⟩
      rw [hpayload]
      exact hreads.next
    · next hne =>
      refine .some hplace hne fun reads hreads => deals _ ?_
      rw [hplace.header_eq hheader]
      refine GzipMember.Deals.read ?_ hne
      rw [hpayload]
      exact hreads.next
  | refused used left out ahead fault hin hlen isPrefix takes stuck =>
    refine (place.not_refused hf ?_ takes).elim
    rw [hin]
    exact (List.prefix_append_right_inj _).mpr isPrefix

theorem Midway.turn (hf : f.hasHeader = true) (h : Midway f data last given ms r got)
    (hroom : got.length < room) : TurnDealt f data last given ms room (r.turn room got) := by
  unfold Reader.turn
  split
  · next hstop =>
    simp only [Bool.and_eq_true, Bool.not_eq_true', List.isEmpty_eq_false_iff] at hstop
    exact h.stop hf hstop.2
  · obtain ⟨place, deals⟩ := h
    obtain ⟨r₁, coming, hfetch, hplace, hend⟩ := place.fetch
    rw [hfetch]
    simp only
    have hactive := hplace.reading.active_eq
    split
    · next hstop =>
      simp only [Bool.and_eq_true, Bool.not_eq_true', List.isEmpty_iff] at hstop
      obtain ⟨⟨hexhausted, hpending⟩, hidle⟩ := hstop
      rw [hidle] at hactive
      obtain rfl := List.isEmpty_iff.mp (by simpa using hactive.symm)
      obtain ⟨rfl, rfl⟩ := List.append_eq_nil_iff.mp hplace.reading.along.output_nil
      obtain rfl := hplace.idle hpending hexhausted
      have hreading := hplace.reading
      refine .none ⟨⟨hreading.along, hreading.behind, hreading.supplies, hreading.active_eq,
        hreading.exhausted, hreading.totalIn_eq, hreading.totalOut_eq, hreading.running,
        hreading.failure_eq⟩, hplace.left_eq, hplace.titled, hplace.captures, hplace.last_eq⟩ ?_
      exact deals _ ⟨rfl, rfl⟩
    · next hgo =>
      refine Midway.stepTurn hf hplace deals hend ?_ hroom
      intro hp hbefore
      apply hgo
      rw [hend hp, hp, hactive, hbefore]
      rfl

theorem Midway.turnLoop (hf : f.hasHeader = true) {result : Except Error Bytes}
    (h : Midway f data last given ms r got) (hroom : got.length < room)
    (hloop : r.turnLoop turns room got = some (result, r')) :
    Dealt f data last given ms result r' := by
  induction turns generalizing r got with
  | zero => cases hloop
  | succ turns ih =>
    have hturn := h.turn hf hroom
    unfold Reader.turnLoop at hloop
    cases ht : r.turn room got with
    | stop result₁ r₁ =>
      rw [ht] at hloop hturn
      cases hloop
      exact hturn
    | again r₁ got₁ =>
      rw [ht] at hloop hturn
      exact ih hturn.1 hturn.2 hloop

/-- A read of a reader that is at `ms` and has given `given` of the first of them. -/
theorem At.read (hf : f.hasHeader = true) {previous : Option Header}
    {finished before coming : Bytes} {result : Except Error Bytes}
    (h : r.At f data last ms previous finished before given coming) (hroom : 0 < room)
    (hread : r.read turns room = some (result, r')) : Dealt f data last given ms result r' := by
  cases read_outcome hread with
  | kept failure_eq =>
    rw [h.reading.failure_eq] at failure_eq
    cases failure_eq
  | pastEnd failure_eq released =>
    rw [h.reading.running] at released
    cases released
  | pastClose failure_eq released =>
    rw [h.reading.running] at released
    cases released
  | noRoom failure_eq held room_eq => exact absurd room_eq (Nat.ne_of_gt hroom)
  | looped failure_eq held room_ne loop =>
    have hstart : Midway f data last given ms r [] := midway_start h fun _ => id
    cases hstart.turnLoop hf hroom loop with
    | some place ne_nil deals => exact .some place ne_nil deals
    | none place deals => exact .none place deals

end

/-! ## Reads to the end -/

/-- Reads until the end of data or an error, the `k`-th time into a buffer of `sizes k` bytes, and
asks for the header behind every read that gave bytes. -/
def titledReads {ε : Type} [DecodeEngine ε] (turns : Nat) (sizes : Nat → Nat) : (reads k : Nat) →
    Reader ε → Option (List TitledRead × Option Error × Reader ε)
  | 0, _, _ => none
  | reads + 1, k, r =>
    match r.read turns (sizes k) with
    | none => none
    | some (.error e, r) => some ([], some e, r)
    | some (.ok [], r) => some ([], none, r)
    | some (.ok bs, r) =>
      match titledReads turns sizes reads (k + 1) r with
      | none => none
      | some (rest, failure, r') => some ((bs, r.header) :: rest, failure, r')

/-- Without the headers these are the reads of `drain`. -/
theorem drain_eq_titledReads {ε : Type} [DecodeEngine ε] (turns : Nat) (sizes : Nat → Nat)
    (reads k : Nat) (r : Reader ε) (got : Bytes) :
    r.drain turns sizes reads k got = (r.titledReads turns sizes reads k).map
      fun (rs, failure, r') => (got ++ rs.flatMap Prod.fst, failure, r') := by
  induction reads generalizing k r got with
  | zero => rfl
  | succ reads ih =>
    unfold drain titledReads
    rcases r.read turns (sizes k) with _ | ⟨_ | bs, r₁⟩
    · rfl
    · simp
    · cases bs with
      | nil => simp
      | cons b bs =>
        simp only [ih]
        cases r₁.titledReads turns sizes reads (k + 1) with
        | none => rfl
        | some rest => simp

theorem At.titledReads {f : Framing} (hf : f.hasHeader = true) {data given : Bytes}
    {last previous : Option Header} {ms : List GzipMember} {r r' : Reader Inflater}
    {finished before coming : Bytes} {turns reads k : Nat} {sizes : Nat → Nat}
    {rs : List TitledRead} {failure : Option Error} (hsizes : ∀ k, 0 < sizes k)
    (h : r.At f data last ms previous finished before given coming)
    (hreads : r.titledReads turns sizes reads k = some (rs, failure, r')) :
    failure = none ∧ Deals given ms rs ∧ ∀ title, last = some title → r'.header = .ok title := by
  induction reads generalizing r k previous finished before coming given ms rs with
  | zero => cases hreads
  | succ reads ih =>
    unfold Reader.titledReads at hreads
    split at hreads
    · cases hreads
    · next hread => cases h.read hf (hsizes k) hread
    · next hread =>
      cases hreads
      cases h.read hf (hsizes k) hread with
      | some place ne_nil => exact absurd rfl ne_nil
      | none place deals =>
        refine ⟨rfl, deals, fun title htitle => place.header_eq ?_⟩
        rw [place.titled.header_of_nil, ← htitle, ← place.last_eq]
        rfl
    · next bs r₁ hne hread =>
      cases h.read hf (hsizes k) hread with
      | none => exact absurd rfl hne
      | some place ne_nil deals =>
        split at hreads
        · cases hreads
        · next hrest =>
          cases hreads
          obtain ⟨hnone, hdeals, hlast⟩ := ih place hrest
          exact ⟨hnone, deals _ hdeals, hlast⟩

end Reader

end GzipStream
