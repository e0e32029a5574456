import GzipStream.Proofs.HeaderRuns
import GzipStream.Proofs.Members

/-!
# Captured headers

A gzip member is a header, a stream and a trailer. `Inflater.Titled` says what an engine that keeps
headers knows of the member of which it took `before`: it holds the header of the previous member
until it has read this one's to its end, and this one's from then on.
-/

namespace GzipStream

/-- A complete gzip member and the parser that has read its header. -/
structure GzipMember where
  head : Bytes
  body : Bytes
  payload : Bytes
  parser : HeaderParser
  parse_eq : ({} : HeaderParser).parse head = (parser, .ok head.length)
  isDone : parser.isDone = true
  decodes : Deflate.Decodes false body payload

namespace GzipMember

def data (m : GzipMember) : Bytes := m.head ++ m.body ++ Trailer.ofPayload m.payload

/-- The header as the parser gives it away. -/
def header (m : GzipMember) : Header := m.parser.takeHeader.1

/-- The members one behind the other. -/
def joined (ms : List GzipMember) : Bytes := ms.flatMap data

@[simp] theorem joined_nil : joined [] = [] := rfl

@[simp] theorem joined_cons (m : GzipMember) (ms : List GzipMember) :
    joined (m :: ms) = m.data ++ joined ms := List.flatMap_cons

theorem isMember (m : GzipMember) {f : Framing} (hf : f.hasHeader = true) :
    IsMember f m.data m.payload := by
  have hm : IsGzipMember m.data m.payload :=
    ⟨m.head, m.body, rfl, ⟨m.parser, m.parse_eq, m.isDone⟩, m.decodes⟩
  cases f with
  | gzip => exact hm
  | auto => exact .inl hm
  | raw => cases hf
  | zlib => cases hf

theorem takes (m : GzipMember) {f : Framing} (hf : f.hasHeader = true) :
    (Member.start f).Takes m.data (.done m.payload) := isMember_iff.mp (m.isMember hf)

theorem data_ne_nil (m : GzipMember) : m.data ≠ [] := by
  intro hnil
  have ht : (Member.start .gzip).Takes m.data (.done m.payload) := m.takes rfl
  rw [hnil] at ht
  cases ht

/-- Members begin with the first byte of the magic number. -/
theorem first_of_joined {ms : List GzipMember} {b : UInt8} {rest : Bytes}
    (h : joined ms = b :: rest) : b = 0x1f := by
  cases ms with
  | nil => cases h
  | cons m ms =>
    have ht : (Member.start .gzip).Takes m.data (.done m.payload) := m.takes rfl
    rw [joined_cons] at h
    cases hdata : m.data with
    | nil => exact absurd hdata m.data_ne_nil
    | cons c data =>
      rw [hdata] at h ht
      cases h
      have hfirst : (#[b] : Array UInt8).getD 0 0 = 0x1f := Member.first_of_takes Nat.one_pos ht.2
      exact hfirst

theorem reads (m : GzipMember) : ({} : HeaderParser).Reads m.head m.parser := by
  have hparse := m.parse_eq
  rw [HeaderParser.parse] at hparse
  obtain ⟨used, rest, hhead, hlen, hreads, -⟩ := HeaderParser.reads_of_feedAll hparse
  have hrest : rest = [] := by
    rw [hhead, List.length_append] at hlen
    exact List.length_eq_zero_iff.mp (by omega)
  rwa [hhead, hrest, List.append_nil]

end GzipMember

namespace Inflater

/-- The header of the member of which `before` was taken is kept. -/
def Named (i : Inflater) (before : Bytes) : Prop :=
  ∃ head p, head <+: before ∧ ({} : HeaderParser).Reads head p ∧ p.isDone = true ∧
    i.header = some p.header

/-- What is kept, by the phase of the engine. -/
def TitledIn (i : Inflater) (previous : Option Header) (before : Bytes) : Phase → Prop
  | .detect => before = [] ∧ i.parser = {} ∧ i.header = previous
  | .header => ({} : HeaderParser).Reads before i.parser ∧ i.header = previous
  | .body | .trailer | .done => i.Named before

/-- The engine keeps headers, and the one it has is that of its member or the previous one. -/
structure Titled (i : Inflater) (previous : Option Header) (before : Bytes) : Prop where
  captures : i.capture = true
  title : i.TitledIn previous before i.phase

theorem Named.append {i i' : Inflater} {before : Bytes} (h : i.Named before) (more : Bytes)
    (hheader : i'.header = i.header) : i'.Named (before ++ more) := by
  obtain ⟨head, p, hhead, hreads, hdone, hp⟩ := h
  exact ⟨head, p, hhead.trans (List.prefix_append _ _), hreads, hdone, hheader.trans hp⟩

/-- The header that is kept is that of the member itself. -/
theorem Named.header_eq {i : Inflater} {before more : Bytes} (h : i.Named before) {m : GzipMember}
    (hm : m.data = before ++ more) : i.header = some m.header := by
  obtain ⟨head, p, hhead, hreads, hdone, hp⟩ := h
  have hx : head <+: m.data := by
    rw [hm]
    exact hhead.trans (List.prefix_append _ _)
  have hy : m.head <+: m.data := by
    rw [GzipMember.data, List.append_assoc]
    exact List.prefix_append _ _
  obtain ⟨-, rfl⟩ := hreads.unique m.reads hx hy hdone m.isDone
  exact hp

/-! ## Steps behind the header -/

/-- The engine is behind the header of its member. -/
def Phase.isLate : Phase → Bool
  | .detect | .header => false
  | .body | .trailer | .done => true

/-- A step that is behind the header changes nothing that is kept. -/
structure Keeps (i i' : Inflater) : Prop where
  captures : i'.capture = i.capture
  header_eq : i'.header = i.header
  isLate : i'.phase.isLate = true

theorem keeps_trailerStep {i : Inflater} (hp : i.phase = .trailer) (input : Bytes) (n : Nat)
    (output : Bytes) : i.Keeps (i.trailerStep input n output).2 := by
  unfold trailerStep
  simp only
  split
  · exact ⟨rfl, rfl, by rw [hp]; rfl⟩
  · split
    · exact ⟨rfl, rfl, by rw [hp]; rfl⟩
    · exact ⟨rfl, rfl, rfl⟩

theorem keeps_bodyStep {i : Inflater} (hp : i.phase = .body) (input : Bytes) (room n : Nat) :
    i.Keeps (i.bodyStep input room n).2 := by
  rcases hdec : i.decoder.decode input room with ⟨d, out, v⟩
  have hdecoded : i.Keeps (i.decoded d out) := ⟨rfl, rfl, by rw [decoded, hp]; rfl⟩
  cases v with
  | waiting =>
    rw [bodyStep_waiting hdec]
    exact hdecoded
  | refused f =>
    rw [bodyStep_refused hdec]
    exact hdecoded
  | ended =>
    rw [bodyStep_ended hdec]
    split
    · have h := keeps_trailerStep (i := { i.decoded d out with phase := .trailer }) rfl
        (input.drop (d.totalIn - i.decoder.totalIn)) (n + (d.totalIn - i.decoder.totalIn)) out
      exact ⟨h.captures, h.header_eq, h.isLate⟩
    · exact ⟨rfl, rfl, rfl⟩

theorem le_consumed_trailerStep (i : Inflater) (input : Bytes) (n : Nat) (output : Bytes) :
    n ≤ (i.trailerStep input n output).1.consumed := by
  unfold trailerStep
  simp only
  split
  · exact Nat.le_add_right _ _
  · split
    · exact Nat.le_add_right _ _
    · exact Nat.le_add_right _ _

/-- What was taken before a step of the body counts as taken in it. -/
theorem le_consumed_bodyStep (i : Inflater) (input : Bytes) (room n : Nat) :
    n ≤ (i.bodyStep input room n).1.consumed := by
  rcases hdec : i.decoder.decode input room with ⟨d, out, v⟩
  cases v with
  | waiting =>
    rw [bodyStep_waiting hdec]
    exact Nat.le_add_right _ _
  | refused f =>
    rw [bodyStep_refused hdec]
    exact Nat.le_add_right _ _
  | ended =>
    rw [bodyStep_ended hdec]
    split
    · exact Nat.le_trans (Nat.le_add_right _ _) (le_consumed_trailerStep _ _ _ _)
    · exact Nat.le_add_right _ _

theorem Titled.late {i i' : Inflater} {previous : Option Header} {before : Bytes}
    (hi : i.capture = true) (h : i.Named before) (more : Bytes) (hk : i.Keeps i') :
    i'.Titled previous (before ++ more) := by
  refine ⟨hk.captures.trans hi, ?_⟩
  have hnamed := h.append more hk.header_eq
  have hlate := hk.isLate
  cases hphase : i'.phase with
  | detect => rw [hphase] at hlate; cases hlate
  | header => rw [hphase] at hlate; cases hlate
  | body => exact hnamed
  | trailer => exact hnamed
  | done => exact hnamed

/-! ## Steps -/

variable {i i' : Inflater} {previous : Option Header} {before input : Bytes} {room : Nat} {s : Step}

theorem Titled.headerStep (h : i.Titled previous before) (hp : i.phase = .header)
    (hs : i.headerStep input room = (s, i')) (hok : s.status ≠ .dataError) :
    i'.Titled previous (before ++ input.take s.consumed) := by
  obtain ⟨hreads, hheader⟩ : ({} : HeaderParser).Reads before i.parser ∧ i.header = previous := by
    have := h.title
    rwa [hp] at this
  rcases hparse : i.parser.parse input with ⟨p, answer⟩
  cases answer with
  | error d =>
    rw [headerStep_refused hparse] at hs
    cases hs
    exact absurd rfl hok
  | ok n =>
    have hfeed : i.parser.feedAll 0 input = (p, .ok n) := by
      rwa [HeaderParser.parse, hreads.not_stalled rfl] at hparse
    obtain ⟨used, rest, rfl, hn, hused, -⟩ := HeaderParser.reads_of_feedAll hfeed
    rw [Nat.zero_add] at hn
    subst hn
    cases hd : p.isDone with
    | false =>
      rw [headerStep_more hparse hd] at hs
      cases hs
      refine ⟨h.captures, ?_⟩
      show TitledIn _ previous _ i.phase
      rw [hp]
      refine ⟨?_, hheader⟩
      rw [show (Step.worked used.length []).consumed = used.length from rfl, List.take_left]
      exact hreads.append hused
    | true =>
      rw [headerStep_done hparse hd, List.drop_left] at hs
      have hnamed : (i.opened p).Named (before ++ used) :=
        ⟨before ++ used, p, List.prefix_rfl, hreads.append hused, hd, if_pos h.captures⟩
      have hk := keeps_bodyStep (i := i.opened p) rfl rest room used.length
      have hle := le_consumed_bodyStep (i.opened p) rest room used.length
      rw [hs] at hk hle
      rw [List.take_append, List.take_of_length_le hle, ← List.append_assoc]
      exact .late (i := i.opened p) h.captures hnamed _ hk

/-- A step that does not fail leaves an engine that knows its member. What begins a member begins
like a gzip member. -/
theorem Titled.step (h : i.Titled previous before)
    (hfirst : before = [] → ∀ b rest, input = b :: rest → b = 0x1f)
    (hs : i.step input room = (s, i')) (hok : s.status ≠ .dataError) :
    i'.Titled previous (before ++ input.take s.consumed) := by
  have htitle := h.title
  unfold Inflater.step at hs
  split at hs
  · cases hs
    simpa [Step.failed] using h
  · cases hp : i.phase with
    | detect =>
      rw [hp] at hs htitle
      obtain ⟨rfl, hparser, hheader⟩ := htitle
      cases input with
      | nil =>
        cases hs
        simpa [Step.worked] using h
      | cons b rest =>
        simp only [detectStep, if_pos (hfirst rfl b rest rfl)] at hs
        have hbegun : ({ i with member := .gzip, phase := .header } : Inflater).Titled previous [] :=
          ⟨h.captures, by rw [hparser]; exact .nil _, hheader⟩
        exact hbegun.headerStep rfl hs hok
    | header =>
      rw [hp] at hs
      exact h.headerStep hp hs hok
    | body =>
      rw [hp] at hs htitle
      have hk := keeps_bodyStep hp input room 0
      rw [show i.bodyStep input room 0 = _ from hs] at hk
      exact .late h.captures htitle _ hk
    | trailer =>
      rw [hp] at hs htitle
      have hk := keeps_trailerStep hp input 0 []
      rw [show i.trailerStep input 0 [] = _ from hs] at hk
      exact .late h.captures htitle _ hk
    | done =>
      rw [hp] at hs htitle
      cases hs
      exact .late h.captures htitle _ ⟨rfl, rfl, by rw [hp]; rfl⟩

/-- An engine at the start of a member keeps the header that it has. -/
theorem titled_startMember (hf : i.framing.hasHeader = true) (hc : i.capture = true) :
    i.startMember.Titled i.header [] := by
  cases i with
  | mk f =>
    cases f with
    | auto => exact ⟨hc, rfl, rfl, rfl⟩
    | gzip => exact ⟨hc, .nil _, rfl⟩
    | raw => cases hf
    | zlib => cases hf

theorem titled_start {f : Framing} (hf : f.hasHeader = true) (previous : Option Header) :
    ({ new f with capture := true, header := previous } : Inflater).Titled previous [] :=
  titled_startMember (i := { new f with capture := true, header := previous }) hf rfl

/-- An engine at the end of its member keeps the header for the time of the next one's. -/
theorem Titled.startMember {f : Framing} (hf : f.hasHeader = true) (h : i.Titled previous before)
    (ho : i.Over f) : i.startMember.Titled i.header [] :=
  titled_startMember (by rw [ho.framing_eq]; exact hf) h.captures

/-- An engine that gave output, or is at the end of its member, is behind its header. -/
theorem Titled.named (h : i.Titled previous before) (hlate : i.phase.isLate = true) :
    i.Named before := by
  have htitle := h.title
  cases hp : i.phase with
  | detect => rw [hp] at hlate; cases hlate
  | header => rw [hp] at hlate; cases hlate
  | body => rwa [hp] at htitle
  | trailer => rwa [hp] at htitle
  | done => rwa [hp] at htitle

/-- Nothing of a member was taken, so the header is the previous one's. -/
theorem Titled.header_of_nil (h : i.Titled previous []) : i.header = previous := by
  have htitle := h.title
  -- a header has at least one byte
  have hnamed : ¬ i.Named [] := by
    rintro ⟨head, p, hhead, hreads, hdone, -⟩
    rw [List.prefix_nil] at hhead
    rw [hhead] at hreads
    cases hreads
    cases hdone
  cases hp : i.phase with
  | detect => rw [hp] at htitle; exact htitle.2.2
  | header => rw [hp] at htitle; exact htitle.2
  | body => rw [hp] at htitle; exact absurd htitle hnamed
  | trailer => rw [hp] at htitle; exact absurd htitle hnamed
  | done => rw [hp] at htitle; exact absurd htitle hnamed

theorem Along.isLate {f : Framing} {output : Bytes} (h : i.Along f before output)
    (hne : output ≠ []) : i.phase.isLate = true := by
  have hphase := h.sound.phase
  have hpayload := h.payload_eq
  cases hp : i.phase with
  | detect =>
    rw [hp] at hphase
    exact absurd (hpayload.symm.trans hphase.2.payload_eq) hne
  | header =>
    rw [hp] at hphase
    exact absurd (hpayload.symm.trans hphase.2.2.payload_eq) hne
  | body => rfl
  | trailer => rfl
  | done => rfl

end Inflater

end GzipStream
