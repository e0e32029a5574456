import GzipStream.Proofs.Members
import GzipStream.Proofs.ReaderRefinement

/-!
# Data of several members

Members one behind the other decode to their payloads one behind the other, whatever follows them
(`inflate_append`). Data that is cut off between two members is complete, and cut off anywhere else
it is truncated there (`truncation_at_every_cut`). Both hold of `inflate` and of readers.
-/

namespace GzipStream

open CompleteMember (joined payloads)

variable {f : Framing} {data out : Bytes} {members : Nat} {ending : Ending}

theorem Archive.inflate_eq (h : Archive f data out members ending) :
    inflate data f = ending.answer data.length out := by
  obtain ⟨out', members', ending', h', heq⟩ := inflate_spec data f
  obtain ⟨rfl, rfl, rfl⟩ := h.unique h'
  exact heq

/-- A complete member alone decodes to its payload. -/
theorem IsMember.inflate_eq {payload : Bytes} (h : IsMember f data payload) :
    inflate data f = .ok payload :=
  (Archive.single (isMember_iff.mp h)).inflate_eq

theorem members_of_inflate (h : inflate data f = .ok out) :
    ∃ ms : List (CompleteMember f), joined ms = data ∧ payloads ms = out := by
  obtain ⟨out', members, ending, ha, heq⟩ := inflate_spec data f
  rw [heq] at h
  cases ending with
  | clean =>
    cases h
    obtain ⟨ms, hdata, hout, -⟩ := ha.exists_members rfl
    exact ⟨ms, hdata, hout⟩
  | truncated => cases h
  | refused fault => cases h

namespace Reader

/-- How data reaches a reader and is read from it: the pieces in which the source deals it out, and
the size of each read. -/
structure Schedule (data : Bytes) where
  pieces : List Bytes
  sizes : Nat → Nat
  flatten_eq : pieces.flatten = data
  pieces_ne_nil : ∀ p ∈ pieces, p ≠ []
  sizes_pos : ∀ k, 0 < sizes k

/-- A reader that is drained by this schedule ends so, given turns and reads enough. -/
def Schedule.Ends (s : Schedule data) (o : Options)
    (ends : (got : Bytes) → (failure : Option Error) → Reader Inflater → Prop) : Prop :=
  ∃ r, withOptions (s.pieces.map .data) o = .ok r ∧
    ∀ turns reads, readTurns data.length ≤ turns → readTurns data.length ≤ reads →
      ∃ got failure r', r.drain turns s.sizes reads 0 [] = some (got, failure, r') ∧
        ends got failure r'

theorem Schedule.Ends.imp {s : Schedule data} {o : Options}
    {ends ends' : Bytes → Option Error → Reader Inflater → Prop} (h : s.Ends o ends)
    (himp : ∀ got failure r, ends got failure r → ends' got failure r) : s.Ends o ends' := by
  obtain ⟨r, hr, hdrain⟩ := h
  refine ⟨r, hr, fun turns reads hturns hreads => ?_⟩
  obtain ⟨got, failure, r', hd, hends⟩ := hdrain turns reads hturns hreads
  exact ⟨got, failure, r', hd, himp got failure r' hends⟩

theorem Schedule.ends_of_drained (s : Schedule data) {o : Options} (ho : o.validate = .ok ())
    (hf : o.decodeFraming = f)
    {ends : Bytes → Option Error → Reader Inflater → Prop}
    (h : ∀ got failure r, Drained f data got failure r → ends got failure r) : s.Ends o ends := by
  have hsupplies := Source.supplies_map s.pieces_ne_nil
  rw [s.flatten_eq] at hsupplies
  obtain ⟨r, hr, hreading, hw⟩ := reading_start hsupplies ho
  rw [hf] at hreading
  refine ⟨r, hr, ?_⟩
  intro turns reads hturns hreads
  obtain ⟨got, failure, r', hdrain, hd⟩ := hreading.drain_spec s.sizes_pos reads 0
    (Nat.lt_of_lt_of_le hw hturns) (Nat.lt_of_lt_of_le hw hreads)
  exact ⟨got, failure, r', hdrain, h got failure r' hd⟩

theorem Schedule.ends_clean (s : Schedule data) {o : Options} (ho : o.validate = .ok ())
    (hf : o.decodeFraming = f) (ha : Archive f data out members .clean) :
    s.Ends o fun got failure r => got = out ∧ failure = none ∧ r.members = members := by
  refine s.ends_of_drained ho hf ?_
  intro got failure r hd
  cases hd with
  | all archive totalIn_eq totalOut_eq close_eq =>
    obtain ⟨rfl, rfl, -⟩ := ha.unique archive
    exact ⟨rfl, rfl, rfl⟩
  | part archive isPrefix error_eq =>
    obtain ⟨-, -, rfl⟩ := ha.unique archive
    cases error_eq

theorem Schedule.ends_truncated (s : Schedule data) {o : Options} (ho : o.validate = .ok ())
    (hf : o.decodeFraming = f) (ha : Archive f data out members .truncated) :
    s.Ends o fun _ failure _ => failure = some (.truncatedStream data.length) := by
  refine s.ends_of_drained ho hf ?_
  intro got failure r hd
  cases hd with
  | all archive totalIn_eq totalOut_eq close_eq =>
    obtain ⟨-, -, hne⟩ := ha.unique archive
    cases hne
  | part archive isPrefix error_eq =>
    obtain ⟨-, -, rfl⟩ := ha.unique archive
    exact error_eq.symm

theorem Schedule.ends_refused (s : Schedule data) {o : Options} (ho : o.validate = .ok ())
    (hf : o.decodeFraming = f) {fault : Fault} (ha : Archive f data out members (.refused fault)) :
    s.Ends o fun got failure _ => got <+: out ∧ failure = some (.dataCorrupt fault.message) := by
  refine s.ends_of_drained ho hf ?_
  intro got failure r hd
  cases hd with
  | all archive totalIn_eq totalOut_eq close_eq =>
    obtain ⟨-, -, hne⟩ := ha.unique archive
    cases hne
  | part archive isPrefix error_eq =>
    obtain ⟨rfl, -, rfl⟩ := ha.unique archive
    exact ⟨isPrefix, error_eq.symm⟩

end Reader

/-- What decodes cleanly decodes to the same in front of other data, which itself decodes, ends and
fails as it does alone. A reader counts the members of both, empty ones included. -/
theorem inflate_append (f : Framing) (a b x : Bytes) (ha : inflate a f = .ok x) :
    (∀ y, inflate b f = .ok y → inflate (a ++ b) f = .ok (x ++ y)) ∧
    (∀ n, inflate b f = .error (.truncatedStream n) →
      inflate (a ++ b) f = .error (.truncatedStream (a.length + n))) ∧
    (∀ e, inflate b f = .error e → (∀ n, e ≠ .truncatedStream n) → inflate (a ++ b) f = .error e) ∧
    (∀ y, inflate b f = .ok y → ∃ as bs : List (CompleteMember f),
      joined as = a ∧ payloads as = x ∧ joined bs = b ∧ payloads bs = y ∧
      ∀ o : Options, o.validate = .ok () → o.decodeFraming = f →
        (∀ s : Reader.Schedule a, s.Ends o fun got failure r =>
          got = x ∧ failure = none ∧ r.members = as.length) ∧
        (∀ s : Reader.Schedule b, s.Ends o fun got failure r =>
          got = y ∧ failure = none ∧ r.members = bs.length) ∧
        (∀ s : Reader.Schedule (a ++ b), s.Ends o fun got failure r =>
          got = x ++ y ∧ failure = none ∧ r.members = as.length + bs.length)) := by
  obtain ⟨as, rfl, rfl⟩ := members_of_inflate ha
  obtain ⟨out, members, ending, hb, hinflate⟩ := inflate_spec b f
  have happend := (Archive.members_append as hb).inflate_eq
  rw [List.length_append] at happend
  refine ⟨?_, ?_, ?_, ?_⟩
  · intro y hy
    rw [hinflate] at hy
    cases ending <;> cases hy
    exact happend
  · intro n hn
    rw [hinflate] at hn
    cases ending <;> cases hn
    exact happend
  · intro e he hne
    rw [hinflate] at he
    cases ending with
    | clean => cases he
    | truncated => exact absurd (Except.error.inj he).symm (hne b.length)
    | refused fault =>
      cases he
      exact happend
  · intro y hy
    obtain ⟨bs, rfl, rfl⟩ := members_of_inflate hy
    refine ⟨as, bs, rfl, rfl, rfl, rfl, ?_⟩
    intro o ho hf
    exact ⟨fun s => s.ends_clean ho hf (.of_members as), fun s => s.ends_clean ho hf (.of_members bs),
      fun s => s.ends_clean ho hf (.members_append as (.of_members bs))⟩

/-- A stored block of no bytes, and one of a single byte. -/
def emptyStored : Bytes := [1, 0, 0, 255, 255]

def letterStored : Bytes := [1, 1, 0, 254, 255, 104]

/-- An empty member in front of another, which is counted though it gives no byte. -/
theorem inflate_append_empty_member :
    inflate emptyStored .raw = .ok [] ∧ inflate (emptyStored ++ letterStored) .raw = .ok [104] ∧
      ∃ as bs : List (CompleteMember .raw), joined as = emptyStored ∧ joined bs = letterStored ∧
        ∀ s : Reader.Schedule (emptyStored ++ letterStored), s.Ends { format := .flate }
          fun got failure r => got = [104] ∧ failure = none ∧ r.members = as.length + bs.length := by
  have ha : inflate emptyStored .raw = .ok [] := by cbv
  have hb : inflate letterStored .raw = .ok [104] := by cbv
  obtain ⟨happend, -, -, hreader⟩ := inflate_append .raw emptyStored letterStored [] ha
  obtain ⟨as, bs, has, -, hbs, -, hreports⟩ := hreader [104] hb
  exact ⟨ha, happend [104] hb, as, bs, has, hbs, (hreports { format := .flate } rfl rfl).2.2⟩

/-! ## Cuts -/

namespace CompleteMember

/-- A cut leaves some of the members, and nothing or a part of the next. -/
theorem take_joined (ms : List (CompleteMember f)) {c : Nat} (hc : c ≤ (joined ms).length) :
    ∃ j rest, j ≤ ms.length ∧ (joined ms).take c = joined (ms.take j) ++ rest ∧
      c = (joined (ms.take j)).length + rest.length ∧
      (rest ≠ [] → ∃ (m : CompleteMember f) (ahead : Bytes), ahead ≠ [] ∧ m.data = rest ++ ahead) := by
  induction ms generalizing c with
  | nil =>
    obtain rfl : c = 0 := Nat.le_zero.mp hc
    exact ⟨0, [], Nat.le_refl 0, rfl, rfl, fun h => absurd rfl h⟩
  | cons m ms ih =>
    rw [joined_cons, List.length_append] at hc
    by_cases hlt : c < m.data.length
    · refine ⟨0, m.data.take c, Nat.zero_le _, ?_, ?_, fun _ => ⟨m, m.data.drop c, ?_, ?_⟩⟩
      · rw [joined_cons, List.take_append_of_le_length (Nat.le_of_lt hlt)]
        rfl
      · rw [List.length_take, Nat.min_eq_left (Nat.le_of_lt hlt)]
        exact (Nat.zero_add c).symm
      · rw [← List.length_pos_iff, List.length_drop]
        omega
      · exact (List.take_append_drop c m.data).symm
    · obtain ⟨j, rest, hj, htake, hlen, hnext⟩ := ih (c := c - m.data.length) (by omega)
      refine ⟨j + 1, rest, Nat.succ_le_succ hj, ?_, ?_, hnext⟩
      · rw [joined_cons, List.take_append, List.take_of_length_le (by omega), htake,
          List.take_succ_cons, joined_cons, List.append_assoc]
      · rw [List.take_succ_cons, joined_cons, List.length_append]
        omega

/-- A cut between two members leaves those in front of it. -/
theorem take_joined_boundary (ms : List (CompleteMember f)) (j : Nat) :
    (joined ms).take (joined (ms.take j)).length = joined (ms.take j) := by
  have hsplit : joined ms = joined (ms.take j) ++ joined (ms.drop j) := by
    rw [← joined_append, List.take_append_drop]
  rw [hsplit, List.take_left]

end CompleteMember

/-- What is left of members that are cut off inside one of them. -/
theorem Archive.of_cut (ms : List (CompleteMember f)) {c : Nat} (hc : c ≤ (joined ms).length)
    (hcut : ∀ j, j ≤ ms.length → c ≠ (joined (ms.take j)).length) :
    ∃ out members, Archive f ((joined ms).take c) out members .truncated := by
  obtain ⟨j, rest, hj, htake, hlen, hnext⟩ := CompleteMember.take_joined ms hc
  have hne : rest ≠ [] := by
    rintro rfl
    exact hcut j hj hlen
  obtain ⟨m, ahead, hahead, hm⟩ := hnext hne
  have htakes := isMember_iff.mp m.complete
  rw [hm] at htakes
  obtain ⟨m', htaken, hopen⟩ := Follows.cut htakes hahead
  rw [htake]
  exact ⟨_, _, .members_append (ms.take j) (.truncated hne htaken hopen)⟩

/-- Members that are cut off anywhere: between two of them the payloads in front are all there is,
and anywhere else the data is truncated where it ends. -/
theorem truncation_at_every_cut (f : Framing) (ms : List (CompleteMember f)) (c : Nat)
    (hc : c ≤ (joined ms).length) :
    (∀ j, j ≤ ms.length → c = (joined (ms.take j)).length →
      inflate ((joined ms).take c) f = .ok (payloads (ms.take j)) ∧
      ∀ o : Options, o.validate = .ok () → o.decodeFraming = f →
        ∀ s : Reader.Schedule ((joined ms).take c), s.Ends o fun got failure r =>
          got = payloads (ms.take j) ∧ failure = none ∧ r.members = j) ∧
    ((∀ j, j ≤ ms.length → c ≠ (joined (ms.take j)).length) →
      inflate ((joined ms).take c) f = .error (.truncatedStream c) ∧
      ∀ o : Options, o.validate = .ok () → o.decodeFraming = f →
        ∀ s : Reader.Schedule ((joined ms).take c), s.Ends o fun _ failure _ =>
          failure = some (.truncatedStream c)) := by
  have hlen : ((joined ms).take c).length = c := by rw [List.length_take, Nat.min_eq_left hc]
  constructor
  · intro j hj hboundary
    have ha := Archive.of_members (ms.take j)
    rw [← CompleteMember.take_joined_boundary ms j, ← hboundary, List.length_take,
      Nat.min_eq_left hj] at ha
    exact ⟨ha.inflate_eq, fun o ho hf s => s.ends_clean ho hf ha⟩
  · intro hcut
    obtain ⟨out, members, ha⟩ := Archive.of_cut ms hc hcut
    constructor
    · rw [ha.inflate_eq, hlen]
      rfl
    · intro o ho hf s
      have hends := s.ends_truncated ho hf ha
      rwa [hlen] at hends

def emptyMember : CompleteMember .raw where
  data := emptyStored
  payload := []
  complete := ⟨0, ((Deflate.Decoder.start false).decode emptyStored 0).1, by cbv, by cbv⟩

def letterMember : CompleteMember .raw where
  data := letterStored
  payload := [104]
  complete := ⟨1, ((Deflate.Decoder.start false).decode letterStored 1).1, by cbv, by cbv⟩

/-- Two members, cut off in the second and between them. -/
theorem truncation_at_every_cut_of_two :
    inflate ((joined [emptyMember, letterMember]).take 7) .raw = .error (.truncatedStream 7) ∧
      inflate ((joined [emptyMember, letterMember]).take 5) .raw = .ok [] ∧
      ∀ s : Reader.Schedule ((joined [emptyMember, letterMember]).take 7),
        s.Ends { format := .flate, bufferSize := 1 } fun _ failure _ =>
          failure = some (.truncatedStream 7) := by
  obtain ⟨-, hinside⟩ := truncation_at_every_cut .raw [emptyMember, letterMember] 7 (by decide)
  obtain ⟨hboundary, -⟩ := truncation_at_every_cut .raw [emptyMember, letterMember] 5 (by decide)
  obtain ⟨hinflate, hreader⟩ := hinside (by decide)
  exact ⟨hinflate, (hboundary 1 (by decide) (by decide)).1, hreader _ rfl rfl⟩

end GzipStream
