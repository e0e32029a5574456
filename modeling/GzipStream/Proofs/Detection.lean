import GzipStream.Proofs.Concatenation

/-!
# Detection of the framing

With framing `auto` the first byte of every member tells how it is read (`Framing.ofFirst`). A zlib
stream never begins like a gzip member, so nothing that one of the two framings takes is lost, and
nothing but members of these two is taken (`auto_subsumes`).
-/

namespace GzipStream

open CompleteMember (joined payloads)

/-- The framing that the first byte of a member stands for. -/
def Framing.ofFirst (b : UInt8) : Framing := if b = 0x1f then gzip else zlib

theorem Member.byte_detect (b : UInt8) :
    (start .auto).byte b = (start (.ofFirst b)).byte b := by
  by_cases hb : b = 0x1f
  · rw [Framing.ofFirst, if_pos hb]
    exact if_pos hb
  · rw [Framing.ofFirst, if_neg hb]
    exact if_neg hb

/-- From its first byte on, a member is taken as one of the framing that this byte stands for. -/
theorem Member.takes_detect_iff {b : UInt8} {rest : Bytes} {m : Member} :
    (start .auto).Takes (b :: rest) m ↔ (start (.ofFirst b)).Takes (b :: rest) m := by
  constructor
  · intro h
    refine ⟨isOpen_start _, ?_⟩
    rw [← byte_detect]
    exact h.2
  · intro h
    refine ⟨isOpen_start _, ?_⟩
    rw [byte_detect]
    exact h.2

theorem isMember_auto_iff {b : UInt8} {rest payload : Bytes} :
    IsMember .auto (b :: rest) payload ↔ IsMember (.ofFirst b) (b :: rest) payload := by
  rw [isMember_iff, isMember_iff]
  exact Member.takes_detect_iff

theorem not_isMember_nil {f : Framing} {payload : Bytes} : ¬ IsMember f [] payload := fun h =>
  Member.not_takes_nil rfl List.nil_prefix rfl (isMember_iff.mp h)

namespace CompleteMember

variable {f : Framing}

/-- The member as it is read where its framing is not told. -/
def readAs (m : CompleteMember f) : CompleteMember f.readAs := ⟨m.data, m.payload, m.complete.readAs⟩

theorem joined_readAs (ms : List (CompleteMember f)) : joined (ms.map readAs) = joined ms :=
  List.flatMap_map readAs data ms

theorem payloads_readAs (ms : List (CompleteMember f)) : payloads (ms.map readAs) = payloads ms :=
  List.flatMap_map readAs payload ms

end CompleteMember

/-- Data that decodes where the framing is told decodes to the same where it is not. -/
theorem inflate_readAs {f : Framing} {data out : Bytes} (h : inflate data f = .ok out) :
    inflate data f.readAs = .ok out := by
  obtain ⟨ms, rfl, rfl⟩ := members_of_inflate h
  have ha := Archive.of_members (ms.map CompleteMember.readAs)
  rw [CompleteMember.joined_readAs, CompleteMember.payloads_readAs] at ha
  exact ha.inflate_eq

/-- Detection reads whatever is gzip members or zlib streams throughout as these are read, and what
it reads is members of either kind, each told by its first byte and readable alone as that. -/
theorem auto_subsumes (data out : Bytes) :
    (inflate data .gzip = .ok out ∨ inflate data .zlib = .ok out → inflate data .auto = .ok out) ∧
    (inflate data .auto = .ok out ↔ ∃ ms : List (CompleteMember .auto),
      joined ms = data ∧ payloads ms = out ∧
      ∀ m ∈ ms, ∃ b rest, m.data = b :: rest ∧ IsMember (.ofFirst b) m.data m.payload ∧
        inflate m.data (.ofFirst b) = .ok m.payload) := by
  refine ⟨?_, ?_, ?_⟩
  · rintro (h | h)
    · exact inflate_readAs h
    · exact inflate_readAs h
  · intro h
    obtain ⟨ms, hdata, hout⟩ := members_of_inflate h
    refine ⟨ms, hdata, hout, fun m _ => ?_⟩
    have hm := m.complete
    cases hbytes : m.data with
    | nil =>
      rw [hbytes] at hm
      exact absurd hm not_isMember_nil
    | cons b rest =>
      rw [hbytes] at hm
      have hfirst := isMember_auto_iff.mp hm
      exact ⟨b, rest, rfl, hfirst, hfirst.inflate_eq⟩
  · rintro ⟨ms, rfl, rfl, -⟩
    exact (Archive.of_members ms).inflate_eq

/-- An empty gzip member, and a zlib stream of a single letter. -/
def emptyGzip : Bytes :=
  [0x1f, 0x8b, 8, 0, 0, 0, 0, 0, 0, 255, 1, 0, 0, 255, 255, 0, 0, 0, 0, 0, 0, 0, 0]

def letterZlib : Bytes := [0x78, 0x01, 1, 1, 0, 254, 255, 104, 0, 105, 0, 105]

set_option maxRecDepth 1500 in
/-- One of each, alone and one behind the other. -/
theorem auto_subsumes_mixed :
    inflate emptyGzip .auto = .ok [] ∧ inflate letterZlib .auto = .ok [104] ∧
      ∃ ms : List (CompleteMember .auto), joined ms = emptyGzip ++ letterZlib ∧
        payloads ms = [104] ∧ ∀ m ∈ ms, ∃ b, inflate m.data (.ofFirst b) = .ok m.payload := by
  have hgzip : inflate emptyGzip .gzip = .ok [] := by cbv
  have hzlib : inflate letterZlib .zlib = .ok [104] := by cbv
  have hmixed : inflate (emptyGzip ++ letterZlib) .auto = .ok [104] := by cbv
  obtain ⟨ms, hdata, hout, hms⟩ := (auto_subsumes (emptyGzip ++ letterZlib) [104]).2.mp hmixed
  refine ⟨(auto_subsumes _ _).1 (.inl hgzip), (auto_subsumes _ _).1 (.inr hzlib), ms, hdata, hout, ?_⟩
  intro m hm
  obtain ⟨b, -, -, -, hb⟩ := hms m hm
  exact ⟨b, hb⟩

end GzipStream
