import GzipStream.Proofs.Concatenation
import GzipStream.Proofs.HeaderRoundTrip
import GzipStream.Proofs.RoundTrip

/-!
# Texts that only the reader bounds

What a header must keep to before it is written (`Header.validate`) says nothing about the length of
its texts; the bound on them is the reader's alone. So a header with a longer text is written like
any other, and then no reader takes it, nor any member that begins with it
(`written_header_refused_iff`).
-/

namespace GzipStream

/-- A text of the header is longer than what a reader takes. -/
def Header.Overlong (h : Header) : Prop :=
  ∃ s, (h.filename = some s ∨ h.comment = some s) ∧ maxTextField < (utf8Bytes s).length

namespace HeaderParser

variable {p : HeaderParser} {h : Header} {t : TextField} {title : Header} {seen bs : Bytes}
  {s : String}

theorem TextField.written_of_overlong (hs : t.get h = some s)
    (hlong : maxTextField < (utf8Bytes s).length) : t.written h = some s := by
  refine Option.filter_eq_some_iff.mpr ⟨hs, ?_⟩
  rw [decide_eq_true_eq]
  rintro rfl
  exact absurd hlong (by decide)

/-- An overlong text is refused before its closing zero. -/
theorem Hashed.refuses_written (hp : p.Hashed h.flags t.stage title seen) (hv : h.validate = .ok ())
    (hs : t.get h = some s) (hlong : maxTextField < (utf8Bytes s).length) :
    p.Refuses (HeaderFields.textOctets ((t.written h).map utf8Bytes)) .textTooLong := by
  have hw := TextField.written_of_overlong hs hlong
  have hstage := hp.stage_eq
  rw [t.firstFrom_stage, ← t.flags_written, hw] at hstage
  rw [hw]
  exact (refuses_text hstage hp.field_eq (t.not_mem_written hv hw) hlong).append [0]

/-- Where a text is overlong, the first such one is refused. -/
theorem refuses_octets (hv : h.validate = .ok ()) (level time : Nat) (hlong : h.Overlong) :
    ({} : HeaderParser).Refuses (h.fields level time).octets .textTooLong := by
  obtain ⟨p1, hread1, hp1⟩ := reads_fixed (Header.extraFlags level) h.os
    (length_littleEndian 4 time) h.flags_spec.2.2.2.2
  obtain ⟨p2, hread2, hp2⟩ := hp1.reads_extra rfl h.flags_spec.1.symm
    fun _ he => Header.length_extraField hv he
  suffices hbody : ({} : HeaderParser).Refuses (h.fields level time).body .textTooLong from
    hbody.append _
  by_cases hname : ∃ s, h.filename = some s ∧ maxTextField < (utf8Bytes s).length
  · obtain ⟨s, hs, hlen⟩ := hname
    have hrefused := hp2.refuses_written (t := .filename) hv hs hlen
    exact (hrefused.behind (hread1.append hread2)).append _
  · obtain ⟨p3, hread3, hp3⟩ := hp2.reads_text (t := .filename) rfl <|
      TextField.filename.isText_written hv fun s hs =>
        Nat.le_of_not_lt fun hlen => hname ⟨s, hs, hlen⟩
    obtain ⟨s, hs, hlen⟩ := hlong
    have hcomment : h.comment = some s := hs.resolve_left fun hs => hname ⟨s, hs, hlen⟩
    have hrefused := hp3.refuses_written (t := .comment) hv hcomment hlen
    exact hrefused.behind ((hread1.append hread2).append hread3)

/-- What a fresh parser makes of a header that was written, whatever stands behind it. -/
theorem parse_encode (hv : h.validate = .ok ()) {level : Nat} (hb : h.encode level = .ok bs)
    (rest : Bytes) :
    (h.Overlong → ∃ r, ({} : HeaderParser).parse (bs ++ rest) = (r, .error .textTooLong)) ∧
    (¬ h.Overlong → ∃ q, ({} : HeaderParser).parse (bs ++ rest) = (q, .ok bs.length) ∧
      q.isDone = true ∧ q.header = h.normalised) := by
  constructor
  · intro hlong
    obtain ⟨time, -, hoctets⟩ := Header.encode_of_validate hv level
    rw [hoctets] at hb
    cases hb
    exact ((refuses_octets hv level time hlong).append rest).parse_eq rfl
  · intro hlong
    obtain ⟨q, hread, hdone, hq⟩ := reads_encode hb
      (fun s hs => Nat.le_of_not_lt fun hlen => hlong ⟨s, .inl hs, hlen⟩)
      (fun s hs => Nat.le_of_not_lt fun hlen => hlong ⟨s, .inr hs, hlen⟩)
    exact ⟨q, hread.parse_append rfl hdone rest, hdone, hq⟩

end HeaderParser

/-! ## A name of one byte too many -/

theorem utf8Bytes_replicate (n : Nat) :
    utf8Bytes (String.ofList (List.replicate n 'a')) = List.replicate n 97 := by
  rw [utf8Bytes_eq, String.toList_ofList]
  induction n with
  | zero => rfl
  | succ n ih =>
    rw [List.replicate_succ, List.replicate_succ, List.flatMap_cons, ih]
    rfl

def longName : Header := { filename := some (String.ofList (List.replicate 65537 'a')) }

theorem overlong_longName : longName.Overlong := by
  refine ⟨_, .inl rfl, ?_⟩
  rw [utf8Bytes_replicate, List.length_replicate]
  decide

theorem Header.validate_of_filename {s : String} (hs : 0 ∉ utf8Bytes s) :
    ({ filename := some s } : Header).validate = .ok () := by
  have hname : ({ filename := some s } : Header).checkFilename = .ok () := by
    unfold checkFilename
    split
    · next s' hs' =>
      obtain rfl : s = s' := Option.some.inj (Option.filter_eq_some_iff.mp hs').1
      rw [if_neg (by rwa [List.contains_iff_mem])]
    · rfl
  simp only [validate, hname, bind, Except.bind]
  rfl

theorem validate_longName : longName.validate = .ok () := by
  refine Header.validate_of_filename ?_
  rw [utf8Bytes_replicate]
  exact fun h => absurd (List.eq_of_mem_replicate h) (by decide)

/-- The header is checked and written, and what was written is refused. -/
theorem long_name_refused : longName.validate = .ok () ∧
    ∃ bytes, longName.encode 6 = .ok bytes ∧
      (({} : HeaderParser).parse bytes).2 = .error .textTooLong := by
  obtain ⟨time, -, hb⟩ := Header.encode_of_validate validate_longName 6
  obtain ⟨r, hr⟩ := (HeaderParser.parse_encode validate_longName hb []).1 overlong_longName
  rw [List.append_nil] at hr
  exact ⟨validate_longName, _, hb, congrArg Prod.snd hr⟩

/-! ## Members with such a header -/

/-- A member whose header is refused is refused. -/
theorem Archive.of_refused_header {data : Bytes} {r : HeaderParser} {d : HeaderDefect}
    (h : ({} : HeaderParser).parse data = (r, .error d)) (hfirst : data.head? = some 0x1f) :
    Archive .auto data [] 0 (.refused (.header d)) := by
  have hspec := HeaderParser.running_start.parse_spec data
  rw [h] at hspec
  obtain ⟨used, hu, ht⟩ := hspec
  cases used with
  | nil => cases ht
  | cons b used =>
    obtain ⟨rest, rfl⟩ := hu
    obtain rfl : b = 0x1f := Option.some.inj hfirst
    exact .refused (.header d) (List.prefix_append _ _) (Member.takes_auto_of_gzip ht)

theorem Archive.of_accepted_header {head body payload : Bytes} {q : HeaderParser}
    (h : ({} : HeaderParser).parse head = (q, .ok head.length)) (hq : q.isDone = true)
    (hbody : Deflate.Decodes false body payload) :
    Archive .auto (head ++ body ++ Trailer.ofPayload payload) payload 1 .clean :=
  .single (isMember_iff.mp (.inl ⟨head, body, rfl, ⟨q, h, hq⟩, hbody⟩))

/-- A header that is checked is written. Unless one of its texts is overlong it is read back from
any pieces, and a member that begins with it is read as any other; otherwise the parser fails, and
so does a reader, which gives nothing. -/
theorem written_header_refused_iff (h : Header) (hv : h.validate = .ok ()) (level : Nat) :
    ∃ bytes, h.encode level = .ok bytes ∧
      (∀ rest pieces, pieces.flatten = bytes ++ rest →
        (h.Overlong → (HeaderParser.parseAll {} pieces).2 = .error .textTooLong) ∧
        (¬ h.Overlong → ∃ p,
          HeaderParser.parseAll {} pieces = (p, .ok (HeaderParser.shares bytes.length pieces)) ∧
          p.isDone = true ∧ p.takeHeader.1 = h.normalised)) ∧
      ∀ body payload, Deflate.Decodes false body payload →
        ∀ o : Options, o.validate = .ok () → o.format = .gzip →
        ∀ s : Reader.Schedule (bytes ++ body ++ Trailer.ofPayload payload),
          s.Ends o fun got failure _ =>
            (h.Overlong → got = [] ∧
              failure = some (.dataCorrupt HeaderDefect.textTooLong.toError.message)) ∧
            (¬ h.Overlong → got = payload ∧ failure = none) := by
  obtain ⟨time, -, hb⟩ := Header.encode_of_validate hv level
  refine ⟨_, hb, fun rest pieces hpieces => ?_, fun body payload hbody o ho hformat s => ?_⟩
  · have hall := HeaderParser.parseAll_eq_parse (p := {}) rfl pieces
    obtain ⟨hrefused, hread⟩ := HeaderParser.parse_encode hv hb rest
    rw [hpieces] at hall
    constructor
    · intro hlong
      obtain ⟨r, hr⟩ := hrefused hlong
      rw [hall, hr]
      rfl
    · intro hlong
      obtain ⟨q, hq, hdone, hheader⟩ := hread hlong
      rw [hq] at hall
      exact ⟨q, hall, hdone, hheader⟩
  · have hframing : o.decodeFraming = .auto := by rw [Options.decodeFraming, hformat]
    by_cases hlong : h.Overlong
    · obtain ⟨r, hr⟩ := (HeaderParser.parse_encode hv hb (body ++ Trailer.ofPayload payload)).1 hlong
      rw [← List.append_assoc] at hr
      refine (s.ends_refused ho hframing (.of_refused_header hr rfl)).imp ?_
      rintro got failure - ⟨hgot, hfailure⟩
      exact ⟨fun _ => ⟨List.prefix_nil.mp hgot, hfailure⟩, fun hshort => absurd hlong hshort⟩
    · obtain ⟨q, hq, hdone, -⟩ := (HeaderParser.parse_encode hv hb []).2 hlong
      rw [List.append_nil] at hq
      refine (s.ends_clean ho hframing (.of_accepted_header hq hdone hbody)).imp ?_
      rintro got failure - ⟨hgot, hfailure, -⟩
      exact ⟨fun hlong' => absurd hlong' hlong, fun _ => ⟨hgot, hfailure⟩⟩

/-- In two pieces, and in front of an empty member. -/
theorem written_header_refused_long_name : ∃ bytes, longName.encode 6 = .ok bytes ∧
    (HeaderParser.parseAll {} [bytes.take 7, bytes.drop 7]).2 = .error .textTooLong ∧
    ∀ s : Reader.Schedule (bytes ++ emptyStored ++ Trailer.ofPayload []),
      s.Ends {} fun got failure _ => got = [] ∧
        failure = some (.dataCorrupt HeaderDefect.textTooLong.toError.message) := by
  obtain ⟨bytes, hbytes, hparse, hread⟩ := written_header_refused_iff longName validate_longName 6
  refine ⟨bytes, hbytes, ?_, fun s => ?_⟩
  · refine (hparse [] [bytes.take 7, bytes.drop 7] ?_).1 overlong_longName
    simp
  · refine (hread emptyStored [] emptyMember.complete {} rfl rfl s).imp ?_
    intro got failure r h
    exact h.1 overlong_longName

end GzipStream
