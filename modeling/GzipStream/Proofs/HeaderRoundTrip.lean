import GzipStream.Proofs.HeaderGrammar
import GzipStream.Proofs.Utf8

/-!
# A header that is written and read again

A header is written as the octets of its fields (`Header.fields`), which are well-formed unless a text
is too long. So it is read back, and what the fields say is the header as `Header.normalised` gives
it (`header_round_trip`).
-/

namespace GzipStream

namespace Header

/-- Each flag stands for its field; nothing else is announced. -/
theorem flags_spec (h : Header) :
    (h.flags &&& flagExtra != 0) = h.extraField.isSome ∧
    (h.flags &&& flagFilename != 0) = h.filenameField.isSome ∧
    (h.flags &&& flagComment != 0) = h.commentField.isSome ∧
    h.flags &&& flagChecksum = 0 ∧ h.flags &&& flagReserved = 0 := by
  unfold flags
  cases h.extraField.isSome
  all_goals cases h.filenameField.isSome
  all_goals cases h.commentField.isSome
  all_goals decide

/-- What a header that can be written keeps to. -/
theorem checks_of_validate {h : Header} (hv : h.validate = .ok ()) :
    h.checkExtra = .ok () ∧ h.checkFilename = .ok () ∧ h.checkComment = .ok () ∧
      ∃ time, h.unixTime = .ok time := by
  simp only [validate, bind, Except.bind] at hv
  cases he : h.checkExtra with
  | error => rw [he] at hv; cases hv
  | ok =>
    cases hf : h.checkFilename with
    | error => rw [he, hf] at hv; cases hv
    | ok =>
      cases hc : h.checkComment with
      | error => rw [he, hf, hc] at hv; cases hv
      | ok =>
        cases ht : h.unixTime with
        | error => rw [he, hf, hc, ht] at hv; cases hv
        | ok time => exact ⟨rfl, rfl, rfl, time, rfl⟩

theorem validate_of_encode {h : Header} {level : Nat} {bytes : Bytes}
    (hb : h.encode level = .ok bytes) : h.validate = .ok () := by
  cases hv : h.validate with
  | ok => rfl
  | error f =>
    rw [encode, hv] at hb
    cases hb

theorem length_extraField {h : Header} (hv : h.validate = .ok ()) {e : Bytes}
    (he : h.extraField = some e) : e.length < 65536 := by
  have hcheck := (checks_of_validate hv).1
  simp only [checkExtra, he] at hcheck
  split at hcheck
  · cases hcheck
  · omega

/-- The time that was written is the one that is read. -/
theorem timeOfUnix_of_unixTime {h : Header} {time : Nat} (ht : h.unixTime = .ok time) :
    timeOfUnix time = h.normalised.mtime ∧ time < 4294967296 := by
  unfold unixTime at ht
  unfold normalised
  cases hm : h.mtime with
  | none =>
    rw [hm] at ht
    cases ht
    exact ⟨rfl, by decide⟩
  | some t =>
    rw [hm] at ht
    simp only at ht
    split at ht
    · next hlt => cases ht; exact ⟨rfl, hlt⟩
    · cases ht

theorem normalised_mtime (h : Header) : h.normalised.mtime = h.mtime.bind fun t =>
    if t.nanos < 1000000000 then none else some (.ofSeconds (t.nanos / 1000000000)) := by
  have hsec (t : Timestamp) : t.seconds = t.nanos / 1000000000 :=
    Int.fdiv_eq_ediv_of_nonneg _ (by decide)
  show (h.mtime.bind fun t => timeOfUnix t.seconds.toNat) = _
  congr 1
  funext t
  rw [timeOfUnix, hsec]
  split
  · next hlt => rw [if_pos (by omega)]
  · next hge => rw [if_neg (by omega), Int.toNat_of_nonneg (by omega)]

/-! ## The fields of a header -/

/-- What is written of a header. -/
def fields (h : Header) (level time : Nat) : HeaderFields where
  flags := h.flags
  time := littleEndian 4 time
  effort := extraFlags level
  os := h.os
  extra := h.extraField
  filename := h.filenameField.map utf8Bytes
  comment := h.commentField.map utf8Bytes

theorem textBytes_eq (text : Option String) :
    textBytes text = HeaderFields.textOctets (text.map utf8Bytes) := by
  cases text <;> rfl

theorem extraBytes_eq (h : Header) : h.extraBytes = HeaderFields.extraOctets h.extraField := by
  unfold extraBytes HeaderFields.extraOctets
  cases h.extraField <;> rfl

/-- A header is written as the octets of its fields; there is no checksum behind them. -/
theorem encode_of_validate {h : Header} (hv : h.validate = .ok ()) (level : Nat) :
    ∃ time, h.unixTime = .ok time ∧ h.encode level = .ok (h.fields level time).octets := by
  obtain ⟨-, -, -, time, ht⟩ := checks_of_validate hv
  have hnone : (h.flags &&& 0x02 != 0) = false := by
    obtain ⟨-, -, -, hsum, -⟩ := h.flags_spec
    rw [show h.flags &&& 0x02 = 0 from hsum]
    rfl
  have hoctets : (h.fields level time).octets = (h.fields level time).body := by
    rw [HeaderFields.octets, HeaderFields.checksumOctets,
      show (h.fields level time).flags = h.flags from rfl, hnone, if_neg Bool.false_ne_true,
      List.append_nil]
  refine ⟨time, ht, ?_⟩
  rw [hoctets]
  simp only [encode, hv, ht, bind, Except.bind, extraBytes_eq, textBytes_eq]
  rfl

/-- A text that is written says what it was. -/
theorem text_utf8Bytes {text : Option String} (hne : text ≠ some "") :
    HeaderFields.text (text.map utf8Bytes) = text := by
  cases text with
  | none => rfl
  | some s =>
    rw [Option.map_some]
    rcases hs : utf8Bytes s with _ | ⟨b, bs⟩
    · rw [(utf8Bytes_eq_nil_iff s).mp hs] at hne
      exact absurd rfl hne
    · rw [HeaderFields.text, ← hs, decode_utf8Bytes]

theorem filter_ne_some {α : Type} [DecidableEq α] (a : Option α) (x : α) :
    a.filter (· ≠ x) ≠ some x := by
  intro h
  simpa using (Option.filter_eq_some_iff.mp h).2

theorem header_fields {h : Header} {level time : Nat} (ht : h.unixTime = .ok time) :
    (h.fields level time).header = h.normalised := by
  obtain ⟨htime, hlt⟩ := timeOfUnix_of_unixTime ht
  have hback : ofLittleEndian (h.fields level time).time = time :=
    ofLittleEndian_littleEndian 4 time hlt
  have hname : HeaderFields.text (h.fields level time).filename = h.filenameField :=
    text_utf8Bytes (filter_ne_some _ _)
  have hcomment : HeaderFields.text (h.fields level time).comment = h.commentField :=
    text_utf8Bytes (filter_ne_some _ _)
  have hextra : (h.fields level time).extra.filter (· ≠ []) = h.extraField := by
    show (h.extra.filter _).filter _ = h.extra.filter _
    rw [Option.filter_filter]
    simp only [Bool.and_self]
  rw [HeaderFields.header, hback, hname, hcomment, hextra, normalised]
  congr 1

end Header

namespace HeaderParser

namespace TextField

variable {h : Header} {s : String}

/-- The text that is written; an empty one is not. -/
def written (t : TextField) (h : Header) : Option String := (t.get h).filter (· ≠ "")

theorem flags_written (t : TextField) (h : Header) :
    (t.written h).isSome = (h.flags &&& t.flag != 0) := by
  obtain ⟨-, hname, hcomment, -⟩ := h.flags_spec
  cases t
  · exact hname.symm
  · exact hcomment.symm

theorem not_mem_written (t : TextField) (hv : h.validate = .ok ()) (hs : t.written h = some s) :
    0 ∉ utf8Bytes s := by
  have hcheck {f : HeaderFault}
      (hc : (if (utf8Bytes s).contains 0 then Except.error f else .ok ()) = .ok ()) :
      0 ∉ utf8Bytes s := by
    split at hc
    · cases hc
    · next hzero => rwa [List.contains_iff_mem] at hzero
  obtain ⟨-, hname, hcomment, -⟩ := Header.checks_of_validate hv
  cases t
  · simp only [Header.checkFilename, show h.filenameField = some s from hs] at hname
    exact hcheck hname
  · simp only [Header.checkComment, show h.commentField = some s from hs] at hcomment
    exact hcheck hcomment

theorem isText_written (t : TextField) (hv : h.validate = .ok ())
    (hlen : ∀ s, t.get h = some s → (utf8Bytes s).length ≤ maxTextField) :
    HeaderFields.IsText ((t.written h).map utf8Bytes) (h.flags &&& t.flag != 0) := by
  refine ⟨by rw [Option.isSome_map, t.flags_written], fun bs hbs => ?_, fun bs hbs => ?_⟩
  all_goals obtain ⟨s, hs, rfl⟩ := Option.map_eq_some_iff.mp hbs
  · exact t.not_mem_written hv hs
  · exact hlen s (Option.filter_eq_some_iff.mp hs).1

end TextField

theorem wellFormed_fields {h : Header} (hv : h.validate = .ok ()) (level time : Nat)
    (hlen : ∀ (t : TextField) s, t.get h = some s → (utf8Bytes s).length ≤ maxTextField) :
    (h.fields level time).WellFormed where
  reserved := h.flags_spec.2.2.2.2
  length_time := length_littleEndian 4 time
  extra := h.flags_spec.1.symm
  length_extra _ he := Header.length_extraField hv he
  filename := TextField.filename.isText_written hv (hlen .filename)
  comment := TextField.comment.isText_written hv (hlen .comment)

/-- A written header is read from its first byte to its last. -/
theorem reads_encode {h : Header} {level : Nat} {bytes : Bytes} (hb : h.encode level = .ok bytes)
    (hname : ∀ s, h.filename = some s → (utf8Bytes s).length ≤ maxTextField)
    (hcomment : ∀ s, h.comment = some s → (utf8Bytes s).length ≤ maxTextField) :
    ∃ q, ({} : HeaderParser).Reads bytes q ∧ q.isDone = true ∧ q.header = h.normalised := by
  have hv := Header.validate_of_encode hb
  obtain ⟨time, ht, hoctets⟩ := Header.encode_of_validate hv level
  rw [hoctets] at hb
  cases hb
  have hlen (t : TextField) : ∀ s, t.get h = some s → (utf8Bytes s).length ≤ maxTextField := by
    cases t
    · exact hname
    · exact hcomment
  obtain ⟨q, hread, hdone, hq⟩ := reads_octets (wellFormed_fields hv level time hlen)
  exact ⟨q, hread, hdone, hq.trans (Header.header_fields ht)⟩

end HeaderParser

/-- A header that can be written is read back as it was, up to what is not written: an empty field
is like none, and of the time its whole seconds after 1970 remain. From any pieces of its bytes
and of whatever follows, each call of the parser uses what belongs to the header. -/
theorem header_round_trip (h : Header) (level : Nat) (bytes rest : Bytes) (pieces : List Bytes)
    (hbytes : h.encode level = .ok bytes)
    (hname : ∀ s, h.filename = some s → (utf8Bytes s).length ≤ maxTextField)
    (hcomment : ∀ s, h.comment = some s → (utf8Bytes s).length ≤ maxTextField)
    (hpieces : pieces.flatten <+: bytes ++ rest) :
    ∃ p, HeaderParser.parseAll {} pieces = (p, .ok (HeaderParser.shares bytes.length pieces)) ∧
      (p.isDone = true ↔ bytes.length ≤ pieces.flatten.length) ∧
      (p.isDone = true → p.takeHeader.1 =
        { filename := h.filename.filter (· ≠ "")
          comment := h.comment.filter (· ≠ "")
          extra := h.extra.filter (· ≠ [])
          mtime := h.mtime.bind fun t =>
            if t.nanos < 1000000000 then none else some (.ofSeconds (t.nanos / 1000000000))
          os := h.os }) := by
  obtain ⟨q, hread, hdone, hq⟩ := HeaderParser.reads_encode hbytes hname hcomment
  obtain ⟨p, hp, hiff, heq⟩ := hread.parseAll_eq rfl hdone hpieces
  refine ⟨p, hp, hiff, fun hd => ?_⟩
  rw [heq hd, ← Header.normalised_mtime]
  exact hq

/-- A name is cut in two, the comment is empty and the time has a fraction. -/
theorem header_round_trip_cut_name : ∃ p,
    HeaderParser.parseAll {}
        [[0x1f, 0x8b, 8, 12, 1, 0, 0, 0, 0, 3, 1], [0, 7, 104], [105, 0, 99], [4]] =
      (p, .ok [11, 3, 2, 0]) ∧
    p.isDone = true ∧
    p.takeHeader.1 =
      { filename := some "hi", extra := some [7], mtime := some ⟨1000000000⟩, os := 3 } := by
  obtain ⟨p, hp, hdone, hheader⟩ := header_round_trip
    { filename := some "hi", comment := some "", extra := some [7], mtime := some ⟨1999999999⟩,
      os := 3 }
    6 [0x1f, 0x8b, 8, 12, 1, 0, 0, 0, 0, 3, 1, 0, 7, 104, 105, 0] [99, 4]
    [[0x1f, 0x8b, 8, 12, 1, 0, 0, 0, 0, 3, 1], [0, 7, 104], [105, 0, 99], [4]]
    rfl (fun s hs => by cases hs; decide) (fun s hs => by cases hs; decide) List.prefix_rfl
  have hd := hdone.mpr (by decide)
  exact ⟨p, hp, hd, hheader hd⟩

end GzipStream
