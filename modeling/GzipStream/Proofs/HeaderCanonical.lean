import GzipStream.Proofs.HeaderCalls
import GzipStream.Proofs.HeaderRoundTrip

/-!
# What a parser can come to

The header of a parser is canonical at any time (`HeaderParser.Clean`): its texts are not empty and
have no zeros, however ill-formed the octets were that they were read from, its extra bytes have a
length of two bytes, and its time is a number of seconds of four. Such a header can be written and
is its own normal form, so it is read back as it is (`parsed_header_stable`).
-/

namespace GzipStream

open HeaderParser (TextField)

/-! ## Canonical headers -/

namespace Header

variable {h : Header}

structure Canonical (h : Header) : Prop where
  text : ∀ (t : TextField) s, t.get h = some s → s ≠ "" ∧ 0 ∉ utf8Bytes s
  extra : ∀ e, h.extra = some e → e ≠ [] ∧ e.length ≤ 65535
  mtime : ∀ m, h.mtime = some m → ∃ s : Nat, 1 ≤ s ∧ s ≤ 4294967295 ∧ m = .ofSeconds s

theorem canonical_default : ({} : Header).Canonical where
  text t s hs := by cases t <;> cases hs
  extra _ he := nomatch he
  mtime _ hm := nomatch hm

theorem Canonical.put (hh : h.Canonical) (t : TextField) {text : Option String}
    (htext : ∀ s, text = some s → s ≠ "" ∧ 0 ∉ utf8Bytes s) : (t.put h text).Canonical := by
  cases t with
  | filename => exact ⟨fun t => t.casesOn htext (hh.text .comment), hh.extra, hh.mtime⟩
  | comment => exact ⟨fun t => t.casesOn (hh.text .filename) htext, hh.extra, hh.mtime⟩

theorem Canonical.written_eq (hh : h.Canonical) (t : TextField) : t.written h = t.get h := by
  rw [TextField.written]
  cases ht : t.get h with
  | none => rfl
  | some s => exact Option.filter_some_pos (decide_eq_true (hh.text t s ht).1)

theorem Canonical.extraField_eq (hh : h.Canonical) : h.extraField = h.extra := by
  rw [extraField]
  cases he : h.extra with
  | none => rfl
  | some e => exact Option.filter_some_pos (decide_eq_true (hh.extra e he).1)

theorem Canonical.unixTime_eq (hh : h.Canonical) :
    ∃ time, h.unixTime = .ok time ∧ timeOfUnix time = h.mtime := by
  unfold unixTime
  cases hm : h.mtime with
  | none => exact ⟨0, rfl, rfl⟩
  | some m =>
    obtain ⟨s, hpos, hle, rfl⟩ := hh.mtime m hm
    refine ⟨s, ?_, if_neg (by omega)⟩
    simp only [Timestamp.seconds_ofSeconds, Int.toNat_natCast]
    exact if_pos (by omega)

theorem Canonical.validate (hh : h.Canonical) : h.validate = .ok () := by
  have hextra : h.checkExtra = .ok () := by
    rw [checkExtra, hh.extraField_eq]
    split
    · next e he => exact if_neg (Nat.not_lt.mpr (hh.extra e he).2)
    · rfl
  have hzero {s : String} (t : TextField) (hs : t.get h = some s) :
      (utf8Bytes s).contains 0 = false := by
    rw [Bool.eq_false_iff, ne_eq, List.contains_iff_mem]
    exact (hh.text t s hs).2
  have hname : h.checkFilename = .ok () := by
    rw [checkFilename, show h.filenameField = h.filename from hh.written_eq .filename]
    split
    · next s hs => rw [hzero .filename hs, if_neg Bool.false_ne_true]
    · rfl
  have hcomment : h.checkComment = .ok () := by
    rw [checkComment, show h.commentField = h.comment from hh.written_eq .comment]
    split
    · next s hs => rw [hzero .comment hs, if_neg Bool.false_ne_true]
    · rfl
  obtain ⟨time, htime, -⟩ := hh.unixTime_eq
  rw [Header.validate, hextra, hname, hcomment, htime]
  rfl

theorem Canonical.normalised_eq (hh : h.Canonical) : h.normalised = h := by
  obtain ⟨time, htime, hback⟩ := hh.unixTime_eq
  have hmtime : h.normalised.mtime = h.mtime := (timeOfUnix_of_unixTime htime).1.symm.trans hback
  have hname : h.normalised.filename = h.filename := hh.written_eq .filename
  have hcomment : h.normalised.comment = h.comment := hh.written_eq .comment
  have hextra : h.normalised.extra = h.extra := hh.extraField_eq
  cases h
  simp only [normalised] at *
  rw [hname, hcomment, hextra, hmtime]

end Header

/-! ## The header of a parser -/

namespace HeaderParser

variable {p q : HeaderParser} {t : TextField} {b : UInt8}

/-- The header is canonical, and so will be what the field makes of it. -/
structure Clean (p : HeaderParser) : Prop where
  canonical : p.header.Canonical
  text : ∀ t : TextField, p.stage = t.stage → 0 ∉ p.field.toList
  extra : ∀ n, p.stage = .extra n → n ≤ 65535

theorem clean_start : ({} : HeaderParser).Clean where
  canonical := Header.canonical_default
  text _ _ := List.not_mem_nil
  extra _ hn := nomatch hn

/-- Between two fields only the header matters. -/
theorem clean_of_field_nil (hh : p.header.Canonical) (hf : p.field = #[])
    (hs : ∀ n, p.stage ≠ .extra n) : p.Clean := by
  refine ⟨hh, fun t _ => ?_, fun n hn => absurd hn (hs n)⟩
  rw [hf]
  exact List.not_mem_nil

theorem Clean.gather (hp : p.Clean) (hb : ∀ t : TextField, p.stage = t.stage → b ≠ 0) :
    (p.gather [b]).Clean := by
  refine ⟨hp.canonical, fun t ht hzero => ?_, hp.extra⟩
  rw [HeaderParser.gather, List.mem_append, List.mem_singleton] at hzero
  exact hzero.elim (hp.text t ht) (hb t ht).symm

theorem clean_text (hf : 0 ∉ p.field.toList) (s : String) (hs : textOf p.field = some s) :
    s ≠ "" ∧ 0 ∉ utf8Bytes s := by
  unfold textOf at hs
  split at hs
  · cases hs
  · next hne =>
    cases hs
    refine ⟨decode_ne_empty fun hnil => hne ?_, zero_not_mem_decode hf⟩
    rw [Array.isEmpty_iff, ← Array.toList_eq_nil_iff, hnil]

theorem canonical_finishFixed (hh : p.header.Canonical) (f : Array UInt8) :
    (p.finishFixed f).1.header.Canonical := by
  unfold finishFixed
  simp only
  repeat' split
  · exact hh
  · exact hh
  · exact hh
  · refine ⟨fun t s hs => hh.text t s ?_, hh.extra, fun m hm => ?_⟩
    · cases t <;> exact hs
    · have hpow : ofLittleEndian [f.getD 4 0, f.getD 5 0, f.getD 6 0, f.getD 7 0] < Nat.pow 256 4 :=
        ofLittleEndian_lt _
      have hlt := Nat.lt_of_lt_of_eq hpow (show Nat.pow 256 4 = 4294967296 from rfl)
      simp only [Header.timeOfUnix] at hm
      split at hm
      · cases hm
      · cases hm
        exact ⟨_, by omega, by omega, rfl⟩

theorem clean_finishExtra (hh : p.header.Canonical) (hsize : p.field.size ≤ 65535) :
    p.finishExtra.Clean := by
  refine clean_of_field_nil ⟨fun t s hs => hh.text t s ?_, fun e he => ?_, hh.mtime⟩ rfl
    p.finishExtra_ne_extra
  · cases t <;> exact hs
  · simp only [finishExtra] at he
    split at he
    · cases he
    · next hne =>
      cases he
      refine ⟨fun hnil => hne ?_, by rwa [Array.length_toList]⟩
      rw [Array.isEmpty_iff, ← Array.toList_eq_nil_iff, hnil]

theorem clean_checksum (hh : p.header.Canonical) (hs : p.stage = .checksum) : p.Clean := by
  refine ⟨hh, fun t ht => ?_, fun n hn => nomatch hs.symm.trans hn⟩
  rw [hs] at ht
  cases t <;> cases ht

theorem Clean.feed_text (hp : p.Clean) {t : TextField} (ht : p.stage = t.stage) (b : UInt8) :
    (p.feed b).1.Clean := by
  by_cases hb : b = 0
  · rw [hb, feed_zero ht]
    refine clean_of_field_nil (hp.canonical.put t (clean_text (hp.text t ht))) rfl fun n => ?_
    exact firstFrom_ne_extra (s := t.next) (by cases t <;> nofun)
  · rw [HeaderParser.feed_text ht hb]
    exact hp.gather fun _ _ => hb

/-- Two bytes tell no more extra bytes than can be written. -/
theorem Clean.feed_extraLength (hp : p.Clean) (hstage : p.stage = .extraLength)
    (hsize : p.field.size < 2) (b : UInt8) : (p.feed b).1.Clean := by
  rw [HeaderParser.feed_extraLength hstage]
  split
  · refine hp.gather fun t ht => ?_
    rw [hstage] at ht
    cases t <;> cases ht
  · next htwo =>
    rw [size_gather, List.length_singleton] at htwo
    have hlength : (p.gather [b]).field.toList.length = 2 := by
      rw [Array.length_toList, size_gather, List.length_singleton]
      omega
    have hlt : ofLittleEndian (p.gather [b]).field.toList < 65536 := by
      have hpow := ofLittleEndian_lt (p.gather [b]).field.toList
      rwa [hlength] at hpow
    simp only
    split
    · exact clean_finishExtra hp.canonical (Nat.zero_le _)
    · refine ⟨hp.canonical, fun t ht => ?_, fun n hn => ?_⟩
      · cases t <;> cases ht
      · cases hn
        exact Nat.le_of_lt_succ hlt

theorem Clean.feed (hp : p.Clean) (hsound : p.Sound) (hs : p.stalled? = none) (b : UInt8) :
    (p.feed b).1.Clean := by
  have hshort := hsound.short hs
  have hgather (hstage : ∀ t : TextField, p.stage ≠ t.stage) : (p.gather [b]).Clean :=
    hp.gather fun t ht => absurd ht (hstage t)
  cases hstage : p.stage with
  | fixed =>
    rw [feed_fixed hstage]
    split
    · exact hgather fun t => by rw [hstage]; cases t <;> nofun
    · exact clean_of_field_nil (canonical_finishFixed (p := p.gather [b]) hp.canonical _)
        (field_finishFixed _ _) (stage_finishFixed (p := p.gather [b]) hstage _)
  | extraLength => exact hp.feed_extraLength hstage (hshort 2 (by rw [hstage]; rfl)) b
  | extra n =>
    have hsize : p.field.size < n := hshort n (by rw [hstage]; rfl)
    have hn := hp.extra n hstage
    rw [feed_extra hstage]
    split
    · exact hgather fun t => by rw [hstage]; cases t <;> nofun
    · refine clean_finishExtra hp.canonical ?_
      rw [size_gather, List.length_singleton]
      omega
  | filename => exact hp.feed_text (t := .filename) hstage b
  | comment => exact hp.feed_text (t := .comment) hstage b
  | checksum =>
    rw [feed_checksum hstage]
    split
    · exact clean_checksum hp.canonical hstage
    · split
      · exact clean_of_field_nil hp.canonical rfl nofun
      · exact clean_checksum hp.canonical hstage
  | done =>
    rw [HeaderParser.feed, hstage]
    exact hp

theorem clean_uses (us : List Use) : (uses {} us).1.Clean := by
  refine (uses_keeps (P := fun p => p.Sound ∧ p.Clean) ?_ ?_ ?_ us).2
  · rintro p b ⟨hsound, hclean⟩ hd hs
    exact ⟨hsound.feed hd hs b, hclean.feed hsound hs b⟩
  · exact ⟨sound_start, clean_start⟩
  · rintro p ⟨hsound, hclean⟩
    exact ⟨hsound.takeHeader, Header.canonical_default, hclean.text, hclean.extra⟩

end HeaderParser

/-- The header of a parser, whatever bytes it was given in whatever pieces: it passes its check, no
field of it is there and empty, and its time is a whole number of seconds of 32 bits, above zero. It
can be written at every level, and read from what was written, in any pieces, it is the same again,
if its texts are not longer than those that are read. -/
theorem parsed_header_stable (us : List HeaderParser.Use) :
    let title := (HeaderParser.uses {} us).1.takeHeader.1
    title.validate = .ok () ∧
    title.filename ≠ some "" ∧ title.comment ≠ some "" ∧ title.extra ≠ some [] ∧
    (∀ m, title.mtime = some m → ∃ s : Nat, 1 ≤ s ∧ s ≤ 4294967295 ∧ m = .ofSeconds s) ∧
    ∀ level, ∃ bytes, title.encode level = .ok bytes ∧
      ((∀ s, title.filename = some s → (utf8Bytes s).length ≤ 65536) →
        (∀ s, title.comment = some s → (utf8Bytes s).length ≤ 65536) →
        ∀ pieces rest, pieces.flatten = bytes ++ rest → ∃ p,
          HeaderParser.parseAll {} pieces = (p, .ok (HeaderParser.shares bytes.length pieces)) ∧
            p.isDone = true ∧ p.takeHeader.1 = title) := by
  intro title
  have hclean : title.Canonical := (HeaderParser.clean_uses us).canonical
  have hne (t : TextField) : t.get title ≠ some "" := fun ht => (hclean.text t "" ht).1 rfl
  refine ⟨hclean.validate, hne .filename, hne .comment, fun he => (hclean.extra [] he).1 rfl,
    hclean.mtime, fun level => ?_⟩
  obtain ⟨time, -, hbytes⟩ := Header.encode_of_validate hclean.validate level
  refine ⟨_, hbytes, fun hname hcomment pieces rest hpieces => ?_⟩
  obtain ⟨q, hread, hdone, hq⟩ := HeaderParser.reads_encode hbytes hname hcomment
  obtain ⟨p, hp, hiff, heq⟩ :=
    hread.parseAll_eq rfl hdone ⟨[], (List.append_nil _).trans hpieces⟩
  have hd : p.isDone = true := by
    rw [hiff, hpieces, List.length_append]
    exact Nat.le_add_right _ _
  refine ⟨p, hp, hd, ?_⟩
  rw [heq hd]
  exact hq.trans hclean.normalised_eq

end GzipStream
