import GzipStream.Proofs.HeaderRuns

/-!
# The grammar of gzip headers

`HeaderFields` is what the octets of a header say, field by field, and `HeaderFields.octets` how
they stand one behind the other. Between two fields the parser stands in front of the first one
that the flags announce and has hashed all that it read (`HeaderParser.Hashed`). It reads the octets
of well-formed fields (`reads_octets`), and what it reads to the end are such octets
(`fields_of_reads`). So it accepts the grammar exactly (`header_grammar`).
-/

namespace GzipStream

/-- The fields of a gzip header. -/
structure HeaderFields where
  flags : UInt8
  time : Bytes
  effort : UInt8
  os : UInt8
  extra : Option Bytes := none
  filename : Option Bytes := none
  comment : Option Bytes := none
  deriving DecidableEq, Repr

namespace HeaderFields

def extraOctets : Option Bytes → Bytes
  | some e => littleEndian 2 e.length ++ e
  | none => []

/-- A text and its closing zero. -/
def textOctets : Option Bytes → Bytes
  | some s => s ++ [0]
  | none => []

/-- The low 16 bits of the checksum of all octets before them. -/
def checksumOctets (flags : UInt8) (before : Bytes) : Bytes :=
  if flags &&& 0x02 != 0 then littleEndian 2 ((Crc32.ofBytes before).toNat % 65536) else []

/-- Everything in front of the checksum. -/
def body (f : HeaderFields) : Bytes :=
  [0x1f, 0x8b, 8, f.flags] ++ f.time ++ [f.effort, f.os] ++ extraOctets f.extra
    ++ textOctets f.filename ++ textOctets f.comment

def octets (f : HeaderFields) : Bytes := f.body ++ checksumOctets f.flags f.body

/-- A text that is present if its flag is set. -/
structure IsText (text : Option Bytes) (announced : Bool) : Prop where
  isSome_eq : text.isSome = announced
  not_mem : ∀ s, text = some s → 0 ∉ s
  length_le : ∀ s, text = some s → s.length ≤ 65536

structure WellFormed (f : HeaderFields) : Prop where
  reserved : f.flags &&& 0xe0 = 0
  length_time : f.time.length = 4
  extra : f.extra.isSome = (f.flags &&& 0x04 != 0)
  length_extra : ∀ e, f.extra = some e → e.length < 65536
  filename : IsText f.filename (f.flags &&& 0x08 != 0)
  comment : IsText f.comment (f.flags &&& 0x10 != 0)

/-- What a text field says; nothing if it is empty. -/
def text : Option Bytes → Option String
  | some (b :: bs) => some (LossyUtf8.decode (b :: bs))
  | _ => none

/-- What the fields say. -/
def header (f : HeaderFields) : Header where
  filename := text f.filename
  comment := text f.comment
  extra := f.extra.filter (· ≠ [])
  mtime :=
    if ofLittleEndian f.time = 0 then none else some (.ofSeconds (ofLittleEndian f.time))
  os := f.os

end HeaderFields

namespace HeaderParser

variable {p q r : HeaderParser} {flags : UInt8} {title : Header} {bs seen : Bytes}

/-! ## Collecting a field -/

/-- The parser with more bytes of the field it reads. -/
def gather (p : HeaderParser) (bs : Bytes) : HeaderParser :=
  { p with field := (p.field.toList ++ bs).toArray, crc := p.crc.feed bs }

@[simp] theorem stage_gather (p : HeaderParser) (bs : Bytes) : (p.gather bs).stage = p.stage := rfl

theorem gather_nil (p : HeaderParser) : p.gather [] = p := by
  rw [gather, List.append_nil, Crc32.feed_nil, Array.toArray_toList]

theorem gather_gather (p : HeaderParser) (xs ys : Bytes) :
    (p.gather xs).gather ys = p.gather (xs ++ ys) := by
  simp only [gather, Crc32.feed_append, List.append_assoc]

theorem gather_one (p : HeaderParser) (b : UInt8) :
    p.gather [b] = { p with field := p.field.push b, crc := p.crc.push b } := by
  have hfield : (p.field.toList ++ [b]).toArray = p.field.push b := by
    rw [← Array.toList_push, Array.toArray_toList]
  rw [gather, hfield]
  rfl

theorem size_gather (p : HeaderParser) (bs : Bytes) :
    (p.gather bs).field.size = p.field.size + bs.length := by
  rw [gather, List.size_toArray, List.length_append, Array.length_toList]

/-- While its field has less than `limit` bytes, the parser takes `b` into it. -/
def Gathers (p : HeaderParser) (limit : Nat) (b : UInt8) : Prop :=
  ∀ q : HeaderParser, q.stage = p.stage → q.field.size < limit → q.feed b = (q.gather [b], none)

/-- A field that is not complete grows byte by byte. -/
theorem reads_gather {limit : Nat} (hd : p.isDone = false) (hbyte : ∀ b ∈ bs, p.Gathers limit b)
    (hsize : p.field.size + bs.length ≤ limit) : p.Reads bs (p.gather bs) := by
  induction bs generalizing p with
  | nil => rw [gather_nil]; exact .nil p
  | cons b bs ih =>
    rw [List.length_cons] at hsize
    have hrest : (p.gather [b]).Reads bs ((p.gather [b]).gather bs) := by
      refine ih hd (fun c hc => hbyte c (List.mem_cons_of_mem _ hc)) ?_
      rw [size_gather, List.length_singleton]
      omega
    rw [gather_gather] at hrest
    exact .cons hd (hbyte b List.mem_cons_self p rfl (by omega)) hrest

/-- A header does not end inside a field. -/
theorem Reads.exceeds {limit : Nat} (h : p.Reads bs q) (hq : q.isDone = true)
    (hd : p.isDone = false) (hbyte : ∀ b ∈ bs, p.Gathers limit b) :
    limit < p.field.size + bs.length := by
  refine Nat.lt_of_not_le fun hle => ?_
  have hgather : p.Reads bs (p.gather bs) := reads_gather hd hbyte hle
  rw [h.eq hgather] at hq
  exact Bool.false_ne_true (hd.symm.trans hq)

/-! ## Bytes by stage -/

theorem feed_fixed (hs : p.stage = .fixed) (b : UInt8) :
    p.feed b = if (p.gather [b]).field.size < 10 then (p.gather [b], none)
      else (p.gather [b]).finishFixed (p.gather [b]).field := by
  simp only [feed, hs, gather_one]

theorem feed_extraLength (hs : p.stage = .extraLength) (b : UInt8) :
    p.feed b = if (p.gather [b]).field.size < 2 then (p.gather [b], none)
      else
        let length := ofLittleEndian (p.gather [b]).field.toList
        let q := { p.gather [b] with stage := .extra length, field := #[] }
        if length = 0 then (q.finishExtra, none) else (q, none) := by
  simp only [feed, hs, gather_one]

theorem feed_extra {n : Nat} (hs : p.stage = .extra n) (b : UInt8) :
    p.feed b = if (p.gather [b]).field.size < n then (p.gather [b], none)
      else ((p.gather [b]).finishExtra, none) := by
  simp only [feed, hs, gather_one]

theorem gathers_fixed (hs : p.stage = .fixed) (b : UInt8) : p.Gathers 9 b := by
  intro q hq hsize
  rw [feed_fixed (hq.trans hs), if_pos (by rw [size_gather, List.length_singleton]; omega)]

theorem gathers_extraLength (hs : p.stage = .extraLength) (b : UInt8) : p.Gathers 1 b := by
  intro q hq hsize
  rw [feed_extraLength (hq.trans hs), if_pos (by rw [size_gather, List.length_singleton]; omega)]

theorem gathers_extra {n : Nat} (hs : p.stage = .extra n) (b : UInt8) : p.Gathers (n - 1) b := by
  intro q hq hsize
  rw [feed_extra (hq.trans hs), if_pos (by rw [size_gather, List.length_singleton]; omega)]

/-! ## Which field is next -/

theorem firstFrom_extraLength : firstFrom flags .extraLength =
    if flags &&& 0x04 != 0 then .extraLength else firstFrom flags .filename := rfl

theorem firstFrom_checksum : firstFrom flags .checksum =
    if flags &&& 0x02 != 0 then .checksum else .done := rfl

/-- In front of the first announced field from `stage` on, with `title` read so far. -/
structure Before (p : HeaderParser) (flags : UInt8) (stage : Stage) (title : Header) : Prop where
  stage_eq : p.stage = firstFrom flags stage
  field_eq : p.field = #[]
  flags_eq : p.flags = flags
  header_eq : p.header = title

/-- All that was `seen` is hashed. -/
structure Hashed (p : HeaderParser) (flags : UInt8) (stage : Stage) (title : Header) (seen : Bytes) :
    Prop extends p.Before flags stage title where
  crc_eq : p.crc = Crc32.feed {} seen

/-! ## The fixed bytes -/

theorem reads_fixed (effort os : UInt8) {time : Bytes} (ht : time.length = 4)
    (h : flags &&& 0xe0 = 0) :
    ∃ q, ({} : HeaderParser).Reads ([0x1f, 0x8b, 8, flags] ++ time ++ [effort, os]) q ∧
      q.Hashed flags .extraLength
        { mtime := Header.timeOfUnix (ofLittleEndian time), os := os }
        ([0x1f, 0x8b, 8, flags] ++ time ++ [effort, os]) := by
  obtain ⟨t0, t1, t2, t3, rfl⟩ : ∃ t0 t1 t2 t3, time = [t0, t1, t2, t3] := by
    match time, ht with
    | [t0, t1, t2, t3], _ => exact ⟨t0, t1, t2, t3, rfl⟩
  have hnine : ({} : HeaderParser).Reads [0x1f, 0x8b, 8, flags, t0, t1, t2, t3, effort]
      (gather {} [0x1f, 0x8b, 8, flags, t0, t1, t2, t3, effort]) :=
    reads_gather rfl (fun b _ => gathers_fixed rfl b) (Nat.le_refl _)
  have hlast : (gather {} [0x1f, 0x8b, 8, flags, t0, t1, t2, t3, effort]).feed os =
      (⟨firstFrom flags .extraLength, #[], flags,
        { mtime := Header.timeOfUnix (ofLittleEndian [t0, t1, t2, t3]), os := os },
        Crc32.feed {} [0x1f, 0x8b, 8, flags, t0, t1, t2, t3, effort, os]⟩, none) := by
    have hf : (flags &&& Header.flagReserved != 0) = false := by
      rw [show flags &&& Header.flagReserved = 0 from h]
      rfl
    rw [feed_fixed rfl, gather_gather]
    simp [gather, finishFixed, hf]
  exact ⟨_, hnine.append (.cons rfl hlast (.nil _)), ⟨rfl, rfl, rfl, rfl⟩, rfl⟩

theorem of_finishFixed {f : Array UInt8} (h : p.finishFixed f = (q, none)) :
    f.getD 0 0 = 0x1f ∧ f.getD 1 0 = 0x8b ∧ f.getD 2 0 = 8 ∧ f.getD 3 0 &&& 0xe0 = 0 := by
  unfold finishFixed at h
  simp only at h
  split at h
  · cases h
  · next hmagic =>
    simp only [Bool.or_eq_true, bne_iff_ne, not_or, Decidable.not_not] at hmagic
    split at h
    · cases h
    · next hmethod =>
      simp only [bne_iff_ne, Decidable.not_not] at hmethod
      split at h
      · cases h
      · next hflags =>
        simp only [bne_iff_ne, Decidable.not_not] at hflags
        exact ⟨hmagic.1, hmagic.2, hmethod, hflags⟩

/-- A header begins with its fixed bytes. -/
theorem fixed_of_reads (h : ({} : HeaderParser).Reads bs q) (hq : q.isDone = true) :
    ∃ flags time effort os rest,
      bs = [0x1f, 0x8b, 8, flags] ++ time ++ [effort, os] ++ rest ∧ time.length = 4 ∧
        flags &&& 0xe0 = 0 := by
  have hlong : 9 < bs.length := by
    have hexceeds := h.exceeds hq rfl fun b _ => gathers_fixed rfl b
    rwa [show ({} : HeaderParser).field.size = 0 from rfl, Nat.zero_add] at hexceeds
  obtain ⟨ten, rest, rfl, hten⟩ : ∃ ten rest, bs = ten ++ rest ∧ ten.length = 10 :=
    ⟨bs.take 10, bs.drop 10, (List.take_append_drop _ _).symm, by rw [List.length_take]; omega⟩
  obtain ⟨b0, b1, b2, flags, t0, t1, t2, t3, effort, os, rfl⟩ :
      ∃ b0 b1 b2 flags t0 t1 t2 t3 effort os,
        ten = [b0, b1, b2, flags, t0, t1, t2, t3, effort, os] := by
    match ten, hten with
    | [b0, b1, b2, flags, t0, t1, t2, t3, effort, os], _ => exact ⟨_, _, _, _, _, _, _, _, _, _, rfl⟩
  have hnine : ({} : HeaderParser).Reads [b0, b1, b2, flags, t0, t1, t2, t3, effort]
      (gather {} [b0, b1, b2, flags, t0, t1, t2, t3, effort]) :=
    reads_gather rfl (fun b _ => gathers_fixed rfl b) (Nat.le_refl _)
  have hrest : (gather {} [b0, b1, b2, flags, t0, t1, t2, t3, effort]).Reads (os :: rest) q :=
    hnine.of_append h
  obtain ⟨-, r, hlast, -⟩ := hrest.of_cons
  rw [feed_fixed rfl, gather_gather, if_neg (by simp [size_gather])] at hlast
  obtain ⟨h0, h1, h2, h3⟩ := of_finishFixed hlast
  obtain rfl : b0 = 0x1f := h0
  obtain rfl : b1 = 0x8b := h1
  obtain rfl : b2 = 8 := h2
  exact ⟨flags, [t0, t1, t2, t3], effort, os, rest, rfl, rfl, h3⟩

/-! ## Extra bytes -/

/-- In front of `n` extra bytes. -/
def openExtra (p : HeaderParser) (n : Nat) : HeaderParser :=
  { p.gather (littleEndian 2 n) with stage := .extra n, field := #[] }

theorem reads_extraLength {n : Nat} (hs : p.stage = .extraLength) (hf : p.field = #[])
    (hn : n < 65536) : p.Reads (littleEndian 2 n)
      (if n = 0 then (p.openExtra n).finishExtra else p.openExtra n) := by
  obtain ⟨low, high, hbytes⟩ : ∃ low high, littleEndian 2 n = [low, high] := ⟨_, _, rfl⟩
  have hback : ofLittleEndian [low, high] = n := by
    rw [← hbytes, ofLittleEndian_littleEndian 2 n hn]
  have hopen : p.isDone = false := by rw [isDone, hs]; rfl
  have hsize : p.field.size = 0 := by rw [hf]; rfl
  have hfirst : p.feed low = (p.gather [low], none) :=
    gathers_extraLength hs low p rfl (by rw [hsize]; decide)
  have hsecond : (p.gather [low]).feed high =
      (if n = 0 then (p.openExtra n).finishExtra else p.openExtra n, none) := by
    have hfield : (p.gather [low, high]).field.toList = [low, high] := by
      rw [gather, hf]
      rfl
    rw [feed_extraLength (by rwa [stage_gather]), gather_gather,
      if_neg (by simp [size_gather, hsize]), openExtra, hbytes]
    simp only [List.cons_append, List.nil_append, hfield, hback]
    split <;> rfl
  rw [hbytes]
  exact .cons hopen hfirst (.cons hopen hsecond (.nil _))

theorem reads_extraBytes {n : Nat} (hs : p.stage = .extra n) (hn : p.field.size + bs.length = n)
    (hne : bs ≠ []) : p.Reads bs (p.gather bs).finishExtra := by
  obtain rfl | ⟨init, last, rfl⟩ := List.eq_nil_or_concat bs
  · exact absurd rfl hne
  · rw [List.concat_eq_append] at hn ⊢
    rw [List.length_append, List.length_singleton] at hn
    have hopen : p.isDone = false := by rw [isDone, hs]; rfl
    have hinit : p.Reads init (p.gather init) :=
      reads_gather hopen (fun b _ => gathers_extra hs b) (by omega)
    have hlast : (p.gather init).feed last = ((p.gather (init ++ [last])).finishExtra, none) := by
      rw [feed_extra (by rwa [stage_gather]), gather_gather,
        if_neg (by rw [size_gather, List.length_append, List.length_singleton]; omega)]
    exact hinit.append (.cons hopen hlast (.nil _))

/-- Extra bytes behind their length; without any the length is all there is. -/
theorem reads_extra {e : Bytes} (hs : p.stage = .extraLength) (hf : p.field = #[])
    (he : e.length < 65536) : p.Reads (littleEndian 2 e.length ++ e)
      ((p.openExtra e.length).gather e).finishExtra := by
  have hlength := reads_extraLength hs hf he
  by_cases hnil : e = []
  · subst hnil
    rw [gather_nil]
    exact hlength
  · rw [if_neg (by rwa [List.length_eq_zero_iff])] at hlength
    exact hlength.append (reads_extraBytes rfl (Nat.zero_add _) hnil)

theorem Hashed.reads_extra (hp : p.Hashed flags .extraLength title seen)
    (hnone : title.extra = none) {extra : Option Bytes}
    (hsome : extra.isSome = (flags &&& 0x04 != 0))
    (hlen : ∀ e, extra = some e → e.length < 65536) :
    ∃ q, p.Reads (HeaderFields.extraOctets extra) q ∧
      q.Hashed flags .filename { title with extra := extra.filter (· ≠ []) }
        (seen ++ HeaderFields.extraOctets extra) := by
  have hstage := hp.stage_eq
  rw [firstFrom_extraLength, ← hsome] at hstage
  cases extra with
  | none =>
    refine ⟨p, .nil p, ⟨hstage, hp.field_eq, hp.flags_eq, ?_⟩, ?_⟩
    · rw [hp.header_eq, Option.filter_none, ← hnone]
    · rw [hp.crc_eq, HeaderFields.extraOctets, List.append_nil]
  | some e =>
    refine ⟨_, HeaderParser.reads_extra hstage hp.field_eq (hlen e rfl), ⟨?_, rfl, hp.flags_eq, ?_⟩, ?_⟩
    · rw [← hp.flags_eq]
      rfl
    · rw [← hp.header_eq]
      by_cases hne : e = []
      · simp [finishExtra, gather, openExtra, Option.filter_some, hne]
      · simp [finishExtra, gather, openExtra, Option.filter_some, hne]
    · rw [HeaderFields.extraOctets, Crc32.feed_append, ← hp.crc_eq, Crc32.feed_append]
      rfl

theorem Hashed.extra_of_reads (hp : p.Hashed flags .extraLength title seen) (h : p.Reads bs q)
    (hq : q.isDone = true) : ∃ extra rest, bs = HeaderFields.extraOctets extra ++ rest ∧
      extra.isSome = (flags &&& 0x04 != 0) ∧ ∀ e, extra = some e → e.length < 65536 := by
  have hstage := hp.stage_eq
  rw [firstFrom_extraLength] at hstage
  split at hstage
  · next hflag =>
    have hopen : p.isDone = false := by rw [isDone, hstage]; rfl
    have hsize : p.field.size = 0 := by rw [hp.field_eq]; rfl
    have htwo := h.exceeds hq hopen fun b _ => gathers_extraLength hstage b
    rw [hsize, Nat.zero_add] at htwo
    obtain ⟨low, high, rest, rfl⟩ : ∃ low high rest, bs = low :: high :: rest := by
      rcases bs with _ | ⟨low, _ | ⟨high, rest⟩⟩
      · cases htwo
      · exact absurd htwo (Nat.lt_irrefl 1)
      · exact ⟨low, high, rest, rfl⟩
    have hlt : ofLittleEndian [low, high] < Nat.pow 256 2 := ofLittleEndian_lt [low, high]
    obtain ⟨n, hn, hbytes⟩ : ∃ n, n < 65536 ∧ [low, high] = littleEndian 2 n :=
      ⟨ofLittleEndian [low, high], hlt, (littleEndian_ofLittleEndian [low, high]).symm⟩
    have hlength := reads_extraLength hstage hp.field_eq hn
    rw [← hbytes] at hlength
    have hrest : (if n = 0 then (p.openExtra n).finishExtra else p.openExtra n).Reads rest q :=
      hlength.of_append h
    obtain ⟨e, rest, rfl, rfl⟩ : ∃ e rest', rest = e ++ rest' ∧ e.length = n := by
      refine ⟨rest.take n, rest.drop n, (List.take_append_drop _ _).symm, ?_⟩
      rw [List.length_take]
      split at hrest
      · next hzero => omega
      · next hne =>
        have hlong := hrest.exceeds hq rfl fun b _ => gathers_extra rfl b
        simp only [openExtra] at hlong
        simp at hlong
        omega
    refine ⟨some e, rest, ?_, hflag.symm, fun e' he' => ?_⟩
    · rw [HeaderFields.extraOctets, ← hbytes, List.append_assoc]
      rfl
    · cases he'
      exact hn
  · next hflag =>
    exact ⟨none, bs, rfl, (Bool.eq_false_iff.mpr hflag).symm, fun e he => by cases he⟩

/-! ## Texts -/

/-- The two texts of a header. -/
inductive TextField
  | filename
  | comment

namespace TextField

def stage : TextField → Stage
  | filename => .filename
  | comment => .comment

/-- Where the parser goes on behind the text. -/
def next : TextField → Stage
  | filename => .comment
  | comment => .checksum

def flag : TextField → UInt8
  | filename => 0x08
  | comment => 0x10

/-- The header with this text. -/
def put (t : TextField) (title : Header) (text : Option String) : Header :=
  match t with
  | filename => { title with filename := text }
  | comment => { title with comment := text }

/-- The text that a header has in this field. -/
def get (t : TextField) (title : Header) : Option String :=
  match t with
  | filename => title.filename
  | comment => title.comment

theorem put_get (t : TextField) (title : Header) : t.put title (t.get title) = title := by
  cases t <;> rfl

theorem firstFrom_stage (t : TextField) : firstFrom flags t.stage =
    if flags &&& t.flag != 0 then t.stage else firstFrom flags t.next := by
  cases t <;> rfl

end TextField

variable {t : TextField} {b : UInt8}

theorem feed_text (hs : p.stage = t.stage) (hb : b ≠ 0) : p.feed b =
    (p.gather [b], if maxTextField < p.field.size + 1 then some .textTooLong else none) := by
  have hb' : (b == 0) = false := beq_false_of_ne hb
  cases t
  all_goals
    rw [gather_one]
    simp only [feed, show p.stage = _ from hs, TextField.stage, hb', Bool.false_eq_true, if_false,
      Array.size_push]

theorem feed_zero (hs : p.stage = t.stage) : p.feed 0 =
    ({ p with
        stage := firstFrom p.flags t.next
        field := #[]
        header := t.put p.header (textOf p.field)
        crc := p.crc.push 0 }, none) := by
  cases t
  all_goals simp only [feed, show p.stage = _ from hs, TextField.stage, beq_self_eq_true, if_true,
    TextField.put, TextField.next]

theorem isDone_of_text (hs : p.stage = t.stage) : p.isDone = false := by
  rw [isDone, hs]
  cases t <;> rfl

theorem gathers_text (hs : p.stage = t.stage) (hb : b ≠ 0) : p.Gathers maxTextField b := by
  intro q hq hsize
  rw [feed_text (hq.trans hs) hb, if_neg (Nat.not_lt.mpr hsize)]

/-- Bytes of a text, before its closing zero. -/
theorem reads_text (hs : p.stage = t.stage) (hf : p.field = #[]) (hzero : 0 ∉ bs)
    (hlen : bs.length ≤ maxTextField) : p.Reads bs (p.gather bs) := by
  refine reads_gather (isDone_of_text hs) (fun b hb => gathers_text hs ?_) ?_
  · rintro rfl
    exact hzero hb
  · rw [hf]
    simpa using hlen

/-- A text that goes on beyond its limit is refused there. -/
theorem refuses_text (hs : p.stage = t.stage) (hf : p.field = #[]) (hzero : 0 ∉ bs)
    (hlong : maxTextField < bs.length) : p.Refuses bs .textTooLong := by
  obtain ⟨init, b, more, rfl, hlen⟩ : ∃ init b more, bs = init ++ b :: more ∧
      init.length = maxTextField :=
    ⟨bs.take maxTextField, bs[maxTextField], bs.drop (maxTextField + 1),
      by rw [← List.drop_eq_getElem_cons hlong, List.take_append_drop],
      List.length_take_of_le (Nat.le_of_lt hlong)⟩
  rw [List.mem_append, List.mem_cons, not_or, not_or] at hzero
  have hinit := reads_text hs hf hzero.1 (Nat.le_of_eq hlen)
  refine ⟨init, b, more, _, (p.gather init).gather [b], rfl, hinit,
    isDone_of_text (p := p.gather init) hs, ?_⟩
  have hfull : maxTextField < (p.gather init).field.size + 1 := by
    rw [size_gather, hf, hlen]
    simp
  rw [feed_text (p := p.gather init) hs (Ne.symm hzero.2.1), if_pos hfull]

theorem textOf_gather (hf : p.field = #[]) (bs : Bytes) :
    textOf (p.gather bs).field = HeaderFields.text (some bs) := by
  rw [gather, hf]
  cases bs <;> rfl

theorem Hashed.reads_text (hp : p.Hashed flags t.stage title seen) (hnone : t.get title = none)
    {text : Option Bytes} (htext : HeaderFields.IsText text (flags &&& t.flag != 0)) :
    ∃ q, p.Reads (HeaderFields.textOctets text) q ∧
      q.Hashed flags t.next (t.put title (HeaderFields.text text))
        (seen ++ HeaderFields.textOctets text) := by
  have hstage := hp.stage_eq
  rw [t.firstFrom_stage, ← htext.isSome_eq] at hstage
  cases text with
  | none =>
    refine ⟨p, .nil p, ⟨hstage, hp.field_eq, hp.flags_eq, ?_⟩, ?_⟩
    · rw [hp.header_eq, show HeaderFields.text none = t.get title from hnone.symm, t.put_get]
    · rw [hp.crc_eq, HeaderFields.textOctets, List.append_nil]
  | some s =>
    have hread : p.Reads s (p.gather s) :=
      HeaderParser.reads_text hstage hp.field_eq (htext.not_mem s rfl) (htext.length_le s rfl)
    have hclose := feed_zero (p := p.gather s) (t := t) hstage
    refine ⟨_, hread.append (.cons (isDone_of_text (p := p.gather s) hstage) hclose (.nil _)),
      ⟨?_, rfl, hp.flags_eq, ?_⟩, ?_⟩
    · rw [← hp.flags_eq]
      rfl
    · rw [← hp.header_eq, ← textOf_gather hp.field_eq]
      rfl
    · rw [HeaderFields.textOctets, Crc32.feed_append, ← hp.crc_eq, Crc32.feed_append]
      rfl

theorem Hashed.text_of_reads (hp : p.Hashed flags t.stage title seen) (h : p.Reads bs q)
    (hq : q.isDone = true) : ∃ text rest, bs = HeaderFields.textOctets text ++ rest ∧
      HeaderFields.IsText text (flags &&& t.flag != 0) := by
  have hstage := hp.stage_eq
  rw [t.firstFrom_stage] at hstage
  split at hstage
  · next hflag =>
    have hlimit (s rest : Bytes) (hs : p.Reads (s ++ rest) q) (hzero : 0 ∉ s) :
        s.length ≤ maxTextField := by
      refine Nat.le_of_not_lt fun hlong => ?_
      exact ((refuses_text hstage hp.field_eq hzero hlong).append rest).not_reads hs
    by_cases hmem : 0 ∈ bs
    · obtain ⟨s, rest, rfl, hzero⟩ := List.eq_append_cons_of_mem hmem
      refine ⟨some s, rest, List.append_cons s 0 rest, hflag.symm, ?_, ?_⟩
      · intro s' hs'
        cases hs'
        exact hzero
      · intro s' hs'
        cases hs'
        exact hlimit s (0 :: rest) h hzero
    · -- without a zero the text goes on, up to the limit and no further
      have hbyte (b : UInt8) (hb : b ∈ bs) : p.Gathers maxTextField b := by
        refine gathers_text hstage ?_
        rintro rfl
        exact hmem hb
      have hlong := h.exceeds hq (isDone_of_text hstage) hbyte
      have hle := hlimit bs [] (by rwa [List.append_nil]) hmem
      rw [hp.field_eq] at hlong
      simp at hlong
      omega
  · next hflag => exact ⟨none, bs, rfl, (Bool.eq_false_iff.mpr hflag).symm, nofun, nofun⟩

/-! ## The checksum -/

theorem feed_checksum (hs : p.stage = .checksum) (b : UInt8) : p.feed b =
    if p.field.size + 1 < 2 then ({ p with field := p.field.push b }, none)
    else if ofLittleEndian (p.field.push b).toList = p.shortCrc then
      ({ p with stage := .done, field := #[] }, none)
    else ({ p with field := p.field.push b },
      some (.checksumMismatch (ofLittleEndian (p.field.push b).toList) p.shortCrc)) := by
  simp only [feed, hs, shortCrc, Array.size_push]

theorem shortCrc_lt (p : HeaderParser) : p.shortCrc < 65536 := Nat.mod_lt _ (by decide)

/-- The checksum is two bytes, and then the header is done. -/
theorem reads_checksum_iff (hs : p.stage = .checksum) (hf : p.field = #[]) (hq : q.isDone = true) :
    p.Reads bs q ↔
      bs = littleEndian 2 p.shortCrc ∧ q = { p with stage := .done, field := #[] } := by
  have hopen {r : HeaderParser} (hr : r.stage = .checksum) : r.isDone = false := by
    rw [isDone, hr]
    rfl
  have hfirst (low : UInt8) : p.feed low = ({ p with field := #[low] }, none) := by
    rw [feed_checksum hs, hf]
    rfl
  have hsecond (low high : UInt8) : ({ p with field := #[low] } : HeaderParser).feed high =
      if ofLittleEndian [low, high] = p.shortCrc then
        ({ p with stage := .done, field := #[] }, none)
      else ({ p with field := #[low, high] },
        some (.checksumMismatch (ofLittleEndian [low, high]) p.shortCrc)) := by
    rw [feed_checksum (p := { p with field := #[low] }) hs]
    rfl
  constructor
  · intro h
    rcases bs with _ | ⟨low, _ | ⟨high, rest⟩⟩
    · cases h
      rw [hopen hs] at hq
      cases hq
    · obtain ⟨-, r, hr, hnil⟩ := h.of_cons
      rw [hfirst] at hr
      cases hr
      cases hnil
      rw [hopen (r := { p with field := #[low] }) hs] at hq
      cases hq
    · obtain ⟨-, r, hr, hrest⟩ := h.of_cons
      rw [hfirst] at hr
      cases hr
      obtain ⟨-, r, hr, hrest⟩ := hrest.of_cons
      rw [hsecond] at hr
      split at hr
      · next hstored =>
        cases hr
        obtain ⟨rfl, rfl⟩ := hrest.of_isDone rfl
        refine ⟨?_, rfl⟩
        rw [← hstored]
        exact (littleEndian_ofLittleEndian [low, high]).symm
      · cases hr
  · rintro ⟨rfl, rfl⟩
    obtain ⟨low, high, hbytes⟩ : ∃ low high, littleEndian 2 p.shortCrc = [low, high] :=
      ⟨_, _, rfl⟩
    have hstored : ofLittleEndian [low, high] = p.shortCrc := by
      rw [← hbytes, ofLittleEndian_littleEndian 2 _ p.shortCrc_lt]
    rw [hbytes]
    have hopen' : ({ p with field := #[low] } : HeaderParser).isDone = false := hopen hs
    refine .cons (hopen hs) (hfirst low) (.cons hopen' ?_ (.nil _))
    rw [hsecond, if_pos hstored]

theorem Hashed.shortCrc_eq {stage : Stage} (hp : p.Hashed flags stage title seen) :
    p.shortCrc = (Crc32.ofBytes seen).toNat % 65536 := by
  rw [shortCrc, hp.crc_eq]
  rfl

/-- The header ends with its checksum, if one is announced. -/
theorem Hashed.reads_checksum (hp : p.Hashed flags .checksum title seen) :
    ∃ q, p.Reads (HeaderFields.checksumOctets flags seen) q ∧ q.isDone = true ∧
      q.header = title := by
  have hstage := hp.stage_eq
  rw [firstFrom_checksum] at hstage
  unfold HeaderFields.checksumOctets
  split at hstage
  · next hflag =>
    rw [if_pos hflag, ← hp.shortCrc_eq]
    exact ⟨_, (reads_checksum_iff hstage hp.field_eq rfl).mpr ⟨rfl, rfl⟩, rfl, hp.header_eq⟩
  · next hflag =>
    rw [if_neg hflag]
    exact ⟨p, .nil p, by rw [isDone, hstage]; rfl, hp.header_eq⟩

theorem Hashed.checksum_of_reads (hp : p.Hashed flags .checksum title seen) (h : p.Reads bs q)
    (hq : q.isDone = true) : bs = HeaderFields.checksumOctets flags seen := by
  have hstage := hp.stage_eq
  rw [firstFrom_checksum] at hstage
  unfold HeaderFields.checksumOctets
  split at hstage
  · next hflag =>
    rw [if_pos hflag, ← hp.shortCrc_eq]
    exact ((reads_checksum_iff hstage hp.field_eq hq).mp h).1
  · next hflag =>
    rw [if_neg hflag]
    exact (h.of_isDone (by rw [isDone, hstage]; rfl)).1

/-! ## Whole headers -/

/-- Well-formed fields are read up to the checksum. -/
theorem reads_body {f : HeaderFields} (hf : f.WellFormed) :
    ∃ q, ({} : HeaderParser).Reads f.body q ∧ q.Hashed f.flags .checksum f.header f.body := by
  obtain ⟨p1, hread1, hp1⟩ := reads_fixed f.effort f.os hf.length_time hf.reserved
  obtain ⟨p2, hread2, hp2⟩ := hp1.reads_extra rfl hf.extra hf.length_extra
  obtain ⟨p3, hread3, hp3⟩ := hp2.reads_text (t := .filename) rfl hf.filename
  obtain ⟨p4, hread4, hp4⟩ := hp3.reads_text (t := .comment) rfl hf.comment
  exact ⟨p4, ((hread1.append hread2).append hread3).append hread4, hp4⟩

theorem reads_octets {f : HeaderFields} (hf : f.WellFormed) :
    ∃ q, ({} : HeaderParser).Reads f.octets q ∧ q.isDone = true ∧ q.header = f.header := by
  obtain ⟨p, hbody, hp⟩ := reads_body hf
  obtain ⟨q, hsum, hdone, hheader⟩ := hp.reads_checksum
  exact ⟨q, hbody.append hsum, hdone, hheader⟩

/-- What is read to the end are the octets of well-formed fields. -/
theorem fields_of_reads (h : ({} : HeaderParser).Reads bs q) (hq : q.isDone = true) :
    ∃ f : HeaderFields, f.WellFormed ∧ bs = f.octets := by
  obtain ⟨flags, time, effort, os, rest, rfl, htime, hreserved⟩ := fixed_of_reads h hq
  obtain ⟨p1, hread1, hp1⟩ := reads_fixed effort os htime hreserved
  have h1 := hread1.of_append h
  obtain ⟨extra, rest, rfl, hextra, hlen⟩ := hp1.extra_of_reads h1 hq
  obtain ⟨p2, hread2, hp2⟩ := hp1.reads_extra rfl hextra hlen
  have h2 := hread2.of_append h1
  obtain ⟨filename, rest, rfl, hname⟩ := hp2.text_of_reads (t := .filename) h2 hq
  obtain ⟨p3, hread3, hp3⟩ := hp2.reads_text (t := .filename) rfl hname
  have h3 := hread3.of_append h2
  obtain ⟨comment, rest, rfl, hcomment⟩ := hp3.text_of_reads (t := .comment) h3 hq
  obtain ⟨p4, hread4, hp4⟩ := hp3.reads_text (t := .comment) rfl hcomment
  obtain rfl := hp4.checksum_of_reads (hread4.of_append h3) hq
  refine ⟨⟨flags, time, effort, os, extra, filename, comment⟩,
    ⟨hreserved, htime, hextra, hlen, hname, hcomment⟩, ?_⟩
  simp only [HeaderFields.octets, HeaderFields.body, List.append_assoc]

end HeaderParser

/-- A fresh parser comes to the end of a header behind `n` bytes exactly where they are the octets
of well-formed fields, and the header is what the fields say. From then on it uses nothing, also
when the header is taken. -/
theorem header_grammar (s : Bytes) (n : Nat) (h : Header) :
    ((∃ p, HeaderParser.parse {} s = (p, .ok n) ∧ p.isDone = true ∧ p.takeHeader.1 = h) ↔
      n ≤ s.length ∧ ∃ f : HeaderFields, f.WellFormed ∧ s.take n = f.octets ∧ h = f.header) ∧
    ∀ p, HeaderParser.parse {} s = (p, .ok n) → p.isDone = true → ∀ pieces,
      p.parseAll pieces = (p, .ok (pieces.map fun _ => 0)) ∧
      p.takeHeader.2.parseAll pieces = (p.takeHeader.2, .ok (pieces.map fun _ => 0)) := by
  refine ⟨⟨?_, ?_⟩, fun p _ hp pieces => ⟨HeaderParser.parseAll_of_isDone hp pieces,
    HeaderParser.parseAll_of_isDone (p := p.takeHeader.2) hp pieces⟩⟩
  · rintro ⟨p, hparse, hdone, rfl⟩
    rw [HeaderParser.parse_eq_feedAll rfl] at hparse
    obtain ⟨used, rest, rfl, rfl, hread, -⟩ := HeaderParser.reads_of_feedAll hparse
    obtain ⟨f, hf, rfl⟩ := HeaderParser.fields_of_reads hread hdone
    obtain ⟨q, hq, -, hheader⟩ := HeaderParser.reads_octets hf
    rw [Nat.zero_add]
    refine ⟨by rw [List.length_append]; omega, f, hf, List.take_left, ?_⟩
    rw [hread.eq hq]
    exact hheader
  · rintro ⟨hn, f, hf, htake, rfl⟩
    obtain ⟨q, hread, hdone, hheader⟩ := HeaderParser.reads_octets hf
    refine ⟨q, ?_, hdone, hheader⟩
    have hparse := hread.parse_append rfl hdone (s.drop n)
    rwa [← htake, List.take_append_drop, List.length_take, Nat.min_eq_left hn] at hparse

/-- The checksum of a plain header, in front of a byte that does not belong to it. -/
example : (HeaderParser.parse {} [31, 139, 8, 2, 0, 0, 0, 0, 0, 3, 167, 119, 99]).2 = .ok 12 := by cbv

end GzipStream
