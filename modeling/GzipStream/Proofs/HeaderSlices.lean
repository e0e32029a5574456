import GzipStream.Proofs.HeaderCalls

/-!
# Header fields out of slices

`HeaderParser.feed` takes one byte and can go wrong nowhere. A caller has slices, and then a field
takes at once as much as there is of it: what it lacks is a difference, what it takes is a part of
the input, and the octets of a full field are looked up by their places. `HeaderParser.parse?` reads
this way, and has no value where one of them is out of range. A parser is always short of its field,
so it has one for all calls, with the same replies (`parser_stays_in_range`). Neither way of reading
depends on how the input is cut (`parsing_ignores_pieces`).
-/

namespace GzipStream

/-- A difference that is not below zero. -/
def minus? (a b : Nat) : Option Nat := if b ≤ a then some (a - b) else none

/-- The bytes from one place up to another, if both are in range. -/
def slice? (bs : Bytes) (start stop : Nat) : Option Bytes :=
  if start ≤ stop ∧ stop ≤ bs.length then some ((bs.take stop).drop start) else none

namespace HeaderParser

/-! ## Reading by fields -/

/-- A turn at one field: the header goes on at a place of the input, or the call ends. -/
inductive Turn
  | next (p : HeaderParser) (pos : Nat)
  | stop (p : HeaderParser) (answer : Except HeaderDefect Nat)

/-- A field and how far the input was taken for it. -/
structure Filled where
  parser : HeaderParser
  pos : Nat
  full : Bool

/-- Where the field is not full the input has ended. -/
def Filled.whenFull (f : Filled) (k : HeaderParser → Nat → Option Turn) : Option Turn :=
  if f.full then k f.parser f.pos else some (.stop f.parser (.ok f.pos))

/-- The parser with more bytes of its field, which are not hashed. -/
def hold (p : HeaderParser) (bs : Bytes) : HeaderParser :=
  { p with field := (p.field.toList ++ bs).toArray }

/-- Takes what is wanted of `len` bytes in all, without hashing it. -/
def fillRaw? (p : HeaderParser) (input : Bytes) (pos len : Nat) : Option Filled := do
  let want ← minus? len p.field.size
  let left ← minus? input.length pos
  let taken ← slice? input pos (pos + min want left)
  let q := p.hold taken
  some ⟨q, pos + min want left, q.field.size == len⟩

def fill? (p : HeaderParser) (input : Bytes) (pos len : Nat) : Option Filled := do
  let ⟨q, pos, full⟩ ← p.fillRaw? input pos len
  let fresh ← slice? q.field.toList p.field.size q.field.size
  some ⟨{ q with crc := p.crc.feed fresh }, pos, full⟩

/-- Takes a text up to its closing zero, which is not kept. -/
def fillText? (p : HeaderParser) (input : Bytes) (pos : Nat) : Option Filled := do
  let rest ← slice? input pos input.length
  match rest.idxOf? 0 with
  | some stop =>
    let chunk ← slice? rest 0 (stop + 1)
    let body ← slice? chunk 0 (← minus? chunk.length 1)
    some ⟨{ p.hold body with crc := p.crc.feed chunk }, pos + chunk.length, true⟩
  | none => some ⟨{ p.hold rest with crc := p.crc.feed rest }, pos + rest.length, false⟩

def finishFixed? (p : HeaderParser) (pos : Nat) : Option Turn := do
  let f := p.field
  let p := { p with field := #[] }
  let magic ← slice? f.toList 0 2
  if magic != [0x1f, 0x8b] then
    some (.stop p (.error (.badMagic (← magic[0]?) (← magic[1]?))))
  else
    let method ← f[2]?
    if method != 8 then some (.stop p (.error (.badMethod method)))
    else
      let flags ← f[3]?
      let p := { p with flags := flags }
      if flags &&& Header.flagReserved != 0 then some (.stop p (.error (.reservedFlags flags)))
      else
        let time := ofLittleEndian [← f[4]?, ← f[5]?, ← f[6]?, ← f[7]?]
        let os ← f[9]?
        some (.next { p with
          stage := firstFrom flags .extraLength
          header := { p.header with mtime := Header.timeOfUnix time, os := os } } pos)

def finishExtraLength? (p : HeaderParser) (pos : Nat) : Option Turn := do
  let length := ofLittleEndian [← p.field[0]?, ← p.field[1]?]
  some (.next { p with stage := .extra length, field := #[] } pos)

def finishChecksum? (p : HeaderParser) (pos : Nat) : Option Turn := do
  let stored := ofLittleEndian [← p.field[0]?, ← p.field[1]?]
  if stored = p.shortCrc then some (.next { p with stage := .done, field := #[] } pos)
  else some (.stop p (.error (.checksumMismatch stored p.shortCrc)))

def textTurn? (p : HeaderParser) (t : TextField) (input : Bytes) (pos : Nat) : Option Turn := do
  let f ← p.fillText? input pos
  if maxTextField < f.parser.field.size then some (.stop f.parser (.error .textTooLong))
  else
    f.whenFull fun q pos => some (.next { q with
      stage := firstFrom q.flags t.next
      field := #[]
      header := t.put q.header (textOf q.field) } pos)

def turn? (p : HeaderParser) (input : Bytes) (pos : Nat) : Option Turn :=
  match p.stage with
  | .fixed => do (← p.fill? input pos 10).whenFull finishFixed?
  | .extraLength => do (← p.fill? input pos 2).whenFull finishExtraLength?
  | .extra n => do (← p.fill? input pos n).whenFull fun q pos => some (.next q.finishExtra pos)
  | .filename => p.textTurn? .filename input pos
  | .comment => p.textTurn? .comment input pos
  | .checksum => do (← p.fillRaw? input pos 2).whenFull finishChecksum?
  | .done => some (.stop p (.ok pos))

/-- At most `n` turns, one for each field that is left and one to stop. -/
def turns? : Nat → HeaderParser → Bytes → Nat → Option (HeaderParser × Except HeaderDefect Nat)
  | 0, _, _, _ => none
  | n + 1, p, input, pos => do
    match ← p.turn? input pos with
    | .next q pos => turns? n q input pos
    | .stop q answer => some (q, answer)

def parse? (p : HeaderParser) (input : Bytes) : Option (HeaderParser × Except HeaderDefect Nat) :=
  turns? 7 p input 0

def use? (p : HeaderParser) : Use → Option (HeaderParser × Reply)
  | .parse input => (p.parse? input).map (Prod.map id .parsed)
  | .reset => some ({}, .reset)
  | .takeHeader => some (p.takeHeader.2, .header p.takeHeader.1)

def uses? (p : HeaderParser) : List Use → Option (HeaderParser × List Reply)
  | [] => some (p, [])
  | u :: us => do
    let (q, reply) ← p.use? u
    let (q, replies) ← q.uses? us
    some (q, reply :: replies)

/-- Parses one piece after the other; the answers are the numbers of bytes used. -/
def parseAll? (p : HeaderParser) :
    List Bytes → Option (HeaderParser × Except HeaderDefect (List Nat))
  | [] => some (p, .ok [])
  | piece :: pieces => do
    match ← p.parse? piece with
    | (q, .error d) => some (q, .error d)
    | (q, .ok n) =>
      let (r, answer) ← q.parseAll? pieces
      some (r, answer.map (n :: ·))

variable {p q c : HeaderParser} {t : TextField} {input bs body rest : Bytes} {pos len n : Nat}

/-! ## In range -/

theorem minus?_of_le {a b : Nat} (h : b ≤ a) : minus? a b = some (a - b) := if_pos h

theorem slice?_of_le {start stop : Nat} (h : start ≤ stop) (h' : stop ≤ bs.length) :
    slice? bs start stop = some ((bs.take stop).drop start) := if_pos ⟨h, h'⟩

theorem slice?_rest (h : pos ≤ input.length) :
    slice? input pos input.length = some (input.drop pos) := by
  rw [slice?_of_le h (Nat.le_refl _), List.take_length]

theorem size_hold (p : HeaderParser) (bs : Bytes) :
    (p.hold bs).field.size = p.field.size + bs.length := p.size_gather bs

theorem hold_hold (p : HeaderParser) (xs ys : Bytes) : (p.hold xs).hold ys = p.hold (xs ++ ys) := by
  simp only [hold, List.append_assoc]

/-- Either the input ends inside the field, or the field is complete in front of the rest. -/
structure Takes (p : HeaderParser) (input : Bytes) (pos len : Nat) (taken rest : Bytes) : Prop where
  drop_eq : input.drop pos = taken ++ rest
  stops : p.field.size + taken.length < len ∧ rest = [] ∨ p.field.size + taken.length = len

theorem fillRaw?_eq (hp : p.field.size ≤ len) (hpos : pos ≤ input.length) :
    ∃ taken rest, p.Takes input pos len taken rest ∧
      p.fillRaw? input pos len =
        some ⟨p.hold taken, pos + taken.length, p.field.size + taken.length == len⟩ := by
  obtain ⟨taken, htaken⟩ : ∃ taken, taken = (input.drop pos).take (len - p.field.size) := ⟨_, rfl⟩
  have hlen : min (len - p.field.size) (input.length - pos) = taken.length := by
    rw [htaken, List.length_take, List.length_drop]
  have hslice : slice? input pos (pos + taken.length) = some taken := by
    rw [slice?_of_le (Nat.le_add_right _ _) (by omega), List.drop_take, Nat.add_sub_cancel_left,
      ← hlen, ← List.length_drop, ← List.take_eq_take_min, htaken]
  refine ⟨taken, (input.drop pos).drop (len - p.field.size), ⟨?_, ?_⟩, ?_⟩
  · rw [htaken, List.take_append_drop]
  · rw [List.drop_eq_nil_iff, List.length_drop]
    omega
  · simp only [fillRaw?, minus?_of_le hp, minus?_of_le hpos, Option.bind_eq_bind, Option.bind_some,
      hlen, hslice, size_hold]

theorem fill?_eq (hp : p.field.size ≤ len) (hpos : pos ≤ input.length) :
    ∃ taken rest, p.Takes input pos len taken rest ∧ p.fill? input pos len =
      some ⟨p.gather taken, pos + taken.length, p.field.size + taken.length == len⟩ := by
  obtain ⟨taken, rest, htakes, hraw⟩ := fillRaw?_eq hp hpos
  have hfresh : slice? (p.hold taken).field.toList p.field.size (p.hold taken).field.size =
      some taken := by
    have hlen : (p.hold taken).field.size = (p.hold taken).field.toList.length :=
      Array.length_toList.symm
    rw [hlen, slice?_rest (by rw [← hlen, size_hold]; exact Nat.le_add_right _ _)]
    exact congrArg some (List.drop_left' Array.length_toList)
  refine ⟨taken, rest, htakes, ?_⟩
  rw [fill?, hraw]
  simp only [Option.bind_eq_bind, Option.bind_some, hfresh]
  rfl

theorem idxOf?_zero (hbody : 0 ∉ body) (rest : Bytes) :
    (body ++ 0 :: rest).idxOf? 0 = some body.length := by
  induction body with
  | nil => rfl
  | cons b body ih =>
    rw [List.mem_cons, not_or] at hbody
    rw [List.cons_append, List.idxOf?_cons, if_neg (by simpa using Ne.symm hbody.1), ih hbody.2]
    rfl

/-- A text that is closed in the input. -/
theorem fillText?_closed (hpos : pos ≤ input.length) (hdrop : input.drop pos = body ++ 0 :: rest)
    (hbody : 0 ∉ body) : p.fillText? input pos = some ⟨
      { p.gather body with crc := (p.gather body).crc.push 0 }, pos + (body.length + 1), true⟩ := by
  have hchunk : slice? (body ++ 0 :: rest) 0 (body.length + 1) = some (body ++ [0]) := by
    rw [slice?_of_le (Nat.zero_le _) (by simp), List.drop_zero, List.append_cons,
      List.take_left' (by simp)]
  have hkept : slice? (body ++ [0]) 0 body.length = some body := by
    rw [slice?_of_le (Nat.zero_le _) (by simp), List.drop_zero, List.take_left]
  have hcrc : p.crc.feed (body ++ [0]) = (p.crc.feed body).push 0 := Crc32.feed_append _ _ _
  have hlen : (body ++ [0]).length = body.length + 1 := List.length_append
  simp only [fillText?, slice?_rest hpos, hdrop, Option.bind_eq_bind, Option.bind_some,
    idxOf?_zero hbody, hchunk, hlen, minus?_of_le (Nat.le_add_left 1 _), Nat.add_sub_cancel, hkept,
    hcrc]
  rfl

/-- A text that goes on behind the input. -/
theorem fillText?_open (hpos : pos ≤ input.length) (hdrop : 0 ∉ input.drop pos) :
    p.fillText? input pos =
      some ⟨p.gather (input.drop pos), pos + (input.drop pos).length, false⟩ := by
  simp only [fillText?, slice?_rest hpos, Option.bind_eq_bind, Option.bind_some,
    List.idxOf?_eq_none_iff.mpr hdrop]
  rfl

/-! ## Overlong texts -/

theorem stalled_text (hs : p.stage = t.stage) :
    p.stalled? = if maxTextField < p.field.size then some .textTooLong else none := by
  rw [stalled?, hs]
  cases t <;> rfl

theorem text_of_stalled (h : p.stalled? = some .textTooLong) :
    ∃ t : TextField, p.stage = t.stage ∧ maxTextField < p.field.size := by
  have hsize (t : TextField) (hs : p.stage = t.stage) : maxTextField < p.field.size := by
    rw [stalled_text hs] at h
    split at h
    · next hlong => exact hlong
    · cases h
  cases hs : p.stage with
  | filename => exact ⟨.filename, rfl, hsize .filename hs⟩
  | comment => exact ⟨.comment, rfl, hsize .comment hs⟩
  | checksum =>
    rw [stalled?, hs] at h
    simp only at h
    split at h <;> cases h
  | fixed | extraLength | extra | done =>
    rw [stalled?, hs] at h
    cases h

/-- The same parser, but for an overlong text: of that a parser that reads slices has more. -/
def Like (c q : HeaderParser) : Prop :=
  c = q ∨ c.stalled? = some .textTooLong ∧ q.stalled? = some .textTooLong ∧ c.header = q.header

/-- What follows a text in the input, and what is made of it. -/
theorem textTurn?_eq (hs : p.stage = t.stage) (hpos : pos ≤ input.length) :
    ∃ body rest, input.drop pos = body ++ rest ∧ 0 ∉ body ∧
      (maxTextField < p.field.size + body.length ∧
          (∃ c, p.textTurn? t input pos = some (.stop c (.error .textTooLong)) ∧
            c.stalled? = some .textTooLong ∧ c.header = p.header) ∨
        p.field.size + body.length ≤ maxTextField ∧
          (rest = [] ∧ p.textTurn? t input pos =
              some (.stop (p.gather body) (.ok (pos + body.length))) ∨
            ∃ more, rest = 0 :: more ∧ p.textTurn? t input pos =
              some (.next ((p.gather body).feed 0).1 (pos + (body.length + 1))))) := by
  have hstalled (body : Bytes) (crc : Crc32) (h : maxTextField < (p.gather body).field.size) :
      ({ p.gather body with crc := crc } : HeaderParser).stalled? = some .textTooLong :=
    (stalled_text (p := { p.gather body with crc := crc }) hs).trans (if_pos h)
  by_cases hzero : 0 ∈ input.drop pos
  · obtain ⟨body, more, hdrop, hbody⟩ := List.eq_append_cons_of_mem hzero
    have hfill := fillText?_closed (p := p) hpos hdrop hbody
    refine ⟨body, 0 :: more, hdrop, hbody, ?_⟩
    rw [textTurn?, hfill, ← size_gather]
    by_cases hlong : maxTextField < (p.gather body).field.size
    · exact .inl ⟨hlong, _, if_pos hlong, hstalled body _ hlong, rfl⟩
    · rw [feed_zero (p := p.gather body) hs]
      exact .inr ⟨Nat.le_of_not_lt hlong, .inr ⟨more, rfl, if_neg hlong⟩⟩
  · have hfill := fillText?_open (p := p) hpos hzero
    refine ⟨input.drop pos, [], (List.append_nil _).symm, hzero, ?_⟩
    rw [textTurn?, hfill, ← size_gather]
    by_cases hlong : maxTextField < (p.gather (input.drop pos)).field.size
    · exact .inl ⟨hlong, _, if_pos hlong, hstalled _ _ hlong, rfl⟩
    · exact .inr ⟨Nat.le_of_not_lt hlong, .inl ⟨rfl, if_neg hlong⟩⟩

theorem turn?_text (hs : p.stage = t.stage) : p.turn? input pos = p.textTurn? t input pos := by
  rw [turn?, hs]
  cases t <;> rfl

/-- From then on a parser fails in the same way. -/
theorem parse?_overlong (h : p.stalled? = some .textTooLong) (input : Bytes) :
    ∃ c, p.parse? input = some (c, .error .textTooLong) ∧ c.stalled? = some .textTooLong ∧
      c.header = p.header := by
  obtain ⟨t, hs, hlong⟩ := text_of_stalled h
  obtain ⟨body, -, -, -, ⟨-, c, hturn, hc⟩ | ⟨hle, -⟩⟩ := textTurn?_eq hs (Nat.zero_le input.length)
  · refine ⟨c, ?_, hc⟩
    rw [parse?, turns?, turn?_text hs, hturn]
    rfl
  · omega

/-! ## Turn by turn -/

/-- Extra bytes that are none are complete at once. -/
def settle (p : HeaderParser) : HeaderParser := if p.stage = .extra 0 then p.finishExtra else p

/-- How many fields can follow. -/
def Stage.left : Stage → Nat
  | .fixed => 6
  | .extraLength => 5
  | .extra _ => 4
  | .filename => 3
  | .comment => 2
  | .checksum => 1
  | .done => 0

theorem Stage.left_le (s : Stage) : s.left ≤ 6 := by
  cases s with
  | extra => exact Nat.le_add_right 4 2
  | fixed | extraLength | filename | comment | checksum | done => decide

/-- A turn does what the bytes that it takes do one by one. -/
inductive Turn.Mirrors (p : HeaderParser) (input : Bytes) (pos : Nat) : Turn → Prop
  | next {taken rest : Bytes} {q : HeaderParser} (hdrop : input.drop pos = taken ++ rest)
      (hread : p.settle.Reads taken q.settle) (hfield : q.field = #[])
      (hleft : q.stage.left < p.stage.left) : Mirrors p input pos (.next q (pos + taken.length))
  | stop {c q : HeaderParser} {answer : Except HeaderDefect Nat}
      (hfeed : p.settle.feedAll pos (input.drop pos) = (q, answer)) (hlike : c.Like q) :
      Mirrors p input pos (.stop c answer)

theorem settle_of_ne (h : p.stage ≠ .extra 0) : p.settle = p := if_neg h

theorem Short.ne_extra (h : p.Short) : p.stage ≠ .extra 0 :=
  fun hs => Nat.not_lt_zero _ (h 0 (by rw [hs]; rfl))

theorem settle_extra (hs : p.stage = .extra n) :
    p.settle = if n = 0 then p.finishExtra else p := by
  rw [settle, hs]
  by_cases hn : n = 0
  · rw [if_pos hn, if_pos (by rw [hn])]
  · rw [if_neg hn, if_neg fun h => hn (Stage.extra.inj h)]

theorem left_firstFrom_le (flags : UInt8) (s : Stage) : (firstFrom flags s).left ≤ s.left := by
  cases s with
  | fixed | extra | done => exact Nat.le_refl _
  | extraLength | filename | comment | checksum =>
    simp only [firstFrom]
    repeat' split
    all_goals decide

section Mirrors

variable {taken init : Bytes} {last : UInt8} {d : HeaderDefect}

/-- The input ends inside the field. -/
theorem mirrors_stop (hs : p.stage ≠ .extra 0) (hdrop : input.drop pos = taken ++ [])
    (hread : p.Reads taken q) : Turn.Mirrors p input pos (.stop q (.ok (pos + taken.length))) := by
  refine .stop ?_ (.inl rfl)
  rw [settle_of_ne hs, hdrop, hread.feedAll_eq, feedAll]

/-- The last byte of the field shows a defect. -/
theorem mirrors_defect (hs : p.stage ≠ .extra 0) (hdrop : input.drop pos = init ++ [last] ++ rest)
    (hread : p.Reads init q) (hd : q.isDone = false) (hlast : q.feed last = (c, some d)) :
    Turn.Mirrors p input pos (.stop c (.error d)) := by
  refine .stop ?_ (.inl rfl)
  rw [settle_of_ne hs, hdrop, List.append_assoc, hread.feedAll_eq, List.singleton_append, feedAll,
    hd, hlast]
  rfl

/-- A field is completed by a last byte. -/
theorem exists_last (hsize : p.field.size < len) (hfull : p.field.size + taken.length = len) :
    ∃ init last, taken = init ++ [last] ∧ p.field.size + init.length < len := by
  obtain rfl | ⟨init, last, rfl⟩ := List.eq_nil_or_concat taken
  · rw [List.length_nil] at hfull
    omega
  · rw [List.concat_eq_append, List.length_append, List.length_singleton] at hfull
    exact ⟨init, last, List.concat_eq_append, by omega⟩

/-- Where a hashed field is not full yet, the input ends in it, or its last byte is left to show. -/
theorem mirrors_field {k : HeaderParser → Nat → Option Turn}
    (hturn : p.turn? input pos = (p.fill? input pos len).bind (·.whenFull k))
    (hd : p.isDone = false) (hbyte : ∀ b, p.Gathers (len - 1) b) (hs : p.stage.wanted = some len)
    (hp : p.Short) (hpos : pos ≤ input.length)
    (hfull : ∀ init last rest, input.drop pos = init ++ [last] ++ rest →
      p.Reads init (p.gather init) → (p.gather (init ++ [last])).field.size = len →
      ∃ t, k (p.gather (init ++ [last])) (pos + (init ++ [last]).length) = some t ∧
        t.Mirrors p input pos) :
    ∃ t, p.turn? input pos = some t ∧ t.Mirrors p input pos := by
  have hsize := hp len hs
  have hread {bs : Bytes} (h : p.field.size + bs.length < len) : p.Reads bs (p.gather bs) :=
    reads_gather hd (fun b _ => hbyte b) (by omega)
  obtain ⟨taken, rest, htakes, hfill⟩ := fill?_eq (Nat.le_of_lt hsize) hpos
  rw [hturn, hfill, Option.bind_some, Filled.whenFull]
  obtain ⟨hlt, rfl⟩ | heq := htakes.stops
  · rw [beq_false_of_ne (Nat.ne_of_lt hlt)]
    exact ⟨_, rfl, mirrors_stop hp.ne_extra htakes.drop_eq (hread hlt)⟩
  · obtain ⟨init, last, rfl, hinit⟩ := exists_last hsize heq
    rw [beq_iff_eq.mpr heq]
    exact hfull init last rest htakes.drop_eq (hread hinit) ((size_gather _ _).trans heq)

/-! ### The fixed bytes -/

theorem finishFixed?_eq (hsize : p.field.size = 10) (pos : Nat) :
    p.finishFixed? pos = some (match p.finishFixed p.field with
      | (q, none) => .next q pos
      | (q, some d) => .stop q (.error d)) := by
  obtain ⟨b0, b1, b2, b3, b4, b5, b6, b7, b8, b9, hfield⟩ :
      ∃ b0 b1 b2 b3 b4 b5 b6 b7 b8 b9, p.field = #[b0, b1, b2, b3, b4, b5, b6, b7, b8, b9] := by
    match hf : p.field.toList, (Array.length_toList.trans hsize : p.field.toList.length = 10) with
    | [b0, b1, b2, b3, b4, b5, b6, b7, b8, b9], _ =>
      refine ⟨b0, b1, b2, b3, b4, b5, b6, b7, b8, b9, ?_⟩
      exact Array.toList_inj.mp hf
  have hmagic : slice? p.field.toList 0 2 = some [b0, b1] := by rw [hfield]; rfl
  rw [finishFixed?, hmagic, finishFixed, hfield]
  simp only [Option.bind_eq_bind, Option.bind_some]
  by_cases hright : b0 = 0x1f ∧ b1 = 0x8b
  · obtain ⟨rfl, rfl⟩ := hright
    by_cases hmethod : b2 = 8
    · subst hmethod
      by_cases hflags : b3 &&& Header.flagReserved = 0
      · simp [hflags]
      · simp [hflags]
    · simp [hmethod]
  · have hne : ¬ b0 = 0x1f ∨ ¬ b1 = 0x8b := Decidable.not_and_iff_or_not.mp hright
    simp [hright, hne]

theorem stage_of_finishFixed {f : Array UInt8} (h : p.finishFixed f = (q, none)) :
    q.stage = firstFrom q.flags .extraLength ∧ q.field = #[] := by
  unfold finishFixed at h
  simp only at h
  repeat' split at h
  all_goals cases h
  exact ⟨rfl, rfl⟩

theorem turn?_fixed (hs : p.stage = .fixed) (hp : p.Short) (hpos : pos ≤ input.length) :
    ∃ t, p.turn? input pos = some t ∧ t.Mirrors p input pos := by
  have hopen : p.isDone = false := by rw [isDone, hs]; rfl
  refine mirrors_field (by rw [turn?, hs]; rfl) hopen (gathers_fixed hs) (by rw [hs]; rfl) hp
    hpos ?_
  intro init last rest hdrop hinit hten
  have hlast : (p.gather init).feed last =
      (p.gather (init ++ [last])).finishFixed (p.gather (init ++ [last])).field := by
    rw [feed_fixed (p := p.gather init) hs, gather_gather, if_neg (by rw [hten]; decide)]
  refine ⟨_, finishFixed?_eq hten _, ?_⟩
  rcases hfinish : (p.gather (init ++ [last])).finishFixed (p.gather (init ++ [last])).field with
    ⟨q, _ | d⟩
  · obtain ⟨hstage, hfield⟩ := stage_of_finishFixed hfinish
    have hleft := left_firstFrom_le q.flags .extraLength
    have hlater : Stage.extraLength ≠ .extra 0 := Stage.noConfusion
    have hq : q.settle = q := settle_of_ne (by rw [hstage]; exact firstFrom_ne_extra hlater)
    rw [← hstage] at hleft
    refine .next hdrop ?_ hfield (by rw [hs]; exact Nat.lt_succ_of_le hleft)
    rw [settle_of_ne hp.ne_extra, hq]
    exact hinit.append (.cons hopen (hlast.trans hfinish) (.nil q))
  · exact mirrors_defect hp.ne_extra hdrop hinit hopen (hlast.trans hfinish)

/-! ### Extra bytes -/

theorem pair_of_size {f : Array UInt8} (h : f.size = 2) : ∃ low high, f = #[low, high] := by
  match hf : f.toList, (Array.length_toList.trans h : f.toList.length = 2) with
  | [low, high], _ => exact ⟨low, high, Array.toList_inj.mp hf⟩

theorem finishExtraLength?_eq (hsize : p.field.size = 2) (pos : Nat) :
    p.finishExtraLength? pos = some (.next
      { p with stage := .extra (ofLittleEndian p.field.toList), field := #[] } pos) := by
  obtain ⟨low, high, hfield⟩ := pair_of_size hsize
  rw [finishExtraLength?, hfield]
  rfl

theorem turn?_extraLength (hs : p.stage = .extraLength) (hp : p.Short) (hpos : pos ≤ input.length) :
    ∃ t, p.turn? input pos = some t ∧ t.Mirrors p input pos := by
  have hopen : p.isDone = false := by rw [isDone, hs]; rfl
  refine mirrors_field (by rw [turn?, hs]; rfl) hopen (gathers_extraLength hs) (by rw [hs]; rfl) hp
    hpos ?_
  intro init last rest hdrop hinit htwo
  have hleft : Stage.left (.extra (ofLittleEndian (p.gather (init ++ [last])).field.toList)) <
      p.stage.left := by
    rw [hs]
    exact Nat.lt_succ_self 4
  refine ⟨_, finishExtraLength?_eq htwo _, .next hdrop ?_ rfl hleft⟩
  rw [settle_of_ne hp.ne_extra, settle_extra rfl]
  refine hinit.append (.cons hopen ?_ (.nil _))
  rw [feed_extraLength (p := p.gather init) hs, gather_gather, if_neg (by rw [htwo]; decide)]
  simp only
  split <;> rfl

theorem settle_finishExtra (p : HeaderParser) : p.finishExtra.settle = p.finishExtra :=
  settle_of_ne (p.finishExtra_ne_extra 0)

theorem left_finishExtra (hs : p.stage = .extra n) (bs : Bytes) :
    (p.gather bs).finishExtra.stage.left < p.stage.left := by
  rw [hs]
  exact Nat.lt_succ_of_le (left_firstFrom_le p.flags .filename)

theorem turn?_extra (hs : p.stage = .extra n) (hp : p.Short) (hpos : pos ≤ input.length) :
    ∃ t, p.turn? input pos = some t ∧ t.Mirrors p input pos := by
  have hopen : p.isDone = false := by rw [isDone, hs]; rfl
  refine mirrors_field (k := fun q pos => some (.next q.finishExtra pos)) (by rw [turn?, hs]; rfl)
    hopen (gathers_extra hs) (by rw [hs]; rfl) hp hpos ?_
  intro init last rest hdrop hinit hfull
  refine ⟨_, rfl, .next hdrop ?_ rfl (left_finishExtra hs _)⟩
  rw [settle_of_ne hp.ne_extra, settle_finishExtra]
  refine hinit.append (.cons hopen ?_ (.nil _))
  rw [feed_extra (p := p.gather init) hs, gather_gather,
    if_neg (by rw [hfull]; exact Nat.lt_irrefl n)]

/-- Extra bytes that are none take a turn of their own, in which nothing is read. -/
theorem turn?_no_extra (hs : p.stage = .extra 0) (hf : p.field = #[]) (hpos : pos ≤ input.length) :
    ∃ t, p.turn? input pos = some t ∧ t.Mirrors p input pos := by
  have hsize : p.field.size = 0 := by rw [hf]; rfl
  obtain ⟨taken, rest, htakes, hfill⟩ := fill?_eq (Nat.le_of_eq hsize) hpos
  obtain rfl : taken = [] := by
    obtain ⟨hlt, -⟩ | heq := htakes.stops
    · exact absurd hlt (Nat.not_lt_zero _)
    · exact List.length_eq_zero_iff.mp (by omega)
  refine ⟨.next (p.gather []).finishExtra (pos + ([] : Bytes).length), ?_,
    .next htakes.drop_eq ?_ rfl (left_finishExtra hs _)⟩
  · rw [turn?, hs]
    simp only [hfill, Option.bind_eq_bind, Option.bind_some, Filled.whenFull, hsize]
    rfl
  · rw [settle_finishExtra, settle_extra hs, if_pos rfl, gather_nil]
    exact .nil _

/-! ### Texts -/

/-- The byte that makes a text too long is refused. -/
theorem feedAll_overlong (hs : p.stage = t.stage) (hbody : 0 ∉ body)
    (hle : p.field.size ≤ maxTextField) (hlong : maxTextField < p.field.size + body.length)
    (rest : Bytes) (n : Nat) : ∃ q, p.feedAll n (body ++ rest) = (q, .error .textTooLong) ∧
      q.stalled? = some .textTooLong ∧ q.header = p.header := by
  have hk : maxTextField - p.field.size < body.length := by omega
  obtain ⟨init, b, more, rfl, hinit⟩ : ∃ init b more, body = init ++ b :: more ∧
      p.field.size + init.length = maxTextField := by
    refine ⟨body.take (maxTextField - p.field.size), body[maxTextField - p.field.size],
      body.drop (maxTextField - p.field.size + 1), ?_, ?_⟩
    · rw [← List.drop_eq_getElem_cons hk, List.take_append_drop]
    · rw [List.length_take_of_le (Nat.le_of_lt hk)]
      omega
  rw [List.mem_append, List.mem_cons, not_or, not_or] at hbody
  have hread : p.Reads init (p.gather init) := by
    refine reads_gather (isDone_of_text hs) (fun c hc => gathers_text hs ?_) (Nat.le_of_eq hinit)
    rintro rfl
    exact hbody.1 hc
  have hfull : maxTextField < (p.gather init).field.size + 1 := by
    rw [size_gather, hinit]
    exact Nat.lt_succ_self _
  have hopen : (p.gather init).isDone = false := isDone_of_text (p := p.gather init) hs
  refine ⟨(p.gather init).gather [b], ?_, ?_, rfl⟩
  · rw [List.append_assoc, hread.feedAll_eq, List.cons_append, feedAll, hopen,
      feed_text (p := p.gather init) hs (Ne.symm hbody.2.1), if_pos hfull]
    rfl
  · rw [stalled_text (p := (p.gather init).gather [b]) hs, size_gather]
    exact if_pos hfull

theorem turn?_text_mirrors (hs : p.stage = t.stage) (hp : p.stalled? = none)
    (hpos : pos ≤ input.length) : ∃ t, p.turn? input pos = some t ∧ t.Mirrors p input pos := by
  have hle : p.field.size ≤ maxTextField := by
    rw [stalled_text hs] at hp
    split at hp
    · cases hp
    · omega
  have hne : p.stage ≠ .extra 0 := by
    rw [hs]
    cases t <;> nofun
  have hread {body : Bytes} (hbody : 0 ∉ body) (h : p.field.size + body.length ≤ maxTextField) :
      p.Reads body (p.gather body) := by
    refine reads_gather (isDone_of_text hs) (fun b hb => gathers_text hs ?_) h
    rintro rfl
    exact hbody hb
  rw [turn?_text hs]
  obtain ⟨body, rest, hdrop, hbody, hcases⟩ := textTurn?_eq (p := p) hs hpos
  obtain ⟨hlong, c, hturn, hc, hheader⟩ | ⟨hshort, ⟨rfl, hturn⟩ | ⟨more, rfl, hturn⟩⟩ := hcases
  · obtain ⟨q, hfeed, hq, hheader'⟩ := feedAll_overlong hs hbody hle hlong rest pos
    refine ⟨_, hturn, .stop (q := q) ?_ (.inr ⟨hc, hq, hheader.trans hheader'.symm⟩)⟩
    rw [settle_of_ne hne, hdrop, hfeed]
  · exact ⟨_, hturn, mirrors_stop hne hdrop (hread hbody hshort)⟩
  · have hclose := feed_zero (p := p.gather body) hs
    have hnext : t.next ≠ .extra 0 := by cases t <;> nofun
    have hlen : pos + (body.length + 1) = pos + (body ++ [0]).length := by
      rw [List.length_append, List.length_singleton]
    rw [hlen] at hturn
    have hsplit : input.drop pos = body ++ [0] ++ more := by
      rw [hdrop, List.append_assoc, List.singleton_append]
    refine ⟨_, hturn, .next hsplit ?_ ?_ ?_⟩
    · rw [settle_of_ne hne, hclose]
      rw [settle_of_ne (firstFrom_ne_extra hnext)]
      exact (hread hbody hshort).append
        (.cons (isDone_of_text (p := p.gather body) hs) hclose (.nil _))
    · rw [hclose]
    · rw [hclose, hs]
      refine Nat.lt_of_le_of_lt (left_firstFrom_le _ t.next) ?_
      cases t <;> decide

/-! ### The checksum -/

theorem finishChecksum?_eq (hsize : p.field.size = 2) (pos : Nat) : p.finishChecksum? pos =
    some (if ofLittleEndian p.field.toList = p.shortCrc then
      .next { p with stage := .done, field := #[] } pos
    else .stop p (.error (.checksumMismatch (ofLittleEndian p.field.toList) p.shortCrc))) := by
  obtain ⟨low, high, hfield⟩ := pair_of_size hsize
  have hlow : p.field[0]? = some low := by rw [hfield]; rfl
  have hhigh : p.field[1]? = some high := by rw [hfield]; rfl
  have hstored : p.field.toList = [low, high] := by rw [hfield]
  simp only [finishChecksum?, hlow, hhigh, hstored, Option.bind_eq_bind, Option.bind_some]
  split <;> rfl

theorem feed_hold (hs : p.stage = .checksum) (b : UInt8) : p.feed b =
    if (p.hold [b]).field.size < 2 then (p.hold [b], none)
    else if ofLittleEndian (p.hold [b]).field.toList = p.shortCrc then
      ({ p with stage := .done, field := #[] }, none)
    else (p.hold [b],
      some (.checksumMismatch (ofLittleEndian (p.hold [b]).field.toList) p.shortCrc)) := by
  have hpush : p.field.push b = (p.field.toList ++ [b]).toArray := by
    rw [← Array.toList_push, Array.toArray_toList]
  rw [size_hold, feed_checksum hs, hpush]
  rfl

/-- The first byte of the checksum is kept, and not hashed. -/
theorem reads_hold (hs : p.stage = .checksum) (hsize : p.field.size + bs.length < 2) :
    p.Reads bs (p.hold bs) := by
  match bs, hsize with
  | [], _ =>
    rw [hold, List.append_nil, Array.toArray_toList]
    exact .nil p
  | [b], hsize =>
    have hfeed : p.feed b = (p.hold [b], none) := by
      rw [feed_hold hs, size_hold]
      exact if_pos hsize
    exact .cons (by rw [isDone, hs]; rfl) hfeed (.nil _)
  | _ :: _ :: _, hsize =>
    rw [List.length_cons, List.length_cons] at hsize
    omega

theorem turn?_checksum (hs : p.stage = .checksum) (hp : p.Short) (hpos : pos ≤ input.length) :
    ∃ t, p.turn? input pos = some t ∧ t.Mirrors p input pos := by
  have hsize : p.field.size < 2 := hp 2 (by rw [hs]; rfl)
  have hne := hp.ne_extra
  obtain ⟨taken, rest, htakes, hfill⟩ := fillRaw?_eq (Nat.le_of_lt hsize) hpos
  have hturn : p.turn? input pos = Filled.whenFull
      ⟨p.hold taken, pos + taken.length, p.field.size + taken.length == 2⟩ finishChecksum? := by
    rw [turn?, hs]
    simp only [hfill, Option.bind_eq_bind, Option.bind_some]
  rw [hturn, Filled.whenFull]
  obtain ⟨hlt, rfl⟩ | hfull := htakes.stops
  · rw [beq_false_of_ne (Nat.ne_of_lt hlt)]
    exact ⟨_, rfl, mirrors_stop hne htakes.drop_eq (reads_hold hs hlt)⟩
  · obtain ⟨init, last, rfl, hlt⟩ := exists_last hsize hfull
    have hinit : p.Reads init (p.hold init) := reads_hold hs hlt
    have hopen : (p.hold init).isDone = false := by rw [isDone, hold, hs]; rfl
    have htwo : (p.hold (init ++ [last])).field.size = 2 := by rw [size_hold, hfull]
    have hlast := feed_hold (p := p.hold init) hs last
    rw [hold_hold, if_neg (by rw [htwo]; decide)] at hlast
    rw [hfull]
    refine ⟨_, finishChecksum?_eq htwo _, ?_⟩
    have hcrc : (p.hold (init ++ [last])).shortCrc = (p.hold init).shortCrc := rfl
    rw [hcrc]
    split at hlast
    · next hstored =>
      rw [if_pos hstored]
      refine .next htakes.drop_eq ?_ rfl (by rw [hs]; exact Nat.zero_lt_one)
      rw [settle_of_ne hne]
      exact hinit.append (.cons hopen hlast (.nil _))
    · next hstored =>
      rw [if_neg hstored]
      exact mirrors_defect hne htakes.drop_eq hinit hopen hlast

end Mirrors

/-- No defect shows, and of the field something is left to be read. -/
def Ready (p : HeaderParser) : Prop :=
  p.Short ∧ p.stalled? = none ∨ p.stage = .extra 0 ∧ p.field = #[]

theorem ready_of_field_nil (h : p.field = #[]) : p.Ready := by
  by_cases hs : p.stage = .extra 0
  · exact .inr ⟨hs, h⟩
  · exact .inl ⟨short_of_field_nil h hs, stalled_of_field_nil h⟩

theorem turn?_eq (hp : p.Ready) (hpos : pos ≤ input.length) :
    ∃ t, p.turn? input pos = some t ∧ t.Mirrors p input pos := by
  obtain ⟨hshort, hstalled⟩ | ⟨hs, hfield⟩ := hp
  · cases hs : p.stage with
    | fixed => exact turn?_fixed hs hshort hpos
    | extraLength => exact turn?_extraLength hs hshort hpos
    | extra n => exact turn?_extra hs hshort hpos
    | filename => exact turn?_text_mirrors (t := .filename) hs hstalled hpos
    | comment => exact turn?_text_mirrors (t := .comment) hs hstalled hpos
    | checksum => exact turn?_checksum hs hshort hpos
    | done =>
      have hdone : p.isDone = true := by rw [isDone, hs]; rfl
      refine ⟨.stop p (.ok pos), by rw [turn?, hs], .stop ?_ (.inl rfl)⟩
      rw [settle_of_ne (by rw [hs]; exact Stage.noConfusion)]
      exact feedAll_of_isDone hdone pos _
  · exact turn?_no_extra hs hfield hpos

/-- Turns are enough, and do together what the bytes do one by one. -/
theorem turns?_eq (hp : p.Ready) (hpos : pos ≤ input.length) (hn : p.stage.left < n) :
    ∃ c q answer, turns? n p input pos = some (c, answer) ∧
      p.settle.feedAll pos (input.drop pos) = (q, answer) ∧ c.Like q := by
  induction n generalizing p pos with
  | zero => exact absurd hn (Nat.not_lt_zero _)
  | succ n ih =>
    obtain ⟨t, hturn, hmirrors⟩ := turn?_eq hp hpos
    rw [turns?, hturn]
    cases hmirrors with
    | stop hfeed hlike => exact ⟨_, _, _, rfl, hfeed, hlike⟩
    | @next taken rest q hdrop hread hfield hleft =>
      have hlen : (input.drop pos).length = taken.length + rest.length := by
        rw [hdrop, List.length_append]
      rw [List.length_drop] at hlen
      have hrest : input.drop (pos + taken.length) = rest := by
        rw [← List.drop_drop, hdrop, List.drop_left]
      have hpos' : pos + taken.length ≤ input.length := by omega
      obtain ⟨c, q', answer, hturns, hfeed, hlike⟩ :=
        ih (ready_of_field_nil hfield) hpos' (by omega)
      refine ⟨c, q', answer, hturns, ?_, hlike⟩
      rw [hdrop, hread.feedAll_eq, ← hrest]
      exact hfeed

/-! ## Calls -/

theorem Short.eq_of_stalled {d : HeaderDefect} (h : p.Short) (hd : p.stalled? = some d) :
    d = .textTooLong := by
  unfold stalled? at hd
  split at hd
  · split at hd <;> cases hd
    rfl
  · split at hd <;> cases hd
    rfl
  · next hs =>
    rw [if_pos (h 2 (by rw [hs]; rfl))] at hd
    cases hd
  · cases hd

/-- A checksum that did not match is compared again. -/
theorem parse?_mismatched (h : p.Mismatched) (input : Bytes) : p.parse? input =
    some (p, .error (.checksumMismatch (ofLittleEndian p.field.toList) p.shortCrc)) := by
  obtain ⟨taken, rest, htakes, hfill⟩ :=
    fillRaw?_eq (Nat.le_of_eq h.size_eq) (Nat.zero_le input.length)
  have hsize := h.size_eq
  obtain rfl : taken = [] := List.length_eq_zero_iff.mp (by have := htakes.stops; omega)
  rw [hold, List.append_nil, Array.toArray_toList, List.length_nil, Nat.add_zero, hsize] at hfill
  rw [parse?, turns?, turn?, h.stage_eq]
  simp only [hfill, Option.bind_eq_bind, Option.bind_some, Filled.whenFull]
  simp only [beq_self_eq_true, if_true, finishChecksum?_eq hsize, if_neg h.stored_ne,
    Option.bind_some]

/-- Reading by fields has a value, and gives what reading byte by byte gives. -/
theorem parse?_eq (hp : p.Sound) (input : Bytes) :
    ∃ c, p.parse? input = some (c, (p.parse input).2) ∧ c.Like (p.parse input).1 := by
  cases hs : p.stalled? with
  | none =>
    have hshort := hp.short hs
    have hleft : p.stage.left < 7 := Nat.lt_succ_of_le p.stage.left_le
    obtain ⟨c, q, answer, hturns, hfeed, hlike⟩ :=
      turns?_eq (.inl ⟨hshort, hs⟩) (Nat.zero_le input.length) hleft
    rw [settle_of_ne hshort.ne_extra, List.drop_zero] at hfeed
    rw [parse_eq_feedAll hs, hfeed]
    exact ⟨c, hturns, hlike⟩
  | some d =>
    have hparse : p.parse input = (p, .error d) := by rw [parse, hs]
    rw [hparse]
    obtain hshort | hm := hp
    · obtain rfl := hshort.eq_of_stalled hs
      obtain ⟨c, hc, hstalled, hheader⟩ := parse?_overlong hs input
      exact ⟨c, hc, .inr ⟨hstalled, hs, hheader⟩⟩
    · rw [hm.stalled_eq] at hs
      cases hs
      exact ⟨p, parse?_mismatched hm input, .inl rfl⟩

theorem Like.parse?_eq (h : c.Like p) (hp : p.Sound) (input : Bytes) :
    ∃ c', c.parse? input = some (c', (p.parse input).2) ∧ c'.Like (p.parse input).1 := by
  obtain rfl | ⟨hc, hs, hheader⟩ := h
  · exact HeaderParser.parse?_eq hp input
  · obtain ⟨c', hparse, hc', hheader'⟩ := parse?_overlong hc input
    have hfail : p.parse input = (p, .error .textTooLong) := by rw [parse, hs]
    rw [hfail]
    exact ⟨c', hparse, .inr ⟨hc', hs, hheader'.trans hheader⟩⟩

theorem Like.use?_eq (h : c.Like p) (hp : p.Sound) (u : Use) :
    ∃ c', c.use? u = some (c', (p.use u).2) ∧ c'.Like (p.use u).1 := by
  cases u with
  | parse input =>
    obtain ⟨c', hparse, hlike⟩ := h.parse?_eq hp input
    exact ⟨c', by rw [use?, hparse]; rfl, hlike⟩
  | reset => exact ⟨{}, rfl, .inl rfl⟩
  | takeHeader =>
    obtain rfl | ⟨hc, hs, hheader⟩ := h
    · exact ⟨_, rfl, .inl rfl⟩
    · refine ⟨c.takeHeader.2, ?_, .inr ⟨hc, hs, rfl⟩⟩
      rw [use?, takeHeader, hheader]
      rfl

theorem Like.uses?_eq (h : c.Like p) (hp : p.Sound) (us : List Use) :
    ∃ c', c.uses? us = some (c', (p.uses us).2) ∧ c'.Like (p.uses us).1 := by
  induction us generalizing c p with
  | nil => exact ⟨c, rfl, h⟩
  | cons u us ih =>
    obtain ⟨c', hu, hlike⟩ := h.use?_eq hp u
    obtain ⟨c'', hus, hlast⟩ := ih hlike (hp.use u)
    refine ⟨c'', ?_, hlast⟩
    rw [uses?, hu]
    simp only [Option.bind_eq_bind, Option.bind_some, hus, uses]

theorem Like.fits (h : c.Like p) (hp : p.Sound) : c.Fits := by
  obtain rfl | ⟨hc, -, -⟩ := h
  · exact hp.fits
  · obtain ⟨t, hs, -⟩ := text_of_stalled hc
    exact Sound.fits (.inl (short_text hs))

theorem Like.header_eq (h : c.Like p) : c.header = p.header := by
  obtain rfl | ⟨-, -, hheader⟩ := h
  · rfl
  · exact hheader

theorem isDone_of_stalled (h : p.stalled? = some .textTooLong) : p.isDone = false := by
  obtain ⟨t, hs, -⟩ := text_of_stalled h
  exact isDone_of_text hs

theorem Like.isDone_eq (h : c.Like p) : c.isDone = p.isDone := by
  obtain rfl | ⟨hc, hp, -⟩ := h
  · rfl
  · rw [isDone_of_stalled hc, isDone_of_stalled hp]

theorem Like.eq_of_isDone (h : c.Like p) (hd : c.isDone = true) : c = p := by
  refine h.resolve_right ?_
  rintro ⟨hc, -, -⟩
  rw [isDone_of_stalled hc] at hd
  cases hd

theorem Like.parseAll?_eq (h : c.Like p) (hp : p.Sound) (pieces : List Bytes) :
    ∃ c', c.parseAll? pieces = some (c', (p.parseAll pieces).2) ∧ c'.Like (p.parseAll pieces).1 := by
  induction pieces generalizing c p with
  | nil => exact ⟨c, rfl, h⟩
  | cons piece pieces ih =>
    obtain ⟨c₁, hpiece, hlike⟩ := h.parse?_eq hp piece
    have hsound : (p.parse piece).1.Sound := hp.use (.parse piece)
    rw [parseAll?, hpiece, parseAll]
    rcases hparse : p.parse piece with ⟨q, d | n⟩
    · rw [hparse] at hlike
      exact ⟨c₁, rfl, hlike⟩
    · rw [hparse] at hlike hsound
      obtain ⟨c₂, hpieces, hlast⟩ := ih hlike hsound
      simp only [Option.bind_eq_bind, Option.bind_some, hpieces]
      rcases hall : q.parseAll pieces with ⟨r, d | ns⟩ <;> rw [hall] at hlast
      · exact ⟨c₂, rfl, hlast⟩
      · exact ⟨c₂, rfl, hlast⟩

/-- A parser that is done takes nothing from further pieces. -/
theorem Like.parseAll?_of_isDone (h : c.Like p) (hp : p.Sound) (hd : c.isDone = true)
    (pieces : List Bytes) : c.parseAll? pieces = some (c, .ok (pieces.map fun _ => 0)) := by
  have hd' : p.isDone = true := h.isDone_eq.symm.trans hd
  obtain ⟨c', hall, hlike⟩ := h.parseAll?_eq hp pieces
  rw [parseAll_of_isDone hd'] at hall hlike
  rw [hall, hlike.eq_of_isDone (hlike.isDone_eq.trans hd'), h.eq_of_isDone hd]

/-- Parsing does not depend on how its input is cut: it fails as on the whole input, or comes to the
same header by as many bytes, and once that is done no later piece is used. So it is whether the
bytes are taken one by one or by fields. -/
theorem parsing_ignores_pieces (pieces : List Bytes) :
    (∀ d, (parseAll {} pieces).2 = .error d ↔ (parse {} pieces.flatten).2 = .error d) ∧
    (∀ p n, parse {} pieces.flatten = (p, .ok n) → ∃ q used,
      parseAll {} pieces = (q, .ok used) ∧ used.sum = n ∧ q.isDone = p.isDone ∧
        q.takeHeader.1 = p.takeHeader.1 ∧
        (q.isDone = true → ∀ later, q.parseAll later = (q, .ok (later.map fun _ => 0)))) ∧
    ∃ c all c' whole, parseAll? {} pieces = some (c, all) ∧
      parse? {} pieces.flatten = some (c', whole) ∧
      (∀ d, all = .error d ↔ whole = .error d) ∧
      ∀ n, whole = .ok n → ∃ used, all = .ok used ∧ used.sum = n ∧ c.isDone = c'.isDone ∧
        c.takeHeader.1 = c'.takeHeader.1 ∧
        (c.isDone = true → ∀ later, c.parseAll? later = some (c, .ok (later.map fun _ => 0))) := by
  have heq := parseAll_eq_parse (p := {}) rfl pieces
  have hfails : ∀ d, (parseAll {} pieces).2 = .error d ↔ (parse {} pieces.flatten).2 = .error d := by
    intro d
    rw [heq]
    rcases ({} : HeaderParser).parse pieces.flatten with ⟨p, d' | n⟩
    · exact ⟨fun h => by cases h; rfl, fun h => by cases h; rfl⟩
    · exact ⟨nofun, nofun⟩
  have hgoes : ∀ p n, parse {} pieces.flatten = (p, .ok n) →
      parseAll {} pieces = (p, .ok (shares n pieces)) ∧ (shares n pieces).sum = n := by
    intro p n hp
    have hn := (parse_ok rfl hp).2.1
    rw [hp] at heq
    exact ⟨heq, by rw [sum_shares, Nat.min_eq_left hn]⟩
  refine ⟨hfails, fun p n hp => ?_, ?_⟩
  · obtain ⟨hall, hsum⟩ := hgoes p n hp
    exact ⟨p, shares n pieces, hall, hsum, rfl, rfl, parseAll_of_isDone⟩
  · obtain ⟨c, hc, hlike⟩ := Like.parseAll?_eq (.inl rfl) sound_start pieces
    obtain ⟨c', hc', hlike'⟩ := Like.parse?_eq (.inl rfl) sound_start pieces.flatten
    refine ⟨c, _, c', _, hc, hc', hfails, fun n hn => ?_⟩
    obtain ⟨hall, hsum⟩ := hgoes _ n (Prod.ext rfl hn)
    have hsame : (parseAll {} pieces).1 = (parse {} pieces.flatten).1 := congrArg Prod.fst hall
    rw [hsame] at hlike
    refine ⟨shares n pieces, congrArg Prod.snd hall, hsum, hlike.isDone_eq.trans hlike'.isDone_eq.symm,
      hlike.header_eq.trans hlike'.header_eq.symm, fun hd later => ?_⟩
    exact hlike.parseAll?_of_isDone (sound_start.use (.parse pieces.flatten)) hd later

theorem parse_le {n : Nat} (h : (p.parse input).2 = .ok n) : n ≤ input.length := by
  have hs : p.stalled? = none := by
    cases hs : p.stalled? with
    | none => rfl
    | some d =>
      rw [parse, hs] at h
      cases h
  exact (parse_ok hs (Prod.ext rfl h)).2.1

theorem uses_le {n : Nat} (us : List Use)
    (h : (.parse input, .parsed (.ok n)) ∈ us.zip (p.uses us).2) : n ≤ input.length := by
  induction us generalizing p with
  | nil => cases h
  | cons u us ih =>
    rw [uses, List.zip_cons_cons, List.mem_cons] at h
    obtain h | h := h
    · obtain ⟨rfl, hreply⟩ := Prod.mk.inj h
      exact parse_le (Reply.parsed.inj hreply).symm
    · exact ih h

end HeaderParser

/-- Whatever is done with a parser, also behind a failure: to read by fields has a value, so that no
difference falls below zero and no slice and no place is out of range, and the replies are those of
reading byte by byte. A field is never longer than it should be, and no more bytes are used than
there are. -/
theorem parser_stays_in_range (us : List HeaderParser.Use) :
    (∃ c, HeaderParser.uses? {} us = some (c, (HeaderParser.uses {} us).2) ∧ c.Fits) ∧
    (HeaderParser.uses {} us).1.Fits ∧
    ∀ input n, (.parse input, .parsed (.ok n)) ∈ us.zip (HeaderParser.uses {} us).2 →
      n ≤ input.length := by
  obtain ⟨c, hc, hlike⟩ := HeaderParser.Like.uses?_eq (.inl rfl) HeaderParser.sound_start us
  have hsound := HeaderParser.sound_uses us
  exact ⟨⟨c, hc, hlike.fits hsound⟩, hsound.fits, fun _ _ h => HeaderParser.uses_le us h⟩

/-- With more of a field than there is of it there would be no value. -/
example : HeaderParser.parse? { stage := .extraLength, field := #[1, 0, 0] } [] = none := by cbv

end GzipStream
