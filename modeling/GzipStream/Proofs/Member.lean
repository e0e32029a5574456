import GzipStream.Checksum.Crc32
import GzipStream.Header.Parser
import GzipStream.Options
import GzipStream.Proofs.Deflate.Cursor
import GzipStream.Trailer

/-!
# Members, byte by byte

A `Member` is how far the reading of one member has come. It takes one byte at a time and decodes
at once, so the bytes read so far determine it. `HeaderParser.Running.parse_spec` says that a parser
moves it over the header in pieces of any size.
-/

namespace GzipStream

/-- Why a member is refused. -/
inductive Fault
  | header (defect : HeaderDefect)
  | body (fault : Deflate.DecodeFault)
  | trailer (mismatch : Trailer.Mismatch)

def Fault.message : Fault → String
  | header d => d.toError.message
  | body f => f.text
  | trailer m => m.toError.message

inductive Member
  | detect
  | header (parser : HeaderParser)
  | body (isGzip : Bool) (cursor : Deflate.Cursor)
  | trailer (payload seen : Bytes)
  | done (payload : Bytes)
  | failed (payload : Bytes) (fault : Fault)

namespace Member

/-- Before the first byte. -/
def start : Framing → Member
  | .auto => detect
  | .gzip => header {}
  | .zlib => body false (.start true)
  | .raw => body false (.start false)

/-- A body that the cursor has come to, or what comes behind it. -/
def ofCursor (isGzip : Bool) (c : Deflate.Cursor) : Member :=
  match c.mode with
  | .done => if isGzip then trailer c.history.toList [] else done c.history.toList
  | .failed f => failed c.history.toList (.body f)
  | _ => body isGzip c

def headerByte (p : HeaderParser) (b : UInt8) : Member :=
  match p.feed b with
  | (p, none) => if p.isDone then body true (.start false) else header p
  | (_, some d) => failed [] (.header d)

/-- What eight trailer bytes lead to. -/
def ofTrailer (payload seen : Bytes) : Member :=
  match Trailer.verify seen (Crc32.ofBytes payload) (UInt32.ofNat payload.length) with
  | .ok () => done payload
  | .error m => failed payload (.trailer m)

def trailerByte (payload seen : Bytes) (b : UInt8) : Member :=
  if seen.length + 1 < 8 then trailer payload (seen ++ [b]) else ofTrailer payload (seen ++ [b])

/-- Takes one byte; a member that is done or failed takes none. -/
def byte : Member → UInt8 → Member
  | detect, b => if b = 0x1f then headerByte {} b else ofCursor false ((Deflate.Cursor.start true).byte b)
  | header p, b => headerByte p b
  | body isGzip c, b => ofCursor isGzip (c.byte b)
  | trailer payload seen, b => trailerByte payload seen b
  | m, _ => m

/-- Whether more input is needed. -/
def isOpen : Member → Bool
  | done _ | failed .. => false
  | _ => true

/-- All that was decoded. -/
def payload : Member → Bytes
  | detect | header _ => []
  | body _ c => c.history.toList
  | trailer p _ | done p | failed p _ => p

/-- Every byte is asked for, and the last leads to the second member. -/
def Takes : Member → Bytes → Member → Prop := Follows isOpen byte

theorem ofCursor_of_isOpen {isGzip : Bool} {c : Deflate.Cursor} (h : c.mode.isOpen = true) :
    ofCursor isGzip c = body isGzip c := by
  unfold ofCursor
  split
  · next hm => rw [hm] at h; cases h
  · next hm => rw [hm] at h; cases h
  · rfl

theorem takes_ofCursor (isGzip : Bool) {c c' : Deflate.Cursor} {bs : Bytes} (h : c.Takes bs c') :
    (ofCursor isGzip c).Takes bs (ofCursor isGzip c') := by
  induction bs generalizing c with
  | nil => rw [show c = c' from h]; rfl
  | cons b bs ih =>
    rw [ofCursor_of_isOpen h.1]
    exact ⟨rfl, ih h.2⟩

theorem takes_trailer (payload seen bs : Bytes) (h : seen.length + bs.length < 8) :
    (trailer payload seen).Takes bs (trailer payload (seen ++ bs)) := by
  induction bs generalizing seen with
  | nil => rw [List.append_nil]; rfl
  | cons b bs ih =>
    rw [List.length_cons] at h
    have hb : (trailer payload seen).byte b = trailer payload (seen ++ [b]) := if_pos (by omega)
    refine ⟨rfl, ?_⟩
    rw [hb, List.append_cons seen b bs]
    exact ih (seen ++ [b]) (by rw [List.length_append, List.length_singleton]; omega)

theorem takes_ofTrailer (payload seen bs : Bytes) (hs : seen.length < 8)
    (h : seen.length + bs.length = 8) :
    (trailer payload seen).Takes bs (ofTrailer payload (seen ++ bs)) := by
  obtain rfl | ⟨init, b, rfl⟩ := List.eq_nil_or_concat bs
  · simp at h; omega
  · rw [List.concat_eq_append, List.length_append, List.length_singleton] at h
    have hb : (trailer payload (seen ++ init)).byte b = ofTrailer payload (seen ++ init ++ [b]) :=
      if_neg (by rw [List.length_append]; omega)
    rw [List.concat_eq_append]
    refine (takes_trailer payload seen init (by omega)).append ⟨rfl, ?_⟩
    rw [hb, List.append_assoc]
    rfl

@[simp] theorem payload_ofCursor (isGzip : Bool) (c : Deflate.Cursor) :
    (ofCursor isGzip c).payload = c.history.toList := by
  unfold ofCursor
  repeat' split
  all_goals rfl

@[simp] theorem payload_headerByte (p : HeaderParser) (b : UInt8) : (headerByte p b).payload = [] := by
  unfold headerByte
  repeat' split
  all_goals rfl

@[simp] theorem payload_trailerByte (payload seen : Bytes) (b : UInt8) :
    (trailerByte payload seen b).payload = payload := by
  unfold trailerByte ofTrailer
  repeat' split
  all_goals rfl

/-- The cursor of a body is modest. -/
def Modest : Member → Prop
  | body _ c => c.Modest
  | _ => True

theorem modest_start (f : Framing) : (start f).Modest := by
  cases f with
  | zlib => exact Deflate.Cursor.modest_start true
  | raw => exact Deflate.Cursor.modest_start false
  | _ => trivial

theorem modest_ofCursor (isGzip : Bool) {c : Deflate.Cursor} (h : c.Modest) :
    (ofCursor isGzip c).Modest := by
  unfold ofCursor
  repeat' split
  all_goals first | exact h | trivial

theorem modest_headerByte (p : HeaderParser) (b : UInt8) : (headerByte p b).Modest := by
  unfold headerByte
  repeat' split
  all_goals first | exact Deflate.Cursor.modest_start false | trivial

theorem Modest.byte {m : Member} (hm : m.Modest) (b : UInt8) :
    (m.byte b).Modest ∧
      (m.byte b).payload.length ≤ m.payload.length + Deflate.Cursor.mostPerByte := by
  -- a body grows as its cursor does, everything else not at all
  have hcursor (isGzip : Bool) {c : Deflate.Cursor} (hc : c.Modest) :
      (ofCursor isGzip (c.byte b)).Modest ∧ (ofCursor isGzip (c.byte b)).payload.length ≤
        c.history.toList.length + Deflate.Cursor.mostPerByte := by
    obtain ⟨h1, h2⟩ := hc.byte b
    refine ⟨modest_ofCursor isGzip h1, ?_⟩
    rw [payload_ofCursor]
    exact h2
  cases m with
  | detect =>
    simp only [Member.byte]
    split
    · exact ⟨modest_headerByte _ b, by rw [payload_headerByte]; exact Nat.zero_le _⟩
    · exact hcursor false (Deflate.Cursor.modest_start true)
  | header p =>
    simp only [Member.byte, payload_headerByte]
    exact ⟨modest_headerByte p b, Nat.zero_le _⟩
  | body isGzip c => exact hcursor isGzip hm
  | trailer payload seen =>
    simp only [Member.byte, payload_trailerByte]
    refine ⟨?_, Nat.le_add_right _ _⟩
    unfold trailerByte ofTrailer
    repeat' split
    all_goals trivial
  | done payload => exact ⟨trivial, Nat.le_add_right _ _⟩
  | failed payload fault => exact ⟨trivial, Nat.le_add_right _ _⟩

/-- A member decodes to no more than its length allows. -/
theorem Takes.modest {m m' : Member} {bs : Bytes} (h : m.Takes bs m') (hm : m.Modest) :
    m'.Modest ∧ m'.payload.length ≤ m.payload.length + bs.length * Deflate.Cursor.mostPerByte := by
  induction bs generalizing m with
  | nil => rw [← show m = m' from h]; exact ⟨hm, Nat.le_add_right _ _⟩
  | cons b bs ih =>
    obtain ⟨h1, h2⟩ := hm.byte b
    obtain ⟨h3, h4⟩ := ih h.2 h1
    refine ⟨h3, Nat.le_trans h4 ?_⟩
    rw [List.length_cons, Nat.succ_mul]
    omega

theorem isOpen_start (f : Framing) : (start f).isOpen = true := by cases f <;> rfl

theorem payload_start (f : Framing) : (start f).payload = [] := by cases f <;> rfl

end Member

namespace HeaderParser

theorem stalled_of_small {p : HeaderParser} (h : p.field.size < 2) : p.stalled? = none := by
  have hm : ¬ maxTextField < p.field.size := by
    have : maxTextField = 65536 := rfl
    omega
  unfold stalled?
  split
  · exact if_neg hm
  · exact if_neg hm
  · exact if_pos h
  · rfl

theorem field_finishFixed (p : HeaderParser) (f : Array UInt8) :
    (p.finishFixed f).1.field = #[] := by
  unfold finishFixed
  simp only
  repeat' split
  all_goals rfl

theorem stalled_of_field_nil {p : HeaderParser} (h : p.field = #[]) : p.stalled? = none :=
  stalled_of_small (by rw [h]; decide)

/-- A byte that is not refused leaves no defect behind. -/
theorem stalled_feed {p p' : HeaderParser} {b : UInt8} (h : p.feed b = (p', none))
    (hd : p.isDone = false) : p'.stalled? = none := by
  have hp : p' = (p.feed b).1 := by rw [h]
  have hn : (p.feed b).2 = none := by rw [h]
  subst hp
  unfold feed at hn ⊢
  cases hs : p.stage with
  | fixed =>
    simp only
    split
    · simp only [stalled?]
    · exact stalled_of_field_nil (field_finishFixed _ _)
  | extraLength =>
    simp only
    split
    · simp only [stalled?]
    · split
      · exact stalled_of_field_nil rfl
      · exact stalled_of_field_nil rfl
  | extra n =>
    simp only
    split
    · simp only [stalled?]
    · exact stalled_of_field_nil rfl
  | filename =>
    simp only [hs] at hn ⊢
    split
    · exact stalled_of_field_nil rfl
    · next hb =>
      rw [if_neg hb] at hn
      simpa only [stalled?, hs] using hn
  | comment =>
    simp only [hs] at hn ⊢
    split
    · exact stalled_of_field_nil rfl
    · next hb =>
      rw [if_neg hb] at hn
      simpa only [stalled?, hs] using hn
  | checksum =>
    simp only [hs] at hn ⊢
    split
    · next hlt => exact stalled_of_small hlt
    · next hge =>
      split
      · exact stalled_of_field_nil rfl
      · next hne =>
        rw [if_neg hge, if_neg hne] at hn
        cases hn
  | done => rw [isDone, hs] at hd; cases hd

/-- A parser in the middle of a header, without defect. -/
structure Running (p : HeaderParser) : Prop where
  not_stalled : p.stalled? = none
  not_done : p.isDone = false

theorem running_start : Running {} := ⟨rfl, rfl⟩

/-- What reading `input` behind `before` bytes comes to, by its answer. -/
def Reaches (p : HeaderParser) (before : Nat) (input : Bytes) (p' : HeaderParser) :
    Except HeaderDefect Nat → Prop
  | .ok n => ∃ used rest, input = used ++ rest ∧ n = before + used.length ∧
    (p'.isDone = true ∧ (Member.header p).Takes used (.body true (.start false)) ∨
      rest = [] ∧ p'.Running ∧ (Member.header p).Takes used (.header p'))
  | .error d => ∃ used, used <+: input ∧ (Member.header p).Takes used (.failed [] (.header d))

theorem feedAll_of_isDone {p : HeaderParser} (h : p.isDone = true) (n : Nat) (input : Bytes) :
    p.feedAll n input = (p, .ok n) := by
  cases input with
  | nil => rfl
  | cons b rest => exact if_pos h

/-- A byte in front of what was read. -/
theorem Reaches.cons {p q p' : HeaderParser} {b : UInt8} {n : Nat} {rest : Bytes}
    {r : Except HeaderDefect Nat} (hb : Member.headerByte p b = .header q)
    (h : q.Reaches (n + 1) rest p' r) : p.Reaches n (b :: rest) p' r := by
  have step {used : Bytes} {m : Member} (ht : (Member.header q).Takes used m) :
      (Member.header p).Takes (b :: used) m := ⟨rfl, by rw [Member.byte, hb]; exact ht⟩
  cases r with
  | ok k =>
    obtain ⟨used, left, rfl, hk, hr⟩ := h
    refine ⟨b :: used, left, rfl, by rw [hk, List.length_cons]; omega, ?_⟩
    obtain ⟨hd, ht⟩ | ⟨hl, hp, ht⟩ := hr
    · exact .inl ⟨hd, step ht⟩
    · exact .inr ⟨hl, hp, step ht⟩
  | error d =>
    obtain ⟨used, hu, ht⟩ := h
    exact ⟨b :: used, List.prefix_cons_inj b |>.mpr hu, step ht⟩

theorem feedAll_spec {p : HeaderParser} (hp : p.Running) (n : Nat) (input : Bytes) :
    p.Reaches n input (p.feedAll n input).1 (p.feedAll n input).2 := by
  induction input generalizing p n with
  | nil => exact ⟨[], [], rfl, rfl, .inr ⟨rfl, hp, rfl⟩⟩
  | cons b rest ih =>
    rw [feedAll, if_neg (by rw [hp.not_done]; exact Bool.false_ne_true)]
    rcases hf : p.feed b with ⟨q, answer⟩
    cases answer with
    | some d =>
      refine ⟨[b], ⟨rest, rfl⟩, rfl, ?_⟩
      simp only [Member.byte, Member.headerByte, hf]
      rfl
    | none =>
      simp only
      cases hq : q.isDone with
      | true =>
        rw [feedAll_of_isDone hq]
        refine ⟨[b], rest, rfl, rfl, .inl ⟨hq, rfl, ?_⟩⟩
        simp only [Member.byte, Member.headerByte, hf, hq, if_true]
        rfl
      | false =>
        have hb : Member.headerByte p b = .header q := by
          simp only [Member.headerByte, hf, hq]
          rfl
        exact .cons hb (ih ⟨stalled_feed hf hp.not_done, hq⟩ (n + 1))

/-- A parser takes header bytes one by one, whatever is behind them. -/
theorem Running.parse_spec {p : HeaderParser} (hp : p.Running) (input : Bytes) :
    p.Reaches 0 input (p.parse input).1 (p.parse input).2 := by
  unfold parse
  rw [hp.not_stalled]
  exact feedAll_spec hp 0 input

end HeaderParser

end GzipStream
