import GzipStream.Proofs.Deflate.Cursor

/-!
# Dealing out input and room

`Decoder.cursor` is what a decoder comes to once all bits it holds are worked off. `Settled.run_spec` says
that a decoder with any amount of room takes only bytes that its cursor asks for, moves its cursor
by exactly those bytes and lags behind in output alone. How input and room are dealt out therefore
changes neither what a stream decodes to nor where it ends. `Settled.lag_le` bounds the lag.
-/

namespace GzipStream.Deflate

namespace Mode

/-- Working off bits one by one while no room is needed leads to the same cursor. -/
theorem cursor_absorb (c : Context) (m : Mode) (h : Array UInt8) (bs : List Bool) :
    ((⟨(absorb c m bs).1, (absorb c m bs).2.1, h⟩ : Cursor).emit).bits (absorb c m bs).2.2 =
      ((⟨c, m, h⟩ : Cursor).emit).bits bs := by
  induction bs generalizing c m with
  | nil => rfl
  | cons b bs ih =>
    unfold absorb
    split
    · next hw =>
      have he : (⟨c, m, h⟩ : Cursor).emit = ⟨c, m, h⟩ :=
        Cursor.emit_eq_self (not_emits_of_isOpen (isOpen_of_wantsBit hw))
      rw [he, Cursor.bits_cons]
      exact ih _ _
    · next hw =>
      split
      · rfl
      · rfl
      · next hl hc =>
        have he : m.emits = false := by
          cases m <;> first | rfl | exact absurd rfl (hl _ _) | exact absurd rfl (hc _ _ _)
        have hb : (⟨c, m, h⟩ : Cursor).emit = ⟨c, m, h⟩ := Cursor.emit_eq_self he
        rw [hb]
        exact (Cursor.bits_eq_self (Bool.eq_false_iff.mpr hw) he _).symm

theorem absorb_bits_nil (c : Context) (m : Mode) (bs : List Bool)
    (he : (absorb c m bs).2.1.emits = false) : (absorb c m bs).2.2 = [] := by
  induction bs generalizing c m with
  | nil => rfl
  | cons b bs ih =>
    unfold absorb at he ⊢
    split
    · next hw =>
      rw [if_pos hw] at he
      exact ih _ _ he
    · next hw =>
      rw [if_neg hw] at he
      split
      · cases he
      · cases he
      · rfl

theorem owes_absorb {m : Mode} (hm : m.owes ≤ maxCopy) (c : Context) (bs : List Bool) :
    (absorb c m bs).2.1.owes ≤ maxCopy := by
  induction bs generalizing c m with
  | nil => exact hm
  | cons b bs ih =>
    unfold absorb
    split
    · exact ih (owes_onBit hm c b) _
    · split <;> exact hm

theorem length_absorb_le (c : Context) (m : Mode) (bs : List Bool) :
    (absorb c m bs).2.2.length ≤ bs.length := by
  induction bs generalizing c m with
  | nil => exact Nat.le_refl _
  | cons b bs ih =>
    unfold absorb
    split
    · exact Nat.le_succ_of_le (ih _ _)
    · split <;> simp

theorem length_absorb_lt {m : Mode} (hw : m.wantsBit = true) (c : Context) (b : Bool)
    (bs : List Bool) : (absorb c m (b :: bs)).2.2.length < (b :: bs).length := by
  unfold absorb
  rw [if_pos hw]
  exact Nat.lt_succ_of_le (length_absorb_le _ _ _)

end Mode

namespace Decoder

/-- Bits are left over only in front of output, and never a whole byte of them. -/
structure Settled (d : Decoder) : Prop where
  bits_lt : d.bits.length < 8
  bits_nil : d.mode.emits = false → d.bits = []
  owes_le : d.mode.owes ≤ maxCopy

/-- The decoder as it stands. -/
def position (d : Decoder) : Cursor := ⟨d.context, d.mode, d.history⟩

/-- The decoder with all its bits worked off. -/
def cursor (d : Decoder) : Cursor := d.position.emit.bits d.bits

theorem settled_start (zlib : Bool) : (start zlib).Settled :=
  ⟨by simp [start], fun _ => rfl, Cursor.modest_start zlib⟩

theorem cursor_start (zlib : Bool) : (start zlib).cursor = Cursor.start zlib := by
  cases zlib <;> rfl

@[simp] theorem cursor_settle (d : Decoder) : d.settle.cursor = d.cursor :=
  Mode.cursor_absorb d.context d.mode d.history d.bits

theorem settled_settle {d : Decoder} (ho : d.mode.owes ≤ maxCopy) (h : d.settle.bits.length < 8) :
    d.settle.Settled :=
  ⟨h, Mode.absorb_bits_nil d.context d.mode d.bits, Mode.owes_absorb ho d.context d.bits⟩

@[simp] theorem history_settle (d : Decoder) : d.settle.history = d.history := rfl

@[simp] theorem totalIn_settle (d : Decoder) : d.settle.totalIn = d.totalIn := rfl

/-- A settled decoder that has nothing to write is its own cursor. -/
theorem Settled.cursor_eq {d : Decoder} (hd : d.Settled) (he : d.mode.emits = false) :
    d.cursor = d.position := by
  unfold cursor
  rw [hd.bits_nil he, Cursor.emit_eq_self (show d.position.mode.emits = false from he)]
  rfl

/-- Output lags behind the cursor by less than what a byte and a field can stand for. -/
theorem Settled.lag_le {d : Decoder} (hd : d.Settled) :
    d.cursor.history.size ≤ d.history.size + Cursor.mostPerByte := by
  obtain ⟨h1, h2⟩ := Cursor.Modest.emit (c := d.position) hd.owes_le
  have h3 := (h1.bits d.bits).2
  have h4 : d.bits.length * maxCopy ≤ 7 * maxCopy :=
    Nat.mul_le_mul_right _ (Nat.le_of_lt_succ hd.bits_lt)
  have h5 : Cursor.mostPerByte = maxCopy + 7 * maxCopy := rfl
  have h6 : d.position.history = d.history := rfl
  rw [h6] at h2
  show (d.position.emit.bits d.bits).history.size ≤ _
  omega

theorem history_prefix (d : Decoder) : d.history.toList <+: d.cursor.history.toList :=
  (Cursor.prefix_emit d.position).trans (Cursor.prefix_bits _ _)

theorem write_eq (d : Decoder) (b : UInt8) (m : Mode) :
    d.write b m = settle ⟨d.context, m, d.bits, d.history.push b, d.totalIn⟩ := rfl

theorem settled_write {d : Decoder} (hd : d.Settled) (b : UInt8) {m : Mode}
    (hm : m.owes ≤ maxCopy) : (d.write b m).Settled := by
  rw [write_eq]
  apply settled_settle hm
  exact Nat.lt_of_le_of_lt (Mode.length_absorb_le _ _ _) hd.bits_lt

theorem cursor_write_literal {d : Decoder} {codes : Codes} {b : UInt8}
    (hm : d.mode = .literal codes b) : (d.write b (.beginSymbols codes)).cursor = d.cursor := by
  rw [write_eq, cursor_settle]
  unfold cursor position Cursor.emit
  rw [hm]
  rfl

theorem cursor_write_copy {d : Decoder} {codes : Codes} {left distance : Nat}
    (hm : d.mode = .copy codes left distance) (hd : distance ≤ d.history.size) :
    (d.write (d.history.getD (d.history.size - distance) 0) (afterCopy codes distance left)).cursor
      = d.cursor := by
  rw [write_eq, cursor_settle]
  unfold cursor position Cursor.emit
  rw [hm]
  simp only [if_pos hd]
  cases left with
  | zero => rfl
  | succ left =>
    have hs : distance ≤ (d.history.push (d.history.getD (d.history.size - distance) 0)).size := by
      rw [Array.size_push]; omega
    simp only [afterCopy, if_pos hs]
    rfl

theorem afterStored_owes (c : Context) (left : Nat) : (afterStored c left).owes ≤ maxCopy := by
  unfold afterStored Mode.afterBlock
  repeat' split
  all_goals exact Nat.zero_le _

theorem afterCopy_owes {codes : Codes} {left distance : Nat}
    (h : (Mode.copy codes left distance).owes ≤ maxCopy) :
    (afterCopy codes distance left).owes ≤ maxCopy := by
  cases left with
  | zero => exact Nat.zero_le _
  | succ left => exact Nat.le_of_succ_le h

theorem copyStored_eq (d : Decoder) (b : UInt8) (left : Nat) :
    d.copyStored b left =
      settle ⟨d.context, afterStored d.context left, d.bits, d.history.push b, d.totalIn + 1⟩ := rfl

theorem settled_copyStored {d : Decoder} (hd : d.Settled) (b : UInt8) (left : Nat) :
    (d.copyStored b left).Settled := by
  rw [copyStored_eq]
  apply settled_settle (afterStored_owes _ _)
  exact Nat.lt_of_le_of_lt (Mode.length_absorb_le _ _ _) hd.bits_lt

theorem cursor_copyStored {d : Decoder} (hd : d.Settled) {left : Nat} (hm : d.mode = .stored left)
    (b : UInt8) : (d.copyStored b left).cursor = d.cursor.byte b := by
  have he : d.mode.emits = false := by rw [hm]; rfl
  rw [hd.cursor_eq he, copyStored_eq, cursor_settle]
  unfold cursor position Cursor.byte
  simp only [hd.bits_nil he, hm]
  exact Cursor.emit_eq_self (Mode.afterStored_not_emits d.context left)

theorem take_of_wantsByte {d : Decoder} (hw : d.mode.wantsByte = true) (b : UInt8) :
    d.take b = ⟨d.context, d.mode.onByte d.context d.history b, [], d.history, d.totalIn + 1⟩ :=
  if_pos hw

theorem take_of_not_wantsByte {d : Decoder} (hw : d.mode.wantsByte = false) (b : UInt8) :
    d.take b = settle ⟨d.context, d.mode, d.bits ++ bitsOfByte b, d.history, d.totalIn + 1⟩ :=
  if_neg (by rw [hw]; exact Bool.false_ne_true)

@[simp] theorem history_take (d : Decoder) (b : UInt8) : (d.take b).history = d.history := by
  cases hw : d.mode.wantsByte
  · rw [take_of_not_wantsByte hw]; rfl
  · rw [take_of_wantsByte hw]

@[simp] theorem totalIn_take (d : Decoder) (b : UInt8) : (d.take b).totalIn = d.totalIn + 1 := by
  cases hw : d.mode.wantsByte
  · rw [take_of_not_wantsByte hw]; rfl
  · rw [take_of_wantsByte hw]

theorem settled_take {d : Decoder} (hd : d.Settled) (ho : d.mode.isOpen = true)
    (hs : ∀ left, d.mode ≠ .stored left) (b : UInt8) : (d.take b).Settled := by
  obtain ⟨hw, -⟩ | ⟨hw, hb⟩ := Mode.wantsBit_or_wantsByte ho hs
  · rw [take_of_wantsByte hw]
    exact ⟨by simp, fun _ => rfl, Mode.owes_onByte hd.owes_le _ _ _⟩
  · rw [take_of_not_wantsByte hw]
    refine settled_settle (show d.mode.owes ≤ maxCopy from hd.owes_le) ?_
    rw [hd.bits_nil (Mode.not_emits_of_isOpen ho)]
    exact Mode.length_absorb_lt hb _ _ _

theorem cursor_take {d : Decoder} (hd : d.Settled) (ho : d.mode.isOpen = true)
    (hs : ∀ left, d.mode ≠ .stored left) (b : UInt8) : (d.take b).cursor = d.cursor.byte b := by
  have he := Mode.not_emits_of_isOpen ho
  rw [hd.cursor_eq he]
  obtain ⟨hw, hb⟩ | ⟨hw, hb⟩ := Mode.wantsBit_or_wantsByte ho hs
  · rw [take_of_wantsByte hw]
    have hc : d.position.byte b =
        ⟨d.context, d.mode.onByte d.context d.history b, d.history⟩ := by
      unfold Cursor.byte position
      rw [if_neg (by rw [hb]; exact Bool.false_ne_true)]
      split
      · next left hm => exact absurd hm (hs left)
      · rfl
    rw [hc]
    exact Cursor.emit_eq_self (Mode.onByte_not_emits _ _ hw b)
  · rw [take_of_not_wantsByte hw, cursor_settle, hd.bits_nil he, Cursor.byte_of_wantsBit hb]
    unfold cursor
    rw [Cursor.emit_eq_self he]
    rfl

/-- Where a run that took `used` out of `used ++ rest` leaves the decoder, by its verdict. -/
def Reaches (d : Decoder) (used rest : Bytes) (d' : Decoder) (left : Nat) : Verdict → Prop
  | .waiting =>
    d'.Settled ∧ d.cursor.Takes used d'.cursor ∧ (left = 0 ∨ rest = [] ∧ d'.mode.isOpen = true)
  | .ended => d'.mode = .done ∧ d.cursor.Takes used ⟨d'.context, .done, d'.history⟩
  | .refused f => d.cursor.Takes used ⟨d'.context, .failed f, d'.history⟩

/-- What a run did: the bytes it took, those it left, and those it wrote. -/
structure Ran (d : Decoder) (input : Bytes) (room : Nat) (d' : Decoder) (left : Nat) (v : Verdict)
    (used rest out : Bytes) : Prop where
  input_eq : input = used ++ rest
  totalIn_eq : d'.totalIn = d.totalIn + used.length
  history_eq : d'.history.toList = d.history.toList ++ out
  room_eq : out.length + left = room
  reaches : d.Reaches used rest d' left v

section
variable {d e d' : Decoder} {input : Bytes} {room left : Nat} {v : Verdict}
  {used rest out : Bytes} {b : UInt8}

/-- A written byte in front of a run. -/
theorem Ran.write (h : e.Ran input room d' left v used rest out) (hc : e.cursor = d.cursor)
    (hi : e.totalIn = d.totalIn) (hh : e.history = d.history.push b) :
    d.Ran input (room + 1) d' left v used rest (b :: out) where
  input_eq := h.input_eq
  totalIn_eq := by rw [h.totalIn_eq, hi]
  history_eq := by rw [h.history_eq, hh, Array.toList_push, List.append_assoc]; rfl
  room_eq := by rw [List.length_cons, ← h.room_eq]; omega
  reaches := by
    have hr := h.reaches
    cases v with
    | waiting => exact ⟨hr.1, by rw [← hc]; exact hr.2.1, hr.2.2⟩
    | ended => exact ⟨hr.1, by rw [← hc]; exact hr.2⟩
    | refused f => rw [Reaches, ← hc]; exact hr

/-- A byte taken in front of a run, which may have been written as well. -/
theorem Ran.take (copied : Bytes) (h : e.Ran input room d' left v used rest out)
    (ho : d.cursor.mode.isOpen = true) (hc : e.cursor = d.cursor.byte b)
    (hi : e.totalIn = d.totalIn + 1) (hh : e.history.toList = d.history.toList ++ copied) :
    d.Ran (b :: input) (room + copied.length) d' left v (b :: used) rest (copied ++ out) where
  input_eq := by rw [h.input_eq]; rfl
  totalIn_eq := by rw [h.totalIn_eq, hi, List.length_cons]; omega
  history_eq := by rw [h.history_eq, hh, List.append_assoc]
  room_eq := by rw [List.length_append, ← h.room_eq]; omega
  reaches := by
    have hr := h.reaches
    cases v with
    | waiting => exact ⟨hr.1, ⟨ho, hc ▸ hr.2.1⟩, hr.2.2⟩
    | ended => exact ⟨hr.1, ho, hc ▸ hr.2⟩
    | refused f => exact ⟨ho, hc ▸ hr⟩

/-- A run that takes and writes nothing. -/
theorem Ran.still (hi : d'.totalIn = d.totalIn) (hh : d'.history = d.history)
    (hr : d.Reaches [] input d' room v) : d.Ran input room d' room v [] input [] where
  input_eq := rfl
  totalIn_eq := hi
  history_eq := by rw [hh, List.append_nil]
  room_eq := by simp
  reaches := hr

end

theorem isOpen_of_ne {m : Mode} (h1 : m ≠ .done) (h2 : ∀ f, m ≠ .failed f)
    (h3 : ∀ codes b, m ≠ .literal codes b) (h4 : ∀ codes left distance, m ≠ .copy codes left distance) :
    m.isOpen = true := by
  cases m with
  | done => exact absurd rfl h1
  | failed f => exact absurd rfl (h2 f)
  | literal codes b => exact absurd rfl (h3 codes b)
  | copy codes left distance => exact absurd rfl (h4 codes left distance)
  | _ => rfl

/-- A run takes what its cursor asks for and nothing else. -/
theorem Settled.run_spec {d : Decoder} (hd : d.Settled) (input : Bytes) (room : Nat) :
    ∃ used rest out, d.Ran input room (d.run input room).1 (d.run input room).2.1
      (d.run input room).2.2 used rest out := by
  fun_induction d.run input room with
  | case1 d input room hm =>
    have hc := hd.cursor_eq (by rw [hm]; rfl)
    exact ⟨[], input, [], .still rfl rfl ⟨hm, by rw [hc, ← hm]; rfl⟩⟩
  | case2 d input room f hm =>
    have hc := hd.cursor_eq (by rw [hm]; rfl)
    exact ⟨[], input, [], .still rfl rfl (by simp only [Reaches, hc, ← hm]; rfl)⟩
  | case3 d input codes b hm => exact ⟨[], input, [], .still rfl rfl ⟨hd, rfl, .inl rfl⟩⟩
  | case4 d input codes b hm room ih =>
    obtain ⟨used, rest, out, h⟩ := ih (settled_write hd _ (Nat.zero_le _))
    exact ⟨used, rest, b :: out, h.write (cursor_write_literal hm) rfl rfl⟩
  | case5 d input codes left distance hm =>
    exact ⟨[], input, [], .still rfl rfl ⟨hd, rfl, .inl rfl⟩⟩
  | case6 d input codes left distance hm room hs b ih =>
    obtain ⟨used, rest, out, h⟩ := ih (settled_write hd _ (afterCopy_owes (hm ▸ hd.owes_le)))
    exact ⟨used, rest, b :: out, h.write (cursor_write_copy hm hs) rfl rfl⟩
  | case7 d input codes left distance hm room hs =>
    refine ⟨[], input, [], .still rfl rfl ?_⟩
    -- the bits left over are dropped, for a failed stream takes none
    have he : d.position.emit = ⟨d.context, .failed .distanceTooFar, d.history⟩ := by
      unfold position Cursor.emit
      rw [hm]
      exact if_neg hs
    show d.cursor = _
    unfold cursor
    rw [he, Cursor.bits_eq_self rfl rfl]
  | case8 d left hm room b rest ih =>
    obtain ⟨used, rest', out, h⟩ := ih (settled_copyStored hd _ _)
    have hc := hd.cursor_eq (by rw [hm]; rfl)
    exact ⟨b :: used, rest', [b] ++ out, h.take [b] (by rw [hc]; simp [position, hm]; rfl)
      (cursor_copyStored hd hm b) rfl (by simp [copyStored_eq])⟩
  | case9 d input left hm room hn =>
    refine ⟨[], input, [], .still rfl rfl ⟨hd, rfl, ?_⟩⟩
    cases room with
    | zero => exact .inl rfl
    | succ room =>
      cases input with
      | nil => exact .inr ⟨rfl, by rw [hm]; rfl⟩
      | cons b rest => exact absurd rfl fun h => hn _ _ _ rfl h
  | case10 d room h1 h2 h3 h4 h5 =>
    refine ⟨[], [], [], .still rfl rfl ⟨hd, rfl, .inr ⟨rfl, ?_⟩⟩⟩
    exact isOpen_of_ne h1 h2 h3 h4
  | case11 d room b rest h1 h2 h3 h4 h5 ih =>
    have ho := isOpen_of_ne h1 h2 h3 h4
    obtain ⟨used, rest', out, h⟩ := ih (settled_take hd ho h5 b)
    have hc := hd.cursor_eq (Mode.not_emits_of_isOpen ho)
    exact ⟨b :: used, rest', out, h.take [] (by rw [hc]; exact ho) (cursor_take hd ho h5 b)
      (totalIn_take d b) (by simp)⟩

theorem toList_extract_end {xs : Array UInt8} {a out : Bytes} (h : xs.toList = a ++ out) :
    (xs.extract (xs.size - out.length) xs.size).toList = out := by
  have hs : xs.size = a.length + out.length := by
    rw [← Array.length_toList, h, List.length_append]
  rw [Array.toList_extract, h, hs, List.extract_eq_take_drop, Nat.add_sub_cancel, List.drop_left,
    Nat.add_sub_cancel_left, List.take_length]

/-- As `Settled.run_spec`, for the bytes that a caller sees. -/
theorem Settled.decode_spec {d d' : Decoder} (hd : d.Settled) {input out : Bytes} {room : Nat}
    {v : Verdict} (hdec : d.decode input room = (d', out, v)) :
    ∃ used rest, d.Ran input room d' (room - out.length) v used rest out := by
  obtain ⟨used, rest, out', h⟩ := hd.run_spec input room
  have hroom := h.room_eq
  have hout : (d.decode input room).2.1 = out' := by
    show ((d.run input room).1.history.extract
      ((d.run input room).1.history.size - (room - (d.run input room).2.1)) _).toList = out'
    rw [show room - (d.run input room).2.1 = out'.length by omega]
    exact toList_extract_end h.history_eq
  have hd' : (d.run input room).1 = d' := congrArg Prod.fst hdec
  have hv : (d.run input room).2.2 = v := congrArg (fun r => r.2.2) hdec
  rw [hdec] at hout
  rw [hd', hv, show (d.run input room).2.1 = room - out'.length by omega] at h
  rw [show out = out' from hout]
  exact ⟨used, rest, h⟩

end Decoder

/-! ## Complete streams -/

/-- `bs` is one complete stream, up to its last byte, that decodes to `out`. -/
def Decodes (zlib : Bool) (bs out : Bytes) : Prop :=
  ∃ room d, (Decoder.start zlib).decode bs room = (d, out, .ended) ∧ d.totalIn = bs.length

theorem Cursor.Takes.prefix_history {c c' : Cursor} {bs : Bytes} (h : c.Takes bs c') :
    c.history.toList <+: c'.history.toList := by
  induction bs generalizing c with
  | nil =>
    obtain rfl : c = c' := h
    exact List.prefix_rfl
  | cons b bs ih => exact (c.prefix_byte b).trans (ih h.2)

theorem takes_of_decodes {zlib : Bool} {bs out : Bytes} (h : Decodes zlib bs out) :
    ∃ c : Cursor, (Cursor.start zlib).Takes bs c ∧ c.mode = .done ∧ c.history.toList = out := by
  obtain ⟨room, d, hdec, hin⟩ := h
  obtain ⟨used, rest, hr⟩ := (Decoder.settled_start zlib).decode_spec hdec
  have hused : used.length = bs.length := by
    rw [← hin, hr.totalIn_eq]
    exact (Nat.zero_add _).symm
  have hbs : used = bs := by
    rw [hr.input_eq, List.length_append] at hused
    rw [hr.input_eq, List.length_eq_zero_iff.mp (show rest.length = 0 by omega), List.append_nil]
  have hreach := hr.reaches.2
  rw [hbs, Decoder.cursor_start] at hreach
  exact ⟨_, hreach, rfl, hr.history_eq⟩

theorem decodes_of_takes {zlib : Bool} {bs : Bytes} {c : Cursor}
    (h : (Cursor.start zlib).Takes bs c) (hm : c.mode = .done) :
    Decodes zlib bs c.history.toList := by
  have hd := Decoder.settled_start zlib
  rcases hdec : (Decoder.start zlib).decode bs (c.history.toList.length + 1) with ⟨d, out, v⟩
  obtain ⟨used, rest, hr⟩ := hd.decode_spec hdec
  have hu : used <+: bs := ⟨rest, hr.input_eq.symm⟩
  have hc : c.mode.isOpen = false := by rw [hm]; rfl
  have hreach := hr.reaches
  have hhist : d.history.toList = out := hr.history_eq
  cases v with
  | waiting =>
    obtain ⟨hset, ht, hfull⟩ := hreach
    rw [Decoder.cursor_start] at ht
    obtain ⟨zs, hbs, hz⟩ := h.split ht List.prefix_rfl hu hc
    obtain hfull | ⟨hrest, ho⟩ := hfull
    · -- more would have been written than the stream stands for
      have h1 := (d.history_prefix.trans (Cursor.Takes.prefix_history hz)).length_le
      have h2 := hr.room_eq
      rw [hhist] at h1
      omega
    · have hzs : zs = [] := by
        rw [hr.input_eq, hrest, List.append_nil] at hbs
        exact List.self_eq_append_right.mp hbs
      rw [hzs] at hz
      have hopen : d.cursor.mode.isOpen = true := by
        rw [hset.cursor_eq (Mode.not_emits_of_isOpen ho)]
        exact ho
      rw [show d.cursor = c from hz, hc] at hopen
      cases hopen
  | ended =>
    have ht := hreach.2
    rw [Decoder.cursor_start] at ht
    obtain ⟨hbs, hc⟩ := h.unique ht List.prefix_rfl hu hc rfl
    refine ⟨_, d, by rw [hdec, hc, hhist], ?_⟩
    rw [hbs, hr.totalIn_eq]
    exact Nat.zero_add _
  | refused f =>
    rw [Decoder.Reaches, Decoder.cursor_start] at hreach
    obtain ⟨-, hc⟩ := h.unique hreach List.prefix_rfl hu hc rfl
    rw [hc] at hm
    cases hm

end GzipStream.Deflate
