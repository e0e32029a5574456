import GzipStream.Proofs.Deflate.Schedule
import GzipStream.Proofs.Member

/-!
# What a gzip member is made of

A member of gzip framing is taken to its end exactly where it is a header that a fresh parser
accepts, a complete DEFLATE stream and the trailer of what the stream decodes to
(`takes_done_iff`). With another trailer of eight bytes it is taken as far, and refused
(`takes_mismatch`).
-/

namespace GzipStream

namespace Trailer

theorem stored_eq_iff {bs : Bytes} (h : bs.length = 4) (n : UInt32) :
    UInt32.ofNat (ofLittleEndian bs) = n ↔ bs = littleEndian 4 n.toNat := by
  have hlt := ofLittleEndian_lt bs
  rw [h] at hlt
  have hback : (UInt32.ofNat (ofLittleEndian bs)).toNat = ofLittleEndian bs := by
    rw [UInt32.toNat_ofNat']
    exact Nat.mod_eq_of_lt hlt
  constructor
  · rintro rfl
    rw [hback, ← h, littleEndian_ofLittleEndian]
  · rintro rfl
    rw [ofLittleEndian_littleEndian 4 _ n.toNat_lt, UInt32.ofNat_toNat]

theorem verify_eq_ok_iff {bs : Bytes} (h : bs.length = 8) (crc size : UInt32) :
    verify bs crc size = .ok () ↔ bs = encode crc size := by
  have hcrc := stored_eq_iff (show (bs.take 4).length = 4 by rw [List.length_take]; omega) crc
  have hsize := stored_eq_iff (show (bs.drop 4).length = 4 by rw [List.length_drop]; omega) size
  have hcut : bs = encode crc size ↔
      bs.take 4 = littleEndian 4 crc.toNat ∧ bs.drop 4 = littleEndian 4 size.toNat := by
    constructor
    · rintro rfl
      exact ⟨List.take_left' (length_littleEndian _ _), List.drop_left' (length_littleEndian _ _)⟩
    · rintro ⟨h1, h2⟩
      rw [encode, ← h1, ← h2, List.take_append_drop]
  rw [hcut, ← hcrc, ← hsize]
  unfold verify
  simp only [ne_eq, ite_not]
  split
  · next h1 =>
    split
    · next h2 => exact ⟨fun _ => ⟨h1, h2⟩, fun _ => rfl⟩
    · next h2 => exact ⟨nofun, fun h => absurd h.2 h2⟩
  · next h1 => exact ⟨nofun, fun h => absurd h.1 h1⟩

/-- The trailer of a payload. -/
def ofPayload (p : Bytes) : Bytes :=
  littleEndian 4 (Crc32.ofBytes p).toNat ++ littleEndian 4 (p.length % 4294967296)

theorem ofPayload_eq (p : Bytes) :
    ofPayload p = encode (Crc32.ofBytes p) (UInt32.ofNat p.length) := by
  rw [encode, UInt32.toNat_ofNat']
  rfl

theorem length_ofPayload (p : Bytes) : (ofPayload p).length = 8 := by
  rw [ofPayload, List.length_append, length_littleEndian, length_littleEndian]

theorem verify_ofPayload_iff {bs : Bytes} (h : bs.length = 8) (p : Bytes) :
    verify bs (Crc32.ofBytes p) (UInt32.ofNat p.length) = .ok () ↔ bs = ofPayload p := by
  rw [verify_eq_ok_iff h, ofPayload_eq]

end Trailer

namespace HeaderParser

/-- `bs` is a header from its first byte to its last. -/
def Accepts (bs : Bytes) : Prop :=
  ∃ q, ({} : HeaderParser).parse bs = (q, .ok bs.length) ∧ q.isDone = true

theorem le_of_feedAll {p q : HeaderParser} {k n : Nat} {bs : Bytes}
    (h : p.feedAll k bs = (q, .ok n)) : k ≤ n := by
  induction bs generalizing p k with
  | nil => cases h; exact Nat.le_refl _
  | cons b bs ih =>
    unfold feedAll at h
    split at h
    · cases h; exact Nat.le_refl _
    · split at h
      · exact Nat.le_of_succ_le (ih h)
      · cases h

/-- A parser that stopped did not look at what follows. -/
theorem feedAll_of_append {p q : HeaderParser} {k : Nat} {used rest : Bytes}
    (h : p.feedAll k (used ++ rest) = (q, .ok (k + used.length))) :
    p.feedAll k used = (q, .ok (k + used.length)) := by
  induction used generalizing p k with
  | nil =>
    cases rest with
    | nil => exact h
    | cons b rest =>
      unfold feedAll at h ⊢
      simp only [List.nil_append] at h
      split at h
      · exact h
      · split at h
        · exact absurd (le_of_feedAll h) (Nat.not_succ_le_self k)
        · cases h
  | cons b used ih =>
    have hk : k + (b :: used).length = k + 1 + used.length := by rw [List.length_cons]; omega
    rw [hk] at h ⊢
    rw [List.cons_append] at h
    unfold feedAll at h ⊢
    split
    · next hd =>
      rw [if_pos hd] at h
      exact h
    · next hd =>
      rw [if_neg hd] at h
      split at h
      · exact ih h
      · cases h

theorem takes_of_accepts {bs : Bytes} (h : Accepts bs) :
    (Member.header {}).Takes bs (.body true (.start false)) := by
  obtain ⟨q, hq, hd⟩ := h
  have hspec := running_start.parse_spec bs
  rw [hq] at hspec
  obtain ⟨used, rest, hbs, hn, hr⟩ := hspec
  have hrest : rest = [] := by
    rw [hbs, List.length_append] at hn
    exact List.length_eq_zero_iff.mp (by omega)
  rw [hrest, List.append_nil] at hbs
  rw [hbs]
  obtain ⟨-, ht⟩ | ⟨-, hp, -⟩ := hr
  · exact ht
  · rw [hp.not_done] at hd
    cases hd

/-- A member that is taken to its end begins with a header. -/
theorem split_header {bs p : Bytes} (h : (Member.header {}).Takes bs (.done p)) :
    ∃ header rest, bs = header ++ rest ∧ Accepts header ∧
      (Member.body true (.start false)).Takes rest (.done p) := by
  have hspec := running_start.parse_spec bs
  rcases hparse : ({} : HeaderParser).parse bs with ⟨q, answer⟩
  rw [hparse] at hspec
  cases answer with
  | error d =>
    obtain ⟨used, hu, ht⟩ := hspec
    obtain ⟨-, hne⟩ := h.unique ht List.prefix_rfl hu rfl rfl
    cases hne
  | ok n =>
    obtain ⟨used, rest, rfl, hn, ⟨hd, ht⟩ | ⟨rfl, -, ht⟩⟩ := hspec
    · obtain ⟨zs, hzs, hz⟩ := h.split ht List.prefix_rfl (List.prefix_append _ _) rfl
      rw [Nat.zero_add] at hn
      refine ⟨used, zs, hzs, ⟨q, ?_, hd⟩, hz⟩
      have := feedAll_of_append (k := 0) (by rw [Nat.zero_add, ← hn]; exact hparse)
      rwa [Nat.zero_add] at this
    · rw [List.append_nil] at h
      have hne := ht.foldl_eq.symm.trans h.foldl_eq
      cases hne

end HeaderParser

namespace Member

theorem takes_of_decodes {body p : Bytes} (h : Deflate.Decodes false body p) :
    (Member.body true (.start false)).Takes body (.trailer p []) := by
  obtain ⟨c, ht, hm, hp⟩ := Deflate.takes_of_decodes h
  have := takes_ofCursor true ht
  rw [ofCursor_of_isOpen rfl] at this
  simpa only [ofCursor, hm, hp, if_true] using this

/-- What is behind the header and taken to its end begins with a complete stream. -/
theorem split_body {bs p : Bytes} (h : (Member.body true (.start false)).Takes bs (.done p)) :
    ∃ body rest out, bs = body ++ rest ∧ Deflate.Decodes false body out ∧
      (Member.trailer out []).Takes rest (.done p) := by
  -- enough room for whatever the bytes stand for, so that the decoder cannot run out of it
  rcases hdec : (Deflate.Decoder.start false).decode bs
    (bs.length * Deflate.Cursor.mostPerByte + 1) with ⟨d, out, v⟩
  obtain ⟨used, rest, hr⟩ := (Deflate.Decoder.settled_start false).decode_spec hdec
  have hu : used <+: bs := ⟨rest, hr.input_eq.symm⟩
  have hreach := hr.reaches
  have hcursor := Deflate.Decoder.cursor_start false
  cases v with
  | waiting =>
    obtain ⟨hset, ht, hfull⟩ := hreach
    rw [hcursor] at ht
    obtain hleft | ⟨hrest, ho⟩ := hfull
    · have h1 : d.history.toList.length ≤ d.cursor.history.size := d.history_prefix.length_le
      have h2 : d.cursor.history.size ≤ 0 + used.length * Deflate.Cursor.mostPerByte :=
        (ht.modest (Deflate.Cursor.modest_start false)).2
      have h3 := Nat.mul_le_mul_right Deflate.Cursor.mostPerByte hu.length_le
      have h4 := hr.room_eq
      rw [hr.history_eq, List.length_append] at h1
      omega
    · have hopen : d.cursor.mode.isOpen = true := by
        rw [hset.cursor_eq (Deflate.Mode.not_emits_of_isOpen ho)]
        exact ho
      have hm := takes_ofCursor true ht
      rw [ofCursor_of_isOpen rfl, ofCursor_of_isOpen hopen] at hm
      have hbs := hr.input_eq
      rw [hrest, List.append_nil] at hbs
      rw [hbs] at h
      have hne := hm.foldl_eq.symm.trans h.foldl_eq
      cases hne
  | refused f =>
    rw [Deflate.Decoder.Reaches, hcursor] at hreach
    have hm := takes_ofCursor true hreach
    rw [ofCursor_of_isOpen rfl] at hm
    obtain ⟨-, hne⟩ := h.unique hm List.prefix_rfl hu rfl rfl
    cases hne
  | ended =>
    have ht := hreach.2
    rw [hcursor] at ht
    have hdone := Deflate.decodes_of_takes ht rfl
    obtain ⟨zs, hzs, hz⟩ := h.split (takes_of_decodes hdone) List.prefix_rfl hu rfl
    exact ⟨used, zs, _, hzs, hdone, hz⟩

theorem ofTrailer_eq_done {p : Bytes} : ofTrailer p (Trailer.ofPayload p) = .done p := by
  unfold ofTrailer
  rw [(Trailer.verify_ofPayload_iff (Trailer.length_ofPayload p) p).mpr rfl]

theorem ofTrailer_eq_failed {p t : Bytes} (hlen : t.length = 8) (ht : t ≠ Trailer.ofPayload p) :
    ∃ m, ofTrailer p t = .failed p (.trailer m) := by
  unfold ofTrailer
  split
  · next hok => exact absurd ((Trailer.verify_ofPayload_iff hlen p).mp hok) ht
  · next m _ => exact ⟨m, rfl⟩

/-- Behind the stream stands its trailer and nothing else. -/
theorem eq_of_trailer_takes {out rest p : Bytes} (h : (trailer out []).Takes rest (.done p)) :
    rest = Trailer.ofPayload out ∧ out = p := by
  by_cases hlen : rest.length < 8
  · have ht := takes_trailer out [] rest (by simpa using hlen)
    have hne := ht.foldl_eq.symm.trans h.foldl_eq
    cases hne
  · have hlen8 : (rest.take 8).length = 8 := by rw [List.length_take]; omega
    have ht := takes_ofTrailer out [] (rest.take 8) (by decide)
      (by rw [hlen8]; rfl)
    rw [List.nil_append] at ht
    have hstop : (ofTrailer out (rest.take 8)).isOpen = false := by
      unfold ofTrailer
      split <;> rfl
    obtain ⟨hrest, hdone⟩ := h.unique ht List.prefix_rfl (List.take_prefix 8 rest) rfl hstop
    rw [← hrest] at hlen8 hdone
    by_cases heq : rest = Trailer.ofPayload out
    · rw [heq, ofTrailer_eq_done] at hdone
      cases hdone
      exact ⟨heq, rfl⟩
    · obtain ⟨m, hm⟩ := ofTrailer_eq_failed hlen8 heq
      rw [hm] at hdone
      cases hdone

/-- Header and stream lead to the trailer. -/
theorem takes_trailer_of_parts {header body p : Bytes} (hh : HeaderParser.Accepts header)
    (hb : Deflate.Decodes false body p) :
    (start .gzip).Takes (header ++ body) (.trailer p []) :=
  (HeaderParser.takes_of_accepts hh).append (takes_of_decodes hb)

theorem takes_done_iff {bs p : Bytes} : (start .gzip).Takes bs (.done p) ↔
    ∃ header body, bs = header ++ body ++ Trailer.ofPayload p ∧ HeaderParser.Accepts header ∧
      Deflate.Decodes false body p := by
  constructor
  · intro h
    obtain ⟨header, rest, rfl, hh, hrest⟩ := HeaderParser.split_header h
    obtain ⟨body, t, out, rfl, hb, ht⟩ := split_body hrest
    obtain ⟨rfl, rfl⟩ := eq_of_trailer_takes ht
    exact ⟨header, body, (List.append_assoc _ _ _).symm, hh, hb⟩
  · rintro ⟨header, body, rfl, hh, hb⟩
    have ht := takes_ofTrailer p [] (Trailer.ofPayload p) (by decide)
      (by rw [Trailer.length_ofPayload]; rfl)
    rw [List.nil_append, ofTrailer_eq_done] at ht
    exact (takes_trailer_of_parts hh hb).append ht

theorem takes_mismatch {header body t p : Bytes} (hh : HeaderParser.Accepts header)
    (hb : Deflate.Decodes false body p) (hlen : t.length = 8) (ht : t ≠ Trailer.ofPayload p) :
    ∃ m, (start .gzip).Takes (header ++ body ++ t) (.failed p (.trailer m)) := by
  obtain ⟨m, hm⟩ := ofTrailer_eq_failed hlen ht
  have h := takes_ofTrailer p [] t (by decide) (by rw [hlen]; rfl)
  rw [List.nil_append, hm] at h
  exact ⟨m, (takes_trailer_of_parts hh hb).append h⟩

end Member

end GzipStream
