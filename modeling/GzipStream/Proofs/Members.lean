import GzipStream.Proofs.Archive
import GzipStream.Proofs.MemberLayout

/-!
# Complete members

`IsMember f data payload` says what a complete member of framing `f` is made of. It is what an
engine takes to its end (`isMember_iff`). So data that ends cleanly is a list of complete members
(`Archive.exists_members`), and members stand in front of other data without changing what that holds
(`Archive.members_append`).
-/

namespace GzipStream

/-- A header, a stream and the trailer of what the stream decodes to. -/
def IsGzipMember (data payload : Bytes) : Prop :=
  ∃ header body, data = header ++ body ++ Trailer.ofPayload payload ∧
    HeaderParser.Accepts header ∧ Deflate.Decodes false body payload

/-- `data` is one complete member, from its first byte to its last. -/
def IsMember : Framing → (data payload : Bytes) → Prop
  | .gzip, data, payload => IsGzipMember data payload
  | .zlib, data, payload => Deflate.Decodes true data payload
  | .raw, data, payload => Deflate.Decodes false data payload
  | .auto, data, payload => IsGzipMember data payload ∨ Deflate.Decodes true data payload

structure CompleteMember (f : Framing) where
  data : Bytes
  payload : Bytes
  complete : IsMember f data payload

namespace CompleteMember

variable {f : Framing}

/-- The members one behind the other. -/
def joined (ms : List (CompleteMember f)) : Bytes := ms.flatMap data

def payloads (ms : List (CompleteMember f)) : Bytes := ms.flatMap payload

@[simp] theorem joined_nil : joined ([] : List (CompleteMember f)) = [] := rfl

@[simp] theorem joined_cons (m : CompleteMember f) (ms : List (CompleteMember f)) :
    joined (m :: ms) = m.data ++ joined ms := List.flatMap_cons

@[simp] theorem payloads_nil : payloads ([] : List (CompleteMember f)) = [] := rfl

@[simp] theorem payloads_cons (m : CompleteMember f) (ms : List (CompleteMember f)) :
    payloads (m :: ms) = m.payload ++ payloads ms := List.flatMap_cons

theorem joined_append (ms ms' : List (CompleteMember f)) :
    joined (ms ++ ms') = joined ms ++ joined ms' := List.flatMap_append

end CompleteMember

namespace Member

/-- A member that begins like a gzip member is taken for one. -/
theorem takes_auto_of_gzip {rest : Bytes} {m : Member}
    (h : (start .gzip).Takes (0x1f :: rest) m) : (start .auto).Takes (0x1f :: rest) m := ⟨rfl, h.2⟩

/-- A zlib stream does not begin like a gzip member. -/
theorem takes_auto_of_stream {b b' : UInt8} {rest : Bytes} {c : Deflate.Cursor}
    (h : (Deflate.Cursor.start true).Takes (b :: b' :: rest) c)
    (hc : c.mode.isOpen = true ∨ c.mode = .done) :
    (start .auto).Takes (b :: b' :: rest) (ofCursor false c) := by
  have hne : b ≠ 0x1f := by
    rintro rfl
    have hfailed : ∀ flg : UInt8, (Deflate.Mode.afterZlibHeader 0x1f flg).isOpen = false ∧
        Deflate.Mode.afterZlibHeader 0x1f flg ≠ .done := by
      intro flg
      unfold Deflate.Mode.afterZlibHeader
      split
      · exact ⟨rfl, nofun⟩
      · exact ⟨rfl, nofun⟩
    have ht : Deflate.Cursor.Takes ⟨⟨true, false⟩, .afterZlibHeader 0x1f b', #[]⟩ rest c := h.2.2
    obtain ⟨hopen, hdone⟩ := hfailed b'
    generalize Deflate.Mode.afterZlibHeader 0x1f b' = m at ht hopen hdone
    obtain ⟨-, heq⟩ := Follows.eq_nil ht hopen
    rw [← heq] at hc
    rcases hc with hc | hc
    · exact absurd (hopen.symm.trans hc) Bool.false_ne_true
    · exact hdone hc
  refine ⟨rfl, ?_⟩
  have hbyte : (start .auto).byte b = ofCursor false ((Deflate.Cursor.start true).byte b) := if_neg hne
  rw [hbyte]
  exact takes_ofCursor false h.2

/-- The beginning of a zlib stream is the beginning of a member, whatever is taken for its framing. -/
theorem takes_auto_of_open {bs : Bytes} {c : Deflate.Cursor}
    (h : (Deflate.Cursor.start true).Takes bs c) (hopen : c.mode.isOpen = true) :
    ∃ m, (start .auto).Takes bs m ∧ m.isOpen = true ∧ m.payload = c.history.toList := by
  match bs, h with
  | [], h =>
    rw [← show Deflate.Cursor.start true = c from h]
    exact ⟨start .auto, rfl, rfl, rfl⟩
  | [b], h =>
    rw [← h.2]
    refine ⟨(start .auto).byte b, ⟨rfl, rfl⟩, ?_⟩
    by_cases hb : b = 0x1f
    · subst hb
      exact ⟨rfl, rfl⟩
    · rw [show (start .auto).byte b = ofCursor false ((Deflate.Cursor.start true).byte b) from if_neg hb]
      exact ⟨rfl, rfl⟩
  | b :: b' :: rest, h =>
    have hauto := takes_auto_of_stream h (.inl hopen)
    rw [ofCursor_of_isOpen hopen] at hauto
    exact ⟨_, hauto, rfl, rfl⟩

theorem takes_auto_of_zlib {bs : Bytes} {c : Deflate.Cursor}
    (h : (Deflate.Cursor.start true).Takes bs c) (hm : c.mode = .done) :
    (start .auto).Takes bs (.done c.history.toList) := by
  have hc : ofCursor false c = .done c.history.toList := by
    unfold ofCursor
    rw [hm]
    rfl
  match bs, h with
  | [], h =>
    rw [← show Deflate.Cursor.start true = c from h] at hm
    cases hm
  | [b], h =>
    rw [← h.2] at hm
    cases hm
  | b :: b' :: rest, h =>
    rw [← hc]
    exact takes_auto_of_stream h (.inr hm)

/-- A stream without a gzip frame is taken as its cursor takes it. -/
theorem takes_cursor {c : Deflate.Cursor} {bs p : Bytes} (he : c.mode.emits = false)
    (h : (ofCursor false c).Takes bs (.done p)) :
    ∃ c', c.Takes bs c' ∧ c'.mode = .done ∧ c'.history.toList = p := by
  induction bs generalizing c with
  | nil =>
    have hdone : ofCursor false c = .done p := h
    unfold ofCursor at hdone
    split at hdone
    · next hm =>
      cases hdone
      exact ⟨c, rfl, hm, rfl⟩
    · cases hdone
    · cases hdone
  | cons b bs ih =>
    have hopen : c.mode.isOpen = true := by
      have ho := h.1
      cases hm : c.mode with
      | done => simp [ofCursor, hm, isOpen] at ho
      | failed f => simp [ofCursor, hm, isOpen] at ho
      | literal codes b => rw [hm] at he; cases he
      | copy codes left distance => rw [hm] at he; cases he
      | _ => rfl
    have hrest := h.2
    rw [ofCursor_of_isOpen hopen] at hrest
    obtain ⟨c', ht, hm, hp⟩ := ih (Deflate.Cursor.not_emits_byte hopen b) hrest
    exact ⟨c', ⟨hopen, ht⟩, hm, hp⟩

theorem takes_stream_iff {zlib : Bool} {bs p : Bytes} :
    (body false (.start zlib)).Takes bs (.done p) ↔ Deflate.Decodes zlib bs p := by
  have hopen : (Deflate.Cursor.start zlib).mode.isOpen = true := by cases zlib <;> rfl
  rw [← ofCursor_of_isOpen hopen]
  constructor
  · intro h
    obtain ⟨c, ht, hm, rfl⟩ := takes_cursor (Deflate.Mode.not_emits_of_isOpen hopen) h
    exact Deflate.decodes_of_takes ht hm
  · intro h
    obtain ⟨c, ht, hm, rfl⟩ := Deflate.takes_of_decodes h
    have hdone : ofCursor false c = .done c.history.toList := by simp [ofCursor, hm]
    rw [← hdone]
    exact takes_ofCursor false ht

/-- A header that is begun leads to the end of a member only from the right first byte. -/
theorem first_of_takes {field : Array UInt8} {flags : UInt8} {h : Header} {crc : Crc32}
    {bs payload : Bytes} (hpos : 0 < field.size)
    (ht : (header ⟨.fixed, field, flags, h, crc⟩).Takes bs (.done payload)) :
    field.getD 0 0 = 0x1f := by
  induction bs generalizing field crc with
  | nil => cases ht
  | cons b bs ih =>
    have hfirst : (field.push b).getD 0 0 = field.getD 0 0 := by
      rw [Array.getD_eq_getD_getElem?, Array.getD_eq_getD_getElem?, Array.getElem?_push,
        if_neg (Nat.ne_of_lt hpos)]
    have hrest := ht.2
    simp only [byte, headerByte, HeaderParser.feed] at hrest
    by_cases hten : (field.push b).size < 10
    · rw [if_pos hten] at hrest
      rw [← hfirst]
      exact ih (by rw [Array.size_push]; exact Nat.succ_pos _) hrest
    · rw [if_neg hten] at hrest
      by_cases hmagic : field.getD 0 0 = 0x1f
      · exact hmagic
      · have hbad : ∃ q d, HeaderParser.finishFixed ⟨.fixed, field.push b, flags, h, crc.push b⟩
            (field.push b) = (q, some d) := by
          refine ⟨_, _, if_pos ?_⟩
          simp only [hfirst, Bool.or_eq_true, bne_iff_ne]
          exact .inl hmagic
        obtain ⟨q, d, hbad⟩ := hbad
        simp only [hbad] at hrest
        obtain ⟨-, hfailed⟩ := hrest.eq_nil rfl
        cases hfailed

/-- The first byte tells which framing a member has. -/
theorem takes_auto_iff {bs p : Bytes} : (start .auto).Takes bs (.done p) ↔
    (start .gzip).Takes bs (.done p) ∨ (start .zlib).Takes bs (.done p) := by
  constructor
  · intro h
    cases bs with
    | nil => cases h
    | cons b bs =>
      have hrest := h.2
      simp only [start, byte] at hrest
      split at hrest
      · next hb => exact .inl ⟨rfl, hb ▸ hrest⟩
      · exact .inr ⟨rfl, hrest⟩
  · rintro (h | h)
    · cases bs with
      | nil => cases h
      | cons b bs =>
        have hfirst : (#[b] : Array UInt8).getD 0 0 = 0x1f := first_of_takes Nat.one_pos h.2
        have hb : b = 0x1f := hfirst
        rw [hb] at h ⊢
        exact takes_auto_of_gzip h
    · obtain ⟨c, ht, hm, rfl⟩ := Deflate.takes_of_decodes (takes_stream_iff.mp h)
      exact takes_auto_of_zlib ht hm

end Member

theorem isMember_iff {f : Framing} {data payload : Bytes} :
    IsMember f data payload ↔ (Member.start f).Takes data (.done payload) := by
  cases f with
  | gzip => exact Member.takes_done_iff.symm
  | zlib => exact Member.takes_stream_iff.symm
  | raw => exact Member.takes_stream_iff.symm
  | auto =>
    rw [Member.takes_auto_iff, Member.takes_done_iff]
    exact or_congr_right Member.takes_stream_iff.symm

/-- How a member of one framing is read. -/
def Framing.readAs : Framing → Framing
  | raw => raw
  | _ => auto

theorem IsMember.readAs {f : Framing} {data payload : Bytes} (h : IsMember f data payload) :
    IsMember f.readAs data payload := by
  cases f with
  | gzip => exact .inl h
  | zlib => exact .inr h
  | raw => exact h
  | auto => exact h

/-- A member is taken to its end, whichever of its framings it is read as. -/
theorem IsMember.takes_done {f g : Framing} {data payload : Bytes} (h : IsMember f data payload)
    (hg : g = f ∨ g = f.readAs) : (Member.start g).Takes data (.done payload) := by
  rcases hg with rfl | rfl
  · exact isMember_iff.mp h
  · exact isMember_iff.mp h.readAs

namespace Archive

variable {f : Framing}

/-- Members in front of other data add their payloads and their number. -/
theorem members_append (ms : List (CompleteMember f)) {rest out : Bytes} {members : Nat}
    {ending : Ending} (h : Archive f rest out members ending) :
    Archive f (CompleteMember.joined ms ++ rest) (CompleteMember.payloads ms ++ out)
      (ms.length + members) ending := by
  induction ms with
  | nil => rwa [List.length_nil, Nat.zero_add]
  | cons m ms ih =>
    have hm := Archive.member rfl (isMember_iff.mp m.complete) ih
    rw [CompleteMember.joined_cons, CompleteMember.payloads_cons, List.length_cons, List.append_assoc,
      List.append_assoc, Nat.add_right_comm]
    exact hm

theorem of_members (ms : List (CompleteMember f)) :
    Archive f (CompleteMember.joined ms) (CompleteMember.payloads ms) ms.length .clean := by
  have h := members_append ms .empty
  rwa [List.append_nil, List.append_nil] at h

/-- Data that ends cleanly is complete members and nothing else. -/
theorem exists_members {data out : Bytes} {members : Nat} {ending : Ending}
    (h : Archive f data out members ending) (hclean : ending = .clean) :
    ∃ ms : List (CompleteMember f), CompleteMember.joined ms = data ∧
      CompleteMember.payloads ms = out ∧ ms.length = members := by
  induction h with
  | empty => exact ⟨[], rfl, rfl, rfl⟩
  | truncated => cases hclean
  | refused => cases hclean
  | member data_eq takes tail ih =>
    obtain ⟨ms, rfl, rfl, rfl⟩ := ih hclean
    exact ⟨⟨_, _, isMember_iff.mpr takes⟩ :: ms, data_eq.symm, rfl, rfl⟩

end Archive

end GzipStream
