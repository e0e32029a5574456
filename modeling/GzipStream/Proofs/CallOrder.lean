import GzipStream.Engine.Log
import GzipStream.Status
import Mathlib.Data.List.Chain

/-!
# The order of engine calls

`DecodeCall.Conforming` and `EncodeCall.Conforming` say which logs of calls an engine may see in its
life. Which call may follow which is a relation between neighbours, so a log grows call by call
(`Legal.push`), and all that has to be known of it is its last call.
-/

namespace GzipStream

/-- Each call may follow the one before it, all are fit, and the last one is as `last` says. -/
structure Legal {κ : Type} (Follows : κ → κ → Prop) (fit last : κ → Prop) (log : List κ) :
    Prop where
  chain : log.IsChain Follows
  fit : ∀ c ∈ log, fit c
  last : ∀ c ∈ log.getLast?, last c

section
variable {κ : Type} {Follows : κ → κ → Prop} {fit last last' : κ → Prop} {log before after : List κ}
  {c : κ}

theorem Legal.mono (h : Legal Follows fit last log) (himp : ∀ c, last c → last' c) :
    Legal Follows fit last' log :=
  ⟨h.chain, h.fit, fun c hc => himp c (h.last c hc)⟩

theorem Legal.push (h : Legal Follows fit last log) (hfollows : ∀ b, last b → Follows b c)
    (hfit : fit c) (hlast : last' c) : Legal Follows fit last' (log ++ [c]) := by
  refine ⟨?_, ?_, ?_⟩
  · apply h.chain.append (List.isChain_singleton c)
    intro b hb d hd
    cases hd
    exact hfollows b (h.last b hb)
  · intro b hb
    rcases List.mem_append.mp hb with hb | hb
    · exact h.fit b hb
    · rw [List.mem_singleton.mp hb]
      exact hfit
  · intro b hb
    rw [List.getLast?_concat] at hb
    cases hb
    exact hlast

/-- A call that cannot be the last has one behind it, which may follow it. -/
theorem Legal.next (h : Legal Follows fit last (before ++ c :: after)) (hc : ¬ last c) :
    ∃ d rest, after = d :: rest ∧ Follows c d := by
  cases after with
  | nil => exact absurd (h.last c (by simp)) hc
  | cons d rest => exact ⟨d, rest, rfl, (List.isChain_append_cons_cons.mp h.chain).2.1⟩

/-- A call that nothing may follow is the last. -/
theorem Legal.end (h : Legal Follows fit last (before ++ c :: after)) (hc : ∀ d, ¬ Follows c d) :
    after = [] := by
  cases after with
  | nil => rfl
  | cons d rest => exact absurd (List.isChain_append_cons_cons.mp h.chain).2.1 (hc d)

/-- Where nothing may follow a last call, there is one of them. -/
theorem Legal.last_once (h : Legal Follows fit last log) (hne : log ≠ [])
    (hstop : ∀ b d, last b → ¬ Follows b d) :
    ∃ earlier d, log = earlier ++ [d] ∧ last d ∧ ∀ b ∈ earlier, ¬ last b := by
  obtain rfl | ⟨earlier, d, rfl⟩ := log.eq_nil_or_concat
  · exact absurd rfl hne
  · rw [List.concat_eq_append] at h ⊢
    refine ⟨earlier, d, rfl, h.last d (by simp), ?_⟩
    intro b hb hlast
    obtain ⟨before, after, rfl⟩ := List.append_of_mem hb
    rw [List.append_assoc, List.cons_append] at h
    have hnil := h.end fun d => hstop b d hlast
    simp at hnil

/-- A call that only a last call may follow. -/
theorem Legal.only_last (h : Legal Follows fit last (before ++ c :: after)) (hc : ¬ last c)
    (hstop : ∀ b d, last b → ¬ Follows b d) (hnext : ∀ d, Follows c d → last d) :
    ∃ d, after = [d] ∧ last d := by
  obtain ⟨d, rest, rfl, hd⟩ := h.next hc
  have hlast := hnext d hd
  rw [← List.singleton_append, ← List.append_assoc] at h
  exact ⟨d, by rw [h.end fun d' => hstop d d' hlast], hlast⟩

end

namespace DecodeCall

/-- Nothing is owed behind the call. -/
def Settled : DecodeCall → Prop
  | .captureHeader _ => True
  | .step _ _ s => s.status.isWorking = true
  | .reset status => status = .ok
  | .finish _ => False

def EndsMember : DecodeCall → Prop
  | .step _ _ s => s.status = .streamEnd
  | _ => False

/-- The engine gave up. -/
def Failed : DecodeCall → Prop
  | .step _ _ s => s.status.isFailure = true
  | .reset status => status ≠ .ok
  | _ => False

def IsFinish : DecodeCall → Prop
  | .finish _ => True
  | _ => False

def HasRoom : DecodeCall → Prop
  | .step _ room _ => 0 < room
  | _ => True

/-- The first call may be followed by the second: a member that ended by a reset, a failure by the
engine's release, its release by nothing. -/
def Follows (c d : DecodeCall) : Prop :=
  c.Settled ∨ (c.Failed ∧ d.IsFinish) ∨ (c.EndsMember ∧ ∃ status, d = .reset status)

/-- All calls in the life of an engine: it is released once and at last, every step has room, every
end of a member is followed by a reset, and behind a failure there is its release only. -/
structure Conforming (log : List DecodeCall) : Prop where
  ends : ∃ earlier status, log = earlier ++ [.finish status] ∧ ∀ status, .finish status ∉ earlier
  rooms : ∀ offered room s, .step offered room s ∈ log → 0 < room
  resets : ∀ before offered room s after, log = before ++ .step offered room s :: after →
    s.status = .streamEnd → ∃ status rest, after = .reset status :: rest
  stops : ∀ before c after, log = before ++ c :: after → c.Failed →
    ∃ status, after = [.finish status]

theorem IsFinish.eq {c : DecodeCall} (h : c.IsFinish) : ∃ status, c = .finish status := by
  cases c with
  | finish status => exact ⟨status, rfl⟩
  | _ => exact h.elim

theorem IsFinish.not_follows {c : DecodeCall} (d : DecodeCall) (h : c.IsFinish) : ¬ Follows c d := by
  obtain ⟨status, rfl⟩ := h.eq
  rintro (h | ⟨h, -⟩ | ⟨h, -⟩) <;> exact h

/-- Only the release of an engine may follow its failure. -/
theorem Failed.isFinish {c d : DecodeCall} (hc : c.Failed) (h : Follows c d) : d.IsFinish := by
  rcases h with h | ⟨-, h⟩ | ⟨h, -⟩
  · exfalso
    cases c with
    | step offered room s =>
      cases hs : s.status <;> simp_all [Failed, Settled, Status.isFailure, Status.isWorking]
    | reset status => exact hc h
    | captureHeader status => exact hc
    | finish status => exact hc
  · exact h
  · exfalso
    cases c with
    | step offered room s => simp_all [Failed, EndsMember, Status.isFailure]
    | _ => exact h

/-- A log in order, whose last call is as `last` says. -/
abbrev Orderly (last : DecodeCall → Prop) (log : List DecodeCall) : Prop :=
  Legal Follows HasRoom last log

/-- The engine may be released behind the call. -/
def Endable (c : DecodeCall) : Prop := c.Settled ∨ c.Failed

theorem Orderly.finish {log : List DecodeCall} (h : Orderly Endable log) (status : Status) :
    Orderly IsFinish (log ++ [.finish status]) := by
  refine h.push ?_ trivial trivial
  rintro b (hb | hb)
  · exact .inl hb
  · exact .inr (.inl ⟨hb, trivial⟩)

theorem Orderly.conforming {log : List DecodeCall} (h : Orderly IsFinish log) (hne : log ≠ []) :
    Conforming log where
  ends := by
    obtain ⟨earlier, d, rfl, hd, hearlier⟩ := h.last_once hne fun c d hc => hc.not_follows d
    obtain ⟨status, rfl⟩ := hd.eq
    exact ⟨earlier, status, rfl, fun status hmem => hearlier _ hmem trivial⟩
  rooms offered room s hmem := h.fit _ hmem
  resets := by
    rintro before offered room s after rfl hs
    obtain ⟨d, rest, rfl, hd⟩ := h.next id
    rcases hd with hd | ⟨hd, -⟩ | ⟨-, status, rfl⟩
    · simp [Settled, hs, Status.isWorking] at hd
    · simp [Failed, hs, Status.isFailure] at hd
    · exact ⟨status, rest, rfl⟩
  stops := by
    rintro before c after rfl hc
    have hnot : ¬ c.IsFinish := by
      intro hfinish
      obtain ⟨status, rfl⟩ := hfinish.eq
      exact hc
    obtain ⟨d, rfl, hd⟩ := h.only_last hnot (fun c d hc => hc.not_follows d) fun d => hc.isFinish
    obtain ⟨status, rfl⟩ := hd.eq
    exact ⟨status, rfl⟩

end DecodeCall

namespace EncodeCall

def IsHeader : EncodeCall → Prop
  | .setHeader _ => True
  | _ => False

def IsStep : EncodeCall → Prop
  | .step _ _ _ _ => True
  | _ => False

def IsFinish : EncodeCall → Prop
  | .finish _ => True
  | _ => False

/-- A step behind which the engine can be asked for more. -/
def Working : EncodeCall → Prop
  | .step _ _ _ s => s.status.isWorking = true
  | _ => False

/-- The engine gave up. -/
def Failed : EncodeCall → Prop
  | .step _ _ _ s => s.status.isFailure = true
  | _ => False

def HasRoom : EncodeCall → Prop
  | .step _ room _ _ => 0 < room
  | _ => True

/-- The first call may be followed by the second: headers come before steps, and a step that did not
work is the last. -/
def Follows (c d : EncodeCall) : Prop :=
  c.IsHeader ∨ (c.Working ∧ d.IsStep) ∨ (c.IsStep ∧ d.IsFinish)

/-- All calls in the life of an engine: it is released once and at last, every step has room, no step
follows the end of the stream, no header follows a step, and behind a failure there is its release
only. -/
structure Conforming (log : List EncodeCall) : Prop where
  ends : ∃ earlier status, log = earlier ++ [.finish status] ∧ ∀ status, .finish status ∉ earlier
  rooms : ∀ offered room flush s, .step offered room flush s ∈ log → 0 < room
  steps : ∀ before offered room flush s after, log = before ++ .step offered room flush s :: after →
    s.status = .streamEnd → ∀ c ∈ after, ¬ c.IsStep
  headers : ∀ before offered room flush s after,
    log = before ++ .step offered room flush s :: after → ∀ status, .setHeader status ∉ after
  stops : ∀ before c after, log = before ++ c :: after → c.Failed →
    ∃ status, after = [.finish status]

/-- A log in order, whose last call is as `last` says. -/
abbrev Orderly (last : EncodeCall → Prop) (log : List EncodeCall) : Prop :=
  Legal Follows HasRoom last log

/-- The engine can be asked for a step behind the call. -/
def Settled (c : EncodeCall) : Prop := c.IsHeader ∨ c.Working

/-- The engine may be released behind the call. -/
def Endable (c : EncodeCall) : Prop := c.IsHeader ∨ c.IsStep

theorem Settled.endable {c : EncodeCall} (h : c.Settled) : c.Endable := by
  refine h.imp_right ?_
  cases c with
  | step => exact fun _ => trivial
  | _ => exact False.elim

theorem IsFinish.eq {c : EncodeCall} (h : c.IsFinish) : ∃ status, c = .finish status := by
  cases c with
  | finish status => exact ⟨status, rfl⟩
  | _ => exact h.elim

theorem IsFinish.not_follows {c : EncodeCall} (d : EncodeCall) (h : c.IsFinish) : ¬ Follows c d := by
  obtain ⟨status, rfl⟩ := h.eq
  rintro (h | ⟨h, -⟩ | ⟨h, -⟩) <;> exact h

/-- Only the release of an engine may follow a step that did not work. -/
theorem isFinish_of_follows {offered room : Nat} {flush : Flush} {s : Step} {d : EncodeCall}
    (hs : s.status.isWorking = false) (h : Follows (.step offered room flush s) d) : d.IsFinish := by
  rcases h with h | ⟨h, -⟩ | ⟨-, h⟩
  · exact h.elim
  · rw [Working, hs] at h
    cases h
  · exact h

/-- Behind a step that did not work there is the engine's release. -/
theorem Orderly.after_last {before after : List EncodeCall} {offered room : Nat} {flush : Flush}
    {s : Step} (h : Orderly IsFinish (before ++ .step offered room flush s :: after))
    (hs : s.status.isWorking = false) : ∃ status, after = [.finish status] := by
  obtain ⟨d, rfl, hd⟩ := h.only_last id (fun c d hc => hc.not_follows d) fun d =>
    isFinish_of_follows hs
  obtain ⟨status, rfl⟩ := hd.eq
  exact ⟨status, rfl⟩

/-- No header follows a step, however far behind. -/
theorem not_isHeader_of_isChain {c : EncodeCall} {after : List EncodeCall}
    (h : (c :: after).IsChain Follows) (hc : ¬ c.IsHeader) : ∀ d ∈ after, ¬ d.IsHeader := by
  induction after generalizing c with
  | nil => exact fun d hd => absurd hd List.not_mem_nil
  | cons d rest ih =>
    obtain ⟨hd, hrest⟩ := List.isChain_cons_cons.mp h
    have hnot : ¬ d.IsHeader := by
      rcases hd with hd | ⟨-, hd⟩ | ⟨-, hd⟩
      · exact absurd hd hc
      · cases d with
        | step => exact id
        | _ => exact hd.elim
      · obtain ⟨status, rfl⟩ := hd.eq
        exact id
    intro b hb
    rcases List.mem_cons.mp hb with rfl | hb
    · exact hnot
    · exact ih hrest hnot b hb

theorem Orderly.finish {log : List EncodeCall} (h : Orderly Endable log) (status : Status) :
    Orderly IsFinish (log ++ [.finish status]) := by
  refine h.push ?_ trivial trivial
  rintro b (hb | hb)
  · exact .inl hb
  · exact .inr (.inr ⟨hb, trivial⟩)

theorem Orderly.conforming {log : List EncodeCall} (h : Orderly IsFinish log) (hne : log ≠ []) :
    Conforming log where
  ends := by
    obtain ⟨earlier, d, rfl, hd, hearlier⟩ := h.last_once hne fun c d hc => hc.not_follows d
    obtain ⟨status, rfl⟩ := hd.eq
    exact ⟨earlier, status, rfl, fun status hmem => hearlier _ hmem trivial⟩
  rooms offered room flush s hmem := h.fit _ hmem
  steps := by
    rintro before offered room flush s after rfl hs c hc
    obtain ⟨status, rfl⟩ := h.after_last (by rw [hs]; rfl)
    rw [List.mem_singleton.mp hc]
    exact id
  headers := by
    rintro before offered room flush s after rfl status hmem
    exact not_isHeader_of_isChain h.chain.right_of_append id _ hmem trivial
  stops := by
    rintro before c after rfl hc
    cases c with
    | step offered room flush s =>
      refine h.after_last ?_
      cases hs : s.status <;> simp_all [Failed, Status.isFailure, Status.isWorking]
    | setHeader status => exact hc.elim
    | finish status => exact hc.elim

end EncodeCall

end GzipStream
