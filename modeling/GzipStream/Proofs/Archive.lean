import GzipStream.OneShot
import GzipStream.Proofs.MemberStep

/-!
# Sequences of members

`Archive f data out members ending` says what data of framing `f` holds: so many complete members,
everything that can be decoded, and how the data ends. The data determines all three
(`Archive.unique`). `inflate_spec` says that `inflate` answers just that.
-/

namespace GzipStream

/-- How data ends. -/
inductive Ending
  | clean
  | truncated
  | refused (fault : Fault)

/-- The error that data of `n` bytes gives. -/
def Ending.error? (n : Nat) : Ending → Option Error
  | clean => none
  | truncated => some (.truncatedStream n)
  | refused fault => some (.dataCorrupt fault.message)

inductive Archive (f : Framing) : (data out : Bytes) → (members : Nat) → Ending → Prop
  | empty : Archive f [] [] 0 .clean
  | truncated {data : Bytes} {m : Member} (ne_nil : data ≠ []) (takes : (Member.start f).Takes data m)
      (isOpen : m.isOpen = true) : Archive f data m.payload 0 .truncated
  | refused {data used out : Bytes} (fault : Fault) (isPrefix : used <+: data)
      (takes : (Member.start f).Takes used (.failed out fault)) :
      Archive f data out 0 (.refused fault)
  | member {data used rest payload out : Bytes} {members : Nat} {ending : Ending}
      (data_eq : data = used ++ rest) (takes : (Member.start f).Takes used (.done payload))
      (tail : Archive f rest out members ending) :
      Archive f data (payload ++ out) (members + 1) ending

theorem Archive.single {f : Framing} {data out : Bytes}
    (h : (Member.start f).Takes data (.done out)) : Archive f data out 1 .clean := by
  have hone := Archive.member (List.append_nil data).symm h .empty
  rwa [List.append_nil] at hone

/-- Nothing but an open member is reached without input. -/
theorem Member.not_takes_nil {f : Framing} {m : Member} {data used : Bytes} (hd : data = [])
    (hu : used <+: data) (hm : m.isOpen = false) : ¬ (start f).Takes used m := by
  intro h
  rw [hd, List.prefix_nil] at hu
  rw [hu] at h
  have ho := isOpen_start f
  rw [show start f = m from h, hm] at ho
  cases ho

theorem Archive.unique {f : Framing} {data out out' : Bytes} {members members' : Nat}
    {ending ending' : Ending} (h : Archive f data out members ending)
    (h' : Archive f data out' members' ending') :
    out = out' ∧ members = members' ∧ ending = ending' := by
  induction h generalizing out' members' with
  | empty =>
    cases h' with
    | empty => exact ⟨rfl, rfl, rfl⟩
    | truncated ne_nil => exact absurd rfl ne_nil
    | refused fault isPrefix takes => exact absurd takes (Member.not_takes_nil rfl isPrefix rfl)
    | member data_eq takes tail =>
      exact absurd takes (Member.not_takes_nil rfl ⟨_, data_eq.symm⟩ rfl)
  | truncated ne_nil takes isOpen =>
    cases h' with
    | empty => exact absurd rfl ne_nil
    | truncated ne_nil' takes' =>
      rw [← takes.foldl_eq, ← takes'.foldl_eq]
      exact ⟨rfl, rfl, rfl⟩
    | refused fault isPrefix takes' => exact absurd isPrefix (takes.not_prefix takes' isOpen rfl)
    | member data_eq takes' tail =>
      exact absurd ⟨_, data_eq.symm⟩ (takes.not_prefix takes' isOpen rfl)
  | refused fault isPrefix takes =>
    cases h' with
    | empty => exact absurd takes (Member.not_takes_nil rfl isPrefix rfl)
    | truncated ne_nil takes' isOpen => exact absurd isPrefix (takes'.not_prefix takes isOpen rfl)
    | refused fault' isPrefix' takes' =>
      obtain ⟨-, heq⟩ := takes.unique takes' isPrefix isPrefix' rfl rfl
      cases heq
      exact ⟨rfl, rfl, rfl⟩
    | member data_eq takes' tail =>
      obtain ⟨-, hne⟩ := takes.unique takes' isPrefix ⟨_, data_eq.symm⟩ rfl rfl
      cases hne
  | member data_eq takes tail ih =>
    cases h' with
    | empty => exact absurd takes (Member.not_takes_nil rfl ⟨_, data_eq.symm⟩ rfl)
    | truncated ne_nil takes' isOpen =>
      exact absurd ⟨_, data_eq.symm⟩ (takes'.not_prefix takes isOpen rfl)
    | refused fault' isPrefix' takes' =>
      obtain ⟨-, hne⟩ := takes.unique takes' ⟨_, data_eq.symm⟩ isPrefix' rfl rfl
      cases hne
    | member data_eq' takes' tail' =>
      obtain ⟨rfl, heq⟩ := takes.unique takes' ⟨_, data_eq.symm⟩ ⟨_, data_eq'.symm⟩ rfl rfl
      cases heq
      obtain rfl := List.append_cancel_left (data_eq.symm.trans data_eq')
      obtain ⟨rfl, rfl, rfl⟩ := ih tail'
      exact ⟨rfl, rfl, rfl⟩

/-- What is left of the data once `members` members with output `finished` are taken from it. -/
def Behind (f : Framing) (data finished : Bytes) (members : Nat) (rest : Bytes) : Prop :=
  ∀ out n ending, Archive f rest out n ending → Archive f data (finished ++ out) (members + n) ending

theorem behind_start (f : Framing) (data : Bytes) : Behind f data [] 0 data := by
  intro out n ending h
  rwa [Nat.zero_add]

theorem Behind.member {f : Framing} {data finished used payload rest : Bytes} {members : Nat}
    (h : Behind f data finished members (used ++ rest))
    (ht : (Member.start f).Takes used (.done payload)) :
    Behind f data (finished ++ payload) (members + 1) rest := by
  intro out n ending hrest
  have := h _ _ _ (.member rfl ht hrest)
  rwa [← List.append_assoc, Nat.add_comm n 1, ← Nat.add_assoc] at this

namespace Inflater

/-- With more room than an engine can lag behind, it takes input as long as there is any, and then
gives all the rest at once. -/
theorem Along.ample_room {f : Framing} {i i' : Inflater} {before output out left : Bytes} {room : Nat}
    (h : i.Along f before output) (h' : i'.Along f before (output ++ out))
    (hroom : Deflate.Cursor.mostPerByte < room)
    (hfull : out.length = room ∨ left = [] ∧ i'.CaughtUp) : left = [] ∧ i'.CaughtUp := by
  obtain hfull | hfull := hfull
  · have h1 := (h.output_prefix h').length_le
    have h2 := h.sound.lag_le
    rw [h.payload_eq] at h2
    rw [List.length_append] at h1
    omega
  · exact hfull

/-- Without input, an engine that has caught up gives nothing more. -/
theorem CaughtUp.output_eq_nil {f : Framing} {i i' : Inflater} {before output out : Bytes}
    (hc : i.CaughtUp) (h : i.Along f before output) (h' : i'.Along f before (output ++ out)) :
    out = [] := by
  have hle := (h.output_prefix h').length_le
  rw [hc.payload_eq, h.payload_eq, List.length_append] at hle
  exact List.length_eq_zero_iff.mp (by omega)

/-- Without input, an engine that has caught up ends no member. -/
theorem CaughtUp.used_ne_nil {f : Framing} {i : Inflater} {before used output payload : Bytes}
    (hc : i.CaughtUp) (h : i.Along f before output)
    (takes : (Member.start f).Takes (before ++ used) (.done payload)) : used ≠ [] := by
  rintro rfl
  rw [List.append_nil] at takes
  have ho := hc.isOpen
  rw [h.takes.foldl_eq.symm.trans takes.foldl_eq] at ho
  cases ho

end Inflater

theorem Archive.of_caughtUp {f : Framing} {i : Inflater} {before output : Bytes}
    (h : i.Along f before output) (hc : i.CaughtUp) (hne : before ≠ []) :
    Archive f before output 0 .truncated := by
  have := Archive.truncated hne h.takes hc.isOpen
  rwa [hc.payload_eq, h.payload_eq] at this

/-- The answer that output and ending of data of `n` bytes come to. -/
def Ending.answer (n : Nat) (out : Bytes) (e : Ending) : Except Error Bytes :=
  match e.error? n with
  | none => .ok out
  | some error => .error error

/-- `owes` counts a turn that is needed to give out what was decoded already. -/
theorem inflateFrom_spec {f : Framing} {data finished before rest output : Bytes} {members : Nat}
    (turns owes : Nat) {i : Inflater} {started : Bool} {taken : Nat} {acc : Array UInt8}
    (hb : Behind f data finished members (before ++ rest)) (h : i.Along f before output)
    (hstarted : started = !before.isEmpty) (htaken : taken + rest.length = data.length)
    (hacc : acc.toList = finished ++ output) (howes : owes = 1 ∨ owes = 0 ∧ i.CaughtUp)
    (ht : 2 * rest.length + owes < turns) :
    ∃ out n e, Archive f data out n e ∧
      inflateFrom turns i rest taken started acc = e.answer data.length out := by
  induction turns generalizing finished before rest output members owes i started taken acc with
  | zero => exact absurd ht (Nat.not_lt_zero _)
  | succ turns ih =>
    rcases hstep : i.step rest chunkSize with ⟨s, i'⟩
    unfold inflateFrom
    simp only [hstep]
    cases h.step (show 0 < chunkSize by decide) hstep with
    | working used left out hin hlen moved along full =>
      subst hin
      rw [List.length_append] at htaken ht
      simp only [List.drop_left]
      by_cases hused : used = []
      · subst hused
        rw [List.append_nil] at along
        obtain ⟨rfl, caught⟩ := h.ample_room along (by decide) full
        have howes' : owes = 1 := by
          refine howes.resolve_right fun ⟨_, hc⟩ => ?_
          rw [hc.output_eq_nil h along] at moved
          exact absurd moved (Nat.lt_irrefl 0)
        refine ih 0 hb along ?_ ?_ ?_ (.inr ⟨rfl, caught⟩) ?_
        · rw [hstarted]
          exact Bool.or_false _
        · exact htaken
        · rw [Array.toList_appendList, hacc, List.append_assoc]
        · rw [List.length_nil] at ht ⊢
          omega
      · have hpos : 0 < used.length := List.length_pos_iff.mpr hused
        rw [← List.append_assoc] at hb
        refine ih 1 hb along ?_ ?_ ?_ (.inl rfl) ?_
        · simp [hpos, hused]
        · rw [Nat.add_assoc]
          exact htaken
        · rw [Array.toList_appendList, hacc, List.append_assoc]
        · omega
    | stalled hin along caught =>
      subst hin
      rw [List.append_nil] at hb
      rw [List.length_nil, Nat.add_zero] at htaken
      simp only [hstarted, List.drop_nil, List.isEmpty_nil, Bool.not_true]
      cases before with
      | nil =>
        refine ⟨_, _, _, hb _ _ _ .empty, ?_⟩
        simp [Ending.answer, Ending.error?, hacc, h.output_nil]
      | cons b before =>
        refine ⟨_, _, _, hb _ _ _ (.of_caughtUp along caught (List.cons_ne_nil _ _)), ?_⟩
        simp [Ending.answer, Ending.error?, htaken]
    | ended used left out hin hlen isOver takes =>
      subst hin
      rw [← List.append_assoc] at hb
      rw [List.length_append] at htaken ht
      have hb' := hb.member takes
      have hacc' : (acc ++ out).toList = finished ++ (output ++ out) := by
        rw [Array.toList_appendList, hacc, List.append_assoc]
      simp only [Step.ended, isOver.reset_eq, Status.check_ok, List.drop_left]
      cases left with
      | nil =>
        refine ⟨_, _, _, hb' _ _ _ .empty, ?_⟩
        rw [List.append_nil, ← hacc']
        rfl
      | cons b left =>
        -- a member that took nothing was at its end, so there was output left to give
        have hmoved : 0 < 2 * used.length + owes := by
          obtain rfl | ⟨rfl, hc⟩ := howes
          · omega
          · have := List.length_pos_iff.mpr (hc.used_ne_nil h takes)
            omega
        refine ih 0 hb' isOver.along_startMember rfl ?_ ?_
          (.inr ⟨rfl, isOver.along_startMember.caughtUp⟩) ?_
        · omega
        · rw [hacc', List.append_nil]
        · omega
    | refused used left out ahead fault hin hlen isPrefix takes stuck =>
      have hp : before ++ used ++ ahead <+: before ++ rest := by
        rw [hin, ← List.append_assoc]
        exact (List.prefix_append_right_inj _).mpr isPrefix
      exact ⟨_, _, _, hb _ _ _ (.refused fault hp takes), rfl⟩

theorem inflate_spec (data : Bytes) (f : Framing) :
    ∃ out n e, Archive f data out n e ∧ inflate data f = e.answer data.length out :=
  inflateFrom_spec (2 * data.length + 8) 0 (behind_start f data) (Inflater.along_new f) rfl
    (Nat.zero_add _) rfl (.inr ⟨rfl, (Inflater.along_new f).caughtUp⟩) (by omega)

end GzipStream
