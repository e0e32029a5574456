/-!
# Machines that ask for their input

`Follows asks move s bs t` says that a machine in state `s` asks for every item of `bs` in turn and
is then in state `t`. A state that asks for nothing ends a run, so among the prefixes of one input
at most one leads to such a state (`Follows.unique`).
-/

namespace GzipStream

variable {σ β : Type} {asks : σ → Bool} {move : σ → β → σ}

def Follows (asks : σ → Bool) (move : σ → β → σ) : σ → List β → σ → Prop
  | s, [], t => s = t
  | s, b :: bs, t => asks s = true ∧ Follows asks move (move s b) bs t

namespace Follows

theorem append {s t u : σ} {xs ys : List β} (h : Follows asks move s xs t)
    (h' : Follows asks move t ys u) : Follows asks move s (xs ++ ys) u := by
  induction xs generalizing s with
  | nil => rw [show s = t from h]; exact h'
  | cons b bs ih => exact ⟨h.1, ih h.2⟩

theorem foldl_eq {s t : σ} {bs : List β} (h : Follows asks move s bs t) : bs.foldl move s = t := by
  induction bs generalizing s with
  | nil => exact h
  | cons b bs ih => exact ih h.2

/-- What a run has in common with one that ended is the beginning of the latter. -/
theorem split {s t u : σ} {xs ys input : List β} (h : Follows asks move s xs t)
    (h' : Follows asks move s ys u) (hx : xs <+: input) (hy : ys <+: input) (ht : asks t = false) :
    ∃ zs, xs = ys ++ zs ∧ Follows asks move u zs t := by
  induction ys generalizing s xs input with
  | nil => exact ⟨xs, rfl, by rw [← show s = u from h']; exact h⟩
  | cons b ys ih =>
    cases xs with
    | nil =>
      rw [← show s = t from h, h'.1] at ht
      cases ht
    | cons c xs =>
      obtain ⟨rest, rfl⟩ := hy
      obtain ⟨rfl, hx'⟩ := List.cons_prefix_cons.mp hx
      obtain ⟨zs, rfl, hz⟩ := ih h.2 h'.2 hx' (List.prefix_append _ _)
      exact ⟨zs, rfl, hz⟩

/-- The rest of a run, once a part of it was followed. -/
theorem of_append {s t u : σ} {xs ys : List β} (h : Follows asks move s xs t)
    (h' : Follows asks move s (xs ++ ys) u) : Follows asks move t ys u := by
  induction xs generalizing s with
  | nil => rw [← show s = t from h]; exact h'
  | cons b bs ih => exact ih h.2 h'.2

/-- A run that is cut off leaves a state that still asks. -/
theorem cut {s u : σ} {xs ys : List β} (h : Follows asks move s (xs ++ ys) u) (hne : ys ≠ []) :
    ∃ t, Follows asks move s xs t ∧ asks t = true := by
  induction xs generalizing s with
  | nil =>
    cases ys with
    | nil => exact absurd rfl hne
    | cons y ys => exact ⟨s, rfl, h.1⟩
  | cons x xs ih =>
    obtain ⟨t, ht, hasks⟩ := ih h.2
    exact ⟨t, ⟨h.1, ht⟩, hasks⟩

theorem eq_nil {s t : σ} {bs : List β} (h : Follows asks move s bs t) (hs : asks s = false) :
    bs = [] ∧ s = t := by
  cases bs with
  | nil => exact ⟨rfl, h⟩
  | cons b bs => rw [h.1] at hs; cases hs

theorem unique {s t u : σ} {xs ys input : List β} (h : Follows asks move s xs t)
    (h' : Follows asks move s ys u) (hx : xs <+: input) (hy : ys <+: input) (ht : asks t = false)
    (hu : asks u = false) : xs = ys ∧ t = u := by
  obtain ⟨zs, rfl, hz⟩ := h.split h' hx hy ht
  obtain ⟨rfl, rfl⟩ := hz.eq_nil hu
  exact ⟨List.append_nil _, rfl⟩

/-- Items that leave a machine asking have no prefix that ends its run. -/
theorem not_prefix {s t u : σ} {xs ys : List β} (h : Follows asks move s xs t)
    (h' : Follows asks move s ys u) (ht : asks t = true) (hu : asks u = false) : ¬ ys <+: xs := by
  intro hp
  obtain ⟨zs, hzs, hz⟩ := h'.split h hp List.prefix_rfl hu
  obtain rfl : zs = [] := by
    have := hp.length_le
    rw [hzs, List.length_append] at this
    exact List.length_eq_zero_iff.mp (by omega)
  rw [show t = u from hz, hu] at ht
  cases ht

/-- A state in which the first item leads to the same place can take its place. -/
theorem of_move_eq {s s' t : σ} {b : β} {input bs : List β} (h : Follows asks move s' bs t)
    (ha : asks s = true) (hb : move s b = move s' b) (hp : bs <+: b :: input) (hne : bs ≠ []) :
    Follows asks move s bs t := by
  cases bs with
  | nil => exact absurd rfl hne
  | cons c bs =>
    obtain rfl : c = b := (List.cons_prefix_cons.mp hp).1
    exact ⟨ha, by rw [hb]; exact h.2⟩

end Follows

end GzipStream
