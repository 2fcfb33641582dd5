import Mathlib

/-! # A sliding window over a line that loses

A sender keeps the items behind those acknowledged, a receiver takes them one after the other, and the
copies between them keep their order and may be lost. Places are counted without bound, and a copy has the
place its item had when it was sent. An item may be taken out of the window, and those behind it then move
up a place.
-/

namespace Ludlc.Sliding

variable {α : Type} {w : Nat} {done win got : List α} {flight : List (Nat × α)} {acks : List Nat}

/-- The copies from the first on that the receiver would take, which has taken `n` items. -/
def live (n : Nat) (flight : List (Nat × α)) : List (Nat × α) :=
  flight.dropWhile fun p => decide (p.1 ≠ n)

@[simp] theorem live_nil (n : Nat) : live n ([] : List (Nat × α)) = [] := rfl

theorem live_sublist (n : Nat) (flight : List (Nat × α)) : (live n flight).Sublist flight :=
  List.dropWhile_sublist _

theorem live_cons_ne {n : Nat} {p : Nat × α} (h : p.1 ≠ n) : live n (p :: flight) = live n flight :=
  List.dropWhile_cons_of_pos (decide_eq_true h)

theorem live_cons_eq (x : α) (n : Nat) : live n ((n, x) :: flight) = (n, x) :: flight :=
  List.dropWhile_cons_of_neg (by simp)

theorem live_append {n : Nat} {p q : Nat × α} (h : q ∈ live n (flight ++ [p])) :
    q ∈ live n flight ∨ q = p := by
  induction flight with
  | nil => exact .inr (List.mem_singleton.mp ((live_sublist n [p]).mem h))
  | cons a flight ih =>
    rcases eq_or_ne a.1 n with rfl | hne
    · obtain ⟨i, x⟩ := a
      rw [live_cons_eq]
      rw [List.cons_append, live_cons_eq, ← List.cons_append, List.mem_append] at h
      exact h.imp id List.mem_singleton.mp
    · rw [List.cons_append, live_cons_ne hne] at h
      rw [live_cons_ne hne]
      exact ih h

theorem live_of_sublist (n : Nat) {flight' : List (Nat × α)} (h : flight'.Sublist flight) :
    (live n flight').Sublist (live n flight) := by
  induction h with
  | slnil => exact .slnil
  | @cons l l' a hsub ih =>
    rcases eq_or_ne a.1 n with rfl | hne
    · obtain ⟨i, x⟩ := a
      rw [live_cons_eq]
      exact ((live_sublist i l).trans hsub).cons _
    · rwa [live_cons_ne hne]
  | @cons_cons l l' a hsub ih =>
    rcases eq_or_ne a.1 n with rfl | hne
    · obtain ⟨i, x⟩ := a
      rw [live_cons_eq, live_cons_eq]
      exact hsub.cons_cons _
    · rwa [live_cons_ne hne, live_cons_ne hne]

theorem live_eq_nil {n : Nat} (h : ∀ p ∈ flight, p.1 ≠ n) : live n flight = [] :=
  List.dropWhile_eq_nil_iff.mpr fun p hp => decide_eq_true (h p hp)

/-- `done` has been acknowledged and `win` is behind it; `got` has been taken by the receiver, `flight`
is on its way with the place of each, and `acks` is on the way back, each saying how many had been taken.
`w` bounds the window. -/
structure Sound (w : Nat) (done win got : List α) (flight : List (Nat × α)) (acks : List Nat) :
    Prop where
  held : done <+: got
  known : got <+: done ++ win
  current : ∀ p ∈ live got.length flight, (done ++ win)[p.1]? = some p.2
  ahead : ∀ p ∈ flight, p.1 < done.length + w
  behind : ∀ p ∈ flight, got.length ≤ p.1 + w
  order : flight.Pairwise fun p p' => p.1 < p'.1 + w
  sorted : acks.Pairwise (· ≤ ·)
  acked : ∀ k ∈ acks, done.length ≤ k ∧ k ≤ got.length

theorem sound_nil : Sound w ([] : List α) [] [] [] [] where
  held := List.nil_prefix
  known := List.nil_prefix
  current := by simp
  ahead := by simp
  behind := by simp
  order := .nil
  sorted := .nil
  acked := by simp

namespace Sound

variable (h : Sound w done win got flight acks)

include h

theorem length_le : done.length ≤ got.length ∧ got.length ≤ done.length + win.length :=
  ⟨h.held.length_le, by simpa using h.known.length_le⟩

/-- An item more in the window. -/
theorem push (x : α) : Sound w done (win ++ [x]) got flight acks where
  held := h.held
  known := by
    rw [← List.append_assoc]
    exact h.known.trans (List.prefix_append _ _)
  current := by
    intro p hp
    have hat := h.current p hp
    have hlt := (List.getElem?_eq_some_iff.mp hat).1
    rw [← List.append_assoc, List.getElem?_append_left hlt, hat]
  ahead := h.ahead
  behind := h.behind
  order := h.order
  sorted := h.sorted
  acked := h.acked

/-- A copy is sent of an item of the window. -/
theorem send {i : Nat} {x : α} (hroom : win.length ≤ w) (hx : win[i]? = some x) :
    Sound w done win got (flight ++ [(done.length + i, x)]) acks where
  held := h.held
  known := h.known
  current := by
    intro p hp
    rcases live_append hp with hp | rfl
    · exact h.current p hp
    · rw [List.getElem?_append_right (Nat.le_add_right _ _), Nat.add_sub_cancel_left, hx]
  ahead := by
    have hlt := (List.getElem?_eq_some_iff.mp hx).1
    intro p hp
    rcases List.mem_append.mp hp with hp | hp
    · exact h.ahead p hp
    · rw [List.mem_singleton.mp hp]
      dsimp only
      omega
  behind := by
    have hle := h.length_le
    intro p hp
    rcases List.mem_append.mp hp with hp | hp
    · exact h.behind p hp
    · rw [List.mem_singleton.mp hp]
      dsimp only
      omega
  order := by
    rw [List.pairwise_append]
    refine ⟨h.order, List.pairwise_singleton _ _, fun p hp p' hp' => ?_⟩
    have := h.ahead p hp
    rw [List.mem_singleton.mp hp']
    dsimp only
    omega
  sorted := h.sorted
  acked := h.acked

/-- The receiver says how many it has taken. -/
theorem say : Sound w done win got flight (acks ++ [got.length]) where
  held := h.held
  known := h.known
  current := h.current
  ahead := h.ahead
  behind := h.behind
  order := h.order
  sorted := by
    rw [List.pairwise_append]
    refine ⟨h.sorted, List.pairwise_singleton _ _, fun k hk k' hk' => ?_⟩
    rw [List.mem_singleton.mp hk']
    exact (h.acked k hk).2
  acked := by
    intro k hk
    rcases List.mem_append.mp hk with hk | hk
    · exact h.acked k hk
    · rw [List.mem_singleton.mp hk]
      exact ⟨h.held.length_le, le_refl _⟩

/-- Copies and acknowledgements are lost. -/
theorem lose {flight' : List (Nat × α)} {acks' : List Nat} (hflight : flight'.Sublist flight)
    (hacks : acks'.Sublist acks) : Sound w done win got flight' acks' where
  held := h.held
  known := h.known
  current p hp := h.current p ((live_of_sublist _ hflight).mem hp)
  ahead p hp := h.ahead p (hflight.mem hp)
  behind p hp := h.behind p (hflight.mem hp)
  order := h.order.sublist hflight
  sorted := h.sorted.sublist hacks
  acked k hk := h.acked k (hacks.mem hk)

/-- The receiver takes the copy it waits for. -/
theorem take {x : α} {rest : List (Nat × α)} (hf : flight = (got.length, x) :: rest) :
    Sound w done win (got ++ [x]) rest acks := by
  have hcurrent := h.current
  have horder := h.order
  rw [hf, List.pairwise_cons] at horder
  rw [hf, live_cons_eq] at hcurrent
  have hx := hcurrent _ List.mem_cons_self
  refine ⟨h.held.trans (List.prefix_append _ _), ?_, ?_, ?_, ?_, horder.2, h.sorted, ?_⟩
  · have hlt := (List.getElem?_eq_some_iff.mp hx).1
    have htake := List.take_succ_eq_append_getElem hlt
    rw [(List.getElem?_eq_some_iff.mp hx).2, ← List.prefix_iff_eq_take.mp h.known] at htake
    rw [← htake]
    exact List.take_prefix _ _
  · intro p hp
    exact hcurrent p (List.mem_cons_of_mem _ ((live_sublist _ _).mem hp))
  · intro p hp
    exact h.ahead p (hf ▸ List.mem_cons_of_mem _ hp)
  · intro p hp
    have := horder.1 p hp
    rw [List.length_append, List.length_singleton]
    dsimp only at this
    omega
  · intro k hk
    have := h.acked k hk
    rw [List.length_append]
    omega

/-- A copy that the receiver does not take. -/
theorem pass {p : Nat × α} {rest : List (Nat × α)} (hf : flight = p :: rest) :
    Sound w done win got rest acks :=
  h.lose (hf ▸ List.sublist_cons_self p rest) (List.Sublist.refl _)

/-- The first `k` are acknowledged. -/
theorem ack {k : Nat} {rest : List Nat} (ha : acks = k :: rest) :
    Sound w (done ++ win.take (k - done.length)) (win.drop (k - done.length)) got flight rest := by
  obtain ⟨hle, hgot⟩ := h.acked k (ha ▸ List.mem_cons_self)
  have hsorted := h.sorted
  rw [ha, List.pairwise_cons] at hsorted
  have hlen := h.length_le
  have hall : done ++ win.take (k - done.length) ++ win.drop (k - done.length) = done ++ win := by
    rw [List.append_assoc, List.take_append_drop]
  have hk : (done ++ win.take (k - done.length)).length = k := by
    rw [List.length_append, List.length_take]
    omega
  constructor
  · apply List.prefix_of_prefix_length_le _ h.known (by omega)
    exact hall ▸ List.prefix_append _ _
  · rw [hall]
    exact h.known
  · rw [hall]
    exact h.current
  · intro p hp
    have := h.ahead p hp
    omega
  · exact h.behind
  · exact h.order
  · exact hsorted.2
  · intro k' hk'
    rw [hk]
    exact ⟨hsorted.1 k' hk', (h.acked k' (ha ▸ List.mem_cons_of_mem _ hk')).2⟩

/-- While the receiver has nothing of the window, and no copy of its first item can reach it any more,
items may be taken out. -/
theorem giveUp {win' : List α} (hgot : got.length = done.length)
    (hgone : ∀ p ∈ flight, p.1 ≠ done.length) : Sound w done win' got flight acks where
  held := h.held
  known := by
    rw [h.held.eq_of_length hgot.symm]
    exact List.prefix_append _ _
  current := by
    rw [hgot, live_eq_nil hgone]
    simp
  ahead := h.ahead
  behind := h.behind
  order := h.order
  sorted := h.sorted
  acked := h.acked

end Sound

end Ludlc.Sliding
