import Mathlib

/-! # Lists held in a ring of slots

A ring of `w` slots holds the items numbered `base + 1, base + 2, …` at the slots their numbers
select modulo `w`. As long as there are at most `w` of them no two share a slot.
-/

namespace Ludlc.Ring

variable {w : Nat} [NeZero w] {α : Type}

/-- The slot that the item numbered `x` is kept in. -/
def slot (w x : Nat) [NeZero w] : Fin w := ⟨x % w, Nat.mod_lt x (NeZero.pos w)⟩

/-- The items numbered `base + 1` and on are `items`. -/
def Holds (q : Fin w → α) (base : Nat) (items : List α) : Prop :=
  ∀ j, (h : j < items.length) → q (slot w (base + 1 + j)) = items[j]

theorem slot_injOn {base i j : Nat} (hi : i < w) (hj : j < w)
    (h : slot w (base + i) = slot w (base + j)) : i = j := by
  have hmod : (base + i) % w = (base + j) % w := congrArg Fin.val h
  have hij : i % w = j % w := Nat.ModEq.add_left_cancel' base hmod
  rwa [Nat.mod_eq_of_lt hi, Nat.mod_eq_of_lt hj] at hij

@[simp] theorem holds_nil (q : Fin w → α) (base : Nat) : Holds q base [] := by
  intro j h
  cases h

theorem Holds.drop {q : Fin w → α} {base : Nat} {items : List α} (h : Holds q base items)
    {k : Nat} (hk : k ≤ items.length) : Holds q (base + k) (items.drop k) := by
  intro j hj
  rw [List.length_drop] at hj
  rw [List.getElem_drop, ← h (k + j) (by omega)]
  congr 2
  omega

theorem Holds.prefix {q : Fin w → α} {base : Nat} {items rest : List α}
    (h : Holds q base (items ++ rest)) : Holds q base items := by
  intro j hj
  rw [h j (by simp; omega), List.getElem_append_left hj]

theorem Holds.head {q : Fin w → α} {base : Nat} {items rest : List α} {x : α}
    (h : Holds q base (items ++ x :: rest)) : q (slot w (base + items.length + 1)) = x := by
  have := h items.length (by simp)
  rw [List.getElem_append_right (le_refl _)] at this
  simp only [Nat.sub_self, List.getElem_cons_zero] at this
  rw [← this]
  congr 2
  omega

theorem Holds.update {q : Fin w → α} {base : Nat} {items rest : List α} {x : α}
    (h : Holds q base (items ++ x :: rest)) (hw : (items ++ x :: rest).length ≤ w) (y : α) :
    Holds (Function.update q (slot w (base + items.length + 1)) y) base (items ++ y :: rest) := by
  intro j hj
  simp only [List.length_append, List.length_cons] at hj hw
  by_cases he : j = items.length
  · subst he
    rw [show base + 1 + items.length = base + items.length + 1 by omega]
    simp
  · have hne : slot w (base + 1 + j) ≠ slot w (base + items.length + 1) := by
      intro heq
      rw [show base + items.length + 1 = base + 1 + items.length by omega] at heq
      exact he (slot_injOn (by omega) (by omega) heq)
    rw [Function.update_of_ne hne, h j (by simp; omega)]
    simp only [List.getElem_append]
    split
    · rfl
    · rw [List.getElem_cons, List.getElem_cons]
      split
      · omega
      · rfl

theorem Holds.push {q : Fin w → α} {base : Nat} {items : List α} (h : Holds q base items)
    (hw : items.length < w) (x : α) :
    Holds (Function.update q (slot w (base + items.length + 1)) x) base (items ++ [x]) := by
  intro j hj
  simp only [List.length_append, List.length_cons, List.length_nil] at hj
  by_cases he : j = items.length
  · subst he
    rw [show base + 1 + items.length = base + items.length + 1 by omega]
    simp
  · have hne : slot w (base + 1 + j) ≠ slot w (base + items.length + 1) := by
      intro heq
      rw [show base + items.length + 1 = base + 1 + items.length by omega] at heq
      exact he (slot_injOn (by omega) hw heq)
    rw [Function.update_of_ne hne, h j (by omega), List.getElem_append_left (by omega)]

/-- Moves the items numbered `x + 1` to `x + n` down one number each, lowest first. -/
def shiftDown (q : Fin w → α) (x : Nat) : Nat → Fin w → α
  | 0 => q
  | n + 1 => shiftDown (Function.update q (slot w x) (q (slot w (x + 1)))) (x + 1) n

/-- An item is taken out of the middle, and those behind it close up. -/
theorem Holds.shiftDown {q : Fin w → α} {base : Nat} {items rest : List α} {x : α}
    (h : Holds q base (items ++ x :: rest)) (hw : (items ++ x :: rest).length ≤ w) :
    Holds (shiftDown q (base + items.length + 1) rest.length) base (items ++ rest) := by
  induction rest generalizing q items x with
  | nil => simpa [Ring.shiftDown] using h.prefix
  | cons y rest ih =>
    have hcons : Holds q base ((items ++ [x]) ++ y :: rest) := by simpa using h
    have hy : q (slot w (base + items.length + 1 + 1)) = y := by
      simpa [Nat.add_assoc, Nat.add_comm, Nat.add_left_comm] using hcons.head
    have hstep : Holds (Function.update q (slot w (base + items.length + 1)) y) base
        ((items ++ [y]) ++ y :: rest) := by simpa using h.update hw y
    rw [List.length_cons, Ring.shiftDown, hy]
    simpa [Nat.add_assoc] using ih hstep (by simpa using hw)

end Ludlc.Ring
