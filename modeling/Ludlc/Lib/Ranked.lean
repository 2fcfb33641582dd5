import Mathlib

/-! # Steps that descend

A step that can always be taken leaves the state as it is or lowers a rank. So a run whose parts each
take some step that moves has as many parts at most as the rank it starts from.
-/

namespace Ludlc.Runs

variable {σ α : Type}

/-- As long as `Inv` holds, a step that moves lowers `rank`. -/
structure Descent (step : σ → α → σ) where
  Inv : σ → Prop
  rank : σ → Nat
  keeps : ∀ {s}, Inv s → ∀ a, Inv (step s a)
  descends : ∀ {s}, Inv s → ∀ a, step s a = s ∨ rank (step s a) < rank s

namespace Descent

variable {step : σ → α → σ} (D : Descent step)

theorem foldl_inv (l : List α) {s : σ} (h : D.Inv s) : D.Inv (l.foldl step s) := by
  induction l generalizing s with
  | nil => exact h
  | cons a l ih => exact ih (D.keeps h a)

theorem foldl_le (l : List α) {s : σ} (h : D.Inv s) : D.rank (l.foldl step s) ≤ D.rank s := by
  induction l generalizing s with
  | nil => exact le_refl _
  | cons a l ih =>
    apply (ih (D.keeps h a)).trans
    rcases D.descends h a with hsame | hlower
    · rw [hsame]
    · exact hlower.le

/-- One step that moves is enough: those before it that do not leave it as it is. -/
theorem foldl_lt (l : List α) {s : σ} (h : D.Inv s) (hmoves : ∃ a ∈ l, step s a ≠ s) :
    D.rank (l.foldl step s) < D.rank s := by
  induction l generalizing s with
  | nil =>
    obtain ⟨a, ha, -⟩ := hmoves
    cases ha
  | cons a l ih =>
    rcases D.descends h a with hsame | hlower
    · obtain ⟨a', ha', hmove⟩ := hmoves
      rw [List.foldl_cons, hsame]
      apply ih h
      rcases List.mem_cons.mp ha' with rfl | ha'
      · exact absurd hsame hmove
      · exact ⟨a', ha', hmove⟩
    · exact (D.foldl_le l (D.keeps h a)).trans_lt hlower

/-- After as many parts as the rank there is nowhere to descend to. -/
theorem foldl_zero {good : List α → Prop}
    (hlive : ∀ {s l}, D.Inv s → 0 < D.rank s → good l → ∃ a ∈ l, step s a ≠ s) (ls : List (List α))
    {s : σ} (h : D.Inv s) (hls : ∀ l ∈ ls, good l) (hlen : D.rank s ≤ ls.length) :
    D.rank (ls.flatten.foldl step s) = 0 := by
  induction ls generalizing s with
  | nil => exact Nat.eq_zero_of_le_zero hlen
  | cons l ls ih =>
    rw [List.flatten_cons, List.foldl_append]
    apply ih (D.foldl_inv l h) fun l' hl' => hls l' (List.mem_cons_of_mem l hl')
    rcases Nat.eq_zero_or_pos (D.rank s) with hzero | hpos
    · have := D.foldl_le l h
      omega
    · have := D.foldl_lt l h (hlive h hpos (hls l List.mem_cons_self))
      rw [List.length_cons] at hlen
      omega

end Descent

end Ludlc.Runs
