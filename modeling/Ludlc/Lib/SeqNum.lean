import Mathlib

/-! # Sequence numbers that wrap

A counter runs without bound, and what travels is the counter cut to `n` bits. The subtraction
of two cut counters gives back their distance, forwards or backwards, as long as the counters
themselves are less than one turn apart. Everything here is stated from the unbounded counters.
-/

namespace Ludlc.SeqNum

/-- The `n` bits that travel of the counter `x`. -/
def wrap (n x : Nat) : BitVec n := BitVec.ofNat n x

@[simp] theorem wrap_toNat (n x : Nat) : (wrap n x).toNat = x % 2 ^ n := by
  simp [wrap]

@[simp] theorem wrap_zero (n : Nat) : wrap n 0 = 0 := rfl

@[simp] theorem wrap_add_one (n x : Nat) : wrap n x + 1 = wrap n (x + 1) := by
  simp only [wrap, BitVec.ofNat_add]
  rfl

theorem wrap_sub_one (n : Nat) {x : Nat} (h : 0 < x) : wrap n x - 1 = wrap n (x - 1) := by
  obtain ⟨y, rfl⟩ := Nat.exists_eq_succ_of_ne_zero h.ne'
  rw [Nat.succ_eq_add_one, ← wrap_add_one]
  simp

/-- A counter at or past `x`, less than a turn away: the distance forwards. -/
theorem sub_of_le {n x y : Nat} (h : x ≤ y) (hn : y - x < 2 ^ n) :
    (wrap n y - wrap n x).toNat = y - x := by
  obtain ⟨d, rfl⟩ := Nat.exists_eq_add_of_le h
  rw [Nat.add_sub_cancel_left] at hn ⊢
  simp only [wrap, BitVec.ofNat_add, add_sub_cancel_left, BitVec.toNat_ofNat]
  exact Nat.mod_eq_of_lt hn

/-- A counter behind `y`, at most a turn away: what is left of the turn. -/
theorem sub_of_lt {n x y : Nat} (h : x < y) (hn : y - x ≤ 2 ^ n) :
    (wrap n x - wrap n y).toNat = 2 ^ n - (y - x) := by
  obtain ⟨d, rfl⟩ := Nat.exists_eq_add_of_le h.le
  have hd : 0 < d := by omega
  rw [Nat.add_sub_cancel_left] at hn ⊢
  have hturn : wrap n x = wrap n (x + d + (2 ^ n - d)) := by
    rw [Nat.add_assoc, Nat.add_sub_cancel' hn]
    apply BitVec.eq_of_toNat_eq
    simp
  rw [hturn, sub_of_le (Nat.le_add_right _ _) (by omega)]
  omega

/-- Cut counters less than a turn apart are equal only when the counters are. -/
theorem wrap_inj {n x y : Nat} (hxy : x < y + 2 ^ n) (hyx : y < x + 2 ^ n) :
    wrap n x = wrap n y ↔ x = y := by
  refine ⟨fun h => ?_, fun h => h ▸ rfl⟩
  have hzero : (wrap n x - wrap n y).toNat = 0 := by simp [h]
  rcases Nat.lt_trichotomy x y with hlt | heq | hgt
  · rw [sub_of_lt hlt (by omega)] at hzero
    omega
  · exact heq
  · rw [sub_of_le hgt.le (by omega)] at hzero
    omega

theorem wrap_toNat_mod {n w : Nat} (hw : w ∣ 2 ^ n) (x : Nat) :
    (wrap n x).toNat % w = x % w := by
  rw [wrap_toNat, Nat.mod_mod_of_dvd x hw]

end Ludlc.SeqNum
