import Mathlib

/-! # Bits kept in words

A row of words of `b` bits each, as one row of bits. A bit is set or cleared in the word it lies in and
leaves the other bits of the row alone.
-/

namespace Ludlc.Words

variable {n b : Nat}

/-- Bit `i` of the row, which is clear past its end. -/
def bit (ws : Fin n → BitVec b) (i : Nat) : Bool :=
  if h : i / b < n then (ws ⟨i / b, h⟩).getLsbD (i % b) else false

/-- The mask of bit `i` in its word. -/
def mask (b i : Nat) : BitVec b := BitVec.twoPow b (i % b)

def setBit (ws : Fin n → BitVec b) (i : Nat) (h : i / b < n) : Fin n → BitVec b :=
  Function.update ws ⟨i / b, h⟩ (ws ⟨i / b, h⟩ ||| mask b i)

def clearBit (ws : Fin n → BitVec b) (i : Nat) (h : i / b < n) : Fin n → BitVec b :=
  Function.update ws ⟨i / b, h⟩ (ws ⟨i / b, h⟩ &&& ~~~mask b i)

/-- The number of the first clear bit of a word, or its size if there is none. -/
def firstClear (v : BitVec b) : Nat := if ~~~v = 0 then b else (~~~v).ctz.toNat

theorem bit_word (ws : Fin n → BitVec b) (w : Fin n) {j : Nat} (h : j < b) :
    bit ws (w * b + j) = (ws w).getLsbD j := by
  have hdiv : (w * b + j) / b = w := by
    rw [Nat.mul_comm, Nat.mul_add_div (by omega), Nat.div_eq_of_lt h, Nat.add_zero]
  have hmod : (w * b + j) % b = j := by
    rw [Nat.mul_comm, Nat.mul_add_mod, Nat.mod_eq_of_lt h]
  simp only [bit, hdiv, hmod, w.isLt, dif_pos, Fin.eta]

theorem bit_update (ws : Fin n → BitVec b) (w : Fin n) (v : BitVec b) {j : Nat} (h : j / b ≠ w) :
    bit (Function.update ws w v) j = bit ws j := by
  unfold bit
  split
  next hj =>
    rw [Function.update_of_ne]
    exact fun heq => h (congrArg Fin.val heq)
  next => rfl

theorem getLsbD_mask (hb : 0 < b) (i j : Nat) (hdiv : i / b = j / b) :
    (mask b i).getLsbD (j % b) = decide (i = j) := by
  rw [mask, BitVec.getLsbD_twoPow]
  have hi := Nat.div_add_mod i b
  have hj := Nat.div_add_mod j b
  rw [hdiv] at hi
  have hlt := Nat.mod_lt i hb
  have hiff : i % b = j % b ↔ i = j := by
    constructor
    · intro h
      omega
    · rintro rfl
      rfl
  simp [hlt, hiff]

theorem bit_setBit (hb : 0 < b) (ws : Fin n → BitVec b) {i : Nat} (h : i / b < n) (j : Nat) :
    bit (setBit ws i h) j = (bit ws j || decide (i = j)) := by
  by_cases hdiv : i / b = j / b
  · have hj : j / b < n := hdiv ▸ h
    simp only [bit, setBit, hj, dif_pos, hdiv, Function.update_self, BitVec.getLsbD_or,
      getLsbD_mask hb i j hdiv]
  · have hne : i ≠ j := fun heq => hdiv (heq ▸ rfl)
    rw [setBit, bit_update ws ⟨i / b, h⟩ _ (Ne.symm hdiv)]
    simp [hne]

theorem bit_clearBit (hb : 0 < b) (ws : Fin n → BitVec b) {i : Nat} (h : i / b < n) (j : Nat) :
    bit (clearBit ws i h) j = (bit ws j && decide (i ≠ j)) := by
  by_cases hdiv : i / b = j / b
  · have hj : j / b < n := hdiv ▸ h
    have hlt : j % b < b := Nat.mod_lt j hb
    simp only [bit, clearBit, hj, dif_pos, hdiv, Function.update_self, BitVec.getLsbD_and,
      BitVec.getLsbD_not, getLsbD_mask hb i j hdiv, hlt, decide_true, Bool.true_and, decide_not]
  · have hne : i ≠ j := fun heq => hdiv (heq ▸ rfl)
    rw [clearBit, bit_update ws ⟨i / b, h⟩ _ (Ne.symm hdiv)]
    simp [hne]

theorem and_mask (hb : 0 < b) (ws : Fin n → BitVec b) {i : Nat} (h : i / b < n) :
    ws ⟨i / b, h⟩ &&& mask b i ≠ 0 ↔ bit ws i = true := by
  rw [bit, dif_pos h, mask, BitVec.and_twoPow]
  cases hbit : (ws ⟨i / b, h⟩).getLsbD (i % b) with
  | true =>
    have hset : BitVec.twoPow b (i % b) ≠ 0 := by
      intro heq
      have hone := congrArg (·.getLsbD (i % b)) heq
      simp [Nat.mod_lt i hb] at hone
    simpa using hset
  | false => simp

/-- A word's trailing zeros are those of the word made wider. -/
theorem ctz_setWidth {m : Nat} {v : BitVec b} (hv : v ≠ 0) (h : b ≤ m) :
    (v.setWidth m).ctz.toNat = v.ctz.toNat := by
  have hbit : ∀ i, (v.setWidth m).getLsbD i = v.getLsbD i := by
    intro i
    rw [BitVec.getLsbD_setWidth, Bool.and_eq_right_iff_imp]
    intro hi
    exact decide_eq_true ((BitVec.lt_of_getLsbD hi).trans_le h)
  have hwide : v.setWidth m ≠ 0 := by
    intro heq
    refine hv (BitVec.eq_of_getLsbD_eq fun i _ => ?_)
    rw [← hbit, heq]
    simp
  have hlast := BitVec.getLsbD_true_ctz_of_ne_zero hv
  have hlast' := BitVec.getLsbD_true_ctz_of_ne_zero hwide
  rcases Nat.lt_trichotomy (v.setWidth m).ctz.toNat v.ctz.toNat with hlt | heq | hlt
  · rw [hbit, BitVec.getLsbD_false_of_lt_ctz hlt] at hlast'
    cases hlast'
  · exact heq
  · rw [← hbit, BitVec.getLsbD_false_of_lt_ctz hlt] at hlast
    cases hlast

theorem firstClear_le (v : BitVec b) : firstClear v ≤ b := by
  unfold firstClear
  split
  · exact le_refl b
  next h =>
    have hlt := BitVec.ctz_lt_iff_ne_zero.mpr h
    rw [BitVec.lt_def] at hlt
    exact (hlt.trans_le (by simp)).le

theorem getLsbD_of_lt_firstClear {v : BitVec b} {i : Nat} (h : i < firstClear v) :
    v.getLsbD i = true := by
  have hi : i < b := h.trans_le (firstClear_le v)
  unfold firstClear at h
  split at h
  next hfull =>
    have hbit : (~~~v).getLsbD i = false := by simp [hfull]
    simpa [hi] using hbit
  next =>
    have hbit := BitVec.getLsbD_false_of_lt_ctz h
    simpa [hi] using hbit

theorem getLsbD_firstClear {v : BitVec b} (h : firstClear v < b) : v.getLsbD (firstClear v) = false := by
  unfold firstClear at h ⊢
  split at h
  · omega
  next hfree =>
    rw [if_neg hfree]
    have hbit := BitVec.getLsbD_true_ctz_of_ne_zero hfree
    rw [BitVec.getLsbD_not, Bool.and_eq_true] at hbit
    simpa using hbit.2

end Ludlc.Words
