import Mathlib

/-! # Division in a shift register

A register that moves towards its low end and feeds a polynomial back when a one leaves it, the bits of a
message being added where they leave. Everything is linear in exclusive or, so what becomes of an error
does not depend on the message it is in, and a register that feeds back to its top bit forgets no burst
that fits it.
-/

namespace Ludlc.Lfsr

variable {b : Nat} (poly : BitVec b)

/-- One place down, with feedback. -/
def shift (r : BitVec b) : BitVec b :=
  if r.getLsbD 0 then (r >>> 1) ^^^ poly else r >>> 1

/-- A bit in the low place of a register. -/
def bit (x : Bool) : BitVec b := if x then 1 else 0

/-- A bit of the message is added, and the register moves. -/
def feed (r : BitVec b) (x : Bool) : BitVec b := shift poly (r ^^^ bit x)

/-- The bits in a register, the first in the low place. -/
def value : List Bool → BitVec b
  | [] => 0
  | x :: l => bit x ^^^ (value l <<< 1)

theorem shift_zero : shift poly (0 : BitVec b) = 0 := by simp [shift]

theorem shift_xor (r s : BitVec b) : shift poly (r ^^^ s) = shift poly r ^^^ shift poly s := by
  have hcancel : ∀ x y : BitVec b, x ^^^ poly ^^^ (y ^^^ poly) = x ^^^ y := by
    intro x y
    rw [BitVec.xor_assoc, BitVec.xor_comm y, ← BitVec.xor_assoc poly, BitVec.xor_self,
      BitVec.zero_xor]
  simp only [shift, BitVec.getLsbD_xor, BitVec.ushiftRight_xor_distrib]
  cases r.getLsbD 0 with
  | false =>
    cases s.getLsbD 0 with
    | false => rfl
    | true => exact BitVec.xor_assoc _ _ _
  | true =>
    cases s.getLsbD 0 with
    | false =>
      change r >>> 1 ^^^ s >>> 1 ^^^ poly = r >>> 1 ^^^ poly ^^^ s >>> 1
      rw [BitVec.xor_assoc, BitVec.xor_comm (s >>> 1), ← BitVec.xor_assoc]
    | true => exact (hcancel _ _).symm

theorem iterate_shift_zero (n : Nat) : (shift poly)^[n] (0 : BitVec b) = 0 := by
  induction n with
  | zero => rfl
  | succ n ih => rw [Function.iterate_succ_apply, shift_zero, ih]

/-! ## Messages -/

theorem bit_xor (x y : Bool) : (bit (x ^^ y) : BitVec b) = bit x ^^^ bit y := by
  cases x <;> cases y <;> simp [bit]

theorem feed_xor (r s : BitVec b) (x y : Bool) :
    feed poly (r ^^^ s) (x ^^ y) = feed poly r x ^^^ feed poly s y := by
  rw [feed, feed, feed, ← shift_xor, bit_xor]
  congr 1
  rw [BitVec.xor_assoc, BitVec.xor_assoc, ← BitVec.xor_assoc s, BitVec.xor_comm s, BitVec.xor_assoc]

/-- An error is carried along beside the message. -/
theorem foldl_feed_xor (l k : List Bool) (h : l.length = k.length) (r s : BitVec b) :
    (List.zipWith xor l k).foldl (feed poly) (r ^^^ s) =
      l.foldl (feed poly) r ^^^ k.foldl (feed poly) s := by
  induction l generalizing k r s with
  | nil =>
    obtain rfl := List.eq_nil_of_length_eq_zero h.symm
    rfl
  | cons x l ih =>
    cases k with
    | nil => cases h
    | cons y k =>
      rw [List.zipWith_cons_cons, List.foldl_cons, feed_xor, ih k (Nat.succ.inj h)]
      rfl

theorem bit_toNat (x : Bool) (hb : 0 < b) : (bit x : BitVec b).toNat = x.toNat := by
  have hpow : 2 ≤ 2 ^ b := by
    calc 2 = 2 ^ 1 := rfl
      _ ≤ 2 ^ b := Nat.pow_le_pow_right (by decide) hb
  cases x with
  | false => simp [bit]
  | true =>
    have hone : (1 : BitVec b).toNat = 1 % 2 ^ b := rfl
    rw [bit, if_pos rfl, hone, Nat.mod_eq_of_lt (by omega)]
    rfl

/-- A message whose first bit is `x`. -/
theorem value_cons_toNat {l : List Bool} (x : Bool) (hlen : l.length < b)
    (hlt : (value l : BitVec b).toNat < 2 ^ l.length) :
    (value (x :: l) : BitVec b).toNat = 2 * (value l : BitVec b).toNat + x.toNat := by
  have hpow : 2 * 2 ^ l.length ≤ 2 ^ b := by
    rw [← Nat.pow_succ']
    exact Nat.pow_le_pow_right (by decide) hlen
  rw [value, BitVec.toNat_xor, bit_toNat x (by omega), BitVec.toNat_shiftLeft, Nat.shiftLeft_eq,
    Nat.mod_eq_of_lt (by omega), Nat.xor_comm, pow_one, Nat.mul_comm]
  cases x with
  | false => simp
  | true => exact Nat.xor_one_of_even (even_two_mul _)

theorem value_lt (l : List Bool) (h : l.length ≤ b) : (value l : BitVec b).toNat < 2 ^ l.length := by
  induction l with
  | nil => simp [value]
  | cons x l ih =>
    have hl := ih (Nat.le_of_succ_le h)
    rw [value_cons_toNat x h hl, List.length_cons, Nat.pow_succ']
    have hx := Bool.toNat_le x
    omega

theorem value_ne_zero {l : List Bool} (h : l.length ≤ b) (ht : true ∈ l) : (value l : BitVec b) ≠ 0 := by
  induction l with
  | nil => cases ht
  | cons x l ih =>
    intro hzero
    have hnat := congrArg BitVec.toNat hzero
    rw [value_cons_toNat x h (value_lt l (Nat.le_of_succ_le h))] at hnat
    have hz : (0 : BitVec b).toNat = 0 := rfl
    rw [hz] at hnat
    rcases List.mem_cons.mp ht with rfl | ht
    · simp at hnat
    · refine ih (Nat.le_of_succ_le h) ht (BitVec.eq_of_toNat_eq ?_)
      rw [hz]
      omega

/-- What was moved up comes down again. -/
theorem shift_shiftLeft {v : BitVec b} (h : 2 * v.toNat < 2 ^ b) : shift poly (v <<< 1) = v := by
  have hnat : (v <<< 1).toNat = 2 * v.toNat := by
    rw [BitVec.toNat_shiftLeft, Nat.shiftLeft_eq, pow_one, Nat.mul_comm, Nat.mod_eq_of_lt h]
  have hlow : (v <<< 1).getLsbD 0 = false := by
    rw [← BitVec.testBit_toNat, hnat, Nat.testBit_zero]
    simp
  rw [shift, if_neg (by rw [hlow]; exact Bool.false_ne_true)]
  apply BitVec.eq_of_toNat_eq
  rw [BitVec.toNat_ushiftRight, hnat, Nat.shiftRight_eq_div_pow, pow_one]
  omega

/-- Bits that fit the register may be added to it all at once. -/
theorem foldl_feed (l : List Bool) (h : l.length ≤ b) (r : BitVec b) :
    l.foldl (feed poly) r = (shift poly)^[l.length] (r ^^^ value l) := by
  induction l generalizing r with
  | nil => simp [value]
  | cons x l ih =>
    have hpow : 2 * 2 ^ l.length ≤ 2 ^ b := by
      rw [← Nat.pow_succ']
      exact Nat.pow_le_pow_right (by decide) h
    have hlt := value_lt (b := b) l (Nat.le_of_succ_le h)
    have hstep : shift poly (r ^^^ value (x :: l)) = feed poly r x ^^^ value l := by
      rw [value, ← BitVec.xor_assoc, shift_xor, shift_shiftLeft poly (by omega)]
      rfl
    rw [List.foldl_cons, ih (Nat.le_of_succ_le h), List.length_cons, Function.iterate_succ_apply,
      hstep]

/-! ## Bursts -/

/-- The polynomial feeds back to the top of `m` places. -/
structure Feedback (m : Nat) (poly : BitVec b) : Prop where
  pos : 0 < m
  fits : m ≤ b
  top : 2 ^ (m - 1) ≤ poly.toNat
  lt : poly.toNat < 2 ^ m

variable {poly}

theorem down_toNat (r : BitVec b) : (r >>> 1).toNat = r.toNat / 2 := by
  rw [BitVec.toNat_ushiftRight, Nat.shiftRight_eq_div_pow, pow_one]

theorem Feedback.shift_lt {m : Nat} (h : Feedback m poly) {r : BitVec b} (hlt : r.toNat < 2 ^ m) :
    (shift poly r).toNat < 2 ^ m := by
  have hdown := down_toNat r
  rw [shift]
  split
  · rw [BitVec.toNat_xor]
    exact Nat.xor_lt_two_pow (by omega) h.lt
  · omega

theorem Feedback.foldl_lt {m : Nat} (h : Feedback m poly) (l : List Bool) {r : BitVec b}
    (hlt : r.toNat < 2 ^ m) : (l.foldl (feed poly) r).toNat < 2 ^ m := by
  induction l generalizing r with
  | nil => exact hlt
  | cons x l ih =>
    apply ih
    apply h.shift_lt
    have hpow : 2 ≤ 2 ^ m := by
      calc 2 = 2 ^ 1 := rfl
        _ ≤ 2 ^ m := Nat.pow_le_pow_right (by decide) h.pos
    have hx := Bool.toNat_le x
    rw [BitVec.toNat_xor, bit_toNat x (h.pos.trans_le h.fits)]
    exact Nat.xor_lt_two_pow hlt (by omega)

/-- A register that is not empty does not run empty. -/
theorem Feedback.shift_ne_zero {m : Nat} (h : Feedback m poly) {r : BitVec b} (hr : r ≠ 0)
    (hlt : r.toNat < 2 ^ m) : shift poly r ≠ 0 := by
  have hdown := down_toNat r
  have hz : (0 : BitVec b).toNat = 0 := rfl
  have hpow : 2 ^ m = 2 * 2 ^ (m - 1) := by
    rw [← Nat.pow_succ', Nat.succ_eq_add_one, Nat.sub_add_cancel h.pos]
  have htop := h.top
  rw [shift]
  split
  · intro hzero
    have heq := congrArg BitVec.toNat (BitVec.xor_eq_zero_iff.mp hzero)
    omega
  · rename_i hlow
    refine fun hzero => hr (BitVec.eq_of_toNat_eq ?_)
    have hnat := congrArg BitVec.toNat hzero
    rw [← BitVec.testBit_toNat, Nat.testBit_zero, decide_eq_true_eq] at hlow
    rw [hz] at hnat ⊢
    omega

theorem Feedback.iterate_ne_zero {m : Nat} (h : Feedback m poly) (n : Nat) {r : BitVec b} (hr : r ≠ 0)
    (hlt : r.toNat < 2 ^ m) : (shift poly)^[n] r ≠ 0 := by
  induction n generalizing r with
  | zero => exact hr
  | succ n ih =>
    exact ih (h.shift_ne_zero hr hlt) (h.shift_lt hlt)

theorem foldl_feed_zeros {l : List Bool} (h : ∀ x ∈ l, x = false) (r : BitVec b) :
    l.foldl (feed poly) r = (shift poly)^[l.length] r := by
  induction l generalizing r with
  | nil => rfl
  | cons x l ih =>
    have hx : feed poly r x = shift poly r := by
      rw [h x List.mem_cons_self, feed, bit]
      simp
    rw [List.foldl_cons, hx, ih fun y hy => h y (List.mem_cons_of_mem x hy)]
    rfl

/-- A burst of at most `m` bits, wherever it is, leaves something in the register. -/
theorem Feedback.foldl_burst {m : Nat} (h : Feedback m poly) {e : List Bool} {i : Nat} (ht : true ∈ e)
    (hburst : ∀ j, e[j]? = some true → i ≤ j ∧ j < i + m) : e.foldl (feed poly) 0 ≠ 0 := by
  obtain ⟨before, p, after, rfl, hbefore, hp, hafter⟩ : ∃ before p after, e = before ++ p ++ after ∧
      (∀ x ∈ before, x = false) ∧ p.length ≤ m ∧ ∀ x ∈ after, x = false := by
    refine ⟨e.take i, (e.drop i).take m, (e.drop i).drop m, ?_, fun x hx => ?_, ?_, fun x hx => ?_⟩
    · rw [List.append_assoc, List.take_append_drop, List.take_append_drop]
    · obtain ⟨j, hj⟩ := List.getElem?_of_mem hx
      cases x with
      | false => rfl
      | true =>
        have hlt : j < i := by
          by_contra hge
          rw [List.getElem?_eq_none (by rw [List.length_take]; omega)] at hj
          cases hj
        rw [List.getElem?_take_of_lt hlt] at hj
        exact absurd (hburst j hj).1 (by omega)
    · rw [List.length_take]
      exact Nat.min_le_left ..
    · obtain ⟨j, hj⟩ := List.getElem?_of_mem hx
      cases x with
      | false => rfl
      | true =>
        rw [List.getElem?_drop, List.getElem?_drop] at hj
        exact absurd (hburst _ hj).2 (by omega)
  have hin : true ∈ p := by
    rcases List.mem_append.mp ht with ht | ht
    · rcases List.mem_append.mp ht with ht | ht
      · cases hbefore _ ht
      · exact ht
    · cases hafter _ ht
  have hfits := hp.trans h.fits
  have hlt := (value_lt (b := b) p hfits).trans_le (Nat.pow_le_pow_right (by decide) hp)
  rw [List.foldl_append, List.foldl_append, foldl_feed_zeros hbefore, iterate_shift_zero,
    foldl_feed poly p hfits, show (0 : BitVec b) ^^^ value p = value p from BitVec.zero_xor,
    foldl_feed_zeros hafter, ← Function.iterate_add_apply]
  exact h.iterate_ne_zero _ (value_ne_zero hfits hin) hlt

/-! ## Numbers as messages -/

/-- The `n` low bits of a number, lowest first. -/
def bits : Nat → Nat → List Bool
  | 0, _ => []
  | n + 1, v => v.testBit 0 :: bits n (v / 2)

@[simp] theorem length_bits (n v : Nat) : (bits n v).length = n := by
  induction n generalizing v with
  | zero => rfl
  | succ n ih => rw [bits, List.length_cons, ih]

theorem bits_add (m n v : Nat) : bits (m + n) v = bits m v ++ bits n (v / 2 ^ m) := by
  induction m generalizing v with
  | zero => simp [bits]
  | succ m ih =>
    rw [Nat.succ_add, bits, ih, bits, List.cons_append, Nat.div_div_eq_div_mul, ← Nat.pow_succ']

theorem bits_xor (n v u : Nat) : bits n (v ^^^ u) = List.zipWith xor (bits n v) (bits n u) := by
  induction n generalizing v u with
  | zero => rfl
  | succ n ih =>
    rw [bits, Nat.testBit_xor, Nat.xor_div_two, ih]
    rfl

theorem bits_mod (n v : Nat) : bits n (v % 2 ^ n) = bits n v := by
  induction n generalizing v with
  | zero => rfl
  | succ n ih =>
    have hhalf : v % 2 ^ (n + 1) / 2 = v / 2 % 2 ^ n := by
      rw [Nat.pow_succ', Nat.mod_mul_right_div_self]
    have hlow : (v % 2 ^ (n + 1)).testBit 0 = v.testBit 0 := by
      rw [Nat.testBit_zero, Nat.testBit_zero, Nat.mod_mod_of_dvd v (dvd_pow_self 2 (Nat.succ_ne_zero n))]
    rw [bits, bits, hhalf, hlow, ih]

theorem true_mem_bits {n v : Nat} (h : v % 2 ^ n ≠ 0) : true ∈ bits n v := by
  induction n generalizing v with
  | zero => exact absurd (Nat.mod_one v) h
  | succ n ih =>
    rw [Nat.pow_succ', Nat.mod_mul] at h
    rw [bits, Nat.testBit_zero, List.mem_cons]
    rcases Nat.mod_two_eq_zero_or_one v with hv | hv
    · exact .inr (ih (by omega))
    · exact .inl (by simp [hv])

theorem value_bits (n v : Nat) (h : n ≤ b) :
    (value (bits n v) : BitVec b).toNat = v % 2 ^ n := by
  induction n generalizing v with
  | zero => simp [bits, value, Nat.mod_one]
  | succ n ih =>
    have hlt := value_lt (b := b) (bits n (v / 2)) (by rw [length_bits]; omega)
    rw [bits, value_cons_toNat _ (by rw [length_bits]; omega) hlt, ih (v / 2) (by omega),
      Nat.pow_succ', Nat.mod_mul, Nat.testBit_zero]
    rcases Nat.mod_two_eq_zero_or_one v with hv | hv
    · simp [hv]
    · simp [hv, Nat.add_comm]

/-- A register that its own bits are fed to runs empty. -/
theorem foldl_feed_bits {n : Nat} (h : n ≤ b) {r : BitVec b} (hlt : r.toNat < 2 ^ n) :
    (bits n r.toNat).foldl (feed poly) r = 0 := by
  have hvalue : value (bits n r.toNat) = r := by
    apply BitVec.eq_of_toNat_eq
    rw [value_bits n _ h, Nat.mod_eq_of_lt hlt]
  rw [foldl_feed poly _ (by rw [length_bits]; exact h), hvalue, BitVec.xor_self]
  exact iterate_shift_zero poly _

end Ludlc.Lfsr
