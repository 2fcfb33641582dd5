import Ludlc.Lib.Runs
import Ludlc.Lib.Words

/-! # Claiming a slot

`ludlc_bitset_claim` of `ludlc_platform_api.h`, called by any number of threads at once. A call reads a
word, looks for a bit in it that is free and tests and sets that bit in a second step. A bit it loses sends
it back to the same word.
-/

namespace Ludlc

open Runs Words

/-- A bitset as a port declares it: `LUDLC_BITS_PER_WORD` and the width, an `unsigned int`. -/
structure BitsetCfg where
  bitsPerWord : Nat
  nbits : BitVec 32
  word_ok : ∃ k, k ≤ 6 ∧ bitsPerWord = 2 ^ k

namespace BitsetCfg

variable (c : BitsetCfg)

/-- The width, as a number. -/
def width : Nat := c.nbits.toNat

/-- `LUDLC_BITS_TO_WORDS`. Its arithmetic is that of `size_t`, which the sum fits. -/
def words : Nat := (c.width + c.bitsPerWord - 1) / c.bitsPerWord

/-- The storage that `LUDLC_DECLARE_BITSET` declares. -/
abbrev Storage : Type := Fin c.words → BitVec c.bitsPerWord

theorem bitsPerWord_pos : 0 < c.bitsPerWord := by
  obtain ⟨k, -, hk⟩ := c.word_ok
  rw [hk]
  exact Nat.two_pow_pos k

theorem bitsPerWord_le : c.bitsPerWord ≤ 64 := by
  obtain ⟨k, hk, hword⟩ := c.word_ok
  rw [hword]
  exact Nat.pow_le_pow_right (by decide) hk

theorem width_lt : c.width < 2 ^ 32 := c.nbits.isLt

theorem width_le : c.width ≤ c.words * c.bitsPerWord := by
  have hpos := c.bitsPerWord_pos
  have hdiv := Nat.div_add_mod (c.width + c.bitsPerWord - 1) c.bitsPerWord
  have hmod := Nat.mod_lt (c.width + c.bitsPerWord - 1) hpos
  rw [words, Nat.mul_comm]
  omega

/-- No bit number of the storage wraps. -/
theorem words_le : c.words * c.bitsPerWord ≤ 2 ^ 32 := by
  have hpos := c.bitsPerWord_pos
  obtain ⟨m, hm⟩ : c.bitsPerWord ∣ 2 ^ 32 := by
    obtain ⟨k, hk, hword⟩ := c.word_ok
    rw [hword]
    exact Nat.pow_dvd_pow 2 (by omega)
  have hwords : c.words < m + 1 := by
    rw [words, Nat.div_lt_iff_lt_mul hpos, Nat.add_mul, Nat.mul_comm m, ← hm]
    have := c.width_lt
    omega
  rw [hm, Nat.mul_comm c.bitsPerWord]
  exact Nat.mul_le_mul_right _ (Nat.lt_succ_iff.mp hwords)

theorem div_lt {nr : Nat} (h : nr < c.width) : nr / c.bitsPerWord < c.words :=
  Nat.div_lt_of_lt_mul (by rw [Nat.mul_comm]; exact h.trans_le c.width_le)

theorem nr_lt (w : Fin c.words) {j : Nat} (hj : j < c.bitsPerWord) :
    w * c.bitsPerWord + j < 2 ^ 32 := by
  have hnext : (w + 1) * c.bitsPerWord ≤ c.words * c.bitsPerWord := Nat.mul_le_mul_right _ w.isLt
  have hall := c.words_le
  rw [Nat.add_mul] at hnext
  omega

end BitsetCfg

variable {c : BitsetCfg} {T : Type}

/-- `ludlc_platform_ffz`. Either count is as wide as the word. -/
def ffz (word : BitVec c.bitsPerWord) : Nat :=
  let free := ~~~word
  if free = 0 then c.bitsPerWord
  else if c.bitsPerWord ≤ 32 then (free.setWidth 32).ctz.toNat
  else (free.setWidth 64).ctz.toNat

theorem ffz_eq (word : BitVec c.bitsPerWord) : ffz word = firstClear word := by
  unfold ffz firstClear
  dsimp only
  split
  · rfl
  next hfree =>
    split
    next hnarrow => exact ctz_setWidth hfree hnarrow
    next => exact ctz_setWidth hfree c.bitsPerWord_le

/-- `ludlc_platform_test_and_set_bit`: whether the bit was set, and what is left. There is no bit past the
storage. -/
def testAndSetBit (nr : Nat) (set : c.Storage) : Option (Bool × c.Storage) :=
  if h : nr / c.bitsPerWord < c.words then
    some (set ⟨nr / c.bitsPerWord, h⟩ &&& mask c.bitsPerWord nr ≠ 0, setBit set nr h)
  else none

/-- `ludlc_platform_clear_bit`. -/
def clearBitAt (nr : Nat) (set : c.Storage) : Option c.Storage :=
  if h : nr / c.bitsPerWord < c.words then some (clearBit set nr h) else none

/-- Where a call of `ludlc_bitset_claim` stands: before it reads word `w`, before it tests and sets bit
`nr` that it found in that word, or after it has returned. -/
inductive ClaimCall (c : BitsetCfg)
  | idle
  | read (w : Fin c.words)
  | take (w : Fin c.words) (nr : BitVec 32)
  | returned (ret : Int)
  deriving DecidableEq

def ClaimCall.busy : ClaimCall c → Bool
  | read _ => true
  | take _ _ => true
  | _ => false

/-- The head of the `for` loop. -/
def claimFrom (c : BitsetCfg) (w : Nat) : ClaimCall c :=
  if h : w < c.words then .read ⟨w, h⟩ else .returned (-1)

/-- What a call does with the word it has read. `nr` is an `unsigned int`. -/
def claimRead (w : Fin c.words) (word : BitVec c.bitsPerWord) : ClaimCall c :=
  let bit := ffz word
  if bit < c.bitsPerWord then
    let nr := BitVec.ofNat 32 (w * c.bitsPerWord + bit)
    if c.nbits ≤ nr then .returned (-1) else .take w nr
  else claimFrom c (w + 1)

/-- A bitset and the calls that are being made. `held` are the bits that were claimed and have not been
released, a history variable. -/
structure Pool (c : BitsetCfg) (T : Type) where
  set : c.Storage
  calls : T → ClaimCall c
  held : List Nat

namespace Pool

/-- A thread begins a call, takes the next step of the one it is in, or a claimed bit is released. -/
inductive Act (T : Type)
  | call (t : T)
  | go (t : T)
  | release (nr : Nat)

def init (c : BitsetCfg) (T : Type) : Pool c T := ⟨fun _ => 0, fun _ => .idle, []⟩

variable [DecidableEq T]

/-- Where thread `t` stands after a step. -/
def moved (s : Pool c T) (t : T) (pc : ClaimCall c) : Pool c T :=
  { s with calls := Function.update s.calls t pc }

def step (s : Pool c T) : Act T → Option (Pool c T)
  | .call t => if (s.calls t).busy then none else some (s.moved t (claimFrom c 0))
  | .go t =>
    match s.calls t with
    | .read w => some (s.moved t (claimRead w (s.set w)))
    | .take w nr =>
      (testAndSetBit nr.toNat s.set).map fun r =>
        if r.1 then { s with set := r.2 }.moved t (.read w)
        else { s with set := r.2, held := nr.toNat :: s.held }.moved t (.returned nr.toInt)
    | _ => none
  | .release nr =>
    if nr ∈ s.held then
      (clearBitAt nr s.set).map fun set => { s with set, held := s.held.erase nr }
    else none

/-- The runs of any number of calls and releases from the bitset as it is declared, all of it clear. -/
abbrev Reaches (s : Pool c T) : Prop := Reachable (Pool.init c T) step (fun _ _ => True) s

/-- The bits below the width that no claim holds. -/
def free (s : Pool c T) : Set Nat := {nr | nr < c.width ∧ nr ∉ s.held}

/-- The bits that are set are those of the claims, one each and below the width. A call is about to take
one below the width as well. -/
structure Inv (s : Pool c T) : Prop where
  bits : ∀ nr, bit s.set nr = true ↔ nr ∈ s.held
  nodup : s.held.Nodup
  below : ∀ nr ∈ s.held, nr < c.width
  taking : ∀ t w nr, s.calls t = .take w nr → nr.toNat < c.width

variable {s s' : Pool c T}

omit [DecidableEq T] in
theorem inv_init : Inv (Pool.init c T) := by
  refine ⟨fun nr => ?_, .nil, by simp [init], by simp [init]⟩
  simp [init, bit]

theorem claimFrom_ne_take (w : Nat) (w' : Fin c.words) (nr : BitVec 32) :
    claimFrom c w ≠ .take w' nr := by
  unfold claimFrom
  split <;> simp

theorem claimRead_take {w w' : Fin c.words} {word : BitVec c.bitsPerWord} {nr : BitVec 32}
    (h : claimRead w word = .take w' nr) : nr.toNat < c.width := by
  unfold claimRead at h
  dsimp only at h
  split at h
  · split at h
    · cases h
    next hlt =>
      cases h
      exact Nat.not_le.mp hlt
  · exact absurd h (claimFrom_ne_take _ _ _)

theorem Inv.moved (h : Inv s) (t : T) {pc : ClaimCall c}
    (hpc : ∀ w nr, pc = .take w nr → nr.toNat < c.width) : Inv (s.moved t pc) := by
  refine ⟨h.bits, h.nodup, h.below, fun u w nr hu => ?_⟩
  simp only [Pool.moved, Function.update_apply] at hu
  split at hu
  · exact hpc w nr hu
  · exact h.taking u w nr hu

theorem Inv.called (h : Inv s) (t : T) : Inv (s.moved t (claimFrom c 0)) :=
  h.moved t fun w nr hpc => absurd hpc (claimFrom_ne_take 0 w nr)

omit [DecidableEq T] in
/-- A bit that a call finds clear is one that no claim holds, and one that it finds set stays set. -/
theorem Inv.take (h : Inv s) {nr : Nat} (hnr : nr < c.width) :
    ∃ r, testAndSetBit nr s.set = some r ∧ (r.1 = true ↔ nr ∈ s.held) ∧
      ∀ j, bit r.2 j = true ↔ j = nr ∨ j ∈ s.held := by
  have hword := c.div_lt hnr
  refine ⟨_, dif_pos hword, ?_, fun j => ?_⟩
  · rw [decide_eq_true_iff, and_mask c.bitsPerWord_pos, h.bits]
  · rw [bit_setBit c.bitsPerWord_pos, Bool.or_eq_true, h.bits, decide_eq_true_iff, eq_comm, or_comm]

theorem Inv.step (h : Inv s) {a : Act T} (hs : Pool.step s a = some s') : Inv s' := by
  cases a with
  | call t =>
    simp only [Pool.step] at hs
    split at hs
    · cases hs
    · cases hs
      exact h.called t
  | go t =>
    simp only [Pool.step] at hs
    split at hs
    next w hcall =>
      cases hs
      exact h.moved t fun w' nr hpc => claimRead_take hpc
    next w nr hcall =>
      have hnr := h.taking t w nr hcall
      obtain ⟨r, hr, hprev, hbits⟩ := h.take hnr
      rw [hr, Option.map_some] at hs
      cases hs
      split
      next hset =>
        have hheld := hprev.mp hset
        have hsame : Inv { s with set := r.2 } := by
          refine ⟨fun j => ?_, h.nodup, h.below, h.taking⟩
          rw [hbits, or_iff_right_of_imp]
          rintro rfl
          exact hheld
        exact hsame.moved t (by simp)
      next hclear =>
        have hnew : Inv { s with set := r.2, held := nr.toNat :: s.held } := by
          refine ⟨fun j => ?_, ?_, ?_, h.taking⟩
          · rw [hbits, List.mem_cons]
          · exact List.nodup_cons.mpr ⟨fun hmem => hclear (hprev.mpr hmem), h.nodup⟩
          · exact List.forall_mem_cons.mpr ⟨hnr, h.below⟩
        exact hnew.moved t (by simp)
    next => cases hs
  | release nr =>
    simp only [Pool.step] at hs
    split at hs
    next hmem =>
      have hword := c.div_lt (h.below nr hmem)
      rw [clearBitAt, dif_pos hword, Option.map_some] at hs
      cases hs
      refine ⟨fun j => ?_, h.nodup.erase nr, fun j hj => h.below j (List.mem_of_mem_erase hj),
        h.taking⟩
      rw [bit_clearBit c.bitsPerWord_pos, Bool.and_eq_true, h.bits, decide_eq_true_iff,
        h.nodup.mem_erase_iff]
      constructor
      · rintro ⟨hj, hne⟩
        exact ⟨Ne.symm hne, hj⟩
      · rintro ⟨hne, hj⟩
        exact ⟨hj, Ne.symm hne⟩
    next => cases hs

theorem inv_reaches (h : Reaches s) : Inv s :=
  h.invariant inv_init fun hi _ hs => hi.step hs

@[simp] theorem moved_calls (s : Pool c T) (t : T) (pc : ClaimCall c) : (s.moved t pc).calls t = pc :=
  Function.update_self _ _ _

@[simp] theorem moved_moved (s : Pool c T) (t : T) (pc pc' : ClaimCall c) :
    (s.moved t pc).moved t pc' = s.moved t pc' := by
  simp [moved]

end Pool

end Ludlc
