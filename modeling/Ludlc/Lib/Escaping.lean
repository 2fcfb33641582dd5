import Mathlib

/-! # Escaping of reserved octets

An octet that is a flag or the escape itself goes out as the escape and the octet with the bits of
a mask turned over, so that the flag is left to delimit what is sent.
-/

namespace Ludlc.Escaping

/-- The octets a link reserves, and the mask that takes the flag to another octet. -/
structure Code where
  flag : UInt8
  esc : UInt8
  mask : UInt8
  esc_ne : esc ≠ flag
  flag_ok : flag ^^^ mask ≠ flag

variable (k : Code)

/-- Whether an octet has to be escaped. -/
def Code.reserved (c : UInt8) : Bool := c == k.flag || c == k.esc

/-- What an octet goes out as. -/
def Code.octet (c : UInt8) : List UInt8 := if k.reserved c then [k.esc, c ^^^ k.mask] else [c]

/-- What a list of octets goes out as. -/
def Code.escape (l : List UInt8) : List UInt8 := l.flatMap k.octet

@[simp] theorem escape_nil : k.escape [] = [] := rfl

theorem escape_cons (c : UInt8) (l : List UInt8) : k.escape (c :: l) = k.octet c ++ k.escape l :=
  rfl

theorem reserved_iff (c : UInt8) : k.reserved c = true ↔ c = k.flag ∨ c = k.esc := by
  rw [Code.reserved, Bool.or_eq_true, beq_iff_eq, beq_iff_eq]

/-- What an octet goes out as holds a flag only where the mask takes the escape to the flag. -/
theorem flag_mem_octet_iff (c : UInt8) :
    k.flag ∈ k.octet c ↔ c = k.esc ∧ k.esc ^^^ k.mask = k.flag := by
  rw [Code.octet]
  split
  · rename_i hc
    rw [reserved_iff] at hc
    simp only [List.mem_cons, List.not_mem_nil, or_false, k.esc_ne.symm, false_or]
    constructor
    · intro h
      rcases hc with rfl | rfl
      · exact absurd h.symm k.flag_ok
      · exact ⟨rfl, h.symm⟩
    · rintro ⟨rfl, h⟩
      exact h.symm
  · rename_i hc
    rw [reserved_iff, not_or] at hc
    rw [List.mem_singleton]
    constructor
    · intro h
      exact absurd h.symm hc.1
    · rintro ⟨h, _⟩
      exact absurd h hc.2

theorem flag_mem_escape_iff (l : List UInt8) :
    k.flag ∈ k.escape l ↔ k.esc ∈ l ∧ k.esc ^^^ k.mask = k.flag := by
  rw [Code.escape, List.mem_flatMap]
  constructor
  · rintro ⟨c, hc, hflag⟩
    obtain ⟨rfl, hmask⟩ := (flag_mem_octet_iff k c).mp hflag
    exact ⟨hc, hmask⟩
  · rintro ⟨hesc, hmask⟩
    exact ⟨k.esc, hesc, (flag_mem_octet_iff k k.esc).mpr ⟨rfl, hmask⟩⟩

/-- No flag is left in what goes out, unless the mask takes the escape to one. -/
theorem flag_notMem_escape (h : k.esc ^^^ k.mask ≠ k.flag) (l : List UInt8) :
    k.flag ∉ k.escape l :=
  fun hmem => h ((flag_mem_escape_iff k l).mp hmem).2

/-- A list whose escapes open pairs that stand for the octets of another, where every other octet
stands for itself. -/
inductive Code.Spells : List UInt8 → List UInt8 → Prop
  | nil : Code.Spells [] []
  | plain {c : UInt8} {l t : List UInt8} : c ≠ k.esc → Code.Spells l t →
      Code.Spells (c :: l) (c :: t)
  | pair {c : UInt8} {l t : List UInt8} : Code.Spells l t →
      Code.Spells (k.esc :: (c ^^^ k.mask) :: l) (c :: t)

theorem escape_spells (l : List UInt8) : k.Spells (k.escape l) l := by
  induction l with
  | nil => exact .nil
  | cons c l ih =>
    rw [escape_cons, Code.octet]
    split
    · exact .pair ih
    · rename_i hc
      rw [reserved_iff, not_or] at hc
      exact .plain hc.2 ih

/-- The octets recovered, and whether the next one was escaped. -/
structure Unescaped where
  out : List UInt8
  escaped : Bool
  deriving DecidableEq

/-- One octet more. -/
def Unescaped.octet (u : Unescaped) (c : UInt8) : Unescaped :=
  if u.escaped then ⟨u.out ++ [c ^^^ k.mask], false⟩
  else if c = k.esc then ⟨u.out, true⟩
  else ⟨u.out ++ [c], false⟩

/-- What a list of octets that holds no flag comes to. -/
def Code.unescape (l : List UInt8) : Unescaped := l.foldl (Unescaped.octet k) ⟨[], false⟩

theorem unescape_append_singleton (l : List UInt8) (c : UInt8) :
    k.unescape (l ++ [c]) = (k.unescape l).octet k c := by
  rw [Code.unescape, List.foldl_append]
  rfl

theorem foldl_octet_escape (l : List UInt8) :
    ∀ out, (k.escape l).foldl (Unescaped.octet k) ⟨out, false⟩ = ⟨out ++ l, false⟩ := by
  induction l with
  | nil =>
    intro out
    simp
  | cons c l ih =>
    intro out
    have hc : (k.octet c).foldl (Unescaped.octet k) ⟨out, false⟩ = ⟨out ++ [c], false⟩ := by
      rw [Code.octet]
      split
      · simp [Unescaped.octet]
      · rename_i hr
        rw [Code.reserved, Bool.or_eq_true, beq_iff_eq, beq_iff_eq, not_or] at hr
        simp [Unescaped.octet, hr.2]
    rw [escape_cons, List.foldl_append, hc, ih, List.append_assoc]
    rfl

theorem unescape_escape (l : List UInt8) : k.unescape (k.escape l) = ⟨l, false⟩ :=
  foldl_octet_escape k l []

theorem out_prefix_foldl (l : List UInt8) :
    ∀ u : Unescaped, u.out <+: (l.foldl (Unescaped.octet k) u).out := by
  induction l with
  | nil =>
    intro u
    exact List.prefix_refl _
  | cons c l ih =>
    intro u
    refine List.IsPrefix.trans ?_ (ih (u.octet k c))
    rw [Unescaped.octet]
    split
    · exact List.prefix_append ..
    · split
      · exact List.prefix_refl _
      · exact List.prefix_append ..

theorem isPrefix_unescape_out (l t : List UInt8) :
    (k.unescape l).out <+: (k.unescape (l ++ t)).out := by
  rw [Code.unescape, Code.unescape, List.foldl_append]
  exact out_prefix_foldl k t _

end Ludlc.Escaping
