import Mathlib

/-! # Decoders that gather into a caller's buffer

A decoder is brought up, pointed at a buffer and fed, in any order. Each call of its feed leaves a
note of the room it was given, where it stored and what it reports, and what holds of every note
follows from an invariant of the decoder and the room.
-/

namespace Ludlc.Gather

variable {σ α : Type}

structure Decoder (σ α : Type) where
  init : σ → σ
  /-- Points the decoder at a buffer with the room given. -/
  prep : Nat → σ → σ
  /-- Octets taken, whether an item is complete, and the state. -/
  feed : σ → List α → Nat × Bool × σ
  /-- The indices of the buffer that a call stores at, in order. -/
  stores : σ → List α → List Nat
  /-- Octets of the item stored. -/
  stored : σ → Nat
  /-- What is reported for them. -/
  size : σ → Nat

/-- A call of the decoder, with buffers of at most `lim` octets. -/
inductive Op (lim : Nat) (α : Type)
  | init
  | prep (cap : Nat) (hcap : cap ≤ lim)
  | feed (src : List α)

/-- What a call of the feed leaves to see. -/
structure Fed where
  /-- The room last given. -/
  cap : Nat
  stores : List Nat
  done : Bool
  stored : Nat
  size : Nat

namespace Decoder

variable (D : Decoder σ α) {lim : Nat}

def fed (cap : Nat) (s : σ) (src : List α) : Fed where
  cap := cap
  stores := D.stores s src
  done := (D.feed s src).2.1
  stored := D.stored (D.feed s src).2.2
  size := D.size (D.feed s src).2.2

/-- The notes that calls leave, one after the other. -/
def run : Nat → σ → List (Op lim α) → List Fed
  | _, _, [] => []
  | cap, s, .init :: ops => run cap (D.init s) ops
  | _, s, .prep cap _ :: ops => run cap (D.prep cap s) ops
  | cap, s, .feed src :: ops => D.fed cap s src :: run cap (D.feed s src).2.2 ops

/-- What an invariant of the decoder and its room owes. -/
structure Keeps (lim : Nat) (Inv : Nat → σ → Prop) (Good : Fed → Prop) : Prop where
  init : ∀ cap s, Inv cap s → Inv cap (D.init s)
  prep : ∀ cap s, cap ≤ lim → Inv cap (D.prep cap s)
  feed : ∀ cap s src, cap ≤ lim → Inv cap s →
    Inv cap (D.feed s src).2.2 ∧ Good (D.fed cap s src)

theorem Keeps.run {D : Decoder σ α} {Inv : Nat → σ → Prop} {Good : Fed → Prop}
    (h : D.Keeps lim Inv Good) (ops : List (Op lim α)) :
    ∀ {cap : Nat} {s : σ}, cap ≤ lim → Inv cap s → ∀ f ∈ D.run cap s ops, Good f := by
  induction ops with
  | nil =>
    intro cap s _ _ f hf
    cases hf
  | cons op ops ih =>
    intro cap s hcap hs
    cases op with
    | init => exact ih hcap (h.init cap s hs)
    | prep cap' hcap' => exact ih hcap' (h.prep cap' s hcap')
    | feed src =>
      obtain ⟨hinv, hgood⟩ := h.feed cap s src hcap hs
      intro f hf
      rcases List.mem_cons.mp hf with rfl | hf
      · exact hgood
      · exact ih hcap hinv f hf

end Decoder

/-- The indices a buffer that held `n` octets and holds `m` was stored at. -/
def grown (n m : Nat) : List Nat := List.range' n (m - n)

theorem lt_of_mem_grown {n m i cap : Nat} (hi : i ∈ grown n m) (h : m ≤ cap) : i < cap := by
  rw [grown, List.mem_range'_1] at hi
  omega

end Ludlc.Gather
