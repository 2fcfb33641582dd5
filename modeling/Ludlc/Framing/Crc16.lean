import Ludlc.Framing.RawWire
import Ludlc.Lib.Lfsr

/-! # The checksum of the POSIX port

CRC-16/KERMIT, which `ludlc_posix_serial.c` computes bit by bit in a register that may be wider than the
checksum. The octets of a frame go out low bit first, which is the order the register takes them in.
-/

namespace Ludlc

open Lfsr

variable {b : Nat}

/-- `ludlc_crc16_ccitt_pr0_byte`: eight turns of a shift that feeds 0x8408 back. -/
def crc16CcittPr0Byte (crc : BitVec b) (data : UInt8) : BitVec b :=
  (shift (BitVec.ofNat b 0x8408))^[8] (crc ^^^ BitVec.ofNat b data.toNat)

/-- `ludlc_crc16_ccitt_pr0`. -/
def crc16CcittPr0 (b : Nat) : CsumAlg b where
  csum := crc16CcittPr0Byte
  toWire := none
  init := 0
  verify := 0
  octets := 2

/-- The checksum of a link, in a register of 16 bits or more. -/
def crc16 (hb : 16 ≤ b) : Csum b := .ofAlg (crc16CcittPr0 b) Nat.two_pos hb

/-- The bits of the octets as they go out, the low one of each first. -/
def transmitted (l : List UInt8) : List Bool := l.flatMap fun c => bits 8 c.toNat

theorem transmitted_cons (c : UInt8) (l : List UInt8) :
    transmitted (c :: l) = bits 8 c.toNat ++ transmitted l :=
  List.flatMap_cons ..

theorem crc16_feedback (hb : 16 ≤ b) : Feedback 16 (BitVec.ofNat b 0x8408) := by
  have hpow : 2 ^ 16 ≤ 2 ^ b := Nat.pow_le_pow_right (by decide) hb
  have hnat : (BitVec.ofNat b 0x8408).toNat = 0x8408 := by
    rw [BitVec.toNat_ofNat, Nat.mod_eq_of_lt (by omega)]
  exact ⟨by decide, hb, by omega, by omega⟩

/-- The byte function takes the bits of an octet in the order they go out. -/
theorem crc16Byte_eq (hb : 16 ≤ b) (r : BitVec b) (c : UInt8) :
    crc16CcittPr0Byte r c = (bits 8 c.toNat).foldl (feed (BitVec.ofNat b 0x8408)) r := by
  have hlt := c.toNat_lt
  have hpow : 2 ^ 16 ≤ 2 ^ b := Nat.pow_le_pow_right (by decide) hb
  have hvalue : value (bits 8 c.toNat) = BitVec.ofNat b c.toNat := by
    apply BitVec.eq_of_toNat_eq
    rw [value_bits 8 _ (by omega), BitVec.toNat_ofNat, Nat.mod_eq_of_lt hlt,
      Nat.mod_eq_of_lt (by omega)]
  rw [foldl_feed _ _ (by rw [length_bits]; omega), hvalue, length_bits]
  rfl

theorem foldl_crc16Byte (hb : 16 ≤ b) (l : List UInt8) (r : BitVec b) :
    l.foldl crc16CcittPr0Byte r = (transmitted l).foldl (feed (BitVec.ofNat b 0x8408)) r := by
  induction l generalizing r with
  | nil => rfl
  | cons c l ih =>
    rw [List.foldl_cons, ih, crc16Byte_eq hb, transmitted_cons, List.foldl_append]

/-- The two octets of a checksum are its bits. -/
theorem transmitted_lowOctets (r : BitVec b) : transmitted (lowOctets r 2) = bits 16 r.toNat := by
  have hlow : ∀ s : BitVec b, bits 8 (lowOctet s).toNat = bits 8 s.toNat := by
    intro s
    rw [lowOctet, UInt8.toNat_ofNat']
    exact bits_mod 8 _
  have htwo : lowOctets r 2 = [lowOctet r, lowOctet (r >>> 8)] := rfl
  rw [htwo, transmitted_cons, transmitted_cons, hlow, hlow, BitVec.toNat_ushiftRight,
    Nat.shiftRight_eq_div_pow]
  exact (bits_add 8 8 _).symm

/-- The sum of a body, run on over its two octets, comes to the residual. -/
theorem crc16_residual (hb : 16 ≤ b) (body : List UInt8) :
    (frameOf (some (crc16 hb)) body).foldl crc16CcittPr0Byte 0 = (crc16CcittPr0 b).verify := by
  have hframe : frameOf (some (crc16 hb)) body =
      body ++ lowOctets (body.foldl crc16CcittPr0Byte (0 : BitVec b)) 2 := rfl
  rw [hframe, List.foldl_append]
  generalize hr : body.foldl crc16CcittPr0Byte (0 : BitVec b) = r
  have hlt : r.toNat < 2 ^ 16 := by
    rw [← hr, foldl_crc16Byte hb]
    exact (crc16_feedback hb).foldl_lt _ (by simp)
  rw [foldl_crc16Byte hb, transmitted_lowOctets]
  exact foldl_feed_bits hb hlt

theorem transmitted_xor (l e : List UInt8) (h : l.length = e.length) :
    transmitted (List.zipWith (· ^^^ ·) l e) = List.zipWith xor (transmitted l) (transmitted e) := by
  induction l generalizing e with
  | nil =>
    obtain rfl := List.eq_nil_of_length_eq_zero h.symm
    rfl
  | cons c l ih =>
    cases e with
    | nil => cases h
    | cons d e =>
      rw [List.zipWith_cons_cons, transmitted_cons, ih e (Nat.succ.inj h), transmitted_cons,
        transmitted_cons, UInt8.toNat_xor, bits_xor, List.zipWith_append (by simp)]

theorem length_transmitted (l : List UInt8) : (transmitted l).length = 8 * l.length := by
  simp [transmitted, Nat.mul_comm]

/-- The error bits lie within 16 places of the frame as it goes out. -/
def Burst (e : List UInt8) : Prop :=
  ∃ i, ∀ j, (transmitted e)[j]? = some true → i ≤ j ∧ j < i + 16

theorem crc16_burst (hb : 16 ≤ b) {l e : List UInt8} (hl : l.foldl crc16CcittPr0Byte (0 : BitVec b) = 0)
    (hlen : l.length = e.length) (hne : true ∈ transmitted e) (hburst : Burst e) :
    (List.zipWith (· ^^^ ·) l e).foldl crc16CcittPr0Byte (0 : BitVec b) ≠ 0 := by
  obtain ⟨i, hi⟩ := hburst
  have hsplit := foldl_feed_xor (BitVec.ofNat b 0x8408) (transmitted l) (transmitted e)
    (by rw [length_transmitted, length_transmitted, hlen]) 0 0
  rw [foldl_crc16Byte hb] at hl ⊢
  rw [show (0 : BitVec b) ^^^ 0 = 0 from BitVec.xor_self, hl] at hsplit
  rw [transmitted_xor l e hlen, hsplit]
  intro hzero
  exact (crc16_feedback hb).foldl_burst hne hi (BitVec.zero_xor.symm.trans hzero)

/-- The residual holds of every frame, and the raw decoder reports no frame that a burst of at most 16
bits has damaged. -/
theorem crc16_detects_bursts (hb : 16 ≤ b) (w : Wire) (body : List UInt8) :
    (frameOf (some (crc16 hb)) body).foldl crc16CcittPr0Byte 0 = (crc16CcittPr0 b).verify ∧
      ∀ e : List UInt8, e.length = (frameOf (some (crc16 hb)) body).length → (∃ c ∈ e, c ≠ 0) →
        Burst e → ∀ (d : Raw.Dec b) (pieces : List (List UInt8)),
          pieces.flatten = List.zipWith (· ^^^ ·) (frameOf (some (crc16 hb)) body) e →
          ∃ d', (Raw.listener w (some (crc16 hb))).readAll 3
            (Raw.decPrep (some (crc16 hb)) (frameOf (some (crc16 hb)) body).length d) pieces =
              some (d', []) := by
  refine ⟨crc16_residual hb body, fun e hlen hne hburst d pieces hpieces => ?_⟩
  have hbit : true ∈ transmitted e := by
    obtain ⟨c, hc, hne⟩ := hne
    refine List.mem_flatMap.mpr ⟨c, hc, true_mem_bits fun hzero => hne ?_⟩
    apply UInt8.toNat_inj.mp
    rw [← Nat.mod_eq_of_lt c.toNat_lt]
    exact hzero
  have hflat : pieces.flatten.length = (frameOf (some (crc16 hb)) body).length := by
    rw [hpieces, List.length_zipWith, hlen, Nat.min_self]
  have hbad := crc16_burst hb (crc16_residual hb body) hlen.symm hbit hburst
  obtain ⟨d', hread, -⟩ := Raw.listener_announced w (some (crc16 hb)) d hflat.ge
  refine ⟨d', ?_⟩
  have hnone : Raw.unframe w (some (crc16 hb)) (frameOf (some (crc16 hb)) body).length
      (pieces.flatten.take (frameOf (some (crc16 hb)) body).length) = none := by
    rw [← hflat, List.take_length, hpieces]
    exact if_neg fun hc => hbad (beq_iff_eq.mp hc.2.2)
  rw [hread, hnone]
  rfl

/-- A PING in a register of 32 bits, damaged across its last octet and its checksum. -/
theorem crc16_detects_bursts_ping :
    ∃ d', (Raw.listener (.ofWindow 1 (by decide)) (some (crc16 (b := 32) (by decide)))).readAll 3
      (Raw.decPrep (some (crc16 (by decide)))
        (frameOf (some (crc16 (b := 32) (by decide))) [1, 0x80]).length Raw.unusedDec)
      [[1, 0x70], [0x5f, 0x9d]] = some (d', []) := by
  have hburst : Burst [0, 0xf0, 0x8f, 0] := by
    refine ⟨12, fun j hj => ?_⟩
    have hlt : j < 32 := (List.getElem?_eq_some_iff.mp hj).1
    have hall : ∀ j < 32, (transmitted [0, 0xf0, 0x8f, 0])[j]? = some true → 12 ≤ j ∧ j < 28 := by
      decide +kernel
    exact hall j hlt hj
  exact (crc16_detects_bursts (b := 32) (by decide) (.ofWindow 1 (by decide)) [1, 0x80]).2
    [0, 0xf0, 0x8f, 0] (by decide) ⟨0xf0, by decide, by decide⟩ hburst Raw.unusedDec _ (by decide +kernel)

end Ludlc
