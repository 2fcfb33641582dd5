import Ludlc.Framing.CobsEncoder

/-! # The announcement of a frame over SPI

The header each end sends in the first transfer of an exchange, and the lengths a link announces
its frames with: what the stuffing reserves for a frame and what it says a packet will take.
-/

namespace Ludlc

variable {b : Nat}

/-- `framing_cobs_encoded_max`: the room the link's largest frame needs once encoded. The type of a
frame size holds it, or the build is refused. -/
def Cobs.encodedMax {w : Wire} (cfg : Cfg w) (csum : Option (Csum b)) : Nat :=
  connFrameSz cfg csum + connFrameSz cfg csum / Stuffing.blockMax + 2

/-- `framing_cobs_wire_len`: one octet more for each group one short of a full one. -/
def Cobs.wireLen (csum : Option (Csum b)) (p : TxPacket) : Nat :=
  let group := Stuffing.blockMax - 1
  let n := p.hdr.length + p.payload.length + csumOctets csum
  if n = 0 then 1 else n + (n + group - 1) / group + 1

namespace Spi

/-- `struct ludlc_spi_hdr`. -/
structure Hdr where
  magic : UInt8
  check : UInt8
  /-- Least significant octet first. -/
  len : List UInt8
  deriving DecidableEq

/-- `LUDLC_SPI_MAGIC`. -/
def magic : UInt8 := 0x5a

/-- The check octet of a length. -/
def checkOf (len : List UInt8) : UInt8 := len.foldl (· ^^^ ·) (magic ^^^ 0xff)

/-- `ludlc_spi_hdr_put`. -/
def hdrPut (len : BitVec 32) : Hdr := ⟨magic, checkOf (lowOctets len 4), lowOctets len 4⟩

/-- The number that octets make, least significant first. -/
def joinOctets : List UInt8 → BitVec 32
  | [] => 0
  | c :: l => BitVec.ofNat 32 c.toNat ||| joinOctets l <<< 8

/-- `ludlc_spi_hdr_get`, with `none` for an announcement that is refused. -/
def hdrGet (hdr : Hdr) (maxFrame : Nat) : Option Nat :=
  if hdr.magic ≠ magic then none
  else if hdr.check ≠ checkOf hdr.len then none
  else if maxFrame < (joinOctets hdr.len).toNat then none
  else some (joinOctets hdr.len).toNat

theorem getLsbD_joinOctets (k : Nat) :
    ∀ (r : BitVec 32) (i : Nat),
      (joinOctets (lowOctets r k)).getLsbD i = (decide (i < 8 * k) && r.getLsbD i) := by
  induction k with
  | zero =>
    intro r i
    simp [lowOctets, joinOctets]
  | succ k ih =>
    intro r i
    have hlow : (BitVec.ofNat 32 (lowOctet r).toNat).getLsbD i =
        (decide (i < 8) && r.getLsbD i) := by
      rw [lowOctet, UInt8.toNat_ofNat', BitVec.getLsbD_ofNat, Nat.testBit_mod_two_pow,
        BitVec.getLsbD]
      by_cases hi : i < 8
      · simp [hi, show i < 32 by omega]
      · simp [hi]
    rw [lowOctets, joinOctets, BitVec.getLsbD_or, hlow, BitVec.getLsbD_shiftLeft, ih,
      BitVec.getLsbD_ushiftRight]
    by_cases hi : i < 8
    · simp [hi, show i < 8 * (k + 1) by omega]
    · rw [show 8 + (i - 8) = i by omega]
      by_cases hw : i < 32
      · simp only [hi, hw, decide_false, decide_true, Bool.false_and, Bool.false_or, Bool.not_false,
          Bool.true_and]
        congr 1
        rw [decide_eq_decide]
        omega
      · rw [BitVec.getLsbD_of_ge r i (by omega)]
        simp [hw]

theorem joinOctets_lowOctets (r : BitVec 32) : joinOctets (lowOctets r 4) = r := by
  apply BitVec.eq_of_getLsbD_eq
  intro i hi
  rw [getLsbD_joinOctets]
  simp [hi]

theorem hdrGet_hdrPut (len : BitVec 32) (maxFrame : Nat) :
    hdrGet (hdrPut len) maxFrame = if maxFrame < len.toNat then none else some len.toNat := by
  rw [hdrGet, hdrPut]
  simp only [ne_eq, not_true_eq_false, if_false, joinOctets_lowOctets]

end Spi

/-! ## The lengths of a stuffed frame -/

namespace Cobs

theorem wireLen_eq {w : Wire} {cfg : Cfg w} {csum : Option (Csum b)} {p : TxPacket}
    (hp : p.Fits cfg csum) :
    wireLen csum p =
      p.octets.length + csumOctets csum + (p.octets.length + csumOctets csum - 1) / 253 + 2 := by
  have hhdr := hp.hdr
  rw [wireLen, TxPacket.octets, List.length_append]
  simp only [Stuffing.blockMax]
  rw [if_neg (by omega)]
  generalize hn : p.hdr.length + p.payload.length + csumOctets csum = n at *
  rw [show n + (254 - 1) - 1 = n - 1 + 253 by omega, show 254 - 1 = 253 from rfl,
    Nat.add_div_right _ (by decide)]
  omega

/-- The encoder never puts out more than the length it is announced with. -/
theorem length_wireWith_le {w : Wire} {cfg : Cfg w} {csum : Option (Csum b)} {p : TxPacket}
    (d : UInt8) (hp : p.Fits cfg csum) : (wireWith d csum p).length ≤ wireLen csum p := by
  have hlen := Stuffing.length_encode_le (d := d) (frameOf csum p.octets)
  rw [length_frameOf] at hlen
  have hq : (p.octets.length + csumOctets csum - 1) / Stuffing.blockMax ≤
      (p.octets.length + csumOctets csum - 1) / 253 :=
    Nat.div_le_div_left (by decide) (by decide)
  rw [wireWith, List.length_append, List.length_singleton, wireLen_eq hp]
  omega

theorem length_wireOf_le {w : Wire} {cfg : Cfg w} {csum : Option (Csum b)} {p : TxPacket}
    (hp : p.Fits cfg csum) : (wireOf csum p).length ≤ wireLen csum p :=
  length_wireWith_le delimiter hp

/-- A packet on a link that stuffs its frames is announced with a length that covers it, that the
link allows for and that a peer set up the same reads back. -/
def Announced {w : Wire} (cfg : Cfg w) (csum : Option (Csum b)) (p : TxPacket) : Prop :=
  (∀ (e : Enc b) (caps : Nat → Nat), (∀ k, 0 < caps k) → ∃ fuel e' out,
    (writer csum).send caps fuel 0 (encInit e) [p] = some (e', out) ∧
      out.length ≤ wireLen csum p) ∧
  wireLen csum p ≤ encodedMax cfg csum ∧
  Spi.hdrGet (Spi.hdrPut (BitVec.ofNat 32 (wireLen csum p))) (encodedMax cfg csum) =
    some (wireLen csum p)

/-- The groups of 253 octets before a packet's last octet have to be no more than the groups of 254
in the link's largest frame and the octets the packet leaves of that frame. -/
theorem announced_iff {w : Wire} (cfg : Cfg w) (csum : Option (Csum b)) (p : TxPacket)
    (hp : p.Fits cfg csum) (hmax : encodedMax cfg csum ≤ 0x7fffffff) :
    Announced cfg csum p ↔
      (p.octets.length + csumOctets csum - 1) / 253 ≤
        connFrameSz cfg csum / 254 +
          (connFrameSz cfg csum - (p.octets.length + csumOctets csum)) := by
  have hframe := hp.frame
  have hwl := wireLen_eq hp
  have hem : encodedMax cfg csum = connFrameSz cfg csum + connFrameSz cfg csum / 254 + 2 := rfl
  constructor
  · rintro ⟨_, hle, _⟩
    omega
  · intro h
    have hle : wireLen csum p ≤ encodedMax cfg csum := by omega
    refine ⟨?_, hle, ?_⟩
    · intro e caps hcaps
      have hhdr : ∀ q ∈ [p], q.hdr ≠ [] := by
        intro q hq
        rw [List.mem_singleton.mp hq]
        exact hp.hdr_ne
      obtain ⟨fuel, e', hsend⟩ :=
        (writer_lawful csum).send hcaps [p] (encInit e) 0 (encInit_ok csum e) rfl hhdr
      refine ⟨fuel, e', _, hsend, ?_⟩
      rw [List.flatMap_singleton]
      exact length_wireOf_le hp
    · have hnat : (BitVec.ofNat 32 (wireLen csum p)).toNat = wireLen csum p := by
        rw [BitVec.toNat_ofNat]
        exact Nat.mod_eq_of_lt (by omega)
      rw [Spi.hdrGet_hdrPut, hnat, if_neg (by omega)]

/-- A PING with a checksum. -/
theorem announced_ping :
    Announced (Cfg.ofBuild (.ofWindow 1 (by decide)) true 1 (by decide)) (some lrc)
      ⟨[1, 0x80], []⟩ :=
  (announced_iff _ _ _ ⟨by decide, by decide, by decide⟩ (by decide)).mpr (by decide)

/-- A link whose largest frame is one octet more than two groups of 253. -/
def twoGroups : Cfg (.ofWindow 1 one_lt_idBits) :=
  { Cfg.ofBuild (.ofWindow 1 one_lt_idBits) true 1 Nat.one_pos with
    payloadLim := 504
    caps_ok := by decide }

/-- The largest packet of that link. -/
def largestPacket : TxPacket := ⟨[1, 0x80, 1], List.replicate 504 1⟩

theorem length_largestPacket : largestPacket.octets.length = 507 := by
  rw [TxPacket.octets, largestPacket, List.length_append, List.length_replicate]
  rfl

theorem connFrameSz_twoGroups : connFrameSz twoGroups (none : Option (Csum 8)) = 507 := rfl

theorem largestPacket_fits : largestPacket.Fits twoGroups (none : Option (Csum 8)) := by
  constructor
  · decide
  · rw [length_largestPacket]
    decide
  · rw [length_largestPacket, connFrameSz_twoGroups]
    decide

theorem encodedMax_lt_wireLen :
    encodedMax twoGroups (none : Option (Csum 8)) < wireLen (none : Option (Csum 8)) largestPacket := by
  rw [wireLen_eq largestPacket_fits, encodedMax, connFrameSz_twoGroups, length_largestPacket]
  decide

/-- The largest packet of that link is refused: it would be announced with one octet more than the
link allows for. -/
theorem not_announced :
    let p : TxPacket := ⟨[1, 0x80, 1], List.replicate 504 1⟩
    p.Fits twoGroups (none : Option (Csum 8)) ∧
      ¬ Announced twoGroups (none : Option (Csum 8)) p := by
  intro p
  refine ⟨largestPacket_fits, ?_⟩
  rintro ⟨_, hle, _⟩
  exact absurd encodedMax_lt_wireLen (Nat.not_lt.mpr hle)

end Cobs

end Ludlc
