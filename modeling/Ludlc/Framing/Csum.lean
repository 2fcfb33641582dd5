import Ludlc.Proto

/-! # The checksum of a link

What the framings call on it, its octets on the wire, and the frame sizes that depend on its
width. A link that runs none is given `none`.
-/

namespace Ludlc

/-- `struct ludlc_csum`, computed in a register of `b` bits. -/
structure CsumAlg (b : Nat) where
  csum : BitVec b → UInt8 → BitVec b
  toWire : Option (BitVec b → BitVec b)
  init : BitVec b
  verify : BitVec b
  octets : Nat

/-- A checksum as the framings run it. A transport refuses one that sends no octet, or more than
the register holds. -/
structure Csum (b : Nat) where
  octets : Nat
  txInit : BitVec b
  tx : BitVec b → UInt8 → BitVec b
  txFinal : BitVec b → BitVec b
  rxInit : BitVec b
  rx : BitVec b → UInt8 → BitVec b
  rxOk : BitVec b → Bool
  octets_pos : 0 < octets
  octets_le : 8 * octets ≤ b

/-- The functions of a build that runs the algorithm each link names. A build with a single
checksum has its port's own in their place. -/
def Csum.ofAlg {b : Nat} (alg : CsumAlg b) (hpos : 0 < alg.octets) (hle : 8 * alg.octets ≤ b) :
    Csum b where
  octets := alg.octets
  txInit := alg.init
  tx := alg.csum
  txFinal c := match alg.toWire with
    | some toWire => toWire c
    | none => c
  rxInit := alg.init
  rx := alg.csum
  rxOk c := c == alg.verify
  octets_pos := hpos
  octets_le := hle

variable {b : Nat}

/-- The low octet of the register. -/
def lowOctet (r : BitVec b) : UInt8 := UInt8.ofNat r.toNat

/-- The `k` low octets of the register, least significant first. -/
def lowOctets (r : BitVec b) : Nat → List UInt8
  | 0 => []
  | k + 1 => lowOctet r :: lowOctets (r >>> 8) k

@[simp] theorem length_lowOctets (r : BitVec b) (k : Nat) : (lowOctets r k).length = k := by
  induction k generalizing r with
  | zero => rfl
  | succ k ih => rw [lowOctets, List.length_cons, ih]

theorem drop_lowOctets (r : BitVec b) (k j : Nat) :
    (lowOctets r k).drop j = lowOctets (r >>> (8 * j)) (k - j) := by
  induction j generalizing r k with
  | zero => simp
  | succ j ih =>
    cases k with
    | zero => simp [lowOctets]
    | succ k =>
      rw [lowOctets, List.drop_succ_cons, ih, ← BitVec.shiftRight_add,
        show 8 + 8 * j = 8 * (j + 1) by omega, Nat.add_sub_add_right]

/-- `ludlc_csum_octets`. -/
def csumOctets : Option (Csum b) → Nat
  | none => 0
  | some a => a.octets

/-- `ludlc_csum_tx` where the checksum is on. -/
def csumTx (csum : Option (Csum b)) (r : BitVec b) (c : UInt8) : BitVec b :=
  match csum with
  | none => r
  | some a => a.tx r c

/-- `ludlc_csum_tx_init` where the checksum is on. -/
def csumTxInit (csum : Option (Csum b)) (r : BitVec b) : BitVec b :=
  match csum with
  | none => r
  | some a => a.txInit

/-- `ludlc_csum_tx_final` where the checksum is on. -/
def csumTxFinal (csum : Option (Csum b)) (r : BitVec b) : BitVec b :=
  match csum with
  | none => r
  | some a => a.txFinal r

/-- `ludlc_csum_rx_init` where the checksum is on. -/
def csumRxInit (csum : Option (Csum b)) (r : BitVec b) : BitVec b :=
  match csum with
  | none => r
  | some a => a.rxInit

/-- `ludlc_csum_rx` where the checksum is on. -/
def csumRx (csum : Option (Csum b)) (r : BitVec b) (c : UInt8) : BitVec b :=
  match csum with
  | none => r
  | some a => a.rx r c

/-- The checksum is off, or `ludlc_csum_rx_ok` finds the frame intact. -/
def csumRxOk (csum : Option (Csum b)) (r : BitVec b) : Bool :=
  match csum with
  | none => true
  | some a => a.rxOk r

/-- The octets that follow a body whose running sum came to `r`. -/
def csumWire (csum : Option (Csum b)) (r : BitVec b) : List UInt8 :=
  lowOctets (csumTxFinal csum r) (csumOctets csum)

@[simp] theorem length_csumWire (csum : Option (Csum b)) (r : BitVec b) :
    (csumWire csum r).length = csumOctets csum := by
  rw [csumWire, length_lowOctets]

/-- A body with its checksum: the frame before any framing. -/
def frameOf (csum : Option (Csum b)) (body : List UInt8) : List UInt8 :=
  body ++ match csum with
    | none => []
    | some a => csumWire csum (body.foldl a.tx a.txInit)

/-- The residual law: the sum run over a body and its octets on the wire is found intact. -/
def Csum.Residual (a : Csum b) : Prop :=
  ∀ body : List UInt8,
    a.rxOk ((frameOf (some a) body).foldl a.rx a.rxInit) = true

theorem foldl_csumRx_ok {csum : Option (Csum b)} (h : ∀ a ∈ csum, a.Residual)
    (body : List UInt8) (r : BitVec b) :
    csumRxOk csum ((frameOf csum body).foldl (csumRx csum) (csumRxInit csum r)) = true := by
  cases csum with
  | none => rfl
  | some a => exact h a rfl body

theorem frameOf_eq (csum : Option (Csum b)) (body : List UInt8) (r : BitVec b) :
    frameOf csum body = body ++ csumWire csum (body.foldl (csumTx csum) (csumTxInit csum r)) := by
  cases csum with
  | none => rfl
  | some a => rfl

@[simp] theorem length_frameOf (csum : Option (Csum b)) (body : List UInt8) :
    (frameOf csum body).length = body.length + csumOctets csum := by
  rw [frameOf_eq csum body 0, List.length_append, length_csumWire]

/-- A check that adds up the octets without carry. -/
def lrc : Csum 8 :=
  .ofAlg ⟨fun r c => r ^^^ BitVec.ofNat 8 c.toNat, none, 0, 0, 1⟩ (by decide) (by decide)

theorem lrc_residual : lrc.Residual := by
  intro body
  rw [frameOf, List.foldl_append]
  change (lrc.rx (body.foldl lrc.rx lrc.rxInit) (lowOctet (body.foldl lrc.rx lrc.rxInit)) == 0) = true
  generalize body.foldl lrc.rx lrc.rxInit = r
  have hr : BitVec.ofNat 8 (lowOctet r).toNat = r := by
    have hlt := r.isLt
    apply BitVec.eq_of_toNat_eq
    rw [lowOctet, BitVec.toNat_ofNat, UInt8.toNat_ofNat', Nat.mod_mod, Nat.mod_eq_of_lt hlt]
  change (r ^^^ BitVec.ofNat 8 (lowOctet r).toNat == 0) = true
  rw [hr, BitVec.xor_self]
  rfl

/-! ## Frame sizes -/

theorem two_le_pingSz (w : Wire) : 2 ≤ w.pingSz := by
  rw [w.sz_ok.1]
  rcases w.idBits_ok with h | h | h
  · rw [h]
  · rw [h]
    decide
  · rw [h]
    decide

/-- `ludlc_frame_min_sz`: a PING and the checksum. -/
def frameMinSz (w : Wire) (csum : Option (Csum b)) : Nat := csumOctets csum + w.pingSz

/-- `ludlc_conn_frame_sz`: the link's payload limit, a header and the checksum. -/
def connFrameSz {w : Wire} (cfg : Cfg w) (csum : Option (Csum b)) : Nat :=
  cfg.payloadLim + w.hdrSz + csumOctets csum

/-- The counters of a link that the framings count in. -/
structure RxStats where
  rxPacket : Nat
  badCsum : Nat
  dropped : Nat
  jabber : Nat

/-- A packet as the core hands it to the encoder. -/
structure TxPacket where
  hdr : List UInt8
  payload : List UInt8
  deriving DecidableEq

/-- Its octets. -/
def TxPacket.octets (p : TxPacket) : List UInt8 := p.hdr ++ p.payload

/-- A packet a link carries: no header is shorter than two octets and no packet than a PING, and
with its checksum it fits the link's frame. -/
structure TxPacket.Fits {w : Wire} (cfg : Cfg w) (csum : Option (Csum b)) (p : TxPacket) :
    Prop where
  hdr : 2 ≤ p.hdr.length
  ping : w.pingSz ≤ p.octets.length
  frame : p.octets.length + csumOctets csum ≤ connFrameSz cfg csum

theorem TxPacket.hdr_ne {p : TxPacket} (h : 2 ≤ p.hdr.length) : p.hdr ≠ [] := by
  intro hnil
  rw [hnil] at h
  cases h

theorem TxPacket.Fits.hdr_ne {w : Wire} {cfg : Cfg w} {csum : Option (Csum b)} {p : TxPacket}
    (hp : p.Fits cfg csum) : p.hdr ≠ [] := TxPacket.hdr_ne hp.hdr

end Ludlc
