import Ludlc.Framing.Raw

/-! # Frames with no delimiter: the encoder

The encoder of `ludlc_raw.c` copies the header and the payload into the buffer as far as there is
room, and sends the checksum after them octet by octet.
-/

namespace Ludlc.Raw

variable {b : Nat}

inductive EncState
  | idle
  | data
  | csum
  deriving DecidableEq

/-- `struct ludlc_renc_state`. A segment with a size of zero is empty. -/
structure Enc (b : Nat) where
  hdr : List UInt8
  /-- The payload still to switch to. -/
  payload : List UInt8
  /-- What is left of the segment being sent. -/
  ptr : List UInt8
  /-- Checksum octets still to send. -/
  sz : Nat
  state : EncState
  csum : BitVec b

/-- `ludlc_raw_enc_init`. -/
def encInit (e : Enc b) : Enc b := { e with state := .idle, hdr := [], payload := [] }

/-- `ludlc_raw_enc_prep`. -/
def encPrep (e : Enc b) (p : TxPacket) : Enc b := { e with hdr := p.hdr, payload := p.payload }

/-- `ludlc_raw_enc_busy`. -/
def encBusy (e : Enc b) : Bool := e.state != .idle || !e.hdr.isEmpty

/-- The end of a segment: the payload follows the header, and the checksum the payload. -/
def segmentEnd (csum : Option (Csum b)) (e : Enc b) : Enc b :=
  if e.payload ≠ [] then { e with ptr := e.payload, payload := [] }
  else if csum.isSome then
    { e with state := .csum, csum := csumTxFinal csum e.csum, sz := csumOctets csum }
  else encInit e

/-- `renc_data`: copies as much of the segment as there is room for. -/
def encData (csum : Option (Csum b)) (room : Nat) (e : Enc b) : Enc b × List UInt8 :=
  let len := min room e.ptr.length
  let e' := { e with
    ptr := e.ptr.drop len, csum := (e.ptr.take len).foldl (csumTx csum) e.csum }
  (if e'.ptr ≠ [] then e' else segmentEnd csum e', e.ptr.take len)

/-- One turn of the loop of `ludlc_raw_enc_fill`. -/
def encTurn (csum : Option (Csum b)) (room : Nat) (e : Enc b) : Enc b × List UInt8 :=
  match e.state with
  | .idle =>
    if e.hdr = [] then (encInit e, [])
    else encData csum room { e with csum := csumTxInit csum e.csum, ptr := e.hdr, state := .data }
  | .data => encData csum room e
  | .csum =>
    let e' := { e with csum := e.csum >>> 8, sz := e.sz - 1 }
    (if e'.sz ≠ 0 then e' else encInit e', [lowOctet e.csum])

/-- `ludlc_raw_enc_fill`. -/
def encFill (csum : Option (Csum b)) (e : Enc b) (cap : Nat) : Option (Enc b × List UInt8) :=
  Stream.fillLoop encBusy (encTurn csum) (2 * cap + 2) e cap

/-! ### What an encoder still has to put out -/

/-- The octets of the packet that have not been sent. -/
def Enc.body (e : Enc b) : List UInt8 := e.ptr ++ e.payload

/-- The octets the encoder has still to put out. -/
def Enc.wire (csum : Option (Csum b)) (e : Enc b) : List UInt8 :=
  match e.state with
  | .idle => if e.hdr = [] then [] else frameOf csum (e.hdr ++ e.payload)
  | .data => e.body ++ csumWire csum (e.body.foldl (csumTx csum) e.csum)
  | .csum => lowOctets e.csum e.sz

/-- The states the encoder passes through: there is an octet to take. -/
def Enc.Ok (e : Enc b) : Prop :=
  match e.state with
  | .idle => True
  | .data => e.ptr ≠ []
  | .csum => e.sz ≠ 0

theorem encInit_ok (e : Enc b) : (encInit e).Ok := trivial

theorem encInit_wire (csum : Option (Csum b)) (e : Enc b) : (encInit e).wire csum = [] := rfl

theorem segmentEnd_spec (csum : Option (Csum b)) {e : Enc b} (hs : e.state = .data)
    (hptr : e.ptr = []) :
    (segmentEnd csum e).Ok ∧ (segmentEnd csum e).wire csum = e.wire csum := by
  have hbody : e.body = e.payload := by rw [Enc.body, hptr, List.nil_append]
  have hwire : e.wire csum = e.payload ++
      csumWire csum (e.payload.foldl (csumTx csum) e.csum) := by
    rw [Enc.wire, hs, ← hbody]
  rw [segmentEnd, hwire]
  split
  · rename_i hp
    have hst : ({ e with ptr := e.payload, payload := [] } : Enc b).state = .data := hs
    constructor
    · rw [Enc.Ok, hst]
      exact hp
    · rw [Enc.wire, hst]
      simp only [Enc.body, List.append_nil]
  · rename_i hp
    rw [not_not] at hp
    rw [hp]
    cases csum with
    | none => exact ⟨encInit_ok e, rfl⟩
    | some a =>
      constructor
      · exact Nat.pos_iff_ne_zero.mp a.octets_pos
      · rfl

/-- A turn that copies puts out what comes next, one octet at least. -/
theorem encData_spec (csum : Option (Csum b)) {room : Nat} {e : Enc b} (hs : e.state = .data)
    (hptr : e.ptr ≠ []) (hroom : 0 < room) :
    (encData csum room e).1.Ok ∧
      e.wire csum = (encData csum room e).2 ++ (encData csum room e).1.wire csum ∧
      0 < (encData csum room e).2.length ∧ (encData csum room e).2.length ≤ room := by
  have hpos := List.length_pos_of_ne_nil hptr
  rw [encData]
  generalize hlen : min room e.ptr.length = len
  set e' : Enc b := { e with
    ptr := e.ptr.drop len, csum := (e.ptr.take len).foldl (csumTx csum) e.csum } with he'
  have hs' : e'.state = .data := hs
  have hwire : e.wire csum = e.ptr.take len ++ e'.wire csum := by
    have hbody : e.body = e.ptr.take len ++ e'.body := by
      rw [Enc.body, Enc.body, ← List.append_assoc, he', List.take_append_drop]
    rw [Enc.wire, hs, Enc.wire, hs']
    simp only [hbody, List.foldl_append, List.append_assoc]
    rfl
  have hout : (e.ptr.take len).length = len := by
    rw [List.length_take]
    omega
  simp only
  split
  · rename_i hp
    refine ⟨?_, hwire, by omega, by omega⟩
    rw [Enc.Ok, hs']
    exact hp
  · rename_i hp
    rw [not_not] at hp
    obtain ⟨hok, hseg⟩ := segmentEnd_spec csum hs' hp
    refine ⟨hok, ?_, by omega, by omega⟩
    rw [hseg]
    exact hwire

theorem turn_of_octets {csum : Option (Csum b)} {room : Nat} {e : Enc b} {r : Enc b × List UInt8}
    (hok : r.1.Ok) (hwire : e.wire csum = r.2 ++ r.1.wire csum) (hpos : 0 < r.2.length)
    (hle : r.2.length ≤ room) : Stream.Turn Enc.Ok (Enc.wire csum) (fun _ => 0) room e r :=
  ⟨hok, hwire, hle, by omega⟩

theorem encTurn_spec {csum : Option (Csum b)} {e : Enc b} {room : Nat} (h : e.Ok)
    (hb : encBusy e = true) (hroom : 0 < room) :
    Stream.Turn Enc.Ok (Enc.wire csum) (fun _ => 0) room e (encTurn csum room e) := by
  rw [encTurn]
  cases hs : e.state with
  | idle =>
    have hh : e.hdr ≠ [] := by
      intro hh
      rw [encBusy, hs, hh] at hb
      cases hb
    simp only [hh, if_false]
    obtain ⟨hok, hwire, hpos, hle⟩ := encData_spec csum (e := { e with
      csum := csumTxInit csum e.csum, ptr := e.hdr, state := .data }) rfl hh hroom
    refine turn_of_octets hok ?_ hpos hle
    rw [← hwire, Enc.wire, hs]
    simp only [hh, if_false]
    exact frameOf_eq csum _ e.csum
  | data =>
    rw [Enc.Ok, hs] at h
    obtain ⟨hok, hwire, hpos, hle⟩ := encData_spec csum hs h hroom
    exact turn_of_octets hok hwire hpos hle
  | csum =>
    rw [Enc.Ok, hs] at h
    obtain ⟨k, hk⟩ : ∃ k, e.sz = k + 1 := ⟨e.sz - 1, by omega⟩
    have hw : e.wire csum = lowOctet e.csum :: lowOctets (e.csum >>> 8) k := by
      rw [Enc.wire, hs]
      simp only [hk]
      rfl
    simp only [hk, Nat.add_sub_cancel]
    split
    · rename_i h0
      refine turn_of_octets h0 ?_ Nat.one_pos hroom
      rw [hw]
      rfl
    · rename_i h0
      rw [not_not] at h0
      refine turn_of_octets (encInit_ok _) ?_ Nat.one_pos hroom
      rw [hw, encInit_wire, h0]
      rfl

theorem wire_of_idle {csum : Option (Csum b)} {e : Enc b} (h : encBusy e = false) :
    e.wire csum = [] := by
  rw [encBusy, Bool.or_eq_false_iff] at h
  have hs : e.state = .idle := by simpa using h.1
  have hh : e.hdr = [] := by simpa using h.2
  rw [Enc.wire, hs]
  exact if_pos hh

theorem busy_of_wire {csum : Option (Csum b)} {e : Enc b} (hok : e.Ok)
    (h : e.wire csum = []) : encBusy e = false := by
  rw [Enc.wire] at h
  rw [encBusy]
  rw [Enc.Ok] at hok
  cases hs : e.state with
  | idle =>
    rw [hs] at h
    simp only at h
    split at h
    · rename_i hh
      rw [hh]
      rfl
    · rename_i hh
      have := congrArg List.length h
      rw [length_frameOf, List.length_append, List.length_nil] at this
      have := List.length_pos_of_ne_nil hh
      omega
  | data =>
    rw [hs] at h hok
    rw [List.append_eq_nil_iff, Enc.body, List.append_eq_nil_iff] at h
    exact absurd h.1.1 hok
  | csum =>
    rw [hs] at h hok
    have := congrArg List.length h
    rw [length_lowOctets] at this
    exact absurd this hok

/-- A call of `ludlc_raw_enc_fill` fills the buffer with what comes next, as far as there is any. -/
theorem encFill_spec (csum : Option (Csum b)) {e : Enc b} (h : e.Ok) (cap : Nat) :
    ∃ e', encFill csum e cap = some (e', (e.wire csum).take cap) ∧ e'.Ok ∧
      e'.wire csum = (e.wire csum).drop cap ∧ (e.wire csum = [] → 0 < cap → encBusy e' = false) :=
  Stream.fillLoop_spec (fun _ _ => wire_of_idle) (fun _ _ => encTurn_spec) _ e cap h (by omega)

theorem encPrep_spec {csum : Option (Csum b)} {e : Enc b} {p : TxPacket}
    (hb : encBusy e = false) (hp : p.hdr ≠ []) :
    (encPrep e p).Ok ∧ (encPrep e p).wire csum = frameOf csum p.octets := by
  rw [encBusy, Bool.or_eq_false_iff] at hb
  have hidle : e.state = .idle := by simpa using hb.1
  have hs : (encPrep e p).state = .idle := hidle
  constructor
  · rw [Enc.Ok, hs]
    trivial
  · rw [Enc.wire, hs]
    exact if_neg hp

/-- `framing_raw_wire_len`. -/
def wireLen (csum : Option (Csum b)) (p : TxPacket) : Nat :=
  csumOctets csum + (p.hdr.length + p.payload.length)

/-- The encoder of a link. -/
def writer (csum : Option (Csum b)) : Stream.Writer (Enc b) TxPacket UInt8 where
  load := encPrep
  busy := encBusy
  fill := encFill csum

def writer_lawful (csum : Option (Csum b)) :
    (writer csum).Lawful (fun p => p.hdr ≠ []) (fun p => frameOf csum p.octets) where
  Inv e := e.Ok
  left e := e.wire csum
  idle _ _ := wire_of_idle
  load _ _ _ hb hp := encPrep_spec hb hp
  fill e cap h _ hcap := by
    obtain ⟨e', hfill, hok, hwire, hlast⟩ := encFill_spec csum h cap
    exact ⟨e', hfill, hok, hwire, fun hnil => hlast hnil hcap⟩

end Ludlc.Raw
