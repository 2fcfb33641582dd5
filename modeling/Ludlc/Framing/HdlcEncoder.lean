import Ludlc.Lib.Escaping
import Ludlc.Lib.Stream
import Ludlc.Framing.Csum

/-! # The escaping: the encoder

The encoder of `ludlc_hdlc.c`. A start octet opens a frame, and what is reserved in the header, the
payload and the checksum goes out escaped.
-/

namespace Ludlc.Hdlc

open Escaping

variable {b : Nat}

/-- `LUDLC_SOF` and `LUDLC_ESC` as a build sets them, and `LUDLC_MASK`. -/
def octets (sof esc : UInt8) (h : sof ≠ esc) : Code where
  flag := sof
  esc := esc
  mask := 0x20
  esc_ne := h.symm
  flag_ok heq := by
    have h0 := (UInt8.xor_right_inj sof).mp (heq.trans UInt8.xor_zero.symm)
    revert h0
    decide

/-- The defaults of the build. -/
def code : Code := octets 0x55 0xaa (by decide)

inductive EncState
  | idle
  | data
  | csum
  | checkSendEof
  | esc
  deriving DecidableEq

/-- `struct ludlc_henc_state` and its flag. A segment with a size of zero is empty. -/
structure Enc (b : Nat) where
  hdr : List UInt8
  /-- The payload still to switch to. -/
  payload : List UInt8
  /-- What is left of the segment being sent. -/
  ptr : List UInt8
  /-- Checksum octets still to send. -/
  sz : Nat
  csum : BitVec b
  state : EncState
  escState : EncState
  escData : UInt8
  sendEof : Bool

/-- `ludlc_hdlc_enc_init`. -/
def encInit (e : Enc b) : Enc b :=
  { e with state := .idle, hdr := [], payload := [], sendEof := false }

/-- `ludlc_hdlc_enc_prep`. -/
def encPrep (e : Enc b) (p : TxPacket × Bool) : Enc b :=
  { e with hdr := p.1.hdr, payload := p.1.payload, sendEof := p.2 }

/-- `ludlc_hdlc_enc_busy`. -/
def encBusy (e : Enc b) : Bool := e.state != .idle || !e.hdr.isEmpty

/-- Puts the octet selected out, escaped if it has to be. -/
def emit (k : Code) (e : Enc b) (c : UInt8) : Enc b × List UInt8 :=
  if k.reserved c then
    ({ e with escState := e.state, state := .esc, escData := c ^^^ k.mask }, [k.esc])
  else (e, [c])

/-- The end of a segment: the payload follows the header, and the checksum the payload. -/
def segmentEnd (csum : Option (Csum b)) (e : Enc b) : Enc b :=
  if e.payload ≠ [] then { e with ptr := e.payload, payload := [] }
  else if csum.isSome then
    { e with state := .csum, csum := csumTxFinal csum e.csum, sz := csumOctets csum }
  else { e with state := .checkSendEof }

/-- One turn of the loop of `ludlc_hdlc_enc_fill`. -/
def encTurn (k : Code) (csum : Option (Csum b)) (e : Enc b) : Enc b × List UInt8 :=
  match e.state with
  | .idle =>
    if e.hdr ≠ [] then
      ({ e with state := .data, ptr := e.hdr, csum := csumTxInit csum e.csum }, [k.flag])
    else (e, [k.flag])
  | .data =>
    match e.ptr with
    | [] => (e, []) -- no segment is entered that is empty
    | c :: ptr =>
      let e := { e with ptr := ptr, csum := csumTx csum e.csum c }
      emit k (if ptr ≠ [] then e else segmentEnd csum e) c
  | .csum =>
    let c := lowOctet e.csum
    let e := { e with csum := e.csum >>> 8, sz := e.sz - 1 }
    emit k (if e.sz = 0 then { e with state := .checkSendEof } else e) c
  | .checkSendEof => (encInit e, if e.sendEof then [k.flag] else [])
  | .esc => ({ e with state := e.escState }, [e.escData])

/-- `ludlc_hdlc_enc_fill`. Only the turn that ends a frame may put nothing out. -/
def encFill (k : Code) (csum : Option (Csum b)) (e : Enc b) (cap : Nat) : Option (Enc b × List UInt8) :=
  Stream.fillLoop encBusy (fun _ => encTurn k csum) (2 * cap + 2) e cap

/-! ## What an encoder still has to put out -/

/-- The octet a frame ends on, if asked for. -/
def Enc.eof (k : Code) (e : Enc b) : List UInt8 := if e.sendEof then [k.flag] else []

/-- The octets of the packet that have not been sent. -/
def Enc.body (e : Enc b) : List UInt8 := e.ptr ++ e.payload

/-- What the encoder has to put out in a state other than that between the two octets of an
escape. -/
def Enc.wireAt (k : Code) (csum : Option (Csum b)) (e : Enc b) : EncState → List UInt8
  | .idle =>
    if e.hdr = [] then []
    else k.flag :: k.escape (frameOf csum (e.hdr ++ e.payload)) ++ e.eof k
  | .data =>
    k.escape (e.body ++ csumWire csum (e.body.foldl (csumTx csum) e.csum)) ++ e.eof k
  | .csum => k.escape (lowOctets e.csum e.sz) ++ e.eof k
  | .checkSendEof => e.eof k
  | .esc => []

/-- The octets the encoder has still to put out. -/
def Enc.wire (k : Code) (csum : Option (Csum b)) (e : Enc b) : List UInt8 :=
  match e.state with
  | .esc => e.escData :: e.wireAt k csum e.escState
  | s => e.wireAt k csum s

/-- Whether there is an octet to take in a state. -/
def Enc.okAt (e : Enc b) : EncState → Prop
  | .data => e.ptr ≠ []
  | .csum => e.sz ≠ 0
  | .esc => False
  | _ => True

/-- The states the encoder passes through. -/
def Enc.Ok (e : Enc b) : Prop :=
  match e.state with
  | .esc => e.okAt e.escState ∧ e.escState ≠ .idle
  | s => e.okAt s

/-- An octet selected goes out before what the state it leads to holds. -/
theorem emit_spec (k : Code) (csum : Option (Csum b)) {e : Enc b} (c : UInt8) (hs : e.state ≠ .idle)
    (h : e.okAt e.state) :
    (emit k e c).1.Ok ∧ (emit k e c).2.length = 1 ∧
      (emit k e c).2 ++ (emit k e c).1.wire k csum = k.octet c ++ e.wireAt k csum e.state := by
  rw [emit, Code.octet]
  split
  · refine ⟨⟨h, hs⟩, rfl, rfl⟩
  · refine ⟨?_, rfl, ?_⟩
    · rw [Enc.Ok]
      cases hst : e.state with
      | esc =>
        rw [hst] at h
        exact h.elim
      | _ =>
        rw [hst] at h
        exact h
    · rw [Enc.wire]
      cases hst : e.state with
      | esc =>
        rw [hst] at h
        exact h.elim
      | _ => rfl

theorem segmentEnd_spec (k : Code) (csum : Option (Csum b)) {e : Enc b} (hs : e.state = .data)
    (hptr : e.ptr = []) :
    (segmentEnd csum e).state ≠ .idle ∧ (segmentEnd csum e).okAt (segmentEnd csum e).state ∧
      (segmentEnd csum e).wireAt k csum (segmentEnd csum e).state = e.wireAt k csum .data := by
  have hbody : e.body = e.payload := by rw [Enc.body, hptr, List.nil_append]
  rw [segmentEnd]
  split
  · rename_i hp
    have hst : ({ e with ptr := e.payload, payload := [] } : Enc b).state = .data := hs
    rw [hst]
    refine ⟨by decide, hp, ?_⟩
    rw [Enc.wireAt, Enc.wireAt, hbody]
    simp only [Enc.body, List.append_nil]
    rfl
  · rename_i hp
    rw [not_not] at hp
    rw [hp] at hbody
    cases csum with
    | none =>
      refine ⟨by simp, trivial, ?_⟩
      simp only [Option.isSome_none, Bool.false_eq_true, if_false]
      rw [Enc.wireAt, Enc.wireAt, hbody]
      rfl
    | some a =>
      refine ⟨by simp, ?_, ?_⟩
      · exact Nat.pos_iff_ne_zero.mp a.octets_pos
      · simp only [Option.isSome_some, if_true]
        rw [Enc.wireAt, Enc.wireAt, hbody]
        rfl

/-- Turns left that put nothing out. -/
def Enc.rank (e : Enc b) : Nat := if encBusy e then 1 else 0

theorem Enc.rank_le (e : Enc b) : e.rank ≤ 1 := by
  rw [Enc.rank]
  split
  · exact le_refl _
  · exact Nat.zero_le _

theorem turn_of_octet {k : Code} {csum : Option (Csum b)} {room : Nat} {e : Enc b} {r : Enc b × List UInt8}
    (hroom : 0 < room) (hok : r.1.Ok) (hwire : e.wire k csum = r.2 ++ r.1.wire k csum)
    (hlen : r.2.length = 1) : Stream.Turn Enc.Ok (Enc.wire k csum) Enc.rank room e r := by
  have := r.1.rank_le
  exact ⟨hok, hwire, by omega, by omega⟩

theorem encTurn_spec {k : Code} {csum : Option (Csum b)} {e : Enc b} {room : Nat} (h : e.Ok)
    (hb : encBusy e = true) (hroom : 0 < room) :
    Stream.Turn Enc.Ok (Enc.wire k csum) Enc.rank room e (encTurn k csum e) := by
  rw [encTurn]
  cases hs : e.state with
  | idle =>
    have hh : e.hdr ≠ [] := by
      intro hh
      rw [encBusy, hs, hh] at hb
      cases hb
    simp only [ne_eq, hh, not_false_eq_true, if_true]
    refine turn_of_octet hroom hh ?_ rfl
    rw [Enc.wire, hs]
    change e.wireAt k csum .idle = _
    rw [Enc.wireAt, if_neg hh, frameOf_eq csum _ e.csum]
    rfl
  | data =>
    have hptr : e.ptr ≠ [] := by
      rw [Enc.Ok, hs] at h
      exact h
    have hw : e.wire k csum = e.wireAt k csum .data := by rw [Enc.wire, hs]
    cases hp : e.ptr with
    | nil => exact absurd hp hptr
    | cons c ptr =>
      simp only
      set e' : Enc b := { e with ptr := ptr, csum := csumTx csum e.csum c, state := .data } with he'
      have hstep : e.wireAt k csum .data = k.octet c ++ e'.wireAt k csum .data := by
        have hbody : e.body = c :: e'.body := by
          rw [Enc.body, hp]
          rfl
        rw [Enc.wireAt, Enc.wireAt, hbody, List.cons_append, escape_cons, List.foldl_cons,
          List.append_assoc]
        rfl
      by_cases hne : ptr ≠ []
      · rw [if_pos hne]
        obtain ⟨hok, hlen, hwire⟩ := emit_spec k csum (e := e') c (by simp [he']) hne
        exact turn_of_octet hroom hok (by rw [hw, hstep, hwire]) hlen
      · rw [if_neg hne]
        rw [not_not] at hne
        obtain ⟨hst, hokat, hseg⟩ := segmentEnd_spec k csum (e := e') rfl hne
        obtain ⟨hok, hlen, hwire⟩ := emit_spec k csum c hst hokat
        exact turn_of_octet hroom hok (by rw [hw, hstep, hwire, hseg]) hlen
  | csum =>
    have hsz : e.sz ≠ 0 := by
      rw [Enc.Ok, hs] at h
      exact h
    have hw : e.wire k csum = e.wireAt k csum .csum := by rw [Enc.wire, hs]
    obtain ⟨n, hn⟩ : ∃ n, e.sz = n + 1 := ⟨e.sz - 1, by omega⟩
    have hstep : e.wireAt k csum .csum =
        k.octet (lowOctet e.csum) ++ (k.escape (lowOctets (e.csum >>> 8) n) ++ e.eof k) := by
      rw [Enc.wireAt, hn, lowOctets, escape_cons, List.append_assoc]
    simp only [hn, Nat.add_sub_cancel]
    by_cases h0 : n = 0
    · rw [if_pos h0]
      obtain ⟨hok, hlen, hwire⟩ := emit_spec k csum (e := { e with
        csum := e.csum >>> 8, sz := n, state := .checkSendEof }) (lowOctet e.csum) (by simp) trivial
      refine turn_of_octet hroom hok ?_ hlen
      rw [hw, hstep, hwire, h0]
      rfl
    · rw [if_neg h0]
      obtain ⟨hok, hlen, hwire⟩ := emit_spec k csum (e := { e with
        csum := e.csum >>> 8, sz := n, state := .csum }) (lowOctet e.csum) (by simp) h0
      exact turn_of_octet hroom hok (by rw [hw, hstep, hwire]; rfl) hlen
  | checkSendEof =>
    have hw : e.wire k csum = e.eof k := by rw [Enc.wire, hs]; rfl
    have hr : e.rank = 1 := if_pos hb
    have hr' : (encInit e).rank = 0 := rfl
    refine ⟨trivial, ?_, ?_, ?_⟩
    · rw [hw]
      exact (List.append_nil _).symm
    · simp only
      split
      · exact hroom
      · exact Nat.zero_le _
    · change (encInit e).rank < _
      rw [hr, hr']
      omega
  | esc =>
    have hw : e.wire k csum = e.escData :: e.wireAt k csum e.escState := by rw [Enc.wire, hs]
    rw [Enc.Ok, hs] at h
    obtain ⟨hokat, hne⟩ := h
    refine turn_of_octet hroom ?_ ?_ rfl
    · rw [Enc.Ok]
      change match e.escState with
        | .esc => _
        | s => _
      cases hes : e.escState with
      | esc =>
        rw [hes] at hokat
        exact hokat.elim
      | _ =>
        rw [hes] at hokat
        exact hokat
    · rw [hw, List.singleton_append]
      congr 1
      rw [Enc.wire]
      change _ = match e.escState with
        | .esc => _
        | s => _
      cases hes : e.escState with
      | esc =>
        rw [hes] at hokat
        exact hokat.elim
      | _ => rfl

theorem wire_of_idle {k : Code} {csum : Option (Csum b)} {e : Enc b} (h : encBusy e = false) :
    e.wire k csum = [] := by
  rw [encBusy, Bool.or_eq_false_iff] at h
  have hs : e.state = .idle := by simpa using h.1
  have hh : e.hdr = [] := by simpa using h.2
  rw [Enc.wire, hs]
  exact if_pos hh

/-- A call of `ludlc_hdlc_enc_fill` fills the buffer with what comes next, as far as there is any. -/
theorem encFill_spec (k : Code) (csum : Option (Csum b)) {e : Enc b} (h : e.Ok) (cap : Nat) :
    ∃ e', encFill k csum e cap = some (e', (e.wire k csum).take cap) ∧ e'.Ok ∧
      e'.wire k csum = (e.wire k csum).drop cap ∧ (e.wire k csum = [] → 0 < cap → encBusy e' = false) := by
  refine Stream.fillLoop_spec (fun _ _ => wire_of_idle) (fun _ _ => encTurn_spec) _ e cap h ?_
  have := e.rank_le
  omega

/-- What a packet comes to on the wire, with a start octet after it if it is asked for. -/
def wireWith (k : Code) (csum : Option (Csum b)) (p : TxPacket × Bool) : List UInt8 :=
  k.flag :: k.escape (frameOf csum p.1.octets) ++ if p.2 then [k.flag] else []

/-- The same with the octets of the defaults. -/
def wireOf (csum : Option (Csum b)) (p : TxPacket × Bool) : List UInt8 :=
  code.flag :: code.escape (frameOf csum p.1.octets) ++ if p.2 then [code.flag] else []

theorem encPrep_spec (k : Code) (csum : Option (Csum b)) {e : Enc b} {p : TxPacket × Bool}
    (hb : encBusy e = false) (hp : p.1.hdr ≠ []) :
    (encPrep e p).Ok ∧ (encPrep e p).wire k csum = wireWith k csum p := by
  rw [encBusy, Bool.or_eq_false_iff] at hb
  have hidle : e.state = .idle := by simpa using hb.1
  have hs : (encPrep e p).state = .idle := hidle
  constructor
  · rw [Enc.Ok, hs]
    trivial
  · rw [Enc.wire, hs]
    exact if_neg hp

/-- The encoder of a link. -/
def writerWith (k : Code) (csum : Option (Csum b)) :
    Stream.Writer (Enc b) (TxPacket × Bool) UInt8 where
  load := encPrep
  busy := encBusy
  fill := encFill k csum

def writerWith_lawful (k : Code) (csum : Option (Csum b)) :
    (writerWith k csum).Lawful (fun p => p.1.hdr ≠ []) (wireWith k csum) where
  Inv e := e.Ok
  left e := e.wire k csum
  idle _ _ := wire_of_idle
  load _ _ _ hb hp := encPrep_spec _ _ hb hp
  fill e cap h _ hcap := by
    obtain ⟨e', hfill, hok, hwire, hlast⟩ := encFill_spec k csum h cap
    exact ⟨e', hfill, hok, hwire, fun hnil => hlast hnil hcap⟩

/-- The encoder of a link of a build with the defaults. -/
def writer (csum : Option (Csum b)) : Stream.Writer (Enc b) (TxPacket × Bool) UInt8 where
  load := encPrep
  busy := encBusy
  fill := encFill code csum

def writer_lawful (csum : Option (Csum b)) :
    (writer csum).Lawful (fun p => p.1.hdr ≠ []) (wireOf csum) := writerWith_lawful code csum

end Ludlc.Hdlc
