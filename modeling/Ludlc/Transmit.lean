import Ludlc.Queue

/-! # Preparing a frame

`ludlc_get_packet_to_send`: a handshake step, the unnumbered packet, the next packet of the
window or a PING, and the ACK that goes out with it. The frame's payload is a copy of the caller's
buffer, whose octets `mem` gives.
-/

namespace Ludlc

variable {w : Wire} {cfg : Cfg w} {β : Type}

/-- A frame as the branches of `ludlc_get_packet_to_send` prepare it. -/
structure TxPrep {w : Wire} (cfg : Cfg w) (β : Type) where
  conn : Conn cfg β
  ret : Ret := .last
  hdrSz : Nat
  payload : PayloadPtr := .null
  paySz : Nat := 0
  it : Option (Kind × PacketQueueItem w β) := none
  requestTx : Bool := false

/-- The handshake step of the current state. -/
def txHandshake (c : Conn cfg β) : TxPrep cfg β where
  conn := { c with txHdr :=
    { txId := .ofVal w.idBits c.connState.val, ackId := ⟨false, 0⟩, chan := w.controlChannel } }
  hdrSz := w.hdrSz
  payload := if (c.connState = .waitConn1 ∨ c.connState = .waitConn2) ∧ cfg.caps ≠ [] then .caps
    else .null
  paySz := if c.connState = .waitConn1 ∨ c.connState = .waitConn2 then cfg.caps.length else 0

/-- `rx_nak_untracked`. -/
def rxNakUntracked (c : Conn cfg β) : Bool := c.flags.nakOut && !c.flags.nakTracked

/-- Prepares the ACK ID, with a NAK if one is waiting or, on a keep-alive, still stands. -/
def txAck (c : Conn cfg β) (id : Id w) (ping numbered : Bool) : Conn cfg β :=
  let nak := !c.flags.noNak || (ping && c.flags.nakOut)
  let c : Conn cfg β := { c with flags :=
    { c.flags with
      noNak := true
      nakOut := c.flags.nakOut || nak
      nakTracked := c.flags.nakTracked && !nak } }
  let c : Conn cfg β := if numbered && rxNakUntracked c then
      { c with nakTrack := id, flags := { c.flags with nakTracked := true } }
    else c
  { c with txHdr := { c.txHdr with ackId := ⟨nak, c.lastReceived⟩ } }

/-- The unnumbered packet, ahead of everything else. -/
def txUrgent (c : Conn cfg β) : TxPrep cfg β :=
  let id := c.lastSent + 1
  let c : Conn cfg β := { c with
    flags := { c.flags with uIdle := true, uDone := false }
    txHdr := { c.txHdr with txId := ⟨true, id⟩, chan := c.uPacket.chan } }
  { conn := txAck c id false false
    ret := if c.lastSent ≠ c.lastQueued then .ok else .last
    hdrSz := w.hdrSz
    it := some (.unnumbered, c.uPacket)
    requestTx := true }

/-- A PING, `ping` telling that it is the keep-alive. -/
def txPing (c : Conn cfg β) (ping : Bool) : TxPrep cfg β :=
  let id := c.lastSent + 1
  let c : Conn cfg β := { c with txHdr := { c.txHdr with txId := ⟨true, id⟩ } }
  { conn := txAck c id ping false, hdrSz := w.pingSz }

/-- The next packet of the window. -/
def txData (c : Conn cfg β) : TxPrep cfg β :=
  let id := c.lastSent + 1
  let it := c.packetsQ (slot id)
  -- A new copy of the first packet may be charged for, unless a give-up emptied the window.
  let flags := if c.lastSent = c.lastAck then
      { c.flags with ttlHold := false, ttlCharged := c.flags.ttlHold && c.flags.ttlCharged }
    else c.flags
  let c : Conn cfg β := { c with
    flags := flags
    lastSent := id
    txHdr := { c.txHdr with txId := ⟨false, id⟩, chan := it.chan } }
  { conn := txAck c id false true
    ret := if id ≠ c.lastQueued then .ok else .last
    hdrSz := w.hdrSz
    it := some (.numbered, it) }

/-- The CONNECTED branch, `uDone` telling that the last frame was the unnumbered packet. -/
def txConnected (c : Conn cfg β) (uDone : Bool) : TxPrep cfg β :=
  if !c.flags.uIdle then txUrgent c
  else if c.lastSent = c.lastQueued then txPing c (!uDone)
  else txData c

/-- The frame for the state the link is in. -/
def txPrep (c : Conn cfg β) (uDone : Bool) : TxPrep cfg β :=
  if c.connState = .connected then txConnected c uDone else txHandshake c

/-- The `memcpy` of the item's payload, and the payload pointer of the frame. -/
def txCopy (mem : β → List UInt8) (p : TxPrep cfg β) : Conn cfg β × TxFrame w β :=
  match p.it with
  | none => (p.conn, ⟨p.hdrSz, p.payload, p.paySz, none⟩)
  | some (kind, it) =>
    let c : Conn cfg β := if it.size ≠ 0 then
        { p.conn with txPayload := (it.payload.read mem).take it.size }.emit (.copied kind it)
      else p.conn
    (c, ⟨p.hdrSz, .txPayload, it.size, some (kind, it)⟩)

/-- The unnumbered packet counts as sent, `sent` telling that the last frame was it. -/
def txDone (c : Conn cfg β) (sent : Bool) : Conn cfg β :=
  { c with
    flags := { c.flags with uDone := true }
    uPacket := if sent then { c.uPacket with result := .ok } else c.uPacket }

/-- The DISCONNECT has been sent. -/
def txDiscSent (c : Conn cfg β) : Bool := !c.flags.uDone && c.flags.discAfterTx

/-- `ludlc_get_packet_to_send`. -/
def getPacketToSend (mem : β → List UInt8) (c : Conn cfg β) : Out cfg β :=
  if txDiscSent c then
    { conn := { c with flags := { c.flags with uDone := true } }
      todo := [.handleDisconnect]
      ret := .enotconn }
  else
    let sent := !c.flags.uDone
    let done := txDone c sent
    let p := txPrep done sent
    let f := txCopy mem p
    { conn := { f.1 with pingTimer := true }
      todo := if sent then [.call (.onConfirm .unnumbered done.uPacket)] else []
      requestTx := p.requestTx
      ret := p.ret
      frame := some f.2 }

/-- The octets at the payload pointer of a frame. -/
def TxFrame.octets (f : TxFrame w β) (c : Conn cfg β) : List UInt8 :=
  match f.payload with
  | .null => []
  | .txPayload => c.txPayload
  | .caps => cfg.caps

/-- The packet a transport puts on the wire for a frame it was handed. -/
def TxFrame.packet (f : TxFrame w β) (c : Conn cfg β) : Packet w where
  hdr := c.txHdr
  payload := (f.octets c).take f.paySz
  src := match f.it with
    | some (.numbered, it) => some it.tag
    | _ => none

end Ludlc
