import Ludlc.Queue

/-! # Receiving a packet

`ludlc_receive` and the functions under it: the handshake, the ACK and the NAK the packet
carries, and the receiver's own place in the peer's sequence.
-/

namespace Ludlc

variable {w : Wire} {cfg : Cfg w} {β : Type}

/-- The `HANDLE_RX_*` flags. -/
structure RxRet where
  cont : Bool := false
  requestTx : Bool := false
  accept : Bool := false
  connected : Bool := false
  disconnect : Bool := false
  caps : Bool := false
  expired : Bool := false
  deriving DecidableEq, Repr

/-- `ludlc_watchdog_restart`. -/
def watchdogRestart (c : Conn cfg β) : Conn cfg β := { c with wdTimer := true }

/-- `rx_handle_handshake`. A step's `tx_id` has no flag, so it is the number itself. -/
def rxHandleHandshake (c : Conn cfg β) (p : Packet w) (step : Bool) : Conn cfg β × RxRet :=
  let id := p.hdr.txId.id.toNat
  if !step then
    if c.connState = .waitConn2 then
      ({ c with connState := .connected }, { requestTx := true, cont := true, connected := true })
    else ({ c with connState := .disconnected }, { requestTx := true })
  else if id = c.connState.val ∨ id = c.connState.val + 1 then
    ({ c with connState := c.connState.next },
      { requestTx := true
        caps := c.connState = .waitConn1
        connected := c.connState.next = .connected })
  else if id + 1 ≠ c.connState.val then
    ({ c with connState := .disconnected }, { requestTx := true })
  else (c, {})

/-- `rx_nak_answered`. -/
def rxNakAnswered (c : Conn cfg β) : Conn cfg β :=
  { c with flags := { c.flags with nakOut := false, nakTracked := false } }

/-- `rx_gap`, and whether it asks for a TX round. -/
def rxGap (c : Conn cfg β) (newPass : Bool) : Conn cfg β × Bool :=
  let c : Conn cfg β := if newPass then rxNakAnswered c else c
  if c.flags.nakOut then (c, false)
  else ({ c with flags := { c.flags with noNak := false } }, true)

/-- Moves the `n` packets behind the one numbered `id` up one place. -/
def shiftQueue (q : Fin w.window → PacketQueueItem w β) :
    Id w → Nat → Fin w.window → PacketQueueItem w β
  | _, 0 => q
  | id, n + 1 => shiftQueue (Function.update q (slot id) (q (slot (id + 1)))) (id + 1) n

/-- The part of `rx_handle_nak` that gives up `it`, the first packet unacknowledged: those behind
it move up one place. -/
def rxGiveUp (c : Conn cfg β) (it : PacketQueueItem w β) : Conn cfg β :=
  let id := c.lastAck + 1
  ({ c with
      packetsQ := shiftQueue (Function.update c.packetsQ (slot id) it) id
        (c.lastQueued - id).toNat
      lastQueued := c.lastQueued - 1
      flags := { c.flags with
        ttlHold := c.flags.ttlHold || c.lastQueued - 1 = c.lastAck } } : Conn cfg β).emit
    (.resolved it)

/-- The packet a NAK charges for the copy last sent. The field is one octet, so a charge to an
empty slot would wrap. -/
def chargeTtl (it : PacketQueueItem w β) : PacketQueueItem w β :=
  { it with ttl := (it.ttl + 255) % 256 }

/-- Whether `rx_handle_nak` charges the first packet: a copy has gone out since the last NAK. -/
def nakCharges (c : Conn cfg β) : Bool := c.lastSent ≠ c.lastAck && !c.flags.ttlCharged

/-- `rx_handle_nak`: the connection, and the packet given up, if any. It always asks for a TX
round. -/
def rxHandleNak (c : Conn cfg β) : Conn cfg β × Option (PacketQueueItem w β) :=
  let id := c.lastAck + 1
  let it := chargeTtl (c.packetsQ (slot id))
  let r : Conn cfg β × Option (PacketQueueItem w β) :=
    if nakCharges c then
      let c : Conn cfg β := { c with
        flags := { c.flags with ttlCharged := true }
        packetsQ := Function.update c.packetsQ (slot id) it }
      if it.ttl = 0 then
        let it := { it with result := .etimedout }
        (rxGiveUp c it, some it)
      else (c, none)
    else (c, none)
  ({ r.1 with lastSent := c.lastAck }, r.2)

/-- The body of the loop of `rx_handle_ack`: the first packet of the window is acknowledged. -/
def ackPacket (c : Conn cfg β) : Conn cfg β :=
  let id := c.lastAck + 1
  let it := { c.packetsQ (slot id) with result := .ok }
  let c := confirmQueuedLock
    { c with lastAck := id, packetsQ := Function.update c.packetsQ (slot id) it } it
  if c.lastAck = c.nakTrack ∧ c.flags.nakTracked then rxNakAnswered c else c

/-- The loop of `rx_handle_ack`. -/
def ackPackets : Nat → Conn cfg β → Conn cfg β
  | 0, c => c
  | n + 1, c => ackPackets n (ackPacket c)

/-- `rx_handle_ack` up to the NAK flag. -/
def rxHandleAcked (c : Conn cfg β) (ackId : WireId w.idBits) : Conn cfg β :=
  let numSent := (c.lastSent - c.lastAck).toNat
  let numAcked := (ackId.id - c.lastAck).toNat
  let c := ackPackets numAcked c
  if numAcked ≠ 0 then
    { c with
      flags := { c.flags with ttlCharged := false }
      lastSent := if numSent < numAcked then c.lastAck else c.lastSent }
  else c

/-- `rx_handle_ack`: the connection, the packet given up, and whether to ask for a TX round. -/
def rxHandleAck (c : Conn cfg β) (ackId : WireId w.idBits) :
    Conn cfg β × Option (PacketQueueItem w β) × Bool :=
  if (c.lastQueued - c.lastAck).toNat < (ackId.id - c.lastAck).toNat then (c, none, false)
  else
    let c := rxHandleAcked c ackId
    if ackId.flag then ((rxHandleNak c).1, (rxHandleNak c).2, true) else (c, none, false)

/-- The end of `rx_handle_packet`: where the packet stands in the peer's sequence. -/
def rxSequence (c : Conn cfg β) (p : Packet w) (uPacket : Bool) : Conn cfg β × RxRet :=
  let id := p.hdr.txId.id
  let ahead := (id - c.lastReceived - 1).toNat
  if p.hdr.txId.flag then
    let r := if ahead = 0 ∨ w.window < ahead then (rxNakAnswered c, false) else rxGap c false
    ({ r.1 with lastSeen := id - 1 }, { requestTx := r.2, accept := uPacket })
  else if ahead = 0 then
    let c : Conn cfg β := rxNakAnswered
      { c with lastReceived := id, flags := { c.flags with noNak := true } }
    ({ c with lastSeen := id }, { requestTx := true, accept := true })
  else if ahead < w.window then
    let last := (c.lastSeen - c.lastReceived - 1).toNat
    let r := rxGap c (last < w.window && ahead ≤ last)
    ({ r.1 with lastSeen := id }, { requestTx := r.2 })
  else ({ rxNakAnswered c with lastSeen := id }, { requestTx := true })

/-- What `rx_handle_packet` leaves: the connection, its flags, and `expired`. -/
structure RxOut {w : Wire} (cfg : Cfg w) (β : Type) where
  conn : Conn cfg β
  ret : RxRet
  expired : Option (PacketQueueItem w β) := none

/-- A packet longer than the header with the PING flag set. -/
def isUPacket (p : Packet w) (pktSz : Nat) : Bool := p.hdr.txId.flag && w.hdrSz < pktSz

/-- Whether `rx_handle_packet` drops the packet before it looks at the connection: one too short
for its header, or one on the control channel with a tag. -/
def rxDropped (p : Packet w) (pktSz : Nat) : Bool :=
  (!p.hdr.txId.flag && pktSz < w.hdrSz) ||
    ((isUPacket p pktSz || !p.hdr.txId.flag) &&
      p.hdr.chan ≠ w.controlChannel && isCtrlChan p.hdr.chan)

/-- A numbered packet on the control channel is a handshake step. -/
def isHshake (p : Packet w) : Bool :=
  !p.hdr.txId.flag && p.hdr.chan = w.controlChannel

/-- The part of `rx_handle_packet` for a link that is up, `ret` being what the handshake set. -/
def rxConnected (c : Conn cfg β) (p : Packet w) (pktSz : Nat) (ret : RxRet) : RxOut cfg β :=
  if isUPacket p pktSz && p.hdr.chan = w.controlChannel &&
      p.payload.head? = some ctrlDisconnect then
    { conn := onDisconnectLock c, ret := { ret with disconnect := true } }
  else if isHshake p then
    -- Unless it is the last step again, its sender has restarted.
    if p.hdr.txId.id.toNat ≠ ConnState.waitConn2.val then
      { conn := onDisconnectLock c, ret := { ret with disconnect := true, requestTx := true } }
    else { conn := c, ret := { ret with requestTx := true } }
  else
    let a := rxHandleAck (watchdogRestart c) p.hdr.ackId
    let s := rxSequence a.1 p (isUPacket p pktSz)
    { conn := s.1
      ret := { ret with
        requestTx := ret.requestTx || a.2.2 || s.2.requestTx
        expired := a.2.1.isSome
        accept := s.2.accept }
      expired := a.2.1 }

/-- `rx_handle_packet`. -/
def rxHandlePacket (c : Conn cfg β) (p : Packet w) (pktSz : Nat) : RxOut cfg β :=
  if rxDropped p pktSz then { conn := c, ret := {} }
  else if c.connState ≠ .connected then
    let h := rxHandleHandshake c p (isHshake p)
    let c : Conn cfg β := if h.2.connected then (watchdogRestart h.1).emit .up else h.1
    if !h.2.cont then { conn := c, ret := h.2 } else rxConnected c p pktSz h.2
  else rxConnected c p pktSz {}

/-- A call that is made only if `b`. -/
def callIf (b : Bool) (cb : Callback w β) : List (Todo w β) := if b then [.call cb] else []

/-- What `ludlc_receive` runs with the lock released. -/
def receiveTodo (r : RxOut cfg β) (p : Packet w) (pktSz tstamp : Nat) : List (Todo w β) :=
  let size := pktSz - w.hdrSz
  callIf r.ret.caps (.onCaps (if size = 0 then [] else p.payload) size) ++
    callIf r.ret.connected .onConnect ++
    .confirmUnlocked :: r.expired.toList.map (fun it => .call (.onConfirm .expired it)) ++
    callIf r.ret.disconnect .onDisconnect ++
    callIf r.ret.accept (.onRecv p.hdr.chan p.payload size tstamp p.src)

/-- `ludlc_receive`. -/
def receive (c : Conn cfg β) (p : Packet w) (pktSz tstamp : Nat) : Out cfg β :=
  let r := rxHandlePacket c p pktSz
  { conn := r.conn, todo := receiveTodo r p pktSz tstamp, requestTx := r.ret.requestTx }

end Ludlc
