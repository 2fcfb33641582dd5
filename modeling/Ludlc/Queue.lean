import Ludlc.Conn

/-! # The calls that fill and end a session

The sequence reset, the disconnect sweep, and the API functions an application calls:
`ludlc_enqueue_data`, `ludlc_send_urgent_data`, `ludlc_send_disconnect`, `ludlc_connect` and
`ludlc_handle_disconnect`.
-/

namespace Ludlc

variable {w : Wire} {cfg : Cfg w} {β : Type}

/-- Something is still to be reported, as `ludlc_seq_reset_if_drained` sees it. -/
def undrained (c : Conn cfg β) : Bool :=
  cfg.mt && (c.lastReported ≠ c.lastAck || c.flags.uConfirm)

/-- `ludlc_seq_reset_if_drained`. -/
def seqResetIfDrained (c : Conn cfg β) : Conn cfg β :=
  if !c.flags.busOut then c
  else if undrained c then c
  else
    ({ c with
        lastReported := if cfg.mt then 0 else c.lastReported
        lastSent := 0
        lastQueued := 0
        lastAck := 0
        lastReceived := 0
        lastSeen := 0
        flags := { c.flags with busOut := false } } : Conn cfg β).emit .seqReset

/-- Calls a callback where it stands. -/
def callNow (c : Conn cfg β) (cb : Callback w β) : Conn cfg β := (c.emit (.call cb)).emit (.ret cb)

/-- `ludlc_confirm_queued_lock`: the item is resolved, and the inline build reports it here. -/
def confirmQueuedLock (c : Conn cfg β) (it : PacketQueueItem w β) : Conn cfg β :=
  if cfg.mt then c.emit (.resolved it)
  else callNow (c.emit (.resolved it)) (.onConfirm .numbered it)

/-- `ludlc_confirm_u_lock`. -/
def confirmULock (c : Conn cfg β) : Conn cfg β :=
  if cfg.mt then { c with uConfirm := c.uPacket, flags := { c.flags with uConfirm := true } }
  else callNow c (.onConfirm .unnumbered c.uPacket)

/-- Fails the packet numbered `id` with `EPIPE`. -/
def failPacket (id : Id w) (c : Conn cfg β) : Conn cfg β :=
  let it := { c.packetsQ (slot id) with result := .epipe }
  confirmQueuedLock { c with packetsQ := Function.update c.packetsQ (slot id) it } it

/-- Fails the `n` packets after `id`. -/
def failQueued : Nat → Id w → Conn cfg β → Conn cfg β
  | 0, _, c => c
  | n + 1, id, c => failQueued n (id + 1) (failPacket (id + 1) c)

/-- The unnumbered packet's part of `on_disconnect_lock`. -/
def failUnnumbered (c : Conn cfg β) : Conn cfg β :=
  if c.flags.uHeld then confirmULock { c with uPacket := { c.uPacket with result := .epipe } }
  else c

/-- `on_disconnect_lock` up to the window. -/
def linkDown (c : Conn cfg β) : Conn cfg β :=
  let c : Conn cfg β := { c with
    wdTimer := false
    pingTimer := false
    connState := .disconnected
    flags := { c.flags with busOut := true } }
  let c := failUnnumbered (c.emit .down)
  { c with flags := c.flags.setIdle.clearSweep cfg.mt }

/-- `on_disconnect_lock` up to the reset. -/
def sweep (c : Conn cfg β) : Conn cfg β :=
  let c := linkDown c
  let c := failQueued (c.lastQueued - c.lastAck).toNat c.lastAck c
  { c with lastAck := c.lastQueued }

/-- `on_disconnect_lock`. -/
def onDisconnectLock (c : Conn cfg β) : Conn cfg β := (seqResetIfDrained (sweep c)).emit .swept

/-- The TTL `ludlc_enqueue_data` gives a packet. -/
def normTtl (ttl : Nat) : Nat := if maxTtl < ttl then maxTtl else if ttl = 0 then 1 else ttl

/-- `ludlc_enqueue_data`. -/
def enqueueData (c : Conn cfg β) (tag : Nat) (dstChan : Channel w) (buf : Buf β)
    (size ttl : Nat) : Out cfg β :=
  if buf.isNull && size ≠ 0 then { conn := c, ret := .einval }
  else if isCtrlChan dstChan then { conn := c, ret := .einval }
  else if cfg.payloadLim < size then { conn := c, ret := .einval }
  else if c.flags.busOut then { conn := c, ret := .eagain }
  else if !c.txQueueFull then
    let id := c.lastQueued + 1
    let it : PacketQueueItem w β := { c.packetsQ (slot id) with
      chan := dstChan, ttl := normTtl ttl, payload := buf, size := size, tag := tag }
    { conn := ({ c with
        packetsQ := Function.update c.packetsQ (slot id) it
        lastQueued := id } : Conn cfg β).emit (.accepted .numbered it)
      requestTx := true }
  else { conn := c, ret := .eagain }

/-- `ludlc_send_urgent_data`. -/
def sendUrgentData (c : Conn cfg β) (tag : Nat) (dstChan : Channel w) (buf : Buf β)
    (size : Nat) : Out cfg β :=
  if buf.isNull || size = 0 || cfg.payloadLim < size then { conn := c, ret := .einval }
  else if isCtrlChan dstChan then { conn := c, ret := .einval }
  else if c.connState ≠ .connected then { conn := c, ret := .enotconn }
  else if !c.flags.uIdle || !c.flags.uDone then { conn := c, ret := .eagain }
  else
    let it := { c.uPacket with chan := dstChan, payload := buf, size := size, tag := tag }
    { conn := ({ c with
        uPacket := it
        flags := { c.flags with uIdle := false } } : Conn cfg β).emit (.accepted .unnumbered it)
      requestTx := true }

/-- `ludlc_send_disconnect`. -/
def sendDisconnect (c : Conn cfg β) : Out cfg β :=
  if c.connState ≠ .connected then
    { conn := c, todo := [.confirmUnlocked], ret := .enotconn }
  else if !c.flags.uDone then { conn := c, todo := [.confirmUnlocked], ret := .eagain }
  else
    -- A packet still waiting is replaced, and given back unless it is a DISCONNECT itself.
    let c : Conn cfg β := if !c.flags.uIdle && !c.flags.discAfterTx then
        confirmULock { c with uPacket := { c.uPacket with result := .ecanceled } }
      else c
    { conn := { c with
        uPacket := { c.uPacket with chan := w.controlChannel, payload := .opcode, size := 1 }
        flags := { c.flags with discAfterTx := true, uIdle := false } }
      todo := [.confirmUnlocked]
      requestTx := true }

/-- `ludlc_connect`. -/
def connect (c : Conn cfg β) : Out cfg β :=
  if !c.flags.inited then { conn := c, ret := .einval }
  else if c.connState = .terminate then
    { conn := c, todo := [.confirmUnlocked], ret := .eshutdown }
  else { conn := onDisconnectLock c, todo := [.confirmUnlocked], requestTx := true }

/-- The locked section of `ludlc_disconnect_core`, and whether to notify. -/
def disconnectCore (c : Conn cfg β) : Conn cfg β × Bool :=
  if c.connState ≠ .disconnected ∧ c.connState ≠ .terminate then (onDisconnectLock c, true)
  else (c, false)

/-- `ludlc_handle_disconnect`. -/
def handleDisconnect (c : Conn cfg β) : Out cfg β where
  conn := (disconnectCore c).1
  todo := .confirmUnlocked :: if (disconnectCore c).2 then [.call .onDisconnect] else []

end Ludlc
