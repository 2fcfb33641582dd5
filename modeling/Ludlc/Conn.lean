import Ludlc.Lib.Ring
import Ludlc.Lib.SeqNum
import Ludlc.Proto

/-! # The connection

`struct ludlc_connection` with its flags, the small accessors, and the shape every API function
returns: the connection its locked section leaves and what is left to run with the lock released.
-/

namespace Ludlc

instance (w : Wire) : NeZero w.window := by
  obtain ⟨k, -, hk⟩ := w.window_ok
  exact ⟨by simp [hk]⟩

/-- The bits of `flags`. `noNak`, `uIdle` and `uDone` are active low. -/
structure Flags where
  noNak : Bool
  inited : Bool
  discAfterTx : Bool
  uIdle : Bool
  uDone : Bool
  busOut : Bool
  uConfirm : Bool
  nakOut : Bool
  nakTracked : Bool
  ttlCharged : Bool
  ttlHold : Bool
  deriving DecidableEq, Repr

namespace Flags

/-- `LUDLC_CONN_IDLE_MASK`, as `ludlc_connection_init` stores it, with `INITED` set at its end. -/
def init : Flags :=
  ⟨true, true, false, true, true, false, false, false, false, false, false⟩

/-- Sets `LUDLC_CONN_IDLE_MASK`. -/
def setIdle (f : Flags) : Flags := { f with noNak := true, uIdle := true, uDone := true }

/-- Clears `LUDLC_CONN_SWEEP_CLEAR_MASK`: what neither mask names. -/
def clearSweep (mt : Bool) (f : Flags) : Flags where
  noNak := f.noNak
  inited := f.inited
  discAfterTx := false
  uIdle := f.uIdle
  uDone := f.uDone
  busOut := f.busOut
  uConfirm := mt && f.uConfirm
  nakOut := false
  nakTracked := false
  ttlCharged := false
  ttlHold := false

/-- A caller's unnumbered packet is in the slot, waiting or being read by the transport. -/
def uHeld (f : Flags) : Bool := (!f.uIdle || !f.uDone) && !f.discAfterTx

end Flags

/-- `struct ludlc_connection`. `uConfirm`, `lastReported` and `reportBusy` are the multi-threaded
build's. `log` is a history variable that no function reads. -/
structure Conn {w : Wire} (cfg : Cfg w) (β : Type) where
  connState : ConnState
  flags : Flags
  packetsQ : Fin w.window → PacketQueueItem w β
  txHdr : PacketHdr w
  /-- The payload of the frame being sent, as far as it was copied. -/
  txPayload : List UInt8
  uPacket : PacketQueueItem w β
  uConfirm : PacketQueueItem w β
  lastQueued : Id w
  lastSent : Id w
  lastAck : Id w
  lastReceived : Id w
  lastSeen : Id w
  nakTrack : Id w
  lastReported : Id w
  reportBusy : Bool
  /-- Whether the timer is armed. -/
  wdTimer : Bool
  pingTimer : Bool
  log : List (Ev w β)

variable {w : Wire} {cfg : Cfg w} {β : Type}

def PacketQueueItem.zero : PacketQueueItem w β := ⟨.null, 0, 0, .ok, 0, 0⟩

/-- What `ludlc_connection_init` leaves. -/
def Conn.init {w : Wire} (cfg : Cfg w) (β : Type) : Conn cfg β where
  connState := .disconnected
  flags := .init
  packetsQ _ := .zero
  txHdr := ⟨⟨false, 0⟩, ⟨false, 0⟩, w.controlChannel⟩
  txPayload := []
  uPacket := .zero
  uConfirm := .zero
  lastQueued := 0
  lastSent := 0
  lastAck := 0
  lastReceived := 0
  lastSeen := 0
  nakTrack := 0
  lastReported := 0
  reportBusy := false
  wdTimer := false
  pingTimer := false
  log := []

def Conn.emit (c : Conn cfg β) (e : Ev w β) : Conn cfg β := { c with log := c.log ++ [e] }

theorem slot_lt (id : Id w) : id.toNat &&& (w.window - 1) < w.window := by
  have hw := NeZero.pos w.window
  have hmask := Nat.and_le_right (n := id.toNat) (m := w.window - 1)
  omega

/-- The slot of `packets_q` that `id & ludlc_conn_window_mask(conn)` selects. -/
def slot (id : Id w) : Fin w.window := ⟨id.toNat &&& (w.window - 1), slot_lt id⟩

/-- The items numbered `id + 1` and on, `n` of them, as `packets_q` holds them. -/
def Conn.slots (c : Conn cfg β) : Nat → Id w → List (PacketQueueItem w β)
  | 0, _ => []
  | n + 1, id => c.packetsQ (slot (id + 1)) :: c.slots n (id + 1)

/-- The slots of `(last_ack, last_queued]`. -/
def Conn.windowItems (c : Conn cfg β) : List (PacketQueueItem w β) :=
  c.slots (c.lastQueued - c.lastAck).toNat c.lastAck

/-- `ludlc_conn_last_reported`. -/
def Conn.connLastReported (c : Conn cfg β) : Id w :=
  if cfg.mt then c.lastReported else c.lastAck

/-- `ludlc_tx_queue_full`. -/
def Conn.txQueueFull (c : Conn cfg β) : Bool :=
  w.window ≤ (c.lastQueued - c.connLastReported).toNat

/-- `is_ctrl_chan`: the bits below the tag select the control channel. -/
def isCtrlChan (chan : Channel w) : Bool :=
  chan &&& (BitVec.allOnes w.chanBits >>> w.chanTagBits) = w.controlChannel

/-- Where the payload of a frame handed to the transport lies. -/
inductive PayloadPtr
  | null
  | txPayload
  | caps
  deriving DecidableEq, Repr

/-- What `ludlc_get_packet_to_send` hands to the transport; the header is always `tx_hdr`. `it`
is its local variable: the item the frame carries, if any. -/
structure TxFrame (w : Wire) (β : Type) where
  hdrSz : Nat
  payload : PayloadPtr
  paySz : Nat
  it : Option (Kind × PacketQueueItem w β)

/-- What a call of the API does: the connection as its locked section leaves it, and what it
still runs once the lock is released. -/
structure Out {w : Wire} (cfg : Cfg w) (β : Type) where
  conn : Conn cfg β
  todo : List (Todo w β) := []
  /-- `ludlc_platform_request_tx` was called. -/
  requestTx : Bool := false
  ret : Ret := .ok
  frame : Option (TxFrame w β) := none

section

variable (c : Conn cfg β) (e : Ev w β)

@[simp] theorem emit_log : (c.emit e).log = c.log ++ [e] := rfl
@[simp] theorem emit_connState : (c.emit e).connState = c.connState := rfl
@[simp] theorem emit_flags : (c.emit e).flags = c.flags := rfl
@[simp] theorem emit_packetsQ : (c.emit e).packetsQ = c.packetsQ := rfl
@[simp] theorem emit_txHdr : (c.emit e).txHdr = c.txHdr := rfl
@[simp] theorem emit_txPayload : (c.emit e).txPayload = c.txPayload := rfl
@[simp] theorem emit_uPacket : (c.emit e).uPacket = c.uPacket := rfl
@[simp] theorem emit_uConfirm : (c.emit e).uConfirm = c.uConfirm := rfl
@[simp] theorem emit_lastQueued : (c.emit e).lastQueued = c.lastQueued := rfl
@[simp] theorem emit_lastSent : (c.emit e).lastSent = c.lastSent := rfl
@[simp] theorem emit_lastAck : (c.emit e).lastAck = c.lastAck := rfl
@[simp] theorem emit_lastReceived : (c.emit e).lastReceived = c.lastReceived := rfl
@[simp] theorem emit_lastReported : (c.emit e).lastReported = c.lastReported := rfl
@[simp] theorem emit_reportBusy : (c.emit e).reportBusy = c.reportBusy := rfl

end

end Ludlc
