import Mathlib

/-! # Protocol parameters, packets and what the core reports

The compile-time and per-link settings, the wire header, the item a queued packet is kept in,
and the callbacks a connection runs. A sequence number is the bits of `ludlc_id_t` below its top
bit, which is the PING or the NAK flag of the field that carries it.
-/

namespace Ludlc

/-- What the two ends of a link share: the build's header and the window of `ludlc_conn_cfg`, with
what the core checks of them. -/
structure Wire where
  /-- Bits of a sequence number: `CONFIG_LUDLC_ID_BITS` less the flag. -/
  idBits : Nat
  /-- Slots of the window, `ludlc_conn_window`. -/
  window : Nat
  /-- `CONFIG_LUDLC_CHANNEL_BITS`. -/
  chanBits : Nat
  /-- Top bits of the channel field that carry the tag. -/
  chanTagBits : Nat
  /-- `CONFIG_LUDLC_CONTROL_CHANNEL`. -/
  controlChannel : BitVec chanBits
  /-- `sizeof(ludlc_ping_packet_t)`. -/
  pingSz : Nat
  /-- `sizeof(ludlc_packet_hdr_t)`. -/
  hdrSz : Nat
  idBits_ok : idBits = 7 ∨ idBits = 15 ∨ idBits = 31
  window_ok : ∃ k, k < idBits ∧ window = 2 ^ k
  tag_ok : chanTagBits < chanBits ∧
    controlChannel &&& (BitVec.allOnes chanBits >>> chanTagBits) = controlChannel
  sz_ok : pingSz = 2 * ((idBits + 1) / 8) ∧ pingSz < hdrSz

/-- What an end sets for itself. -/
structure Cfg (w : Wire) where
  /-- `ludlc_conn_payload_lim`, in octets. -/
  payloadLim : Nat
  /-- The capabilities this end announces, `cb->caps`. -/
  caps : List UInt8
  /-- `CONFIG_LUDLC_MT`: confirmations are reported with the lock released. -/
  mt : Bool
  /-- `CONFIG_LUDLC_CONFIRM_BATCH`. -/
  confirmBatch : Nat
  caps_ok : caps.length ≤ payloadLim
  batch_ok : 0 < confirmBatch

theorem zero_lt_idBits : 0 < 7 := by decide

theorem one_lt_idBits : 1 < 7 := by decide

/-- The header's defaults, with a window of `2 ^ k`. -/
def Wire.ofWindow (k : Nat) (hk : k < 7) : Wire where
  idBits := 7
  window := 2 ^ k
  chanBits := 8
  chanTagBits := 0
  controlChannel := 0
  pingSz := 2
  hdrSz := 3
  idBits_ok := .inl rfl
  window_ok := ⟨k, hk, rfl⟩
  tag_ok := by decide
  sz_ok := by decide

/-- An end that announces nothing. -/
def Cfg.ofBuild (w : Wire) (mt : Bool) (confirmBatch : Nat) (batch_ok : 0 < confirmBatch) : Cfg w where
  payloadLim := 64
  caps := []
  mt := mt
  confirmBatch := confirmBatch
  caps_ok := by decide
  batch_ok := batch_ok

/-- A sequence number of the link. -/
abbrev Id (w : Wire) := BitVec w.idBits

abbrev Channel (w : Wire) := BitVec w.chanBits

/-- `LUDLC_MAX_TTL`. -/
def maxTtl : Nat := 127

/-- `LUDLC_CTRL_DISCONNECT`. -/
def ctrlDisconnect : UInt8 := 0x01

/-- `enum ludlc_conn_state`. -/
inductive ConnState
  | disconnected
  | waitConn1
  | waitConn2
  | connected
  | terminate
  deriving DecidableEq, Repr

namespace ConnState

def val : ConnState → Nat
  | disconnected => 0
  | waitConn1 => 1
  | waitConn2 => 2
  | connected => 3
  | terminate => 0xff

/-- What `++conn_state` leaves, the field being one octet. The handshake never increments it in
CONNECTED. -/
def next : ConnState → ConnState
  | disconnected => waitConn1
  | waitConn1 => waitConn2
  | waitConn2 => connected
  | connected => connected
  | terminate => disconnected

end ConnState

/-- An ID field of the header: its flag (`LUDLC_PING_FLAG` or `LUDLC_NAK_FLAG`) and the rest. -/
structure WireId (n : Nat) where
  flag : Bool
  id : BitVec n
  deriving DecidableEq, Repr

/-- The field holding the plain number `v`, as a handshake step's does. -/
def WireId.ofVal (n v : Nat) : WireId n := ⟨(v / 2 ^ n) % 2 = 1, BitVec.ofNat n v⟩

/-- `struct ludlc_packet_hdr`. -/
structure PacketHdr (w : Wire) where
  txId : WireId w.idBits
  ackId : WireId w.idBits
  chan : Channel w
  deriving DecidableEq

/-- `struct ludlc_packet`. `src` is a history variable: the queued packet this is a copy of, for
one that a core of this model has sent with a number. -/
structure Packet (w : Wire) where
  hdr : PacketHdr w
  payload : List UInt8
  src : Option Nat
  deriving DecidableEq

/-- A handshake step of a peer that announces nothing. -/
def Packet.hshake (w : Wire) (step : Nat) : Packet w :=
  ⟨⟨.ofVal w.idBits step, ⟨false, 0⟩, w.controlChannel⟩, [], none⟩

def Packet.ping {w : Wire} (id : Id w) (ackId : WireId w.idBits) : Packet w :=
  ⟨⟨⟨true, id⟩, ackId, w.controlChannel⟩, [], none⟩

/-- What a payload pointer points at: nothing, the DISCONNECT opcode, or a caller's buffer. -/
inductive Buf (β : Type)
  | null
  | opcode
  | user (b : β)
  deriving DecidableEq, Repr

def Buf.isNull {β : Type} : Buf β → Bool
  | null => true
  | _ => false

def Buf.isOpcode {β : Type} : Buf β → Bool
  | opcode => true
  | _ => false

/-- The pointer a caller hands over: `NULL`, or one to a buffer of its own. -/
def Buf.ofPtr {β : Type} : Option β → Buf β
  | none => null
  | some b => user b

/-- The octets a pointer reads, given what is in the callers' buffers. -/
def Buf.read {β : Type} (mem : β → List UInt8) : Buf β → List UInt8
  | null => []
  | opcode => [ctrlDisconnect]
  | user b => mem b

/-- The error a confirmation reports. -/
inductive Errno
  | ok
  | epipe
  | etimedout
  | ecanceled
  deriving DecidableEq, Repr

/-- `struct packet_queue_item`. `tag` is a history variable that tells accepted packets apart;
no function reads it. -/
structure PacketQueueItem (w : Wire) (β : Type) where
  payload : Buf β
  size : Nat
  chan : Channel w
  result : Errno
  ttl : Nat
  tag : Nat
  deriving DecidableEq

/-- What an item says of the packet as its caller handed it over. -/
structure Key (w : Wire) (β : Type) where
  tag : Nat
  chan : Channel w
  payload : Buf β
  size : Nat
  deriving DecidableEq

def PacketQueueItem.key {w : Wire} {β : Type} (it : PacketQueueItem w β) : Key w β :=
  ⟨it.tag, it.chan, it.payload, it.size⟩

/-- Where a confirmation comes from: the window, a give-up, or the unnumbered slot. -/
inductive Kind
  | numbered
  | expired
  | unnumbered
  deriving DecidableEq, Repr

/-- `struct ludlc_conn_cb`, as calls. -/
inductive Callback (w : Wire) (β : Type)
  | onCaps (data : List UInt8) (size : Nat)
  | onConnect
  | onDisconnect
  | onConfirm (kind : Kind) (pkt : PacketQueueItem w β)
  | onRecv (chan : Channel w) (data : List UInt8) (size tstamp : Nat) (src : Option Nat)
  deriving DecidableEq

/-- What a connection has done, in order. `resolved` is the point at which the core writes a
numbered packet's result, `copied` the `memcpy` of a payload into the frame, `up` the packet that
completes a handshake, `down` the start of a disconnect sweep and `swept` its end. -/
inductive Ev (w : Wire) (β : Type)
  | accepted (kind : Kind) (pkt : PacketQueueItem w β)
  | resolved (pkt : PacketQueueItem w β)
  | copied (kind : Kind) (pkt : PacketQueueItem w β)
  | call (cb : Callback w β)
  | ret (cb : Callback w β)
  | up
  | down
  | swept
  | seqReset
  deriving DecidableEq

/-- What a thread still has to do with the lock released, in order. A callback that has been
called stays as `ret` until it returns, and a reporter keeps `confirmPass` until it finds nothing
left. -/
inductive Todo (w : Wire) (β : Type)
  | call (cb : Callback w β)
  | ret (cb : Callback w β)
  | confirmUnlocked
  | confirmPass
  | handleDisconnect
  deriving DecidableEq

/-- What the functions of the API return. -/
inductive Ret
  | ok
  | last
  | einval
  | eagain
  | enotconn
  | eshutdown
  deriving DecidableEq, Repr

end Ludlc
