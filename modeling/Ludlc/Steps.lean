import Ludlc.Window

/-! # The calls, and what each can do

One statement that lists the ways `rx_handle_packet` can go, for the invariants to be proved from,
and what a disconnect leaves.
-/

namespace Ludlc

open SeqNum

variable {w : Wire} {cfg : Cfg w} {β : Type}

/-- A call of the API. `mem` is what the callers' buffers hold when it is made. -/
inductive Call (w : Wire) (β : Type)
  | enqueueData (dstChan : Channel w) (buf : Option β) (size ttl : Nat)
  | sendUrgentData (dstChan : Channel w) (buf : Option β) (size : Nat)
  | sendDisconnect
  | connect
  | handleDisconnect
  | getPacketToSend (mem : β → List UInt8)
  | receive (p : Packet w) (pktSz tstamp : Nat)

/-- The locked section of a call. A packet accepted is told from others by the length of the
history. -/
def Call.run (c : Conn cfg β) : Call w β → Out cfg β
  | enqueueData dstChan buf size ttl =>
    Ludlc.enqueueData c c.log.length dstChan (.ofPtr buf) size ttl
  | sendUrgentData dstChan buf size =>
    Ludlc.sendUrgentData c c.log.length dstChan (.ofPtr buf) size
  | sendDisconnect => Ludlc.sendDisconnect c
  | connect => Ludlc.connect c
  | handleDisconnect => Ludlc.handleDisconnect c
  | getPacketToSend mem => Ludlc.getPacketToSend mem c
  | receive p pktSz tstamp => Ludlc.receive c p pktSz tstamp

/-- The connection as the handshake leaves it, which takes no part in CONNECTED. -/
def rxUp (c : Conn cfg β) (p : Packet w) : Conn cfg β :=
  if c.connState = .connected then c
  else
    let h := rxHandleHandshake c p (isHshake p)
    if h.2.connected then (watchdogRestart h.1).emit .up else h.1

/-- What the handshake leaves in the log. -/
def upLog (c : Conn cfg β) (p : Packet w) : List (Ev w β) :=
  if c.connState ≠ .connected ∧ (rxUp c p).connState = .connected then [.up] else []

theorem rxHandleHandshake_spec (c : Conn cfg β) (p : Packet w) (hne : c.connState ≠ .connected) :
    let h := rxHandleHandshake c p (isHshake p)
    h.1 = { c with connState := h.1.connState } ∧ h.2.accept = false ∧ h.2.disconnect = false ∧
      (h.2.connected = true ↔ h.1.connState = .connected) ∧
      (h.2.cont = true → h.2.requestTx = true ∧ isHshake p = false ∧
        h.1.connState = .connected) := by
  unfold rxHandleHandshake
  split
  · split <;> simp_all
  · dsimp only
    split
    · by_cases hnext : c.connState.next = .connected <;> simp_all
    · split <;> simp_all

theorem rxUp_eq (c : Conn cfg β) (p : Packet w) :
    rxUp c p =
      { c with
        connState := (rxUp c p).connState
        wdTimer := (rxUp c p).wdTimer
        log := c.log ++ upLog c p } := by
  by_cases hc : c.connState = .connected
  · have hup : rxUp c p = c := by simp [rxUp, hc]
    have hlog : upLog c p = [] := by simp [upLog, hc]
    rw [hup, hlog, List.append_nil]
  · obtain ⟨heq, -, -, hconn, -⟩ := rxHandleHandshake_spec c p hc
    have hup : (rxUp c p).connState = (rxHandleHandshake c p (isHshake p)).1.connState := by
      simp only [rxUp, hc, if_false]
      split <;> rfl
    by_cases hcon : (rxHandleHandshake c p (isHshake p)).2.connected = true
    · have hlog : upLog c p = [.up] := by simp [upLog, hc, hup, hconn.mp hcon]
      rw [hlog]
      simp only [rxUp, hc, if_false, hcon, if_true]
      rw [heq]
      rfl
    · have hst := mt hconn.mpr hcon
      have hlog : upLog c p = [] := by simp [upLog, hup, hst]
      rw [hlog, List.append_nil]
      simp only [rxUp, hc, if_false, hcon, Bool.false_eq_true]
      rw [heq]

section

variable (c : Conn cfg β) (p : Packet w)

@[simp] theorem rxUp_flags : (rxUp c p).flags = c.flags := by rw [rxUp_eq]
@[simp] theorem rxUp_packetsQ : (rxUp c p).packetsQ = c.packetsQ := by rw [rxUp_eq]
@[simp] theorem rxUp_txHdr : (rxUp c p).txHdr = c.txHdr := by rw [rxUp_eq]
@[simp] theorem rxUp_txPayload : (rxUp c p).txPayload = c.txPayload := by rw [rxUp_eq]
@[simp] theorem rxUp_uPacket : (rxUp c p).uPacket = c.uPacket := by rw [rxUp_eq]
@[simp] theorem rxUp_uConfirm : (rxUp c p).uConfirm = c.uConfirm := by rw [rxUp_eq]
@[simp] theorem rxUp_lastQueued : (rxUp c p).lastQueued = c.lastQueued := by rw [rxUp_eq]
@[simp] theorem rxUp_lastSent : (rxUp c p).lastSent = c.lastSent := by rw [rxUp_eq]
@[simp] theorem rxUp_lastAck : (rxUp c p).lastAck = c.lastAck := by rw [rxUp_eq]
@[simp] theorem rxUp_lastReceived : (rxUp c p).lastReceived = c.lastReceived := by rw [rxUp_eq]
@[simp] theorem rxUp_lastSeen : (rxUp c p).lastSeen = c.lastSeen := by rw [rxUp_eq]
@[simp] theorem rxUp_nakTrack : (rxUp c p).nakTrack = c.nakTrack := by rw [rxUp_eq]
@[simp] theorem rxUp_lastReported : (rxUp c p).lastReported = c.lastReported := by rw [rxUp_eq]
@[simp] theorem rxUp_reportBusy : (rxUp c p).reportBusy = c.reportBusy := by rw [rxUp_eq]
@[simp] theorem rxUp_log : (rxUp c p).log = c.log ++ upLog c p := by rw [rxUp_eq]

end

theorem rxUp_connected {c : Conn cfg β} {p : Packet w} (h : c.connState = .connected) :
    rxUp c p = c := by
  simp [rxUp, h]

/-- The ways `rx_handle_packet` can go. -/
inductive RxStep (c : Conn cfg β) (p : Packet w) (pktSz : Nat) : RxOut cfg β → Prop
  /-- A packet that is not for this link. -/
  | dropped : RxStep c p pktSz ⟨c, {}, none⟩
  /-- The link is not up and the handshake takes the packet. -/
  | handshake (ret : RxRet) : rxDropped p pktSz = false → c.connState ≠ .connected →
      ret.accept = false → ret.disconnect = false → ret.cont = false →
      (ret.connected = true ↔ (rxUp c p).connState = .connected) →
      RxStep c p pktSz ⟨rxUp c p, ret, none⟩
  /-- The last step again. -/
  | lastStep : rxDropped p pktSz = false → c.connState = .connected → isHshake p = true →
      RxStep c p pktSz ⟨c, { requestTx := true }, none⟩
  /-- The peer has closed the session or has restarted. -/
  | down (ret : RxRet) : rxDropped p pktSz = false → (rxUp c p).connState = .connected →
      ret.accept = false → ret.disconnect = true → (ret.connected = true ↔ c.connState ≠ .connected) →
      RxStep c p pktSz ⟨onDisconnectLock (rxUp c p), ret, none⟩
  /-- A frame of the session. -/
  | data (ret : RxRet) (a : Conn cfg β × Option (PacketQueueItem w β) × Bool)
      (s : Conn cfg β × RxRet) : rxDropped p pktSz = false →
      (rxUp c p).connState = .connected → isHshake p = false →
      a = rxHandleAck (watchdogRestart (rxUp c p)) p.hdr.ackId →
      s = rxSequence a.1 p (isUPacket p pktSz) →
      ret.accept = s.2.accept → ret.disconnect = false →
      (ret.connected = true ↔ c.connState ≠ .connected) →
      (ret.requestTx = true ↔
        c.connState ≠ .connected ∨ a.2.2 = true ∨ s.2.requestTx = true) →
      RxStep c p pktSz ⟨s.1, ret, a.2.1⟩

theorem rxConnected_step {c : Conn cfg β} {p : Packet w} {pktSz : Nat} {ret : RxRet}
    (hdrop : rxDropped p pktSz = false) (hup : (rxUp c p).connState = .connected) (hstep : c.connState ≠ .connected → isHshake p = false)
    (hacc : ret.accept = false)
    (hdis : ret.disconnect = false) (hconn : ret.connected = true ↔ c.connState ≠ .connected)
    (hreq : ret.requestTx = true ↔ c.connState ≠ .connected)
    (hret : c.connState = .connected → ret = {}) :
    RxStep c p pktSz (rxConnected (rxUp c p) p pktSz ret) := by
  unfold rxConnected
  split
  · exact .down _ hdrop hup hacc rfl hconn
  · split
    next hs =>
      have hc : c.connState = .connected := by
        by_contra hc
        rw [hstep hc] at hs
        cases hs
      split
      · exact .down _ hdrop hup hacc rfl hconn
      · rw [rxUp_connected hc, hret hc]
        exact .lastStep hdrop hc hs
    next hs =>
      refine .data _ _ _ hdrop hup (by simpa using hs) rfl rfl rfl hdis hconn ?_
      simp [hreq, or_assoc]

theorem rxHandlePacket_step (c : Conn cfg β) (p : Packet w) (pktSz : Nat) :
    RxStep c p pktSz (rxHandlePacket c p pktSz) := by
  unfold rxHandlePacket
  split
  · exact .dropped
  next hdrop =>
  have hdrop : rxDropped p pktSz = false := by simpa using hdrop
  split
  next hne =>
    have hup : rxUp c p = if (rxHandleHandshake c p (isHshake p)).2.connected then
        (watchdogRestart (rxHandleHandshake c p (isHshake p)).1).emit .up
        else (rxHandleHandshake c p (isHshake p)).1 := by simp [rxUp, hne]
    have hst : (rxUp c p).connState = (rxHandleHandshake c p (isHshake p)).1.connState := by
      rw [hup]
      split <;> rfl
    obtain ⟨-, hacc, hdis, hconn, hcont⟩ := rxHandleHandshake_spec c p hne
    rw [← hst] at hconn hcont
    dsimp only
    rw [← hup]
    split
    next hno => exact .handshake _ hdrop hne hacc hdis (by simpa using hno) hconn
    next hyes =>
      obtain ⟨hreq, hs, hst⟩ := hcont (by simpa using hyes)
      refine rxConnected_step hdrop hst (fun _ => hs) hacc hdis ?_ ?_ (fun h => absurd h hne)
      · simp [hconn, hst, hne]
      · simp [hreq, hne]
  next heq =>
    have heq : c.connState = .connected := by simpa using heq
    have hup := rxUp_connected (p := p) heq
    have : RxStep c p pktSz (rxConnected (rxUp c p) p pktSz {}) :=
      rxConnected_step hdrop (by rw [hup, heq]) (fun h => absurd heq h) rfl rfl (by simp [heq])
        (by simp [heq]) (fun _ => rfl)
    rwa [hup] at this

/-- Where the packet stands in the peer's sequence is all that it changes. -/
theorem rxSequence_eq (c : Conn cfg β) (p : Packet w) (u : Bool) :
    (rxSequence c p u).1 =
      { c with
        lastReceived := (rxSequence c p u).1.lastReceived
        lastSeen := (rxSequence c p u).1.lastSeen
        flags := { c.flags with
          noNak := (rxSequence c p u).1.flags.noNak
          nakOut := (rxSequence c p u).1.flags.nakOut
          nakTracked := (rxSequence c p u).1.flags.nakTracked } } := by
  unfold rxSequence rxGap rxNakAnswered
  dsimp only
  repeat' split
  all_goals rfl

section

variable (c : Conn cfg β) (p : Packet w) (u : Bool)

@[simp] theorem rxSequence_connState : (rxSequence c p u).1.connState = c.connState := by
  rw [rxSequence_eq]
@[simp] theorem rxSequence_packetsQ : (rxSequence c p u).1.packetsQ = c.packetsQ := by
  rw [rxSequence_eq]
@[simp] theorem rxSequence_txHdr : (rxSequence c p u).1.txHdr = c.txHdr := by rw [rxSequence_eq]
@[simp] theorem rxSequence_txPayload : (rxSequence c p u).1.txPayload = c.txPayload := by
  rw [rxSequence_eq]
@[simp] theorem rxSequence_uPacket : (rxSequence c p u).1.uPacket = c.uPacket := by
  rw [rxSequence_eq]
@[simp] theorem rxSequence_uConfirm : (rxSequence c p u).1.uConfirm = c.uConfirm := by
  rw [rxSequence_eq]
@[simp] theorem rxSequence_lastQueued : (rxSequence c p u).1.lastQueued = c.lastQueued := by
  rw [rxSequence_eq]
@[simp] theorem rxSequence_lastSent : (rxSequence c p u).1.lastSent = c.lastSent := by
  rw [rxSequence_eq]
@[simp] theorem rxSequence_lastAck : (rxSequence c p u).1.lastAck = c.lastAck := by
  rw [rxSequence_eq]
@[simp] theorem rxSequence_nakTrack : (rxSequence c p u).1.nakTrack = c.nakTrack := by
  rw [rxSequence_eq]
@[simp] theorem rxSequence_lastReported : (rxSequence c p u).1.lastReported = c.lastReported := by
  rw [rxSequence_eq]
@[simp] theorem rxSequence_reportBusy : (rxSequence c p u).1.reportBusy = c.reportBusy := by
  rw [rxSequence_eq]
@[simp] theorem rxSequence_log : (rxSequence c p u).1.log = c.log := by rw [rxSequence_eq]
@[simp] theorem rxSequence_busOut :
    (rxSequence c p u).1.flags.busOut = c.flags.busOut := by rw [rxSequence_eq]

end

section Down

variable {c : Conn cfg β} {q : SendQueue (PacketQueueItem w β)}

theorem onDisconnectLock_eq (c : Conn cfg β) :
    onDisconnectLock c =
      { sweep c with
        lastReported := if !undrained (sweep c) && cfg.mt then 0 else c.lastReported
        lastSent := if undrained (sweep c) then c.lastSent else 0
        lastQueued := if undrained (sweep c) then c.lastQueued else 0
        lastAck := if undrained (sweep c) then c.lastQueued else 0
        lastReceived := if undrained (sweep c) then c.lastReceived else 0
        lastSeen := if undrained (sweep c) then c.lastSeen else 0
        flags := { (sweep c).flags with busOut := undrained (sweep c) }
        log := (sweep c).log ++ (if undrained (sweep c) then [] else [.seqReset]) ++ [.swept] } := by
  have hbusy : (sweep c).flags.busOut = true := by rw [sweep_eq, linkDown_eq]; rfl
  cases hu : undrained (sweep c) with
  | true =>
    rw [onDisconnectLock, seqReset_idle fun _ => hu, sweep_eq, linkDown_eq]
    simp [Conn.emit, Flags.down]
  | false =>
    rw [onDisconnectLock, seqReset_drained hbusy hu]
    simp only [Conn.emit, Bool.false_eq_true, if_false, Bool.not_false, Bool.true_and]
    rw [show (sweep c).lastReported = c.lastReported by rw [sweep_eq, linkDown_eq]]

/-- A disconnect fails the window, and starts the sequence anew unless something is left to
report. -/
theorem onDisconnectLock_spec (h : Holding c q) :
    Refines (onDisconnectLock c) (if undrained (sweep c) then q.failed cfg.mt else .empty) ∧
      (onDisconnectLock c).log = c.log ++ downLog c ++
        (q.win.flatMap fun it => resolveLog cfg (it.resolve .epipe)) ++
        (if undrained (sweep c) then [] else [.seqReset]) ++ [.swept] := by
  obtain ⟨hq, hlog⟩ := sweep_spec h
  have hbusy : (sweep c).flags.busOut = true := by rw [sweep_eq, linkDown_eq]; rfl
  constructor
  · cases hu : undrained (sweep c) with
    | true =>
      rw [onDisconnectLock, seqReset_idle fun _ => hu]
      exact ⟨hq.toHolding.congr rfl rfl rfl rfl, fun hb => by simp [hbusy] at hb, hq.closed⟩
    | false =>
      refine refines_empty ?_ ?_ ?_ ?_
      all_goals rw [onDisconnectLock_eq]; simp [hu]
      exact fun hmt hf => absurd hmt (by simp [hf])
  · rw [onDisconnectLock_eq, hlog]

@[simp] theorem onDisconnectLock_connState (c : Conn cfg β) :
    (onDisconnectLock c).connState = .disconnected := by
  rw [onDisconnectLock_eq, sweep_eq, linkDown_eq]

theorem undrained_inline (hmt : cfg.mt = false) (d : Conn cfg β) : undrained d = false := by
  simp [undrained, hmt]

end Down

end Ludlc
