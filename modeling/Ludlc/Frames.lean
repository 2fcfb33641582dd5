import Ludlc.Callbacks

/-! # What an end sends, and what it takes

The frames `ludlc_get_packet_to_send` prepares, and what a call does with the numbered packets of the
peer: which it passes to `on_recv`, and where it stands in their sequence.
-/

namespace Ludlc

open SeqNum

variable {w : Wire} {β : Type}

/-- A frame as its receiver is handed it. -/
structure Frame (w : Wire) where
  pkt : Packet w
  size : Nat
  deriving DecidableEq

/-- The frame that a call hands to the transport. -/
def Out.sent {cfg : Cfg w} (o : Out cfg β) : List (Frame w) :=
  o.frame.toList.map fun f => ⟨f.packet o.conn, f.hdrSz + f.paySz⟩

/-- A numbered packet as it was passed to `on_recv`, `tag` telling which one the frame was a copy
of. -/
structure Delivery (w : Wire) where
  tag : Nat
  chan : Channel w
  data : List UInt8
  size : Nat
  deriving DecidableEq

def Callback.delivers : Callback w β → Option (Delivery w)
  | .onRecv chan data size _ (some tag) => some ⟨tag, chan, data, size⟩
  | _ => none

/-- The numbered packets passed to `on_recv`. -/
def deliveries (log : List (Ev w β)) : List (Delivery w) :=
  log.filterMap fun
    | .call cb => cb.delivers
    | _ => none

/-- What its receiver is to get of a packet. -/
def Key.delivery (mem : β → List UInt8) (k : Key w β) : Delivery w :=
  ⟨k.tag, k.chan, (k.payload.read mem).take k.size, k.size⟩

@[simp] theorem deliveries_append (l l' : List (Ev w β)) :
    deliveries (l ++ l') = deliveries l ++ deliveries l' := List.filterMap_append

theorem deliveries_eq (log : List (Ev w β)) :
    deliveries log = (spoken log).filterMap Callback.delivers := by
  rw [deliveries, spoken, List.filterMap_filterMap]
  congr 1
  funext ev
  cases ev with
  | call cb => cases cb <;> rfl
  | _ => rfl

def todoDeliveries (todo : List (Todo w β)) : List (Delivery w) :=
  todo.filterMap fun
    | .call cb => cb.delivers
    | _ => none

variable {cfg : Cfg w} {c d : Conn cfg β}

theorem Hushed.deliveries (h : Hushed c d) :
    ∃ evs, d.log = c.log ++ evs ∧ deliveries evs = [] := by
  obtain ⟨evs, hlog, hs⟩ := h
  exact ⟨evs, hlog, by rw [deliveries_eq, hs, List.filterMap_nil]⟩

theorem runTodo_deliveries (c : Conn cfg β) (a : Todo w β) :
    ∃ evs, (runTodo c a).log = c.log ++ evs ∧ deliveries evs = todoDeliveries [a] := by
  cases a with
  | call cb => exact ⟨[.call cb, .ret cb], by simp [runTodo, callNow, Conn.emit], rfl⟩
  | handleDisconnect =>
    obtain ⟨evs, hlog, hd⟩ := (hushed_disconnectCore c).deliveries
    simp only [runTodo]
    split
    · refine ⟨evs ++ [.call .onDisconnect, .ret .onDisconnect], ?_, ?_⟩
      · simp [callNow, Conn.emit, hlog]
      · rw [deliveries_append, hd]
        rfl
    · exact ⟨evs, hlog, hd⟩
  | _ => exact ⟨[], by simp [runTodo], rfl⟩

theorem settle_deliveries (o : Out cfg β) :
    ∃ evs, o.settle.log = o.conn.log ++ evs ∧ deliveries evs = todoDeliveries o.todo := by
  unfold Out.settle
  generalize o.todo = todo
  generalize o.conn = c
  induction todo generalizing c with
  | nil => exact ⟨[], by simp, rfl⟩
  | cons a todo ih =>
    obtain ⟨evs, hlog, hd⟩ := runTodo_deliveries c a
    obtain ⟨evs', hlog', hd'⟩ := ih (runTodo c a)
    refine ⟨evs ++ evs', ?_, ?_⟩
    · rw [List.foldl_cons, hlog', hlog, List.append_assoc]
    · rw [deliveries_append, hd, hd', todoDeliveries, todoDeliveries, ← List.filterMap_append]
      rfl

theorem run_deliveries (c : Conn cfg β) (a : Call w β) :
    ∃ evs, (a.run c).settle.log = c.log ++ evs ∧
      deliveries evs = todoDeliveries (a.run c).todo := by
  obtain ⟨evs, hlog, hd⟩ := (run_hushed c a).deliveries
  obtain ⟨evs', hlog', hd'⟩ := settle_deliveries (a.run c)
  refine ⟨evs ++ evs', ?_, ?_⟩
  · rw [hlog', hlog, List.append_assoc]
  · rw [deliveries_append, hd, hd']
    rfl

theorem run_frame (c : Conn cfg β) {a : Call w β} (hg : ∀ mem, a ≠ .getPacketToSend mem) :
    (a.run c).frame = none := by
  cases a with
  | enqueueData =>
    simp only [Call.run, enqueueData]
    repeat' split
    all_goals rfl
  | sendUrgentData =>
    simp only [Call.run, sendUrgentData]
    repeat' split
    all_goals rfl
  | sendDisconnect =>
    simp only [Call.run, sendDisconnect]
    repeat' split
    all_goals rfl
  | connect =>
    simp only [Call.run, connect]
    repeat' split
    all_goals rfl
  | handleDisconnect => rfl
  | getPacketToSend mem => exact absurd rfl (hg mem)
  | receive => rfl

theorem todoDeliveries_receive (r : RxOut cfg β) (p : Packet w) (pktSz tstamp : Nat) :
    todoDeliveries (receiveTodo r p pktSz tstamp) =
      if r.ret.accept then
        p.src.toList.map fun tag => ⟨tag, p.hdr.chan, p.payload, pktSz - w.hdrSz⟩
      else [] := by
  have hexp : todoDeliveries (.confirmUnlocked ::
      r.expired.toList.map fun it => Todo.call (.onConfirm .expired it)) = [] := by
    cases r.expired <;> rfl
  have hif : ∀ (b : Bool) (cb : Callback w β), todoDeliveries (callIf b cb) =
      if b then cb.delivers.toList else [] := by
    intro b cb
    cases b
    · rfl
    · cases h : cb.delivers <;> simp [callIf, todoDeliveries, h]
  simp only [receiveTodo, todoDeliveries, List.filterMap_append] at hexp hif ⊢
  rw [hexp, hif, hif, hif, hif]
  cases p.src <;> simp [Callback.delivers]

/-- The frames `ludlc_get_packet_to_send` prepares: a step of the handshake, one without a number of its
own, or the next packet of the window. -/
inductive Sends (mem : β → List UInt8) (c : Conn cfg β) (f : Frame w) : Prop
  | hshake : c.connState ≠ .connected → f.pkt.src = none → f.pkt.hdr.chan = w.controlChannel →
      Sends mem c f
  | unnumbered : f.pkt.src = none → f.pkt.hdr.txId.flag = true → Sends mem c f
  | data (it : PacketQueueItem w β) : txNumbered c = true →
      it = c.packetsQ (slot (c.lastSent + 1)) → f.pkt.hdr.txId = ⟨false, c.lastSent + 1⟩ →
      f.pkt.src = some it.tag →
      it.key.delivery mem = ⟨it.tag, f.pkt.hdr.chan, f.pkt.payload, f.size - w.hdrSz⟩ →
      Sends mem c f

theorem txAck_hdr (c : Conn cfg β) (id : Id w) (ping numbered : Bool) :
    (txAck c id ping numbered).txHdr.txId = c.txHdr.txId ∧
      (txAck c id ping numbered).txHdr.chan = c.txHdr.chan := by
  unfold txAck
  dsimp only
  split <;> exact ⟨rfl, rfl⟩

theorem txPrep_hdr (c : Conn cfg β) (sent : Bool) :
    (c.connState ≠ .connected ∧ (txPrep c sent).it = none ∧
      (txPrep c sent).conn.txHdr.chan = w.controlChannel) ∨
    ((txPrep c sent).it.all (·.1 ≠ .numbered) = true ∧
      (txPrep c sent).conn.txHdr.txId.flag = true) ∨
    (txNumbered c = true ∧
      (txPrep c sent).it = some (.numbered, c.packetsQ (slot (c.lastSent + 1))) ∧
      (txPrep c sent).hdrSz = w.hdrSz ∧
      (txPrep c sent).conn.txHdr.txId = ⟨false, c.lastSent + 1⟩ ∧
      (txPrep c sent).conn.txHdr.chan = (c.packetsQ (slot (c.lastSent + 1))).chan) := by
  unfold txPrep txConnected
  split
  next hconn =>
    split
    · right; left
      exact ⟨rfl, by rw [txUrgent, (txAck_hdr _ _ _ _).1]⟩
    next hidle =>
    split
    · right; left
      exact ⟨rfl, by rw [txPing, (txAck_hdr _ _ _ _).1]⟩
    next hlast =>
      right; right
      refine ⟨?_, rfl, rfl, ?_, ?_⟩
      · simpa [txNumbered, hconn, hlast] using hidle
      · rw [txData, (txAck_hdr _ _ _ _).1]
      · rw [txData, (txAck_hdr _ _ _ _).2]
  next hconn => exact .inl ⟨hconn, rfl, rfl⟩

theorem txCopy_hdr (mem : β → List UInt8) (p : TxPrep cfg β) :
    (txCopy mem p).1.txHdr = p.conn.txHdr ∧ (txCopy mem p).2.it = p.it := by
  unfold txCopy
  split
  next hit => exact ⟨rfl, hit.symm⟩
  next hit =>
    dsimp only
    split <;> exact ⟨rfl, hit.symm⟩

theorem txCopy_octets (mem : β → List UInt8) (p : TxPrep cfg β) {kind : Kind}
    {it : PacketQueueItem w β} (hit : p.it = some (kind, it)) :
    (((txCopy mem p).2.octets (txCopy mem p).1).take (txCopy mem p).2.paySz =
      (it.payload.read mem).take it.size) ∧ (txCopy mem p).2.paySz = it.size ∧
      (txCopy mem p).2.hdrSz = p.hdrSz := by
  simp only [txCopy, hit, TxFrame.octets]
  by_cases hsize : it.size = 0
  · simp [hsize]
  · simp [hsize, Conn.emit]

theorem TxFrame.packet_src_numbered {f : TxFrame w β} {it : PacketQueueItem w β}
    (hit : f.it = some (.numbered, it)) (c : Conn cfg β) : (f.packet c).src = some it.tag := by
  rw [TxFrame.packet, hit]

theorem TxFrame.packet_src_none {f : TxFrame w β} (hit : f.it.all (·.1 ≠ .numbered) = true)
    (c : Conn cfg β) : (f.packet c).src = none := by
  unfold TxFrame.packet
  dsimp only
  split
  next it hi => simp [hi] at hit
  next => rfl

theorem getPacketToSend_sends (mem : β → List UInt8) (c : Conn cfg β) :
    ∀ f ∈ (getPacketToSend mem c).sent, Sends mem c f := by
  cases hd : txDiscSent c with
  | true =>
    rw [getPacketToSend_disc mem hd]
    rintro f ⟨⟩
  | false =>
    have hprep := txPrep_hdr (txDone c !c.flags.uDone) (!c.flags.uDone)
    generalize hp : txPrep (txDone c !c.flags.uDone) (!c.flags.uDone) = p at hprep
    obtain ⟨hhdr, hit⟩ := txCopy_hdr mem p
    intro f hf
    simp only [getPacketToSend, hd, Bool.false_eq_true, if_false, Out.sent, hp, Option.toList_some,
      List.map_cons, List.map_nil, List.mem_singleton] at hf
    have hpkt : f.pkt.hdr = p.conn.txHdr := by
      rw [hf]
      exact hhdr
    rcases hprep with ⟨hconn, hnone, hchan⟩ | ⟨hkind, hflag⟩ | ⟨hnum, hitem, hsz, hid, hchan⟩
    · apply Sends.hshake (show c.connState ≠ .connected from hconn)
      · rw [hf]
        exact TxFrame.packet_src_none (by rw [hit, hnone]; rfl) _
      · rw [hpkt, hchan]
    · apply Sends.unnumbered
      · rw [hf]
        exact TxFrame.packet_src_none (by rw [hit]; exact hkind) _
      · rw [hpkt, hflag]
    · obtain ⟨hoct, hpay, hhdrSz⟩ := txCopy_octets mem p hitem
      apply Sends.data _ (show txNumbered c = true from hnum) rfl
      · rw [hpkt, hid]
        rfl
      · rw [hf]
        exact TxFrame.packet_src_numbered (hit.trans hitem) _
      · have hdata : f.pkt.payload = ((txCopy mem p).2.octets (txCopy mem p).1).take
            (txCopy mem p).2.paySz := by
          rw [hf]
          rfl
        have hsize : f.size = (txCopy mem p).2.hdrSz + (txCopy mem p).2.paySz := by rw [hf]
        rw [hdata, hoct, hsize, hpay, hhdrSz, hsz, hpkt, hchan, Nat.add_sub_cancel_left]
        rfl

theorem txAck_ackId (c : Conn cfg β) (id : Id w) (ping numbered : Bool) :
    (txAck c id ping numbered).txHdr.ackId.id = c.lastReceived := by
  unfold txAck
  dsimp only
  split <;> rfl

theorem txPrep_ackId (c : Conn cfg β) (sent : Bool) : (txPrep c sent).conn.txHdr.ackId.id =
    if c.connState = .connected then c.lastReceived else 0 := by
  unfold txPrep txConnected
  split
  · split
    · exact txAck_ackId _ _ _ _
    · split
      all_goals exact txAck_ackId _ _ _ _
  · rfl

theorem getPacketToSend_ackId (mem : β → List UInt8) (c : Conn cfg β) :
    ∀ f ∈ (getPacketToSend mem c).sent, f.pkt.hdr.ackId.id =
      if c.connState = .connected then c.lastReceived else 0 := by
  cases hd : txDiscSent c with
  | true =>
    rw [getPacketToSend_disc mem hd]
    rintro f ⟨⟩
  | false =>
    intro f hf
    simp only [getPacketToSend, hd, Bool.false_eq_true, if_false, Out.sent, Option.toList_some,
      List.map_cons, List.map_nil, List.mem_singleton] at hf
    have hhdr := (txCopy_hdr mem (txPrep (txDone c !c.flags.uDone) (!c.flags.uDone))).1
    rw [hf]
    exact (congrArg (·.ackId.id) hhdr).trans (txPrep_ackId _ _)

theorem rxGap_lastReceived (c : Conn cfg β) (newPass : Bool) :
    (rxGap c newPass).1.lastReceived = c.lastReceived := by
  unfold rxGap
  cases newPass
  all_goals
    simp only [Bool.false_eq_true, if_false, if_true]
    split <;> rfl

/-- A numbered packet is accepted if it is the next one, and nothing else moves `last_received`. -/
theorem rxSequence_cases (c : Conn cfg β) (p : Packet w) (u : Bool) :
    (p.hdr.txId.flag = false ∧ p.hdr.txId.id = c.lastReceived + 1 ∧
      (rxSequence c p u).1.lastReceived = p.hdr.txId.id ∧ (rxSequence c p u).2.accept = true) ∨
    ((rxSequence c p u).1.lastReceived = c.lastReceived ∧
      ((rxSequence c p u).2.accept = true → p.hdr.txId.flag = true)) := by
  unfold rxSequence
  dsimp only
  split
  next hflag =>
    right
    refine ⟨?_, fun _ => hflag⟩
    split
    · rfl
    · exact rxGap_lastReceived c false
  next hflag =>
  split
  next hnext =>
    left
    refine ⟨by simpa using hflag, ?_, rfl, rfl⟩
    have hzero : p.hdr.txId.id - c.lastReceived - 1 = 0 := BitVec.eq_of_toNat_eq hnext
    rw [← sub_add_cancel p.hdr.txId.id (c.lastReceived + 1), sub_add_eq_sub_sub, hzero, zero_add]
  · right
    split
    · exact ⟨rxGap_lastReceived c _, by simp⟩
    · exact ⟨rfl, by simp⟩

/-- A packet other than a handshake step completes the handshake in WAIT_CONN2, and breaks it off
elsewhere. -/
theorem rxUp_other {p : Packet w} (hne : d.connState ≠ .connected) (hs : isHshake p = false) :
    d.connState = .waitConn2 ∨ (rxUp d p).connState = .disconnected := by
  by_cases hwait : d.connState = .waitConn2
  · exact .inl hwait
  · right
    simp [rxUp, hne, rxHandleHandshake, hs, hwait]

/-- What an end does with a frame, as far as its peer's numbered packets go. -/
inductive Takes (d : Conn cfg β) (f : Frame w) (d' : Conn cfg β) : Prop
  | away : d'.connState = .disconnected → deliveries d'.log = deliveries d.log → Takes d f d'
  | still : d'.connState = d.connState → d'.lastReceived = d.lastReceived →
      deliveries d'.log = deliveries d.log → Takes d f d'
  | hshake : d.connState ≠ .connected → isHshake f.pkt = true →
      deliveries d'.log = deliveries d.log → Takes d f d'
  | opened : d.connState = .waitConn2 → deliveries d'.log = deliveries d.log → Takes d f d'
  | next : d.connState = .connected ∨ d.connState = .waitConn2 → f.pkt.hdr.txId.flag = false →
      isHshake f.pkt = false → f.pkt.hdr.txId.id = d.lastReceived + 1 →
      d'.connState = .connected → d'.lastReceived = f.pkt.hdr.txId.id →
      deliveries d'.log = deliveries d.log ++
        f.pkt.src.toList.map (fun tag => ⟨tag, f.pkt.hdr.chan, f.pkt.payload, f.size - w.hdrSz⟩) →
      Takes d f d'

theorem receive_takes (d : Conn cfg β) (f : Frame w) (tstamp : Nat)
    (hsrc : f.pkt.hdr.txId.flag = true → f.pkt.src = none) :
    Takes d f (receive d f.pkt f.size tstamp).settle := by
  obtain ⟨evs, hlog, hdel⟩ := run_deliveries d (.receive f.pkt f.size tstamp)
  change (receive d f.pkt f.size tstamp).settle.log = _ at hlog
  have hdel : deliveries (receive d f.pkt f.size tstamp).settle.log = deliveries d.log ++
      if (rxHandlePacket d f.pkt f.size).ret.accept then
        f.pkt.src.toList.map fun tag => ⟨tag, f.pkt.hdr.chan, f.pkt.payload, f.size - w.hdrSz⟩
      else [] := by
    rw [hlog, deliveries_append, hdel, ← todoDeliveries_receive _ _ _ tstamp]
    rfl
  have hsettle := settle_eq (receive_todo d f.pkt f.size tstamp)
  have hstate : (receive d f.pkt f.size tstamp).settle.connState =
      (rxHandlePacket d f.pkt f.size).conn.connState := by rw [hsettle]; rfl
  have hrecv : (receive d f.pkt f.size tstamp).settle.lastReceived =
      (rxHandlePacket d f.pkt f.size).conn.lastReceived := by rw [hsettle]; rfl
  generalize (receive d f.pkt f.size tstamp).settle = d' at hdel hstate hrecv ⊢
  have hstep := rxHandlePacket_step d f.pkt f.size
  generalize rxHandlePacket d f.pkt f.size = r at hstep hdel hstate hrecv
  have hquiet : r.ret.accept = false → deliveries d'.log = deliveries d.log := by
    intro hno
    simpa [hno] using hdel
  cases hstep with
  | dropped => exact .still hstate hrecv (hquiet rfl)
  | handshake ret _ hne hacc =>
    cases hs : isHshake f.pkt with
    | true => exact .hshake hne hs (hquiet hacc)
    | false =>
      rcases rxUp_other hne hs with hwait | hdown
      · exact .opened hwait (hquiet hacc)
      · exact .away (hstate.trans hdown) (hquiet hacc)
  | lastStep => exact .still hstate hrecv (hquiet rfl)
  | down ret _ _ hacc => exact .away (by simpa using hstate) (hquiet hacc)
  | data ret a s _ hup hs ha hseq hacc =>
    have hrest := rxHandleAck_rest (watchdogRestart (rxUp d f.pkt)) f.pkt.hdr.ackId
    rw [← ha] at hrest
    have hlast : a.1.lastReceived = d.lastReceived := by
      rw [hrest.lastReceived]
      exact rxUp_lastReceived d f.pkt
    have hconn : d'.connState = .connected := by
      rw [hstate, hseq, rxSequence_connState, hrest.connState]
      exact hup
    have hwas : d.connState = .connected ∨ d.connState = .waitConn2 := by
      by_cases hne : d.connState = .connected
      · exact .inl hne
      · rcases rxUp_other hne hs with hwait | hdown
        · exact .inr hwait
        · rw [hup] at hdown
          cases hdown
    have hcases := rxSequence_cases a.1 f.pkt (isUPacket f.pkt f.size)
    rw [← hseq, hlast] at hcases
    rcases hcases with ⟨hflag, hid, hnow, hyes⟩ | ⟨hnow, hflag⟩
    · apply Takes.next hwas hflag hs hid hconn (hrecv.trans hnow)
      rw [hdel, if_pos (hacc.trans hyes)]
    · have hsame : deliveries d'.log = deliveries d.log := by
        rw [hdel]
        split
        next hyes => simp [hsrc (hflag (hacc ▸ hyes))]
        next => exact List.append_nil _
      rcases hwas with hwas | hwas
      · exact .still (hconn.trans hwas.symm) (hrecv.trans hnow) hsame
      · exact .opened hwas hsame

/-- What a call that receives nothing leaves alone, unless it takes the link down. -/
def Rests (d d' : Conn cfg β) : Prop :=
  d'.connState = .disconnected ∨ d'.connState = d.connState ∧ d'.lastReceived = d.lastReceived

theorem disconnectCore_rests (d : Conn cfg β) : Rests d (disconnectCore d).1 := by
  unfold disconnectCore
  split
  · exact .inl (onDisconnectLock_connState d)
  · exact .inr ⟨rfl, rfl⟩

theorem run_rests (d : Conn cfg β) {a : Call w β} (hr : ∀ p n t, a ≠ .receive p n t) :
    Rests d (a.run d).conn ∧ todoDeliveries (a.run d).todo = [] := by
  cases a with
  | enqueueData dstChan buf size ttl =>
    obtain ⟨htodo, hd⟩ := enqueueData_cases d d.log.length dstChan (.ofPtr buf) size ttl
    simp only [Call.run, htodo]
    rcases hd with hd | ⟨-, -, -, -, hd⟩ <;> rw [hd]
    all_goals exact ⟨.inr ⟨rfl, rfl⟩, rfl⟩
  | sendUrgentData dstChan buf size =>
    obtain ⟨htodo, hd⟩ := sendUrgentData_cases d d.log.length dstChan (.ofPtr buf) size
    simp only [Call.run, htodo]
    rcases hd with hd | ⟨-, -, -, -, hd⟩ <;> rw [hd]
    all_goals exact ⟨.inr ⟨rfl, rfl⟩, rfl⟩
  | sendDisconnect =>
    simp only [Call.run, sendDisconnect]
    split
    · exact ⟨.inr ⟨rfl, rfl⟩, rfl⟩
    split
    · exact ⟨.inr ⟨rfl, rfl⟩, rfl⟩
    · refine ⟨.inr ?_, rfl⟩
      dsimp only
      unfold confirmULock
      repeat' split
      all_goals exact ⟨rfl, rfl⟩
  | connect =>
    simp only [Call.run, connect]
    split
    · exact ⟨.inr ⟨rfl, rfl⟩, rfl⟩
    split
    · exact ⟨.inr ⟨rfl, rfl⟩, rfl⟩
    · exact ⟨.inl (onDisconnectLock_connState d), rfl⟩
  | handleDisconnect =>
    refine ⟨disconnectCore_rests d, ?_⟩
    simp only [Call.run, handleDisconnect]
    split <;> rfl
  | getPacketToSend mem =>
    simp only [Call.run]
    cases hd : txDiscSent d with
    | true =>
      rw [getPacketToSend_disc mem hd]
      exact ⟨.inr ⟨rfl, rfl⟩, rfl⟩
    | false =>
      obtain ⟨hs, -⟩ := getPacketToSend_step mem hd
      refine ⟨.inr ⟨hs.connState, hs.lastReceived⟩, ?_⟩
      simp only [getPacketToSend, hd, Bool.false_eq_true, if_false]
      split <;> rfl
  | receive p n t => exact absurd rfl (hr p n t)

theorem runTodo_rests {d d' : Conn cfg β} (h : Rests d d') (a : Todo w β) :
    Rests d (runTodo d' a) := by
  cases a with
  | handleDisconnect =>
    have hcore : Rests d (disconnectCore d').1 := by
      rcases disconnectCore_rests d' with hdown | ⟨hstate, hrecv⟩
      · exact .inl hdown
      · rcases h with hdown | ⟨hstate', hrecv'⟩
        · exact .inl (hstate.trans hdown)
        · exact .inr ⟨hstate.trans hstate', hrecv.trans hrecv'⟩
    simp only [runTodo]
    split <;> exact hcore
  | _ => exact h

theorem settle_rests (d : Conn cfg β) {a : Call w β} (hr : ∀ p n t, a ≠ .receive p n t) :
    Rests d (a.run d).settle ∧ deliveries (a.run d).settle.log = deliveries d.log := by
  obtain ⟨hconn, htodo⟩ := run_rests d hr
  constructor
  · unfold Out.settle
    generalize (a.run d).todo = todo
    generalize (a.run d).conn = d' at hconn
    induction todo generalizing d' with
    | nil => exact hconn
    | cons a todo ih => exact ih _ (runTodo_rests hconn a)
  · obtain ⟨evs, hlog, hd⟩ := run_deliveries d a
    rw [hlog, deliveries_append, hd, htodo, List.append_nil]

end Ludlc
