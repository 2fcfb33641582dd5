import Ludlc.Finish
import Ludlc.Tally

/-! # An end within a session

An end that is CONNECTED, between two calls, in either build: its window, what its history says of it, and
what each call does to them while the session goes on.
-/

namespace Ludlc

open SeqNum

variable {w : Wire} {cfg : Cfg w} {β : Type}

/-- A frame that its receiver does not drop, and that neither ends nor restarts a session. -/
structure Frame.OfSession (f : Frame w) : Prop where
  kept : rxDropped f.pkt f.size = false
  noStep : isHshake f.pkt = false
  noOpcode : isUPacket f.pkt f.size = true → f.pkt.hdr.chan ≠ w.controlChannel
  src : f.pkt.hdr.txId.flag = true → f.pkt.src = none

/-- The numbered packets confirmed with 0. -/
def okItems (log : List (Ev w β)) : List (PacketQueueItem w β) :=
  (confirmedItems log).filter (·.result = .ok)

theorem okItems_append (l l' : List (Ev w β)) : okItems (l ++ l') = okItems l ++ okItems l' := by
  rw [okItems, confirmedItems_append, List.filter_append]
  rfl

theorem Quiet.append {evs evs' : List (Ev w β)} (h : Quiet evs) (h' : Quiet evs') :
    Quiet (evs ++ evs') :=
  fun e he => (List.mem_append.mp he).elim (h e) (h' e)

/-- An end of a session, between two calls. -/
structure Up (c : Conn cfg β) (q : SendQueue (PacketQueueItem w β)) : Prop where
  refines : Refines c q
  settled : q.pend = []
  connState : c.connState = .connected
  busOut : c.flags.busOut = false
  discAfterTx : c.flags.discAfterTx = false
  uConfirm : c.flags.uConfirm = false
  reportBusy : c.reportBusy = false
  chans : ∀ it ∈ q.win, isCtrlChan it.chan = false
  uChan : c.flags.uIdle = false → isCtrlChan c.uPacket.chan = false
  tagged : Tagged (acceptedKeys c.log) c.log.length
  keys : acceptedKeys c.log = confirmedKeys c.log ++ q.win.map (·.key)
  results : ∀ it ∈ confirmedItems c.log, it.result = .ok ∨ it.result = .etimedout
  acked : (okItems c.log).length = q.base

variable {c d : Conn cfg β} {q : SendQueue (PacketQueueItem w β)}

theorem ctrlChan_ne {chan : Channel w} (h : isCtrlChan chan = false) : chan ≠ w.controlChannel := by
  rintro rfl
  have hctrl : isCtrlChan w.controlChannel = true := decide_eq_true w.tag_ok.2
  rw [hctrl] at h
  cases h

/-! ### Calls that neither send nor receive -/

/-- A packet is taken into the window, or refused. -/
theorem Up.enqueueData (h : Up c q) (dstChan : Channel w) (buf : Option β) (size ttl : Nat) :
    let d := ((Call.enqueueData dstChan buf size ttl).run c).finish
    ∃ q', Up d q' ∧ q'.base = q.base ∧ okItems d.log = okItems c.log ∧
      deliveries d.log = deliveries c.log ∧ d.lastReceived = c.lastReceived ∧
      (q'.win.map (·.key) = q.win.map (·.key) ∨ ∃ k, q'.win.map (·.key) = q.win.map (·.key) ++ [k]) := by
  obtain ⟨htodo, hc⟩ := enqueueData_cases c c.log.length dstChan (.ofPtr buf) size ttl
  simp only [Call.run, Out.finish, htodo, List.foldl_nil]
  rcases hc with hc | ⟨hopen, hroom, hchan, -, hc⟩
  · rw [hc]
    exact ⟨q, h, rfl, rfl, rfl, rfl, .inl rfl⟩
  · rw [hc]
    generalize hit : c.queuedItem c.log.length dstChan (.ofPtr buf) size ttl = it
    have htag : it.tag = c.log.length := by rw [← hit]; rfl
    have httl : 1 ≤ it.ttl ∧ it.ttl ≤ maxTtl := by rw [← hit]; exact normTtl_bounds ttl
    have hctrl : isCtrlChan it.chan = false := by rw [← hit]; exact hchan
    have hconf : confirmedItems (c.push it).log = confirmedItems c.log := by
      rw [Conn.push, confirmedItems_append]
      exact List.append_nil _
    have hacc : acceptedKeys (c.push it).log = acceptedKeys c.log ++ [it.key] := by
      rw [Conn.push, acceptedKeys_append, acceptedKeys_accepted]
    refine ⟨q.push it, ⟨push_spec h.refines hopen hroom httl, h.settled, h.connState, h.busOut,
      h.discAfterTx, h.uConfirm, h.reportBusy, ?_, h.uChan, ?_, ?_, ?_, ?_⟩, rfl, ?_, ?_, rfl,
      .inr ⟨it.key, by simp [SendQueue.push]⟩⟩
    · intro x hx
      rcases List.mem_append.mp hx with hx | hx
      · exact h.chans x hx
      · rw [List.mem_singleton.mp hx]
        exact hctrl
    · apply h.tagged.append hacc
      · simp [Conn.push]
      · simp
      · intro k hk
        rw [List.mem_singleton.mp hk]
        exact htag
    · rw [hacc, h.keys, confirmedKeys, confirmedKeys, hconf]
      simp [SendQueue.push]
    · rw [hconf]
      exact h.results
    · rw [okItems, hconf]
      exact h.acked
    · rw [okItems, hconf, okItems]
    · rw [Conn.push, deliveries_append]
      exact List.append_nil _

/-- A change that leaves the packets of the window alone and adds nothing to the history but what says
nothing of numbered packets. -/
theorem Up.frame {q' : SendQueue (PacketQueueItem w β)} (h : Up c q) (evs : List (Ev w β))
    (hrefines : Refines d q') (hpend : q'.pend = q.pend) (hwin : q'.win = q.win)
    (hbase : q'.base = q.base) (hstate : d.connState = c.connState) (hbusy : d.flags.busOut = c.flags.busOut)
    (hdisc : d.flags.discAfterTx = c.flags.discAfterTx) (hu : d.flags.uConfirm = c.flags.uConfirm)
    (hrep : d.reportBusy = c.reportBusy)
    (hchan : d.flags.uIdle = false → isCtrlChan d.uPacket.chan = false)
    (hlog : d.log = c.log ++ evs) (hq : Quiet evs) :
    Up d q' ∧ okItems d.log = okItems c.log := by
  have hconf : confirmedItems d.log = confirmedItems c.log := by
    rw [hlog, confirmedItems_append, hq.confirmed, List.append_nil]
  have hacc : acceptedKeys d.log = acceptedKeys c.log := by
    rw [hlog, acceptedKeys_append, hq.accepted, List.append_nil]
  have hok : okItems d.log = okItems c.log := by rw [okItems, hconf, okItems]
  refine ⟨⟨hrefines, hpend.trans h.settled, hstate.trans h.connState, hbusy.trans h.busOut,
    hdisc.trans h.discAfterTx, hu.trans h.uConfirm, hrep.trans h.reportBusy, hwin ▸ h.chans, hchan, ?_,
    ?_, ?_, ?_⟩, hok⟩
  · exact h.tagged.later hacc (by rw [hlog, List.length_append]; omega)
  · rw [hacc, h.keys, confirmedKeys, confirmedKeys, hconf, hwin]
  · rw [hconf]
    exact h.results
  · rw [hok, hbase]
    exact h.acked

theorem Up.sendUrgentData (h : Up c q) (dstChan : Channel w) (buf : Option β) (size : Nat) :
    let d := ((Call.sendUrgentData dstChan buf size).run c).finish
    Up d q ∧ okItems d.log = okItems c.log ∧ deliveries d.log = deliveries c.log ∧
      d.lastReceived = c.lastReceived := by
  obtain ⟨htodo, hc⟩ := sendUrgentData_cases c c.log.length dstChan (.ofPtr buf) size
  simp only [Call.run, Out.finish, htodo, List.foldl_nil]
  rcases hc with hc | ⟨-, -, -, huser, hc⟩
  · rw [hc]
    exact ⟨h, rfl, rfl, rfl⟩
  · rw [hc]
    have hctrl : isCtrlChan dstChan = false := by
      simp only [uSendable, Bool.and_eq_true, Bool.not_eq_true'] at huser
      exact huser.2
    obtain ⟨hup, hok⟩ := h.frame (d := c.hold (c.urgentItem c.log.length dstChan (.ofPtr buf) size))
      [.accepted .unnumbered (c.urgentItem c.log.length dstChan (.ofPtr buf) size)]
      (h.refines.congr rfl rfl rfl rfl rfl rfl) rfl rfl rfl rfl rfl rfl rfl rfl (fun _ => hctrl) rfl
      (quiet_cons rfl quiet_nil)
    refine ⟨hup, hok, ?_, rfl⟩
    rw [Conn.hold, deliveries_append]
    exact List.append_nil _

/-! ### Sending -/

/-- What a CONNECTED end sends. -/
inductive SentAs (mem : β → List UInt8) (c : Conn cfg β) (f : Frame w) : Prop
  | unnumbered : c.flags.uIdle = false → f.pkt.hdr.txId.flag = true → f.pkt.hdr.chan = c.uPacket.chan →
      f.pkt.src = none → SentAs mem c f
  | ping : c.flags.uIdle = true → c.lastSent = c.lastQueued → f.pkt.hdr.txId = ⟨true, c.lastSent + 1⟩ →
      f.size = w.pingSz → f.pkt.src = none → SentAs mem c f
  | data (it : PacketQueueItem w β) : txNumbered c = true → it = c.packetsQ (slot (c.lastSent + 1)) →
      f.pkt.hdr.txId = ⟨false, c.lastSent + 1⟩ → f.pkt.hdr.chan = it.chan → w.hdrSz ≤ f.size →
      f.carried = [it.key.delivery mem] → SentAs mem c f

theorem getPacketToSend_sentAs (mem : β → List UInt8) (hconn : c.connState = .connected)
    (hd : txDiscSent c = false) : ∃ f, (getPacketToSend mem c).sent = [f] ∧ SentAs mem c f ∧
      f.pkt.hdr.ackId = (txPrep (txDone c !c.flags.uDone) !c.flags.uDone).conn.txHdr.ackId := by
  generalize hp : txPrep (txDone c !c.flags.uDone) (!c.flags.uDone) = p
  obtain ⟨hhdr, hit⟩ := txCopy_hdr mem p
  let d : Conn cfg β := { (txCopy mem p).1 with pingTimer := true }
  have hsent : (getPacketToSend mem c).sent =
      [⟨(txCopy mem p).2.packet d, (txCopy mem p).2.hdrSz + (txCopy mem p).2.paySz⟩] := by
    simp [getPacketToSend, hd, Out.sent, hp, d]
  refine ⟨_, hsent, ?_, congrArg PacketHdr.ackId hhdr⟩
  have hconn' : (txDone c !c.flags.uDone).connState = .connected := hconn
  rw [txPrep, if_pos hconn', txConnected] at hp
  split at hp
  next hidle =>
    have hidle : c.flags.uIdle = false := by simpa [txDone] using hidle
    have hkind : p.it = some (.unnumbered, (txDone c !c.flags.uDone).uPacket) := by rw [← hp]; rfl
    refine .unnumbered hidle ?_ ?_ (TxFrame.packet_src_none (by rw [hit, hkind]; rfl) _)
    · refine (congrArg (·.txId.flag) hhdr).trans ?_
      rw [← hp, txUrgent, (txAck_hdr _ _ _ _).1]
    · refine (congrArg (·.chan) hhdr).trans ?_
      rw [← hp, txUrgent, (txAck_hdr _ _ _ _).2]
      dsimp only [txDone]
      split <;> rfl
  next hidle =>
  have hidle : c.flags.uIdle = true := by simpa [txDone] using hidle
  split at hp
  next hlast =>
    have hnone : p.it = none := by rw [← hp]; rfl
    have hsz : p.hdrSz = w.pingSz ∧ p.paySz = 0 := by
      rw [← hp]
      exact ⟨rfl, rfl⟩
    refine .ping hidle hlast ?_ ?_ (TxFrame.packet_src_none (by rw [hit, hnone]; rfl) _)
    · refine (congrArg (·.txId) hhdr).trans ?_
      rw [← hp, txPing, (txAck_hdr _ _ _ _).1]
      rfl
    · simp [txCopy, hnone, hsz]
  next hlast =>
    have hlast : c.lastSent ≠ c.lastQueued := hlast
    have hnum : txNumbered c = true := by simp [txNumbered, hconn, hidle, hlast]
    have hitem : p.it = some (.numbered, c.packetsQ (slot (c.lastSent + 1))) := by rw [← hp]; rfl
    have hsz : p.hdrSz = w.hdrSz := by rw [← hp]; rfl
    have htx : p.conn.txHdr.txId = ⟨false, c.lastSent + 1⟩ := by
      rw [← hp, txData, (txAck_hdr _ _ _ _).1]
      rfl
    have hchan : p.conn.txHdr.chan = (c.packetsQ (slot (c.lastSent + 1))).chan := by
      rw [← hp, txData, (txAck_hdr _ _ _ _).2]
      rfl
    obtain ⟨hoct, hpay, hhdrSz⟩ := txCopy_octets mem p hitem
    refine .data _ hnum rfl ((congrArg (·.txId) hhdr).trans htx) ((congrArg (·.chan) hhdr).trans hchan)
      ?_ ?_
    · rw [hhdrSz, hsz]
      exact Nat.le_add_right _ _
    · rw [Frame.carried, TxFrame.packet_src_numbered (hit.trans hitem), Option.toList_some,
        List.map_singleton]
      have hdata : ((txCopy mem p).2.packet d).payload =
          ((txCopy mem p).2.octets (txCopy mem p).1).take (txCopy mem p).2.paySz := rfl
      have hframe : ((txCopy mem p).2.packet d).hdr.chan =
          (c.packetsQ (slot (c.lastSent + 1))).chan := (congrArg (·.chan) hhdr).trans hchan
      rw [hdata, hoct, hframe, hpay, hhdrSz, hsz, Nat.add_sub_cancel_left]
      rfl

theorem Up.txDiscSent (h : Up c q) : txDiscSent c = false := by
  rw [Ludlc.txDiscSent, h.discAfterTx, Bool.and_false]

/-- No packet of the control channel is in the slot or next in the window. -/
theorem SentAs.session {mem : β → List UInt8} {f : Frame w} (hf : SentAs mem c f)
    (hu : c.flags.uIdle = false → isCtrlChan c.uPacket.chan = false)
    (hq : txNumbered c = true → isCtrlChan (c.packetsQ (slot (c.lastSent + 1))).chan = false) :
    f.OfSession := by
  have hsz := w.sz_ok.2
  cases hf with
  | unnumbered hidle hflag hchan hsrc =>
    have hctrl := hu hidle
    rw [← hchan] at hctrl
    exact ⟨by simp [rxDropped, hflag, hctrl], by simp [isHshake, hflag], fun _ => ctrlChan_ne hctrl,
      fun _ => hsrc⟩
  | ping _ _ htx hsize hsrc =>
    have hno : isUPacket f.pkt f.size = false := by simp [isUPacket, hsize]; omega
    exact ⟨by simp [rxDropped, hno, htx], by simp [isHshake, htx], by simp [hno], fun _ => hsrc⟩
  | data it hnum hit htx hchan hsize =>
    have hctrl : isCtrlChan f.pkt.hdr.chan = false := by
      rw [hchan, hit]
      exact hq hnum
    have hno : isUPacket f.pkt f.size = false := by simp [isUPacket, htx]
    refine ⟨by simp [rxDropped, hctrl, hno]; exact fun _ => hsize, ?_, by simp [hno], by simp [htx]⟩
    simp [isHshake, ctrlChan_ne hctrl]

theorem SentAs.ofSession {mem : β → List UInt8} {f : Frame w} (hf : SentAs mem c f) (h : Up c q) :
    f.OfSession := by
  apply hf.session h.uChan
  intro hnum
  obtain ⟨hlt, hslot⟩ := (getPacketToSend_refines mem h.refines fun _ => h.busOut).2 hnum
  rw [hslot]
  exact h.chans _ (List.getElem_mem hlt)

theorem Up.finish_send (h : Up c q) (mem : β → List UInt8) : (getPacketToSend mem c).finish =
    { (getPacketToSend mem c).conn with
      log := (getPacketToSend mem c).conn.log ++ todoLog (getPacketToSend mem c).todo } := by
  rw [Out.finish]
  apply finish_calls
  intro a ha
  rw [getPacketToSend_todo mem h.txDiscSent, callIf] at ha
  split at ha
  · exact ⟨_, List.mem_singleton.mp ha⟩
  · cases ha

/-- A frame is sent: the next packet of the window, or one without a number of its own. -/
theorem Up.send (h : Up c q) (mem : β → List UInt8) :
    let d := (getPacketToSend mem c).finish
    ∃ q' f, Up d q' ∧ q'.base = q.base ∧ q'.win = q.win ∧ okItems d.log = okItems c.log ∧
      deliveries d.log = deliveries c.log ∧ d.lastReceived = c.lastReceived ∧
      (getPacketToSend mem c).sent = [f] ∧ f.OfSession ∧ f.pkt.hdr.ackId.id = c.lastReceived ∧
      (f.pkt.hdr.txId.flag = true ∧ f.carried = [] ∨
        ∃ it, q.win[q.sent]? = some it ∧
          f.pkt.hdr.txId = ⟨false, wrap w.idBits (q.base + q.sent + 1)⟩ ∧
          f.carried = [it.key.delivery mem]) := by
  obtain ⟨f, hsent, hf, -⟩ := getPacketToSend_sentAs mem h.connState h.txDiscSent
  have hack := getPacketToSend_ackId mem c f (by rw [hsent]; exact List.mem_singleton_self f)
  rw [if_pos h.connState] at hack
  obtain ⟨hrefines, hitem⟩ := getPacketToSend_refines mem h.refines fun _ => h.busOut
  obtain ⟨hstep, hlog⟩ := getPacketToSend_step mem h.txDiscSent
  have htodo := getPacketToSend_todo mem h.txDiscSent
  have hquiet : Quiet (todoLog (getPacketToSend mem c).todo) := htodo ▸ quiet_callIf _ _ rfl
  have hsame : deliveries (todoLog (getPacketToSend mem c).todo) = [] := by
    rw [htodo]
    cases c.flags.uDone <;> rfl
  have hcopy : deliveries (copyLog (txItem (txDone c !c.flags.uDone))) = [] := by
    unfold copyLog
    repeat' split
    all_goals rfl
  rw [h.finish_send mem]
  generalize (getPacketToSend mem c).todo = todo at hquiet hsame
  generalize (getPacketToSend mem c).conn = d at hrefines hstep hlog
  have hchan : d.flags.uIdle = false → isCtrlChan d.uPacket.chan = false := by
    intro hidle
    have huid := hstep.uIdle
    rw [hidle] at huid
    have hwas : c.flags.uIdle = false := by
      cases hc : c.flags.uIdle
      · rfl
      · simp [hc] at huid
    have hkey : d.uPacket.chan = c.uPacket.chan := congrArg Key.chan hstep.toTxRest.uPacket_same.1
    rw [hkey]
    exact h.uChan hwas
  obtain ⟨hup, hok⟩ := h.frame (d := { d with log := d.log ++ todoLog todo })
    (copyLog (txItem (txDone c !c.flags.uDone)) ++ todoLog todo)
    (hrefines.congr rfl rfl rfl rfl rfl rfl) rfl rfl rfl hstep.connState hstep.busOut hstep.discAfterTx
    hstep.uConfirmF hstep.reportBusy hchan (by rw [hlog, List.append_assoc])
    ((quiet_copy _).append hquiet)
  refine ⟨_, f, hup, rfl, rfl, hok, ?_, hstep.lastReceived, hsent, hf.ofSession h, hack, ?_⟩
  · dsimp only
    rw [hlog, deliveries_append, deliveries_append, hcopy, hsame, List.append_nil, List.append_nil]
  · cases hf with
    | unnumbered _ hflag _ hsrc => exact .inl ⟨hflag, by simp [Frame.carried, hsrc]⟩
    | ping _ _ htx _ hsrc => exact .inl ⟨by rw [htx], by simp [Frame.carried, hsrc]⟩
    | data it hnum hit htx _ _ hdata =>
      obtain ⟨hlt, hslot⟩ := hitem hnum
      refine .inr ⟨it, ?_, ?_, hdata⟩
      · rw [hit, hslot, List.getElem?_eq_getElem hlt]
      · rw [htx, (h.refines.sent h.busOut).1, wrap_add_one]

/-! ### Receiving -/

/-- Whether `rx_handle_ack` takes the last attempt of the packet behind those acknowledged. -/
def lastAttempt (c : Conn cfg β) (a : WireId w.idBits) : Bool :=
  a.flag && (a.id - c.lastAck).toNat < (c.lastSent - c.lastAck).toNat &&
    (a.id ≠ c.lastAck || !c.flags.ttlCharged) && (c.packetsQ (slot (a.id + 1))).ttl = 1

theorem eq_wrap_of_sub {n b k : Nat} {x : BitVec n} (h : (x - wrap n b).toNat = k) :
    x = wrap n (b + k) := by
  have hk : wrap n k = x - wrap n b := by
    rw [← h]
    apply BitVec.eq_of_toNat_eq
    simp
  calc
    x = wrap n b + (x - wrap n b) := (add_sub_cancel _ _).symm
    _ = wrap n (b + k) := by rw [← hk, wrap, wrap, wrap, BitVec.ofNat_add]

theorem nak_isSome (charge : Bool) (r : SendQueue (PacketQueueItem w β)) :
    (r.nak charge).2.isSome = true ↔ charge = true ∧ ∃ it rest, r.win = it :: rest ∧ it.ttl = 1 := by
  unfold SendQueue.nak
  split
  next it rest hw =>
    rw [hw]
    split
    next hone => simp [hone]
    next hone => simp [hone]
  next hno =>
    refine ⟨by simp, ?_⟩
    rintro ⟨rfl, it, rest, hw, -⟩
    exact absurd rfl (hno it rest hw)

theorem sub_toNat_eq_zero {n : Nat} {x y : BitVec n} : (x - y).toNat = 0 ↔ x = y := by
  have hzero : (0 : BitVec n).toNat = 0 := BitVec.toNat_zero
  rw [← hzero, BitVec.toNat_inj, sub_eq_zero]

theorem rxHandleAcked_ttlCharged (c : Conn cfg β) (a : WireId w.idBits) :
    (rxHandleAcked c a).flags.ttlCharged = (a.id = c.lastAck && c.flags.ttlCharged) := by
  rw [rxHandleAcked]
  dsimp only
  split
  next hne =>
    have hid : a.id ≠ c.lastAck := fun heq => hne (sub_toNat_eq_zero.mpr heq)
    simp [hid]
  next hzero =>
    rw [not_not] at hzero
    simp [sub_toNat_eq_zero.mp hzero, ackPackets]

/-- A NAK gives a packet up if it takes its last attempt, and only then. -/
theorem gives_up_iff (h : Refines c q) (hopen : c.flags.busOut = false) (a : WireId w.idBits) :
    (rxHandleAck c a).2.1.isSome = true ↔ lastAttempt c a = true := by
  have hsent := h.sent hopen
  have hnum := SentAt.numSent h.toHolding hsent
  generalize hk : (a.id - c.lastAck).toNat = k
  by_cases hfar : q.win.length < k
  · have hno : ¬k < q.sent := by
      have := hsent.2
      omega
    rw [rxHandleAck_far h.toHolding (hk ▸ hfar), lastAttempt, hnum, hk]
    simp [hno]
  have hle : k ≤ q.win.length := by omega
  obtain ⟨-, hexp, -⟩ := rxHandleAck_spec h hopen (a := a) (hk ▸ hle)
  obtain ⟨hacked, -⟩ := rxHandleAcked_spec h hopen (a := a) (hk ▸ hle)
  rw [hk] at hexp hacked
  have hcharges := nakCharges_iff hacked.toHolding
    (hacked.sent ((rxHandleAcked_rest c a).busOut.trans hopen))
  rw [SendQueue.advance_sent, rxHandleAcked_ttlCharged] at hcharges
  rw [hexp, lastAttempt, hnum, hk, nakOf]
  cases a.flag with
  | false => simp [SendQueue.ackNak]
  | true =>
    rw [if_pos rfl, SendQueue.ackNak, nak_isSome, hcharges, SendQueue.advance_win]
    have hslot : k < q.sent → q.win.drop k = c.packetsQ (slot (a.id + 1)) :: q.win.drop (k + 1) := by
      intro hlt
      have hin : k < q.win.length := lt_of_lt_of_le hlt hsent.2
      have hheld := h.holds (q.pend.length + k) (by simpa using hin)
      rw [List.getElem_append_right (Nat.le_add_right _ _)] at hheld
      simp only [Nat.add_sub_cancel_left] at hheld
      have hid : a.id = wrap w.idBits (q.base + k) := eq_wrap_of_sub (h.ack ▸ hk)
      rw [hid, wrap_add_one, slot_wrap, List.drop_eq_getElem_cons hin, ← hheld, SendQueue.base]
      congr 3
      omega
    simp only [Bool.true_and, Bool.and_eq_true, decide_eq_true_eq, Bool.or_eq_true, Bool.not_eq_true',
      Bool.and_eq_false_iff, decide_eq_false_iff_not]
    constructor
    · rintro ⟨⟨hlt, hcharged⟩, it, rest, hw, hone⟩
      have hlt : k < q.sent := by omega
      rw [hslot hlt] at hw
      obtain ⟨rfl, -⟩ := List.cons.inj hw
      exact ⟨⟨hlt, hcharged⟩, hone⟩
    · rintro ⟨⟨hlt, hcharged⟩, hone⟩
      exact ⟨⟨by omega, hcharged⟩, _, _, hslot hlt, hone⟩

/-- What `rx_handle_ack` leaves of a frame within a session. -/
def sessionAck (c : Conn cfg β) (f : Frame w) : Conn cfg β × Option (PacketQueueItem w β) × Bool :=
  rxHandleAck (watchdogRestart c) f.pkt.hdr.ackId

/-- And then the end of `rx_handle_packet`. -/
def sessionSeq (c : Conn cfg β) (f : Frame w) : Conn cfg β × RxRet :=
  rxSequence (sessionAck c f).1 f.pkt (isUPacket f.pkt f.size)

theorem rxHandlePacket_session (hconn : c.connState = .connected) {f : Frame w} (hf : f.OfSession) :
    rxHandlePacket c f.pkt f.size =
      { conn := (sessionSeq c f).1
        ret := {
          requestTx := (sessionAck c f).2.2 || (sessionSeq c f).2.requestTx
          expired := (sessionAck c f).2.1.isSome
          accept := (sessionSeq c f).2.accept }
        expired := (sessionAck c f).2.1 } := by
  have hno : (isUPacket f.pkt f.size && f.pkt.hdr.chan = w.controlChannel &&
      f.pkt.payload.head? = some ctrlDisconnect) = false := by
    cases hu : isUPacket f.pkt f.size with
    | false => rfl
    | true => simp [hf.noOpcode hu]
  simp [rxHandlePacket, hf.kept, hconn, rxConnected, hno, hf.noStep, sessionSeq, sessionAck]

/-- What the ACK field of a frame does: `n` packets are acknowledged, to be reported now or in a pass,
and one may be given up. -/
structure AckStep (c : Conn cfg β) (q : SendQueue (PacketQueueItem w β)) (a : WireId w.idBits)
    (q' : SendQueue (PacketQueueItem w β)) (n : Nat) (evs : List (Ev w β)) : Prop where
  refines : Refines (rxHandleAck c a).1 q'
  log : (rxHandleAck c a).1.log = c.log ++ evs
  base : q'.base = q.base + n
  le : n ≤ q.win.length
  near : (a.id - c.lastAck).toNat ≤ q.win.length → n = (a.id - c.lastAck).toNat
  keys : (q.win.drop n).map (·.key) = ((rxHandleAck c a).2.1.toList ++ q'.win).map (·.key)
  chans : ∀ it ∈ q'.win, ∃ it' ∈ q.win, it'.key = it.key
  accepted : acceptedKeys evs = []
  given : confirmedItems evs ++ q'.pend = (q.win.take n).map (·.resolve .ok)
  quiet : deliveries evs = []
  expired : ∀ it ∈ (rxHandleAck c a).2.1, it.result = .etimedout

theorem resolveLog_given (cfg : Cfg w) (e : Errno) (items : List (PacketQueueItem w β)) :
    acceptedKeys (items.flatMap fun it => resolveLog cfg (it.resolve e)) = [] ∧
      confirmedItems (items.flatMap fun it => resolveLog cfg (it.resolve e)) =
        (if cfg.mt then [] else items.map (·.resolve e)) ∧
      deliveries (items.flatMap fun it => resolveLog cfg (it.resolve e)) = [] := by
  induction items with
  | nil => cases cfg.mt <;> exact ⟨rfl, rfl, rfl⟩
  | cons it items ih =>
    obtain ⟨hacc, hconf, hdel⟩ := ih
    rw [List.flatMap_cons, acceptedKeys_append, confirmedItems_append, deliveries_append, hacc, hconf,
      hdel]
    cases hmt : cfg.mt <;>
      simp [resolveLog, hmt, acceptedKeys, confirmedItems, deliveries, Callback.gives, Callback.delivers]

theorem SendQueue.nak_expired (charge : Bool) (r : SendQueue (PacketQueueItem w β)) :
    ∀ it ∈ (r.nak charge).2, it.result = .etimedout := by
  intro it hit
  unfold SendQueue.nak at hit
  repeat' split at hit
  all_goals
    first
      | cases hit
        rfl
      | cases hit

theorem ackStep (h : Refines c q) (hopen : c.flags.busOut = false) (hpend : q.pend = [])
    (a : WireId w.idBits) : ∃ q' n evs, AckStep c q a q' n evs := by
  by_cases hfar : q.win.length < (a.id - c.lastAck).toNat
  · have heq := rxHandleAck_far h.toHolding hfar
    refine ⟨q, 0, [], ?_, ?_, rfl, Nat.zero_le _, fun hle => by omega, ?_,
      fun it hit => ⟨it, hit, rfl⟩, rfl, ?_, rfl, ?_⟩
    · rw [heq]
      exact h
    · rw [heq, List.append_nil]
    · rw [heq]
      rfl
    · rw [hpend]
      rfl
    · rw [heq]
      rintro it ⟨⟩
  · have hle : (a.id - c.lastAck).toNat ≤ q.win.length := by omega
    obtain ⟨hq, hexp, hlog⟩ := rxHandleAck_spec h hopen hle
    generalize hn : (a.id - c.lastAck).toNat = n at hle hq hexp hlog
    have hbase := SendQueue.advance_base cfg.mt (·.resolve .ok) hle
    have hkeys := SendQueue.ackNak_keys cfg.mt n (nakOf c a) q
    obtain ⟨hacc, hconf, hdel⟩ := resolveLog_given cfg .ok (q.win.take n)
    obtain ⟨hacc', -, hconf', -, -⟩ := resolved_only (rxHandleAck c a).2.1.toList
    have hdel' : deliveries ((rxHandleAck c a).2.1.toList.map (.resolved : _ → Ev w β)) = [] := by
      cases (rxHandleAck c a).2.1 <;> rfl
    refine ⟨_, n, _, hq, by rw [hlog, List.append_assoc], ?_, hle, fun _ => hn.symm, ?_, ?_, ?_, ?_, ?_,
      ?_⟩
    · rw [← hbase]
      cases nakOf c a with
      | none => rfl
      | some charge =>
        simp only [SendQueue.ackNak, SendQueue.nak]
        repeat' split
        all_goals rfl
    · rw [hexp]
      exact hkeys
    · intro it hit
      have hmem : it.key ∈ (q.win.drop n).map (·.key) := by
        rw [hkeys]
        exact List.mem_map_of_mem (List.mem_append_right _ hit)
      obtain ⟨it', hit', heq⟩ := List.mem_map.mp hmem
      exact ⟨it', List.mem_of_mem_drop hit', heq⟩
    · rw [acceptedKeys_append, hacc, hacc']
      rfl
    · rw [confirmedItems_append, hconf, hconf', List.append_nil, SendQueue.ackNak_pend]
      cases hmt : cfg.mt <;> simp [SendQueue.advance, hpend]
    · rw [deliveries_append, hdel, hdel']
      rfl
    · rw [hexp]
      cases nakOf c a with
      | none => rintro it ⟨⟩
      | some charge => exact SendQueue.nak_expired charge _

/-- What an end does with a frame: `n` of its own packets are confirmed with 0, and one may be given up;
and the packet of the peer that the frame carries is passed to `on_recv`, or passed over. -/
structure Received (c : Conn cfg β) (q : SendQueue (PacketQueueItem w β)) (f : Frame w)
    (d : Conn cfg β) (q' : SendQueue (PacketQueueItem w β)) (n : Nat) : Prop where
  up : Up d q'
  base : q'.base = q.base + n
  le : n ≤ q.win.length
  near : (f.pkt.hdr.ackId.id - c.lastAck).toNat ≤ q.win.length →
    n = (f.pkt.hdr.ackId.id - c.lastAck).toNat
  acked : okItems d.log = okItems c.log ++ (q.win.take n).map (·.resolve .ok)
  keys : q'.win.map (·.key) = (q.win.drop n).map (·.key) ∨
    lastAttempt c f.pkt.hdr.ackId = true ∧ ∃ k, (q.win.drop n).map (·.key) = k :: q'.win.map (·.key)
  gave : lastAttempt c f.pkt.hdr.ackId = true → ∃ it ∈ confirmedItems d.log, it.result = .etimedout
  got : f.pkt.hdr.txId.flag = false ∧ f.pkt.hdr.txId.id = c.lastReceived + 1 ∧
      d.lastReceived = f.pkt.hdr.txId.id ∧ deliveries d.log = deliveries c.log ++ f.carried ∨
    d.lastReceived = c.lastReceived ∧ deliveries d.log = deliveries c.log

theorem todoLog_report (items : List (PacketQueueItem w β)) :
    acceptedKeys (todoLog (reportTodo items)) = [] ∧ confirmedItems (todoLog (reportTodo items)) = items ∧
      deliveries (todoLog (reportTodo items)) = [] := by
  induction items with
  | nil => exact ⟨rfl, rfl, rfl⟩
  | cons it items ih =>
    obtain ⟨hacc, hconf, hdel⟩ := ih
    exact ⟨hacc, congrArg (it :: ·) hconf, hdel⟩

/-- What `ludlc_receive` still runs in a session after it has reported what is acknowledged. -/
def sessionTodo (expired : Option (PacketQueueItem w β)) (accept : Bool) (f : Frame w) (tstamp : Nat) :
    List (Todo w β) :=
  expired.toList.map (fun it => .call (.onConfirm .expired it)) ++
    callIf accept (.onRecv f.pkt.hdr.chan f.pkt.payload (f.size - w.hdrSz) tstamp f.pkt.src)

theorem sessionTodo_calls (expired : Option (PacketQueueItem w β)) (accept : Bool) (f : Frame w)
    (tstamp : Nat) : ∀ a ∈ sessionTodo expired accept f tstamp, ∃ cb, a = .call cb := by
  intro a ha
  rcases List.mem_append.mp ha with ha | ha
  · obtain ⟨it, -, rfl⟩ := List.mem_map.mp ha
    exact ⟨_, rfl⟩
  · unfold callIf at ha
    split at ha
    · exact ⟨_, List.mem_singleton.mp ha⟩
    · cases ha

theorem todoLog_session (expired : Option (PacketQueueItem w β)) (accept : Bool) (f : Frame w)
    (tstamp : Nat) :
    acceptedKeys (todoLog (sessionTodo expired accept f tstamp)) = [] ∧
      confirmedItems (todoLog (sessionTodo expired accept f tstamp)) = expired.toList ∧
      deliveries (todoLog (sessionTodo expired accept f tstamp)) = if accept then f.carried else [] := by
  unfold sessionTodo Frame.carried
  cases expired <;> cases accept <;> cases f.pkt.src <;> exact ⟨rfl, rfl, rfl⟩

/-- The end after a frame: all that is acknowledged has been reported. -/
theorem Up.finish_receive (h : Up c q) {f : Frame w} (hf : f.OfSession) (tstamp : Nat)
    {r : SendQueue (PacketQueueItem w β)} (hr : Refines (sessionAck c f).1 r) :
    (Ludlc.receive c f.pkt f.size tstamp).finish =
        { (sessionSeq c f).1 with
          lastReported :=
            if cfg.mt then (sessionSeq c f).1.lastAck else (sessionSeq c f).1.lastReported
          log := (sessionSeq c f).1.log ++ todoLog (reportTodo r.pend) ++
            todoLog (sessionTodo (sessionAck c f).2.1 (sessionSeq c f).2.accept f tstamp) } ∧
      (Ludlc.receive c f.pkt f.size tstamp).requestTx =
        ((sessionAck c f).2.2 || (sessionSeq c f).2.requestTx) := by
  have hrest : SameRest (watchdogRestart c) (sessionAck c f).1 := rxHandleAck_rest _ _
  have hrx := rxHandlePacket_session h.connState hf
  have hseq : (sessionSeq c f).1 = _ := rxSequence_eq (sessionAck c f).1 f.pkt (isUPacket f.pkt f.size)
  generalize sessionSeq c f = s at hrx hseq
  have hs : Refines s.1 r := by
    rw [hseq]
    exact hr.congr rfl rfl rfl rfl rfl rfl
  have hbusy : s.1.flags.busOut = false := by
    rw [hseq]
    exact hrest.busOut.trans h.busOut
  have huconf : s.1.flags.uConfirm = false := by
    rw [hseq]
    exact hrest.uConfirmF.trans h.uConfirm
  have hreport : s.1.reportBusy = false := by
    rw [hseq]
    exact hrest.reportBusy.trans h.reportBusy
  have htodo : (Ludlc.receive c f.pkt f.size tstamp).todo =
      .confirmUnlocked :: sessionTodo (sessionAck c f).2.1 s.2.accept f tstamp := by
    simp [Ludlc.receive, hrx, receiveTodo, sessionTodo, callIf]
  have hconn : (Ludlc.receive c f.pkt f.size tstamp).conn = s.1 := by simp [Ludlc.receive, hrx]
  constructor
  · rw [Out.finish, htodo, hconn, List.foldl_cons,
      finish_confirm hs.toHolding hbusy huconf hreport, finish_calls (sessionTodo_calls _ _ _ _)]
  · simp [Ludlc.receive, hrx]

theorem Up.receive (h : Up c q) {f : Frame w} (hf : f.OfSession) (tstamp : Nat) :
    ∃ q' n, Received c q f (receive c f.pkt f.size tstamp).finish q' n := by
  have hwd : Refines (watchdogRestart c) q := h.refines.congr rfl rfl rfl rfl rfl rfl
  obtain ⟨r, n, evs, ha⟩ := ackStep hwd h.busOut h.settled f.pkt.hdr.ackId
  obtain ⟨hr, halog, hbase, hle, hnear, hkeys, hchans, hacc, hgiven, hdel, hexp⟩ := ha
  have hattempt := gives_up_iff hwd h.busOut f.pkt.hdr.ackId
  have hrest := rxHandleAck_rest (watchdogRestart c) f.pkt.hdr.ackId
  obtain ⟨hfinish, -⟩ := h.finish_receive hf tstamp hr
  rw [sessionSeq, sessionAck] at hfinish
  generalize rxHandleAck (watchdogRestart c) f.pkt.hdr.ackId = a at hr halog hkeys hexp hattempt hrest hfinish
  have hcases := rxSequence_cases a.1 f.pkt (isUPacket f.pkt f.size)
  have hseq := rxSequence_eq a.1 f.pkt (isUPacket f.pkt f.size)
  generalize rxSequence a.1 f.pkt (isUPacket f.pkt f.size) = s at hcases hseq hfinish
  have hs : Refines s.1 r := by
    rw [hseq]
    exact hr.congr rfl rfl rfl rfl rfl rfl
  have hslog : s.1.log = c.log ++ evs := by
    rw [hseq]
    exact halog
  generalize (Ludlc.receive c f.pkt f.size tstamp).finish = d at hfinish
  obtain ⟨hacc₁, hconf₁, hdel₁⟩ := todoLog_report r.pend
  obtain ⟨hacc₂, hconf₂, hdel₂⟩ := todoLog_session a.2.1 s.2.accept f tstamp
  have hlog : d.log = c.log ++ (evs ++ todoLog (reportTodo r.pend) ++
      todoLog (sessionTodo a.2.1 s.2.accept f tstamp)) := by
    rw [hfinish]
    simp only [hslog, List.append_assoc]
  have haccept : acceptedKeys d.log = acceptedKeys c.log := by
    rw [hlog]
    simp only [acceptedKeys_append, hacc, hacc₁, hacc₂, List.append_nil]
  have hconfirm : confirmedItems d.log =
      confirmedItems c.log ++ ((q.win.take n).map (·.resolve .ok) ++ a.2.1.toList) := by
    rw [hlog, confirmedItems_append, confirmedItems_append, confirmedItems_append, hconf₁, hconf₂, hgiven]
  have hdeliver : deliveries d.log = deliveries c.log ++ if s.2.accept then f.carried else [] := by
    rw [hlog]
    simp only [deliveries_append, hdel, hdel₁, hdel₂, List.nil_append]
  have hok : okItems d.log = okItems c.log ++ (q.win.take n).map (·.resolve .ok) := by
    rw [okItems, hconfirm, List.filter_append, List.filter_append, ← okItems]
    congr 1
    have hall : ((q.win.take n).map (·.resolve .ok)).filter (·.result = .ok) =
        (q.win.take n).map (·.resolve .ok) := by
      rw [List.filter_eq_self]
      intro it hit
      obtain ⟨it', -, rfl⟩ := List.mem_map.mp hit
      rfl
    have hnone : a.2.1.toList.filter (·.result = .ok) = [] := by
      rw [List.filter_eq_nil_iff]
      intro it hit
      simp [hexp it (Option.mem_toList.mp hit)]
    rw [hall, hnone, List.append_nil]
  have hlast : a.1.lastReceived = c.lastReceived := hrest.lastReceived
  refine ⟨r.settled, n, ⟨?_, ?_, hle, hnear, hok, ?_, ?_, ?_⟩⟩
  · have hidle : d.flags.uIdle = c.flags.uIdle ∧ d.uPacket = c.uPacket := by
      rw [hfinish, hseq]
      exact ⟨hrest.uIdle, hrest.uPacket⟩
    refine ⟨hs.settled (by rw [hfinish]), rfl, ?_, ?_, ?_, ?_, ?_, ?_, ?_, ?_, ?_, ?_, ?_⟩
    · rw [hfinish, hseq]
      exact hrest.connState.trans h.connState
    · rw [hfinish, hseq]
      exact hrest.busOut.trans h.busOut
    · rw [hfinish, hseq]
      exact hrest.discAfterTx.trans h.discAfterTx
    · rw [hfinish, hseq]
      exact hrest.uConfirmF.trans h.uConfirm
    · rw [hfinish, hseq]
      exact hrest.reportBusy.trans h.reportBusy
    · intro it hit
      obtain ⟨it', hit', hkey⟩ := hchans it hit
      have hchan : it'.chan = it.chan := congrArg Key.chan hkey
      rw [← hchan]
      exact h.chans it' hit'
    · rw [hidle.1, hidle.2]
      exact h.uChan
    · apply h.tagged.later haccept
      rw [hlog, List.length_append]
      omega
    · have hsplit := congrArg (List.map (·.key)) (List.take_append_drop n q.win)
      rw [List.map_append, hkeys, List.map_append] at hsplit
      rw [haccept, h.keys, confirmedKeys, confirmedKeys, hconfirm, ← hsplit, SendQueue.settled]
      simp [Function.comp_def]
    · intro it hit
      rw [hconfirm, List.mem_append, List.mem_append] at hit
      rcases hit with hit | hit | hit
      · exact h.results it hit
      · obtain ⟨it', -, rfl⟩ := List.mem_map.mp hit
        exact .inl rfl
      · exact .inr (hexp it (Option.mem_toList.mp hit))
    · rw [hok, List.length_append, List.length_map, List.length_take, h.acked, SendQueue.settled_base,
        hbase]
      omega
  · rw [SendQueue.settled_base, hbase]
  · rw [hkeys]
    cases he : a.2.1 with
    | none => exact .inl rfl
    | some it => exact .inr ⟨hattempt.mp (by rw [he]; rfl), it.key, rfl⟩
  · intro hlast
    obtain ⟨it, hit⟩ := Option.isSome_iff_exists.mp (hattempt.mpr hlast)
    refine ⟨it, ?_, hexp it hit⟩
    rw [hconfirm, hit]
    simp
  · rw [hlast] at hcases
    have hrecv : d.lastReceived = s.1.lastReceived := by rw [hfinish]
    rcases hcases with ⟨hflag, hid, hnow, hyes⟩ | ⟨hnow, hflag⟩
    · left
      refine ⟨hflag, hid, hrecv.trans hnow, ?_⟩
      rw [hdeliver, if_pos hyes]
    · right
      refine ⟨hrecv.trans hnow, ?_⟩
      rw [hdeliver]
      split
      next hyes =>
        rw [Frame.carried, hf.src (hflag hyes)]
        exact List.append_nil _
      next => exact List.append_nil _

end Ludlc
