import Ludlc.Truth

/-! # A keep-alive brings a lost NAK back

An end with no TX round pending has nothing to send but a PING. When nothing is on its way either, and an
end still waits for an ACK, a keep-alive of each end makes the peer say how far it has received, or that it
misses something.
-/

namespace Ludlc

open SeqNum

variable {w : Wire} {cfg : Cfg w} {β : Type} {c : Conn cfg β} {q : SendQueue (PacketQueueItem w β)}

/-- Nothing is left to send but a PING. -/
structure AtRest (c : Conn cfg β) : Prop where
  uIdle : c.flags.uIdle = true
  uDone : c.flags.uDone = true
  noNak : c.flags.noNak = true
  sent : c.lastSent = c.lastQueued

theorem Refines.sent_all_iff (h : Refines c q) (hopen : c.flags.busOut = false) :
    c.lastSent = c.lastQueued ↔ q.sent = q.win.length := by
  have hsent := h.sent hopen
  constructor
  · intro heq
    rw [← SentAt.numSent h.toHolding hsent, ← h.numQueued, heq]
  · intro heq
    rw [hsent.1, h.queued, heq]

/-! ### What a call does to the flags -/

theorem txAck_nak (c : Conn cfg β) (id : Id w) (ping numbered : Bool) :
    (txAck c id ping numbered).txHdr.ackId.flag = (!c.flags.noNak || ping && c.flags.nakOut) ∧
      (txAck c id ping numbered).flags.noNak = true ∧
      (txAck c id ping numbered).flags.nakOut =
        (c.flags.nakOut || (txAck c id ping numbered).txHdr.ackId.flag) := by
  unfold txAck
  dsimp only
  split <;> exact ⟨rfl, rfl, rfl⟩

/-- A NAK goes out if one is owed, and on a keep-alive if one still stands; one that has gone out stands. -/
theorem Up.send_nak (h : Up c q) (mem : β → List UInt8) {f : Frame w}
    (hf : (getPacketToSend mem c).sent = [f]) :
    f.pkt.hdr.ackId.flag = (!c.flags.noNak ||
        c.flags.uIdle && c.flags.uDone && decide (c.lastSent = c.lastQueued) && c.flags.nakOut) ∧
      (getPacketToSend mem c).finish.flags.noNak = true ∧
      (getPacketToSend mem c).finish.flags.nakOut = (c.flags.nakOut || f.pkt.hdr.ackId.flag) := by
  obtain ⟨f', hsent, -, hack⟩ := getPacketToSend_sentAs mem h.connState h.txDiscSent
  obtain rfl : f = f' := List.singleton_inj.mp (hf.symm.trans hsent)
  have hflags : (getPacketToSend mem c).finish.flags =
      (txPrep (txDone c !c.flags.uDone) !c.flags.uDone).conn.flags := by
    rw [h.finish_send mem]
    simp only [getPacketToSend, h.txDiscSent, Bool.false_eq_true, if_false, txCopy]
    repeat' split
    all_goals rfl
  have hconn : (txDone c !c.flags.uDone).connState = .connected := h.connState
  rw [hflags, hack, txPrep, if_pos hconn, txConnected]
  split
  next hidle =>
    have hidle : c.flags.uIdle = false := by simpa [txDone] using hidle
    obtain ⟨hflag, hno, hout⟩ := txAck_nak
      { txDone c !c.flags.uDone with
        flags := { (txDone c !c.flags.uDone).flags with uIdle := true, uDone := false }
        txHdr := { (txDone c !c.flags.uDone).txHdr with
          txId := ⟨true, (txDone c !c.flags.uDone).lastSent + 1⟩
          chan := (txDone c !c.flags.uDone).uPacket.chan } }
      ((txDone c !c.flags.uDone).lastSent + 1) false false
    refine ⟨hflag.trans ?_, hno, hout⟩
    simp [hidle, txDone]
  next hidle =>
  have hidle : c.flags.uIdle = true := by simpa [txDone] using hidle
  split
  next hlast =>
    have hlast : c.lastSent = c.lastQueued := hlast
    obtain ⟨hflag, hno, hout⟩ := txAck_nak
      { txDone c !c.flags.uDone with
        txHdr := { (txDone c !c.flags.uDone).txHdr with
          txId := ⟨true, (txDone c !c.flags.uDone).lastSent + 1⟩ } }
      ((txDone c !c.flags.uDone).lastSent + 1) (!!c.flags.uDone) false
    refine ⟨hflag.trans ?_, hno, hout⟩
    simp [hidle, hlast, txDone]
  next hlast =>
    have hlast : c.lastSent ≠ c.lastQueued := hlast
    refine ⟨(txAck_nak _ _ _ _).1.trans ?_, (txAck_nak _ _ _ _).2.1, (txAck_nak _ _ _ _).2.2.trans ?_⟩
    · simp only [hlast, decide_false, Bool.and_false, Bool.false_and, Bool.or_false]
      split <;> rfl
    · congr 1
      dsimp only
      split <;> rfl

/-! ### An end at rest -/

/-- Every call that leaves something to send asks for a TX round. -/
theorem AtRest.call {a : Call w β} (h : AtRest c) (ha : a.inSession = true)
    (hreq : (a.run c).requestTx = false) : AtRest (a.run c).finish := by
  have hsame : (a.run c).finish = c := by
    cases a with
    | enqueueData dstChan buf size ttl =>
      obtain ⟨htodo, hc⟩ := enqueueData_cases c c.log.length dstChan (.ofPtr buf) size ttl
      simp only [Call.run] at hreq ⊢
      rcases hc with hc | ⟨-, -, -, hyes, -⟩
      · rw [Out.finish, htodo, hc]
        rfl
      · rw [hyes] at hreq
        cases hreq
    | sendUrgentData dstChan buf size =>
      obtain ⟨htodo, hc⟩ := sendUrgentData_cases c c.log.length dstChan (.ofPtr buf) size
      simp only [Call.run] at hreq ⊢
      rcases hc with hc | ⟨hconn, hidle, hdone, huser, -⟩
      · rw [Out.finish, htodo, hc]
        rfl
      · have hyes : (sendUrgentData c c.log.length dstChan (.ofPtr buf) size).requestTx = true := by
          simp only [uSendable, Bool.and_eq_true, Bool.not_eq_true'] at huser
          simp [sendUrgentData, huser, hconn, hidle, hdone]
        rw [hyes] at hreq
        cases hreq
    | _ => cases ha
  rw [hsame]
  exact h

/-- The last frame of a TX round leaves the end at rest. -/
theorem Up.atRest_send (h : Up c q) (mem : β → List UInt8)
    (hlast : ((getPacketToSend mem c).requestTx || (getPacketToSend mem c).ret = .ok) = false) :
    AtRest (getPacketToSend mem c).finish := by
  obtain ⟨f, hsent, -⟩ := getPacketToSend_sentAs mem h.connState h.txDiscSent
  obtain ⟨-, hno, -⟩ := h.send_nak mem hsent
  obtain ⟨hstep, -⟩ := getPacketToSend_step mem h.txDiscSent
  have hfinish := h.finish_send mem
  generalize (getPacketToSend mem c).finish = d at hfinish hno
  have hconn : (txDone c !c.flags.uDone).connState = .connected := h.connState
  have hprep : (getPacketToSend mem c).requestTx =
        (txConnected (txDone c !c.flags.uDone) !c.flags.uDone).requestTx ∧
      (getPacketToSend mem c).ret = (txConnected (txDone c !c.flags.uDone) !c.flags.uDone).ret := by
    simp [getPacketToSend, h.txDiscSent, txPrep, hconn]
  rw [hprep.1, hprep.2, Bool.or_eq_false_iff, decide_eq_false_iff_not, txConnected] at hlast
  obtain ⟨hidle, hcaught⟩ : c.flags.uIdle = true ∧
      (c.lastSent = c.lastQueued ∨ c.lastSent ≠ c.lastQueued ∧ c.lastSent + 1 = c.lastQueued) := by
    split at hlast
    · cases hlast.1
    next hidle =>
    have hidle : c.flags.uIdle = true := by simpa [txDone] using hidle
    split at hlast
    next hall => exact ⟨hidle, .inl hall⟩
    next hmore =>
      refine ⟨hidle, .inr ⟨hmore, ?_⟩⟩
      by_contra hne
      exact hlast.2 (if_pos hne)
  have hun : txUnnumbered c = false := by simp [txUnnumbered, hidle]
  refine ⟨?_, ?_, hno, ?_⟩
  · rw [hfinish]
    exact hstep.uIdle.trans (by rw [hidle, Bool.true_or])
  · rw [hfinish]
    exact hstep.uDone.trans (by rw [hun, Bool.not_false])
  · rw [hfinish]
    apply hstep.lastSent.trans
    rw [hstep.lastQueued]
    rcases hcaught with hall | ⟨hmore, hone⟩
    · simp [txNumbered, hall]
    · have hnum : txNumbered c = true := by simp [txNumbered, h.connState, hidle, hmore]
      rw [if_pos hnum]
      exact hone

theorem rxGap_noNak (c : Conn cfg β) (newPass : Bool) (hreq : (rxGap c newPass).2 = false) :
    (rxGap c newPass).1.flags.noNak = c.flags.noNak := by
  cases newPass with
  | false =>
    simp only [rxGap, Bool.false_eq_true, if_false] at hreq ⊢
    split at hreq
    next hout => rw [if_pos hout]
    · cases hreq
  | true => simp [rxGap, rxNakAnswered] at hreq

theorem rxSequence_noNak (c : Conn cfg β) (p : Packet w) (u : Bool) (hno : c.flags.noNak = true)
    (hreq : (rxSequence c p u).2.requestTx = false) : (rxSequence c p u).1.flags.noNak = true := by
  revert hreq
  unfold rxSequence
  dsimp only
  split
  · split
    · exact fun _ => hno
    · exact fun hreq => (rxGap_noNak c false hreq).trans hno
  split
  · exact fun _ => rfl
  split
  · exact fun hreq => (rxGap_noNak c _ hreq).trans hno
  · exact fun _ => hno

/-- A frame that leaves something to send asks for a TX round. -/
theorem Up.atRest_receive (h : Up c q) {f : Frame w} (hf : f.OfSession) (tstamp : Nat) (hr : AtRest c)
    (hreq : (Ludlc.receive c f.pkt f.size tstamp).requestTx = false) :
    AtRest (Ludlc.receive c f.pkt f.size tstamp).finish := by
  have hwd : Refines (watchdogRestart c) q := h.refines.congr rfl rfl rfl rfl rfl rfl
  obtain ⟨r, n, evs, ha⟩ := ackStep hwd h.busOut h.settled f.pkt.hdr.ackId
  obtain ⟨hfinish, hreq'⟩ := h.finish_receive hf tstamp ha.refines
  rw [hreq', Bool.or_eq_false_iff] at hreq
  have hrest : SameRest (watchdogRestart c) (sessionAck c f).1 := rxHandleAck_rest _ _
  have hsent : (sessionAck c f).1.lastSent = (sessionAck c f).1.lastQueued := by
    have hall := (hwd.sent_all_iff h.busOut).mp hr.sent
    by_cases hfar : q.win.length < (f.pkt.hdr.ackId.id - (watchdogRestart c).lastAck).toNat
    · rw [sessionAck, rxHandleAck_far hwd.toHolding hfar]
      exact hr.sent
    · obtain ⟨hacked, -⟩ := rxHandleAcked_spec hwd h.busOut (Nat.le_of_not_lt hfar)
      have hplain : sessionAck c f = (rxHandleAcked (watchdogRestart c) f.pkt.hdr.ackId, none, false) := by
        have hnot := hreq.1
        simp only [sessionAck, rxHandleAck, hwd.numQueued, if_neg hfar] at hnot ⊢
        split at hnot
        · cases hnot
        next hflag => rw [if_neg hflag]
      rw [hplain, hacked.sent_all_iff ((rxHandleAcked_rest _ _).busOut.trans h.busOut)]
      simp [hall]
  have hseq : (sessionSeq c f).1 = _ := rxSequence_eq (sessionAck c f).1 f.pkt (isUPacket f.pkt f.size)
  have hno := rxSequence_noNak (sessionAck c f).1 f.pkt (isUPacket f.pkt f.size)
    (hrest.noNak.trans hr.noNak) hreq.2
  rw [hfinish]
  refine ⟨?_, ?_, hno, ?_⟩
  · rw [hseq]
    exact hrest.uIdle.trans hr.uIdle
  · rw [hseq]
    exact hrest.uDone.trans hr.uDone
  · rw [hseq]
    exact hsent

/-! ### What a frame says to an end that waits -/

/-- Acknowledging ends a NAK that stands, and nothing received starts one. -/
theorem ackPackets_nakOut (n : Nat) (c : Conn cfg β) (hout : (ackPackets n c).flags.nakOut = true) :
    c.flags.nakOut = true := by
  induction n generalizing c with
  | zero => exact hout
  | succ n ih =>
    have hone := ih (ackPacket c) hout
    rw [ackPacket, confirmQueuedLock_eq] at hone
    dsimp only at hone
    split at hone
    · cases hone
    · exact hone

theorem rxHandleAck_nakOut (c : Conn cfg β) (a : WireId w.idBits)
    (hout : (rxHandleAck c a).1.flags.nakOut = true) : c.flags.nakOut = true := by
  have hacked : (rxHandleAcked c a).flags.nakOut = true → c.flags.nakOut = true := by
    intro h
    apply ackPackets_nakOut (a.id - c.lastAck).toNat
    rw [rxHandleAcked] at h
    dsimp only at h
    split at h <;> exact h
  have hnak : (rxHandleNak (rxHandleAcked c a)).1.flags.nakOut = (rxHandleAcked c a).flags.nakOut := by
    simp only [rxHandleNak]
    repeat' split
    all_goals rfl
  rw [rxHandleAck] at hout
  split at hout
  · exact hout
  split at hout
  · exact hacked (hnak ▸ hout)
  · exact hacked hout

/-- An ACK that says nothing new. -/
theorem sessionAck_still {f : Frame w} (hack : f.pkt.hdr.ackId = ⟨false, c.lastAck⟩) :
    sessionAck c f = (watchdogRestart c, none, false) := by
  have hzero : (c.lastAck - (watchdogRestart c).lastAck).toNat = 0 := sub_toNat_eq_zero.mpr rfl
  rw [sessionAck, hack, rxHandleAck, if_neg (by rw [hzero]; exact Nat.not_lt_zero _), rxHandleAcked]
  simp only [hzero, ackPackets, ne_eq, not_true_eq_false, if_false, Bool.false_eq_true]

/-- A NAK takes `last_sent` back. -/
theorem sessionAck_nak (hwd : Refines (watchdogRestart c) q) {f : Frame w}
    (hnear : (f.pkt.hdr.ackId.id - c.lastAck).toNat ≤ q.win.length) (hflag : f.pkt.hdr.ackId.flag = true) :
    (sessionAck c f).1.lastSent = (sessionAck c f).1.lastAck := by
  have hnear : (f.pkt.hdr.ackId.id - (watchdogRestart c).lastAck).toNat ≤ q.win.length := hnear
  rw [sessionAck, rxHandleAck, hwd.numQueued, if_neg (Nat.not_lt.mpr hnear)]
  simp only [hflag, if_true, rxHandleNak_lastSent, rxHandleNak_lastAck]

/-- A PING tells that packets of the peer are missing. -/
theorem rxSequence_missing {p : Packet w} (u : Bool) (hping : p.hdr.txId.flag = true)
    (hpos : (p.hdr.txId.id - c.lastReceived - 1).toNat ≠ 0)
    (hle : (p.hdr.txId.id - c.lastReceived - 1).toNat ≤ w.window) :
    (rxSequence c p u).1.lastReceived = c.lastReceived ∧
      (rxSequence c p u).1.flags.nakOut = c.flags.nakOut ∧
      (rxSequence c p u).1.flags.noNak = (c.flags.noNak && c.flags.nakOut) := by
  have hnot : ¬((p.hdr.txId.id - c.lastReceived - 1).toNat = 0 ∨
      w.window < (p.hdr.txId.id - c.lastReceived - 1).toNat) := by omega
  simp only [rxSequence, hping, if_true, if_neg hnot, rxGap, Bool.false_eq_true, if_false]
  split
  next hout => simp [hout]
  next hout => simp [hout]

theorem rxSequence_owed {p : Packet w} (u : Bool) (hping : p.hdr.txId.flag = true)
    (hno : c.flags.noNak = false) : (rxSequence c p u).1.flags.noNak = false := by
  simp only [rxSequence, hping, if_true]
  split
  · exact hno
  · simp only [rxGap, Bool.false_eq_true, if_false]
    split
    · exact hno
    · rfl

/-- An end that has sent all it has queued sends a PING. -/
theorem Up.send_ping (h : Up c q) (mem : β → List UInt8) (hidle : c.flags.uIdle = true)
    (hall : c.lastSent = c.lastQueued) {f : Frame w} (hf : (getPacketToSend mem c).sent = [f]) :
    f.pkt.hdr.txId = ⟨true, c.lastQueued + 1⟩ ∧
      (getPacketToSend mem c).finish.lastAck = c.lastAck ∧
      (getPacketToSend mem c).finish.lastQueued = c.lastQueued ∧
      (getPacketToSend mem c).finish.lastSent = c.lastQueued ∧
      (getPacketToSend mem c).finish.flags.uIdle = true := by
  obtain ⟨f', hsent, hkind, -⟩ := getPacketToSend_sentAs mem h.connState h.txDiscSent
  obtain rfl : f = f' := List.singleton_inj.mp (hf.symm.trans hsent)
  obtain ⟨hstep, -⟩ := getPacketToSend_step mem h.txDiscSent
  have hnum : txNumbered c = false := by simp [txNumbered, hall]
  have hsame := hstep.lastSent
  rw [hnum] at hsame
  rw [h.finish_send mem]
  refine ⟨?_, hstep.lastAck, hstep.lastQueued, hsame.trans hall, ?_⟩
  · cases hkind with
    | unnumbered hbusy =>
      rw [hidle] at hbusy
      cases hbusy
    | ping _ _ htx =>
      rw [← hall]
      exact htx
    | data it hnum' =>
      rw [hnum] at hnum'
      cases hnum'
  · exact hstep.uIdle.trans (by rw [hidle, Bool.true_or])

namespace Peers

open Runs

variable {cfg : Side → Cfg w} {mem : Side → β → List UInt8} {s s₀ s' : Pair cfg β}

/-! ### A session goes on, however it is scheduled -/

/-- Both ends are up, every frame on its way belongs to the session, and an end with no TX round pending is
at rest. -/
structure Going (s : Pair cfg β) : Prop where
  up : ∀ e, ∃ q, Up (s.conn e) q
  frames : ∀ e, ∀ f ∈ s.chan e, f.OfSession
  rest : ∀ e, s.due e = false → AtRest (s.conn e)

theorem Opening.going (h : Opening s) : Going s where
  up e := ⟨_, (h.fresh e).up⟩
  frames e f hf := by
    rw [h.empty e] at hf
    cases hf
  rest e _ := by
    have hflags := (h.fresh e).flags
    refine ⟨by rw [hflags]; rfl, by rw [hflags]; rfl, by rw [hflags]; rfl, ?_⟩
    rw [(h.fresh e).lastSent, (h.fresh e).lastQueued]

theorem Going.after (h : Going s) (e : Side) {o : Out (cfg e) β} {due : Bool}
    (hup : ∃ q, Up o.finish q) (hsent : ∀ f ∈ o.sent, f.OfSession) (hrest : due = false → AtRest o.finish) :
    Going (after s e o due) where
  up x := by
    rcases eq_or_ne x e with rfl | hne
    · simpa [Peers.after] using hup
    · simpa [Peers.after, hne] using h.up x
  frames x f hf := by
    rcases eq_or_ne x e with rfl | hne
    · simp only [Peers.after, Function.update_self, List.mem_append] at hf
      exact hf.elim (h.frames x f) (hsent f)
    · simp only [Peers.after, Function.update_of_ne hne] at hf
      exact h.frames x f hf
  rest x hdue := by
    rcases eq_or_ne x e with rfl | hne
    · simp only [Peers.after, Function.update_self] at hdue ⊢
      exact hrest hdue
    · simp only [Peers.after, Function.update_of_ne hne] at hdue ⊢
      exact h.rest x hdue

theorem Going.lose (h : Going s) (e : Side) {l : List (Frame w)} (hl : l.Sublist (s.chan e)) :
    Going { s with chan := Function.update s.chan e l } where
  up := h.up
  frames x f hf := by
    rcases eq_or_ne x e with rfl | hne
    · simp only [Function.update_self] at hf
      exact h.frames x f (hl.mem hf)
    · simp only [Function.update_of_ne hne] at hf
      exact h.frames x f hf
  rest := h.rest

theorem Going.step (h : Going s) {a : Pair.Move w β} (hs : step mem s a = some s') : Going s' := by
  cases a with
  | call e a =>
    simp only [Peers.step, Option.ite_none_right_eq_some, Option.some.injEq] at hs
    obtain ⟨ha, rfl⟩ := hs
    obtain ⟨q, hup⟩ := h.up e
    have hsent : (a.run (s.conn e)).sent = [] := by
      rw [Out.sent, run_frame _ (by rintro _ rfl; cases ha)]
      rfl
    apply h.after e
    · cases a with
      | enqueueData dstChan buf size ttl =>
        obtain ⟨q', hup', -⟩ := hup.enqueueData dstChan buf size ttl
        exact ⟨q', hup'⟩
      | sendUrgentData dstChan buf size => exact ⟨q, (hup.sendUrgentData dstChan buf size).1⟩
      | _ => cases ha
    · rw [hsent]
      rintro f ⟨⟩
    · intro hdue
      rw [Bool.or_eq_false_iff] at hdue
      exact (h.rest e hdue.1).call ha hdue.2
  | tx e =>
    cases hs
    obtain ⟨q, hup⟩ := h.up e
    obtain ⟨q', f, hup', -, -, -, -, -, hsent, hsession, -⟩ := hup.send (mem e)
    apply h.after e ⟨q', hup'⟩
    · rw [hsent]
      intro g hg
      rw [List.mem_singleton.mp hg]
      exact hsession
    · exact hup.atRest_send (mem e)
  | rx e tstamp =>
    simp only [Peers.step] at hs
    split at hs
    · cases hs
    next f rest hchan =>
    cases hs
    obtain ⟨q, hup⟩ := h.up e
    have hf := h.frames e.peer f (by rw [hchan]; exact List.mem_cons_self)
    obtain ⟨q', n, hr⟩ := hup.receive hf tstamp
    have hlost := h.lose e.peer (l := rest) (by rw [hchan]; exact List.sublist_cons_self f rest)
    apply hlost.after e ⟨q', hr.up⟩
    · simp [Out.sent, Ludlc.receive]
    · intro hdue
      rw [Bool.or_eq_false_iff] at hdue
      exact hup.atRest_receive hf tstamp (h.rest e hdue.1) hdue.2
  | drop e i =>
    cases hs
    exact h.lose e (List.eraseIdx_sublist _ i)

/-- However the ends are scheduled and whatever is lost, both stay CONNECTED and neither drops a frame of the
other or takes it for a handshake or a DISCONNECT. An end with no TX round pending has sent all it has queued
and owes no NAK. -/
theorem session_goes_on (h₀ : Opening s₀) (h : Reachable s₀ (Peers.step mem) (fun _ _ => True) s) (e : Side) :
    (s.conn e).connState = .connected ∧ (∀ f ∈ s.chan e.peer, f.OfSession) ∧
      (s.due e = false → AtRest (s.conn e)) := by
  have hgoing : Going s := h.invariant h₀.going fun hi _ hs => hi.step hs
  obtain ⟨q, hup⟩ := hgoing.up e
  exact ⟨hup.connState, hgoing.frames e.peer, hgoing.rest e⟩

theorem session_goes_on_opened : ∃ s, Reachable opened (Peers.step fun _ b => [b]) (fun _ _ => True) s ∧
    (s.conn .left).lastAck ≠ (s.conn .left).lastQueued ∧ (s.conn .left).connState = .connected ∧
      AtRest (s.conn .left) := by
  obtain ⟨s, hs, hrest⟩ := Reachable.of_exec opened (Peers.step fun _ b => [b]) (fun _ _ => true)
    [.call .left (.enqueueData 1 (some 7) 1 3), .call .right (.enqueueData 1 (some 8) 1 3), .tx .left,
      .drop .left 0, .tx .right, .rx .left 0, .tx .left]
    (fun s => s.due .left = false ∧ (s.conn .left).lastAck ≠ (s.conn .left).lastQueued)
    (by decide +kernel) (by decide +kernel)
  obtain ⟨hdue, hwaits⟩ := of_decide_eq_true hrest
  have hgoes := session_goes_on opening_opened (hs.mono fun _ _ _ => trivial) .left
  exact ⟨s, hs.mono fun _ _ _ => trivial, hwaits, hgoes.1, hgoes.2.2 hdue⟩

/-! ### What a keep-alive of each end brings back -/

/-- `y` is about to say that it has received more than `la`, or that it misses something, or has said so. -/
def Tells (y : Side) (la : Id w) (s : Pair cfg β) : Prop :=
  (∃ f ∈ s.chan y, f.pkt.hdr.ackId ≠ ⟨false, la⟩) ∨ (s.conn y).flags.noNak = false

/-- The end `x` has sent what it has queued, up to `lq`, and waits for an ACK from `la` on. `y` has received
up to `r`. `kx` and `ky` tell which of them has made its keep-alive. -/
structure Waits (x y : Side) (la lq r : Id w) (kx ky : Bool) (s : Pair cfg β) : Prop where
  going : Going s
  ack : (s.conn x).lastAck = la
  queued : (s.conn x).lastQueued = lq
  sent : (s.conn x).lastSent = lq
  idle : (s.conn x).flags.uIdle = true
  received : (s.conn y).lastReceived = r
  pings : ∀ f ∈ s.chan x, f.pkt.hdr.txId = ⟨true, lq + 1⟩
  acks : ∀ f ∈ s.chan y, f.pkt.hdr.ackId.id = r
  -- A NAK that still stands goes out with the keep-alive of `y`; one that does not, the PING of `x` brings.
  signal : Tells y la s ∨
    (r = la → kx = true → s.chan x ≠ [] ∨ (s.conn y).flags.nakOut = true) ∧
      (ky = true → r = la ∧ (s.conn y).flags.nakOut = false)

section Waits

variable {x y : Side} {la lq r : Id w} {kx ky : Bool}

theorem Waits.tx_self (h : Waits x y la lq r kx ky s) (hxy : x ≠ y) (b : Bool) {due : Bool}
    (hgoing : Going (after s x (getPacketToSend (mem x) (s.conn x)) due)) :
    Waits x y la lq r (kx || b) ky (after s x (getPacketToSend (mem x) (s.conn x)) due) := by
  obtain ⟨q, hup⟩ := h.going.up x
  obtain ⟨f, hsent, -⟩ := getPacketToSend_sentAs (mem x) hup.connState hup.txDiscSent
  obtain ⟨htx, hack, hqueued, hlast, hidle⟩ :=
    hup.send_ping (mem x) h.idle (h.sent.trans h.queued.symm) hsent
  constructor
  case going => exact hgoing
  all_goals simp only [after, Function.update_self, Function.update_of_ne hxy.symm, hsent]
  · exact hack.trans h.ack
  · exact hqueued.trans h.queued
  · exact hlast.trans h.queued
  · exact hidle
  · exact h.received
  · intro g hg
    rcases List.mem_append.mp hg with hg | hg
    · exact h.pings g hg
    · rw [List.mem_singleton.mp hg, htx, h.queued]
  · exact h.acks
  · rcases h.signal with htell | ⟨-, hky⟩
    · left
      simpa only [Tells, Function.update_of_ne hxy.symm] using htell
    · exact .inr ⟨fun _ _ => .inl (by simp), hky⟩

theorem Waits.tx_peer (h : Waits x y la lq r kx ky s) (hxy : x ≠ y) {due : Bool}
    (hgoing : Going (after s y (getPacketToSend (mem y) (s.conn y)) due)) :
    Waits x y la lq r kx (ky || !s.due y) (after s y (getPacketToSend (mem y) (s.conn y)) due) := by
  obtain ⟨q, hup⟩ := h.going.up y
  obtain ⟨q', f, -, -, -, -, -, hrecv, hsent, -, hack, -⟩ := hup.send (mem y)
  obtain ⟨hflag, hno, hout⟩ := hup.send_nak (mem y) hsent
  have hid : f.pkt.hdr.ackId.id = r := hack.trans h.received
  constructor
  case going => exact hgoing
  all_goals simp only [after, Function.update_self, Function.update_of_ne hxy, hsent]
  · exact h.ack
  · exact h.queued
  · exact h.sent
  · exact h.idle
  · exact hrecv.trans h.received
  · exact h.pings
  · intro g hg
    rcases List.mem_append.mp hg with hg | hg
    · exact h.acks g hg
    · rw [List.mem_singleton.mp hg, hid]
  · by_cases hplain : f.pkt.hdr.ackId = ⟨false, la⟩
    · rw [hplain] at hflag hid hout
      have hsame : r = la := hid.symm
      have hquiet := Bool.or_eq_false_iff.mp hflag.symm
      rcases h.signal with (⟨g, hg, htell⟩ | howed) | ⟨hkx, hky⟩
      · exact .inl (.inl ⟨g, by simp [hg], htell⟩)
      · rw [howed] at hquiet
        cases hquiet.1
      · rw [hout, Bool.or_false]
        refine .inr ⟨hkx, fun hkept => ⟨hsame, ?_⟩⟩
        rcases Bool.or_eq_true_iff.mp hkept with hkept | hkept
        · exact (hky hkept).2
        · have hrest := h.going.rest y (by simpa using hkept)
          simpa [hrest.uIdle, hrest.uDone, hrest.sent] using hquiet.2
    · exact .inl (.inl ⟨f, by simp, hplain⟩)

theorem Waits.rx_self (h : Waits x y la lq r kx ky s) (hxy : x ≠ y)
    (hnear : (r - la).toNat ≤ (lq - la).toNat) {f : Frame w} {rest : List (Frame w)} {tstamp : Nat}
    (hchan : s.chan y = f :: rest) {due : Bool} {t : Pair cfg β}
    (ht : t = after ({ s with chan := Function.update s.chan y rest } : Pair cfg β) x
      (Ludlc.receive (s.conn x) f.pkt f.size tstamp) due) (hgoing : Going t)
    (hack : (t.conn x).lastAck = la) (hsent : (t.conn x).lastSent ≠ (t.conn x).lastAck) :
    Waits x y la lq r kx ky t := by
  obtain ⟨q, hup⟩ := h.going.up x
  have hmem : f ∈ s.chan y := by rw [hchan]; exact List.mem_cons_self
  have hf := h.going.frames y f hmem
  have hwd : Refines (watchdogRestart (s.conn x)) q := hup.refines.congr rfl rfl rfl rfl rfl rfl
  obtain ⟨r', n', evs, ha⟩ := ackStep hwd hup.busOut hup.settled f.pkt.hdr.ackId
  obtain ⟨hfinish, -⟩ := hup.finish_receive hf tstamp ha.refines
  obtain ⟨q', n, hr⟩ := hup.receive hf tstamp
  have hseq : (sessionSeq (s.conn x) f).1 = _ :=
    rxSequence_eq (sessionAck (s.conn x) f).1 f.pkt (isUPacket f.pkt f.size)
  have hconn : t.conn x = (Ludlc.receive (s.conn x) f.pkt f.size tstamp).finish := by
    simp [ht, after]
  have hle : (f.pkt.hdr.ackId.id - (s.conn x).lastAck).toNat ≤ q.win.length := by
    rw [h.acks f hmem, h.ack, ← hup.refines.numQueued, h.queued, h.ack]
    exact hnear
  have hplain : f.pkt.hdr.ackId = ⟨false, (s.conn x).lastAck⟩ := by
    have hid : f.pkt.hdr.ackId.id = (s.conn x).lastAck := by
      have hroom := hup.refines.room
      have htwo := two_window_le w
      have hpos := window_pos w
      rw [hconn, hr.up.refines.ack, hr.base, hr.near hle, ← h.ack, hup.refines.ack,
        wrap_inj (by omega) (by omega)] at hack
      rw [hup.refines.ack]
      apply sub_toNat_eq_zero.mp
      omega
    have hflag : f.pkt.hdr.ackId.flag = false := by
      by_contra hflag
      apply hsent
      rw [hconn, hfinish, hseq]
      exact sessionAck_nak hwd hle (Bool.eq_true_of_not_eq_false hflag)
    calc
      f.pkt.hdr.ackId = ⟨f.pkt.hdr.ackId.flag, f.pkt.hdr.ackId.id⟩ := rfl
      _ = ⟨false, (s.conn x).lastAck⟩ := by rw [hflag, hid]
  have hstill := sessionAck_still hplain
  rw [hstill] at hseq
  rw [hfinish, hseq] at hconn
  have hchanx : t.chan x = s.chan x := by
    simp [ht, after, Function.update_of_ne hxy, Out.sent, Ludlc.receive]
  have hchany : t.chan y = rest := by simp [ht, after, Function.update_of_ne hxy.symm]
  have hpeer : t.conn y = s.conn y := by simp [ht, after, Function.update_of_ne hxy.symm]
  constructor
  · exact hgoing
  · exact hack
  · rw [hconn]
    exact h.queued
  · rw [hconn]
    exact h.sent
  · rw [hconn]
    exact h.idle
  · rw [hpeer]
    exact h.received
  · rw [hchanx]
    exact h.pings
  · rw [hchany]
    intro g hg
    exact h.acks g (by rw [hchan]; exact List.mem_cons_of_mem f hg)
  · rw [Tells, hchany, hpeer, hchanx]
    rcases h.signal with (⟨g, hg, htell⟩ | howed) | hrest
    · rw [hchan, List.mem_cons] at hg
      rcases hg with rfl | hg
      · rw [hplain, h.ack] at htell
        exact absurd rfl htell
      · exact .inl (.inl ⟨g, hg, htell⟩)
    · exact .inl (.inr howed)
    · exact .inr hrest

theorem Waits.rx_peer (h : Waits x y la lq r kx ky s) (hxy : x ≠ y) (hne : la ≠ lq) {f : Frame w}
    {rest : List (Frame w)} {tstamp : Nat} (hchan : s.chan x = f :: rest) {due : Bool} {t : Pair cfg β}
    (ht : t = after ({ s with chan := Function.update s.chan x rest } : Pair cfg β) y
      (Ludlc.receive (s.conn y) f.pkt f.size tstamp) due) (hgoing : Going t) :
    Waits x y la lq r kx ky t := by
  obtain ⟨q, hup⟩ := h.going.up y
  have hmem : f ∈ s.chan x := by rw [hchan]; exact List.mem_cons_self
  have hf := h.going.frames x f hmem
  have htx := h.pings f hmem
  have hping : f.pkt.hdr.txId.flag = true := by rw [htx]
  have hwd : Refines (watchdogRestart (s.conn y)) q := hup.refines.congr rfl rfl rfl rfl rfl rfl
  obtain ⟨r', n', evs, ha⟩ := ackStep hwd hup.busOut hup.settled f.pkt.hdr.ackId
  obtain ⟨hfinish, -⟩ := hup.finish_receive hf tstamp ha.refines
  obtain ⟨q', n, hr⟩ := hup.receive hf tstamp
  have hsame : SameRest (watchdogRestart (s.conn y)) (sessionAck (s.conn y) f).1 := rxHandleAck_rest _ _
  have hconn : t.conn y = (Ludlc.receive (s.conn y) f.pkt f.size tstamp).finish := by
    simp [ht, after]
  have hself : t.conn x = s.conn x := by simp [ht, after, Function.update_of_ne hxy]
  have hchanx : t.chan x = rest := by simp [ht, after, Function.update_of_ne hxy]
  have hchany : t.chan y = s.chan y := by
    simp [ht, after, Function.update_of_ne hxy.symm, Out.sent, Ludlc.receive]
  have hflags : (t.conn y).flags = (sessionSeq (s.conn y) f).1.flags := by rw [hconn, hfinish]
  constructor
  · exact hgoing
  · rw [hself]
    exact h.ack
  · rw [hself]
    exact h.queued
  · rw [hself]
    exact h.sent
  · rw [hself]
    exact h.idle
  · rw [hconn]
    rcases hr.got with ⟨hnot, -⟩ | ⟨hrecv, -⟩
    · rw [hping] at hnot
      cases hnot
    · exact hrecv.trans h.received
  · rw [hchanx]
    intro g hg
    exact h.pings g (by rw [hchan]; exact List.mem_cons_of_mem f hg)
  · rw [hchany]
    exact h.acks
  · rw [Tells, hchany, hflags]
    rcases h.signal with (htell | howed) | ⟨hkx, hky⟩
    · exact .inl (.inl htell)
    · exact .inl (.inr (rxSequence_owed _ hping (hsame.noNak.trans howed)))
    · by_cases hr0 : r = la
      · -- The PING is ahead of what `y` has received by what `x` waits for.
        obtain ⟨qx, hupx⟩ := h.going.up x
        have hahead : f.pkt.hdr.txId.id - (sessionAck (s.conn y) f).1.lastReceived - 1 = lq - la := by
          rw [hsame.lastReceived, htx]
          change lq + 1 - (s.conn y).lastReceived - 1 = lq - la
          rw [h.received, hr0]
          ring
        have hpos : (lq - la).toNat ≠ 0 := fun hzero => hne (sub_toNat_eq_zero.mp hzero).symm
        have hroom : (lq - la).toNat ≤ w.window := by
          have := hupx.refines.room
          rw [← h.queued, ← h.ack, hupx.refines.numQueued]
          omega
        rw [← hahead] at hpos hroom
        obtain ⟨-, hout, hno⟩ := rxSequence_missing (isUPacket f.pkt f.size) hping hpos hroom
        cases hstands : (sessionAck (s.conn y) f).1.flags.nakOut with
        | false =>
          left
          right
          rw [sessionSeq, hno, hstands, Bool.and_false]
        | true =>
          have hbefore : (watchdogRestart (s.conn y)).flags.nakOut = true := rxHandleAck_nakOut _ _ hstands
          refine .inr ⟨fun _ _ => .inr (hout.trans hstands), fun hkept => ?_⟩
          exact absurd hbefore (by simp [watchdogRestart, (hky hkept).2])
      · exact .inr ⟨fun hsame => absurd hsame hr0, fun hkept => absurd (hky hkept).1 hr0⟩

/-- A move that sends or receives a frame. -/
def turn : Pair.Move w β → Bool
  | .tx _ => true
  | .rx _ _ => true
  | _ => false

def sends (e : Side) : Pair.Move w β → Bool
  | .tx e' => e' = e
  | _ => false

/-- Whether an end makes a keep-alive in a run: it sends while no TX round is pending. -/
def keepsAlive (mem : Side → β → List UInt8) (e : Side) : Pair cfg β → List (Pair.Move w β) → Bool
  | _, [] => false
  | s, a :: as => (sends e a && !s.due e) || (step mem s a).any fun t => keepsAlive mem e t as

theorem Waits.step (h : Waits x y la lq r kx ky s) (hxy : x ≠ y) (hne : la ≠ lq)
    (hnear : (r - la).toNat ≤ (lq - la).toNat) {a : Pair.Move w β} (hturn : turn a = true)
    (hs : Peers.step mem s a = some s') (hack : (s'.conn x).lastAck = la)
    (hsent : (s'.conn x).lastSent ≠ (s'.conn x).lastAck) :
    Waits x y la lq r (kx || (sends x a && !s.due x)) (ky || (sends y a && !s.due y)) s' := by
  have hgoing := h.going.step hs
  cases a with
  | call => cases hturn
  | drop => cases hturn
  | tx e =>
    cases hs
    rcases Side.eq_or_eq hxy e with rfl | rfl
    · simpa [sends, hxy] using h.tx_self hxy (!s.due e) hgoing
    · simpa [sends, hxy.symm] using h.tx_peer hxy hgoing
  | rx e tstamp =>
    simp only [sends, Bool.false_and, Bool.or_false]
    simp only [Peers.step] at hs
    split at hs
    · cases hs
    next f rest hchan =>
    cases hs
    rcases Side.eq_or_eq hxy e with rfl | rfl
    · rw [Side.peer_eq hxy.symm] at hchan hgoing hack hsent ⊢
      exact h.rx_self hxy hnear hchan rfl hgoing hack hsent
    · rw [Side.peer_eq hxy] at hchan hgoing hack hsent ⊢
      exact h.rx_peer hxy hne hchan rfl hgoing

theorem Waits.run (h : Waits x y la lq r kx ky s) (hxy : x ≠ y) (hne : la ≠ lq)
    (hnear : (r - la).toNat ≤ (lq - la).toNat) {as : List (Pair.Move w β)}
    (hturns : ∀ a ∈ as, turn a = true) (hs : exec (Peers.step mem) s as = some s')
    (hstill : Along (Peers.step mem)
      (fun t => (t.conn x).lastAck = la ∧ (t.conn x).lastSent ≠ (t.conn x).lastAck) s as) :
    Waits x y la lq r (kx || keepsAlive mem x s as) (ky || keepsAlive mem y s as) s' := by
  induction as generalizing s kx ky with
  | nil =>
    cases hs
    simpa [keepsAlive] using h
  | cons a as ih =>
    obtain ⟨t, ht, hs⟩ := Option.bind_eq_some_iff.mp hs
    obtain ⟨hturn, hturns⟩ := List.forall_mem_cons.mp hturns
    have hrest := hstill.2 t ht
    have hnow : (t.conn x).lastAck = la ∧ (t.conn x).lastSent ≠ (t.conn x).lastAck := by
      cases as with
      | nil => exact hrest
      | cons b as => exact hrest.1
    have hstep := h.step hxy hne hnear hturn ht hnow.1 hnow.2
    simpa [keepsAlive, ht, Bool.or_assoc] using ih hstep hturns hs hrest

/-- Both ends have made their keep-alive and nothing is left to do: `x` has heard of it before. -/
theorem Waits.ends (h : Waits x y la lq r true true s) (hchan : ∀ e, s.chan e = [])
    (hdue : ∀ e, s.due e = false) : False := by
  have hrest := h.going.rest y (hdue y)
  rcases h.signal with (⟨f, hf, -⟩ | howed) | ⟨hkx, hky⟩
  · rw [hchan y] at hf
    cases hf
  · rw [hrest.noNak] at howed
    cases howed
  · obtain ⟨hsame, hout⟩ := hky rfl
    rcases hkx hsame rfl with hmore | hstands
    · exact hmore (hchan x)
    · rw [hout] at hstands
      cases hstands

end Waits

/-- Nothing is on its way and no TX round is pending. -/
def still (s : Pair cfg β) : Bool :=
  (s.chan .left).isEmpty && (s.chan .right).isEmpty && !s.due .left && !s.due .right

theorem still_iff : still s = true ↔ (∀ e, s.chan e = []) ∧ ∀ e, s.due e = false := by
  simp only [still, Bool.and_eq_true, List.isEmpty_iff, Bool.not_eq_true']
  constructor
  · rintro ⟨⟨⟨hleft, hright⟩, hdue⟩, hdue'⟩
    constructor
    · rintro (_ | _)
      · exact hleft
      · exact hright
    · rintro (_ | _)
      · exact hdue
      · exact hdue'
  · rintro ⟨hchan, hdue⟩
    exact ⟨⟨⟨hchan .left, hchan .right⟩, hdue .left⟩, hdue .right⟩

/-- A keep-alive of each end, and what comes of it. -/
def keepAlives : List (Pair.Move (.ofWindow 1 one_lt_idBits) UInt8) :=
  [.tx .left, .tx .right, .rx .right 0, .tx .right, .rx .left 0, .rx .left 0, .tx .left, .rx .right 0,
    .tx .right, .rx .left 0]

end Peers

end Ludlc
