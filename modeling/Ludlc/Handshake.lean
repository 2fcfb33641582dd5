import Ludlc.Lib.Ranked
import Ludlc.Peers
import Ludlc.InOrder

/-! # The handshake comes to an end

Two ends in any two states, one of which may still be in a session that is over for the other. What an end
makes of a frame depends on its own state and on that of the sender, so each frame that arrives either
leaves its receiver where it is or brings the two nearer to a session. Whoever is stuck, the other is not.
-/

namespace Ludlc

open SeqNum Runs

/-- What an end in the state `own` becomes on a frame of an end in the state `peer` that has no DISCONNECT
to send. -/
def ConnState.heard (own peer : ConnState) : ConnState :=
  if own = .connected then
    if peer = .connected ∨ peer = .waitConn2 then .connected else .disconnected
  else if peer = .connected then
    if own = .waitConn2 then .connected else .disconnected
  else if peer.val = own.val ∨ peer.val = own.val + 1 then own.next
  else if peer.val + 1 ≠ own.val then .disconnected
  else own

variable {w : Wire} {cfg : Cfg w} {β : Type} {c d : Conn cfg β}

/-! ### One end -/

/-- Any end, whatever its state: the link has not been taken down for good, and a packet that waits in the
unnumbered slot is a DISCONNECT or on a channel of the caller's. -/
structure Conn.Alive (c : Conn cfg β) : Prop where
  state : c.connState ≠ .terminate
  slot : c.flags.uIdle = false → c.flags.discAfterTx = false → isCtrlChan c.uPacket.chan = false

theorem alive_init : (Conn.init cfg β).Alive where
  state := by rintro ⟨⟩
  slot := by rintro ⟨⟩

theorem Conn.Alive.same (h : c.Alive) (hstate : d.connState = c.connState)
    (hidle : d.flags.uIdle = c.flags.uIdle) (hdisc : d.flags.discAfterTx = c.flags.discAfterTx)
    (hu : d.uPacket.chan = c.uPacket.chan) : d.Alive where
  state := hstate ▸ h.state
  slot hi hd := by
    rw [hu]
    exact h.slot (hidle ▸ hi) (hdisc ▸ hd)

theorem onDisconnectLock_uIdle (c : Conn cfg β) : (onDisconnectLock c).flags.uIdle = true := by
  rw [onDisconnectLock_eq, sweep_eq, linkDown_eq]
  rfl

theorem onDisconnectLock_opened (c : Conn cfg β) : (onDisconnectLock c).flags.discAfterTx = false := by
  rw [onDisconnectLock_eq, sweep_eq, linkDown_eq]
  rfl

theorem alive_onDisconnectLock (c : Conn cfg β) : (onDisconnectLock c).Alive where
  state := by rw [onDisconnectLock_connState]; rintro ⟨⟩
  slot hidle := by
    rw [onDisconnectLock_uIdle] at hidle
    cases hidle

theorem Conn.Alive.disconnectCore (h : c.Alive) : (disconnectCore c).1.Alive := by
  unfold Ludlc.disconnectCore
  split
  · exact alive_onDisconnectLock c
  · exact h

theorem Conn.Alive.settle {o : Out cfg β} (h : o.conn.Alive) : o.settle.Alive := by
  unfold Out.settle
  generalize o.conn = c at h
  induction o.todo generalizing c with
  | nil => exact h
  | cons a todo ih =>
    apply ih
    cases a with
    | call cb => exact h.same rfl rfl rfl rfl
    | handleDisconnect =>
      rw [runTodo]
      split
      · exact h.disconnectCore.same rfl rfl rfl rfl
      · exact h.disconnectCore
    | _ => exact h

theorem rxUp_alive (h : c.Alive) (p : Packet w) : (rxUp c p).connState ≠ .terminate := by
  unfold rxUp
  split
  next hup =>
    rw [hup]
    rintro ⟨⟩
  next =>
    have hstate : (rxHandleHandshake c p (isHshake p)).1.connState ≠ .terminate := by
      have hterm := h.state
      simp only [rxHandleHandshake]
      cases hc : c.connState with
      | terminate => exact absurd hc hterm
      | _ => repeat' split
             all_goals simp_all [ConnState.next]
    dsimp only
    split
    · exact hstate
    · exact hstate

theorem Conn.Alive.receive (h : c.Alive) (p : Packet w) (pktSz tstamp : Nat) :
    (receive c p pktSz tstamp).conn.Alive := by
  have hup : (rxUp c p).Alive :=
    ⟨rxUp_alive h p, by rw [rxUp_flags, rxUp_uPacket]; exact h.slot⟩
  have hstep := rxHandlePacket_step c p pktSz
  simp only [Ludlc.receive]
  generalize rxHandlePacket c p pktSz = r at hstep ⊢
  cases hstep with
  | dropped => exact h
  | handshake => exact hup
  | lastStep => exact h
  | down => exact alive_onDisconnectLock _
  | data ret a s _ _ _ ha hs =>
    subst ha hs
    have hrest := rxHandleAck_rest (watchdogRestart (rxUp c p)) p.hdr.ackId
    have hack : (rxHandleAck (watchdogRestart (rxUp c p)) p.hdr.ackId).1.Alive :=
      hup.same hrest.connState hrest.uIdle hrest.discAfterTx (congrArg (·.chan) hrest.uPacket)
    apply hack.same
    · exact rxSequence_connState ..
    · rw [rxSequence_eq]
    · rw [rxSequence_eq]
    · rw [rxSequence_uPacket]

theorem Conn.Alive.run (h : c.Alive) (a : Call w β) : (a.run c).settle.Alive := by
  apply Conn.Alive.settle
  cases a with
  | enqueueData dstChan buf size ttl =>
    obtain ⟨-, hc | ⟨-, -, -, -, hc⟩⟩ := enqueueData_cases c c.log.length dstChan (.ofPtr buf) size ttl
    · rwa [Call.run, hc]
    · rw [Call.run, hc]
      exact h.same rfl rfl rfl rfl
  | sendUrgentData dstChan buf size =>
    obtain ⟨-, hc | ⟨hup, -, -, huser, hc⟩⟩ :=
      sendUrgentData_cases c c.log.length dstChan (.ofPtr buf) size
    · rwa [Call.run, hc]
    · rw [Call.run, hc]
      refine ⟨h.state, fun _ _ => ?_⟩
      simp only [uSendable, Bool.and_eq_true, Bool.not_eq_true'] at huser
      exact huser.2
  | sendDisconnect =>
    simp only [Call.run, Ludlc.sendDisconnect]
    split
    · exact h
    · split
      · exact h
      next hup _ =>
        refine ⟨?_, fun _ hdisc => ?_⟩
        · simp only
          split
          · unfold confirmULock
            split
            · exact h.state
            · exact h.state
          · exact h.state
        · cases hdisc
  | connect =>
    simp only [Call.run, Ludlc.connect]
    split
    · exact h
    · split
      · exact h
      · exact alive_onDisconnectLock c
  | handleDisconnect => exact h.disconnectCore
  | getPacketToSend mem =>
    cases hd : txDiscSent c with
    | true =>
      rw [Call.run, getPacketToSend_disc mem hd]
      exact h.same rfl rfl rfl rfl
    | false =>
      have hstep := (getPacketToSend_step mem hd).1
      have hchan : (getPacketToSend mem c).conn.uPacket.chan = c.uPacket.chan :=
        congrArg Key.chan hstep.toTxRest.uPacket_same.1
      refine ⟨hstep.connState.trans_ne h.state, fun hidle hdisc => ?_⟩
      rw [Call.run, hchan]
      rw [Call.run, hstep.uIdle, Bool.or_eq_false_iff] at hidle
      rw [Call.run, hstep.discAfterTx] at hdisc
      exact h.slot hidle.1 hdisc
  | receive p pktSz tstamp => exact h.receive p pktSz tstamp

/-! ### What a frame tells -/

/-- A frame that an end in the state `st` sends with no DISCONNECT to send. -/
structure Frame.Tells (st : ConnState) (f : Frame w) : Prop where
  kept : rxDropped f.pkt f.size = false
  step : isHshake f.pkt = !decide (st = .connected)
  id : st ≠ .connected → f.pkt.hdr.txId.id.toNat = st.val
  noOpcode : isUPacket f.pkt f.size = true → f.pkt.hdr.chan ≠ w.controlChannel

theorem two_lt_idSpace (w : Wire) : 2 < 2 ^ w.idBits := by
  have hbits : 2 ≤ w.idBits := by
    rcases w.idBits_ok with h | h | h
    all_goals omega
  calc
    2 < 2 ^ 2 := by decide
    _ ≤ 2 ^ w.idBits := Nat.pow_le_pow_right (by decide) hbits

theorem txHandshake_tells (mem : β → List UInt8) (hstate : c.connState ≠ .terminate)
    (hdown : c.connState ≠ .connected) (hd : txDiscSent c = false) :
    ∃ f, (getPacketToSend mem c).sent = [f] ∧ f.Tells c.connState := by
  generalize hp : txPrep (txDone c !c.flags.uDone) (!c.flags.uDone) = p
  obtain ⟨hhdr, -⟩ := txCopy_hdr mem p
  let d : Conn cfg β := { (txCopy mem p).1 with pingTimer := true }
  have hsent : (getPacketToSend mem c).sent =
      [⟨(txCopy mem p).2.packet d, (txCopy mem p).2.hdrSz + (txCopy mem p).2.paySz⟩] := by
    simp [getPacketToSend, hd, Out.sent, hp, d]
  have hdown' : (txDone c !c.flags.uDone).connState ≠ .connected := hdown
  rw [txPrep, if_neg hdown'] at hp
  have hpkt : ((txCopy mem p).2.packet d).hdr =
      { txId := .ofVal w.idBits c.connState.val, ackId := ⟨false, 0⟩, chan := w.controlChannel } := by
    refine hhdr.trans ?_
    rw [← hp]
    rfl
  have hsize : w.hdrSz ≤ (txCopy mem p).2.hdrSz + (txCopy mem p).2.paySz := by
    rw [← hp]
    exact Nat.le_add_right _ _
  have hval : c.connState.val < 2 ^ w.idBits := by
    have := two_lt_idSpace w
    cases hc : c.connState with
    | terminate => exact absurd hc hstate
    | connected => exact absurd hc hdown
    | _ =>
      simp only [ConnState.val]
      omega
  have hflag : (WireId.ofVal w.idBits c.connState.val).flag = false := by
    simp [WireId.ofVal, Nat.div_eq_of_lt hval]
  refine ⟨_, hsent, ⟨?_, ?_, ?_, ?_⟩⟩
  · simp only [rxDropped, isUPacket, hpkt, hflag]
    simp
    exact hsize
  · simp [isHshake, hpkt, hflag, hdown]
  · intro _
    simp only [hpkt, WireId.ofVal, BitVec.toNat_ofNat]
    exact Nat.mod_eq_of_lt hval
  · simp [isUPacket, hpkt, hflag]

/-- The sender's window and slot hold no packet of the control channel. -/
theorem getPacketToSend_tells (mem : β → List UInt8) (h : c.Alive) {q : SendQueue (PacketQueueItem w β)}
    {since : Nat} (hs : Sender c q since) (hdisc : c.flags.discAfterTx = false) :
    ∃ f, (getPacketToSend mem c).sent = [f] ∧ f.Tells c.connState := by
  have hd : txDiscSent c = false := by rw [txDiscSent, hdisc, Bool.and_false]
  by_cases hup : c.connState = .connected
  · obtain ⟨f, hsent, hf, -⟩ := getPacketToSend_sentAs mem hup hd
    have hsession : f.OfSession := by
      apply hf.session fun hidle => h.slot hidle hdisc
      intro hnum
      obtain ⟨hlt, hslot⟩ := (getPacketToSend_refines mem hs.inv.refines fun _ => hs.inv.isOpen).2 hnum
      rw [hslot]
      exact (hs.born _ (List.getElem_mem hlt)).2
    refine ⟨f, hsent, hsession.kept, ?_, fun hne => absurd hup hne, hsession.noOpcode⟩
    rw [hsession.noStep, hup]
    rfl
  · exact txHandshake_tells mem h.state hup hd

/-- An end that is up keeps up with a peer that is, and with the last step again. -/
theorem rxConnected_heard {st : ConnState} (hup : c.connState = .connected) {f : Frame w} (hf : f.Tells st)
    (ret : RxRet) : (rxConnected c f.pkt f.size ret).conn.connState =
      if st = .connected ∨ st = .waitConn2 then .connected else .disconnected := by
  unfold rxConnected
  split
  next hop =>
    simp only [Bool.and_eq_true, decide_eq_true_eq] at hop
    exact absurd hop.1.2 (hf.noOpcode hop.1.1)
  next =>
    rw [hf.step]
    by_cases hst : st = .connected
    · simp only [hst, decide_true, Bool.not_true, Bool.false_eq_true, if_false, true_or, if_true]
      rw [rxSequence_connState, (rxHandleAck_rest _ _).connState]
      exact hup
    · simp only [hst, decide_false, Bool.not_false, if_true, false_or]
      rw [hf.id hst]
      by_cases hlast : st = .waitConn2
      · simp [hlast, hup]
      · have hval : st.val ≠ ConnState.waitConn2.val := by
          cases st <;> simp_all [ConnState.val]
        simp [hval, hlast]

theorem rxHandlePacket_heard {st : ConnState} {f : Frame w} (hf : f.Tells st) :
    (rxHandlePacket c f.pkt f.size).conn.connState = c.connState.heard st := by
  rw [rxHandlePacket, if_neg (by simp [hf.kept])]
  by_cases hup : c.connState = .connected
  · simp only [hup, ne_eq, not_true_eq_false, if_false, ConnState.heard, if_true]
    exact rxConnected_heard hup hf {}
  · simp only [ne_eq, hup, not_false_eq_true, if_true]
    by_cases hst : st = .connected
    · have hother : isHshake f.pkt = false := by rw [hf.step, hst]; rfl
      by_cases hwait : c.connState = .waitConn2
      · have hshake : rxHandleHandshake c f.pkt (isHshake f.pkt) =
            ({ c with connState := .connected }, { requestTx := true, cont := true, connected := true }) := by
          simp [rxHandleHandshake, hother, hwait]
        rw [hshake]
        simp only [if_true, Bool.not_true, Bool.false_eq_true, if_false]
        rw [rxConnected_heard rfl hf]
        simp [ConnState.heard, hst, hwait]
      · simp [rxHandleHandshake, hother, hwait, ConnState.heard, hst, hup]
    · have hstep : isHshake f.pkt = true := by simp [hf.step, hst]
      have hid := hf.id hst
      simp only [rxHandleHandshake, hstep, hid, ConnState.heard, hup, hst, Bool.not_true, Bool.false_eq_true,
        if_false]
      split
      · by_cases hnext : c.connState.next = .connected
        · simp [hnext, Conn.emit, watchdogRestart]
        · simp [hnext]
      · split
        · simp
        · simp

theorem receive_heard {st : ConnState} {f : Frame w} (hf : f.Tells st) (tstamp : Nat) :
    (receive c f.pkt f.size tstamp).settle.connState = c.connState.heard st := by
  rw [settle_eq (receive_todo c f.pkt f.size tstamp)]
  exact rxHandlePacket_heard hf

theorem receive_opened (h : c.flags.discAfterTx = false) (p : Packet w) (pktSz tstamp : Nat) :
    (receive c p pktSz tstamp).settle.flags.discAfterTx = false := by
  rw [settle_eq (receive_todo c p pktSz tstamp)]
  have hup : (rxUp c p).flags.discAfterTx = false := by rwa [rxUp_flags]
  have hstep := rxHandlePacket_step c p pktSz
  simp only [Ludlc.receive]
  generalize rxHandlePacket c p pktSz = r at hstep ⊢
  cases hstep with
  | dropped => exact h
  | handshake => exact hup
  | lastStep => exact h
  | down => exact onDisconnectLock_opened _
  | data ret a s _ _ _ ha hs =>
    subst ha hs
    have hrest := rxHandleAck_rest (watchdogRestart (rxUp c p)) p.hdr.ackId
    rw [rxSequence_eq]
    exact hrest.discAfterTx.trans hup

/-! ### How far two states are from a session -/

namespace ConnState

/-- How many frames at most move one of the two on before both are up. -/
def apart : ConnState → ConnState → Nat
  | disconnected, disconnected => 6
  | disconnected, waitConn1 => 5
  | waitConn1, disconnected => 5
  | waitConn1, waitConn1 => 4
  | waitConn1, waitConn2 => 3
  | waitConn2, waitConn1 => 3
  | waitConn2, waitConn2 => 2
  | waitConn2, connected => 1
  | connected, waitConn2 => 1
  | connected, connected => 0
  | waitConn1, connected => 8
  | connected, waitConn1 => 8
  | _, _ => 7

theorem heard_alive {own peer : ConnState} (hown : own ≠ .terminate) (hpeer : peer ≠ .terminate) :
    own.heard peer ≠ .terminate := by
  cases own with
  | terminate => exact absurd rfl hown
  | _ =>
    cases peer with
    | terminate => exact absurd rfl hpeer
    | _ => decide

theorem apart_comm (own peer : ConnState) : own.apart peer = peer.apart own := by
  cases own <;> cases peer <;> rfl

theorem apart_le (own peer : ConnState) : own.apart peer ≤ 8 := by
  cases own <;> cases peer <;> decide

theorem heard_descends {own peer : ConnState} (hown : own ≠ .terminate) (hpeer : peer ≠ .terminate) :
    own.heard peer = own ∨ (own.heard peer).apart peer < own.apart peer := by
  cases own with
  | terminate => exact absurd rfl hown
  | _ =>
    cases peer with
    | terminate => exact absurd rfl hpeer
    | _ => decide

theorem both_descend {own peer : ConnState} (hown : own ≠ .terminate) (hpeer : peer ≠ .terminate) :
    own.heard peer = own ∧ peer.heard own = peer ∨
      (own.heard peer).apart (peer.heard own) < own.apart peer := by
  cases own with
  | terminate => exact absurd rfl hown
  | _ =>
    cases peer with
    | terminate => exact absurd rfl hpeer
    | _ => decide

theorem one_moves {own peer : ConnState} (h : 0 < own.apart peer) (hown : own ≠ .terminate)
    (hpeer : peer ≠ .terminate) : own.heard peer ≠ own ∨ peer.heard own ≠ peer := by
  cases own with
  | terminate => exact absurd rfl hown
  | _ =>
    cases peer with
    | terminate => exact absurd rfl hpeer
    | _ => revert h; decide

theorem connected_of_apart {own peer : ConnState} (h : own.apart peer = 0) :
    own = .connected ∧ peer = .connected := by
  cases own <;> cases peer <;> first | exact ⟨rfl, rfl⟩ | cases h

end ConnState

/-! ### Two ends -/

namespace Pair

/-- What the two do between two moments with nothing on its way: an application queues a packet, a frame is
sent and lost or sent and received, or a frame of each end crosses one of the other. -/
inductive Turn (w : Wire) (β : Type)
  | enqueueData (e : Side) (dstChan : Channel w) (buf : Option β) (size ttl : Nat)
  | sendUrgentData (e : Side) (dstChan : Channel w) (buf : Option β) (size : Nat)
  | lost (e : Side)
  | one (e : Side) (tstamp : Nat)
  | cross (tstamp tstamp' : Nat)

namespace Turn

def moves : Turn w β → List (Move w β)
  | enqueueData e dstChan buf size ttl => [.call e (.enqueueData dstChan buf size ttl)]
  | sendUrgentData e dstChan buf size => [.call e (.sendUrgentData dstChan buf size)]
  | lost e => [.tx e, .drop e 0]
  | one e tstamp => [.tx e, .rx e.peer tstamp]
  | cross tstamp tstamp' => [.tx .left, .tx .right, .rx .left tstamp, .rx .right tstamp']

/-- The end `x` receives a frame. -/
def hears (x : Side) : Turn w β → Bool
  | one e _ => x = e.peer
  | cross _ _ => true
  | _ => false

/-- What becomes of the states of the two. -/
def ends (st : Side → ConnState) : Turn w β → Side → ConnState
  | one e _ => Function.update st e.peer ((st e.peer).heard (st e))
  | cross _ _ => fun e => (st e).heard (st e.peer)
  | _ => st

theorem ends_descend {st : Side → ConnState} (h : ∀ e, st e ≠ .terminate) (t : Turn w β) :
    t.ends st = st ∨ (t.ends st .left).apart (t.ends st .right) < (st .left).apart (st .right) := by
  cases t with
  | one e tstamp =>
    rcases ConnState.heard_descends (h e.peer) (h e) with hsame | hlower
    · left
      rw [ends, hsame, Function.update_eq_self]
    · right
      cases e with
      | left =>
        have hleft : ends st (one .left tstamp : Turn w β) .left = st .left := rfl
        rw [hleft, ConnState.apart_comm, ConnState.apart_comm (st .left)]
        exact hlower
      | right => exact hlower
  | cross _ _ =>
    rcases ConnState.both_descend (h .left) (h .right) with ⟨hleft, hright⟩ | hlower
    · left
      funext e
      cases e with
      | left => exact hleft
      | right => exact hright
    · exact .inr hlower
  | enqueueData => exact .inl rfl
  | sendUrgentData => exact .inl rfl
  | lost => exact .inl rfl

theorem ends_alive {st : Side → ConnState} (h : ∀ e, st e ≠ .terminate) (t : Turn w β) (e : Side) :
    t.ends st e ≠ .terminate := by
  cases t with
  | one x _ =>
    rw [ends]
    by_cases he : e = x.peer
    · subst he
      rw [Function.update_self]
      exact ConnState.heard_alive (h _) (h _)
    · rw [Function.update_of_ne he]
      exact h e
  | cross _ _ => exact ConnState.heard_alive (h _) (h _)
  | enqueueData => exact h e
  | sendUrgentData => exact h e
  | lost => exact h e

def descent : Descent fun st (t : Turn w β) => t.ends st where
  Inv st := ∀ e, st e ≠ .terminate
  rank st := (st .left).apart (st .right)
  keeps h t := ends_alive h t
  descends h t := ends_descend h t

/-- A frame that reaches an end that it moves. -/
theorem ends_ne {st : Side → ConnState} {x : Side} {t : Turn w β} (ht : t.hears x = true)
    (hmoves : (st x).heard (st x.peer) ≠ st x) : t.ends st ≠ st := by
  intro hsame
  apply hmoves
  cases t with
  | one e _ =>
    obtain rfl : x = e.peer := of_decide_eq_true ht
    have hat := congrFun hsame e.peer
    rw [ends, Function.update_self] at hat
    cases e with
    | left => exact hat
    | right => exact hat
  | cross _ _ => exact congrFun hsame x
  | enqueueData => cases ht
  | sendUrgentData => cases ht
  | lost => cases ht

/-- Wherever the two are, one of them is moved by what it hears. -/
theorem some_move {st : Side → ConnState} {ts : List (Turn w β)} (h : ∀ e, st e ≠ .terminate)
    (hpos : 0 < (st .left).apart (st .right)) (hears : ∀ x, ∃ t ∈ ts, t.hears x = true) :
    ∃ t ∈ ts, t.ends st ≠ st := by
  rcases ConnState.one_moves hpos (h .left) (h .right) with hmoves | hmoves
  · obtain ⟨t, hmem, ht⟩ := hears .left
    exact ⟨t, hmem, ends_ne ht hmoves⟩
  · obtain ⟨t, hmem, ht⟩ := hears .right
    exact ⟨t, hmem, ends_ne ht hmoves⟩

end Turn

variable {cfg : Side → Cfg w} {mem : Side → β → List UInt8} {s s' : Pair cfg β}

def states (s : Pair cfg β) (e : Side) : ConnState := (s.conn e).connState

theorem alive_reaches (h : Reaches mem s) (e : Side) : (s.conn e).Alive := by
  revert e
  apply h.invariant (I := fun s => ∀ e, (s.conn e).Alive)
  · exact fun _ => alive_init
  rintro t a t' ht - hs e
  cases a with
  | call x a =>
    simp only [Pair.step, Option.ite_none_right_eq_some, Option.some.injEq] at hs
    obtain ⟨-, rfl⟩ := hs
    exact (Function.forall_update_iff t.conn fun e c => c.Alive).mpr ⟨(ht x).run a, fun e _ => ht e⟩ e
  | tx x =>
    cases hs
    exact (Function.forall_update_iff t.conn fun e c => c.Alive).mpr
      ⟨(ht x).run (.getPacketToSend (mem x)), fun e _ => ht e⟩ e
  | rx x tstamp =>
    simp only [Pair.step] at hs
    split at hs
    · cases hs
    next f rest _ =>
    cases hs
    exact (Function.forall_update_iff t.conn fun e c => c.Alive).mpr
      ⟨(ht x).run (.receive f.pkt f.size tstamp), fun e _ => ht e⟩ e
  | drop x i =>
    cases hs
    exact ht e

/-- No DISCONNECT waits at either end. -/
structure Open (mem : Side → β → List UInt8) (s : Pair cfg β) : Prop where
  reach : Reaches mem s
  opened : ∀ e, (s.conn e).flags.discAfterTx = false

theorem Open.tx (hmt : ∀ e, (cfg e).mt = false) (h : Open mem s) (e : Side) :
    ∃ s' f, step mem s (.tx e) = some s' ∧ Open mem s' ∧ f.Tells (s.states e) ∧ s'.states = s.states ∧
      s'.chan = Function.update s.chan e (s.chan e ++ [f]) := by
  have hordered : Ordered mem s := h.reach.invariant ordered_init fun hi _ hs => hi.step hmt hs
  have hne : e ≠ e.peer := by cases e <;> simp [Side.peer]
  obtain ⟨q, since, _, _, hline⟩ := hordered e e.peer hne
  obtain ⟨f, hsent, hf⟩ := getPacketToSend_tells (mem e) (alive_reaches h.reach e) hline.sender (h.opened e)
  have hd : txDiscSent (s.conn e) = false := by rw [txDiscSent, h.opened e, Bool.and_false]
  have hstep := (getPacketToSend_step (mem e) hd).1
  have htodo : Todo.handleDisconnect ∉ (getPacketToSend (mem e) (s.conn e)).todo := by
    rw [getPacketToSend_todo (mem e) hd]
    exact disconnect_notMem_callIf _ _
  have hsettle := settle_eq htodo
  have hs : step mem s (.tx e) = some (s.after e (getPacketToSend (mem e) (s.conn e))
      ((getPacketToSend (mem e) (s.conn e)).requestTx || (getPacketToSend (mem e) (s.conn e)).ret = .ok)) :=
    rfl
  refine ⟨_, f, hs, ⟨.step h.reach trivial hs, fun x => ?_⟩, hf, ?_, ?_⟩
  · by_cases hx : x = e
    · subst hx
      simp only [after, Function.update_self, hsettle]
      exact hstep.discAfterTx.trans (h.opened x)
    · simp only [after, Function.update_of_ne hx]
      exact h.opened x
  · funext x
    by_cases hx : x = e
    · subst hx
      simp only [states, after, Function.update_self, hsettle]
      exact hstep.connState
    · simp only [states, after, Function.update_of_ne hx]
  · simp only [after, hsent]

theorem Open.rx (h : Open mem s) (x : Side) (tstamp : Nat) {st : ConnState} {f : Frame w}
    {rest : List (Frame w)} (hchan : s.chan x.peer = f :: rest) (hf : f.Tells st) :
    ∃ s', step mem s (.rx x tstamp) = some s' ∧ Open mem s' ∧
      s'.states = Function.update s.states x ((s.states x).heard st) ∧
      s'.chan = Function.update s.chan x.peer rest := by
  have hstep : step mem s (.rx x tstamp) =
      some (({ s with chan := Function.update s.chan x.peer rest } : Pair cfg β).after x
        (receive (s.conn x) f.pkt f.size tstamp)
        (s.due x || (receive (s.conn x) f.pkt f.size tstamp).requestTx)) := by
    simp only [step, hchan]
  refine ⟨_, hstep, ⟨.step h.reach trivial hstep, fun y => ?_⟩, ?_, ?_⟩
  · by_cases hy : y = x
    · subst hy
      simp only [after, Function.update_self]
      exact receive_opened (h.opened y) f.pkt f.size tstamp
    · simp only [after, Function.update_of_ne hy]
      exact h.opened y
  · funext y
    by_cases hy : y = x
    · subst hy
      simp only [states, after, Function.update_self]
      exact receive_heard hf tstamp
    · simp only [states, after, Function.update_of_ne hy]
  · have hsent : (receive (s.conn x) f.pkt f.size tstamp).sent = [] := rfl
    simp only [after, hsent, List.append_nil]
    exact Function.update_eq_self_iff.mpr rfl

/-- A call that leaves the state of the link and a DISCONNECT alone. -/
theorem Open.call (h : Open mem s) (e : Side) {a : Call w β} (hlocal : a.isLocal = true)
    (hstate : (a.run (s.conn e)).settle.connState = (s.conn e).connState)
    (hopen : (a.run (s.conn e)).settle.flags.discAfterTx = (s.conn e).flags.discAfterTx) :
    ∃ s', step mem s (.call e a) = some s' ∧ Open mem s' ∧ s'.states = s.states ∧ s'.chan = s.chan := by
  have hs : step mem s (.call e a) =
      some (s.after e (a.run (s.conn e)) (s.due e || (a.run (s.conn e)).requestTx)) := by
    simp only [step, hlocal, if_true]
  refine ⟨_, hs, ⟨.step h.reach trivial hs, fun x => ?_⟩, ?_, ?_⟩
  · by_cases hx : x = e
    · subst hx
      simp only [after, Function.update_self]
      exact hopen.trans (h.opened x)
    · simp only [after, Function.update_of_ne hx]
      exact h.opened x
  · funext x
    by_cases hx : x = e
    · subst hx
      simp only [states, after, Function.update_self]
      exact hstate
    · simp only [states, after, Function.update_of_ne hx]
  · simp only [after, sent_local _ hlocal, List.append_nil]
    exact Function.update_eq_self e s.chan

theorem enqueueData_state {cfg : Cfg w} (c : Conn cfg β) (dstChan : Channel w) (buf : Option β)
    (size ttl : Nat) : ((Call.enqueueData dstChan buf size ttl).run c).settle.connState = c.connState ∧
      ((Call.enqueueData dstChan buf size ttl).run c).settle.flags = c.flags := by
  obtain ⟨htodo, hc⟩ := enqueueData_cases c c.log.length dstChan (.ofPtr buf) size ttl
  simp only [Call.run, Out.settle, htodo, List.foldl_nil]
  rcases hc with hc | ⟨-, -, -, -, hc⟩
  · rw [hc]
    exact ⟨rfl, rfl⟩
  · rw [hc]
    exact ⟨rfl, rfl⟩

theorem sendUrgentData_state {cfg : Cfg w} (c : Conn cfg β) (dstChan : Channel w) (buf : Option β)
    (size : Nat) : ((Call.sendUrgentData dstChan buf size).run c).settle.connState = c.connState ∧
      ((Call.sendUrgentData dstChan buf size).run c).settle.flags.discAfterTx = c.flags.discAfterTx := by
  obtain ⟨htodo, hc⟩ := sendUrgentData_cases c c.log.length dstChan (.ofPtr buf) size
  simp only [Call.run, Out.settle, htodo, List.foldl_nil]
  rcases hc with hc | ⟨-, -, -, -, hc⟩
  · rw [hc]
    exact ⟨rfl, rfl⟩
  · rw [hc]
    exact ⟨rfl, rfl⟩

/-- A turn from a moment with nothing on its way to the next. -/
theorem Open.turn (hmt : ∀ e, (cfg e).mt = false) (h : Open mem s) (hempty : ∀ e, s.chan e = [])
    (t : Turn w β) : ∃ s', exec (step mem) s t.moves = some s' ∧ Open mem s' ∧ (∀ e, s'.chan e = []) ∧
      s'.states = t.ends s.states := by
  cases t with
  | enqueueData e dstChan buf size ttl =>
    obtain ⟨hstate, hflags⟩ := enqueueData_state (s.conn e) dstChan buf size ttl
    obtain ⟨s', hs, hopen, hstates, hchan⟩ := h.call e rfl hstate (congrArg (·.discAfterTx) hflags)
    refine ⟨s', ?_, hopen, fun x => by rw [hchan, hempty], hstates⟩
    simp only [Turn.moves, exec, hs, Option.bind_some]
  | sendUrgentData e dstChan buf size =>
    obtain ⟨hstate, hdisc⟩ := sendUrgentData_state (s.conn e) dstChan buf size
    obtain ⟨s', hs, hopen, hstates, hchan⟩ := h.call e rfl hstate hdisc
    refine ⟨s', ?_, hopen, fun x => by rw [hchan, hempty], hstates⟩
    simp only [Turn.moves, exec, hs, Option.bind_some]
  | lost e =>
    obtain ⟨s', f, hs, hopen, -, hstates, hchan⟩ := h.tx hmt e
    have hdrop : step mem s' (.drop e 0) =
        some { s' with chan := Function.update s'.chan e ((s'.chan e).eraseIdx 0) } := rfl
    refine ⟨{ s' with chan := Function.update s'.chan e ((s'.chan e).eraseIdx 0) }, ?_,
      ⟨.step hopen.reach trivial hdrop, hopen.opened⟩, fun x => ?_, hstates⟩
    · simp only [Turn.moves, exec, hs, hdrop, Option.bind_some]
    · simp only [hchan, Function.update_self, Function.update_idem, hempty e]
      by_cases hx : x = e
      · subst hx
        rw [Function.update_self]
        rfl
      · rw [Function.update_of_ne hx]
        exact hempty x
  | one e tstamp =>
    obtain ⟨s₁, f, hs₁, hopen₁, hf, hstates₁, hchan₁⟩ := h.tx hmt e
    have hpeer : e.peer.peer = e := by cases e <;> rfl
    have hline : s₁.chan e.peer.peer = [f] := by
      rw [hpeer, hchan₁, Function.update_self, hempty e]
      rfl
    obtain ⟨s₂, hs₂, hopen₂, hstates₂, hchan₂⟩ := hopen₁.rx e.peer tstamp hline hf
    refine ⟨s₂, ?_, hopen₂, fun x => ?_, ?_⟩
    · simp only [Turn.moves, exec, hs₁, hs₂, Option.bind_some]
    · rw [hchan₂, hchan₁, hpeer, Function.update_idem]
      by_cases hx : x = e
      · subst hx
        rw [Function.update_self]
      · rw [Function.update_of_ne hx]
        exact hempty x
    · rw [hstates₂, hstates₁]
      rfl
  | cross tstamp tstamp' =>
    obtain ⟨s₁, f, hs₁, hopen₁, hf, hstates₁, hchan₁⟩ := h.tx hmt .left
    obtain ⟨s₂, g, hs₂, hopen₂, hg, hstates₂, hchan₂⟩ := hopen₁.tx hmt .right
    rw [hstates₁] at hg hstates₂
    have hright : s₂.chan .right = [g] := by
      rw [hchan₂, Function.update_self, hchan₁, Function.update_of_ne (by simp), hempty .right]
      rfl
    have hleft : s₂.chan .left = [f] := by
      rw [hchan₂, Function.update_of_ne (by simp), hchan₁, Function.update_self, hempty .left]
      rfl
    obtain ⟨s₃, hs₃, hopen₃, hstates₃, hchan₃⟩ := hopen₂.rx .left tstamp hright hg
    have hleft' : s₃.chan .left = [f] := by
      rw [hchan₃, Side.peer, Function.update_of_ne (by simp), hleft]
    obtain ⟨s₄, hs₄, hopen₄, hstates₄, hchan₄⟩ := hopen₃.rx .right tstamp' hleft' hf
    refine ⟨s₄, ?_, hopen₄, ?_, ?_⟩
    · simp only [Turn.moves, exec, hs₁, hs₂, hs₃, hs₄, Option.bind_some]
    · rintro (_ | _)
      · rw [hchan₄]
        rfl
      · rw [hchan₄, hchan₃]
        rfl
    · rw [hstates₄, hstates₃, hstates₂]
      funext x
      cases x with
      | left => rfl
      | right => rfl

theorem Open.turns (hmt : ∀ e, (cfg e).mt = false) (ts : List (Turn w β)) {s : Pair cfg β}
    (h : Open mem s) (hempty : ∀ e, s.chan e = []) :
    ∃ s', exec (step mem) s (ts.flatMap Turn.moves) = some s' ∧
      s'.states = ts.foldl (fun st t => t.ends st) s.states := by
  induction ts generalizing s with
  | nil => exact ⟨s, rfl, rfl⟩
  | cons t ts ih =>
    obtain ⟨s₁, hs₁, hopen₁, hempty₁, hstates₁⟩ := h.turn hmt hempty t
    obtain ⟨s₂, hs₂, hstates₂⟩ := ih hopen₁ hempty₁
    refine ⟨s₂, ?_, ?_⟩
    · rw [List.flatMap_cons, exec_append, hs₁, Option.bind_some, hs₂]
    · rw [hstates₂, hstates₁]
      rfl

end Pair

end Ludlc
