import Ludlc.History
import Ludlc.Lib.Runs

/-! # One end in the build that reports inline

Any sequence of calls of the API, with packets that hold anything, and callbacks that do not call
back. The window stays a window, every packet accepted is either still in it or has been confirmed,
in order and once, and a disconnect leaves none.
-/

namespace Ludlc

open SeqNum Runs

variable {w : Wire} {cfg : Cfg w} {β : Type}

/-- What a call runs with the lock released, where nothing else runs meanwhile and callbacks leave
the core alone. `ludlc_confirm_unlocked` is a stub here. -/
def runTodo (c : Conn cfg β) : Todo w β → Conn cfg β
  | .call cb => callNow c cb
  | .ret _ => c
  | .confirmUnlocked => c
  | .confirmPass => c
  | .handleDisconnect =>
    if (disconnectCore c).2 then callNow (disconnectCore c).1 .onDisconnect
    else (disconnectCore c).1

def Out.settle (o : Out cfg β) : Conn cfg β := o.todo.foldl runTodo o.conn

/-- The callbacks that are left to run, as the log has them. -/
def todoLog (todo : List (Todo w β)) : List (Ev w β) :=
  todo.flatMap fun
    | .call cb => [.call cb, .ret cb]
    | _ => []

theorem todoLog_append (l l' : List (Todo w β)) : todoLog (l ++ l') = todoLog l ++ todoLog l' :=
  List.flatMap_append

theorem quiet_callIf (b : Bool) (cb : Callback w β) (hcb : cb.gives = none) :
    Quiet (todoLog (callIf b cb)) := by
  cases b
  · exact quiet_nil
  · exact quiet_call hcb

/-- Running what is left, none of it a disconnect, makes its callbacks and changes nothing else. -/
theorem settle_eq {o : Out cfg β} (h : .handleDisconnect ∉ o.todo) :
    o.settle = { o.conn with log := o.conn.log ++ todoLog o.todo } := by
  unfold Out.settle
  generalize o.todo = todo at h
  generalize o.conn = c
  induction todo generalizing c with
  | nil => simp [todoLog]
  | cons a todo ih =>
    rw [List.mem_cons, not_or] at h
    obtain ⟨ha, hrest⟩ := h
    rw [List.foldl_cons, ih hrest]
    cases a with
    | call cb => simp [runTodo, callNow, Conn.emit, todoLog]
    | handleDisconnect => exact absurd rfl ha
    | _ => simp [runTodo, todoLog]

/-- A frame is prepared, and the unnumbered packet sent before it is confirmed. -/
theorem getPacketToSend_todo {c : Conn cfg β} (mem : β → List UInt8) (hd : txDiscSent c = false) :
    (getPacketToSend mem c).todo =
      callIf (!c.flags.uDone) (.onConfirm .unnumbered (txDone c !c.flags.uDone).uPacket) := by
  simp [getPacketToSend, hd, callIf]

theorem disconnect_notMem_callIf (b : Bool) (cb : Callback w β) :
    .handleDisconnect ∉ callIf b cb := by
  cases b <;> simp [callIf]

theorem receive_todo (c : Conn cfg β) (p : Packet w) (pktSz tstamp : Nat) :
    .handleDisconnect ∉ (receive c p pktSz tstamp).todo := by
  simp only [receive, receiveTodo, callIf]
  cases (rxHandlePacket c p pktSz).expired <;> simp

namespace Inline

/-- A step is a call, made where the one before has returned. No packet is shorter than a PING. -/
def step (c : Conn cfg β) (a : Call w β) : Option (Conn cfg β) :=
  match a with
  | .receive _ pktSz _ => if w.pingSz ≤ pktSz then some (a.run c).settle else none
  | _ => some (a.run c).settle

theorem step_eq {c d : Conn cfg β} {a : Call w β} (h : step c a = some d) :
    d = (a.run c).settle := by
  unfold step at h
  split at h
  · split at h
    · exact (Option.some_inj.mp h).symm
    · cases h
  · exact (Option.some_inj.mp h).symm

/-- What holds between two calls, and inside one while `due` is still to be confirmed. -/
structure Inv (c : Conn cfg β) (due : List (PacketQueueItem w β))
    (q : SendQueue (PacketQueueItem w β)) : Prop where
  refines : Refines c q
  isOpen : c.flags.busOut = false
  ledger : Ledger c.log ((due ++ q.win).map (·.key))

theorem inv_init : Inv (Conn.init cfg β) [] .empty :=
  ⟨refines_empty rfl rfl rfl fun _ => rfl, rfl, Ledger.init⟩

variable {c d : Conn cfg β} {due : List (PacketQueueItem w β)}
  {q : SendQueue (PacketQueueItem w β)}

/-- A change that leaves the counters and the ring alone, and says nothing of numbered packets. -/
theorem Inv.frame (evs : List (Ev w β)) (h : Inv c due q) (hack : d.lastAck = c.lastAck)
    (hqueued : d.lastQueued = c.lastQueued) (hrep : d.lastReported = c.lastReported)
    (hslots : d.packetsQ = c.packetsQ) (hsent : d.lastSent = c.lastSent)
    (hbusy : d.flags.busOut = c.flags.busOut)
    (hlog : d.log = c.log ++ evs) (hq : Quiet evs) : Inv d due q := by
  have hb : d.flags.busOut = false := hbusy.trans h.isOpen
  exact ⟨h.refines.congr hack hqueued hrep hslots hsent hbusy, hb, hlog ▸ h.ledger.quiet hq⟩

theorem Inv.callNow (h : Inv c due q) {cb : Callback w β}
    (hq : Quiet [(.call cb : Ev w β), .ret cb]) : Inv (callNow c cb) due q :=
  h.frame [.call cb, .ret cb] rfl rfl rfl rfl rfl rfl (by simp [Ludlc.callNow, Conn.emit]) hq

/-- Every packet of the window of `r` is new, under a tag from `n` on, or was in the window of `q`
under a number no lower than it has now. -/
structure Shifts (n : Nat) (q r : SendQueue (PacketQueueItem w β)) : Prop where
  base : q.base ≤ r.base
  items : ∀ j, (h : j < r.win.length) → (n ≤ r.win[j].tag ∧ isCtrlChan r.win[j].chan = false) ∨
    ∃ i, ∃ hi : i < q.win.length, q.win[i].key = r.win[j].key ∧ r.base + j ≤ q.base + i

section Shifts

variable {n : Nat} {r s : SendQueue (PacketQueueItem w β)}

theorem Shifts.trans (h : Shifts n q r) (h' : Shifts n r s) : Shifts n q s where
  base := h.base.trans h'.base
  items := by
    intro j hj
    rcases h'.items j hj with hnew | ⟨i, hi, hkey, hle⟩
    · exact .inl hnew
    have htag : r.win[i].tag = s.win[j].tag := congrArg Key.tag hkey
    have hchan : r.win[i].chan = s.win[j].chan := congrArg Key.chan hkey
    rcases h.items i hi with hnew | ⟨k, hk, hkey', hle'⟩
    · exact .inl (htag ▸ hchan ▸ hnew)
    · exact .inr ⟨k, hk, hkey'.trans hkey, hle.trans hle'⟩

theorem shifts_same (hbase : r.base = q.base) (hwin : r.win = q.win) : Shifts n q r where
  base := hbase.ge
  items := by
    intro j hj
    simp only [hwin] at hj ⊢
    exact .inr ⟨j, hj, rfl, by omega⟩

theorem shifts_push {it : PacketQueueItem w β} (htag : n ≤ it.tag)
    (hchan : isCtrlChan it.chan = false) : Shifts n q (q.push it) where
  base := le_refl _
  items := by
    intro j hj
    simp only [SendQueue.push, List.length_append, List.length_singleton] at hj
    by_cases hlast : j < q.win.length
    · refine .inr ⟨j, hlast, ?_, le_refl _⟩
      simp only [SendQueue.push, List.getElem_append_left hlast]
    · left
      simpa only [SendQueue.push, List.getElem_append_right (Nat.not_lt.mp hlast),
        List.getElem_singleton] using ⟨htag, hchan⟩

theorem shifts_advance (mt : Bool) (f : PacketQueueItem w β → PacketQueueItem w β) {k : Nat}
    (hk : k ≤ q.win.length) : Shifts n q (q.advance mt f k) where
  base := by
    rw [SendQueue.advance_base mt f hk]
    exact Nat.le_add_right _ _
  items := by
    intro j hj
    rw [SendQueue.advance_win, List.length_drop] at hj
    refine .inr ⟨k + j, by omega, ?_, ?_⟩
    · simp only [SendQueue.advance_win, List.getElem_drop]
    · rw [SendQueue.advance_base mt f hk, Nat.add_assoc]

theorem shifts_nak (charge : Bool) : Shifts n q (q.nak charge).1 := by
  unfold SendQueue.nak
  split
  next it rest hw =>
    split
    · -- The packets behind the one given up each take the previous number.
      refine ⟨le_refl _, fun j hj => .inr ⟨j + 1, ?_, ?_, ?_⟩⟩
      · simpa [hw] using hj
      · simp [hw]
      · simp only [SendQueue.base]
        omega
    · refine ⟨le_refl _, fun j hj => .inr ⟨j, ?_, ?_, le_refl _⟩⟩
      · simpa [hw] using hj
      · cases j <;> simp [hw, PacketQueueItem.charged, PacketQueueItem.key]
  next => exact shifts_same rfl rfl

theorem shifts_ackNak {k : Nat} (hk : k ≤ q.win.length) (nak : Option Bool) :
    Shifts n q (q.ackNak cfg.mt k nak).1 := by
  cases nak with
  | none => exact shifts_advance cfg.mt _ hk
  | some charge => exact (shifts_advance cfg.mt _ hk).trans (shifts_nak charge)

end Shifts

/-- What a call does to the queue: the packets of a link that stays up keep their order and never
move back in the sequence, and a link that goes down ends with none. -/
inductive Onward (c : Conn cfg β) (q : SendQueue (PacketQueueItem w β)) (d : Conn cfg β)
    (r : SendQueue (PacketQueueItem w β)) : Prop
  | kept : Shifts c.log.length q r → (c.connState = .connected → d.connState = .connected) →
      Onward c q d r
  | ended : r.win = [] → Onward c q d r

theorem Onward.same (hstate : d.connState = c.connState) : Onward c q d q :=
  .kept (shifts_same rfl rfl) fun hc => hstate.trans hc

theorem Onward.congr {d' : Conn cfg β} {r : SendQueue (PacketQueueItem w β)}
    (h : Onward c q d r) (hstate : d'.connState = d.connState) : Onward c q d' r := by
  cases h with
  | kept hs hup => exact .kept hs fun hc => hstate.trans (hup hc)
  | ended hnil => exact .ended hnil

theorem Inv.down (hmt : cfg.mt = false) (h : Inv c [] q) :
    Inv (onDisconnectLock c) [] .empty := by
  obtain ⟨hq, hlog⟩ := onDisconnectLock_spec h.refines.toHolding
  have hu := undrained_inline hmt (sweep c)
  obtain ⟨hacc, hconf, hs⟩ := resolveLog_inline hmt .epipe q.win
  rw [hu] at hq hlog
  refine ⟨hq, by rw [onDisconnectLock_eq]; exact hu, ?_⟩
  rw [hlog]
  have hfailed : Ledger (c.log ++ downLog c ++
      q.win.flatMap fun it => resolveLog cfg (it.resolve .epipe)) [] :=
    (h.ledger.quiet (quiet_down c)).confirmAll hacc hconf hs
  exact (hfailed.quiet quiet_seqReset).sweep

theorem Inv.handleDisconnect (hmt : cfg.mt = false) (h : Inv c [] q) :
    ∃ q', Inv (runTodo c .handleDisconnect) [] q' ∧ Onward c q (runTodo c .handleDisconnect) q' := by
  simp only [runTodo, disconnectCore]
  split
  · exact ⟨.empty, (h.down hmt).callNow (quiet_call rfl), .ended rfl⟩
  · exact ⟨q, h, .same rfl⟩

/-- The callbacks of `ludlc_receive` other than the one for a packet given up. -/
theorem Inv.callIf (h : Inv c due q) (b : Bool) {cb : Callback w β}
    (hcb : cb.gives = none) :
    Inv ((callIf b cb).foldl runTodo c) due q := by
  cases b
  · exact h
  · exact h.callNow (quiet_call hcb)

theorem Inv.expire (e : Option (PacketQueueItem w β)) (h : Inv c e.toList q) :
    Inv ((e.toList.map fun it => Todo.call (.onConfirm .expired it)).foldl runTodo c) [] q := by
  cases e with
  | none => exact h
  | some it =>
    refine ⟨h.refines.congr rfl rfl rfl rfl rfl rfl, h.isOpen, ?_⟩
    have hevs : (.swept : Ev w β) ∉
      [.call (.onConfirm .expired it), .ret (.onConfirm .expired it)] := by simp
    have := Ledger.confirm [it.key] h.ledger rfl rfl hevs
    simpa [runTodo, Ludlc.callNow, Conn.emit] using this

/-- The ACK field of a packet: those it acknowledges are confirmed, and the one it gives up is
due. -/
theorem Inv.ack (hmt : cfg.mt = false) (h : Inv c [] q) (a : WireId w.idBits) (n : Nat) :
    ∃ q', Inv (rxHandleAck c a).1 (rxHandleAck c a).2.1.toList q' ∧ Shifts n q q' := by
  by_cases hfar : q.win.length < (a.id - c.lastAck).toNat
  · rw [rxHandleAck_far h.refines.toHolding hfar]
    exact ⟨q, h, shifts_same rfl rfl⟩
  · obtain ⟨hq, he, hlog⟩ := rxHandleAck_spec h.refines h.isOpen (a := a) (by omega)
    obtain ⟨hacc, hconf, hs⟩ :=
      resolveLog_inline hmt .ok (q.win.take (a.id - c.lastAck).toNat)
    refine ⟨_, ⟨hq, (rxHandleAck_rest c a).busOut.trans h.isOpen, ?_⟩,
      shifts_ackNak (by omega) _⟩
    rw [hlog]
    obtain ⟨hacc', -, hconf', -, hs'⟩ := resolved_only (rxHandleAck c a).2.1.toList
    refine Ledger.confirm [] (Ledger.confirm _ ?_ hacc hconf hs) hacc'
      (by rw [confirmedKeys, hconf', List.map_nil]) hs'
    rw [List.nil_append, he]
    have hkeys := SendQueue.ackNak_keys cfg.mt (a.id - c.lastAck).toNat (nakOf c a) q
    rw [← hkeys, ← List.map_append, List.take_append_drop]
    exact h.ledger

theorem Inv.up (h : Inv c due q) (p : Packet w) : Inv (rxUp c p) due q := by
  rw [rxUp_eq]
  exact h.frame (upLog c p) rfl rfl rfl rfl rfl rfl rfl (quiet_up c p)

theorem Inv.rxHandlePacket (hmt : cfg.mt = false) (h : Inv c [] q) (p : Packet w) (pktSz : Nat) :
    ∃ q', Inv (rxHandlePacket c p pktSz).conn (rxHandlePacket c p pktSz).expired.toList q' ∧
      Onward c q (rxHandlePacket c p pktSz).conn q' := by
  have hstep := rxHandlePacket_step c p pktSz
  generalize Ludlc.rxHandlePacket c p pktSz = r at hstep ⊢
  cases hstep with
  | dropped => exact ⟨q, h, .same rfl⟩
  | handshake _ _ hne => exact ⟨q, h.up p, .kept (shifts_same rfl rfl) fun hc => absurd hc hne⟩
  | lastStep => exact ⟨q, h, .same rfl⟩
  | down => exact ⟨.empty, (h.up p).down hmt, .ended rfl⟩
  | data ret a s _ hup _ ha hs =>
    have hw : Inv (watchdogRestart (rxUp c p)) [] q :=
      (h.up p).frame [] rfl rfl rfl rfl rfl rfl (by simp [watchdogRestart]) quiet_nil
    obtain ⟨q', hq, hshift⟩ := hw.ack hmt p.hdr.ackId c.log.length
    have hrest := (rxHandleAck_rest (watchdogRestart (rxUp c p)) p.hdr.ackId).connState
    rw [← ha] at hq hrest
    refine ⟨q', ?_, .kept hshift fun _ => ?_⟩
    · rw [hs, rxSequence_eq]
      exact hq.frame [] rfl rfl rfl rfl rfl rfl (by simp) quiet_nil
    · rw [hs, rxSequence_connState, hrest]
      exact hup

theorem Inv.receive (hmt : cfg.mt = false) (h : Inv c [] q) (p : Packet w) (pktSz tstamp : Nat) :
    ∃ q', Inv (receive c p pktSz tstamp).settle [] q' ∧
      Onward c q (receive c p pktSz tstamp).settle q' := by
  obtain ⟨q', hq, hon⟩ := h.rxHandlePacket hmt p pktSz
  refine ⟨q', ?_, hon.congr ?_⟩
  · simp only [Ludlc.receive, Out.settle, receiveTodo, List.foldl_append, List.foldl_cons]
    refine Inv.callIf (Inv.callIf ?_ _ rfl) _ rfl
    refine Inv.expire _ ?_
    exact Inv.callIf (Inv.callIf hq _ rfl) _ rfl
  · rw [settle_eq (receive_todo c p pktSz tstamp)]
    rfl

theorem Inv.getPacketToSend (hmt : cfg.mt = false) (h : Inv c [] q) (mem : β → List UInt8) :
    ∃ q', Inv (getPacketToSend mem c).settle [] q' ∧ Onward c q (getPacketToSend mem c).settle q' := by
  obtain ⟨hq, -⟩ := getPacketToSend_refines mem h.refines fun _ => h.isOpen
  cases hd : txDiscSent c with
  | true =>
    rw [getPacketToSend_disc mem hd]
    have hdone : Inv ({ c with flags := { c.flags with uDone := true } } : Conn cfg β) [] q :=
      h.frame [] rfl rfl rfl rfl rfl rfl (by simp) quiet_nil
    obtain ⟨q', hq, hon⟩ := hdone.handleDisconnect hmt
    refine ⟨q', hq, ?_⟩
    cases hon with
    | kept hs hup => exact .kept hs hup
    | ended hnil => exact .ended hnil
  | false =>
    obtain ⟨hs, hlog⟩ := getPacketToSend_step mem hd
    have hconn : Inv (Ludlc.getPacketToSend mem c).conn []
        { q with sent := q.sent + (txNumbered c && !txDiscSent c).toNat } :=
      ⟨hq, hs.busOut.trans h.isOpen, hlog ▸ h.ledger.quiet (quiet_copy _)⟩
    have htodo := getPacketToSend_todo mem hd
    refine ⟨{ q with sent := q.sent + (txNumbered c && !txDiscSent c).toNat }, ?_,
      .kept (shifts_same rfl rfl) fun hc => ?_⟩
    · rw [Out.settle, htodo]
      exact hconn.callIf _ rfl
    · have hno : .handleDisconnect ∉ (Ludlc.getPacketToSend mem c).todo := by
        rw [htodo]
        exact disconnect_notMem_callIf _ _
      rw [settle_eq hno]
      exact hs.connState.trans hc

theorem inv_run (hmt : cfg.mt = false) (h : Inv c [] q) (a : Call w β) :
    ∃ q', Inv (a.run c).settle [] q' ∧ Onward c q (a.run c).settle q' := by
  cases a with
  | enqueueData dstChan buf size ttl =>
    obtain ⟨htodo, hc⟩ := enqueueData_cases c c.log.length dstChan (.ofPtr buf) size ttl
    simp only [Call.run, Out.settle, htodo, List.foldl_nil]
    rcases hc with hc | ⟨hopen, hroom, hchan, -, hc⟩
    · rw [hc]
      exact ⟨q, h, .same rfl⟩
    · rw [hc]
      have htag : (c.queuedItem c.log.length dstChan (.ofPtr buf) size ttl).tag = c.log.length := rfl
      refine ⟨q.push (c.queuedItem c.log.length dstChan (.ofPtr buf) size ttl),
        ⟨push_spec h.refines hopen hroom (normTtl_bounds ttl), hopen, ?_⟩,
        .kept (shifts_push htag.ge hchan) id⟩
      simpa [Conn.push, SendQueue.push] using h.ledger.accept htag
  | sendUrgentData dstChan buf size =>
    obtain ⟨htodo, hc⟩ := sendUrgentData_cases c c.log.length dstChan (.ofPtr buf) size
    simp only [Call.run, Out.settle, htodo, List.foldl_nil]
    rcases hc with hc | ⟨-, -, -, -, hc⟩
    · rw [hc]
      exact ⟨q, h, .same rfl⟩
    · rw [hc]
      exact ⟨q, h.frame [_] rfl rfl rfl rfl rfl rfl rfl (quiet_cons rfl quiet_nil), .same rfl⟩
  | sendDisconnect =>
    simp only [Call.run, Ludlc.sendDisconnect, Out.settle]
    split
    · exact ⟨q, h, .same rfl⟩
    split
    · exact ⟨q, h, .same rfl⟩
    · simp only [List.foldl_cons, List.foldl_nil, runTodo]
      have hc : Inv (if !c.flags.uIdle && !c.flags.discAfterTx then
          confirmULock { c with uPacket := { c.uPacket with result := .ecanceled } } else c)
          [] q := by
        split
        · simp only [confirmULock, hmt, Bool.false_eq_true, if_false]
          refine Inv.callNow ?_ (quiet_call rfl)
          exact h.frame [] rfl rfl rfl rfl rfl rfl (by simp) quiet_nil
        · exact h
      refine ⟨q, hc.frame [] rfl rfl rfl rfl rfl rfl (by simp) quiet_nil, .same ?_⟩
      split
      · simp [confirmULock, hmt, Ludlc.callNow]
      · rfl
  | connect =>
    simp only [Call.run, Ludlc.connect, Out.settle]
    split
    · exact ⟨q, h, .same rfl⟩
    split
    · exact ⟨q, h, .same rfl⟩
    · exact ⟨.empty, h.down hmt, .ended rfl⟩
  | handleDisconnect =>
    have := h.handleDisconnect hmt
    simp only [runTodo] at this
    simp only [Call.run, Ludlc.handleDisconnect, Out.settle]
    split at this
    next hb => simpa [runTodo, hb] using this
    next hb => simpa [runTodo, hb] using this
  | getPacketToSend mem => exact h.getPacketToSend hmt mem
  | receive p pktSz tstamp => exact h.receive hmt p pktSz tstamp

theorem inv_step (hmt : cfg.mt = false) (h : ∃ q, Inv c [] q) {a : Call w β}
    (hs : step c a = some d) : ∃ q, Inv d [] q := by
  obtain ⟨q, h⟩ := h
  obtain ⟨q, h, -⟩ := inv_run hmt h a
  exact ⟨q, step_eq hs ▸ h⟩

/-- The states that calls from `ludlc_connection_init` on reach. -/
abbrev Reaches (c : Conn cfg β) : Prop := Reachable (Conn.init cfg β) step (fun _ _ => True) c

theorem inv_reaches (hmt : cfg.mt = false) (h : Reaches c) : ∃ q, Inv c [] q :=
  h.invariant (I := fun c => ∃ q, Inv c [] q) ⟨_, inv_init⟩ fun hi _ hs => inv_step hmt hi hs

/-- The window stays a window, holds what has been accepted and not confirmed, and a disconnect
leaves none: whatever the peer sends. -/
theorem window_integrity (hmt : cfg.mt = false) (h : Reaches c) :
    (c.lastSent - c.lastAck).toNat ≤ (c.lastQueued - c.lastAck).toNat ∧
      (c.lastQueued - c.lastAck).toNat ≤ w.window ∧
      acceptedKeys c.log = confirmedKeys c.log ++ c.windowItems.map (·.key) ∧
      (acceptedKeys c.log).Pairwise (fun a b => a.tag < b.tag) ∧
      (∀ it ∈ c.windowItems, 1 ≤ it.ttl ∧ it.ttl ≤ maxTtl) ∧
      (∀ pre, pre ++ [.swept] <+: c.log → acceptedKeys pre = confirmedKeys pre) := by
  obtain ⟨q, hq⟩ := inv_reaches hmt h
  have hsent := hq.refines.sent hq.isOpen
  have hwin := hq.refines.windowItems
  have hroom := hq.refines.room
  refine ⟨?_, ?_, ?_, hq.ledger.tags, ?_, hq.ledger.swept⟩
  · rw [SentAt.numSent hq.refines.toHolding hsent, hq.refines.numQueued]
    exact hsent.2
  · rw [hq.refines.numQueued]
    omega
  · rw [hwin]
    simpa using hq.ledger.keys
  · rw [hwin]
    exact hq.refines.ttl

/-- Two packets accepted, with the first of them sent. -/
theorem window_integrity_two :
    ∃ c : Conn (.ofBuild (.ofWindow 1 (by decide)) false 1 (by decide)) Unit, Reaches c ∧
      (c.lastQueued - c.lastAck).toNat = 2 ∧ (c.lastSent - c.lastAck).toNat ≤ 2 := by
  obtain ⟨c, hc, htwo⟩ := Reachable.of_exec
    (Conn.init (.ofBuild (.ofWindow 1 (by decide)) false 1 (by decide)) Unit) step
    (fun _ _ => true)
    [.receive (.hshake _ 0) 3 0, .receive (.hshake _ 1) 3 0, .receive (.hshake _ 2) 3 0,
      .enqueueData 1 (some ()) 1 1, .enqueueData 1 (some ()) 1 1, .getPacketToSend fun _ => [7]]
    (fun c => (c.lastQueued - c.lastAck).toNat = 2) (by decide +kernel) (by decide +kernel)
  have htwo := of_decide_eq_true htwo
  have hreach : Reaches c := hc.mono fun _ _ _ => trivial
  exact ⟨c, hreach, htwo, htwo ▸ (window_integrity rfl hreach).1⟩

end Inline

end Ludlc
