import Ludlc.Inline
import Ludlc.Sections

/-! # What the core calls where it stands

The locked section of a call makes no callback but confirmations, in either build. The other
callbacks are those it leaves to run with the lock released.
-/

namespace Ludlc

variable {w : Wire} {cfg : Cfg w} {β : Type}

def Callback.isConfirm : Callback w β → Bool
  | .onConfirm _ _ => true
  | _ => false

/-- The callbacks of a log other than confirmations. -/
def spoken (log : List (Ev w β)) : List (Callback w β) :=
  log.filterMap fun
    | .call cb => if cb.isConfirm then none else some cb
    | _ => none

@[simp] theorem spoken_append (l l' : List (Ev w β)) : spoken (l ++ l') = spoken l ++ spoken l' :=
  List.filterMap_append

/-- The callbacks other than confirmations of what a call leaves to run. -/
def todoSpoken (todo : List (Todo w β)) : List (Callback w β) :=
  todo.filterMap fun
    | .call cb => if cb.isConfirm then none else some cb
    | _ => none

@[simp] theorem todoSpoken_append (l l' : List (Todo w β)) :
    todoSpoken (l ++ l') = todoSpoken l ++ todoSpoken l' := List.filterMap_append

theorem todoSpoken_callIf (b : Bool) {cb : Callback w β} (hcb : cb.isConfirm = false) :
    todoSpoken (callIf b cb) = if b then [cb] else [] := by
  cases b with
  | false => rfl
  | true => simp [callIf, todoSpoken, hcb]

theorem todoSpoken_receive (r : RxOut cfg β) (p : Packet w) (pktSz tstamp : Nat) :
    todoSpoken (receiveTodo r p pktSz tstamp) =
      (if r.ret.caps then [.onCaps (if pktSz - w.hdrSz = 0 then [] else p.payload) (pktSz - w.hdrSz)]
        else []) ++
        (if r.ret.connected then [.onConnect] else []) ++
        (if r.ret.disconnect then [.onDisconnect] else []) ++
        (if r.ret.accept then [.onRecv p.hdr.chan p.payload (pktSz - w.hdrSz) tstamp p.src] else []) := by
  have hexp : todoSpoken (.confirmUnlocked ::
      r.expired.toList.map fun it => Todo.call (.onConfirm .expired it)) = [] := by
    cases r.expired <;> rfl
  rw [receiveTodo, todoSpoken_append, todoSpoken_append, todoSpoken_append, todoSpoken_append, hexp,
    todoSpoken_callIf _ rfl, todoSpoken_callIf _ rfl, todoSpoken_callIf _ rfl, todoSpoken_callIf _ rfl,
    List.append_nil]

theorem spoken_todoLog (todo : List (Todo w β)) : spoken (todoLog todo) = todoSpoken todo := by
  induction todo with
  | nil => rfl
  | cons a todo ih =>
    have hcons : todoLog (a :: todo) = todoLog [a] ++ todoLog todo := by simp [todoLog]
    rw [hcons, spoken_append, ih]
    cases a with
    | call cb => cases hcb : cb.isConfirm <;> simp [todoLog, spoken, todoSpoken, hcb]
    | _ => rfl

/-- One connection comes from another with nothing called but confirmations. -/
def Hushed (c d : Conn cfg β) : Prop := ∃ evs, d.log = c.log ++ evs ∧ spoken evs = []

section Hushed

variable {c d : Conn cfg β}

theorem Hushed.of_log (h : d.log = c.log) : Hushed c d := ⟨[], by simp [h], rfl⟩

theorem Hushed.trans {e : Conn cfg β} (h : Hushed c d) (h' : Hushed d e) : Hushed c e := by
  obtain ⟨evs, hlog, hs⟩ := h
  obtain ⟨evs', hlog', hs'⟩ := h'
  refine ⟨evs ++ evs', ?_, ?_⟩
  · rw [hlog', hlog, List.append_assoc]
  · rw [spoken_append, hs, hs']
    rfl

theorem spoken_resolveLog (it : PacketQueueItem w β) : spoken (resolveLog cfg it) = [] := by
  unfold resolveLog
  split <;> rfl

theorem spoken_resolved (items : List (PacketQueueItem w β)) : spoken (items.map .resolved) = [] := by
  induction items with
  | nil => rfl
  | cons it items ih => exact ih

theorem hushed_failQueued (n : Nat) (id : Id w) (c : Conn cfg β) : Hushed c (failQueued n id c) := by
  induction n generalizing id c with
  | zero => exact .of_log rfl
  | succ n ih =>
    have hone : Hushed c (failPacket (id + 1) c) := by
      rw [failPacket_eq]
      exact ⟨_, rfl, spoken_resolveLog _⟩
    exact hone.trans (ih _ _)

theorem hushed_onDisconnectLock (c : Conn cfg β) : Hushed c (onDisconnectLock c) := by
  have hdown : Hushed c (linkDown c) := by
    refine ⟨downLog c, by rw [linkDown_eq], ?_⟩
    unfold downLog unnumberedLog
    split <;> rfl
  have hsweep : Hushed (linkDown c) (sweep c) := hushed_failQueued _ _ _
  refine (hdown.trans hsweep).trans ⟨_, by rw [onDisconnectLock_eq, List.append_assoc], ?_⟩
  split <;> rfl

theorem hushed_ackPackets (n : Nat) (c : Conn cfg β) : Hushed c (ackPackets n c) := by
  induction n generalizing c with
  | zero => exact .of_log rfl
  | succ n ih =>
    apply Hushed.trans _ (ih (ackPacket c))
    rw [ackPacket, confirmQueuedLock_eq]
    dsimp only
    split
    all_goals exact ⟨_, rfl, spoken_resolveLog _⟩

theorem hushed_rxHandleAck (c : Conn cfg β) (a : WireId w.idBits) : Hushed c (rxHandleAck c a).1 := by
  have hacked : Hushed c (rxHandleAcked c a) := by
    simp only [rxHandleAcked]
    split
    all_goals exact hushed_ackPackets _ _
  simp only [rxHandleAck]
  split
  · exact .of_log rfl
  split
  · obtain ⟨items, hnak⟩ := Threads.rxHandleNak_log (rxHandleAcked c a)
    exact hacked.trans ⟨_, hnak, spoken_resolved items⟩
  · exact hacked

theorem hushed_rxUp (c : Conn cfg β) (p : Packet w) : Hushed c (rxUp c p) := by
  refine ⟨upLog c p, rxUp_log c p, ?_⟩
  unfold upLog
  split <;> rfl

theorem hushed_rxHandlePacket (c : Conn cfg β) (p : Packet w) (pktSz : Nat) :
    Hushed c (rxHandlePacket c p pktSz).conn := by
  have hstep := rxHandlePacket_step c p pktSz
  generalize rxHandlePacket c p pktSz = r at hstep ⊢
  cases hstep with
  | dropped => exact .of_log rfl
  | handshake => exact hushed_rxUp c p
  | lastStep => exact .of_log rfl
  | down => exact (hushed_rxUp c p).trans (hushed_onDisconnectLock _)
  | data ret a s _ _ _ ha hs =>
    have hack := hushed_rxHandleAck (watchdogRestart (rxUp c p)) p.hdr.ackId
    rw [← ha] at hack
    apply (hushed_rxUp c p).trans
    apply Hushed.trans (.of_log rfl) (hack.trans (.of_log _))
    rw [hs, rxSequence_log]

theorem hushed_confirmULock (c : Conn cfg β) : Hushed c (confirmULock c) := by
  unfold confirmULock
  split
  · exact .of_log rfl
  · exact ⟨[.call (.onConfirm .unnumbered c.uPacket), .ret (.onConfirm .unnumbered c.uPacket)],
      by simp [callNow, Conn.emit], rfl⟩

theorem hushed_disconnectCore (c : Conn cfg β) : Hushed c (disconnectCore c).1 := by
  unfold disconnectCore
  split
  · exact hushed_onDisconnectLock c
  · exact .of_log rfl

theorem hushed_getPacketToSend (mem : β → List UInt8) (c : Conn cfg β) :
    Hushed c (getPacketToSend mem c).conn := by
  cases hd : txDiscSent c with
  | true =>
    rw [getPacketToSend_disc mem hd]
    exact .of_log rfl
  | false =>
    refine ⟨_, (getPacketToSend_step mem hd).2, ?_⟩
    unfold copyLog
    repeat' split
    all_goals rfl

theorem run_hushed (c : Conn cfg β) (a : Call w β) : Hushed c (a.run c).conn := by
  cases a with
  | enqueueData dstChan buf size ttl =>
    obtain ⟨-, hd⟩ := enqueueData_cases c c.log.length dstChan (.ofPtr buf) size ttl
    change Hushed c (enqueueData c c.log.length dstChan (.ofPtr buf) size ttl).conn
    rcases hd with hd | ⟨-, -, -, -, hd⟩ <;> rw [hd]
    · exact .of_log rfl
    · exact ⟨_, rfl, rfl⟩
  | sendUrgentData dstChan buf size =>
    obtain ⟨-, hd⟩ := sendUrgentData_cases c c.log.length dstChan (.ofPtr buf) size
    change Hushed c (sendUrgentData c c.log.length dstChan (.ofPtr buf) size).conn
    rcases hd with hd | ⟨-, -, -, -, hd⟩ <;> rw [hd]
    · exact .of_log rfl
    · exact ⟨_, rfl, rfl⟩
  | sendDisconnect =>
    simp only [Call.run, sendDisconnect]
    split
    · exact .of_log rfl
    split
    · exact .of_log rfl
    · dsimp only
      split
      · exact hushed_confirmULock { c with uPacket := { c.uPacket with result := .ecanceled } }
      · exact .of_log rfl
  | connect =>
    simp only [Call.run, connect]
    split
    · exact .of_log rfl
    split
    · exact .of_log rfl
    · exact hushed_onDisconnectLock c
  | handleDisconnect => exact hushed_disconnectCore c
  | getPacketToSend mem => exact hushed_getPacketToSend mem c
  | receive p pktSz tstamp => exact hushed_rxHandlePacket c p pktSz

end Hushed

end Ludlc
