import Ludlc.Inline

/-! # The watchdog runs with the session

The timer is started by the packet that brings the link up and by every frame of the session, and
stopped by the disconnect sweep. It is a one-shot: between its expiry and what the transport does
about it the link is up with no watchdog.
-/

namespace Ludlc.Inline

open Runs

variable {w : Wire} {cfg : Cfg w} {β : Type}

/-- The connection, and whether the watchdog has expired with nothing done about it yet. -/
structure Watched {w : Wire} (cfg : Cfg w) (β : Type) where
  conn : Conn cfg β
  expired : Bool

/-- `restart` is `ludlc_watchdog_restart` where a resume makes it, on a link that is up. -/
inductive WatchAct (w : Wire) (β : Type)
  | call (a : Call w β)
  | restart
  | expire

/-- The packet goes past the handshake and is no repeated last step of it. -/
def takes (c : Conn cfg β) (p : Packet w) (pktSz : Nat) : Bool :=
  !rxDropped p pktSz &&
    !(c.connState = .connected && isHshake p && p.hdr.txId.id.toNat = ConnState.waitConn2.val)

/-- What ends the time after an expiry: `ludlc_handle_disconnect`, or a packet that `answers` counts. -/
def follows (answers : Conn cfg β → Packet w → Nat → Bool) (c : Conn cfg β) : Call w β → Bool
  | .handleDisconnect => true
  | .receive p pktSz _ => answers c p pktSz
  | _ => false

def watch (answers : Conn cfg β → Packet w → Nat → Bool) (s : Watched cfg β) :
    WatchAct w β → Option (Watched cfg β)
  | .call a => (step s.conn a).map fun d => ⟨d, s.expired && !follows answers s.conn a⟩
  | .restart =>
    if s.conn.connState = .connected then some { s with conn := watchdogRestart s.conn } else none
  | .expire => if s.conn.wdTimer then some ⟨{ s.conn with wdTimer := false }, true⟩ else none

def Watched.init (cfg : Cfg w) (β : Type) : Watched cfg β := ⟨Conn.init cfg β, false⟩

/-- The timer is armed exactly while the link is up, but for the time after an expiry. -/
def Guarded (s : Watched cfg β) : Prop :=
  s.expired = false → (s.conn.wdTimer = true ↔ s.conn.connState = .connected)

/-- What a call does to the link and its timer: nothing, or it stops or starts both. -/
inductive Link (c d : Conn cfg β) : Prop
  | same : d.connState = c.connState → d.wdTimer = c.wdTimer → Link c d
  | low : d.connState ≠ .connected → d.wdTimer = false → Link c d
  | up : d.connState = .connected → d.wdTimer = true → Link c d

theorem Link.refl (c : Conn cfg β) : Link c c := .same rfl rfl

section Link

variable {c d e : Conn cfg β}

theorem Link.trans (h : Link c d) (h' : Link d e) : Link c e := by
  cases h' with
  | low hs ht => exact .low hs ht
  | up hs ht => exact .up hs ht
  | same hs ht =>
    cases h with
    | same hs' ht' => exact .same (hs.trans hs') (ht.trans ht')
    | low hs' ht' => exact .low (hs ▸ hs') (ht.trans ht')
    | up hs' ht' => exact .up (hs.trans hs') (ht.trans ht')

theorem link_onDisconnectLock (c : Conn cfg β) : Link c (onDisconnectLock c) := by
  refine .low (by simp) ?_
  rw [onDisconnectLock_eq, sweep_eq, linkDown_eq]

theorem link_disconnectCore (c : Conn cfg β) : Link c (disconnectCore c).1 := by
  unfold disconnectCore
  split
  · exact link_onDisconnectLock c
  · exact .refl c

theorem ackPackets_wdTimer (n : Nat) (c : Conn cfg β) : (ackPackets n c).wdTimer = c.wdTimer := by
  induction n generalizing c with
  | zero => rfl
  | succ n ih =>
    rw [ackPackets, ih, ackPacket, confirmQueuedLock_eq]
    dsimp only
    split <;> rfl

theorem rxHandleNak_wdTimer (c : Conn cfg β) : (rxHandleNak c).1.wdTimer = c.wdTimer := by
  unfold rxHandleNak
  dsimp only
  repeat' split
  all_goals rfl

theorem rxHandleAck_wdTimer (c : Conn cfg β) (a : WireId w.idBits) :
    (rxHandleAck c a).1.wdTimer = c.wdTimer := by
  have hacked : (rxHandleAcked c a).wdTimer = c.wdTimer := by
    simp only [rxHandleAcked]
    split
    all_goals exact ackPackets_wdTimer _ _
  simp only [rxHandleAck]
  split
  · rfl
  · split
    · exact (rxHandleNak_wdTimer _).trans hacked
    · exact hacked

/-- A packet starts the timer if it brings the link up or belongs to the session, and stops it if it
ends the session. -/
theorem link_rxHandlePacket (hc : c.connState ≠ .connected → c.wdTimer = false) (p : Packet w)
    (pktSz : Nat) : Link c (rxHandlePacket c p pktSz).conn := by
  have hstep := rxHandlePacket_step c p pktSz
  generalize rxHandlePacket c p pktSz = r at hstep ⊢
  cases hstep with
  | dropped => exact .refl c
  | handshake ret hdrop hne hacc hdis hcont hconn =>
    have hup : (rxUp c p).connState = .connected → (rxUp c p).wdTimer = true := by
      intro hst
      obtain ⟨-, -, -, hiff, -⟩ := rxHandleHandshake_spec c p hne
      by_cases hcon : (rxHandleHandshake c p (isHshake p)).2.connected = true
      · simp only [rxUp, hne, if_false, hcon, if_true]
        rfl
      · simp only [rxUp, hne, if_false, hcon, Bool.false_eq_true] at hst
        exact absurd (hiff.mpr hst) hcon
    have hlow : (rxUp c p).connState ≠ .connected → (rxUp c p).wdTimer = c.wdTimer := by
      intro hst
      obtain ⟨heq, -, -, hiff, -⟩ := rxHandleHandshake_spec c p hne
      by_cases hcon : (rxHandleHandshake c p (isHshake p)).2.connected = true
      · refine absurd ?_ hst
        simpa [rxUp, hne, hcon, watchdogRestart] using hiff.mp hcon
      · simp only [rxUp, hne, if_false, hcon, Bool.false_eq_true]
        rw [heq]
    by_cases hst : (rxUp c p).connState = .connected
    · exact .up hst (hup hst)
    · exact .low hst ((hlow hst).trans (hc hne))
  | lastStep => exact .refl c
  | down ret =>
    refine .low (by simp) ?_
    rw [onDisconnectLock_eq, sweep_eq, linkDown_eq]
  | data ret a s hdrop hst hshake ha hs =>
    have hrest := rxHandleAck_rest (watchdogRestart (rxUp c p)) p.hdr.ackId
    have htimer := rxHandleAck_wdTimer (watchdogRestart (rxUp c p)) p.hdr.ackId
    rw [← ha] at hrest htimer
    refine .up ?_ ?_
    · rw [hs, rxSequence_connState, hrest.connState]
      exact hst
    · rw [hs, rxSequence_eq]
      exact htimer

theorem link_callNow (c : Conn cfg β) (cb : Callback w β) : Link c (Ludlc.callNow c cb) :=
  .same rfl rfl

theorem link_settle (o : Out cfg β) : Link o.conn o.settle := by
  unfold Out.settle
  generalize o.todo = todo
  generalize o.conn = c
  induction todo generalizing c with
  | nil => exact .refl c
  | cons a todo ih =>
    refine Link.trans ?_ (ih _)
    cases a with
    | call cb => exact link_callNow c cb
    | handleDisconnect =>
      simp only [runTodo]
      split
      · exact (link_disconnectCore c).trans (link_callNow _ _)
      · exact link_disconnectCore c
    | _ => exact .refl c

theorem confirmULock_link (c : Conn cfg β) :
    (confirmULock c).connState = c.connState ∧ (confirmULock c).wdTimer = c.wdTimer := by
  unfold confirmULock
  split <;> exact ⟨rfl, rfl⟩

theorem link_getPacketToSend (mem : β → List UInt8) (c : Conn cfg β) :
    Link c (getPacketToSend mem c).conn := by
  cases hd : txDiscSent c with
  | true =>
    rw [getPacketToSend_disc mem hd]
    exact .same rfl rfl
  | false =>
    refine .same (getPacketToSend_step mem hd).1.connState ?_
    simp only [getPacketToSend, hd, Bool.false_eq_true, if_false, txCopy, txPrep, txConnected, txUrgent,
      txPing, txData, txHandshake, txAck, txDone]
    repeat' split
    all_goals rfl

theorem link_run (hc : c.connState ≠ .connected → c.wdTimer = false) (a : Call w β) :
    Link c (a.run c).settle := by
  refine Link.trans ?_ (link_settle _)
  cases a with
  | enqueueData dstChan buf size ttl =>
    obtain ⟨-, hd⟩ := enqueueData_cases c c.log.length dstChan (.ofPtr buf) size ttl
    change Link c (enqueueData c c.log.length dstChan (.ofPtr buf) size ttl).conn
    rcases hd with hd | ⟨-, -, -, -, hd⟩ <;> rw [hd]
    · exact .refl c
    · exact .same rfl rfl
  | sendUrgentData dstChan buf size =>
    obtain ⟨-, hd⟩ := sendUrgentData_cases c c.log.length dstChan (.ofPtr buf) size
    change Link c (sendUrgentData c c.log.length dstChan (.ofPtr buf) size).conn
    rcases hd with hd | ⟨-, -, -, -, hd⟩ <;> rw [hd]
    · exact .refl c
    · exact .same rfl rfl
  | sendDisconnect =>
    simp only [Call.run, sendDisconnect]
    split
    · exact .refl c
    split
    · exact .refl c
    · dsimp only
      split
      · obtain ⟨hstate, htimer⟩ :=
          confirmULock_link { c with uPacket := { c.uPacket with result := .ecanceled } }
        exact .same hstate htimer
      · exact .same rfl rfl
  | connect =>
    simp only [Call.run, connect]
    split
    · exact .refl c
    split
    · exact .refl c
    · exact link_onDisconnectLock c
  | handleDisconnect => exact link_disconnectCore c
  | getPacketToSend mem => exact link_getPacketToSend mem c
  | receive p pktSz tstamp => exact link_rxHandlePacket hc p pktSz

/-- A packet that the link takes leaves it up with the timer armed, or down. -/
theorem takes_rxHandlePacket (hc : c.connState ≠ .connected → c.wdTimer = false) {p : Packet w}
    {pktSz : Nat} (htakes : takes c p pktSz = true)
    (hup : (rxHandlePacket c p pktSz).conn.connState = .connected) :
    (rxHandlePacket c p pktSz).conn.wdTimer = true := by
  by_cases hconn : c.connState = .connected
  · simp only [takes, hconn, decide_true, Bool.true_and, Bool.and_eq_true, Bool.not_eq_true',
      Bool.and_eq_false_iff, decide_eq_false_iff_not] at htakes
    obtain ⟨hdrop, hstep⟩ := htakes
    simp only [rxHandlePacket, hdrop, hconn, Bool.false_eq_true, if_false, ne_eq, not_true_eq_false]
      at hup ⊢
    unfold rxConnected at hup ⊢
    split
    next hdisc => simp [hdisc] at hup
    next hdisc =>
      rw [if_neg hdisc] at hup
      split
      next hhshake =>
        rw [if_pos hhshake, if_pos (hstep.resolve_left (by simp [hhshake]))] at hup
        simp at hup
      next =>
        dsimp only
        rw [rxSequence_eq]
        exact rxHandleAck_wdTimer _ _
  · cases link_rxHandlePacket hc p pktSz with
    | low hs => exact absurd hup hs
    | up _ ht => exact ht
    | same hs => exact absurd (hs ▸ hup) hconn

theorem disconnectCore_down (c : Conn cfg β) : (disconnectCore c).1.connState ≠ .connected := by
  unfold disconnectCore
  split
  · simp
  next hc =>
    intro heq
    rw [heq] at hc
    exact hc (by simp)

/-- What ends the time after an expiry leaves the timer armed if the link is up. -/
theorem follows_run (hc : c.connState ≠ .connected → c.wdTimer = false) {a : Call w β}
    (ha : follows takes c a = true) (hup : (a.run c).settle.connState = .connected) :
    (a.run c).settle.wdTimer = true := by
  cases a with
  | handleDisconnect =>
    have hsettle : (handleDisconnect c).settle.connState = (disconnectCore c).1.connState := by
      rw [settle_eq (by simp [handleDisconnect])]
      rfl
    exact absurd (hsettle ▸ hup) (disconnectCore_down c)
  | receive p pktSz tstamp =>
    have hsettle := settle_eq (receive_todo c p pktSz tstamp)
    change (receive c p pktSz tstamp).settle.connState = _ at hup
    change (receive c p pktSz tstamp).settle.wdTimer = _
    rw [hsettle] at hup ⊢
    exact takes_rxHandlePacket hc ha hup
  | _ => cases ha

end Link

/-- What holds in every state: the timer runs only while the link is up, and the link is up without
it only after an expiry. -/
structure WatchInv (s : Watched cfg β) : Prop where
  down : s.conn.connState ≠ .connected → s.conn.wdTimer = false
  up : s.conn.connState = .connected → s.conn.wdTimer = true ∨ s.expired = true

theorem watchInv_step {s s' : Watched cfg β} {a : WatchAct w β} (h : WatchInv s)
    (hs : watch takes s a = some s') : WatchInv s' := by
  cases a with
  | call a =>
    obtain ⟨d, hd, rfl⟩ := Option.map_eq_some_iff.mp hs
    have hlink := link_run h.down a
    rw [← step_eq hd] at hlink
    refine ⟨fun hne => ?_, fun hup => ?_⟩
    · cases hlink with
      | same hst ht => exact ht.trans (h.down (hst ▸ hne))
      | low _ ht => exact ht
      | up hst => exact absurd hst hne
    · cases hf : follows takes s.conn a with
      | true =>
        rw [step_eq hd] at hup ⊢
        exact .inl (follows_run h.down hf hup)
      | false =>
        cases hlink with
        | low hst => exact absurd hup hst
        | up _ ht => exact .inl ht
        | same hst ht =>
          dsimp only at hup ⊢
          rw [ht, Bool.not_false, Bool.and_true]
          exact h.up (hst ▸ hup)
  | restart =>
    simp only [watch] at hs
    split at hs
    next hconn =>
      cases hs
      exact ⟨fun hne => absurd hconn hne, fun _ => .inl rfl⟩
    next => cases hs
  | expire =>
    simp only [watch] at hs
    split at hs
    · cases hs
      exact ⟨fun _ => rfl, fun _ => .inr rfl⟩
    · cases hs

/-- The timer is armed exactly while the link is up, but between an expiry and what follows it. -/
theorem watchdog_guards {s : Watched cfg β}
    (h : Reachable (Watched.init cfg β) (watch takes) (fun _ _ => True) s) : Guarded s := by
  have hinv : WatchInv s :=
    h.invariant ⟨fun _ => rfl, fun hup => by cases hup⟩ fun hi _ hs => watchInv_step hi hs
  intro hexp
  constructor
  · intro ht
    by_contra hne
    rw [hinv.down hne] at ht
    cases ht
  · intro hup
    exact (hinv.up hup).resolve_right (by simp [hexp])

/-- The watchdog of a link just brought up expires, and a packet comes in. -/
def expiryThen (p : Packet (.ofWindow 1 one_lt_idBits)) (pktSz : Nat) :
    List (WatchAct (.ofWindow 1 one_lt_idBits) Unit) :=
  [.call (.receive (.hshake _ 0) 3 0), .call (.receive (.hshake _ 1) 3 0),
    .call (.receive (.hshake _ 2) 3 0), .expire, .call (.receive p pktSz 0)]

theorem not_guarded {s : Watched cfg β} (h : (!s.expired && !s.conn.wdTimer &&
    s.conn.connState = .connected) = true) : ¬ Guarded s := by
  simp only [Bool.and_eq_true, Bool.not_eq_true', decide_eq_true_eq] at h
  intro hg
  have := (hg h.1.1).mpr h.2
  rw [h.1.2] at this
  cases this

/-- The packet is dropped, or is the last step of the handshake again, and the link stays up with no
watchdog. -/
theorem watchdog_lost :
    let cfg := Cfg.ofBuild (.ofWindow 1 (by decide)) false 1 (by decide)
    (¬ ∀ s : Watched cfg Unit, Reachable (Watched.init cfg Unit) (watch fun _ _ _ => true)
      (fun _ _ => True) s → Guarded s) ∧
    ¬ ∀ s : Watched cfg Unit, Reachable (Watched.init cfg Unit)
      (watch fun _ p pktSz => !rxDropped p pktSz) (fun _ _ => True) s → Guarded s := by
  intro cfg
  constructor
  · obtain ⟨s, hs, hbad⟩ := Reachable.of_exec (Watched.init cfg Unit) (watch fun _ _ _ => true)
      (fun _ _ => true) (expiryThen (.hshake _ 0) 2)
      (fun s => !s.expired && !s.conn.wdTimer && s.conn.connState = .connected)
      (by decide +kernel) (by decide +kernel)
    exact fun h => not_guarded hbad (h s (hs.mono fun _ _ _ => trivial))
  · obtain ⟨s, hs, hbad⟩ := Reachable.of_exec (Watched.init cfg Unit)
      (watch fun _ p pktSz => !rxDropped p pktSz) (fun _ _ => true) (expiryThen (.hshake _ 2) 3)
      (fun s => !s.expired && !s.conn.wdTimer && s.conn.connState = .connected)
      (by decide +kernel) (by decide +kernel)
    exact fun h => not_guarded hbad (h s (hs.mono fun _ _ _ => trivial))

/-- The link comes up, the watchdog expires and a PING restarts it. -/
theorem watchdog_guards_ping :
    let cfg := Cfg.ofBuild (.ofWindow 1 (by decide)) false 1 (by decide)
    ∃ s : Watched cfg Unit, s.expired = false ∧ s.conn.connState = .connected ∧ Guarded s := by
  intro cfg
  obtain ⟨s, hs, hup⟩ := Reachable.of_exec (Watched.init cfg Unit) (watch takes)
    (fun _ _ => true)
    (expiryThen (.ping 1 ⟨false, 0⟩) 2)
    (fun s => !s.expired && s.conn.connState = .connected) (by decide +kernel) (by decide +kernel)
  simp only [Bool.and_eq_true, Bool.not_eq_true', decide_eq_true_eq] at hup
  exact ⟨s, hup.1, hup.2, watchdog_guards (hs.mono fun _ _ _ => trivial)⟩

end Ludlc.Inline
