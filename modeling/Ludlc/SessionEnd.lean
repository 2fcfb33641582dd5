import Ludlc.Notify

/-! # Which session is taken down

A DISCONNECT found sent and a watchdog that expired both end a session, and both are decided in one
place and carried out in another: behind the lock of the transmitting thread, and behind a pipe to the
receiving one. In between the session may have ended, and another may have come up.
-/

namespace Ludlc.Threads

open Runs

variable {w : Wire} {cfg : Cfg w} {β T : Type}

def isUp : Ev w β → Bool
  | .up => true
  | _ => false

/-- The number of the session, which is the last one while the link is down. -/
def sessionNo (c : Conn cfg β) : Nat := c.log.countP isUp

section Sessions

variable {c d : Conn cfg β}

theorem sessionNo_append {evs : List (Ev w β)} (hlog : d.log = c.log ++ evs) :
    sessionNo d = sessionNo c + evs.countP isUp := by
  rw [sessionNo, hlog, List.countP_append]
  rfl

theorem countP_resolved (items : List (PacketQueueItem w β)) :
    (items.map Ev.resolved).countP isUp = 0 := by
  rw [List.countP_eq_zero]
  intro e he
  obtain ⟨it, -, rfl⟩ := List.mem_map.mp he
  simp [isUp]

theorem sessionNo_onDisconnectLock (hmt : cfg.mt = true) (c : Conn cfg β) :
    sessionNo (onDisconnectLock c) = sessionNo c := by
  obtain ⟨items, hlog⟩ := onDisconnectLock_log hmt c
  rw [List.append_assoc, List.append_assoc] at hlog
  have hdown : (.down :: items.map Ev.resolved).countP isUp = 0 := by
    rw [List.countP_cons, countP_resolved]
    rfl
  rw [sessionNo_append hlog, List.countP_append, hdown]
  split <;> rfl

theorem sessionNo_rxHandleAck (hmt : cfg.mt = true) (c : Conn cfg β) (a : WireId w.idBits) :
    sessionNo (rxHandleAck c a).1 = sessionNo c := by
  obtain ⟨items, hlog⟩ := rxHandleAck_log hmt c a
  rw [sessionNo_append hlog, countP_resolved, Nat.add_zero]

theorem sessionNo_rxUp (c : Conn cfg β) (p : Packet w)
    (h : (rxUp c p).connState = .connected → c.connState = .connected) :
    sessionNo (rxUp c p) = sessionNo c := by
  have hlog : upLog c p = [] := by
    rw [upLog, if_neg]
    rintro ⟨hne, hup⟩
    exact hne (h hup)
  rw [sessionNo_append (rxUp_log c p), hlog]
  rfl

/-- What a call can do to the session. -/
inductive Turn (c : Conn cfg β) (a : Call w β) (d : Conn cfg β) : Prop
  /-- It goes on, or ends. -/
  | keep : sessionNo d = sessionNo c → (d.connState = .connected → c.connState = .connected) →
      (d.flags.discAfterTx = true → c.flags.discAfterTx = true ∧
        (c.connState = .connected → d.connState = .connected)) → Turn c a d
  /-- A new one comes up, and may have ended with the same packet. -/
  | up (p : Packet w) (pktSz tstamp : Nat) : a = .receive p pktSz tstamp →
      completes c p pktSz = true → c.connState ≠ .connected →
      (d.flags.discAfterTx = true → c.flags.discAfterTx = true) → Turn c a d
  /-- A DISCONNECT is queued in it. -/
  | queue : a = .sendDisconnect → c.connState = .connected → (a.run c).ret = .ok →
      d.connState = .connected → sessionNo d = sessionNo c → Turn c a d

theorem Turn.down (hmt : cfg.mt = true) {a : Call w β} (hlog : sessionNo d = sessionNo c) :
    Turn c a (onDisconnectLock d) := by
  refine .keep ((sessionNo_onDisconnectLock hmt d).trans hlog) (by simp) fun hd => ?_
  rw [Inline.onDisconnectLock_disc] at hd
  cases hd

theorem Turn.same {a : Call w β} (hlog : sessionNo d = sessionNo c)
    (hstate : d.connState = c.connState) (hdisc : d.flags.discAfterTx = c.flags.discAfterTx) :
    Turn c a d :=
  .keep hlog (fun h => hstate ▸ h) fun h => ⟨hdisc ▸ h, fun hc => hstate.trans hc⟩

theorem receive_turn (hmt : cfg.mt = true) (c : Conn cfg β) (p : Packet w) (pktSz tstamp : Nat) :
    Turn c (.receive p pktSz tstamp) (receive c p pktSz tstamp).conn := by
  have hstep := rxHandlePacket_step c p pktSz
  simp only [receive]
  generalize rxHandlePacket c p pktSz = r at hstep ⊢
  cases hstep with
  | dropped => exact .same rfl rfl rfl
  | handshake ret hdrop hne =>
    by_cases hup : (rxUp c p).connState = .connected
    · exact .up p pktSz tstamp rfl (completes_of_up hne hdrop hup) hne (by simp)
    · refine .keep (sessionNo_rxUp c p fun h => absurd h hup) (fun h => absurd h hup) fun hd => ?_
      exact ⟨by simpa using hd, fun hc => absurd hc hne⟩
  | lastStep => exact .same rfl rfl rfl
  | down ret hdrop hup =>
    by_cases hc : c.connState = .connected
    · rw [rxUp_connected hc]
      exact .down hmt rfl
    · refine .up p pktSz tstamp rfl (completes_of_up hc hdrop hup) hc fun hd => ?_
      rw [Inline.onDisconnectLock_disc] at hd
      cases hd
  | data ret a s hdrop hup _ ha hs =>
    have hrest := rxHandleAck_rest (watchdogRestart (rxUp c p)) p.hdr.ackId
    have hslot := sameSlot_rxSequence a.1 p (isUPacket p pktSz)
    rw [← ha] at hrest
    have hdisc : s.1.flags.discAfterTx = c.flags.discAfterTx := by
      rw [hs, hslot.discAfterTx, hrest.discAfterTx]
      simp [watchdogRestart]
    by_cases hc : c.connState = .connected
    · refine .same ?_ ?_ hdisc
      · have hseq : sessionNo s.1 = sessionNo a.1 := by
          rw [sessionNo, hs, rxSequence_log]
          rfl
        rw [hseq, ha, sessionNo_rxHandleAck hmt, rxUp_connected hc]
        rfl
      · rw [hs, rxSequence_connState, hrest.connState, rxUp_connected hc]
        rfl
    · exact .up p pktSz tstamp rfl (completes_of_up hc hdrop hup) hc fun hd => hdisc ▸ hd

theorem call_turn (hmt : cfg.mt = true) (c : Conn cfg β) (a : Call w β) : Turn c a (a.run c).conn := by
  cases a with
  | enqueueData dstChan buf size ttl =>
    obtain ⟨-, hd | ⟨-, -, -, -, hd⟩⟩ := enqueueData_cases c c.log.length dstChan (.ofPtr buf) size ttl
    all_goals rw [show (Call.run c (.enqueueData dstChan buf size ttl)).conn = _ from hd]
    · exact .same rfl rfl rfl
    · exact .same (by simp [sessionNo, Conn.push, isUp]) rfl rfl
  | sendUrgentData dstChan buf size =>
    obtain ⟨-, hd | ⟨-, -, -, -, hd⟩⟩ := sendUrgentData_cases c c.log.length dstChan (.ofPtr buf) size
    all_goals rw [show (Call.run c (.sendUrgentData dstChan buf size)).conn = _ from hd]
    · exact .same rfl rfl rfl
    · exact .same (by simp [sessionNo, Conn.hold, isUp]) rfl rfl
  | sendDisconnect =>
    by_cases hconn : c.connState = .connected
    · by_cases hdone : c.flags.uDone = true
      · refine .queue rfl hconn ?_ ?_ ?_
        all_goals
          simp only [Call.run, sendDisconnect, hconn, hdone, confirmULock, hmt]
          repeat' split
          all_goals first | rfl | simp_all
      · have hd : (Call.run c .sendDisconnect).conn = c := by
          simp [Call.run, sendDisconnect, hconn, hdone]
        rw [hd]
        exact .same rfl rfl rfl
    · have hd : (Call.run c .sendDisconnect).conn = c := by
        simp [Call.run, sendDisconnect, hconn]
      rw [hd]
      exact .same rfl rfl rfl
  | connect =>
    simp only [Call.run, connect]
    repeat' split
    all_goals first | exact .same rfl rfl rfl | exact .down hmt rfl
  | handleDisconnect =>
    simp only [Call.run, handleDisconnect, disconnectCore]
    split
    · exact .down hmt rfl
    · exact .same rfl rfl rfl
  | getPacketToSend mem =>
    change Turn c _ (getPacketToSend mem c).conn
    cases hd : txDiscSent c with
    | true =>
      rw [getPacketToSend_disc mem hd]
      exact .same rfl rfl rfl
    | false =>
      obtain ⟨hs, hlog⟩ := getPacketToSend_step mem hd
      refine .same ?_ hs.connState hs.discAfterTx
      rw [sessionNo_append hlog]
      unfold copyLog
      repeat' split
      all_goals rfl
  | receive p pktSz tstamp => exact receive_turn hmt c p pktSz tstamp

/-- Only a DISCONNECT that has been sent leaves the session to be ended. -/
theorem handleDisconnect_mem {a : Call w β} (h : .handleDisconnect ∈ (a.run c).todo) :
    txDiscSent c = true ∧ ∃ mem, a = .getPacketToSend mem := by
  cases a with
  | enqueueData dstChan buf size ttl =>
    have htodo := (enqueueData_cases c c.log.length dstChan (.ofPtr buf) size ttl).1
    rw [show (Call.run c (.enqueueData dstChan buf size ttl)).todo = _ from htodo] at h
    cases h
  | sendUrgentData dstChan buf size =>
    have htodo := (sendUrgentData_cases c c.log.length dstChan (.ofPtr buf) size).1
    rw [show (Call.run c (.sendUrgentData dstChan buf size)).todo = _ from htodo] at h
    cases h
  | sendDisconnect =>
    simp only [Call.run, sendDisconnect] at h
    repeat' split at h
    all_goals simp at h
  | connect =>
    simp only [Call.run, connect] at h
    repeat' split at h
    all_goals simp at h
  | handleDisconnect =>
    simp only [Call.run, handleDisconnect] at h
    split at h <;> simp at h
  | getPacketToSend mem =>
    refine ⟨?_, mem, rfl⟩
    by_contra hd
    have hd : txDiscSent c = false := by simpa using hd
    simp only [Call.run, getPacketToSend, hd, Bool.false_eq_true, if_false] at h
    split at h <;> simp at h
  | receive p pktSz tstamp =>
    simp only [Call.run, receive, receiveTodo, callIf] at h
    cases (rxHandlePacket c p pktSz).expired <;> simp at h

end Sessions

/-- The POSIX port of a link. `rxPipe` is the pipe its watchdog writes to and its receiving thread
reads, each octet with the session whose watchdog wrote it. The other fields are history variables:
the session in which a DISCONNECT was queued last, that of the DISCONNECT found sent last, and for each
session taken down for one of the two reasons those it was decided for. -/
structure Port {w : Wire} (cfg : Cfg w) (β T : Type) where
  sys : Sys cfg β T
  rxPipe : List Nat
  queuedIn : Nat
  foundFor : Nat
  ended : List (List Nat × Nat)

def Port.init (cfg : Cfg w) (β T : Type) : Port cfg β T := ⟨Sys.init cfg β T, [], 0, 0, []⟩

/-- A step of the threads, the watchdog going off, or the receiving thread waiting for its two
descriptors, `uart` telling that there are octets to be read. -/
inductive PortAct (w : Wire) (β T : Type)
  | act (a : Act w β T)
  | wdTimer
  | serialRead (uart : Bool)

/-- The session that `ludlc_handle_disconnect` takes down in `c`, decided for one of `causes`. -/
def takenDown (c : Conn cfg β) (causes : List Nat) : List (List Nat × Nat) :=
  if c.connState = .connected then [(causes, sessionNo c)] else []

/-- A thread goes on with the DISCONNECT it found sent. -/
def endsSession : List (Todo w β) → Bool
  | .handleDisconnect :: _ => true
  | _ => false

/-- The session of the DISCONNECT queued last. -/
def queuedIn (m : Port cfg β T) : Act w β T → Nat
  | .call _ .sendDisconnect =>
    if (sendDisconnect m.sys.conn).ret = .ok then sessionNo m.sys.conn else m.queuedIn
  | _ => m.queuedIn

/-- The session of the DISCONNECT found sent last. -/
def foundFor (m : Port cfg β T) : Act w β T → Nat
  | .call _ (.getPacketToSend _) => if txDiscSent m.sys.conn then m.queuedIn else m.foundFor
  | _ => m.foundFor

/-- What a step of the threads takes down because of a DISCONNECT. -/
def endedBy (m : Port cfg β T) : Act w β T → List (List Nat × Nat)
  | .run t => if endsSession (m.sys.todo t) then takenDown m.sys.conn [m.foundFor] else []
  | _ => []

def portStep [DecidableEq T] (rx tx : T) (m : Port cfg β T) : PortAct w β T → Option (Port cfg β T)
  | .act a => (step rx tx m.sys a).map fun s =>
    { m with
      sys := s
      queuedIn := queuedIn m a
      foundFor := foundFor m a
      ended := m.ended ++ endedBy m a }
  | .wdTimer =>
    -- `ludlc_platform_conn_timeout`: the timer fires once.
    if m.sys.conn.wdTimer then
      some { m with
        sys := { m.sys with conn := { m.sys.conn with wdTimer := false } }
        rxPipe := m.rxPipe ++ [sessionNo m.sys.conn] }
    else none
  | .serialRead uart =>
    -- `ludlc_serial_read` drains the pipe, and returns an error unless there are octets too.
    if !(m.sys.todo rx).isEmpty then none
    else if uart then some { m with rxPipe := [] }
    else if m.rxPipe = [] then none
    else some { m with
      sys := ⟨(handleDisconnect m.sys.conn).conn,
        Function.update m.sys.todo rx (handleDisconnect m.sys.conn).todo⟩
      rxPipe := []
      ended := m.ended ++ takenDown m.sys.conn m.rxPipe }

/-- No packet completes a handshake while the transmitting thread is between the DISCONNECT it found
sent and the end of its session, or while the watchdog's octet is in the pipe. -/
def noneBetween [DecidableEq T] (tx : T) (m : Port cfg β T) : PortAct w β T → Bool
  | .act (.call _ (.receive p pktSz _)) =>
    !completes m.sys.conn p pktSz ||
      (m.rxPipe.isEmpty && !(m.sys.todo tx).any fun a => endsSession [a])
  | _ => true

section Own

variable {tx : T} {m : Port cfg β T}

/-- A DISCONNECT queued, one found sent and the watchdog octets in the pipe are of the session that is
up, if any. -/
structure OwnEnd (tx : T) (m : Port cfg β T) : Prop where
  others : ∀ t, t ≠ tx → .handleDisconnect ∉ m.sys.todo t
  queued : m.sys.conn.flags.discAfterTx = true →
    m.sys.conn.connState = .connected ∧ m.queuedIn = sessionNo m.sys.conn
  found : .handleDisconnect ∈ m.sys.todo tx → m.sys.conn.connState = .connected →
    m.foundFor = sessionNo m.sys.conn
  pipe : ∀ k ∈ m.rxPipe, m.sys.conn.connState = .connected → k = sessionNo m.sys.conn
  ended : ∀ e ∈ m.ended, e.2 ∈ e.1

theorem ownEnd_init (tx : T) : OwnEnd tx (Port.init cfg β T) where
  others _ _ := by simp [Port.init, Sys.init]
  queued h := by cases h
  found h := by simp [Port.init, Sys.init] at h
  pipe := by simp [Port.init]
  ended := by simp [Port.init]

theorem takenDown_own {c : Conn cfg β} {causes : List Nat}
    (h : c.connState = .connected → sessionNo c ∈ causes) : ∀ e ∈ takenDown c causes, e.2 ∈ e.1 := by
  intro e he
  unfold takenDown at he
  split at he
  next hc =>
    rw [List.mem_singleton] at he
    rw [he]
    exact h hc
  · cases he

theorem OwnEnd.keep (h : OwnEnd tx m) {c : Conn cfg β} {todo : T → List (Todo w β)} {pipe : List Nat}
    {queued found : Nat} {more : List (List Nat × Nat)} (hno : sessionNo c = sessionNo m.sys.conn)
    (hup : c.connState = .connected → m.sys.conn.connState = .connected)
    (hdisc : c.flags.discAfterTx = true → m.sys.conn.flags.discAfterTx = true ∧
      (m.sys.conn.connState = .connected → c.connState = .connected))
    (hqueued : queued = m.queuedIn ∨ queued = sessionNo m.sys.conn)
    (hothers : ∀ t, t ≠ tx → .handleDisconnect ∈ todo t → .handleDisconnect ∈ m.sys.todo t)
    (hfound : .handleDisconnect ∈ todo tx →
      (found = m.foundFor ∧ .handleDisconnect ∈ m.sys.todo tx) ∨
        (found = m.queuedIn ∧ m.sys.conn.flags.discAfterTx = true))
    (hpipe : ∀ k ∈ pipe, k ∈ m.rxPipe) (hmore : ∀ e ∈ more, e.2 ∈ e.1) :
    OwnEnd tx ⟨⟨c, todo⟩, pipe, queued, found, m.ended ++ more⟩ where
  others t ht hin := h.others t ht (hothers t ht hin)
  queued hd := by
    obtain ⟨hd, hstate⟩ := hdisc hd
    obtain ⟨hc, hq⟩ := h.queued hd
    refine ⟨hstate hc, ?_⟩
    rcases hqueued with heq | heq
    · exact heq.trans (hq.trans hno.symm)
    · exact heq.trans hno.symm
  found hin hc := by
    rcases hfound hin with ⟨heq, hin⟩ | ⟨heq, hd⟩
    · exact heq.trans ((h.found hin (hup hc)).trans hno.symm)
    · exact heq.trans ((h.queued hd).2.trans hno.symm)
  pipe k hk hc := (h.pipe k (hpipe k hk) (hup hc)).trans hno.symm
  ended e he := (List.mem_append.mp he).elim (h.ended e) (hmore e)

variable [DecidableEq T]

theorem OwnEnd.call (hmt : cfg.mt = true) {rx t : T} {a : Call w β} (h : OwnEnd tx m)
    (hmay : mayCall rx tx t (m.sys.todo t) a = true)
    (hok : noneBetween tx m (.act (.call t a)) = true) :
    OwnEnd tx
      { m with
        sys := ⟨(a.run m.sys.conn).conn,
          Function.update m.sys.todo t ((a.run m.sys.conn).todo ++ m.sys.todo t)⟩
        queuedIn := Threads.queuedIn m (.call t a)
        foundFor := Threads.foundFor m (.call t a)
        ended := m.ended ++ endedBy m (.call t a) } := by
  -- Where the step leaves a DISCONNECT found sent, it was there before, or is found by this call.
  have hleft : ∀ t', .handleDisconnect ∈
      Function.update m.sys.todo t ((a.run m.sys.conn).todo ++ m.sys.todo t) t' →
      .handleDisconnect ∈ m.sys.todo t' ∨
        t' = tx ∧ txDiscSent m.sys.conn = true ∧ ∃ mem, a = .getPacketToSend mem := by
    intro t' hin
    by_cases ht : t' = t
    · subst ht
      rw [Function.update_self, List.mem_append] at hin
      rcases hin with hin | hin
      · obtain ⟨hd, mem, rfl⟩ := handleDisconnect_mem hin
        simp only [mayCall, Bool.and_eq_true, decide_eq_true_eq] at hmay
        exact .inr ⟨hmay.1, hd, mem, rfl⟩
      · exact .inl hin
    · rw [Function.update_of_ne ht] at hin
      exact .inl hin
  have hqueued : Threads.queuedIn m (.call t a) = m.queuedIn ∨
      Threads.queuedIn m (.call t a) = sessionNo m.sys.conn := by
    cases a with
    | sendDisconnect =>
      simp only [Threads.queuedIn]
      split
      · exact .inr rfl
      · exact .inl rfl
    | _ => exact .inl rfl
  have hfound : .handleDisconnect ∈
      Function.update m.sys.todo t ((a.run m.sys.conn).todo ++ m.sys.todo t) tx →
      (Threads.foundFor m (.call t a) = m.foundFor ∧ .handleDisconnect ∈ m.sys.todo tx) ∨
        (Threads.foundFor m (.call t a) = m.queuedIn ∧
          m.sys.conn.flags.discAfterTx = true) := by
    intro hin
    by_cases hd : txDiscSent m.sys.conn = true ∧ ∃ mem, a = .getPacketToSend mem
    · obtain ⟨hd, mem, rfl⟩ := hd
      refine .inr ⟨by simp [Threads.foundFor, hd], ?_⟩
      simp only [txDiscSent, Bool.and_eq_true] at hd
      exact hd.2
    · refine .inl ⟨?_, (hleft tx hin).resolve_right fun hx => hd hx.2⟩
      cases a with
      | getPacketToSend mem =>
        simp only [Threads.foundFor]
        rw [if_neg fun hx => hd ⟨hx, mem, rfl⟩]
      | _ => rfl
  have hothers : ∀ t', t' ≠ tx → .handleDisconnect ∈
      Function.update m.sys.todo t ((a.run m.sys.conn).todo ++ m.sys.todo t) t' →
      .handleDisconnect ∈ m.sys.todo t' :=
    fun t' ht' hin => (hleft t' hin).resolve_right fun hx => ht' hx.1
  have hnone : ∀ e ∈ endedBy m (.call t a), e.2 ∈ e.1 := by simp [endedBy]
  cases call_turn hmt m.sys.conn a with
  | keep hno hup hdisc =>
    exact h.keep hno hup hdisc hqueued hothers hfound (fun _ hk => hk) hnone
  | up p pktSz tstamp ha hcomp hne hdisc =>
    subst ha
    have hdown : m.sys.conn.flags.discAfterTx = false := by
      by_contra hd
      exact hne (h.queued (by simpa using hd)).1
    simp only [noneBetween, hcomp, Bool.not_true, Bool.false_or, Bool.and_eq_true,
      List.isEmpty_iff, Bool.not_eq_true'] at hok
    have hpending : .handleDisconnect ∉ m.sys.todo tx := fun hin => by
      have := List.any_eq_false.mp hok.2 _ hin
      simp [endsSession] at this
    refine ⟨fun t' ht' hin => h.others t' ht' (hothers t' ht' hin), fun hd => ?_, fun hin => ?_, ?_, ?_⟩
    · have := hdisc hd
      rw [hdown] at this
      cases this
    · rcases hleft tx hin with hin | ⟨-, -, mem, ha⟩
      · exact absurd hin hpending
      · cases ha
    · simp [hok.1]
    · simpa [endedBy] using h.ended
  | queue ha hc hret hstate hno =>
    subst ha
    have hsent : (sendDisconnect m.sys.conn).ret = .ok := hret
    refine ⟨fun t' ht' hin => h.others t' ht' (hothers t' ht' hin), fun _ => ⟨hstate, ?_⟩,
      fun hin _ => ?_, fun k hk _ => (h.pipe k hk hc).trans hno.symm, ?_⟩
    · simp only [Threads.queuedIn, hsent, if_true]
      exact hno.symm
    · rcases hleft tx hin with hin | ⟨-, -, mem, ha⟩
      · exact (h.found hin hc).trans hno.symm
      · cases ha
    · simpa [endedBy] using h.ended

theorem mem_update {todo : T → List (Todo w β)} {t : T} {a x : Todo w β} {rest l : List (Todo w β)}
    (ht : todo t = a :: rest) (hl : x ∈ l → x ∈ rest) (t' : T)
    (hin : x ∈ Function.update todo t l t') : x ∈ todo t' := by
  by_cases heq : t' = t
  · subst heq
    rw [Function.update_self] at hin
    rw [ht]
    exact List.mem_cons_of_mem _ (hl hin)
  · rwa [Function.update_of_ne heq] at hin

theorem OwnEnd.pop {t : T} {c : Conn cfg β} {a : Todo w β} {rest l : List (Todo w β)}
    {pipe : List Nat} {more : List (List Nat × Nat)} (h : OwnEnd tx m)
    (ht : m.sys.todo t = a :: rest) (hl : .handleDisconnect ∈ l → .handleDisconnect ∈ rest)
    (hno : sessionNo c = sessionNo m.sys.conn)
    (hup : c.connState = .connected → m.sys.conn.connState = .connected)
    (hdisc : c.flags.discAfterTx = true → m.sys.conn.flags.discAfterTx = true ∧
      (m.sys.conn.connState = .connected → c.connState = .connected))
    (hpipe : ∀ k ∈ pipe, k ∈ m.rxPipe) (hmore : ∀ e ∈ more, e.2 ∈ e.1) :
    OwnEnd tx ⟨⟨c, Function.update m.sys.todo t l⟩, pipe, m.queuedIn, m.foundFor, m.ended ++ more⟩ :=
  h.keep hno hup hdisc (.inl rfl) (fun t' _ hin => mem_update ht hl t' hin)
    (fun hin => .inl ⟨rfl, mem_update ht hl tx hin⟩) hpipe hmore

omit [DecidableEq T] in
theorem confirmPass_noDisconnect (c : Conn cfg β) : .handleDisconnect ∉ (confirmPass c).2 := by
  simp only [confirmPass]
  split <;> simp

theorem handleDisconnect_turn (hmt : cfg.mt = true) (c : Conn cfg β) :
    sessionNo (handleDisconnect c).conn = sessionNo c ∧
      ((handleDisconnect c).conn.connState = .connected → c.connState = .connected) ∧
      ((handleDisconnect c).conn.flags.discAfterTx = true → c.flags.discAfterTx = true ∧
        (c.connState = .connected → (handleDisconnect c).conn.connState = .connected)) := by
  cases call_turn hmt c .handleDisconnect with
  | keep hno hup hdisc => exact ⟨hno, hup, hdisc⟩
  | up _ _ _ ha => cases ha
  | queue ha => cases ha

theorem OwnEnd.run (hmt : cfg.mt = true) {t : T} {c : Conn cfg β} {l : List (Todo w β)}
    (h : OwnEnd tx m) (hr : runNext m.sys.conn (m.sys.todo t) = some (c, l)) :
    OwnEnd tx
      { m with
        sys := ⟨c, Function.update m.sys.todo t l⟩
        ended := m.ended ++ endedBy m (.run t) } := by
  have hmem : .handleDisconnect ∈ m.sys.todo t → m.sys.conn.connState = .connected →
      m.foundFor = sessionNo m.sys.conn := by
    intro hin hc
    by_cases htx : t = tx
    · exact h.found (htx ▸ hin) hc
    · exact absurd hin (h.others t htx)
  have hsame : ∀ d : Conn cfg β, d.connState = m.sys.conn.connState →
      d.flags.discAfterTx = m.sys.conn.flags.discAfterTx →
      (d.connState = .connected → m.sys.conn.connState = .connected) ∧
      (d.flags.discAfterTx = true → m.sys.conn.flags.discAfterTx = true ∧
        (m.sys.conn.connState = .connected → d.connState = .connected)) := by
    intro d hstate hdisc
    exact ⟨fun hc => hstate ▸ hc, fun hd => ⟨hdisc ▸ hd, fun hc => hstate.trans hc⟩⟩
  cases ht : m.sys.todo t with
  | nil => simp [ht, runNext] at hr
  | cons a rest =>
    rw [ht] at hr
    have hnone : endsSession (a :: rest) = false → ∀ e ∈ endedBy m (.run t), e.2 ∈ e.1 := by
      intro hends
      simp [endedBy, ht, hends]
    cases a with
    | call cb =>
      cases hr
      obtain ⟨hup, hdisc⟩ := hsame (m.sys.conn.emit (.call cb)) rfl rfl
      exact h.pop ht (by simp) (by simp [sessionNo, isUp]) hup hdisc (fun _ hk => hk) (hnone rfl)
    | ret cb =>
      cases hr
      obtain ⟨hup, hdisc⟩ := hsame (m.sys.conn.emit (.ret cb)) rfl rfl
      exact h.pop ht id (by simp [sessionNo, isUp]) hup hdisc (fun _ hk => hk) (hnone rfl)
    | confirmUnlocked =>
      simp only [runNext] at hr
      split at hr
      all_goals
        cases hr
        obtain ⟨hup, hdisc⟩ := hsame m.sys.conn rfl rfl
        exact h.pop ht (by simp) rfl hup hdisc (fun _ hk => hk) (hnone rfl)
    | confirmPass =>
      cases hr
      have hp := confirmPass_slot m.sys.conn
      obtain ⟨hup, hdisc⟩ := hsame (confirmPass m.sys.conn).1 hp.connState hp.discAfterTx
      have hno : sessionNo (confirmPass m.sys.conn).1 = sessionNo m.sys.conn := by
        rcases hp.log with hlog | hlog
        · rw [sessionNo, hlog]
          rfl
        · rw [sessionNo_append hlog]
          rfl
      refine h.pop ht (fun hin => ?_) hno hup hdisc (fun _ hk => hk) (hnone rfl)
      exact (List.mem_append.mp hin).resolve_left (confirmPass_noDisconnect _)
    | handleDisconnect =>
      cases hr
      obtain ⟨hno, hup, hdisc⟩ := handleDisconnect_turn hmt m.sys.conn
      refine h.pop ht (fun hin => ?_) hno hup hdisc (fun _ hk => hk) ?_
      · refine (List.mem_append.mp hin).resolve_left fun hin => ?_
        obtain ⟨-, mem, ha⟩ := handleDisconnect_mem (a := .handleDisconnect) hin
        cases ha
      · simp only [endedBy, ht, endsSession, if_true]
        refine takenDown_own fun hc => ?_
        rw [hmem (by simp [ht]) hc]
        exact List.mem_singleton_self _

theorem OwnEnd.step (hmt : cfg.mt = true) {rx : T} {a : PortAct w β T} {m' : Port cfg β T}
    (h : OwnEnd tx m) (hok : noneBetween tx m a = true) (hs : portStep rx tx m a = some m') :
    OwnEnd tx m' := by
  cases a with
  | act a =>
    simp only [portStep, Option.map_eq_some_iff] at hs
    obtain ⟨s, hs, rfl⟩ := hs
    cases a with
    | call t a =>
      simp only [Threads.step] at hs
      split at hs
      next hmay =>
        cases hs
        exact h.call hmt hmay hok
      next => cases hs
    | run t =>
      obtain ⟨⟨c, l⟩, hr, rfl⟩ := Option.map_eq_some_iff.mp hs
      exact h.run hmt hr
  | wdTimer =>
    simp only [portStep] at hs
    split at hs
    · cases hs
      refine ⟨h.others, h.queued, h.found, fun k hk hc => ?_, h.ended⟩
      rcases List.mem_append.mp hk with hk | hk
      · exact h.pipe k hk hc
      · exact List.mem_singleton.mp hk
    · cases hs
  | serialRead uart =>
    simp only [portStep] at hs
    split at hs
    · cases hs
    next hidle =>
    have hidle : m.sys.todo rx = [] := by simpa using hidle
    split at hs
    · cases hs
      exact ⟨h.others, h.queued, h.found, by simp, h.ended⟩
    split at hs
    · cases hs
    next hpipe =>
      cases hs
      obtain ⟨hno, hup, hdisc⟩ := handleDisconnect_turn hmt m.sys.conn
      have hleft : ∀ t, .handleDisconnect ∈
          Function.update m.sys.todo rx (handleDisconnect m.sys.conn).todo t →
          .handleDisconnect ∈ m.sys.todo t := by
        intro t hin
        by_cases ht : t = rx
        · subst ht
          rw [Function.update_self] at hin
          obtain ⟨-, mem, ha⟩ := handleDisconnect_mem (a := .handleDisconnect) hin
          cases ha
        · rwa [Function.update_of_ne ht] at hin
      refine h.keep hno hup hdisc (.inl rfl) (fun t _ => hleft t) (fun hin => .inl ⟨rfl, hleft tx hin⟩)
        (by simp) (takenDown_own fun hc => ?_)
      obtain ⟨k, hk⟩ := List.exists_mem_of_ne_nil _ hpipe
      exact h.pipe k hk hc ▸ hk

end Own

/-- An application closes the session, and the transmitting thread finds the DISCONNECT sent. -/
def closing : List (Act (.ofWindow 0 zero_lt_idBits) Unit (Fin 3)) :=
  Act.handshake 0 1 ++ Act.through 2 .sendDisconnect 2 ++
    [.call 1 (.getPacketToSend fun _ => []), .call 1 (.getPacketToSend fun _ => [])]

end Ludlc.Threads
