import Ludlc.History
import Ludlc.Report
import Ludlc.Lib.Runs

/-! # Threads over one connection

The multi-threaded build: a receiving thread, a transmitting thread and any number of application
threads run the calls. A step is one locked section, or one callback starting or returning, so a
run is an interleaving of these. Callbacks may call the API themselves.
-/

namespace Ludlc.Threads

open SeqNum Runs

variable {w : Wire} {cfg : Cfg w} {β T : Type}

/-- The connection, and what each thread has still to do with the lock released. -/
structure Sys {w : Wire} (cfg : Cfg w) (β T : Type) where
  conn : Conn cfg β
  todo : T → List (Todo w β)

def Sys.init (cfg : Cfg w) (β T : Type) : Sys cfg β T := ⟨Conn.init cfg β, fun _ => []⟩

/-- A thread makes a call, or goes on with the one it is in. -/
inductive Act (w : Wire) (β T : Type)
  | call (t : T) (a : Call w β)
  | run (t : T)

/-- A thread is in a callback. -/
def inCallback : List (Todo w β) → Bool
  | .ret _ :: _ => true
  | _ => false

/-- Who may call what: one thread receives and one transmits, each a packet at a time, and any
thread makes the other calls, in a callback too. No packet is shorter than a PING. -/
def mayCall [DecidableEq T] (rx tx t : T) (todo : List (Todo w β)) : Call w β → Bool
  | .receive _ pktSz _ => t = rx && todo.isEmpty && w.pingSz ≤ pktSz
  | .getPacketToSend _ => t = tx && todo.isEmpty
  | _ => todo.isEmpty || inCallback todo

/-- The next step of a thread: the connection, and what it has to do then. -/
def runNext (c : Conn cfg β) : List (Todo w β) → Option (Conn cfg β × List (Todo w β))
  | [] => none
  | .call cb :: rest => some (c.emit (.call cb), .ret cb :: rest)
  | .ret cb :: rest => some (c.emit (.ret cb), rest)
  | .confirmUnlocked :: rest =>
    -- `ludlc_platform_test_and_set_bit` on `report_busy`.
    if c.reportBusy then some (c, rest)
    else some ({ c with reportBusy := true }, .confirmPass :: rest)
  | .confirmPass :: rest => some ((confirmPass c).1, (confirmPass c).2 ++ rest)
  | .handleDisconnect :: rest =>
    some ((handleDisconnect c).conn, (handleDisconnect c).todo ++ rest)

def step [DecidableEq T] (rx tx : T) (s : Sys cfg β T) : Act w β T → Option (Sys cfg β T)
  | .call t a =>
    if mayCall rx tx t (s.todo t) a then
      some ⟨(a.run s.conn).conn, Function.update s.todo t ((a.run s.conn).todo ++ s.todo t)⟩
    else none
  | .run t =>
    (runNext s.conn (s.todo t)).map fun r => ⟨r.1, Function.update s.todo t r.2⟩

/-- A call of one thread, which then goes on for `n` steps. -/
def Act.through (t : T) (a : Call w β) (n : Nat) : List (Act w β T) :=
  .call t a :: .replicate n (.run t)

/-- The peer's steps as the receiving thread takes them, from DISCONNECTED to CONNECTED. `n` is 1 if
the thread finds no reporter, and makes the one pass itself. -/
def Act.handshake (t : T) (n : Nat) : List (Act w β T) :=
  through t (.receive (.hshake w 0) w.hdrSz 0) (1 + n) ++
    through t (.receive (.hshake w 1) w.hdrSz 0) (3 + n) ++
    through t (.receive (.hshake w 2) w.hdrSz 0) (3 + n)

/-- The packet completes a handshake. -/
def completes (c : Conn cfg β) (p : Packet w) (pktSz : Nat) : Bool :=
  !rxDropped p pktSz && c.connState = .waitConn2 &&
    (!isHshake p || p.hdr.txId.id.toNat = ConnState.waitConn2.val ||
      p.hdr.txId.id.toNat = ConnState.connected.val)

/-- No packet completes a handshake while the sequence is still to be reset. -/
def freshStart (s : Sys cfg β T) : Act w β T → Bool
  | .call _ (.receive p pktSz _) => !(completes s.conn p pktSz && s.conn.flags.busOut)
  | _ => true

/-- The numbered packets a thread is going to give back. -/
def handItems (todo : List (Todo w β)) : List (PacketQueueItem w β) :=
  todo.filterMap fun
    | .call cb => cb.gives
    | _ => none

@[simp] theorem handItems_nil : handItems ([] : List (Todo w β)) = [] := rfl

@[simp] theorem handItems_append (l l' : List (Todo w β)) :
    handItems (l ++ l') = handItems l ++ handItems l' := List.filterMap_append

/-- What a locked section does to the numbered packets: it takes in `new`, decides `done` and
leaves them to be reported, and decides `exp`, which it reports itself. -/
structure Effect (c : Conn cfg β) (o : Out cfg β) (q q' : SendQueue (PacketQueueItem w β))
    (new : List (Key w β)) (done exp : List (PacketQueueItem w β)) : Prop where
  refines : Refines o.conn q'
  fresh : o.conn.connState = .connected → o.conn.flags.busOut = false
  keys : q.win.map (·.key) ++ new = (done ++ exp).map (·.key) ++ q'.win.map (·.key)
  pend : q'.pend = q.pend ++ done
  accepted : acceptedKeys o.conn.log = acceptedKeys c.log ++ new
  resolved : resolvedItems o.conn.log = resolvedItems c.log ++ (done ++ exp)
  confirmed : confirmedItems o.conn.log = confirmedItems c.log
  returned : returnedItems o.conn.log = returnedItems c.log
  grows : c.log.length + new.length ≤ o.conn.log.length
  tags : new.length ≤ 1 ∧ ∀ k ∈ new, k.tag = c.log.length
  hand : handItems o.todo = exp
  busy : o.conn.reportBusy = c.reportBusy
  report : done ≠ [] → .confirmUnlocked ∈ o.todo
  noPass : .confirmPass ∉ o.todo

variable {c : Conn cfg β} {q : SendQueue (PacketQueueItem w β)}

theorem Effect.still (evs : List (Ev w β)) {o : Out cfg β} (h : Refines c q)
    (hfresh : o.conn.connState = .connected → o.conn.flags.busOut = false)
    (hack : o.conn.lastAck = c.lastAck) (hqueued : o.conn.lastQueued = c.lastQueued)
    (hrep : o.conn.lastReported = c.lastReported) (hslots : o.conn.packetsQ = c.packetsQ)
    (hsent : o.conn.lastSent = c.lastSent) (hbusy : o.conn.flags.busOut = c.flags.busOut)
    (hreport : o.conn.reportBusy = c.reportBusy) (hlog : o.conn.log = c.log ++ evs)
    (hevs : Quiet evs) (hhand : handItems o.todo = []) (hpass : .confirmPass ∉ o.todo) :
    Effect c o q q [] [] [] where
  refines := by
    refine ⟨h.toHolding.congr hack hqueued hrep hslots, fun hb => ?_, fun hb => ?_⟩
    · have := h.sent (hbusy ▸ hb)
      exact ⟨hsent ▸ this.1, this.2⟩
    · exact h.closed (hbusy ▸ hb)
  fresh := hfresh
  keys := by simp
  pend := by simp
  accepted := by simp [hlog, hevs.accepted]
  resolved := by simp [hlog, hevs.resolved]
  confirmed := by simp [hlog, hevs.confirmed]
  returned := by simp [hlog, hevs.returned]
  grows := by simp [hlog]
  tags := by simp
  hand := hhand
  busy := hreport
  report := by simp
  noPass := hpass

theorem resolveLog_mt (hmt : cfg.mt = true) (e : Errno) (items : List (PacketQueueItem w β)) :
    (items.flatMap fun it => resolveLog cfg (it.resolve e)) =
      (items.map (·.resolve e)).map .resolved := by
  induction items with
  | nil => rfl
  | cons it items ih =>
    rw [List.flatMap_cons, ih]
    simp [resolveLog, hmt]

/-- A section leaves an open link with nothing pending, or finds the link open and fails no packet. -/
def KeepsOpen (c : Conn cfg β) (o : Out cfg β) (q' : SendQueue (PacketQueueItem w β))
    (done : List (PacketQueueItem w β)) : Prop :=
  o.conn.flags.busOut = false →
    q'.pend = [] ∨ c.flags.busOut = false ∧ ∀ it ∈ done, it.result ≠ .epipe

theorem KeepsOpen.still {o : Out cfg β} (q' : SendQueue (PacketQueueItem w β))
    (h : o.conn.flags.busOut = c.flags.busOut) : KeepsOpen c o q' [] :=
  fun hb => .inr ⟨h ▸ hb, by simp⟩

theorem Effect.down (hmt : cfg.mt = true) (h : Refines c q) {todo : List (Todo w β)}
    (hhand : handItems todo = []) (hreport : .confirmUnlocked ∈ todo)
    (hpass : .confirmPass ∉ todo) {o : Out cfg β} (hconn : o.conn = onDisconnectLock c)
    (htodo : o.todo = todo) :
    ∃ q' done, Effect c o q q' [] done [] ∧ (∀ it ∈ done, it.result = .epipe) ∧
      KeepsOpen c o q' done := by
  obtain ⟨hq, hlog⟩ := onDisconnectLock_spec h.toHolding
  obtain ⟨hsweep, -⟩ := sweep_spec h.toHolding
  rw [resolveLog_mt hmt] at hlog
  obtain ⟨hacc, hres, hconf, hret, -⟩ := resolved_only (q.win.map (·.resolve .epipe))
  have hdown := quiet_down c
  have hreset : Quiet (if undrained (sweep c) then [] else [(.seqReset : Ev w β)]) := by
    split
    · exact quiet_nil
    · exact quiet_seqReset
  refine ⟨if undrained (sweep c) then q.failed cfg.mt else .empty,
    q.win.map (·.resolve .epipe), ?_, ?_, ?_⟩
  rotate_left
  · intro it hit
    obtain ⟨it', -, rfl⟩ := List.mem_map.mp hit
    rfl
  · intro hb
    rw [hconn, onDisconnectLock_eq] at hb
    left
    rw [if_neg (Bool.eq_false_iff.mp hb)]
    rfl
  rw [← hconn] at hq hlog
  refine ⟨hq, ?_, ?_, ?_, ?_, ?_, ?_, ?_, ?_, by simp, htodo ▸ hhand, ?_, fun _ => htodo ▸ hreport,
    htodo ▸ hpass⟩
  · intro hc
    rw [hconn, onDisconnectLock_connState] at hc
    cases hc
  · have : (if undrained (sweep c) then q.failed cfg.mt else .empty).win = [] := by
      split
      · simp [SendQueue.failed]
      · rfl
    rw [this]
    simp [Function.comp_def]
  · cases hu : undrained (sweep c) with
    | true => simp [SendQueue.failed, SendQueue.advance, hmt]
    | false =>
      have hpend : (q.failed cfg.mt).pend = [] := by
        by_contra hne
        have := (undrained_iff hsweep.toHolding hmt).mpr (.inl hne)
        rw [hu] at this
        cases this
      simpa [SendQueue.failed, SendQueue.advance, hmt, SendQueue.empty] using hpend.symm
  · rw [hlog]
    simp only [acceptedKeys_append, acceptedKeys_swept, hacc, hdown.accepted, hreset.accepted,
      List.append_nil]
  · rw [hlog]
    simp only [resolvedItems_append, resolvedItems_swept, hres, hdown.resolved, hreset.resolved,
      List.append_nil]
  · rw [hlog]
    simp only [confirmedItems_append, confirmedItems_swept, hconf, hdown.confirmed, hreset.confirmed,
      List.append_nil]
  · rw [hlog]
    simp only [returnedItems_append, returnedItems_swept, hret, hdown.returned, hreset.returned,
      List.append_nil]
  · rw [hlog]
    simp only [List.length_append]
    simp
    omega
  · rw [hconn, onDisconnectLock_eq, sweep_eq, linkDown_eq]

@[simp] theorem handItems_callIf (b : Bool) {cb : Callback w β} (h : cb.gives = none) :
    handItems (callIf b cb) = [] := by
  cases b <;> simp [callIf, handItems, h]

theorem handItems_receive (r : RxOut cfg β) (p : Packet w) (pktSz tstamp : Nat) :
    handItems (receiveTodo r p pktSz tstamp) = r.expired.toList := by
  have hexp : handItems (r.expired.toList.map fun it => Todo.call (.onConfirm .expired it)) =
      r.expired.toList := by
    cases r.expired <;> simp [handItems, Callback.gives]
  simp only [receiveTodo, handItems_append]
  rw [handItems_callIf _ rfl, handItems_callIf _ rfl, handItems_callIf _ rfl,
    handItems_callIf _ rfl, List.append_nil, List.append_nil, List.nil_append]
  exact hexp

theorem confirmUnlocked_mem_receive (r : RxOut cfg β) (p : Packet w) (pktSz tstamp : Nat) :
    Todo.confirmUnlocked ∈ receiveTodo r p pktSz tstamp := by
  simp [receiveTodo]

theorem confirmPass_notMem_receive (r : RxOut cfg β) (p : Packet w) (pktSz tstamp : Nat) :
    Todo.confirmPass ∉ receiveTodo r p pktSz tstamp := by
  simp only [receiveTodo, callIf]
  cases r.expired <;> simp

theorem completes_of_up {p : Packet w} {pktSz : Nat} (hne : c.connState ≠ .connected)
    (hdrop : rxDropped p pktSz = false) (hup : (rxUp c p).connState = .connected) :
    completes c p pktSz = true := by
  have hst : (rxHandleHandshake c p (isHshake p)).1.connState = .connected := by
    simp only [rxUp, hne, if_false] at hup
    split at hup <;> exact hup
  simp only [completes, hdrop, Bool.not_false, Bool.true_and, Bool.and_eq_true, Bool.or_eq_true,
    decide_eq_true_eq, Bool.not_eq_true']
  unfold rxHandleHandshake at hst
  cases hs : isHshake p with
  | false =>
    rw [hs] at hst
    by_cases h2 : c.connState = .waitConn2
    · exact ⟨h2, .inl (.inl rfl)⟩
    · simp [h2] at hst
  | true =>
    rw [hs] at hst
    simp only [Bool.not_true, Bool.false_eq_true, if_false] at hst
    split at hst
    next hid =>
      have h2 : c.connState = .waitConn2 := by
        revert hst
        cases hc : c.connState <;> simp_all [ConnState.next]
      rw [h2] at hid
      exact ⟨h2, hid.elim (fun h => .inl (.inr h)) .inr⟩
    · split at hst
      · cases hst
      · exact absurd hst hne

theorem rxUp_fresh {p : Packet w} {pktSz : Nat}
    (hc : c.connState = .connected → c.flags.busOut = false)
    (hfresh : (completes c p pktSz && c.flags.busOut) = false) (hdrop : rxDropped p pktSz = false)
    (hup : (rxUp c p).connState = .connected) : c.flags.busOut = false := by
  by_cases hconn : c.connState = .connected
  · exact hc hconn
  · simpa [completes_of_up hconn hdrop hup] using hfresh

/-- The ACK field of a frame: the packets it acknowledges are left to be reported. -/
theorem Effect.ack (hmt : cfg.mt = true) (h : Refines c q) (hopen : c.flags.busOut = false)
    (a : WireId w.idBits) :
    ∃ q' done, Effect c
      { conn := (rxHandleAck c a).1
        todo := .confirmUnlocked :: (rxHandleAck c a).2.1.toList.map fun it =>
          .call (.onConfirm .expired it) } q q' [] done (rxHandleAck c a).2.1.toList ∧
      ∀ it ∈ done, it.result = .ok := by
  have hrest := rxHandleAck_rest c a
  have hhand : handItems (.confirmUnlocked :: (rxHandleAck c a).2.1.toList.map fun it =>
      Todo.call (.onConfirm .expired it)) = (rxHandleAck c a).2.1.toList := by
    cases (rxHandleAck c a).2.1 <;> simp [handItems, Callback.gives]
  have hpass : Todo.confirmPass ∉ .confirmUnlocked :: (rxHandleAck c a).2.1.toList.map fun it =>
      Todo.call (.onConfirm .expired it) := by
    cases (rxHandleAck c a).2.1 <;> simp
  have hconn : (rxHandleAck c a).1.flags.busOut = false := hrest.busOut.trans hopen
  by_cases hfar : q.win.length < (a.id - c.lastAck).toNat
  · rw [rxHandleAck_far h.toHolding hfar] at hhand hpass ⊢
    exact ⟨q, [], Effect.still [] h (fun _ => hopen) rfl rfl rfl rfl rfl rfl rfl (by simp)
      quiet_nil hhand hpass, by simp⟩
  · obtain ⟨hq, he, hlog⟩ := rxHandleAck_spec h hopen (a := a) (by omega)
    generalize (a.id - c.lastAck).toNat = n at hq he hlog hfar
    rw [resolveLog_mt hmt] at hlog
    obtain ⟨hacc, hres, hconf, hret, -⟩ := resolved_only ((q.win.take n).map (·.resolve .ok))
    obtain ⟨hacc', hres', hconf', hret', -⟩ := resolved_only (rxHandleAck c a).2.1.toList
    have hkeys := SendQueue.ackNak_keys cfg.mt n (nakOf c a) q
    refine ⟨_, (q.win.take n).map (·.resolve .ok), ⟨hq, fun _ => hconn, ?_, ?_, ?_, ?_, ?_, ?_, ?_,
      by simp, hhand, hrest.reportBusy, fun _ => by simp, hpass⟩, ?_⟩
    rotate_right
    · intro it hit
      obtain ⟨it', -, rfl⟩ := List.mem_map.mp hit
      rfl
    · rw [← he, List.map_append] at hkeys
      rw [List.append_nil, List.map_append, List.append_assoc, ← hkeys, List.map_map]
      conv_lhs => rw [← List.take_append_drop n q.win, List.map_append]
      rfl
    · rw [SendQueue.ackNak_pend]
      simp [SendQueue.advance, hmt]
    · simp only [hlog, acceptedKeys_append, hacc, hacc', List.append_nil]
    · simp only [hlog, resolvedItems_append, hres, hres', List.append_assoc]
    · simp only [hlog, confirmedItems_append, hconf, hconf', List.append_nil]
    · simp only [hlog, returnedItems_append, hret, hret', List.append_nil]
    · rw [hlog]
      simp only [List.length_append, List.length_nil]
      omega

theorem Effect.after {d : Conn cfg β} {o : Out cfg β} {q' : SendQueue (PacketQueueItem w β)}
    {done exp : List (PacketQueueItem w β)} {evs : List (Ev w β)}
    (hlog : d.log = c.log ++ evs) (hevs : Quiet evs) (hbusy : d.reportBusy = c.reportBusy)
    (h : Effect d o q q' [] done exp) : Effect c o q q' [] done exp :=
  { h with
    accepted := by rw [h.accepted, hlog]; simp [hevs.accepted]
    resolved := by rw [h.resolved, hlog]; simp [hevs.resolved]
    confirmed := by rw [h.confirmed, hlog]; simp [hevs.confirmed]
    returned := by rw [h.returned, hlog]; simp [hevs.returned]
    grows := by
      have := h.grows
      rw [hlog, List.length_append] at this
      omega
    tags := by simp
    busy := h.busy.trans hbusy }

/-- What comes after a section, with other things for the thread to do. -/
theorem Effect.before {o o' : Out cfg β} {q' : SendQueue (PacketQueueItem w β)}
    {done exp : List (PacketQueueItem w β)} (h : Effect c o q q' [] done exp)
    (hack : o'.conn.lastAck = o.conn.lastAck) (hqueued : o'.conn.lastQueued = o.conn.lastQueued)
    (hrep : o'.conn.lastReported = o.conn.lastReported)
    (hslots : o'.conn.packetsQ = o.conn.packetsQ) (hsent : o'.conn.lastSent = o.conn.lastSent)
    (hbusy : o'.conn.flags.busOut = o.conn.flags.busOut)
    (hstate : o'.conn.connState = o.conn.connState)
    (hreport : o'.conn.reportBusy = o.conn.reportBusy) (hlog : o'.conn.log = o.conn.log)
    (hhand : handItems o'.todo = exp) (hunlocked : .confirmUnlocked ∈ o'.todo)
    (hpass : .confirmPass ∉ o'.todo) : Effect c o' q q' [] done exp where
  refines := by
    refine ⟨h.refines.toHolding.congr hack hqueued hrep hslots, fun hb => ?_, fun hb => ?_⟩
    · have := h.refines.sent (hbusy ▸ hb)
      exact ⟨hsent ▸ this.1, this.2⟩
    · exact h.refines.closed (hbusy ▸ hb)
  fresh hc := hbusy ▸ h.fresh (hstate ▸ hc)
  keys := h.keys
  pend := h.pend
  accepted := hlog ▸ h.accepted
  resolved := hlog ▸ h.resolved
  confirmed := hlog ▸ h.confirmed
  returned := hlog ▸ h.returned
  grows := hlog ▸ h.grows
  tags := h.tags
  hand := hhand
  busy := hreport.trans h.busy
  report _ := hunlocked
  noPass := hpass

theorem receive_effect (hmt : cfg.mt = true) (h : Refines c q)
    (hc : c.connState = .connected → c.flags.busOut = false) (p : Packet w) (pktSz tstamp : Nat)
    (hfresh : (completes c p pktSz && c.flags.busOut) = false) :
    ∃ q' done exp, Effect c (receive c p pktSz tstamp) q q' [] done exp ∧ exp.length ≤ 1 ∧
      (exp ≠ [] → (receive c p pktSz tstamp).conn.flags.busOut = false) ∧
      KeepsOpen c (receive c p pktSz tstamp) q' done := by
  have hstep := rxHandlePacket_step c p pktSz
  have hhand := handItems_receive (rxHandlePacket c p pktSz) p pktSz tstamp
  have hmem := confirmUnlocked_mem_receive (rxHandlePacket c p pktSz) p pktSz tstamp
  have hpass := confirmPass_notMem_receive (rxHandlePacket c p pktSz) p pktSz tstamp
  simp only [receive]
  generalize rxHandlePacket c p pktSz = r at hstep hhand hmem hpass ⊢
  have hq : Refines (rxUp c p) q :=
    ⟨h.toHolding.congr (by simp) (by simp) (by simp) (by simp), by simpa [SentAt] using h.sent,
      by simpa using h.closed⟩
  cases hstep with
  | dropped =>
    exact ⟨q, [], [], Effect.still [] h hc rfl rfl rfl rfl rfl rfl rfl (by simp) quiet_nil hhand
      hpass, Nat.zero_le _, by simp, .still q rfl⟩
  | handshake ret hdrop =>
    refine ⟨q, [], [], Effect.still (upLog c p) h (fun hconn => ?_) (by simp) (by simp) (by simp)
      (by simp) (by simp) (by simp) (by simp) (by simp) (quiet_up c p) hhand hpass, Nat.zero_le _,
      by simp, .still q (by simp)⟩
    rw [rxUp_flags]
    exact rxUp_fresh hc hfresh hdrop hconn
  | lastStep =>
    exact ⟨q, [], [], Effect.still [] h hc rfl rfl rfl rfl rfl rfl rfl (by simp) quiet_nil hhand
      hpass, Nat.zero_le _, by simp, .still q rfl⟩
  | down ret hdrop hst =>
    obtain ⟨q', done, he, -, hopen⟩ := Effect.down hmt hq hhand hmem hpass
      (o := { conn := onDisconnectLock (rxUp c p)
              todo := _
              requestTx := ret.requestTx }) rfl rfl
    refine ⟨q', done, [], he.after (rxUp_log c p) (quiet_up c p) (rxUp_reportBusy c p),
      Nat.zero_le _, by simp, fun hb => ?_⟩
    rw [← rxUp_flags c p]
    exact hopen hb
  | data ret a s hdrop hst hshake ha hs =>
    have hopen := rxUp_fresh hc hfresh hdrop hst
    have hw : Refines (watchdogRestart (rxUp c p)) q := hq.congr rfl rfl rfl rfl rfl rfl
    obtain ⟨q', done, he, hok⟩ :=
      Effect.ack hmt hw (by simpa [watchdogRestart] using hopen) p.hdr.ackId
    have hbusy : s.1.flags.busOut = false := by
      have hrest := rxHandleAck_rest (watchdogRestart (rxUp c p)) p.hdr.ackId
      rw [hs, rxSequence_busOut, ha, hrest.busOut]
      simpa [watchdogRestart] using hopen
    have he := Effect.after (d := watchdogRestart (rxUp c p)) (c := c) (rxUp_log c p)
      (quiet_up c p) (rxUp_reportBusy c p) he
    rw [← ha] at he
    refine ⟨q', done, a.2.1.toList, he.before ?_ ?_ ?_ ?_ ?_ ?_ ?_ ?_ ?_ hhand hmem hpass,
      Option.length_toList_le, fun _ => hbusy, fun _ => .inr ⟨hopen, fun it hit => ?_⟩⟩
    rotate_right
    · simp [hok it hit]
    all_goals simp [hs]

theorem handleDisconnect_effect (hmt : cfg.mt = true) (h : Refines c q)
    (hc : c.connState = .connected → c.flags.busOut = false) :
    ∃ q' done, Effect c (handleDisconnect c) q q' [] done [] ∧
      (∀ it ∈ done, it.result = .epipe) ∧ KeepsOpen c (handleDisconnect c) q' done := by
  unfold handleDisconnect disconnectCore
  split
  · exact Effect.down hmt h rfl (by simp) (by simp) rfl rfl
  · exact ⟨q, [], Effect.still [] h hc rfl rfl rfl rfl rfl rfl rfl (by simp) quiet_nil rfl
      (by simp), by simp, .still q rfl⟩

theorem getPacketToSend_effect (h : Refines c q)
    (hc : c.connState = .connected → c.flags.busOut = false) (mem : β → List UInt8) :
    ∃ q', Effect c (getPacketToSend mem c) q q' [] [] [] := by
  obtain ⟨hq, -⟩ := getPacketToSend_refines mem h hc
  cases hd : txDiscSent c with
  | true =>
    rw [getPacketToSend_disc mem hd]
    exact ⟨q, Effect.still [] h hc rfl rfl rfl rfl rfl rfl rfl (by simp) quiet_nil rfl (by simp)⟩
  | false =>
    obtain ⟨hs, hlog⟩ := getPacketToSend_step mem hd
    have hcopy : Quiet (copyLog (txItem (txDone c !c.flags.uDone))) := quiet_copy _
    have htodo : (getPacketToSend mem c).todo =
        callIf (!c.flags.uDone) (.onConfirm .unnumbered (txDone c !c.flags.uDone).uPacket) := by
      simp [getPacketToSend, hd, callIf]
    refine ⟨_, hq, fun hconn => ?_, by simp, by simp, ?_, ?_, ?_, ?_, ?_, by simp, ?_,
      hs.reportBusy, by simp, ?_⟩
    · rw [hs.busOut]
      exact hc (hs.connState ▸ hconn)
    · simp [hlog, hcopy.accepted]
    · simp [hlog, hcopy.resolved]
    · simp [hlog, hcopy.confirmed]
    · simp [hlog, hcopy.returned]
    · simp [hlog]
    · rw [htodo, handItems_callIf _ rfl]
    · rw [htodo, callIf]
      split <;> simp

/-- A call that receives nothing decides packets only by sweeping the window. -/
theorem local_effect (hmt : cfg.mt = true) (h : Refines c q)
    (hc : c.connState = .connected → c.flags.busOut = false) {a : Call w β}
    (hr : ∀ p pktSz tstamp, a ≠ .receive p pktSz tstamp) :
    ∃ q' new done, Effect c (a.run c) q q' new done [] ∧ (∀ it ∈ done, it.result = .epipe) ∧
      KeepsOpen c (a.run c) q' done := by
  cases a with
  | enqueueData dstChan buf size ttl =>
    obtain ⟨htodo, hd⟩ := enqueueData_cases c c.log.length dstChan (.ofPtr buf) size ttl
    simp only [Call.run]
    generalize enqueueData c c.log.length dstChan (.ofPtr buf) size ttl = o at htodo hd ⊢
    rcases hd with hd | ⟨hopen, hroom, -, -, hd⟩
    · refine ⟨q, [], [], Effect.still [] h (hd ▸ hc) ?_ ?_ ?_ ?_ ?_ ?_ ?_ ?_ quiet_nil
        (by rw [htodo]; rfl) (by simp [htodo]), by simp, .still q (by rw [hd])⟩
      all_goals simp [hd]
    · refine ⟨_, [(c.queuedItem c.log.length dstChan (.ofPtr buf) size ttl).key], [],
        ⟨hd ▸ push_spec h hopen hroom (normTtl_bounds ttl), ?_, ?_, ?_, ?_, ?_, ?_, ?_, ?_, ?_, ?_,
        ?_, ?_, ?_⟩, by simp, .still _ (by rw [hd]; rfl)⟩
      all_goals simp [hd, htodo, Conn.push, SendQueue.push, hopen, acceptedKeys, resolvedItems,
        confirmedItems, returnedItems, PacketQueueItem.key, Conn.queuedItem]
  | sendUrgentData dstChan buf size =>
    obtain ⟨htodo, hd⟩ := sendUrgentData_cases c c.log.length dstChan (.ofPtr buf) size
    simp only [Call.run]
    generalize sendUrgentData c c.log.length dstChan (.ofPtr buf) size = o at htodo hd ⊢
    rcases hd with hd | ⟨-, -, -, -, hd⟩
    · refine ⟨q, [], [], Effect.still [] h (hd ▸ hc) ?_ ?_ ?_ ?_ ?_ ?_ ?_ ?_ quiet_nil
        (by rw [htodo]; rfl) (by simp [htodo]), by simp, .still q (by rw [hd])⟩
      all_goals simp [hd]
    · refine ⟨q, [], [], Effect.still [_] h (hd ▸ hc) ?_ ?_ ?_ ?_ ?_ ?_ ?_
        (congrArg Conn.log hd) (quiet_cons rfl quiet_nil) (by rw [htodo]; rfl) (by simp [htodo]),
        by simp, .still q (by rw [hd]; rfl)⟩
      all_goals simp [hd, Conn.hold]
  | sendDisconnect =>
    simp only [Call.run, Ludlc.sendDisconnect, confirmULock, hmt, if_true]
    repeat' split
    all_goals
      exact ⟨q, [], [], Effect.still [] h hc rfl rfl rfl rfl rfl rfl rfl (by simp) quiet_nil rfl
        (by simp), by simp, .still q rfl⟩
  | connect =>
    simp only [Call.run, Ludlc.connect]
    split
    · exact ⟨q, [], [], Effect.still [] h hc rfl rfl rfl rfl rfl rfl rfl (by simp) quiet_nil
        rfl (by simp), by simp, .still q rfl⟩
    split
    · exact ⟨q, [], [], Effect.still [] h hc rfl rfl rfl rfl rfl rfl rfl (by simp) quiet_nil
        rfl (by simp), by simp, .still q rfl⟩
    · obtain ⟨q', done, he, hdone⟩ := Effect.down hmt h
        (show handItems [(.confirmUnlocked : Todo w β)] = [] from rfl) (by simp)
        (by simp) (o := { conn := onDisconnectLock c
                          todo := [.confirmUnlocked]
                          requestTx := true }) rfl rfl
      exact ⟨q', [], done, he, hdone⟩
  | handleDisconnect =>
    obtain ⟨q', done, he, hdone⟩ := handleDisconnect_effect hmt h hc
    exact ⟨q', [], done, he, hdone⟩
  | getPacketToSend mem =>
    obtain ⟨q', he⟩ := getPacketToSend_effect h hc mem
    refine ⟨q', [], [], he, by simp, .still q' ?_⟩
    change (getPacketToSend mem c).conn.flags.busOut = c.flags.busOut
    cases hd : txDiscSent c with
    | true => rw [getPacketToSend_disc mem hd]
    | false => exact (getPacketToSend_step mem hd).1.busOut
  | receive p pktSz tstamp => exact absurd rfl (hr p pktSz tstamp)

theorem call_effect (hmt : cfg.mt = true) (h : Refines c q)
    (hc : c.connState = .connected → c.flags.busOut = false) (a : Call w β)
    (hfresh : ∀ p pktSz tstamp, a = .receive p pktSz tstamp →
      (completes c p pktSz && c.flags.busOut) = false) :
    ∃ q' new done exp, Effect c (a.run c) q q' new done exp := by
  by_cases hr : ∃ p pktSz tstamp, a = .receive p pktSz tstamp
  · obtain ⟨p, pktSz, tstamp, rfl⟩ := hr
    obtain ⟨q', done, exp, he, -⟩ :=
      receive_effect hmt h hc p pktSz tstamp (hfresh p pktSz tstamp rfl)
    exact ⟨q', [], done, exp, he⟩
  · obtain ⟨q', new, done, he, -⟩ :=
      local_effect hmt h hc fun p pktSz tstamp heq => hr ⟨p, pktSz, tstamp, heq⟩
    exact ⟨q', new, done, [], he⟩

end Ludlc.Threads
