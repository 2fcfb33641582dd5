import Ludlc.Reporting

/-! # What a locked section does beside the numbered packets

The state of the link, the unnumbered slot, the saved confirmation and the frame last prepared: the
ways in which a call of the multi-threaded build can change them, and the events it leaves.
-/

namespace Ludlc.Threads

open SeqNum

variable {w : Wire} {cfg : Cfg w} {β T : Type}

/-- The unnumbered packets a thread is going to give back. -/
def handUnnumbered (todo : List (Todo w β)) : List (PacketQueueItem w β) :=
  todo.filterMap fun
    | .call cb => cb.givesUnnumbered
    | _ => none

@[simp] theorem handUnnumbered_nil : handUnnumbered ([] : List (Todo w β)) = [] := rfl

@[simp] theorem handUnnumbered_append (l l' : List (Todo w β)) :
    handUnnumbered (l ++ l') = handUnnumbered l ++ handUnnumbered l' := List.filterMap_append

/-- An event about a numbered packet, other than a callback or a copy. -/
def Ev.decides : Ev w β → Bool
  | .accepted kind _ => kind = .numbered
  | .resolved _ => true
  | _ => false

def Decides (evs : List (Ev w β)) : Prop := ∀ e ∈ evs, Ev.decides e = true

section Decides

variable {evs : List (Ev w β)}

theorem decides_nil : Decides ([] : List (Ev w β)) := by simp [Decides]

theorem decides_resolved (items : List (PacketQueueItem w β)) :
    Decides (items.map .resolved) := by
  intro e he
  obtain ⟨it, -, rfl⟩ := List.mem_map.mp he
  rfl

theorem Decides.append {evs' : List (Ev w β)} (h : Decides evs) (h' : Decides evs') :
    Decides (evs ++ evs') := fun e he => (List.mem_append.mp he).elim (h e) (h' e)

theorem Decides.accepted (h : Decides evs) : acceptedUnnumbered evs = [] := by
  rw [acceptedUnnumbered, List.filterMap_eq_nil_iff]
  intro e he
  have := h e he
  cases e with
  | accepted kind it => cases kind <;> simp [Ev.decides] at this ⊢
  | _ => rfl

theorem Decides.confirmed (h : Decides evs) : confirmedUnnumbered evs = [] := by
  rw [confirmedUnnumbered, List.filterMap_eq_nil_iff]
  intro e he
  have := h e he
  cases e with
  | call cb => simp [Ev.decides] at this
  | _ => rfl

end Decides

/-- The unnumbered slot, the saved confirmation, the frame last prepared and the reporter's flag are
the same. -/
structure SameSlot (c d : Conn cfg β) : Prop where
  uIdle : d.flags.uIdle = c.flags.uIdle
  uDone : d.flags.uDone = c.flags.uDone
  discAfterTx : d.flags.discAfterTx = c.flags.discAfterTx
  uConfirmF : d.flags.uConfirm = c.flags.uConfirm
  uPacket : d.uPacket = c.uPacket
  uConfirm : d.uConfirm = c.uConfirm
  txHdr : d.txHdr = c.txHdr
  txPayload : d.txPayload = c.txPayload
  reportBusy : d.reportBusy = c.reportBusy

theorem SameSlot.refl (c : Conn cfg β) : SameSlot c c := by
  constructor <;> rfl

theorem SameSlot.trans {c d e : Conn cfg β} (h : SameSlot c d) (h' : SameSlot d e) :
    SameSlot c e :=
  ⟨h'.1.trans h.1, h'.2.trans h.2, h'.3.trans h.3, h'.4.trans h.4, h'.5.trans h.5,
    h'.6.trans h.6, h'.7.trans h.7, h'.8.trans h.8, h'.9.trans h.9⟩

theorem sameSlot_of_rest {c d : Conn cfg β} (h : SameRest c d) : SameSlot c d :=
  ⟨h.uIdle, h.uDone, h.discAfterTx, h.uConfirmF, h.uPacket, h.uConfirm, h.txHdr, h.txPayload,
    h.reportBusy⟩

theorem sameSlot_rxUp (c : Conn cfg β) (p : Packet w) : SameSlot c (rxUp c p) := by
  rw [rxUp_eq]
  constructor <;> rfl

theorem sameSlot_rxSequence (c : Conn cfg β) (p : Packet w) (u : Bool) :
    SameSlot c (rxSequence c p u).1 := by
  rw [rxSequence_eq]
  constructor <;> rfl

section Logs

variable (hmt : cfg.mt = true)

include hmt

theorem ackPackets_log (n : Nat) (c : Conn cfg β) :
    ∃ items : List (PacketQueueItem w β), (ackPackets n c).log = c.log ++ items.map .resolved := by
  induction n generalizing c with
  | zero => exact ⟨[], by simp [ackPackets]⟩
  | succ n ih =>
    obtain ⟨items, hlog⟩ := ih (ackPacket c)
    have hone : ∃ it, (ackPacket c).log = c.log ++ [.resolved it] := by
      rw [ackPacket, confirmQueuedLock_eq]
      dsimp only
      split
      all_goals exact ⟨_, by simp only [resolveLog, hmt, if_true]; rfl⟩
    obtain ⟨it, hone⟩ := hone
    exact ⟨it :: items, by rw [ackPackets, hlog, hone]; simp⟩

omit hmt in
theorem rxHandleNak_log (c : Conn cfg β) :
    ∃ items : List (PacketQueueItem w β), (rxHandleNak c).1.log = c.log ++ items.map .resolved := by
  simp only [rxHandleNak]
  split
  · split
    · exact ⟨[_], rfl⟩
    · exact ⟨[], by simp⟩
  · exact ⟨[], by simp⟩

theorem rxHandleAck_log (c : Conn cfg β) (a : WireId w.idBits) :
    ∃ items : List (PacketQueueItem w β), (rxHandleAck c a).1.log = c.log ++ items.map .resolved := by
  obtain ⟨items, hlog⟩ := ackPackets_log hmt (a.id - c.lastAck).toNat c
  have hacked : (rxHandleAcked c a).log = c.log ++ items.map .resolved := by
    simp only [rxHandleAcked]
    split <;> exact hlog
  simp only [rxHandleAck]
  split
  · exact ⟨[], by simp⟩
  · split
    · obtain ⟨items', hnak⟩ := rxHandleNak_log (rxHandleAcked c a)
      exact ⟨items ++ items', by simp [hnak, hacked]⟩
    · exact ⟨items, hacked⟩

theorem failQueued_log (n : Nat) (id : Id w) (c : Conn cfg β) :
    ∃ items : List (PacketQueueItem w β), (failQueued n id c).log = c.log ++ items.map .resolved := by
  induction n generalizing id c with
  | zero => exact ⟨[], by simp [failQueued]⟩
  | succ n ih =>
    obtain ⟨items, hlog⟩ := ih (id + 1) (failPacket (id + 1) c)
    refine ⟨(c.packetsQ (slot (id + 1))).resolve .epipe :: items, ?_⟩
    rw [failQueued, hlog, failPacket_eq]
    simp [resolveLog, hmt]

/-- The log of a disconnect, which ends with the sequence reset or with something to report. -/
theorem onDisconnectLock_log (c : Conn cfg β) :
    ∃ items : List (PacketQueueItem w β), (onDisconnectLock c).log = c.log ++ .down :: items.map .resolved ++
      (if undrained (sweep c) then [] else [.seqReset]) ++ [.swept] := by
  obtain ⟨items, hlog⟩ :=
    failQueued_log hmt ((linkDown c).lastQueued - (linkDown c).lastAck).toNat (linkDown c).lastAck
      (linkDown c)
  refine ⟨items, ?_⟩
  have hsweep : (sweep c).log = c.log ++ .down :: items.map .resolved := by
    rw [show (sweep c).log = _ from hlog, linkDown_eq]
    simp [downLog, unnumberedLog, hmt]
  rw [onDisconnectLock_eq, hsweep]

end Logs

theorem onDisconnectLock_slot (hmt : cfg.mt = true) (c : Conn cfg β) :
    (onDisconnectLock c).flags =
        { Flags.down c.flags.inited (c.flags.uConfirm || c.flags.uHeld) with
          busOut := undrained (sweep c) } ∧
      (onDisconnectLock c).uPacket =
        (if c.flags.uHeld then c.uPacket.resolve .epipe else c.uPacket) ∧
      (onDisconnectLock c).uConfirm =
        (if c.flags.uHeld then c.uPacket.resolve .epipe else c.uConfirm) ∧
      (onDisconnectLock c).txHdr = c.txHdr ∧ (onDisconnectLock c).txPayload = c.txPayload ∧
      (c.flags.uConfirm = true ∨ c.flags.uHeld = true → undrained (sweep c) = true) := by
  have hflags : (sweep c).flags.uConfirm = (c.flags.uConfirm || c.flags.uHeld) := by
    rw [sweep_eq, linkDown_eq]
    simp [Flags.down, hmt]
  refine ⟨?_, ?_, ?_, ?_, ?_, fun h => ?_⟩
  · rw [onDisconnectLock_eq, sweep_eq, linkDown_eq, hmt]
    simp
  · rw [onDisconnectLock_eq, sweep_eq, linkDown_eq]
  · rw [onDisconnectLock_eq, sweep_eq, linkDown_eq, hmt]
    simp
  · rw [onDisconnectLock_eq, sweep_eq, linkDown_eq]
  · rw [onDisconnectLock_eq, sweep_eq, linkDown_eq]
  · simp only [undrained, hmt, hflags, Bool.true_and, Bool.or_eq_true]
    rcases h with h | h <;> simp [h]

/-- The mark that the last step of a handshake leaves. -/
def upMark (up : Bool) : List (Ev w β) := if up then [.up] else []

/-- A DISCONNECT put into the slot, and the packet that waited there, if any, saved to be given
back. -/
def replaced (c : Conn cfg β) : Conn cfg β :=
  let waits := !c.flags.uIdle && !c.flags.discAfterTx
  { c with
    uConfirm := if waits then c.uPacket.resolve .ecanceled else c.uConfirm
    uPacket := { c.uPacket with
      chan := w.controlChannel, payload := .opcode, size := 1
      result := if waits then .ecanceled else c.uPacket.result }
    flags := { c.flags with
      uConfirm := c.flags.uConfirm || waits, discAfterTx := true, uIdle := false } }

/-- An unnumbered packet is accepted after the DISCONNECT has been sent and before the session ends. -/
def inGap (c : Conn cfg β) : Call w β → Bool
  | .sendUrgentData dstChan buf size => uSendable cfg dstChan (.ofPtr buf) size &&
      c.connState = .connected && c.flags.uIdle && c.flags.uDone && c.flags.discAfterTx
  | _ => false

/-- The ways a locked section can go, `gap` telling that it accepts an unnumbered packet behind a
DISCONNECT. -/
inductive Section (gap : Bool) (c : Conn cfg β) (o : Out cfg β) : Prop
  /-- Numbered packets are accepted or decided, perhaps after the last step of a handshake. -/
  | link (up : Bool) (evs : List (Ev w β)) : SameSlot c o.conn →
      o.conn.flags.busOut = c.flags.busOut → Decides evs →
      o.conn.log = c.log ++ upMark up ++ evs →
      (up = true → o.conn.connState = .connected ∧ c.connState ≠ .connected ∧
        c.flags.busOut = false) →
      (up = false → (o.conn.connState = .connected ↔ c.connState = .connected)) →
      handUnnumbered o.todo = [] → Section gap c o
  /-- The session ends, perhaps one that the same packet has completed. -/
  | down (d : Conn cfg β) (up : Bool) : SameSlot c d → d.log = c.log ++ upMark up →
      o.conn = onDisconnectLock d → handUnnumbered o.todo = [] → .confirmUnlocked ∈ o.todo →
      Section gap c o
  /-- An unnumbered packet is accepted. -/
  | hold (it : PacketQueueItem w β) : c.connState = .connected → c.flags.uIdle = true →
      c.flags.uDone = true → it.payload.isOpcode = false → it.tag = c.log.length →
      gap = c.flags.discAfterTx → o.conn = c.hold it → o.todo = [] → Section gap c o
  /-- A DISCONNECT is to be sent. -/
  | disconnect : c.connState = .connected → c.flags.uDone = true → o.conn = replaced c →
      o.todo = [.confirmUnlocked] → Section gap c o
  /-- The DISCONNECT has been sent. -/
  | discSent : txDiscSent c = true →
      o.conn = { c with flags := { c.flags with uDone := true } } →
      o.todo = [.handleDisconnect] → Section gap c o
  /-- A frame is prepared. -/
  | frame (mem : β → List UInt8) : txDiscSent c = false → o = getPacketToSend mem c →
      TxStep c o.conn → o.conn.log = c.log ++ copyLog (txItem (txDone c !c.flags.uDone)) →
      o.todo = callIf (!c.flags.uDone) (.onConfirm .unnumbered (txDone c !c.flags.uDone).uPacket) →
      Section gap c o

theorem Section.still {gap : Bool} {c : Conn cfg β} {o : Out cfg β} (hconn : o.conn = c)
    (htodo : handUnnumbered o.todo = []) : Section gap c o := by
  refine .link false [] (hconn ▸ .refl c) (by rw [hconn]) decides_nil ?_ (by simp)
    (fun _ => by rw [hconn]) htodo
  simp [hconn, upMark]

theorem handUnnumbered_callIf (b : Bool) {cb : Callback w β} (h : cb.givesUnnumbered = none) :
    handUnnumbered (callIf b cb) = [] := by
  cases b <;> simp [callIf, handUnnumbered, h]

theorem handUnnumbered_receive (r : RxOut cfg β) (p : Packet w) (pktSz tstamp : Nat) :
    handUnnumbered (receiveTodo r p pktSz tstamp) = [] := by
  have hexp : handUnnumbered (r.expired.toList.map fun it => Todo.call (.onConfirm .expired it)) =
      [] := by
    cases r.expired <;> simp [handUnnumbered, Callback.givesUnnumbered]
  simp only [receiveTodo, handUnnumbered_append]
  rw [handUnnumbered_callIf _ rfl, handUnnumbered_callIf _ rfl, handUnnumbered_callIf _ rfl,
    handUnnumbered_callIf _ rfl, List.append_nil, List.append_nil, List.nil_append]
  exact hexp

variable {c : Conn cfg β}

theorem upLog_eq (c : Conn cfg β) (p : Packet w) :
    ∃ up, upLog c p = upMark up ∧ (up = true → c.connState ≠ .connected ∧
      (rxUp c p).connState = .connected) ∧
      (up = false → ((rxUp c p).connState = .connected ↔ c.connState = .connected)) := by
  by_cases h : c.connState ≠ .connected ∧ (rxUp c p).connState = .connected
  · exact ⟨true, by simp [upLog, upMark, h], fun _ => h, by simp⟩
  · refine ⟨false, by simp only [upLog, if_neg h, upMark]; rfl, by simp, fun _ => ?_⟩
    by_cases hc : c.connState = .connected
    · simp [rxUp_connected hc, hc]
    · exact ⟨fun hup => absurd ⟨hc, hup⟩ h, fun hconn => absurd hconn hc⟩

theorem receive_section (hmt : cfg.mt = true)
    (hc : c.connState = .connected → c.flags.busOut = false) (p : Packet w) (pktSz tstamp : Nat)
    (hfresh : (completes c p pktSz && c.flags.busOut) = false) :
    Section false c (receive c p pktSz tstamp) := by
  have hstep := rxHandlePacket_step c p pktSz
  have hhand := handUnnumbered_receive (rxHandlePacket c p pktSz) p pktSz tstamp
  have hmem := confirmUnlocked_mem_receive (rxHandlePacket c p pktSz) p pktSz tstamp
  obtain ⟨up, hlog, hup, hno⟩ := upLog_eq c p
  simp only [receive]
  generalize rxHandlePacket c p pktSz = r at hstep hhand hmem ⊢
  cases hstep with
  | dropped => exact .still rfl hhand
  | handshake ret hdrop =>
    refine .link up [] (sameSlot_rxUp c p) (by simp) decides_nil (by simp [hlog])
      (fun h => ⟨(hup h).2, (hup h).1, rxUp_fresh hc hfresh hdrop (hup h).2⟩) hno hhand
  | lastStep => exact .still rfl hhand
  | down ret => exact .down (rxUp c p) up (sameSlot_rxUp c p) (by simp [hlog]) rfl hhand hmem
  | data ret a s hdrop hst hshake ha hs =>
    obtain ⟨items, hitems⟩ := rxHandleAck_log hmt (watchdogRestart (rxUp c p)) p.hdr.ackId
    have hrest := rxHandleAck_rest (watchdogRestart (rxUp c p)) p.hdr.ackId
    rw [← ha] at hitems hrest
    have hstate : s.1.connState = .connected := by
      rw [hs, rxSequence_connState, hrest.connState]
      exact hst
    refine .link up (items.map .resolved) ?_ ?_ (decides_resolved items) ?_
      (fun h => ⟨hstate, (hup h).1, rxUp_fresh hc hfresh hdrop hst⟩) (fun h => ?_) hhand
    · have hslot : SameSlot (rxUp c p) (watchdogRestart (rxUp c p)) := by constructor <;> rfl
      rw [hs]
      exact (((sameSlot_rxUp c p).trans hslot).trans (sameSlot_of_rest hrest)).trans (sameSlot_rxSequence _ _ _)
    · simp only [hs, rxSequence_busOut, hrest.busOut]
      simp [watchdogRestart]
    · simp only [hs, rxSequence_log, hitems]
      simp [watchdogRestart, hlog]
    · rw [hstate, ← hno h, hst]

theorem handleDisconnect_section (c : Conn cfg β) : Section false c (handleDisconnect c) := by
  unfold handleDisconnect disconnectCore
  split
  · refine .down c false (.refl c) (by simp [upMark]) rfl ?_ (by simp)
    simp [handUnnumbered, Callback.givesUnnumbered]
  · exact .still rfl rfl

theorem getPacketToSend_section (mem : β → List UInt8) : Section false c (getPacketToSend mem c) := by
  cases hd : txDiscSent c with
  | true =>
    rw [getPacketToSend_disc mem hd]
    exact .discSent hd rfl rfl
  | false =>
    obtain ⟨hs, hlog⟩ := getPacketToSend_step mem hd
    exact .frame mem hd rfl hs hlog (by simp [getPacketToSend, hd, callIf])

theorem call_section (hmt : cfg.mt = true)
    (hc : c.connState = .connected → c.flags.busOut = false) (a : Call w β)
    (hfresh : ∀ p pktSz tstamp, a = .receive p pktSz tstamp →
      (completes c p pktSz && c.flags.busOut) = false) : Section (inGap c a) c (a.run c) := by
  cases a with
  | enqueueData dstChan buf size ttl =>
    obtain ⟨htodo, hd⟩ := enqueueData_cases c c.log.length dstChan (.ofPtr buf) size ttl
    simp only [Call.run]
    generalize enqueueData c c.log.length dstChan (.ofPtr buf) size ttl = o at htodo hd ⊢
    rcases hd with hd | ⟨-, -, -, -, hd⟩
    · exact .still hd (by rw [htodo]; rfl)
    · refine .link false [.accepted .numbered (c.queuedItem c.log.length dstChan (.ofPtr buf) size ttl)]
        ?_ (by rw [hd]; rfl) (by simp [Decides, Ev.decides]) ?_ (by simp) (fun _ => by rw [hd]; rfl)
        (by rw [htodo]; rfl)
      · rw [hd]
        constructor <;> rfl
      · simp [hd, Conn.push, upMark]
  | sendUrgentData dstChan buf size =>
    obtain ⟨htodo, hd⟩ := sendUrgentData_cases c c.log.length dstChan (.ofPtr buf) size
    simp only [Call.run]
    generalize sendUrgentData c c.log.length dstChan (.ofPtr buf) size = o at htodo hd ⊢
    rcases hd with hd | ⟨hconn, hidle, hdone, hargs, hd⟩
    · exact .still hd (by rw [htodo]; rfl)
    · refine .hold _ hconn hidle hdone ?_ rfl ?_ hd htodo
      · cases buf <;> rfl
      · simp [inGap, hconn, hidle, hdone, hargs]
  | sendDisconnect =>
    simp only [Call.run, Ludlc.sendDisconnect, confirmULock, hmt, if_true]
    split
    · exact .still rfl rfl
    next hconn =>
      split
      · exact .still rfl rfl
      next hdone =>
        refine .disconnect (by simpa using hconn) (by simpa using hdone) ?_ rfl
        cases hwaits : !c.flags.uIdle && !c.flags.discAfterTx <;>
          simp [replaced, hwaits, PacketQueueItem.resolve]
  | connect =>
    simp only [Call.run, Ludlc.connect]
    split
    · exact .still rfl rfl
    split
    · exact .still rfl rfl
    · exact .down c false (.refl c) (by simp [upMark]) rfl rfl (by simp)
  | handleDisconnect => exact handleDisconnect_section c
  | getPacketToSend mem => exact getPacketToSend_section mem
  | receive p pktSz tstamp =>
    exact receive_section hmt hc p pktSz tstamp (hfresh p pktSz tstamp rfl)

/-- What a step of the thread `t` does: a locked section, which may be one it still had to do, or one
of the things it does with the lock released. -/
inductive Move [DecidableEq T] (gap : Bool) (s : Sys cfg β T) (t : T) : Sys cfg β T → Prop
  | locked (o : Out cfg β) (rest : List (Todo w β)) : Section gap s.conn o →
      s.todo t = rest ∨ s.todo t = .handleDisconnect :: rest →
      Move gap s t ⟨o.conn, Function.update s.todo t (o.todo ++ rest)⟩
  | call (cb : Callback w β) (rest : List (Todo w β)) : s.todo t = .call cb :: rest →
      Move gap s t ⟨s.conn.emit (.call cb), Function.update s.todo t (.ret cb :: rest)⟩
  | ret (cb : Callback w β) (rest : List (Todo w β)) : s.todo t = .ret cb :: rest →
      Move gap s t ⟨s.conn.emit (.ret cb), Function.update s.todo t rest⟩
  | leave (rest : List (Todo w β)) : s.todo t = .confirmUnlocked :: rest →
      s.conn.reportBusy = true → Move gap s t ⟨s.conn, Function.update s.todo t rest⟩
  | claim (rest : List (Todo w β)) : s.todo t = .confirmUnlocked :: rest →
      s.conn.reportBusy = false →
      Move gap s t ⟨{ s.conn with reportBusy := true },
        Function.update s.todo t (.confirmPass :: rest)⟩
  | pass (rest : List (Todo w β)) : s.todo t = .confirmPass :: rest →
      Move gap s t ⟨(confirmPass s.conn).1, Function.update s.todo t ((confirmPass s.conn).2 ++ rest)⟩

/-- The action accepts an unnumbered packet behind a DISCONNECT. -/
def gapStart (s : Sys cfg β T) : Act w β T → Bool
  | .call _ a => inGap s.conn a
  | .run _ => false

theorem step_move [DecidableEq T] (hmt : cfg.mt = true) {s s' : Sys cfg β T} {rx tx : T}
    {a : Act w β T} (hc : s.conn.connState = .connected → s.conn.flags.busOut = false)
    (hfresh : freshStart s a = true) (hs : step rx tx s a = some s') :
    ∃ t, Move (gapStart s a) s t s' := by
  cases a with
  | call t a =>
    simp only [step] at hs
    split at hs
    next =>
      cases hs
      refine ⟨t, .locked _ _ (call_section hmt hc a fun p pktSz tstamp ha => ?_) (.inl rfl)⟩
      subst ha
      exact (Bool.not_eq_true' _).mp hfresh
    next => cases hs
  | run t =>
    obtain ⟨⟨d, l⟩, hr, rfl⟩ := Option.map_eq_some_iff.mp hs
    refine ⟨t, ?_⟩
    cases ht : s.todo t with
    | nil => simp [ht, runNext] at hr
    | cons b rest =>
      rw [ht] at hr
      cases b with
      | call cb => cases hr; exact .call cb _ ht
      | ret cb => cases hr; exact .ret cb _ ht
      | confirmUnlocked =>
        simp only [runNext] at hr
        split at hr
        next hb => cases hr; exact .leave _ ht hb
        next hb => cases hr; exact .claim _ ht (by simpa using hb)
      | confirmPass => cases hr; exact .pass _ ht
      | handleDisconnect =>
        cases hr
        exact .locked _ rest (handleDisconnect_section _) (.inr ht)

/-- What every move keeps holds along every run, if it sees to it that sessions start on a reset
sequence. -/
theorem reaches_invariant [DecidableEq T] [Fintype T] (hmt : cfg.mt = true) {rx tx : T}
    {s : Sys cfg β T} {I : Sys cfg β T → Prop} (hinit : I (Sys.init cfg β T))
    (hc : ∀ {s}, I s → s.conn.connState = .connected → s.conn.flags.busOut = false)
    (hmove : ∀ {gap s t s'}, I s → Move gap s t s' → I s') (h : Reaches rx tx s) : I s :=
  h.invariant hinit fun hi hfresh hs => by
    obtain ⟨t, hm⟩ := step_move hmt (hc hi) hfresh hs
    exact hmove hi hm

end Ludlc.Threads
