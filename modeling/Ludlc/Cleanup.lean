import Ludlc.Terminate
import Ludlc.InlineSlot

/-! # What a link returns when it is destroyed

`ludlc_connection_cleanup` sweeps a link that is up, but the transport has set TERMINATE by then, and
the sweep is left out.
-/

namespace Ludlc

open Runs

variable {w : Wire} {cfg : Cfg w} {β T : Type}

/-- `ludlc_connection_cleanup` up to where the window is freed. -/
def connectionCleanup (c : Conn cfg β) : Out cfg β :=
  if !c.flags.inited then { conn := c }
  else { conn := (disconnectCore c).1, todo := [.confirmUnlocked] }

/-- Every packet accepted has been reported, once. -/
structure Returned (log : List (Ev w β)) : Prop where
  numbered : (acceptedKeys log).Nodup ∧ (acceptedKeys log).Perm (confirmedKeys log)
  unnumbered : (acceptedUnnumbered log).Nodup ∧
    (acceptedUnnumbered log).Perm ((confirmedUnnumbered log).map (·.key))

/-- The packets not reported are those of the window and the one in the slot. -/
theorem returned_iff {log : List (Ev w β)} {win : List (Key w β)} {live : Multiset (Key w β)}
    {n : Nat} (htag : Tagged (acceptedKeys log) n) (hutag : Tagged (acceptedUnnumbered log) n)
    (hkeys : (acceptedKeys log).Perm (confirmedKeys log ++ win))
    (hukeys : (acceptedUnnumbered log : Multiset (Key w β)) =
      ((confirmedUnnumbered log).map (·.key) : List (Key w β)) + live) :
    Returned log ↔ win = [] ∧ live = 0 := by
  constructor
  · rintro ⟨⟨-, hnum⟩, -, hun⟩
    constructor
    · have := (hnum.symm.trans hkeys).length_eq
      simpa using this
    · rw [Multiset.coe_eq_coe.mpr hun] at hukeys
      exact (left_eq_add.mp hukeys)
  · rintro ⟨rfl, rfl⟩
    rw [List.append_nil] at hkeys
    rw [add_zero] at hukeys
    exact ⟨⟨htag.nodup, hkeys⟩, hutag.nodup, Multiset.coe_eq_coe.mp hukeys⟩

theorem returned_seqReset (log : List (Ev w β)) : Returned (log ++ [.seqReset]) ↔ Returned log := by
  have hacc : acceptedKeys (log ++ [.seqReset]) = acceptedKeys log := by
    rw [acceptedKeys_append]
    exact List.append_nil _
  have hconf : confirmedKeys (log ++ [.seqReset]) = confirmedKeys log := by
    rw [confirmedKeys_append]
    exact List.append_nil _
  have huacc : acceptedUnnumbered (log ++ [.seqReset]) = acceptedUnnumbered log := by
    rw [acceptedUnnumbered_append]
    exact List.append_nil _
  have huconf : confirmedUnnumbered (log ++ [.seqReset]) = confirmedUnnumbered log := by
    rw [confirmedUnnumbered_append]
    exact List.append_nil _
  constructor
  · rintro ⟨hnum, hun⟩
    rw [hacc, hconf] at hnum
    rw [huacc, huconf] at hun
    exact ⟨hnum, hun⟩
  · rintro ⟨hnum, hun⟩
    rw [← hacc, ← hconf] at hnum
    rw [← huacc, ← huconf] at hun
    exact ⟨hnum, hun⟩

section Inited

variable {c : Conn cfg β}

theorem onDisconnectLock_inited (c : Conn cfg β) :
    (onDisconnectLock c).flags.inited = c.flags.inited := by
  rw [onDisconnectLock_eq, sweep_eq, linkDown_eq]
  rfl

theorem rxHandlePacket_inited (c : Conn cfg β) (p : Packet w) (pktSz : Nat) :
    (rxHandlePacket c p pktSz).conn.flags.inited = c.flags.inited := by
  have hstep := rxHandlePacket_step c p pktSz
  generalize rxHandlePacket c p pktSz = r at hstep ⊢
  cases hstep with
  | dropped => rfl
  | handshake => simp
  | lastStep => rfl
  | down => simp [onDisconnectLock_inited]
  | data ret a s _ _ _ ha hs =>
    have hrest := (rxHandleAck_rest (watchdogRestart (rxUp c p)) p.hdr.ackId).inited
    rw [hs, ha, rxSequence_eq]
    simpa [watchdogRestart] using hrest

theorem run_inited (c : Conn cfg β) (a : Call w β) :
    (a.run c).conn.flags.inited = c.flags.inited := by
  cases a with
  | enqueueData dstChan buf size ttl =>
    obtain ⟨-, hd | ⟨-, -, -, -, hd⟩⟩ := enqueueData_cases c c.log.length dstChan (.ofPtr buf) size ttl
    · rw [show (Call.run c (.enqueueData dstChan buf size ttl)).conn = _ from hd]
    · rw [show (Call.run c (.enqueueData dstChan buf size ttl)).conn = _ from hd]
      rfl
  | sendUrgentData dstChan buf size =>
    obtain ⟨-, hd | ⟨-, -, -, -, hd⟩⟩ := sendUrgentData_cases c c.log.length dstChan (.ofPtr buf) size
    · rw [show (Call.run c (.sendUrgentData dstChan buf size)).conn = _ from hd]
    · rw [show (Call.run c (.sendUrgentData dstChan buf size)).conn = _ from hd]
      rfl
  | sendDisconnect =>
    simp only [Call.run, sendDisconnect, confirmULock]
    repeat' split
    all_goals rfl
  | connect =>
    simp only [Call.run, connect]
    repeat' split
    all_goals first | rfl | exact onDisconnectLock_inited c
  | handleDisconnect =>
    simp only [Call.run, handleDisconnect, disconnectCore]
    split
    · exact onDisconnectLock_inited c
    · rfl
  | getPacketToSend mem =>
    change (getPacketToSend mem c).conn.flags.inited = _
    cases hd : txDiscSent c with
    | true => rw [getPacketToSend_disc mem hd]
    | false => exact (getPacketToSend_step mem hd).1.inited
  | receive p pktSz tstamp => exact rxHandlePacket_inited c p pktSz

theorem runTodo_inited (c : Conn cfg β) (a : Todo w β) :
    (runTodo c a).flags.inited = c.flags.inited := by
  cases a with
  | handleDisconnect =>
    simp only [runTodo, disconnectCore]
    split
    · exact onDisconnectLock_inited c
    · rfl
  | _ => rfl

theorem settle_inited (o : Out cfg β) : o.settle.flags.inited = o.conn.flags.inited := by
  unfold Out.settle
  generalize o.todo = todo
  generalize o.conn = c
  induction todo generalizing c with
  | nil => rfl
  | cons a todo ih => rw [List.foldl_cons, ih, runTodo_inited]

theorem confirmPass_inited (c : Conn cfg β) :
    (confirmPass c).1.flags.inited = c.flags.inited := by
  have hconn : (confirmPass c).1.flags = (seqResetIfDrained (taken c)).flags := by
    simp only [confirmPass]
    split <;> rfl
  have htaken : (taken c).flags.inited = c.flags.inited := by rw [taken_eq]
  rw [hconn, ← htaken]
  unfold seqResetIfDrained
  repeat' split
  all_goals rfl

end Inited

theorem Holding.win_eq_nil_iff {c : Conn cfg β} {q : SendQueue (PacketQueueItem w β)}
    (h : Holding c q) : q.win = [] ↔ c.lastQueued = c.lastAck := by
  rw [← List.length_eq_zero_iff, ← h.numQueued, ← sub_eq_zero (a := c.lastQueued)]
  exact BitVec.toNat_inj (y := 0#w.idBits)

theorem confirmPass_idle {c : Conn cfg β} {q : SendQueue (PacketQueueItem w β)} (hmt : cfg.mt = true)
    (h : Refines c q) (hpend : q.pend = []) (hflag : c.flags.uConfirm = false) :
    confirmPass c = ({ seqResetIfDrained (taken c) with reportBusy := false }, []) := by
  have hb := (taken_spec hmt h).2
  have hu : (takeUnnumbered c).2 = [] := by simp [takeUnnumbered, hflag]
  rw [hpend, List.take_nil] at hb
  simp only [confirmPass, hb, hu, and_self, if_true]
  rfl

namespace Inline

theorem inited {c : Conn cfg β} (h : Reaches c) : c.flags.inited = true := by
  refine h.invariant (I := fun c => c.flags.inited = true) rfl fun {c a d} hi _ hs => ?_
  rw [step_eq hs, settle_inited, run_inited, hi]

theorem cleanup_returned (hmt : cfg.mt = false) {c : Conn cfg β} (h : Reaches c) :
    Returned (connectionCleanup (setTerminate c)).settle.log ↔
      c.lastQueued = c.lastAck ∧ c.flags.uHeld = false := by
  obtain ⟨q, hq⟩ := inv_reaches hmt h
  have hb := between_reaches hmt h
  have hlog : (connectionCleanup (setTerminate c)).settle.log = c.log := by
    have hi : (setTerminate c).flags.inited = true := inited (c := c) h
    have hcore : disconnectCore (setTerminate c) = (setTerminate c, false) :=
      disconnectCore_terminate rfl
    simp only [connectionCleanup, hi, hcore]
    rfl
  have hkeys : (acceptedKeys c.log).Perm (confirmedKeys c.log ++ q.win.map (·.key)) := by
    rw [hq.ledger.keys, List.nil_append]
  rw [hlog, returned_iff hq.ledger.toTagged hb.uinv.tagged hkeys hb.uinv.keys,
    List.map_eq_nil_iff, hq.refines.win_eq_nil_iff, hb.uinv.slot.liveKey_eq_zero_iff hb.uinv.core]

end Inline

namespace Threads

theorem runNext_inited {c d : Conn cfg β} {todo l : List (Todo w β)}
    (h : runNext c todo = some (d, l)) : d.flags.inited = c.flags.inited := by
  cases todo with
  | nil => cases h
  | cons a rest =>
    cases a with
    | call cb =>
      cases h
      rfl
    | ret cb =>
      cases h
      rfl
    | confirmUnlocked =>
      simp only [runNext] at h
      split at h
      all_goals
        cases h
        rfl
    | confirmPass =>
      cases h
      exact confirmPass_inited c
    | handleDisconnect =>
      cases h
      exact run_inited c .handleDisconnect

variable [DecidableEq T]

theorem inited {rx tx : T} {s : Sys cfg β T} {ok : Sys cfg β T → Act w β T → Prop}
    (h : Reachable (Sys.init cfg β T) (step rx tx) ok s) : s.conn.flags.inited = true := by
  refine h.invariant (I := fun s => s.conn.flags.inited = true) rfl fun {s a s'} hi _ hs => ?_
  cases a with
  | call t a =>
    simp only [step] at hs
    split at hs
    · cases hs
      exact (run_inited s.conn a).trans hi
    · cases hs
  | run t =>
    obtain ⟨⟨d, l⟩, hr, rfl⟩ := Option.map_eq_some_iff.mp hs
    exact (runNext_inited hr).trans hi

/-- The link is set to TERMINATE, and thread `t`, the only one left in the core, cleans it up. -/
def destroy (s : Sys cfg β T) (t : T) : Sys cfg β T :=
  let o := connectionCleanup (setTerminate s.conn)
  ⟨o.conn, Function.update s.todo t (o.todo ++ s.todo t)⟩

/-- A link destroyed in the build that reports with the lock released. -/
theorem cleanup_returned [Fintype T] (hmt : cfg.mt = true) {rx tx : T} {s : Sys cfg β T}
    (h : Reachable (Sys.init cfg β T) (step rx tx) (fun s a => slotKept s a = true) s)
    (hidle : ∀ t, s.todo t = []) (t : T) :
    ∃ n s', exec (step rx tx) (destroy s t) (List.replicate n (.run t)) = some s' ∧
      (∀ t, s'.todo t = []) ∧
      (Returned s'.conn.log ↔ s.conn.lastQueued = s.conn.lastAck ∧ s.conn.flags.uHeld = false) := by
  obtain ⟨hu, hk⟩ := uinv_reaches hmt h
  have hreaches : Reaches rx tx s := h.mono fun s a hok => by
    simp only [slotKept, Bool.and_eq_true] at hok
    exact hok.1
  obtain ⟨q, hq⟩ := inv_reaches hmt hreaches
  obtain ⟨hbusy, hpend, hitems⟩ := hq.idle hidle
  obtain ⟨hflag, hukeys⟩ := hu.idle hk hq hidle
  have hdestroy : destroy s t =
      ⟨setTerminate s.conn, Function.update s.todo t [.confirmUnlocked]⟩ := by
    have hi : (setTerminate s.conn).flags.inited = true := inited h
    have hcore : disconnectCore (setTerminate s.conn) = (setTerminate s.conn, false) :=
      disconnectCore_terminate rfl
    simp only [destroy, connectionCleanup, hi, hcore, hidle]
    rfl
  -- The one pass finds nothing, since all that was decided has been reported.
  let c : Conn cfg β := { setTerminate s.conn with reportBusy := true }
  have hrefines : Refines c q := hq.refines.congr rfl rfl rfl rfl rfl rfl
  have hpass := confirmPass_idle hmt hrefines hpend hflag
  have hkeys : (acceptedKeys s.conn.log).Perm
      (confirmedKeys s.conn.log ++ q.win.map (·.key)) := by
    rw [hq.keys]
    exact ((Multiset.coe_eq_coe.mp hitems).map _).append_right _
  have hret : Returned s.conn.log ↔
      s.conn.lastQueued = s.conn.lastAck ∧ s.conn.flags.uHeld = false := by
    rw [returned_iff hq.tagged hu.tagged hkeys hukeys, List.map_eq_nil_iff,
      hq.refines.win_eq_nil_iff, hu.slot.liveKey_eq_zero_iff hk.saved.core]
  refine ⟨2, ⟨(confirmPass c).1, Function.update s.todo t []⟩, ?_, ?_, ?_⟩
  · simp only [List.replicate, exec, hdestroy, step, Function.update_self, runNext]
    rw [if_neg (by simp [setTerminate, hbusy])]
    simp only [Option.map_some, Option.bind_some, Function.update_self, Function.update_idem]
    rw [hpass]
    rfl
  · intro t'
    by_cases ht : t' = t
    · rw [ht]
      exact Function.update_self _ _ _
    · rw [← hidle t']
      exact Function.update_of_ne ht _ _
  · rw [← hret]
    rcases (confirmPass_slot c).log with hlog | hlog
    · rw [hlog]
      rfl
    · rw [hlog]
      exact returned_seqReset _

end Threads

end Ludlc
