import Ludlc.Inline
import Ludlc.Unnumbered

/-! # The end of a link

A transport ends its link by setting TERMINATE behind the core's back: which calls leave that state
alone.
-/

namespace Ludlc

open Runs

variable {w : Wire} {cfg : Cfg w} {β T : Type}

/-- `conn_state` as a transport sets it when it destroys a link. -/
def setTerminate (c : Conn cfg β) : Conn cfg β := { c with connState := .terminate }

/-- A packet that `rx_handle_packet` drops, or takes for a handshake step it has had before. -/
def sparesPacket (p : Packet w) (pktSz : Nat) : Bool :=
  rxDropped p pktSz || (isHshake p && p.hdr.txId.id.toNat + 1 = ConnState.terminate.val)

/-- A call that leaves TERMINATE alone. -/
def Call.spares : Call w β → Bool
  | receive p pktSz _ => sparesPacket p pktSz
  | _ => true

section

variable {c : Conn cfg β}

theorem rxHandleHandshake_terminate (h : c.connState = .terminate) (p : Packet w) :
    let r := rxHandleHandshake c p (isHshake p)
    r.2.connected = false ∧ r.2.cont = false ∧
      r.1.connState =
        if isHshake p ∧ p.hdr.txId.id.toNat + 1 = ConnState.terminate.val then .terminate
        else .disconnected := by
  unfold rxHandleHandshake
  cases hs : isHshake p with
  | false => simp [h]
  | true =>
    simp only [Bool.not_true, Bool.false_eq_true, if_false, h, true_and, ConnState.val,
      ConnState.next]
    by_cases hlast : p.hdr.txId.id.toNat + 1 = 0xff
    · rw [if_neg (by omega), if_neg (by omega), if_pos hlast]
      exact ⟨rfl, rfl, h⟩
    · rw [if_neg hlast]
      split
      · exact ⟨rfl, rfl, rfl⟩
      · exact ⟨rfl, rfl, rfl⟩

/-- A packet either leaves TERMINATE alone or takes the link to DISCONNECTED. -/
theorem receive_terminate (h : c.connState = .terminate) (p : Packet w) (pktSz tstamp : Nat) :
    (receive c p pktSz tstamp).conn.connState =
      if sparesPacket p pktSz then .terminate else .disconnected := by
  simp only [receive, rxHandlePacket, sparesPacket]
  by_cases hdrop : rxDropped p pktSz = true
  · simpa [hdrop] using h
  · obtain ⟨hconn, hcont, hstate⟩ := rxHandleHandshake_terminate h p
    simp [hdrop, h, hconn, hcont, hstate]

theorem disconnectCore_terminate (h : c.connState = .terminate) :
    disconnectCore c = (c, false) := by
  simp [disconnectCore, h]

theorem getPacketToSend_connState (mem : β → List UInt8) (c : Conn cfg β) :
    (getPacketToSend mem c).conn.connState = c.connState := by
  cases hd : txDiscSent c with
  | true => rw [getPacketToSend_disc mem hd]
  | false => exact (getPacketToSend_step mem hd).1.connState

theorem run_terminate (h : c.connState = .terminate) (a : Call w β) :
    (a.run c).conn.connState = if a.spares then .terminate else .disconnected := by
  cases a with
  | enqueueData dstChan buf size ttl =>
    obtain ⟨-, hd | ⟨-, -, -, -, hd⟩⟩ := enqueueData_cases c c.log.length dstChan (.ofPtr buf) size ttl
    all_goals
      rw [show (Call.run c (.enqueueData dstChan buf size ttl)).conn = _ from hd]
      exact h
  | sendUrgentData dstChan buf size =>
    obtain ⟨-, hd | ⟨-, -, -, -, hd⟩⟩ := sendUrgentData_cases c c.log.length dstChan (.ofPtr buf) size
    all_goals
      rw [show (Call.run c (.sendUrgentData dstChan buf size)).conn = _ from hd]
      exact h
  | sendDisconnect => simp [Call.run, sendDisconnect, Call.spares, h]
  | connect =>
    simp only [Call.run, connect, Call.spares, h, if_true]
    split <;> exact h
  | handleDisconnect => simp [Call.run, handleDisconnect, disconnectCore_terminate h, Call.spares, h]
  | getPacketToSend mem => exact (getPacketToSend_connState mem c).trans h
  | receive p pktSz tstamp => exact receive_terminate h p pktSz tstamp

/-- What a call runs with the lock released changes neither of the two states it can leave. -/
theorem settle_connState {o : Out cfg β}
    (h : o.conn.connState = .terminate ∨ o.conn.connState = .disconnected) :
    o.settle.connState = o.conn.connState := by
  unfold Out.settle
  generalize o.todo = todo
  generalize o.conn = c at h
  induction todo generalizing c with
  | nil => rfl
  | cons a todo ih =>
    have hone : (runTodo c a).connState = c.connState := by
      cases a with
      | handleDisconnect =>
        have : disconnectCore c = (c, false) := by
          rcases h with h | h <;> simp [disconnectCore, h]
        simp [runTodo, this]
      | call cb => rfl
      | _ => rfl
    rw [List.foldl_cons, ih _ (by rwa [hone]), hone]

end

/-- An action that leaves TERMINATE alone. -/
def Threads.Act.spares : Threads.Act w β T → Bool
  | .call _ a => a.spares
  | .run _ => true

theorem Threads.runNext_terminate {c : Conn cfg β} (h : c.connState = .terminate)
    {todo : List (Todo w β)} {r : Conn cfg β × List (Todo w β)}
    (hr : Threads.runNext c todo = some r) : r.1.connState = .terminate := by
  cases todo with
  | nil => cases hr
  | cons a rest =>
    cases a with
    | call cb =>
      cases hr
      exact h
    | ret cb =>
      cases hr
      exact h
    | confirmUnlocked =>
      simp only [runNext] at hr
      split at hr
      all_goals
        cases hr
        exact h
    | confirmPass =>
      cases hr
      exact (confirmPass_slot c).connState.trans h
    | handleDisconnect =>
      cases hr
      simp [handleDisconnect, disconnectCore_terminate h, h]

theorem Threads.step_terminate [DecidableEq T] {rx tx : T} {s s' : Threads.Sys cfg β T}
    {a : Threads.Act w β T} (h : s.conn.connState = .terminate)
    (hs : Threads.step rx tx s a = some s') :
    s'.conn.connState = .terminate ↔ a.spares = true := by
  cases a with
  | call t a =>
    simp only [step] at hs
    split at hs
    · cases hs
      dsimp only
      rw [run_terminate h]
      cases ha : a.spares <;> simp [Act.spares, ha]
    · cases hs
  | run t =>
    obtain ⟨r, hr, rfl⟩ := Option.map_eq_some_iff.mp hs
    exact iff_of_true (runNext_terminate h hr) rfl

theorem Inline.step_terminate {c d : Conn cfg β} {a : Call w β} (h : c.connState = .terminate)
    (hs : Inline.step c a = some d) : d.connState = .terminate ↔ a.spares = true := by
  have hrun := run_terminate h a
  rw [step_eq hs, settle_connState (by rw [hrun]; split <;> simp), hrun]
  cases a.spares <;> simp

/-- A link set to TERMINATE stays there exactly as long as every packet it is still handed is one that
`rx_handle_packet` drops or a step it takes for a repeated one, in both builds. -/
theorem terminate_absorbing [DecidableEq T] (rx tx : T) :
    (∀ (s s' : Threads.Sys cfg β T) (as : List (Threads.Act w β T)),
      s.conn.connState = .terminate → exec (Threads.step rx tx) s as = some s' →
        (Along (Threads.step rx tx) (fun s => s.conn.connState = .terminate) s as ↔
          ∀ a ∈ as, a.spares = true)) ∧
    (∀ (c d : Conn cfg β) (as : List (Call w β)),
      c.connState = .terminate → exec Inline.step c as = some d →
        (Along Inline.step (fun c => c.connState = .terminate) c as ↔ ∀ a ∈ as, a.spares = true)) := by
  constructor
  · intro s s' as h he
    exact along_iff (fun h hs => Threads.step_terminate h hs) h he
  · intro c d as h he
    exact along_iff (fun h hs => Inline.step_terminate h hs) h he

/-- A PING that was read off the wire before the link was destroyed takes it to DISCONNECTED. -/
theorem terminate_left :
    let cfg := Cfg.ofBuild (.ofWindow 1 (by decide)) true 1 (by decide)
    ¬ ∀ (s s' : Threads.Sys cfg Unit (Fin 3)) (as : List (Threads.Act _ Unit (Fin 3))),
      s.conn.connState = .terminate → exec (Threads.step 0 1) s as = some s' →
        Along (Threads.step 0 1) (fun s => s.conn.connState = .terminate) s as := by
  intro cfg h
  have hend : (receive (setTerminate (Conn.init cfg Unit)) (.ping 0 ⟨false, 0⟩) 2 0).conn.connState =
      .terminate :=
    (h ⟨setTerminate (Conn.init cfg Unit), fun _ => []⟩ _
      [.call 0 (.receive (.ping 0 ⟨false, 0⟩) 2 0)] rfl rfl).2 _ rfl
  exact absurd hend (by decide)

/-- A link is destroyed with its transmitter asking for one more frame. -/
theorem terminate_absorbing_frame :
    Along Inline.step (fun c => c.connState = .terminate)
      (setTerminate (Conn.init (.ofBuild (.ofWindow 1 (by decide)) false 1 (by decide)) Unit))
      [.getPacketToSend fun _ => []] :=
  ((terminate_absorbing (T := Fin 2) 0 1).2 _ _ _ rfl rfl).mpr (by decide)

end Ludlc
