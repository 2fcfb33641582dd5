import Ludlc.Callbacks

/-! # The control channel

The core keeps the control channel for itself. `ludlc_enqueue_data` refuses it, with a tag or without,
and what arrives on it is a handshake step, an announced disconnect or nothing the core knows.
-/

namespace Ludlc

variable {w : Wire} {cfg : Cfg w} {β : Type}

/-- Some call of `ludlc_enqueue_data` on the link is accepted with this channel field. -/
def Cfg.Accepts (cfg : Cfg w) (β : Type) (chan : Channel w) : Prop :=
  ∃ (c : Conn cfg β) (tag : Nat) (buf : Option β) (size ttl : Nat),
    (enqueueData c tag chan (.ofPtr buf) size ttl).ret = .ok

theorem accepts_iff (chan : Channel w) : cfg.Accepts β chan ↔ isCtrlChan chan = false := by
  constructor
  · rintro ⟨c, tag, buf, size, ttl, hok⟩
    cases hctrl : isCtrlChan chan with
    | false => rfl
    | true =>
      have hrefused : (enqueueData c tag chan (.ofPtr buf) size ttl).ret = .einval := by
        simp [enqueueData, hctrl]
      rw [hrefused] at hok
      cases hok
  · intro hctrl
    have hroom : (Conn.init cfg β).txQueueFull = false := by
      have hpos := NeZero.ne w.window
      simp [Conn.txQueueFull, Conn.connLastReported, Conn.init, hpos]
    have hopen : (Conn.init cfg β).flags.busOut = false := rfl
    refine ⟨Conn.init cfg β, 0, none, 0, 1, ?_⟩
    simp [enqueueData, hctrl, hroom, hopen]

/-- A callback that a call has made with the lock held, or leaves to run once it is released. -/
def Out.Calls (c : Conn cfg β) (o : Out cfg β) (cb : Callback w β) : Prop :=
  .call cb ∈ o.todo ∨ ∃ evs, o.conn.log = c.log ++ evs ∧ .call cb ∈ evs

/-- An unnumbered packet on the control channel, for a link that is up or that it brings up, whose
first octet is no opcode. -/
def isStray (c : Conn cfg β) (p : Packet w) (pktSz : Nat) : Bool :=
  (c.connState = .connected || c.connState = .waitConn2) && isUPacket p pktSz &&
    p.hdr.chan = w.controlChannel && p.payload.head? ≠ some ctrlDisconnect

section Receive

variable {c : Conn cfg β} {p : Packet w} {pktSz : Nat}

theorem flag_of_isUPacket (h : isUPacket p pktSz = true) : p.hdr.txId.flag = true := by
  rw [isUPacket, Bool.and_eq_true] at h
  exact h.1

theorem rxSequence_accept (c : Conn cfg β) (p : Packet w) (u : Bool) :
    (rxSequence c p u).2.accept = true → p.hdr.txId.flag = true → u = true := by
  intro hacc hflag
  rwa [rxSequence, if_pos hflag] at hacc

/-- What the core does with an unnumbered packet on its own channel. -/
theorem rxHandlePacket_control (hu : isUPacket p pktSz = true) (hchan : p.hdr.chan = w.controlChannel) :
    (rxHandlePacket c p pktSz).ret.accept = isStray c p pktSz := by
  have hflag := flag_of_isUPacket hu
  have hdrop : rxDropped p pktSz = false := by simp [rxDropped, hflag, hchan]
  have hstep : isHshake p = false := by simp [isHshake, hflag]
  have hconn : ∀ (d : Conn cfg β) (ret : RxRet), ret.accept = false →
      (rxConnected d p pktSz ret).ret.accept = decide (p.payload.head? ≠ some ctrlDisconnect) := by
    intro d ret hret
    rw [rxConnected]
    by_cases hop : p.payload.head? = some ctrlDisconnect
    · simp [hu, hchan, hop, hret]
    · simp [hu, hchan, hop, hstep, rxSequence, hflag]
  rw [rxHandlePacket, if_neg (by simp [hdrop])]
  cases hst : c.connState with
  | connected =>
    rw [if_neg (by simp), hconn c {} rfl]
    simp [isStray, hst, hu, hchan]
  | waitConn2 =>
    simp only [ne_eq, reduceCtorEq, not_false_eq_true, if_true, rxHandleHandshake, hstep, hst,
      Bool.not_false, Bool.not_true, Bool.false_eq_true, if_false]
    rw [hconn _ _ rfl]
    simp [isStray, hst, hu, hchan]
  | _ => simp [rxHandleHandshake, hstep, hst, isStray]

theorem accept_channel (hacc : (rxHandlePacket c p pktSz).ret.accept = true)
    (hstray : isStray c p pktSz = false) : isCtrlChan p.hdr.chan = false := by
  by_cases hown : isUPacket p pktSz = true ∧ p.hdr.chan = w.controlChannel
  · rw [rxHandlePacket_control hown.1 hown.2, hstray] at hacc
    cases hacc
  have hstep := rxHandlePacket_step c p pktSz
  generalize rxHandlePacket c p pktSz = r at hstep hacc
  cases hstep with
  | dropped => cases hacc
  | handshake ret _ _ hret => simp [hret] at hacc
  | lastStep => cases hacc
  | down ret _ _ hret => simp [hret] at hacc
  | data ret a s hdrop _ hnum _ hs hret =>
    rw [hret, hs] at hacc
    have hu := rxSequence_accept _ _ _ hacc
    have hne : p.hdr.chan ≠ w.controlChannel := by
      intro hchan
      cases hflag : p.hdr.txId.flag with
      | true => exact hown ⟨hu hflag, hchan⟩
      | false => simp [isHshake, hflag, hchan] at hnum
    cases hctrl : isCtrlChan p.hdr.chan with
    | false => rfl
    | true =>
      exfalso
      -- a tag does not get a packet past the first check
      have hfield : (isUPacket p pktSz || !p.hdr.txId.flag) = true := by
        cases hflag : p.hdr.txId.flag with
        | true => simp [hu hflag]
        | false => simp
      simp [rxDropped, hfield, hne, hctrl] at hdrop

theorem onRecv_mem_receive {tstamp ts size : Nat} {chan : Channel w} {data : List UInt8}
    {src : Option Nat} :
    .call (.onRecv chan data size ts src) ∈ (receive c p pktSz tstamp).todo ↔
      (rxHandlePacket c p pktSz).ret.accept = true ∧ chan = p.hdr.chan ∧ data = p.payload ∧
        size = pktSz - w.hdrSz ∧ ts = tstamp ∧ src = p.src := by
  simp only [receive, receiveTodo, callIf]
  generalize rxHandlePacket c p pktSz = r
  cases hcaps : r.ret.caps <;> cases hconn : r.ret.connected <;> cases hdis : r.ret.disconnect <;>
    cases hacc : r.ret.accept <;> simp

end Receive

theorem onRecv_of_run {c : Conn cfg β} {a : Call w β} {chan : Channel w} {data : List UInt8}
    {size ts : Nat} {src : Option Nat} (h : (a.run c).Calls c (.onRecv chan data size ts src)) :
    .call (.onRecv chan data size ts src) ∈ (a.run c).todo ∧
      ∃ p pktSz tstamp, a = .receive p pktSz tstamp := by
  have htodo : .call (.onRecv chan data size ts src) ∈ (a.run c).todo := by
    rcases h with h | ⟨evs, hlog, hmem⟩
    · exact h
    · obtain ⟨evs', hlog', hnone⟩ := run_hushed c a
      have heq : evs = evs' := List.append_cancel_left (hlog.symm.trans hlog')
      have hspoken : .onRecv chan data size ts src ∈ spoken evs :=
        List.mem_filterMap.mpr ⟨_, hmem, rfl⟩
      rw [heq, hnone] at hspoken
      cases hspoken
  refine ⟨htodo, ?_⟩
  cases a with
  | receive p pktSz tstamp => exact ⟨p, pktSz, tstamp, rfl⟩
  | enqueueData dstChan buf size ttl =>
    rw [Call.run, (enqueueData_cases c _ dstChan _ size ttl).1] at htodo
    cases htodo
  | sendUrgentData dstChan buf size =>
    rw [Call.run, (sendUrgentData_cases c _ dstChan _ size).1] at htodo
    cases htodo
  | sendDisconnect =>
    simp only [Call.run, sendDisconnect] at htodo
    split at htodo
    · simp at htodo
    · split at htodo <;> simp at htodo
  | connect =>
    simp only [Call.run, connect] at htodo
    split at htodo
    · simp at htodo
    · split at htodo <;> simp at htodo
  | handleDisconnect =>
    simp only [Call.run, handleDisconnect] at htodo
    split at htodo <;> simp at htodo
  | getPacketToSend mem =>
    simp only [Call.run, getPacketToSend] at htodo
    split at htodo
    · simp at htodo
    · dsimp only at htodo
      split at htodo <;> simp at htodo

/-- A packet is handed over on a channel of the application's own, but for one on the control
channel that is neither a handshake step nor an opcode. -/
theorem recv_channel_iff (c : Conn cfg β) (a : Call w β) :
    (∀ chan data size ts src, (a.run c).Calls c (.onRecv chan data size ts src) →
        cfg.Accepts β chan) ↔
      ∀ p pktSz tstamp, a = .receive p pktSz tstamp → isStray c p pktSz = false := by
  constructor
  · rintro h p pktSz tstamp rfl
    cases hstray : isStray c p pktSz with
    | false => rfl
    | true =>
      have hctrl : isUPacket p pktSz = true ∧ p.hdr.chan = w.controlChannel := by
        simp only [isStray, Bool.and_eq_true, decide_eq_true_eq] at hstray
        exact ⟨hstray.1.1.2, hstray.1.2⟩
      have hacc := rxHandlePacket_control (c := c) hctrl.1 hctrl.2
      have hchan := h p.hdr.chan p.payload (pktSz - w.hdrSz) tstamp p.src
        (.inl (onRecv_mem_receive.mpr ⟨hacc.trans hstray, rfl, rfl, rfl, rfl, rfl⟩))
      rw [accepts_iff, hctrl.2, isCtrlChan, w.tag_ok.2] at hchan
      simp at hchan
  · intro h chan data size ts src hcall
    obtain ⟨hmem, p, pktSz, tstamp, rfl⟩ := onRecv_of_run hcall
    obtain ⟨hacc, rfl, -⟩ := onRecv_mem_receive.mp hmem
    rw [accepts_iff]
    exact accept_channel hacc (h p pktSz tstamp rfl)

/-- A link that is up hands over an unnumbered packet on the control channel, with an opcode it does
not know. -/
theorem recv_channel_control :
    ∃ c : Conn (.ofBuild (.ofWindow 1 (by decide)) false 1 (by decide)) Unit, Inline.Reaches c ∧
      ∃ a : Call (.ofWindow 1 (by decide)) Unit,
        (a.run c).Calls c (.onRecv 0 [7] 1 0 none) ∧
          ¬ (Cfg.ofBuild (.ofWindow 1 (by decide)) false 1 (by decide)).Accepts Unit 0 := by
  obtain ⟨c, hc, hrecv⟩ := Runs.Reachable.of_exec
    (Conn.init (.ofBuild (.ofWindow 1 (by decide)) false 1 (by decide)) Unit) Inline.step
    (fun _ _ => true)
    [.receive (.hshake _ 0) 3 0, .receive (.hshake _ 1) 3 0, .receive (.hshake _ 2) 3 0]
    (fun c => decide (.call (.onRecv 0 [7] 1 0 none) ∈
      (receive c ⟨⟨⟨true, 1⟩, ⟨false, 0⟩, 0⟩, [7], none⟩ 4 0).todo)) (by decide +kernel)
    (by decide +kernel)
  refine ⟨c, hc.mono fun _ _ _ => trivial,
    .receive ⟨⟨⟨true, 1⟩, ⟨false, 0⟩, 0⟩, [7], none⟩ 4 0, .inl (of_decide_eq_true hrecv), ?_⟩
  rw [accepts_iff]
  decide

end Ludlc
