import Ludlc.Inline
import Ludlc.Unnumbered

/-! # The unnumbered slot in the build that reports inline

Every unnumbered packet accepted has been confirmed or is in the slot. A call is over before the next
one is made, so nothing is accepted behind a DISCONNECT here.
-/

namespace Ludlc.Inline

open Runs Threads

variable {w : Wire} {cfg : Cfg w} {β : Type}

/-- The events that say nothing of the unnumbered packets. -/
def Mute (evs : List (Ev w β)) : Prop := acceptedUnnumbered evs = [] ∧ confirmedUnnumbered evs = []

section Mute

variable {evs : List (Ev w β)}

theorem mute_nil : Mute ([] : List (Ev w β)) := ⟨rfl, rfl⟩

theorem Mute.append {evs' : List (Ev w β)} (h : Mute evs) (h' : Mute evs') : Mute (evs ++ evs') := by
  constructor
  · rw [acceptedUnnumbered_append, h.1, h'.1, List.append_nil]
  · rw [confirmedUnnumbered_append, h.2, h'.2, List.append_nil]

theorem mute_resolveLog (it : PacketQueueItem w β) : Mute (resolveLog cfg it) := by
  unfold resolveLog
  split <;> exact ⟨rfl, rfl⟩

theorem mute_resolved (items : List (PacketQueueItem w β)) : Mute (items.map .resolved) :=
  ⟨(decides_resolved items).accepted, (decides_resolved items).confirmed⟩

theorem mute_flatMap (f : PacketQueueItem w β → PacketQueueItem w β)
    (items : List (PacketQueueItem w β)) : Mute (items.flatMap fun it => resolveLog cfg (f it)) := by
  induction items with
  | nil => exact mute_nil
  | cons it items ih =>
    rw [List.flatMap_cons]
    exact (mute_resolveLog _).append ih

theorem mute_call {cb : Callback w β} (h : cb.givesUnnumbered = none) :
    Mute [(.call cb : Ev w β), .ret cb] := by
  constructor
  · rfl
  · simp [confirmedUnnumbered, h]

theorem mute_upLog (c : Conn cfg β) (p : Packet w) : Mute (upLog c p) := by
  unfold upLog
  split <;> exact ⟨rfl, rfl⟩

end Mute

/-- The unnumbered packets accepted are those confirmed and the one in the slot. -/
structure UInv (c : Conn cfg β) : Prop where
  slot : Slot c
  core : c.flags.discAfterTx = true → c.flags.uIdle = false ∨ c.flags.uDone = false →
    c.uPacket.payload.isOpcode = true
  tagged : Tagged (acceptedUnnumbered c.log) c.log.length
  keys : (acceptedUnnumbered c.log : Multiset (Key w β)) =
    ((confirmedUnnumbered c.log).map (·.key) : List (Key w β)) + liveKey c

/-- A DISCONNECT to be sent is in the slot. -/
def Waits (c : Conn cfg β) : Prop :=
  c.flags.discAfterTx = true → c.flags.uIdle = false ∨ c.flags.uDone = false

variable {c d : Conn cfg β}

theorem uinv_init : UInv (Conn.init cfg β) where
  slot := ⟨fun h => (by cases h), fun h => (by cases h), fun h => by
    rcases h with h | h | h <;> cases h⟩
  core h := by cases h
  tagged := tagged_nil
  keys := rfl

theorem UInv.frame (evs : List (Ev w β)) (h : UInv c) (hslot : SameSlot c d)
    (hstate : c.connState = .connected → d.connState = .connected) (hlog : d.log = c.log ++ evs)
    (hm : Mute evs) : UInv d where
  slot := by
    constructor
    · rw [hslot.uDone, hslot.uIdle]
      exact h.slot.one
    · simp only [Flags.uHeld, hslot.uDone, hslot.uIdle, hslot.discAfterTx, hslot.uPacket]
      exact h.slot.own
    · rw [hslot.uDone, hslot.uIdle, hslot.discAfterTx]
      exact fun hlive => hstate (h.slot.live hlive)
  core := by
    rw [hslot.discAfterTx, hslot.uIdle, hslot.uDone, hslot.uPacket]
    exact h.core
  tagged := h.tagged.later (by simp [hlog, hm.1]) (by simp [hlog])
  keys := by
    rw [hslot.liveKey, hlog, acceptedUnnumbered_append, confirmedUnnumbered_append, hm.1, hm.2,
      List.append_nil, List.append_nil]
    exact h.keys

theorem Waits.congr (h : Waits c) (hslot : SameSlot c d) : Waits d := by
  unfold Waits
  rw [hslot.discAfterTx, hslot.uIdle, hslot.uDone]
  exact h

theorem UInv.callNow (h : UInv c) {cb : Callback w β} (hcb : cb.givesUnnumbered = none) :
    UInv (callNow c cb) :=
  h.frame [.call cb, .ret cb] (by constructor <;> rfl) id (by simp [Ludlc.callNow, Conn.emit])
    (mute_call hcb)

/-- The slot of a caller's packet that is given back is free, or holds the DISCONNECT. -/
theorem UInv.giveBack (it : PacketQueueItem w β) (evs : List (Ev w β)) (h : UInv c) (hslot : Slot d)
    (hcore : d.flags.discAfterTx = true → d.flags.uIdle = false ∨ d.flags.uDone = false →
      d.uPacket.payload.isOpcode = true)
    (hlive : liveKey c = {it.key}) (hfree : liveKey d = 0) (hlog : d.log = c.log ++ evs)
    (hacc : acceptedUnnumbered evs = []) (hconf : confirmedUnnumbered evs = [it]) : UInv d where
  slot := hslot
  core := hcore
  tagged := h.tagged.later (by simp [hlog, hacc]) (by simp [hlog])
  keys := by
    have := h.keys
    rw [hlive] at this
    simp only [hlog, acceptedUnnumbered_append, confirmedUnnumbered_append, hacc, hconf,
      List.append_nil, hfree, this, List.map_append, ← Multiset.coe_add, add_zero]
    rfl

theorem UInv.down (hmt : cfg.mt = false) {q : SendQueue (PacketQueueItem w β)} (hq : Holding c q)
    (h : UInv c) : UInv (onDisconnectLock c) := by
  obtain ⟨-, hlog⟩ := onDisconnectLock_spec hq
  have hflags : (onDisconnectLock c).flags.uIdle = true ∧ (onDisconnectLock c).flags.uDone = true ∧
      (onDisconnectLock c).flags.discAfterTx = false := by
    rw [onDisconnectLock_eq, sweep_eq, linkDown_eq]
    simp [Flags.down]
  obtain ⟨hidle, hdone, hdisc⟩ := hflags
  have hfree : liveKey (onDisconnectLock c) = 0 := by simp [liveKey, hidle, hdone]
  have hslot : Slot (onDisconnectLock c) := by
    constructor <;> simp [Flags.uHeld, hidle, hdone, hdisc]
  have hend : Mute ((q.win.flatMap fun it => resolveLog cfg (it.resolve .epipe)) ++
      ((if undrained (sweep c) then [] else [.seqReset]) ++ [.swept])) := by
    refine (mute_flatMap _ _).append ?_
    split <;> exact ⟨rfl, rfl⟩
  rw [List.append_assoc, List.append_assoc, List.append_assoc] at hlog
  cases hheld : c.flags.uHeld with
  | true =>
    refine h.giveBack (c.uPacket.resolve .epipe) _ hslot (by simp [hdisc])
      (h.slot.liveKey_held hheld) hfree hlog ?_ ?_
    · rw [acceptedUnnumbered_append, hend.1]
      simp [downLog, unnumberedLog, hheld, hmt, acceptedUnnumbered]
    · rw [confirmedUnnumbered_append, hend.2]
      simp [downLog, unnumberedLog, hheld, hmt, confirmedUnnumbered, Callback.givesUnnumbered]
  | false =>
    have hmute : Mute (downLog c) := by
      simp [Mute, downLog, unnumberedLog, hheld, acceptedUnnumbered, confirmedUnnumbered]
    have hall := hmute.append hend
    refine ⟨hslot, by simp [hdisc], h.tagged.later ?_ ?_, ?_⟩
    · rw [hlog, acceptedUnnumbered_append, hall.1, List.append_nil]
    · simp [hlog]
    · rw [hfree, hlog, acceptedUnnumbered_append, confirmedUnnumbered_append, hall.1, hall.2,
        List.append_nil, List.append_nil, h.keys, liveKey_free h.core hheld]

theorem waits_down (c : Conn cfg β) : Waits (onDisconnectLock c) := by
  intro hdisc
  rw [onDisconnectLock_eq, sweep_eq, linkDown_eq] at hdisc
  simp [Flags.down] at hdisc

/-- What holds between two calls. -/
structure Between (c : Conn cfg β) : Prop where
  uinv : UInv c
  waits : Waits c

theorem Between.frame (evs : List (Ev w β)) (h : Between c) (hslot : SameSlot c d)
    (hstate : c.connState = .connected → d.connState = .connected) (hlog : d.log = c.log ++ evs)
    (hm : Mute evs) : Between d :=
  ⟨h.uinv.frame evs hslot hstate hlog hm, h.waits.congr hslot⟩

theorem Between.callNow (h : Between c) {cb : Callback w β} (hcb : cb.givesUnnumbered = none) :
    Between (callNow c cb) :=
  ⟨h.uinv.callNow hcb, h.waits.congr (by constructor <;> rfl)⟩

theorem Between.callIf (h : Between c) (b : Bool) (cb : Callback w β)
    (hcb : cb.givesUnnumbered = none) : Between ((callIf b cb).foldl runTodo c) := by
  cases b
  · exact h
  · exact h.callNow hcb

theorem Between.down (hmt : cfg.mt = false) {q : SendQueue (PacketQueueItem w β)}
    (hq : Holding c q) (h : UInv c) : Between (onDisconnectLock c) :=
  ⟨h.down hmt hq, waits_down c⟩

theorem Between.hold {it : PacketQueueItem w β} (h : Between c) (hconn : c.connState = .connected)
    (hidle : c.flags.uIdle = true) (hdone : c.flags.uDone = true)
    (hpay : it.payload.isOpcode = false) (htag : it.tag = c.log.length) : Between (c.hold it) := by
  have hdisc : c.flags.discAfterTx = false := by
    by_contra hdisc
    rcases h.waits (by simpa using hdisc) with hf | hf <;> simp_all
  have hfree : liveKey c = 0 := by simp [liveKey, hidle, hdone]
  refine ⟨⟨⟨?_, ?_, ?_⟩, ?_, ?_, ?_⟩, ?_⟩
  · intro hf
    simp [Conn.hold, hdone] at hf
  · exact fun _ => hpay
  · exact fun _ => hconn
  · intro hf
    simp [Conn.hold, hdisc] at hf
  · refine h.uinv.tagged.append (show _ = _ ++ [it.key] from ?_) ?_ (by simp) ?_
    · simp [Conn.hold, acceptedUnnumbered]
    · simp [Conn.hold]
    · simpa [PacketQueueItem.key] using htag
  · have hkeys := h.uinv.keys
    rw [hfree, add_zero] at hkeys
    have hlive : liveKey (c.hold it) = {it.key} := by simp [liveKey, Conn.hold, hpay]
    have hacc : acceptedUnnumbered (c.hold it).log = acceptedUnnumbered c.log ++ [it.key] := by
      simp [Conn.hold, acceptedUnnumbered]
    have hconf : confirmedUnnumbered (c.hold it).log = confirmedUnnumbered c.log := by
      simp [Conn.hold, confirmedUnnumbered]
    rw [hacc, hconf, hlive, ← Multiset.coe_add, hkeys]
    rfl
  · intro hf
    simp [Conn.hold, hdisc] at hf

theorem Between.sendDisconnect (hmt : cfg.mt = false) (h : Between c) :
    Between (sendDisconnect c).settle := by
  simp only [Ludlc.sendDisconnect, Out.settle]
  split
  · exact h
  next hconn =>
  have hconn : c.connState = .connected := by simpa using hconn
  split
  · exact h
  next hdone =>
  have hdone : c.flags.uDone = true := by simpa using hdone
  simp only [List.foldl_cons, List.foldl_nil, runTodo, confirmULock, hmt, Bool.false_eq_true,
    if_false]
  split
  next hwait =>
    simp only [Bool.and_eq_true, Bool.not_eq_true'] at hwait
    have hheld : c.flags.uHeld = true := by simp [Flags.uHeld, hwait]
    refine ⟨h.uinv.giveBack (c.uPacket.resolve .ecanceled)
      [.call (.onConfirm .unnumbered (c.uPacket.resolve .ecanceled)),
        .ret (.onConfirm .unnumbered (c.uPacket.resolve .ecanceled))] ?_ ?_
      (h.uinv.slot.liveKey_held hheld) ?_ ?_ rfl rfl, ?_⟩
    · constructor <;> simp [Ludlc.callNow, Conn.emit, hdone, Flags.uHeld, hconn]
    · exact fun _ _ => rfl
    · simp [liveKey, Ludlc.callNow, Buf.isOpcode]
    · simp [Ludlc.callNow, Conn.emit, PacketQueueItem.resolve]
    · exact fun _ => .inl rfl
  next hwait =>
    have hheld : c.flags.uHeld = false := by
      simp only [Bool.and_eq_true, Bool.not_eq_true', not_and] at hwait
      cases hidle : c.flags.uIdle <;> cases hdisc : c.flags.discAfterTx <;>
        simp_all [Flags.uHeld]
    refine ⟨⟨⟨?_, ?_, ?_⟩, ?_, h.uinv.tagged, ?_⟩, ?_⟩
    · simp [hdone]
    · simp [Flags.uHeld]
    · exact fun _ => hconn
    · exact fun _ _ => rfl
    · have hkeys := h.uinv.keys
      rw [liveKey_free h.uinv.core hheld] at hkeys
      rw [show liveKey _ = 0 by simp [liveKey, Buf.isOpcode]]
      exact hkeys
    · exact fun _ => .inl rfl

theorem Between.getPacketToSend (hmt : cfg.mt = false) {q : SendQueue (PacketQueueItem w β)}
    (hq : Holding c q) (h : Between c) (mem : β → List UInt8) :
    Between (getPacketToSend mem c).settle := by
  cases hd : txDiscSent c with
  | true =>
    rw [getPacketToSend_disc mem hd]
    simp only [txDiscSent, Bool.and_eq_true, Bool.not_eq_true'] at hd
    have hconn := h.uinv.slot.live (.inr (.inr hd.2))
    have hop := h.uinv.core hd.2 (.inr hd.1)
    have hsent : UInv ({ c with flags := { c.flags with uDone := true } } : Conn cfg β) := by
      refine ⟨⟨?_, ?_, ?_⟩, fun _ _ => hop, h.uinv.tagged, ?_⟩
      · simp
      · simp [Flags.uHeld, hd.2]
      · exact fun _ => hconn
      · have hlive : liveKey ({ c with flags := { c.flags with uDone := true } } : Conn cfg β) =
            liveKey c := by simp [liveKey, hop]
        rw [hlive]
        exact h.uinv.keys
    simp only [Out.settle, List.foldl_cons, List.foldl_nil, runTodo, disconnectCore, hconn]
    have hholds : Holding ({ c with flags := { c.flags with uDone := true } } : Conn cfg β) q :=
      hq.congr rfl rfl rfl rfl
    exact (Between.down hmt hholds hsent).callNow rfl
  | false =>
    obtain ⟨hs, hlog⟩ := getPacketToSend_step mem hd
    have htodo := getPacketToSend_todo mem hd
    have hmute : Mute (copyLog (txItem (txDone c !c.flags.uDone))) := unnumbered_copy _
    have hlive := h.uinv.slot.liveKey_frame hs hd
    have hcore := core_frame hs h.uinv.core
    have hslot := h.uinv.slot.frame hs
    have hwaits : Waits (Ludlc.getPacketToSend mem c).conn := by
      intro hdisc
      rw [hs.discAfterTx] at hdisc
      have hsent : c.flags.uDone = true := by simpa [txDiscSent, hdisc] using hd
      have hidle : c.flags.uIdle = false := by simpa [hsent] using h.waits hdisc
      right
      rw [hs.uDone]
      simp [txUnnumbered, hidle, h.uinv.slot.live (.inl hidle)]
    rw [Out.settle, htodo]
    cases hdone : c.flags.uDone with
    | true =>
      rw [hdone, if_pos rfl, zero_add] at hlive
      change Between (Ludlc.getPacketToSend mem c).conn
      refine ⟨⟨hslot, hcore, h.uinv.tagged.later ?_ ?_, ?_⟩, hwaits⟩
      · rw [hlog, acceptedUnnumbered_append, hmute.1, List.append_nil]
      · simp [hlog]
      · rw [← hlive, hlog, acceptedUnnumbered_append, confirmedUnnumbered_append, hmute.1, hmute.2,
          List.append_nil, List.append_nil]
        exact h.uinv.keys
    | false =>
      have hidle := h.uinv.slot.one hdone
      have hheld : c.flags.uHeld = true := by
        simpa [Flags.uHeld, hdone, txDiscSent] using hd
      rw [hdone, Bool.not_false] at hlog hmute
      change Between (Ludlc.callNow (Ludlc.getPacketToSend mem c).conn
        (.onConfirm .unnumbered (txDone c true).uPacket))
      refine ⟨h.uinv.giveBack (txDone c true).uPacket
        (copyLog (txItem (txDone c true)) ++
          [.call (.onConfirm .unnumbered (txDone c true).uPacket),
            .ret (.onConfirm .unnumbered (txDone c true).uPacket)])
        ⟨hslot.one, hslot.own, hslot.live⟩ hcore (h.uinv.slot.liveKey_held hheld) ?_ ?_ ?_ ?_, hwaits⟩
      · simp [liveKey, Ludlc.callNow, hs.uIdle, hs.uDone, hidle, txUnnumbered]
      · simp only [Ludlc.callNow, Conn.emit, hlog]
        simp
      · rw [acceptedUnnumbered_append, hmute.1]
        rfl
      · rw [confirmedUnnumbered_append, hmute.2]
        rfl

/-- The ACK field of a frame gives numbered packets back, and no other. -/
theorem Between.ack {q : SendQueue (PacketQueueItem w β)} (hq : Refines c q)
    (hopen : c.flags.busOut = false) (h : Between c) (a : WireId w.idBits) :
    Between (rxHandleAck c a).1 := by
  by_cases hfar : q.win.length < (a.id - c.lastAck).toNat
  · rw [rxHandleAck_far hq.toHolding hfar]
    exact h
  · obtain ⟨-, -, hlog⟩ := rxHandleAck_spec hq hopen (a := a) (by omega)
    have hrest := rxHandleAck_rest c a
    rw [List.append_assoc] at hlog
    exact h.frame _ (sameSlot_of_rest hrest) (fun hc => hrest.connState.trans hc) hlog
      ((mute_flatMap _ _).append (mute_resolved _))

theorem Between.up (h : Between c) (p : Packet w) : Between (rxUp c p) := by
  refine h.frame (upLog c p) (sameSlot_rxUp c p) (fun hc => ?_) (rxUp_log c p) (mute_upLog c p)
  rw [rxUp_connected hc]
  exact hc

theorem Between.receive (hmt : cfg.mt = false) {q : SendQueue (PacketQueueItem w β)}
    (hq : Inv c [] q) (h : Between c) (p : Packet w) (pktSz tstamp : Nat) :
    Between (receive c p pktSz tstamp).settle := by
  have hpkt : Between (rxHandlePacket c p pktSz).conn := by
    have hstep := rxHandlePacket_step c p pktSz
    generalize rxHandlePacket c p pktSz = r at hstep ⊢
    cases hstep with
    | dropped => exact h
    | handshake => exact h.up p
    | lastStep => exact h
    | down => exact Between.down hmt (hq.up p).refines.toHolding (h.up p).uinv
    | data ret a s _ _ _ ha hs =>
      have hw : Inv (watchdogRestart (rxUp c p)) [] q :=
        (hq.up p).frame [] rfl rfl rfl rfl rfl rfl (by simp [watchdogRestart]) quiet_nil
      have hwd : Between (watchdogRestart (rxUp c p)) :=
        (h.up p).frame [] (by constructor <;> rfl) id (by simp [watchdogRestart]) mute_nil
      have hack := hwd.ack hw.refines hw.isOpen p.hdr.ackId
      rw [← ha] at hack
      rw [hs]
      exact hack.frame [] (sameSlot_rxSequence _ _ _) (by simp) (by simp) mute_nil
  simp only [Ludlc.receive, Out.settle, receiveTodo, List.foldl_append, List.foldl_cons]
  refine Between.callIf (Between.callIf ?_ _ _ rfl) _ _ rfl
  have hcaps := hpkt.callIf (rxHandlePacket c p pktSz).ret.caps (.onCaps
    (if pktSz - w.hdrSz = 0 then [] else p.payload) (pktSz - w.hdrSz)) rfl
  have hcalls := hcaps.callIf (rxHandlePacket c p pktSz).ret.connected .onConnect rfl
  cases (rxHandlePacket c p pktSz).expired with
  | none => exact hcalls
  | some it => exact hcalls.callNow rfl

theorem between_run (hmt : cfg.mt = false) {q : SendQueue (PacketQueueItem w β)} (hq : Inv c [] q)
    (h : Between c) (a : Call w β) : Between (a.run c).settle := by
  cases a with
  | enqueueData dstChan buf size ttl =>
    obtain ⟨htodo, hd⟩ := enqueueData_cases c c.log.length dstChan (.ofPtr buf) size ttl
    simp only [Call.run, Out.settle, htodo, List.foldl_nil]
    rcases hd with hd | ⟨-, -, -, -, hd⟩
    · rw [hd]
      exact h
    · rw [hd]
      exact h.frame _ (by constructor <;> rfl) id rfl ⟨rfl, rfl⟩
  | sendUrgentData dstChan buf size =>
    obtain ⟨htodo, hd⟩ := sendUrgentData_cases c c.log.length dstChan (.ofPtr buf) size
    simp only [Call.run, Out.settle, htodo, List.foldl_nil]
    rcases hd with hd | ⟨hconn, hidle, hdone, -, hd⟩
    · rw [hd]
      exact h
    · rw [hd]
      refine h.hold hconn hidle hdone ?_ rfl
      cases buf <;> rfl
  | sendDisconnect => exact h.sendDisconnect hmt
  | connect =>
    simp only [Call.run, Ludlc.connect, Out.settle]
    split
    · exact h
    split
    · exact h
    · exact Between.down hmt hq.refines.toHolding h.uinv
  | handleDisconnect =>
    simp only [Call.run, Ludlc.handleDisconnect, Out.settle, disconnectCore]
    split
    · exact (Between.down hmt hq.refines.toHolding h.uinv).callNow rfl
    · exact h
  | getPacketToSend mem => exact h.getPacketToSend hmt hq.refines.toHolding mem
  | receive p pktSz tstamp => exact h.receive hmt hq p pktSz tstamp

theorem between_reaches (hmt : cfg.mt = false) (h : Reaches c) : Between c := by
  have hboth : (∃ q, Inv c [] q) ∧ Between c := by
    refine h.invariant (I := fun c => (∃ q, Inv c [] q) ∧ Between c)
      ⟨⟨_, inv_init⟩, uinv_init, fun hd => by cases hd⟩ ?_
    rintro c a d ⟨⟨q, hq⟩, hb⟩ - hs
    exact ⟨inv_step hmt ⟨q, hq⟩ hs, step_eq hs ▸ between_run hmt hq hb a⟩
  exact hboth.2

end Ludlc.Inline
