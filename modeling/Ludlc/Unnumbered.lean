import Ludlc.Sessions

/-! # Every unnumbered packet is given back once

The one slot, the saved confirmation and what the threads have in hand hold between them the
unnumbered packets accepted and not yet confirmed. A packet leaves that account only where the saved
confirmation is overwritten or where the slot holds both a packet and a DISCONNECT, and neither
happens as long as sessions start on a reset sequence and no packet is accepted behind a DISCONNECT.
-/

namespace Ludlc.Threads

open SeqNum Runs

variable {w : Wire} {cfg : Cfg w} {β T : Type}

/-- The packet of a caller in the slot, waiting or being read by the transport. -/
def liveKey (c : Conn cfg β) : Multiset (Key w β) :=
  if (!c.flags.uIdle || !c.flags.uDone) && !c.uPacket.payload.isOpcode then {c.uPacket.key} else 0

/-- The packet whose confirmation is saved. -/
def savedKey (c : Conn cfg β) : Multiset (Key w β) :=
  if c.flags.uConfirm then {c.uConfirm.key} else 0

/-- The packets a thread is going to give back. -/
def handKeys (todo : List (Todo w β)) : Multiset (Key w β) :=
  ((handUnnumbered todo).map (·.key) : List (Key w β))

@[simp] theorem handKeys_append (l l' : List (Todo w β)) :
    handKeys (l ++ l') = handKeys l + handKeys l' := by
  simp [handKeys]

theorem handKeys_eq_zero {l : List (Todo w β)} (h : handUnnumbered l = []) : handKeys l = 0 := by
  simp [handKeys, h]

/-- The slot is waited for or read, never both, by a caller's packet unless a DISCONNECT is in it, and
in a session only. -/
structure Slot (c : Conn cfg β) : Prop where
  one : c.flags.uDone = false → c.flags.uIdle = true
  own : c.flags.uHeld = true → c.uPacket.payload.isOpcode = false
  live : c.flags.uIdle = false ∨ c.flags.uDone = false ∨ c.flags.discAfterTx = true →
    c.connState = .connected

/-- Nothing overwrites the saved confirmation, and a DISCONNECT has the slot for itself. -/
structure Saved (c : Conn cfg β) : Prop where
  saved : c.flags.uConfirm = true → c.flags.busOut = true ∨ c.flags.discAfterTx = true
  core : c.flags.discAfterTx = true → c.flags.uIdle = false ∨ c.flags.uDone = false →
    c.uPacket.payload.isOpcode = true

/-- What a locked section does to the unnumbered packets: it takes in `new`, and loses `lost`. -/
structure Balance (c : Conn cfg β) (o : Out cfg β) (new : List (Key w β))
    (lost : Multiset (Key w β)) : Prop where
  accepted : acceptedUnnumbered o.conn.log = acceptedUnnumbered c.log ++ new
  confirmed : confirmedUnnumbered o.conn.log = confirmedUnnumbered c.log
  keys : new + savedKey c + liveKey c =
    handKeys o.todo + savedKey o.conn + liveKey o.conn + lost
  grows : c.log.length + new.length ≤ o.conn.log.length
  tags : new.length ≤ 1 ∧ ∀ k ∈ new, k.tag = c.log.length ∧ k.payload.isOpcode = false

variable {c d : Conn cfg β} {o : Out cfg β} {gap : Bool}

theorem SameSlot.liveKey (h : SameSlot c d) : liveKey d = liveKey c := by
  simp only [Threads.liveKey, h.uIdle, h.uDone, h.uPacket]

theorem SameSlot.savedKey (h : SameSlot c d) : savedKey d = savedKey c := by
  simp only [Threads.savedKey, h.uConfirmF, h.uConfirm]

theorem Slot.liveKey_held (h : Slot c) (hheld : c.flags.uHeld = true) :
    liveKey c = {c.uPacket.key} := by
  have hown := h.own hheld
  simp only [Flags.uHeld, Bool.and_eq_true] at hheld
  simp [liveKey, hheld.1, hown]

/-- A slot without one holds nothing, where a DISCONNECT has it for itself. -/
theorem liveKey_free (hcore : c.flags.discAfterTx = true →
    c.flags.uIdle = false ∨ c.flags.uDone = false → c.uPacket.payload.isOpcode = true)
    (hheld : c.flags.uHeld = false) : liveKey c = 0 := by
  cases hbusy : !c.flags.uIdle || !c.flags.uDone with
  | false => simp [liveKey, hbusy]
  | true =>
    have hdisc : c.flags.discAfterTx = true := by simpa [Flags.uHeld, hbusy] using hheld
    simp [liveKey, hcore hdisc (by simpa using hbusy)]

theorem Saved.liveKey_free (h : Saved c) (hheld : c.flags.uHeld = false) : liveKey c = 0 :=
  Threads.liveKey_free h.core hheld

theorem Slot.liveKey_eq_zero_iff (h : Slot c) (hcore : c.flags.discAfterTx = true →
    c.flags.uIdle = false ∨ c.flags.uDone = false → c.uPacket.payload.isOpcode = true) :
    liveKey c = 0 ↔ c.flags.uHeld = false := by
  refine ⟨fun hzero => ?_, liveKey_free hcore⟩
  by_contra hheld
  rw [h.liveKey_held (by simpa using hheld)] at hzero
  exact Multiset.singleton_ne_zero _ hzero

/-- Where a caller's packet holds the slot, no confirmation is saved. -/
theorem Saved.savedKey_held (hs : Slot c) (h : Saved c)
    (hc : c.connState = .connected → c.flags.busOut = false) (hheld : c.flags.uHeld = true) :
    savedKey c = 0 := by
  simp only [Flags.uHeld, Bool.and_eq_true, Bool.or_eq_true, Bool.not_eq_true'] at hheld
  have hopen := hc (hs.live (hheld.1.imp_right .inl))
  cases hf : c.flags.uConfirm with
  | false => simp [savedKey, hf]
  | true => rcases h.saved hf with hb | hd <;> simp_all

@[simp] theorem acceptedUnnumbered_nil : acceptedUnnumbered ([] : List (Ev w β)) = [] := rfl

@[simp] theorem confirmedUnnumbered_nil : confirmedUnnumbered ([] : List (Ev w β)) = [] := rfl

theorem unnumbered_up (up : Bool) : acceptedUnnumbered (upMark up : List (Ev w β)) = [] ∧
    confirmedUnnumbered (upMark up : List (Ev w β)) = [] := by
  cases up <;> exact ⟨rfl, rfl⟩

theorem unnumbered_copy (it : Option (Kind × PacketQueueItem w β)) :
    acceptedUnnumbered (copyLog it) = [] ∧ confirmedUnnumbered (copyLog it) = [] := by
  unfold copyLog
  split
  · exact ⟨rfl, rfl⟩
  · split <;> exact ⟨rfl, rfl⟩

theorem unnumbered_down (hmt : cfg.mt = true) (c : Conn cfg β) :
    acceptedUnnumbered (onDisconnectLock c).log = acceptedUnnumbered c.log ∧
      confirmedUnnumbered (onDisconnectLock c).log = confirmedUnnumbered c.log := by
  obtain ⟨items, hlog⟩ := onDisconnectLock_log hmt c
  have hitems := decides_resolved items
  have hend : acceptedUnnumbered (if undrained (sweep c) then [] else [(.seqReset : Ev w β)]) = [] ∧
      confirmedUnnumbered (if undrained (sweep c) then [] else [(.seqReset : Ev w β)]) = [] := by
    split <;> exact ⟨rfl, rfl⟩
  have hacc : acceptedUnnumbered (.down :: items.map .resolved) = [] := hitems.accepted
  have hconf : confirmedUnnumbered (.down :: items.map .resolved) = [] := hitems.confirmed
  rw [hlog]
  simp only [acceptedUnnumbered_append, confirmedUnnumbered_append, hacc, hconf, hend.1, hend.2,
    List.append_nil]
  exact ⟨List.append_nil _, List.append_nil _⟩

theorem Section.reportBusy (h : Section gap c o) : o.conn.reportBusy = c.reportBusy := by
  cases h with
  | link up evs hslot => exact hslot.reportBusy
  | down d up hslot _ hconn =>
    rw [hconn, ← hslot.reportBusy, onDisconnectLock_eq, sweep_eq, linkDown_eq]
  | hold it _ _ _ _ _ _ hconn => rw [hconn]; rfl
  | disconnect _ _ hconn => rw [hconn]; rfl
  | discSent _ hconn => rw [hconn]
  | frame mem _ _ hstep => exact hstep.reportBusy

theorem Slot.frame (hs : Slot c) (hstep : TxStep c d) : Slot d := by
  have hun : txUnnumbered c = true → c.flags.uIdle = false ∧ c.connState = .connected := by
    simp only [txUnnumbered, Bool.and_eq_true, decide_eq_true_eq, Bool.not_eq_true']
    exact fun hu => ⟨hu.2, hu.1⟩
  refine ⟨?_, ?_, ?_⟩
  · rw [hstep.uDone, hstep.uIdle]
    intro hf
    simp_all
  · rw [hstep.uPacket_same.2]
    intro hheld
    apply hs.own
    simp only [Flags.uHeld, hstep.uDone, hstep.uIdle, hstep.discAfterTx] at hheld ⊢
    cases hu : txUnnumbered c with
    | true => simp_all
    | false => simp_all
  · rw [hstep.uDone, hstep.uIdle, hstep.discAfterTx, hstep.connState]
    intro hlive
    cases hu : txUnnumbered c with
    | true => exact (hun hu).2
    | false =>
      simp only [hu, Bool.or_false, Bool.not_false] at hlive
      rcases hlive with hidle | hdone | hdisc
      · exact hs.live (.inl hidle)
      · cases hdone
      · exact hs.live (.inr (.inr hdisc))

theorem core_frame (hstep : TxStep c d)
    (hcore : c.flags.discAfterTx = true → c.flags.uIdle = false ∨ c.flags.uDone = false →
      c.uPacket.payload.isOpcode = true) (hdisc : d.flags.discAfterTx = true)
    (hlive : d.flags.uIdle = false ∨ d.flags.uDone = false) :
    d.uPacket.payload.isOpcode = true := by
  rw [hstep.discAfterTx] at hdisc
  rw [hstep.uIdle, hstep.uDone] at hlive
  rw [hstep.uPacket_same.2]
  refine hcore hdisc ?_
  cases hu : txUnnumbered c with
  | true => simp_all [txUnnumbered]
  | false => simp_all

/-- The packet sent last is given back by the call that prepares the next frame. -/
theorem Slot.liveKey_frame (hs : Slot c) (hstep : TxStep c d) (hdisc : txDiscSent c = false) :
    liveKey c = (if c.flags.uDone then 0 else {c.uPacket.key}) + liveKey d := by
  cases hdone : c.flags.uDone with
  | false =>
    have hidle := hs.one hdone
    have hheld : c.flags.uHeld = true := by
      simpa [Flags.uHeld, hdone, txDiscSent] using hdisc
    have hfree : liveKey d = 0 := by
      simp [liveKey, hstep.uIdle, hstep.uDone, hidle, txUnnumbered]
    rw [hs.liveKey_held hheld, hfree, add_zero]
    rfl
  | true =>
    rw [if_pos rfl, zero_add]
    cases hidle : c.flags.uIdle with
    | true => simp [liveKey, hstep.uIdle, hstep.uDone, hidle, hdone, txUnnumbered]
    | false =>
      have hconn := hs.live (.inl hidle)
      have hkey := hstep.uPacket_same
      simp [liveKey, hstep.uIdle, hstep.uDone, hidle, txUnnumbered, hconn, hkey]

theorem Section.slot (hmt : cfg.mt = true) (hs : Slot c) (h : Section gap c o) : Slot o.conn := by
  cases h with
  | link up evs hslot _ _ _ hup hno =>
    refine ⟨?_, ?_, fun hlive => ?_⟩
    · rw [hslot.uDone, hslot.uIdle]
      exact hs.one
    · simp only [Flags.uHeld, hslot.uDone, hslot.uIdle, hslot.discAfterTx, hslot.uPacket]
      exact hs.own
    · rw [hslot.uDone, hslot.uIdle, hslot.discAfterTx] at hlive
      cases up with
      | true => exact (hup rfl).1
      | false => exact (hno rfl).mpr (hs.live hlive)
  | down d up _ _ hconn =>
    have hflags := (onDisconnectLock_slot hmt d).1
    rw [hconn]
    constructor <;> rw [hflags] <;> simp [Flags.down, Flags.uHeld]
  | hold it hconn hidle hdone hpay _ _ hd =>
    rw [hd]
    exact ⟨fun hf => by simp [Conn.hold, hdone] at hf, fun _ => hpay, fun _ => hconn⟩
  | disconnect hconn hdone hd =>
    rw [hd]
    exact ⟨fun hf => by simp [replaced, hdone] at hf, fun hheld => by simp [replaced, Flags.uHeld] at hheld,
      fun _ => hconn⟩
  | discSent hdisc hd =>
    simp only [txDiscSent, Bool.and_eq_true, Bool.not_eq_true'] at hdisc
    rw [hd]
    exact ⟨fun hf => by simp at hf, fun hheld => by simp [Flags.uHeld, hdisc.2] at hheld,
      fun _ => hs.live (.inr (.inr hdisc.2))⟩
  | frame mem _ _ hstep => exact hs.frame hstep

theorem Section.saved (hmt : cfg.mt = true) (hs : Saved c) (h : Section false c o) :
    Saved o.conn := by
  cases h with
  | link up evs hslot hbusy =>
    constructor
    · rw [hslot.uConfirmF, hbusy, hslot.discAfterTx]
      exact hs.saved
    · rw [hslot.discAfterTx, hslot.uIdle, hslot.uDone, hslot.uPacket]
      exact hs.core
  | down d up _ _ hconn =>
    obtain ⟨hflags, -, -, -, -, hundrained⟩ := onDisconnectLock_slot hmt d
    rw [hconn]
    constructor <;> rw [hflags]
    · intro hf
      exact .inl (hundrained (by simpa [Flags.down] using hf))
    · simp [Flags.down]
  | hold it _ _ _ hpay _ hgap hd =>
    rw [hd]
    refine ⟨hs.saved, fun hdisc => ?_⟩
    have hdisc : c.flags.discAfterTx = true := hdisc
    rw [← hgap] at hdisc
    cases hdisc
  | disconnect _ _ hd =>
    rw [hd]
    exact ⟨fun _ => .inr rfl, fun _ _ => rfl⟩
  | discSent hdisc hd =>
    simp only [txDiscSent, Bool.and_eq_true, Bool.not_eq_true'] at hdisc
    rw [hd]
    exact ⟨hs.saved, fun _ _ => hs.core hdisc.2 (.inr hdisc.1)⟩
  | frame mem hdisc _ hstep =>
    refine ⟨?_, core_frame hstep hs.core⟩
    rw [hstep.uConfirmF, hstep.busOut, hstep.discAfterTx]
    exact hs.saved

theorem Balance.still (evs : List (Ev w β)) (hlog : o.conn.log = c.log ++ evs)
    (hacc : acceptedUnnumbered evs = []) (hconf : confirmedUnnumbered evs = [])
    {lost : Multiset (Key w β)}
    (hkeys : savedKey c + liveKey c =
      handKeys o.todo + savedKey o.conn + liveKey o.conn + lost) : Balance c o [] lost where
  accepted := by simp [hlog, hacc]
  confirmed := by simp [hlog, hconf]
  keys := by simpa using hkeys
  grows := by simp [hlog]
  tags := by simp

/-- Every section balances, and loses nothing where the slot and the saved confirmation are kept. -/
theorem Section.balance (hmt : cfg.mt = true) (hs : Slot c)
    (hc : c.connState = .connected → c.flags.busOut = false) (h : Section gap c o) :
    ∃ new lost, Balance c o new lost ∧ (Saved c → lost = 0) := by
  cases h with
  | link up evs hslot _ hevs hlog _ _ hhand =>
    have hup := unnumbered_up (w := w) (β := β) up
    refine ⟨[], 0, .still (upMark up ++ evs) (by simp [hlog]) ?_ ?_ ?_, fun _ => rfl⟩
    · simp [hup.1, hevs.accepted]
    · simp [hup.2, hevs.confirmed]
    · rw [handKeys_eq_zero hhand, hslot.savedKey, hslot.liveKey, zero_add, add_zero]
  | down d up hslot hlog hconn hhand =>
    obtain ⟨hflags, hu, hsv, -⟩ := onDisconnectLock_slot hmt d
    obtain ⟨hacc, hconf⟩ := unnumbered_down hmt d
    have hlive : liveKey o.conn = 0 := by
      rw [hconn]
      simp [liveKey, hflags, Flags.down]
    have hheld : d.flags.uHeld = c.flags.uHeld := by
      simp only [Flags.uHeld, hslot.uIdle, hslot.uDone, hslot.discAfterTx]
    have hup := unnumbered_up (w := w) (β := β) up
    have hbal : ∀ lost : Multiset (Key w β), savedKey c + liveKey c = savedKey o.conn + lost →
        Balance c o [] lost := by
      intro lost hkeys
      refine ⟨?_, ?_, ?_, ?_, by simp⟩
      · rw [hconn, hacc, hlog, acceptedUnnumbered_append, hup.1]
      · rw [hconn, hconf, hlog, confirmedUnnumbered_append, hup.2, List.append_nil]
      · rw [handKeys_eq_zero hhand, hlive]
        simpa using hkeys
      · obtain ⟨items, hdown⟩ := onDisconnectLock_log hmt d
        rw [hconn, hdown, hlog]
        simp only [List.length_append, List.length_nil]
        omega
    cases hh : c.flags.uHeld with
    | true =>
      have hsaved : savedKey o.conn = {c.uPacket.key} := by
        rw [hconn]
        simp [savedKey, hflags, hsv, hheld, hh, Flags.down, hslot.uPacket]
      refine ⟨[], savedKey c, hbal _ ?_, fun hk => hk.savedKey_held hs hc hh⟩
      rw [hs.liveKey_held hh, hsaved, add_comm]
    | false =>
      have hsaved : savedKey o.conn = savedKey c := by
        rw [hconn]
        simp [savedKey, hflags, hsv, hheld, hh, Flags.down, hslot.uConfirm, hslot.uConfirmF]
      exact ⟨[], liveKey c, hbal _ (by rw [hsaved]), fun hk => hk.liveKey_free hh⟩
  | hold it hconn hidle hdone hpay htag _ hd htodo =>
    have hfree : liveKey c = 0 := by simp [liveKey, hidle, hdone]
    have hlive : liveKey (c.hold it) = {it.key} := by simp [liveKey, Conn.hold, hpay]
    refine ⟨[it.key], 0, ⟨?_, ?_, ?_, ?_, ?_⟩, fun _ => rfl⟩
    · simp [hd, Conn.hold, acceptedUnnumbered]
    · simp [hd, Conn.hold, confirmedUnnumbered]
    · have hsaved : savedKey (c.hold it) = savedKey c := rfl
      rw [hd, htodo, hlive, hfree, hsaved, handKeys_eq_zero rfl, zero_add, add_zero, add_zero,
        add_comm]
      rfl
    · simp [hd, Conn.hold]
    · simp [PacketQueueItem.key, htag, hpay]
  | disconnect hconn hdone hd htodo =>
    have hlog : o.conn.log = c.log ++ [] := by simp [hd, replaced]
    have hlive : liveKey o.conn = 0 := by simp [hd, liveKey, replaced, Buf.isOpcode]
    have hheld : c.flags.uHeld = (!c.flags.uIdle && !c.flags.discAfterTx) := by
      simp [Flags.uHeld, hdone]
    have hhand : handKeys o.todo = 0 := by rw [htodo]; rfl
    cases hh : c.flags.uHeld with
    | true =>
      have hsaved : savedKey o.conn = {c.uPacket.key} := by
        simp [hd, savedKey, replaced, ← hheld, hh]
      refine ⟨[], savedKey c, .still [] hlog rfl rfl ?_, fun hk => hk.savedKey_held hs hc hh⟩
      rw [hs.liveKey_held hh, hhand, hsaved, hlive, zero_add, add_zero, add_comm]
    | false =>
      have hsaved : savedKey o.conn = savedKey c := by
        simp [hd, savedKey, replaced, ← hheld, hh]
      refine ⟨[], liveKey c, .still [] hlog rfl rfl ?_, fun hk => hk.liveKey_free hh⟩
      rw [hhand, hsaved, hlive, zero_add, add_zero]
  | discSent hdisc hd htodo =>
    simp only [txDiscSent, Bool.and_eq_true, Bool.not_eq_true'] at hdisc
    have hheld : c.flags.uHeld = false := by simp [Flags.uHeld, hdisc.2]
    have hlive : liveKey o.conn = 0 := by simp [hd, liveKey, hs.one hdisc.1]
    have hsaved : savedKey o.conn = savedKey c := by simp [hd, savedKey]
    refine ⟨[], liveKey c, .still [] (by simp [hd]) rfl rfl ?_,
      fun hk => hk.liveKey_free hheld⟩
    rw [htodo, hsaved, hlive, handKeys_eq_zero rfl, zero_add, add_zero]
  | frame mem hdisc _ hstep hlog htodo =>
    have hcopy := unnumbered_copy (txItem (txDone c !c.flags.uDone))
    have hsaved : savedKey o.conn = savedKey c := by
      simp only [savedKey, hstep.uConfirmF, hstep.uConfirm]
    refine ⟨[], 0, .still _ hlog hcopy.1 hcopy.2 ?_, fun _ => rfl⟩
    have hhand : handKeys o.todo = if c.flags.uDone then 0 else {c.uPacket.key} := by
      rw [htodo]
      cases c.flags.uDone <;> rfl
    rw [hsaved, add_zero, add_comm _ (savedKey c), add_assoc, hhand, ← hs.liveKey_frame hstep hdisc]

theorem Section.report (h : Section gap c o) (hf : o.conn.flags.uConfirm = true) :
    c.flags.uConfirm = true ∨ .confirmUnlocked ∈ o.todo := by
  cases h with
  | link up evs hslot => exact .inl (hslot.uConfirmF ▸ hf)
  | down d up _ _ _ _ hmem => exact .inr hmem
  | hold it _ _ _ _ _ _ hd => exact .inl (by simpa [hd, Conn.hold] using hf)
  | disconnect _ _ _ htodo => exact .inr (by simp [htodo])
  | discSent _ hd => exact .inl (by simpa [hd] using hf)
  | frame mem _ _ hstep => exact .inl (hstep.uConfirmF ▸ hf)

section Pass

theorem seqReset_slot (c : Conn cfg β) : SameSlot c (seqResetIfDrained c) := by
  unfold seqResetIfDrained
  repeat' split
  all_goals constructor <;> rfl

/-- What a pass does beside the numbered packets: it takes the confirmation saved. -/
structure PassSlot (c : Conn cfg β) : Prop where
  connState : (confirmPass c).1.connState = c.connState
  uIdle : (confirmPass c).1.flags.uIdle = c.flags.uIdle
  uDone : (confirmPass c).1.flags.uDone = c.flags.uDone
  discAfterTx : (confirmPass c).1.flags.discAfterTx = c.flags.discAfterTx
  uConfirmF : (confirmPass c).1.flags.uConfirm = false
  uPacket : (confirmPass c).1.uPacket = c.uPacket
  txHdr : (confirmPass c).1.txHdr = c.txHdr
  txPayload : (confirmPass c).1.txPayload = c.txPayload
  hand : handKeys (confirmPass c).2 = savedKey c
  log : (confirmPass c).1.log = c.log ∨ (confirmPass c).1.log = c.log ++ [.seqReset]

theorem handKeys_numbered (l : List (PacketQueueItem w β)) :
    handKeys (l.map fun it => Todo.call (.onConfirm .numbered it)) = 0 := by
  refine handKeys_eq_zero ?_
  induction l with
  | nil => rfl
  | cons it l ih => exact ih

theorem confirmPass_slot (c : Conn cfg β) : PassSlot c := by
  have hconn : (confirmPass c).1 =
      { seqResetIfDrained (taken c) with reportBusy := (confirmPass c).1.reportBusy } := by
    simp only [confirmPass]
    split <;> rfl
  have hslot := seqReset_slot (taken c)
  refine ⟨?_, ?_, ?_, ?_, ?_, ?_, ?_, ?_, ?_, ?_⟩
  · rw [hconn]
    simp only [seqReset_connState]
    rw [taken_eq]
  · rw [hconn]
    simp only [hslot.uIdle]
    rw [taken_eq]
  · rw [hconn]
    simp only [hslot.uDone]
    rw [taken_eq]
  · rw [hconn]
    simp only [hslot.discAfterTx]
    rw [taken_eq]
  · rw [hconn]
    simp only [hslot.uConfirmF]
    rw [taken_eq]
  · rw [hconn]
    simp only [hslot.uPacket]
    rw [taken_eq]
  · rw [hconn]
    simp only [hslot.txHdr]
    rw [taken_eq]
  · rw [hconn]
    simp only [hslot.txPayload]
    rw [taken_eq]
  · simp only [confirmPass]
    split
    next hnone =>
      have hf : c.flags.uConfirm = false := by
        have := hnone.1
        unfold takeUnnumbered at this
        split at this
        · cases this
        next hf => simpa using hf
      simp [savedKey, hf, handKeys]
    next =>
      rw [handKeys_append, handKeys_append, handKeys_numbered, add_zero,
        show handKeys [(.confirmPass : Todo w β)] = 0 from rfl, add_zero]
      unfold takeUnnumbered savedKey
      split <;> rfl
  · have htaken : (taken c).log = c.log := by rw [taken_eq]
    rw [hconn]
    unfold seqResetIfDrained
    split
    · exact .inl htaken
    split
    · exact .inl htaken
    · exact .inr (by simp [htaken])

end Pass

variable [Fintype T] {s s' : Sys cfg β T} {t : T} {lost : Multiset (Key w β)}

/-- The unnumbered packets accepted are those confirmed, those in the hands of the threads, the one
whose confirmation is saved, the one in the slot, and `lost`. -/
structure UInv (s : Sys cfg β T) (lost : Multiset (Key w β)) : Prop where
  session : Session s.conn
  slot : Slot s.conn
  tagged : Tagged (acceptedUnnumbered s.conn.log) s.conn.log.length
  user : ∀ k ∈ acceptedUnnumbered s.conn.log, k.payload.isOpcode = false
  keys : (acceptedUnnumbered s.conn.log : Multiset (Key w β)) =
    ((confirmedUnnumbered s.conn.log).map (·.key) : List (Key w β)) + total handKeys s.todo +
      savedKey s.conn + liveKey s.conn + lost

theorem uinv_init : UInv (Sys.init cfg β T) 0 where
  session := session_init
  slot := ⟨fun h => (by cases h), fun h => (by cases h), fun h => by
    rcases h with h | h | h <;> cases h⟩
  tagged := tagged_nil
  user := by simp [Sys.init, Conn.init]
  keys := by
    have : total handKeys (Sys.init cfg β T).todo = 0 := total_eq_zero fun _ => rfl
    rw [this]
    rfl

variable [DecidableEq T]

/-- A step with the lock released, or one that takes the confirmation saved. -/
theorem UInv.pop {l : List (Todo w β)} {e : List (Ev w β)} (h : UInv s lost)
    (hsession : Session d) (hslot : Slot d) (hlive : liveKey d = liveKey s.conn)
    (hlog : d.log = s.conn.log ++ e) (hacc : acceptedUnnumbered e = [])
    (hkeys : handKeys (s.todo t) + savedKey s.conn =
      ((confirmedUnnumbered e).map (·.key) : List (Key w β)) + savedKey d + handKeys l) :
    UInv ⟨d, Function.update s.todo t l⟩ lost where
  session := hsession
  slot := hslot
  tagged := h.tagged.later (by simp [hlog, hacc]) (by simp [hlog])
  user := by simpa [hlog, hacc] using h.user
  keys := by
    have htotal := total_exchange hkeys
    simp only [hlog, acceptedUnnumbered_append, hacc, List.append_nil, confirmedUnnumbered_append,
      List.map_append, ← Multiset.coe_add, hlive, h.keys]
    calc _ = ((confirmedUnnumbered s.conn.log).map (·.key) : List (Key w β)) +
            (total handKeys s.todo + savedKey s.conn) + liveKey s.conn + lost := by abel
      _ = _ := by rw [htotal]; abel

theorem Slot.congr (h : Slot c) (hslot : SameSlot c d) (hstate : d.connState = c.connState) :
    Slot d where
  one := by rw [hslot.uDone, hslot.uIdle]; exact h.one
  own := by
    simp only [Flags.uHeld, hslot.uDone, hslot.uIdle, hslot.discAfterTx, hslot.uPacket]
    exact h.own
  live := by rw [hslot.uDone, hslot.uIdle, hslot.discAfterTx, hstate]; exact h.live

theorem UInv.move (hmt : cfg.mt = true) (h : UInv s lost) (hm : Move gap s t s') :
    ∃ more, UInv s' (more + lost) ∧ (Saved s.conn → more = 0) := by
  have hsession := h.session.move hmt hm
  have hnone : ∀ {r : Sys cfg β T}, UInv r lost →
      ∃ more, UInv r (more + lost) ∧ (Saved s.conn → more = 0) :=
    fun hr => ⟨0, by rwa [zero_add], fun _ => rfl⟩
  cases hm with
  | locked o rest hs ht =>
    obtain ⟨new, more, hb, hzero⟩ := hs.balance hmt h.slot h.session.isOpen
    refine ⟨more, ⟨hsession, hs.slot hmt h.slot, ?_, ?_, ?_⟩, hzero⟩
    · exact h.tagged.append hb.accepted hb.grows hb.tags.1 fun k hk => (hb.tags.2 k hk).1
    · intro k hk
      rw [hb.accepted, List.mem_append] at hk
      exact hk.elim (h.user k) fun hk => (hb.tags.2 k hk).2
    · have hrest : handKeys (s.todo t) = handKeys rest := by
        rcases ht with ht | ht <;> simp [ht, handKeys, handUnnumbered]
      have htotal : total handKeys (Function.update s.todo t (o.todo ++ rest)) =
          handKeys o.todo + total handKeys s.todo :=
        total_add (by rw [handKeys_append, hrest])
      have hkeys := hb.keys
      rw [hb.accepted, hb.confirmed, htotal, ← Multiset.coe_add, h.keys]
      calc _ = ((confirmedUnnumbered s.conn.log).map (·.key) : List (Key w β)) +
              total handKeys s.todo + (new + savedKey s.conn + liveKey s.conn) + lost := by abel
        _ = _ := by rw [hkeys]; abel
  | call cb rest ht =>
    refine hnone (h.pop (e := [.call cb]) hsession ⟨h.slot.one, h.slot.own, h.slot.live⟩ rfl rfl
      rfl ?_)
    rw [ht, add_right_comm]
    refine congrArg (· + savedKey s.conn) ?_
    cases hg : cb.givesUnnumbered <;> simp [handKeys, handUnnumbered, confirmedUnnumbered, hg]
  | ret cb rest ht =>
    refine hnone (h.pop (e := [.ret cb]) hsession ⟨h.slot.one, h.slot.own, h.slot.live⟩ rfl rfl
      rfl ?_)
    rw [ht, add_right_comm]
    refine congrArg (· + savedKey s.conn) ?_
    simp [handKeys, handUnnumbered, confirmedUnnumbered]
  | leave rest ht =>
    refine hnone (h.pop (e := []) hsession h.slot rfl (by simp) rfl ?_)
    rw [ht, add_right_comm]
    refine congrArg (· + savedKey s.conn) ?_
    simp [handKeys, handUnnumbered]
  | claim rest ht =>
    refine hnone (h.pop (e := []) hsession ⟨h.slot.one, h.slot.own, h.slot.live⟩ rfl (by simp)
      rfl ?_)
    rw [ht, add_right_comm]
    refine congrArg (· + savedKey s.conn) ?_
    simp [handKeys, handUnnumbered]
  | pass rest ht =>
    have hp := confirmPass_slot s.conn
    have hslot : Slot (confirmPass s.conn).1 := by
      refine ⟨?_, ?_, ?_⟩
      · rw [hp.uDone, hp.uIdle]
        exact h.slot.one
      · simp only [Flags.uHeld, hp.uDone, hp.uIdle, hp.discAfterTx, hp.uPacket]
        exact h.slot.own
      · rw [hp.uDone, hp.uIdle, hp.discAfterTx, hp.connState]
        exact h.slot.live
    have hlive : liveKey (confirmPass s.conn).1 = liveKey s.conn := by
      simp only [liveKey, hp.uDone, hp.uIdle, hp.uPacket]
    have hsaved : savedKey (confirmPass s.conn).1 = 0 := by simp [savedKey, hp.uConfirmF]
    have hkeys : handKeys (s.todo t) + savedKey s.conn =
        0 + savedKey (confirmPass s.conn).1 + handKeys ((confirmPass s.conn).2 ++ rest) := by
      rw [ht, handKeys_append, hp.hand, hsaved, zero_add, zero_add, add_comm]
      rfl
    refine hnone ?_
    rcases hp.log with hlog | hlog
    · exact h.pop (e := []) hsession hslot hlive (by simpa using hlog) rfl hkeys
    · exact h.pop hsession hslot hlive hlog rfl hkeys

/-- The slot and the saved confirmation are kept, and a thread sees to what is saved. -/
structure Kept (s : Sys cfg β T) : Prop where
  saved : Saved s.conn
  report : s.conn.flags.uConfirm = true →
    s.conn.reportBusy = true ∨ ∃ t, .confirmUnlocked ∈ s.todo t

omit [Fintype T] in
theorem Kept.pop {l rest : List (Todo w β)} {a : Todo w β} (h : Kept s) (ht : s.todo t = a :: rest)
    (hsaved : Saved d) (hflag : d.flags.uConfirm = s.conn.flags.uConfirm)
    (hbusy : s.conn.reportBusy = true → d.reportBusy = true)
    (hun : a = .confirmUnlocked → d.reportBusy = true) (hmem : ∀ b, b ∈ rest → b ∈ l) :
    Kept ⟨d, Function.update s.todo t l⟩ := by
  refine ⟨hsaved, fun hf => ?_⟩
  rcases h.report (hflag ▸ hf) with hb | hex
  · exact .inl (hbusy hb)
  · by_cases ha : a = .confirmUnlocked
    · exact .inl (hun ha)
    · refine .inr (exists_update hex fun hin => ?_)
      rw [ht] at hin
      exact hmem _ ((List.mem_cons.mp hin).resolve_left (Ne.symm ha))

omit [Fintype T] in
theorem Kept.move (hmt : cfg.mt = true) (h : Kept s) (hm : Move false s t s') : Kept s' := by
  cases hm with
  | locked o rest hs ht =>
    refine ⟨hs.saved hmt h.saved, fun hf => ?_⟩
    have hbusy : o.conn.reportBusy = s.conn.reportBusy := hs.reportBusy
    rcases hs.report hf with hold | hnew
    · rw [hbusy]
      refine (h.report hold).imp_right fun hex => exists_update hex fun hin => ?_
      rcases ht with ht | ht
      · exact List.mem_append_right _ (ht ▸ hin)
      · rw [ht] at hin
        exact List.mem_append_right _ ((List.mem_cons.mp hin).resolve_left (by simp))
    · refine .inr ⟨t, ?_⟩
      dsimp only
      rw [Function.update_self]
      exact List.mem_append_left _ hnew
  | call cb rest ht =>
    exact h.pop ht ⟨h.saved.saved, h.saved.core⟩ rfl id (by simp)
      fun b hb => List.mem_cons_of_mem _ hb
  | ret cb rest ht => exact h.pop ht ⟨h.saved.saved, h.saved.core⟩ rfl id (by simp) fun _ hb => hb
  | leave rest ht hb => exact h.pop ht h.saved rfl id (fun _ => hb) fun _ hb => hb
  | claim rest ht =>
    exact h.pop ht ⟨h.saved.saved, h.saved.core⟩ rfl (fun _ => rfl) (fun _ => rfl)
      fun b hb => List.mem_cons_of_mem _ hb
  | pass rest ht =>
    have hp := confirmPass_slot s.conn
    refine ⟨⟨fun hf => ?_, ?_⟩, fun hf => ?_⟩
    · rw [hp.uConfirmF] at hf
      cases hf
    · rw [hp.discAfterTx, hp.uIdle, hp.uDone, hp.uPacket]
      exact h.saved.core
    · rw [hp.uConfirmF] at hf
      cases hf

/-- Sessions start on a reset sequence, and no packet is accepted behind a DISCONNECT. -/
def slotKept (s : Sys cfg β T) (a : Act w β T) : Bool := freshStart s a && !gapStart s a

theorem uinv_reaches (hmt : cfg.mt = true) {rx tx : T}
    (h : Reachable (Sys.init cfg β T) (step rx tx) (fun s a => slotKept s a = true) s) :
    UInv s 0 ∧ Kept s := by
  refine h.invariant (I := fun s => UInv s 0 ∧ Kept s)
    ⟨uinv_init, ⟨⟨fun hf => (by cases hf), fun hf => (by cases hf)⟩, fun hf => (by cases hf)⟩⟩ ?_
  rintro s a s' ⟨hu, hk⟩ hok hs
  simp only [slotKept, Bool.and_eq_true, Bool.not_eq_true'] at hok
  obtain ⟨t, hm⟩ := step_move hmt hu.session.isOpen hok.1 hs
  rw [hok.2] at hm
  obtain ⟨more, hu', hzero⟩ := hu.move hmt hm
  rw [hzero hk.saved] at hu'
  exact ⟨hu', hk.move hmt hm⟩

omit [DecidableEq T] in
theorem UInv.confirmed_le (h : UInv s lost) :
    (((confirmedUnnumbered s.conn.log).map (·.key) : List (Key w β)) : Multiset (Key w β)) ≤
      acceptedUnnumbered s.conn.log := by
  rw [h.keys, add_assoc, add_assoc, add_assoc]
  exact Multiset.le_add_right _ _

omit [DecidableEq T] in
/-- With every thread outside the core no confirmation is saved, and what has not been confirmed is in
the slot. -/
theorem UInv.idle {q : SendQueue (PacketQueueItem w β)} (h : UInv s 0) (hk : Kept s) (hq : Inv s q)
    (hidle : ∀ t, s.todo t = []) :
    s.conn.flags.uConfirm = false ∧ (acceptedUnnumbered s.conn.log : Multiset (Key w β)) =
      ((confirmedUnnumbered s.conn.log).map (·.key) : List (Key w β)) + liveKey s.conn := by
  have hhand : total handKeys s.todo = 0 := total_eq_zero fun t => by rw [hidle]; rfl
  have hflag : s.conn.flags.uConfirm = false := by
    by_contra hf
    rcases hk.report (by simpa using hf) with hb | ⟨t, ht⟩
    · rw [(hq.idle hidle).1] at hb
      cases hb
    · rw [hidle] at ht
      cases ht
  have hsaved : savedKey s.conn = 0 := by simp [savedKey, hflag]
  refine ⟨hflag, ?_⟩
  rw [h.keys, hhand, hsaved, add_zero, add_zero, add_zero]

/-- Every unnumbered packet is confirmed at most once and with what was accepted, the core's own
DISCONNECT never, and with every thread outside the core none is left that is not in the slot. -/
theorem unnumbered_once (hmt : cfg.mt = true) {rx tx : T}
    (h : Reachable (Sys.init cfg β T) (step rx tx) (fun s a => slotKept s a = true) s) :
    ((confirmedUnnumbered s.conn.log).map (·.key)).Nodup ∧
      (∀ it ∈ confirmedUnnumbered s.conn.log,
        it.key ∈ acceptedUnnumbered s.conn.log ∧ it.payload.isOpcode = false) ∧
      ((∀ t, s.todo t = []) → ∀ k ∈ acceptedUnnumbered s.conn.log,
        k ∈ (confirmedUnnumbered s.conn.log).map (·.key) ∨
          s.conn.flags.uHeld = true ∧ k = s.conn.uPacket.key) := by
  obtain ⟨hu, hk⟩ := uinv_reaches hmt h
  have hle := hu.confirmed_le
  refine ⟨?_, fun it hit => ?_, fun hidle k hacc => ?_⟩
  · exact Multiset.coe_nodup.mp (Multiset.nodup_of_le hle (Multiset.coe_nodup.mpr hu.tagged.nodup))
  · have hacc : it.key ∈ acceptedUnnumbered s.conn.log :=
      Multiset.mem_coe.mp (Multiset.mem_of_le hle (Multiset.mem_coe.mpr (List.mem_map_of_mem hit)))
    exact ⟨hacc, hu.user _ hacc⟩
  · have hreaches : Reaches rx tx s := h.mono fun s a hok => by
      simp only [slotKept, Bool.and_eq_true] at hok
      exact hok.1
    obtain ⟨q, hq⟩ := inv_reaches hmt hreaches
    obtain ⟨-, hkeys⟩ := hu.idle hk hq hidle
    have hmem : k ∈ (acceptedUnnumbered s.conn.log : Multiset (Key w β)) := hacc
    rw [hkeys, Multiset.mem_add, Multiset.mem_coe] at hmem
    refine hmem.imp_right fun hlive => ?_
    cases hheld : s.conn.flags.uHeld with
    | true =>
      rw [hu.slot.liveKey_held hheld, Multiset.mem_singleton] at hlive
      exact ⟨rfl, hlive⟩
    | false =>
      rw [hk.saved.liveKey_free hheld] at hlive
      cases hlive

/-- The transport asks for the frame after the DISCONNECT, and an application sends before the
session is ended. -/
def gapRun : List (Act (.ofWindow 0 zero_lt_idBits) Unit (Fin 3)) :=
  Act.handshake 0 1 ++ Act.through 2 .sendDisconnect 2 ++
    [.call 1 (.getPacketToSend fun _ => []), .call 1 (.getPacketToSend fun _ => []),
      .call 2 (.sendUrgentData 1 (some ()) 1)] ++
    .replicate 5 (.run 1)

theorem unnumbered_unconfirmed : ¬ ∀ s : Sys lone Unit (Fin 3),
    Reachable (Sys.init lone Unit (Fin 3)) (step 0 1) (fun _ _ => True) s →
      (∀ t, s.todo t = []) → ∀ k ∈ acceptedUnnumbered s.conn.log,
        k ∈ (confirmedUnnumbered s.conn.log).map (·.key) ∨
          s.conn.flags.uHeld = true ∧ k = s.conn.uPacket.key := by
  obtain ⟨s, hs, hlost⟩ := Reachable.of_exec (Sys.init lone Unit (Fin 3)) (step 0 1)
    (fun _ _ => true) gapRun
    (fun s => (∀ t, s.todo t = []) ∧ s.conn.flags.uHeld = false ∧
      confirmedUnnumbered s.conn.log = [] ∧ acceptedUnnumbered s.conn.log ≠ [])
    (by decide +kernel) (by decide +kernel)
  obtain ⟨hidle, hheld, hconf, hacc⟩ := of_decide_eq_true hlost
  obtain ⟨k, hk⟩ := List.exists_mem_of_ne_nil _ hacc
  intro h
  rcases h s (hs.mono fun _ _ _ => trivial) hidle k hk with hin | ⟨hin, -⟩
  · simp [hconf] at hin
  · simp [hheld] at hin

/-- A packet is sent, and confirmed by the call for the next frame. -/
theorem unnumbered_once_sent : ∃ s : Sys lone Unit (Fin 3),
    (confirmedUnnumbered s.conn.log).length = 1 ∧
      ((confirmedUnnumbered s.conn.log).map (·.key)).Nodup := by
  obtain ⟨s, hs, hone⟩ := Reachable.of_exec (Sys.init lone Unit (Fin 3)) (step 0 1) slotKept
    (Act.handshake 0 1 ++ .call 2 (.sendUrgentData 1 (some ()) 1) ::
      .call 1 (.getPacketToSend fun _ => [7]) :: Act.through 1 (.getPacketToSend fun _ => [7]) 2)
    (fun s => (confirmedUnnumbered s.conn.log).length = 1) (by decide +kernel) (by decide +kernel)
  exact ⟨s, of_decide_eq_true hone, (unnumbered_once rfl hs).1⟩

end Ludlc.Threads
