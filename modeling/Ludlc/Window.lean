import Ludlc.Receive
import Ludlc.Transmit

/-! # The transmit queue behind the counters

`last_reported`, `last_ack`, `last_sent` and `last_queued` cut an unbounded sequence of packets in
four, and the ring of slots keeps the part that is still needed. `SendQueue` is that part as two
lists; `Holding` says that a connection stands for one, and each function of the core that moves a
counter has a lemma here that says what it does to the lists.
-/

namespace Ludlc

open SeqNum

/-- Packets resolved and not reported, and those of the window behind them. The first of `pend` is
number `rep + 1`; the first `sent` of `win` have been sent since the last going back. -/
structure SendQueue (α : Type) where
  rep : Nat
  pend : List α
  win : List α
  sent : Nat

namespace SendQueue

variable {α : Type}

def empty : SendQueue α := ⟨0, [], [], 0⟩

/-- The number of the last packet resolved. -/
def base (q : SendQueue α) : Nat := q.rep + q.pend.length

/-- The first `n` of the window are resolved as `f` says. Inline they are reported at once. -/
def advance (mt : Bool) (f : α → α) (n : Nat) (q : SendQueue α) : SendQueue α where
  rep := if mt then q.rep else q.rep + n
  pend := if mt then q.pend ++ (q.win.take n).map f else q.pend
  win := q.win.drop n
  sent := q.sent - n

@[simp] theorem advance_win (mt : Bool) (f : α → α) (n : Nat) (q : SendQueue α) :
    (q.advance mt f n).win = q.win.drop n := rfl

@[simp] theorem advance_sent (mt : Bool) (f : α → α) (n : Nat) (q : SendQueue α) :
    (q.advance mt f n).sent = q.sent - n := rfl

theorem advance_base (mt : Bool) (f : α → α) {n : Nat} {q : SendQueue α} (h : n ≤ q.win.length) :
    (q.advance mt f n).base = q.base + n := by
  cases mt
  · simp only [base, advance, Bool.false_eq_true, if_false]
    omega
  · simp only [base, advance, if_true, List.length_append, List.length_map, List.length_take]
    omega

theorem advance_zero (mt : Bool) (f : α → α) (q : SendQueue α) : q.advance mt f 0 = q := by
  cases mt <;> simp [advance]

theorem advance_succ (mt : Bool) (f : α → α) (n : Nat) {q : SendQueue α} {x : α} {rest : List α}
    (h : q.win = x :: rest) :
    q.advance mt f (n + 1) = (q.advance mt f 1).advance mt f n := by
  cases mt <;> simp [advance, h, Nat.add_assoc, Nat.add_comm 1 n, Nat.sub_sub]

/-- Nothing waits to be reported any more. -/
def settled (q : SendQueue α) : SendQueue α := { q with rep := q.base, pend := [] }

@[simp] theorem settled_base (q : SendQueue α) : q.settled.base = q.base := by
  simp [settled, base]

end SendQueue

variable {w : Wire} {cfg : Cfg w} {β : Type}

section Wire

theorem window_dvd (w : Wire) : w.window ∣ 2 ^ w.idBits := by
  obtain ⟨k, hk, hw⟩ := w.window_ok
  rw [hw]
  exact Nat.pow_dvd_pow 2 hk.le

theorem two_window_le (w : Wire) : 2 * w.window ≤ 2 ^ w.idBits := by
  obtain ⟨k, hk, hw⟩ := w.window_ok
  rw [hw, ← Nat.pow_succ']
  exact Nat.pow_le_pow_right (by omega) hk

theorem window_pos (w : Wire) : 0 < w.window := NeZero.pos w.window

theorem slot_wrap (x : Nat) : slot (w := w) (wrap w.idBits x) = Ring.slot w.window x := by
  apply Fin.ext
  obtain ⟨k, -, hw⟩ := w.window_ok
  simp only [slot, Ring.slot]
  rw [← wrap_toNat_mod (window_dvd w) x, hw, Nat.and_two_pow_sub_one_eq_mod]

theorem shiftQueue_wrap (q : Fin w.window → PacketQueueItem w β) (x n : Nat) :
    shiftQueue q (wrap w.idBits x) n = Ring.shiftDown q x n := by
  induction n generalizing q x with
  | zero => rfl
  | succ n ih =>
    simp only [shiftQueue, Ring.shiftDown, wrap_add_one, slot_wrap]
    exact ih _ _

end Wire

/-- The counters and the slots of `c` stand for the packets of `q`. -/
structure Holding (c : Conn cfg β) (q : SendQueue (PacketQueueItem w β)) : Prop where
  ack : c.lastAck = wrap w.idBits q.base
  queued : c.lastQueued = wrap w.idBits (q.base + q.win.length)
  reported : c.connLastReported = wrap w.idBits q.rep
  inline : cfg.mt = false → q.pend = []
  holds : Ring.Holds c.packetsQ q.rep (q.pend ++ q.win)
  room : q.pend.length + q.win.length ≤ w.window
  ttl : ∀ it ∈ q.win, 1 ≤ it.ttl ∧ it.ttl ≤ maxTtl

/-- `last_sent` stands where `q` says. -/
def SentAt (c : Conn cfg β) (q : SendQueue (PacketQueueItem w β)) : Prop :=
  c.lastSent = wrap w.idBits (q.base + q.sent) ∧ q.sent ≤ q.win.length

/-- The counters are those of `q`, with `last_sent` where it says while the queue is open. A closed
queue holds nothing. -/
structure Refines (c : Conn cfg β) (q : SendQueue (PacketQueueItem w β)) : Prop
    extends Holding c q where
  sent : c.flags.busOut = false → SentAt c q
  closed : c.flags.busOut = true → q.win = []

/-- What acknowledging, going back and giving up leave alone. -/
structure SameRest (c d : Conn cfg β) : Prop where
  connState : d.connState = c.connState
  noNak : d.flags.noNak = c.flags.noNak
  inited : d.flags.inited = c.flags.inited
  discAfterTx : d.flags.discAfterTx = c.flags.discAfterTx
  uIdle : d.flags.uIdle = c.flags.uIdle
  uDone : d.flags.uDone = c.flags.uDone
  busOut : d.flags.busOut = c.flags.busOut
  uConfirmF : d.flags.uConfirm = c.flags.uConfirm
  txHdr : d.txHdr = c.txHdr
  txPayload : d.txPayload = c.txPayload
  uPacket : d.uPacket = c.uPacket
  uConfirm : d.uConfirm = c.uConfirm
  lastReceived : d.lastReceived = c.lastReceived
  lastSeen : d.lastSeen = c.lastSeen
  nakTrack : d.nakTrack = c.nakTrack
  lastReported : d.lastReported = c.lastReported
  reportBusy : d.reportBusy = c.reportBusy

theorem SameRest.refl (c : Conn cfg β) : SameRest c c := by
  constructor <;> rfl

theorem SameRest.trans {c d e : Conn cfg β} (h : SameRest c d) (h' : SameRest d e) :
    SameRest c e :=
  ⟨h'.1.trans h.1, h'.2.trans h.2, h'.3.trans h.3, h'.4.trans h.4, h'.5.trans h.5,
    h'.6.trans h.6, h'.7.trans h.7, h'.8.trans h.8, h'.9.trans h.9, h'.10.trans h.10,
    h'.11.trans h.11, h'.12.trans h.12, h'.13.trans h.13, h'.14.trans h.14, h'.15.trans h.15,
    h'.16.trans h.16, h'.17.trans h.17⟩

section Counters

variable {c : Conn cfg β} {q : SendQueue (PacketQueueItem w β)}

theorem Holding.numQueued (h : Holding c q) : (c.lastQueued - c.lastAck).toNat = q.win.length := by
  have := h.room
  have := two_window_le w
  have := window_pos w
  rw [h.queued, h.ack, sub_of_le (by omega) (by omega)]
  omega

theorem Holding.numHeld (h : Holding c q) :
    (c.lastQueued - c.connLastReported).toNat = q.pend.length + q.win.length := by
  have := h.room
  have := two_window_le w
  have := window_pos w
  rw [h.queued, h.reported, SendQueue.base, sub_of_le (by omega) (by omega)]
  omega

theorem Holding.full_iff (h : Holding c q) :
    c.txQueueFull = true ↔ q.pend.length + q.win.length = w.window := by
  have := h.room
  rw [Conn.txQueueFull, h.numHeld, decide_eq_true_iff]
  omega

theorem SentAt.numSent (h : Holding c q) (hs : SentAt c q) :
    (c.lastSent - c.lastAck).toNat = q.sent := by
  have := h.room
  have := two_window_le w
  have := window_pos w
  have := hs.2
  rw [hs.1, h.ack, sub_of_le (by omega) (by omega)]
  omega

theorem Holding.slots_eq {items : List (PacketQueueItem w β)} {x n : Nat}
    (h : Ring.Holds c.packetsQ x items) (hn : items.length = n) :
    c.slots n (wrap w.idBits x) = items := by
  induction items generalizing x n with
  | nil => simp [← hn, Conn.slots]
  | cons it items ih =>
    have hhead : c.packetsQ (Ring.slot w.window (x + 1)) = it := h 0 (by simp)
    subst hn
    rw [List.length_cons, Conn.slots, wrap_add_one, slot_wrap, hhead,
      ih (h.drop (k := 1) (by simp)) rfl]

theorem Holding.windowItems (h : Holding c q) : c.windowItems = q.win := by
  have hwin : Ring.Holds c.packetsQ q.base q.win := by
    simpa [SendQueue.base] using h.holds.drop (k := q.pend.length) (by simp)
  rw [Conn.windowItems, h.numQueued, h.ack, Holding.slots_eq hwin rfl]

/-- The slot after `last_ack` holds the first packet of the window. -/
theorem Holding.head (h : Holding c q) {it : PacketQueueItem w β}
    {rest : List (PacketQueueItem w β)} (hw : q.win = it :: rest) :
    c.packetsQ (slot (c.lastAck + 1)) = it := by
  have := h.holds
  rw [hw] at this
  rw [h.ack, wrap_add_one, slot_wrap]
  exact this.head

end Counters

section Resolve

/-- What `ludlc_confirm_queued_lock` leaves in the log. -/
def resolveLog (cfg : Cfg w) (it : PacketQueueItem w β) : List (Ev w β) :=
  .resolved it :: if cfg.mt then []
    else [.call (.onConfirm .numbered it), .ret (.onConfirm .numbered it)]

theorem confirmQueuedLock_eq (c : Conn cfg β) (it : PacketQueueItem w β) :
    confirmQueuedLock c it = { c with log := c.log ++ resolveLog cfg it } := by
  cases hmt : cfg.mt <;> simp [confirmQueuedLock, resolveLog, callNow, Conn.emit, hmt]

def PacketQueueItem.resolve (e : Errno) (it : PacketQueueItem w β) : PacketQueueItem w β :=
  { it with result := e }

@[simp] theorem resolve_key (e : Errno) (it : PacketQueueItem w β) : (it.resolve e).key = it.key := rfl

/-- Moving `last_ack` over the first packet, resolved in its slot. -/
theorem Holding.advance_one {c d : Conn cfg β} {q : SendQueue (PacketQueueItem w β)}
    {it : PacketQueueItem w β} {rest : List (PacketQueueItem w β)} (e : Errno)
    (h : Holding c q) (hw : q.win = it :: rest) (hack : d.lastAck = c.lastAck + 1)
    (hqueued : d.lastQueued = c.lastQueued) (hrep : d.lastReported = c.lastReported)
    (hslots : d.packetsQ = Function.update c.packetsQ (slot (c.lastAck + 1)) (it.resolve e)) :
    Holding d (q.advance cfg.mt (·.resolve e) 1) := by
  have hlen : 1 ≤ q.win.length := by simp [hw]
  have hbase := SendQueue.advance_base cfg.mt (·.resolve e) hlen
  have hroom := h.room
  have hholds := h.holds
  rw [hw] at hholds hroom
  have hupdate := hholds.update (by simpa using hroom) (it.resolve e)
  rw [← slot_wrap, ← wrap_add_one, ← SendQueue.base, ← h.ack, ← hslots] at hupdate
  constructor
  · rw [hack, h.ack, hbase, wrap_add_one]
  · rw [hqueued, h.queued, hbase, SendQueue.advance_win, List.length_drop]
    congr 1
    omega
  · cases hmt : cfg.mt
    · simp only [Conn.connLastReported, hmt, hack, h.ack, wrap_add_one, SendQueue.advance]
      simp [SendQueue.base, h.inline hmt]
    · have := h.reported
      simp only [Conn.connLastReported, hmt, if_true] at this
      simpa [Conn.connLastReported, hmt, hrep, SendQueue.advance] using this
  · intro hmt
    simpa [SendQueue.advance, hmt] using h.inline hmt
  · cases hmt : cfg.mt
    · have := hupdate.drop (k := 1) (by simp; omega)
      simpa [SendQueue.advance, hw, h.inline hmt] using this
    · simpa [SendQueue.advance, hw] using hupdate
  · cases hmt : cfg.mt <;> simp [SendQueue.advance, hw] at hroom ⊢ <;> omega
  · intro it' hit'
    exact h.ttl it' (List.mem_of_mem_drop hit')

theorem ackPacket_rest (c : Conn cfg β) : SameRest c (ackPacket c) := by
  rw [ackPacket, confirmQueuedLock_eq]
  dsimp only
  split <;> constructor <;> rfl

@[simp] theorem ackPacket_lastSent (c : Conn cfg β) : (ackPacket c).lastSent = c.lastSent := by
  rw [ackPacket, confirmQueuedLock_eq]
  dsimp only
  split <;> rfl

theorem ackPacket_spec {c : Conn cfg β} {q : SendQueue (PacketQueueItem w β)}
    {it : PacketQueueItem w β} {rest : List (PacketQueueItem w β)} (h : Holding c q)
    (hw : q.win = it :: rest) :
    Holding (ackPacket c) (q.advance cfg.mt (·.resolve .ok) 1) ∧
      (ackPacket c).log = c.log ++ resolveLog cfg (it.resolve .ok) := by
  rw [ackPacket, confirmQueuedLock_eq, h.head hw]
  dsimp only
  split
  all_goals exact ⟨h.advance_one .ok hw rfl rfl rfl rfl, rfl⟩

theorem ackPackets_rest (n : Nat) (c : Conn cfg β) : SameRest c (ackPackets n c) := by
  induction n generalizing c with
  | zero => exact .refl c
  | succ n ih => exact (ackPacket_rest c).trans (ih _)

@[simp] theorem ackPackets_lastSent (n : Nat) (c : Conn cfg β) :
    (ackPackets n c).lastSent = c.lastSent := by
  induction n generalizing c with
  | zero => rfl
  | succ n ih => rw [ackPackets, ih, ackPacket_lastSent]

theorem ackPackets_spec {n : Nat} {c : Conn cfg β} {q : SendQueue (PacketQueueItem w β)}
    (h : Holding c q) (hn : n ≤ q.win.length) :
    Holding (ackPackets n c) (q.advance cfg.mt (·.resolve .ok) n) ∧
      (ackPackets n c).log =
        c.log ++ (q.win.take n).flatMap fun it => resolveLog cfg (it.resolve .ok) := by
  induction n generalizing c q with
  | zero => simpa [SendQueue.advance_zero, ackPackets] using h
  | succ n ih =>
    obtain ⟨it, rest, hw⟩ := List.exists_cons_of_length_pos (show 0 < q.win.length by omega)
    obtain ⟨hone, hlog⟩ := ackPacket_spec h hw
    obtain ⟨hrest, hlogs⟩ := ih hone (by simp; omega)
    rw [SendQueue.advance_succ _ _ _ hw, ackPackets]
    exact ⟨hrest, by rw [hlogs, hlog]; simp [hw]⟩

end Resolve

section Nak

/-- A packet as a charged NAK leaves it. -/
def PacketQueueItem.charged (it : PacketQueueItem w β) : PacketQueueItem w β :=
  { it with ttl := it.ttl - 1 }

/-- What a NAK does to the queue, and the packet it gives up: all is to be sent again, and the first
packet pays if `charge` says so. -/
def SendQueue.nak (charge : Bool) (q : SendQueue (PacketQueueItem w β)) :
    SendQueue (PacketQueueItem w β) × Option (PacketQueueItem w β) :=
  match q.win, charge with
  | it :: rest, true =>
    if it.ttl = 1 then ({ q with win := rest, sent := 0 }, some (it.charged.resolve .etimedout))
    else ({ q with win := it.charged :: rest, sent := 0 }, none)
  | _, _ => ({ q with sent := 0 }, none)

theorem chargeTtl_eq {it : PacketQueueItem w β} (h : 1 ≤ it.ttl ∧ it.ttl ≤ maxTtl) :
    chargeTtl it = it.charged := by
  have hmax : maxTtl = 127 := rfl
  simp only [chargeTtl, PacketQueueItem.charged]
  congr 1
  omega

variable {c : Conn cfg β} {q : SendQueue (PacketQueueItem w β)}

/-- Only the numbers matter to a queue: what else changes is not seen. -/
theorem Holding.congr {d : Conn cfg β} (h : Holding c q) (hack : d.lastAck = c.lastAck)
    (hqueued : d.lastQueued = c.lastQueued) (hrep : d.lastReported = c.lastReported)
    (hslots : d.packetsQ = c.packetsQ) : Holding d q where
  ack := hack ▸ h.ack
  queued := hqueued ▸ h.queued
  reported := by
    rw [← h.reported]
    simp only [Conn.connLastReported, hack, hrep]
  inline := h.inline
  holds := hslots ▸ h.holds
  room := h.room
  ttl := h.ttl

theorem Refines.congr {d : Conn cfg β} (h : Refines c q) (hack : d.lastAck = c.lastAck)
    (hqueued : d.lastQueued = c.lastQueued) (hrep : d.lastReported = c.lastReported)
    (hslots : d.packetsQ = c.packetsQ) (hsent : d.lastSent = c.lastSent)
    (hbusy : d.flags.busOut = c.flags.busOut) : Refines d q where
  toHolding := h.toHolding.congr hack hqueued hrep hslots
  sent hb := by
    rw [SentAt, hsent]
    exact h.sent (hbusy ▸ hb)
  closed hb := h.closed (hbusy ▸ hb)

theorem sentAt_zero {d : Conn cfg β} (hack : d.lastSent = wrap w.idBits q.base) (hq : q.sent = 0) :
    SentAt d q := ⟨by rw [hack, hq, Nat.add_zero], by omega⟩

theorem Holding.sent_ne_iff (h : Holding c q) (hs : SentAt c q) :
    c.lastSent ≠ c.lastAck ↔ q.sent ≠ 0 := by
  have := h.room
  have := two_window_le w
  have := window_pos w
  have := hs.2
  rw [hs.1, h.ack, ne_eq, wrap_inj (by omega) (by omega)]
  omega

theorem Holding.charge {d : Conn cfg β} {it it' : PacketQueueItem w β}
    {rest : List (PacketQueueItem w β)} (h : Holding c q) (hw : q.win = it :: rest)
    (httl : 1 ≤ it'.ttl ∧ it'.ttl ≤ maxTtl)
    (hack : d.lastAck = c.lastAck) (hqueued : d.lastQueued = c.lastQueued)
    (hrep : d.lastReported = c.lastReported)
    (hslots : d.packetsQ = Function.update c.packetsQ (slot (c.lastAck + 1)) it') :
    Holding d { q with win := it' :: rest, sent := 0 } where
  ack := by rw [hack, h.ack]; rfl
  queued := by rw [hqueued, h.queued, hw]; rfl
  reported := by
    have := h.reported
    simpa only [Conn.connLastReported, hack, hrep] using this
  inline := h.inline
  holds := by
    have hroom := h.room
    have hholds := h.holds
    rw [hw] at hholds hroom
    have := hholds.update (by simpa using hroom) it'
    rwa [← slot_wrap, ← wrap_add_one, ← SendQueue.base, ← h.ack, ← hslots] at this
  room := by
    have := h.room
    rwa [hw] at this
  ttl := by
    have := h.ttl
    rw [hw] at this
    intro x hx
    rcases List.mem_cons.mp hx with rfl | hx
    · exact httl
    · exact this x (List.mem_cons_of_mem _ hx)

/-- The first packet of the window is taken out, and those behind it take the previous numbers. -/
theorem Holding.giveUp {d : Conn cfg β} {it it' : PacketQueueItem w β}
    {rest : List (PacketQueueItem w β)} (h : Holding c q) (hw : q.win = it :: rest)
    (hack : d.lastAck = c.lastAck) (hqueued : d.lastQueued = c.lastQueued - 1)
    (hrep : d.lastReported = c.lastReported)
    (hslots : d.packetsQ = shiftQueue (Function.update c.packetsQ (slot (c.lastAck + 1)) it')
      (c.lastAck + 1) (c.lastQueued - (c.lastAck + 1)).toNat) :
    Holding d { q with win := rest, sent := 0 } where
  ack := by rw [hack, h.ack]; rfl
  queued := by
    rw [hqueued, h.queued, hw, wrap_sub_one _ (by simp)]
    rfl
  reported := by
    have := h.reported
    simpa only [Conn.connLastReported, hack, hrep] using this
  inline := h.inline
  holds := by
    have hroom := h.room
    have hholds := h.holds
    have htwo := two_window_le w
    have hpos := window_pos w
    rw [hw] at hholds hroom
    have hn : (c.lastQueued - (c.lastAck + 1)).toNat = rest.length := by
      rw [h.queued, h.ack, wrap_add_one, hw]
      simp only [List.length_cons] at hroom ⊢
      rw [sub_of_le (by omega) (by omega)]
      omega
    have hup := hholds.update (by simpa using hroom) it'
    have := hup.shiftDown (by simpa using hroom)
    rw [hslots, hn, h.ack, wrap_add_one, shiftQueue_wrap, slot_wrap]
    exact this
  room := by
    have := h.room
    rw [hw, List.length_cons] at this
    dsimp only
    omega
  ttl := fun x hx => h.ttl x (hw ▸ List.mem_cons_of_mem _ hx)

theorem rxHandleNak_rest (c : Conn cfg β) : SameRest c (rxHandleNak c).1 := by
  simp only [rxHandleNak]
  split
  · split <;> constructor <;> rfl
  · constructor <;> rfl

theorem rxHandleNak_free (hc : nakCharges c = false) :
    rxHandleNak c = ({ c with lastSent := c.lastAck }, none) := by
  simp [rxHandleNak, hc]

theorem nakCharges_iff (h : Holding c q) (hs : SentAt c q) :
    nakCharges c = true ↔ q.sent ≠ 0 ∧ c.flags.ttlCharged = false := by
  simp [nakCharges, h.sent_ne_iff hs]

@[simp] theorem rxHandleNak_lastAck (c : Conn cfg β) :
    (rxHandleNak c).1.lastAck = c.lastAck := by
  simp only [rxHandleNak]
  split
  · split <;> rfl
  · rfl

@[simp] theorem rxHandleNak_lastSent (c : Conn cfg β) :
    (rxHandleNak c).1.lastSent = c.lastAck := rfl

/-- A NAK goes back to the first packet of the window, and charges it if it may. -/
theorem rxHandleNak_spec (h : Refines c q) (hopen : c.flags.busOut = false) :
    Refines (rxHandleNak c).1 (q.nak (nakCharges c)).1 ∧
      (rxHandleNak c).2 = (q.nak (nakCharges c)).2 ∧
      (rxHandleNak c).1.log = c.log ++ (q.nak (nakCharges c)).2.toList.map .resolved := by
  have hrest := rxHandleNak_rest c
  have hclosed : (rxHandleNak c).1.flags.busOut ≠ true := by simp [hrest.busOut, hopen]
  have hiff := nakCharges_iff h.toHolding (h.sent hopen)
  cases hc : nakCharges c with
  | false =>
    have hnak : q.nak false = ({ q with sent := 0 }, none) := by
      cases hw : q.win <;> simp only [SendQueue.nak, hw]
    rw [hnak, rxHandleNak_free hc]
    have hd : Holding { c with lastSent := c.lastAck } { q with sent := 0 } :=
      { h.toHolding with }
    exact ⟨⟨hd, fun _ => sentAt_zero h.ack rfl, by simp [hopen]⟩, rfl, by simp⟩
  | true =>
    have hlen := (h.sent hopen).2
    have hpos := (hiff.mp hc).1
    obtain ⟨it, rest, hw⟩ := List.exists_cons_of_length_pos (show 0 < q.win.length by omega)
    have httl := h.ttl it (by simp [hw])
    by_cases hlast : it.ttl = 1
    · have hzero : it.charged.ttl = 0 := by simp [PacketQueueItem.charged, hlast]
      have hstep : (rxHandleNak c).1.lastQueued = c.lastQueued - 1 ∧
          (rxHandleNak c).1.packetsQ = shiftQueue (Function.update c.packetsQ
            (slot (c.lastAck + 1)) (it.charged.resolve .etimedout))
            (c.lastAck + 1) (c.lastQueued - (c.lastAck + 1)).toNat ∧
          (rxHandleNak c).2 = some (it.charged.resolve .etimedout) ∧
          (rxHandleNak c).1.log = c.log ++ [.resolved (it.charged.resolve .etimedout)] := by
        simp only [rxHandleNak, hc, h.head hw, chargeTtl_eq httl, if_true, if_pos hzero,
          rxGiveUp, emit_packetsQ, Function.update_idem]
        exact ⟨rfl, rfl, rfl, rfl⟩
      obtain ⟨hqueued, hslots, hexpired, hlog⟩ := hstep
      simp only [SendQueue.nak, hw, hlast, if_true]
      refine ⟨⟨h.toHolding.giveUp hw (rxHandleNak_lastAck c) hqueued hrest.lastReported hslots,
        fun _ => sentAt_zero h.ack rfl, fun hb => absurd hb hclosed⟩, hexpired, hlog⟩
    · have hcharged : 1 ≤ it.charged.ttl ∧ it.charged.ttl ≤ maxTtl := by
        simp only [PacketQueueItem.charged]
        omega
      have hzero : it.charged.ttl ≠ 0 := by omega
      have hstep : (rxHandleNak c).1.lastQueued = c.lastQueued ∧
          (rxHandleNak c).1.packetsQ =
            Function.update c.packetsQ (slot (c.lastAck + 1)) it.charged ∧
          (rxHandleNak c).2 = none ∧ (rxHandleNak c).1.log = c.log := by
        simp only [rxHandleNak, hc, h.head hw, chargeTtl_eq httl, hzero, if_true, if_false,
          and_self]
      obtain ⟨hqueued, hslots, hexpired, hlog⟩ := hstep
      simp only [SendQueue.nak, hw, hlast, if_false]
      refine ⟨⟨h.toHolding.charge hw hcharged (rxHandleNak_lastAck c) hqueued hrest.lastReported
        hslots, fun _ => sentAt_zero h.ack rfl, fun hb => absurd hb hclosed⟩, hexpired, ?_⟩
      rw [hlog, Option.toList_none, List.map_nil, List.append_nil]

end Nak

section Ack

variable {c : Conn cfg β} {q : SendQueue (PacketQueueItem w β)}

theorem rxHandleAcked_rest (c : Conn cfg β) (a : WireId w.idBits) :
    SameRest c (rxHandleAcked c a) := by
  have h := ackPackets_rest (a.id - c.lastAck).toNat c
  simp only [rxHandleAcked]
  split
  · exact h.trans (by constructor <;> rfl)
  · exact h

/-- What a packet's ACK field does to the queue: `n` packets acknowledged, and then perhaps a NAK,
charged or not. -/
def SendQueue.ackNak (mt : Bool) (n : Nat) (nak : Option Bool)
    (q : SendQueue (PacketQueueItem w β)) :
    SendQueue (PacketQueueItem w β) × Option (PacketQueueItem w β) :=
  let q := q.advance mt (·.resolve .ok) n
  match nak with
  | none => (q, none)
  | some charge => q.nak charge

/-- The packets behind those acknowledged are those given up and those kept. -/
theorem SendQueue.ackNak_keys (mt : Bool) (n : Nat) (nak : Option Bool)
    (q : SendQueue (PacketQueueItem w β)) :
    (q.win.drop n).map (·.key) =
      ((q.ackNak mt n nak).2.toList ++ (q.ackNak mt n nak).1.win).map (·.key) := by
  cases nak with
  | none => rfl
  | some charge =>
    simp only [SendQueue.ackNak, SendQueue.nak, SendQueue.advance_win]
    split
    next it rest hw => rw [hw]; split <;> rfl
    next => rfl

theorem SendQueue.ackNak_pend (mt : Bool) (n : Nat) (nak : Option Bool)
    (q : SendQueue (PacketQueueItem w β)) :
    (q.ackNak mt n nak).1.pend = (q.advance mt (·.resolve .ok) n).pend := by
  cases nak with
  | none => rfl
  | some charge =>
    simp only [SendQueue.ackNak, SendQueue.nak]
    split
    · split <;> rfl
    · rfl

theorem rxHandleAcked_spec (h : Refines c q) (hopen : c.flags.busOut = false)
    {a : WireId w.idBits} (hn : (a.id - c.lastAck).toNat ≤ q.win.length) :
    Refines (rxHandleAcked c a)
        (q.advance cfg.mt (·.resolve .ok) (a.id - c.lastAck).toNat) ∧
      (rxHandleAcked c a).log = c.log ++
        (q.win.take (a.id - c.lastAck).toNat).flatMap fun it =>
          resolveLog cfg (it.resolve .ok) := by
  have hrest := (rxHandleAcked_rest c a).busOut.trans hopen
  have hsent := h.sent hopen
  have hnum := SentAt.numSent h.toHolding hsent
  generalize hm : (a.id - c.lastAck).toNat = n at hn
  obtain ⟨hq, hlog⟩ := ackPackets_spec h.toHolding hn
  have hbase := SendQueue.advance_base cfg.mt (·.resolve .ok) hn
  refine ⟨⟨?_, fun _ => ?_, by simp [hrest]⟩, ?_⟩
  · simp only [rxHandleAcked, hm]
    split
    · exact hq.congr rfl rfl rfl rfl
    · exact hq
  · have hle : q.sent - n ≤ (q.win.drop n).length := by
      have := hsent.2
      rw [List.length_drop]
      omega
    refine ⟨?_, hle⟩
    simp only [rxHandleAcked, hm, hnum, ackPackets_lastSent, SendQueue.advance_sent]
    split
    · dsimp only
      split
      · rw [hq.ack, show q.sent - n = 0 by omega, Nat.add_zero]
      · rw [hsent.1, hbase]
        congr 1
        omega
    · rw [ackPackets_lastSent, hsent.1, hbase]
      congr 1
      omega
  · simp only [rxHandleAcked, hm]
    split
    · exact hlog
    · exact hlog

theorem rxHandleAck_rest (c : Conn cfg β) (a : WireId w.idBits) :
    SameRest c (rxHandleAck c a).1 := by
  simp only [rxHandleAck]
  split
  · exact .refl c
  · split
    · exact (rxHandleAcked_rest c a).trans (rxHandleNak_rest _)
    · exact rxHandleAcked_rest c a

/-- The NAK an ACK field carries, with whether it is charged. -/
def nakOf (c : Conn cfg β) (a : WireId w.idBits) : Option Bool :=
  if a.flag then some (nakCharges (rxHandleAcked c a)) else none

theorem rxHandleAck_far {a : WireId w.idBits} (h : Holding c q)
    (hn : q.win.length < (a.id - c.lastAck).toNat) : rxHandleAck c a = (c, none, false) := by
  rw [rxHandleAck, h.numQueued, if_pos hn]

theorem rxHandleAck_spec (h : Refines c q) (hopen : c.flags.busOut = false)
    {a : WireId w.idBits} (hn : (a.id - c.lastAck).toNat ≤ q.win.length) :
    Refines (rxHandleAck c a).1
        (q.ackNak cfg.mt (a.id - c.lastAck).toNat (nakOf c a)).1 ∧
      (rxHandleAck c a).2.1 = (q.ackNak cfg.mt (a.id - c.lastAck).toNat (nakOf c a)).2 ∧
      (rxHandleAck c a).1.log = c.log ++
        ((q.win.take (a.id - c.lastAck).toNat).flatMap fun it =>
          resolveLog cfg (it.resolve .ok)) ++
        (rxHandleAck c a).2.1.toList.map .resolved := by
  obtain ⟨hq, hlog⟩ := rxHandleAcked_spec h hopen hn
  have hopen' := (rxHandleAcked_rest c a).busOut.trans hopen
  have hfar : ¬ q.win.length < (a.id - c.lastAck).toNat := by omega
  simp only [rxHandleAck, h.numQueued, if_neg hfar, nakOf]
  split
  · obtain ⟨hn, he, hl⟩ := rxHandleNak_spec hq hopen'
    refine ⟨hn, he, ?_⟩
    dsimp only
    rw [hl, hlog, he]
  · exact ⟨hq, rfl, by simpa using hlog⟩

end Ack

section Sweep

variable {c : Conn cfg β} {q : SendQueue (PacketQueueItem w β)}

theorem failPacket_eq (id : Id w) (c : Conn cfg β) :
    failPacket id c =
      { c with
        packetsQ := Function.update c.packetsQ (slot id) ((c.packetsQ (slot id)).resolve .epipe)
        log := c.log ++ resolveLog cfg ((c.packetsQ (slot id)).resolve .epipe) } := by
  rw [failPacket, confirmQueuedLock_eq]
  rfl

/-- The packets it fails are resolved in their slots, and nothing else moves. -/
theorem failQueued_eq (n : Nat) (id : Id w) (c : Conn cfg β) :
    failQueued n id c =
      { c with packetsQ := (failQueued n id c).packetsQ, log := (failQueued n id c).log } := by
  induction n generalizing id c with
  | zero => rfl
  | succ n ih =>
    rw [failQueued, failPacket_eq]
    exact ih _ _

theorem failQueued_spec {rep : Nat} {pre items : List (PacketQueueItem w β)}
    (h : Ring.Holds c.packetsQ rep (pre ++ items)) (hlen : (pre ++ items).length ≤ w.window) :
    Ring.Holds (failQueued items.length (wrap w.idBits (rep + pre.length)) c).packetsQ rep
        (pre ++ items.map (·.resolve .epipe)) ∧
      (failQueued items.length (wrap w.idBits (rep + pre.length)) c).log =
        c.log ++ items.flatMap fun it => resolveLog cfg (it.resolve .epipe) := by
  induction items generalizing c pre with
  | nil => simpa [failQueued] using h
  | cons it items ih =>
    have hup := h.update hlen (it.resolve .epipe)
    have heq := failPacket_eq (wrap w.idBits (rep + pre.length + 1)) c
    rw [slot_wrap, h.head] at heq
    have hslot : (failPacket (wrap w.idBits (rep + pre.length + 1)) c).packetsQ = _ :=
      congrArg Conn.packetsQ heq
    have hlog : (failPacket (wrap w.idBits (rep + pre.length + 1)) c).log = _ :=
      congrArg Conn.log heq
    dsimp only at hslot hlog
    rw [← hslot, List.append_cons] at hup
    obtain ⟨hslots, hlogs⟩ := ih hup (by simpa using hlen)
    rw [List.length_cons, failQueued, wrap_add_one]
    rw [List.length_append, List.length_singleton, ← Nat.add_assoc] at hslots hlogs
    refine ⟨by simpa using hslots, ?_⟩
    rw [hlogs, hlog, List.flatMap_cons, List.append_assoc]

/-- What the sweep leaves in the log of the unnumbered packet. -/
def unnumberedLog (c : Conn cfg β) : List (Ev w β) :=
  if c.flags.uHeld && !cfg.mt then
    let it := c.uPacket.resolve .epipe
    [.call (.onConfirm .unnumbered it), .ret (.onConfirm .unnumbered it)]
  else []

/-- What a sweep leaves in the log before it comes to the window. -/
def downLog (c : Conn cfg β) : List (Ev w β) := .down :: unnumberedLog c

theorem failUnnumbered_eq (c : Conn cfg β) :
    failUnnumbered c =
      { c with
        uPacket := if c.flags.uHeld then c.uPacket.resolve .epipe else c.uPacket
        uConfirm := if c.flags.uHeld && cfg.mt then c.uPacket.resolve .epipe else c.uConfirm
        flags := { c.flags with
          uConfirm := c.flags.uConfirm || (c.flags.uHeld && cfg.mt) }
        log := c.log ++ unnumberedLog c } := by
  cases hu : c.flags.uHeld <;> cases hmt : cfg.mt <;>
    simp [failUnnumbered, confirmULock, callNow, Conn.emit, unnumberedLog, hu, hmt,
      PacketQueueItem.resolve]

/-- The flags of a link that has just gone down, `uConfirm` telling that an unnumbered packet is
still to be reported. -/
def Flags.down (inited uConfirm : Bool) : Flags where
  noNak := true
  inited := inited
  discAfterTx := false
  uIdle := true
  uDone := true
  busOut := true
  uConfirm := uConfirm
  nakOut := false
  nakTracked := false
  ttlCharged := false
  ttlHold := false

theorem linkDown_eq (c : Conn cfg β) :
    linkDown c =
      { c with
        wdTimer := false
        pingTimer := false
        connState := .disconnected
        flags := .down c.flags.inited (cfg.mt && (c.flags.uConfirm || c.flags.uHeld))
        uPacket := if c.flags.uHeld then c.uPacket.resolve .epipe else c.uPacket
        uConfirm := if c.flags.uHeld && cfg.mt then c.uPacket.resolve .epipe else c.uConfirm
        log := c.log ++ downLog c } := by
  simp only [linkDown]
  rw [failUnnumbered_eq]
  have hheld : ({ c.flags with busOut := true } : Flags).uHeld = c.flags.uHeld := rfl
  simp only [Conn.emit, unnumberedLog, downLog, hheld, Flags.setIdle, Flags.clearSweep, Flags.down]
  cases cfg.mt <;> simp

theorem sweep_eq (c : Conn cfg β) :
    sweep c =
      { linkDown c with
        lastAck := c.lastQueued
        packetsQ := (sweep c).packetsQ
        log := (sweep c).log } := by
  have hqueued : (linkDown c).lastQueued = c.lastQueued := by rw [linkDown_eq]
  simp only [sweep]
  rw [failQueued_eq, hqueued]

/-- Everything the window held is failed. -/
def SendQueue.failed (mt : Bool) (q : SendQueue (PacketQueueItem w β)) :
    SendQueue (PacketQueueItem w β) := q.advance mt (·.resolve .epipe) q.win.length

theorem sweep_spec (h : Holding c q) :
    Refines (sweep c) (q.failed cfg.mt) ∧
      (sweep c).log = c.log ++ downLog c ++
        q.win.flatMap fun it => resolveLog cfg (it.resolve .epipe) := by
  have heq := sweep_eq c
  rw [linkDown_eq] at heq
  have hbase := SendQueue.advance_base cfg.mt (·.resolve .epipe) (le_refl q.win.length)
  have hack : (sweep c).lastAck = c.lastQueued := by rw [heq]
  have hqueued : (sweep c).lastQueued = c.lastQueued := by rw [heq]
  have hrep : (sweep c).lastReported = c.lastReported := by rw [heq]
  have hbusy : (sweep c).flags.busOut = true := by rw [heq]; rfl
  obtain ⟨hslots, hlog⟩ : Ring.Holds (sweep c).packetsQ q.rep
        (q.pend ++ q.win.map (·.resolve .epipe)) ∧
      (sweep c).log = c.log ++ downLog c ++
        q.win.flatMap fun it => resolveLog cfg (it.resolve .epipe) := by
    have hslots : (linkDown c).packetsQ = c.packetsQ := by rw [linkDown_eq]
    have hqueued : (linkDown c).lastQueued = c.lastQueued := by rw [linkDown_eq]
    have hack : (linkDown c).lastAck = c.lastAck := by rw [linkDown_eq]
    have hlog : (linkDown c).log = c.log ++ downLog c := by rw [linkDown_eq]
    simp only [sweep, hqueued, hack]
    rw [h.numQueued, h.ack, SendQueue.base, ← hlog]
    exact failQueued_spec (hslots ▸ h.holds) (by simpa using h.room)
  refine ⟨⟨⟨?_, ?_, ?_, ?_, ?_, ?_, ?_⟩, ?_, ?_⟩, hlog⟩
  · rw [hack, h.queued, SendQueue.failed, hbase]
  · rw [hqueued, h.queued, SendQueue.failed, hbase]
    simp
  · cases hmt : cfg.mt
    · simp [Conn.connLastReported, hmt, hack, h.queued, SendQueue.failed, SendQueue.advance,
        SendQueue.base, h.inline hmt]
    · have := h.reported
      simpa [Conn.connLastReported, hmt, hrep, SendQueue.failed, SendQueue.advance] using this
  · intro hmt
    simpa [SendQueue.failed, SendQueue.advance, hmt] using h.inline hmt
  · cases hmt : cfg.mt
    · simp [SendQueue.failed, SendQueue.advance, h.inline hmt]
    · simpa [SendQueue.failed, SendQueue.advance] using hslots
  · have := h.room
    cases hmt : cfg.mt <;> simp [SendQueue.failed, SendQueue.advance] <;> omega
  · simp [SendQueue.failed]
  · simp [hbusy]
  · simp [SendQueue.failed]

theorem undrained_iff (h : Holding c q) (hmt : cfg.mt = true) :
    undrained c = true ↔ q.pend ≠ [] ∨ c.flags.uConfirm = true := by
  have hrep := h.reported
  simp only [Conn.connLastReported, hmt, if_true] at hrep
  have hne : c.lastReported ≠ c.lastAck ↔ q.pend ≠ [] := by
    have := h.room
    have := two_window_le w
    have := window_pos w
    rw [hrep, h.ack, SendQueue.base, ne_eq, wrap_inj (by omega) (by omega),
      ← List.length_pos_iff_ne_nil]
    omega
  simp [undrained, hmt, hne]

theorem seqReset_idle (hb : c.flags.busOut = true → undrained c = true) :
    seqResetIfDrained c = c := by
  cases hbusy : c.flags.busOut with
  | false => simp [seqResetIfDrained, hbusy]
  | true => simp [seqResetIfDrained, hb hbusy]

theorem seqReset_drained (hb : c.flags.busOut = true) (hu : undrained c = false) :
    seqResetIfDrained c =
      { c with
        lastReported := if cfg.mt then 0 else c.lastReported
        lastSent := 0
        lastQueued := 0
        lastAck := 0
        lastReceived := 0
        lastSeen := 0
        flags := { c.flags with busOut := false }
        log := c.log ++ [.seqReset] } := by
  simp [seqResetIfDrained, hb, hu, Conn.emit]

theorem refines_empty {d : Conn cfg β} (hack : d.lastAck = 0) (hqueued : d.lastQueued = 0)
    (hsent : d.lastSent = 0) (hrep : cfg.mt = true → d.lastReported = 0) :
    Refines d .empty where
  ack := hack
  queued := hqueued
  reported := by
    cases hmt : cfg.mt
    · simpa [Conn.connLastReported, hmt, SendQueue.empty] using hack
    · simpa [Conn.connLastReported, hmt, SendQueue.empty] using hrep hmt
  inline _ := rfl
  holds := by simp [SendQueue.empty]
  room := by simp [SendQueue.empty]
  ttl := by simp [SendQueue.empty]
  sent _ := ⟨hsent, le_refl _⟩
  closed _ := rfl

end Sweep

section Enqueue

variable {c : Conn cfg β} {q : SendQueue (PacketQueueItem w β)}

/-- The item `ludlc_enqueue_data` fills the next slot with. -/
def Conn.queuedItem (c : Conn cfg β) (tag : Nat) (dstChan : Channel w) (buf : Buf β)
    (size ttl : Nat) : PacketQueueItem w β :=
  { c.packetsQ (slot (c.lastQueued + 1)) with
    chan := dstChan, ttl := normTtl ttl, payload := buf, size := size, tag := tag }

theorem normTtl_bounds (ttl : Nat) : 1 ≤ normTtl ttl ∧ normTtl ttl ≤ maxTtl := by
  have hmax : maxTtl = 127 := rfl
  simp only [normTtl]
  split
  · omega
  · split <;> omega

/-- A packet taken into the window. -/
def Conn.push (c : Conn cfg β) (it : PacketQueueItem w β) : Conn cfg β :=
  { c with
    packetsQ := Function.update c.packetsQ (slot (c.lastQueued + 1)) it
    lastQueued := c.lastQueued + 1
    log := c.log ++ [.accepted .numbered it] }

/-- `ludlc_enqueue_data` refuses and changes nothing, or takes the packet into an open queue that
is not full. -/
theorem enqueueData_cases (c : Conn cfg β) (tag : Nat) (dstChan : Channel w) (buf : Buf β)
    (size ttl : Nat) :
    (enqueueData c tag dstChan buf size ttl).todo = [] ∧
    ((enqueueData c tag dstChan buf size ttl).conn = c ∨
      c.flags.busOut = false ∧ c.txQueueFull = false ∧ isCtrlChan dstChan = false ∧
      (enqueueData c tag dstChan buf size ttl).requestTx = true ∧
      (enqueueData c tag dstChan buf size ttl).conn =
        c.push (c.queuedItem tag dstChan buf size ttl)) := by
  simp only [enqueueData]
  split
  · exact ⟨rfl, .inl rfl⟩
  split
  · exact ⟨rfl, .inl rfl⟩
  next hctrl =>
  split
  · exact ⟨rfl, .inl rfl⟩
  split
  · exact ⟨rfl, .inl rfl⟩
  next hopen =>
  split
  next hroom =>
    exact ⟨rfl, .inr ⟨by simpa using hopen, by simpa using hroom, by simpa using hctrl, rfl, rfl⟩⟩
  next => exact ⟨rfl, .inl rfl⟩

def SendQueue.push {α : Type} (q : SendQueue α) (x : α) : SendQueue α :=
  { q with win := q.win ++ [x] }

theorem push_spec (h : Refines c q) (hopen : c.flags.busOut = false)
    (hroom : c.txQueueFull = false) {it : PacketQueueItem w β}
    (httl : 1 ≤ it.ttl ∧ it.ttl ≤ maxTtl) : Refines (c.push it) (q.push it) := by
  have hlt : q.pend.length + q.win.length < w.window := by
    have := h.room
    have hne : ¬ q.pend.length + q.win.length = w.window := by
      rw [← h.full_iff, hroom]
      exact Bool.false_ne_true
    omega
  have hsent := h.sent hopen
  have hnext : c.lastQueued + 1 = wrap w.idBits (q.rep + (q.pend ++ q.win).length + 1) := by
    rw [h.queued, wrap_add_one, SendQueue.base, List.length_append, Nat.add_assoc q.rep]
  refine ⟨⟨h.ack, ?_, h.reported, h.inline, ?_, ?_, ?_⟩, fun _ => ⟨hsent.1, ?_⟩, ?_⟩
  · simp only [Conn.push, SendQueue.push, hnext]
    simp [SendQueue.base, Nat.add_assoc]
  · have := h.holds.push (by simpa using hlt) it
    rw [← slot_wrap, ← hnext] at this
    simpa [Conn.push, SendQueue.push] using this
  · simp only [SendQueue.push, List.length_append, List.length_cons, List.length_nil]
    omega
  · intro x hx
    simp only [SendQueue.push, List.mem_append, List.mem_singleton] at hx
    rcases hx with hx | rfl
    · exact h.ttl x hx
    · exact httl
  · simp only [SendQueue.push, List.length_append, List.length_cons, List.length_nil]
    have := hsent.2
    omega
  · simp [Conn.push, hopen]

end Enqueue

section Urgent

/-- The arguments that `ludlc_send_urgent_data` takes. -/
def uSendable (cfg : Cfg w) (dstChan : Channel w) (buf : Buf β) (size : Nat) : Bool :=
  !(buf.isNull || size = 0 || cfg.payloadLim < size) && !isCtrlChan dstChan

/-- The item `ludlc_send_urgent_data` fills the slot with. -/
def Conn.urgentItem (c : Conn cfg β) (tag : Nat) (dstChan : Channel w) (buf : Buf β)
    (size : Nat) : PacketQueueItem w β :=
  { c.uPacket with chan := dstChan, payload := buf, size := size, tag := tag }

/-- A packet taken into the unnumbered slot. -/
def Conn.hold (c : Conn cfg β) (it : PacketQueueItem w β) : Conn cfg β :=
  { c with
    uPacket := it
    flags := { c.flags with uIdle := false }
    log := c.log ++ [.accepted .unnumbered it] }

/-- `ludlc_send_urgent_data` refuses and changes nothing, or takes the packet into a free slot of
a link that is up. -/
theorem sendUrgentData_cases (c : Conn cfg β) (tag : Nat) (dstChan : Channel w) (buf : Buf β)
    (size : Nat) :
    (sendUrgentData c tag dstChan buf size).todo = [] ∧
    ((sendUrgentData c tag dstChan buf size).conn = c ∨
      c.connState = .connected ∧ c.flags.uIdle = true ∧ c.flags.uDone = true ∧
      uSendable cfg dstChan buf size = true ∧
      (sendUrgentData c tag dstChan buf size).conn =
        c.hold (c.urgentItem tag dstChan buf size)) := by
  simp only [sendUrgentData]
  split
  · exact ⟨rfl, .inl rfl⟩
  next hbuf =>
  split
  · exact ⟨rfl, .inl rfl⟩
  next hctrl =>
  split
  · exact ⟨rfl, .inl rfl⟩
  next hconn =>
  split
  · exact ⟨rfl, .inl rfl⟩
  next hfree =>
  have hfree : c.flags.uIdle = true ∧ c.flags.uDone = true := by simpa using hfree
  refine ⟨rfl, .inr ⟨by simpa using hconn, hfree.1, hfree.2, ?_, rfl⟩⟩
  simp [uSendable, hbuf, hctrl]

end Urgent

section Transmit

variable {c : Conn cfg β} {q : SendQueue (PacketQueueItem w β)}

/-- What preparing a frame leaves alone. -/
structure TxRest (c d : Conn cfg β) : Prop where
  connState : d.connState = c.connState
  inited : d.flags.inited = c.flags.inited
  discAfterTx : d.flags.discAfterTx = c.flags.discAfterTx
  busOut : d.flags.busOut = c.flags.busOut
  uConfirmF : d.flags.uConfirm = c.flags.uConfirm
  packetsQ : d.packetsQ = c.packetsQ
  uPacket : d.uPacket = c.uPacket ∨ d.uPacket = c.uPacket.resolve .ok
  uConfirm : d.uConfirm = c.uConfirm
  lastQueued : d.lastQueued = c.lastQueued
  lastAck : d.lastAck = c.lastAck
  lastReceived : d.lastReceived = c.lastReceived
  lastSeen : d.lastSeen = c.lastSeen
  lastReported : d.lastReported = c.lastReported
  reportBusy : d.reportBusy = c.reportBusy

/-- The packet in the unnumbered slot is the same, whatever its result. -/
theorem TxRest.uPacket_same {d : Conn cfg β} (h : TxRest c d) :
    d.uPacket.key = c.uPacket.key ∧ d.uPacket.payload = c.uPacket.payload := by
  rcases h.uPacket with hu | hu
  all_goals
    rw [hu]
    exact ⟨rfl, rfl⟩

/-- The next frame is a packet of the window. -/
def txNumbered (c : Conn cfg β) : Bool :=
  c.connState = .connected && c.flags.uIdle && c.lastSent ≠ c.lastQueued

/-- The next frame is the unnumbered packet. -/
def txUnnumbered (c : Conn cfg β) : Bool := c.connState = .connected && !c.flags.uIdle

theorem txAck_eq (c : Conn cfg β) (id : Id w) (ping numbered : Bool) :
    txAck c id ping numbered =
      { c with
        txHdr := (txAck c id ping numbered).txHdr
        nakTrack := (txAck c id ping numbered).nakTrack
        flags := { c.flags with
          noNak := true
          nakOut := (txAck c id ping numbered).flags.nakOut
          nakTracked := (txAck c id ping numbered).flags.nakTracked } } := by
  simp only [txAck]
  split <;> rfl

/-- What each kind of frame does to the counters and to the unnumbered slot. -/
structure TxStep (c d : Conn cfg β) : Prop extends TxRest c d where
  lastSent : d.lastSent = if txNumbered c then c.lastSent + 1 else c.lastSent
  uIdle : d.flags.uIdle = (c.flags.uIdle || txUnnumbered c)
  uDone : d.flags.uDone = !txUnnumbered c

theorem txPrep_step (c : Conn cfg β) (uDone : Bool) (hdone : c.flags.uDone = true) :
    TxStep c (txPrep c uDone).conn := by
  unfold txPrep txConnected
  split
  next hconn =>
    split
    next hidle =>
      have hidle : c.flags.uIdle = false := by simpa using hidle
      have hn : txNumbered c = false := by simp [txNumbered, hidle]
      have hu : txUnnumbered c = true := by simp [txUnnumbered, hconn, hidle]
      simp only [txUrgent]
      rw [txAck_eq]
      exact ⟨⟨rfl, rfl, rfl, rfl, rfl, rfl, .inl rfl, rfl, rfl, rfl, rfl, rfl, rfl, rfl⟩,
        by simp [hn], by simp [hu], by simp [hu]⟩
    next hidle =>
      have hidle : c.flags.uIdle = true := by simpa using hidle
      have hu : txUnnumbered c = false := by simp [txUnnumbered, hidle]
      split
      next hlast =>
        have hn : txNumbered c = false := by simp [txNumbered, hlast]
        simp only [txPing]
        rw [txAck_eq]
        exact ⟨⟨rfl, rfl, rfl, rfl, rfl, rfl, .inl rfl, rfl, rfl, rfl, rfl, rfl, rfl, rfl⟩,
          by simp [hn], by simp [hu], by simp [hu, hdone]⟩
      next hlast =>
        have hn : txNumbered c = true := by simp [txNumbered, hconn, hidle, hlast]
        simp only [txData]
        rw [txAck_eq]
        split
        all_goals
          exact ⟨⟨rfl, rfl, rfl, rfl, rfl, rfl, .inl rfl, rfl, rfl, rfl, rfl, rfl, rfl, rfl⟩,
            by simp [hn], by simp [hu], by simp [hu, hdone]⟩
  next hconn =>
    have hn : txNumbered c = false := by simp [txNumbered, hconn]
    have hu : txUnnumbered c = false := by simp [txUnnumbered, hconn]
    exact ⟨⟨rfl, rfl, rfl, rfl, rfl, rfl, .inl rfl, rfl, rfl, rfl, rfl, rfl, rfl, rfl⟩,
      by simp [hn, txHandshake], by simp [hu, txHandshake], by simp [hu, txHandshake, hdone]⟩

/-- The item the next frame carries. -/
def txItem (c : Conn cfg β) : Option (Kind × PacketQueueItem w β) :=
  if txNumbered c then some (.numbered, c.packetsQ (slot (c.lastSent + 1)))
  else if txUnnumbered c then some (.unnumbered, c.uPacket)
  else none

theorem txPrep_it (c : Conn cfg β) (uDone : Bool) : (txPrep c uDone).it = txItem c := by
  simp only [txPrep, txConnected, txItem, txNumbered, txUnnumbered]
  by_cases hconn : c.connState = .connected
  · by_cases hidle : c.flags.uIdle = true
    · by_cases hlast : c.lastSent = c.lastQueued
      · simp [hconn, hidle, hlast, txPing]
      · simp [hconn, hidle, hlast, txData]
    · simp [hconn, hidle, txUrgent]
  · simp [hconn, txHandshake]

theorem txPrep_log (c : Conn cfg β) (uDone : Bool) : (txPrep c uDone).conn.log = c.log := by
  simp only [txPrep, txConnected, txUrgent, txPing, txData]
  split
  · split
    · rw [txAck_eq]
    · split <;> rw [txAck_eq]
  · rfl

/-- The copy of the payload, as the log has it. -/
def copyLog : Option (Kind × PacketQueueItem w β) → List (Ev w β)
  | none => []
  | some (kind, it) => if it.size ≠ 0 then [.copied kind it] else []

theorem txCopy_log (mem : β → List UInt8) (p : TxPrep cfg β) :
    (txCopy mem p).1.log = p.conn.log ++ copyLog p.it := by
  unfold txCopy
  split
  next hit => rw [hit, copyLog, List.append_nil]
  next kind it hit =>
    rw [hit, copyLog]
    dsimp only
    split
    · rfl
    · rw [List.append_nil]

theorem TxStep.copy {d : TxPrep cfg β} (mem : β → List UInt8) (h : TxStep c d.conn) :
    TxStep c { (txCopy mem d).1 with pingTimer := true } := by
  unfold txCopy
  split
  · exact { h with }
  · dsimp only
    split
    · exact { h with }
    · exact { h with }

theorem TxStep.done {c d : Conn cfg β} (sent : Bool) (h : TxStep (txDone c sent) d) :
    TxStep c d where
  connState := h.connState
  inited := h.inited
  discAfterTx := h.discAfterTx
  busOut := h.busOut
  uConfirmF := h.uConfirmF
  packetsQ := h.packetsQ
  uPacket := by
    rcases h.uPacket with hu | hu <;> cases sent
    · exact .inl hu
    · exact .inr hu
    · exact .inr hu
    · exact .inr hu
  uConfirm := h.uConfirm
  lastQueued := h.lastQueued
  lastAck := h.lastAck
  lastReceived := h.lastReceived
  lastSeen := h.lastSeen
  lastReported := h.lastReported
  reportBusy := h.reportBusy
  lastSent := h.lastSent
  uIdle := h.uIdle
  uDone := h.uDone

theorem getPacketToSend_disc (mem : β → List UInt8) (hd : txDiscSent c = true) :
    getPacketToSend mem c =
      { conn := { c with flags := { c.flags with uDone := true } }
        todo := [.handleDisconnect]
        ret := .enotconn } := by
  simp only [getPacketToSend, hd, if_true]

theorem getPacketToSend_step (mem : β → List UInt8) (hd : txDiscSent c = false) :
    TxStep c (getPacketToSend mem c).conn ∧
      (getPacketToSend mem c).conn.log = c.log ++ copyLog (txItem (txDone c !c.flags.uDone)) := by
  have hstep := txPrep_step (txDone c !c.flags.uDone) (!c.flags.uDone) rfl
  simp only [getPacketToSend, hd, Bool.false_eq_true, if_false]
  constructor
  · exact (hstep.copy mem).done
  · rw [txCopy_log, txPrep_it, txPrep_log]
    rfl

theorem getPacketToSend_refines (mem : β → List UInt8) (h : Refines c q)
    (hopen : c.connState = .connected → c.flags.busOut = false) :
    Refines (getPacketToSend mem c).conn
        { q with sent := q.sent + (txNumbered c && !txDiscSent c).toNat } ∧
      (txNumbered c = true → ∃ hlt : q.sent < q.win.length,
        c.packetsQ (slot (c.lastSent + 1)) = q.win[q.sent]) := by
  have hitem : txNumbered c = true → ∃ hlt : q.sent < q.win.length,
      c.packetsQ (slot (c.lastSent + 1)) = q.win[q.sent] := by
    intro hn
    simp only [txNumbered, Bool.and_eq_true, decide_eq_true_eq] at hn
    have hsent := h.sent (hopen hn.1.1)
    have := h.room
    have := two_window_le w
    have := window_pos w
    have hne : q.sent ≠ q.win.length := by
      intro heq
      exact hn.2 (by rw [hsent.1, h.queued, heq])
    have hlt : q.sent < q.win.length := by
      have := hsent.2
      omega
    refine ⟨hlt, ?_⟩
    have hslot := h.holds (q.pend.length + q.sent) (by simp; omega)
    rw [List.getElem_append_right (by omega)] at hslot
    simp only [Nat.add_sub_cancel_left] at hslot
    rw [hsent.1, wrap_add_one, slot_wrap, ← hslot]
    congr 2
    simp only [SendQueue.base]
    omega
  refine ⟨?_, hitem⟩
  cases hd : txDiscSent c with
  | true =>
    rw [getPacketToSend_disc mem hd]
    simp only [Bool.not_true, Bool.and_false, Bool.toNat_false, Nat.add_zero]
    exact h.congr rfl rfl rfl rfl rfl rfl
  | false =>
    obtain ⟨hs, -⟩ := getPacketToSend_step mem hd
    have hold : Holding (getPacketToSend mem c).conn q :=
      h.toHolding.congr hs.lastAck hs.lastQueued hs.lastReported hs.packetsQ
    simp only [Bool.not_false, Bool.and_true]
    refine ⟨{ hold with }, fun hb => ?_, fun hb => h.closed (hs.busOut ▸ hb)⟩
    have hsent := h.sent (hs.busOut ▸ hb)
    cases hn : txNumbered c with
    | false => exact ⟨by rw [hs.lastSent, hn]; simpa using hsent.1, by simpa using hsent.2⟩
    | true =>
      obtain ⟨hlt, -⟩ := hitem hn
      refine ⟨?_, by simpa using hlt⟩
      rw [hs.lastSent, hn, if_pos rfl, hsent.1, wrap_add_one]
      rfl

end Transmit

end Ludlc
