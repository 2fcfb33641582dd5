import Ludlc.Window

/-! # Reporting with the lock released

The locked section of `ludlc_confirm_unlocked` in the multi-threaded build: what one pass takes to
report, and when it finds nothing left.
-/

namespace Ludlc

open SeqNum

variable {w : Wire} {cfg : Cfg w} {β : Type}

/-- The loop that fills a batch of at most `n`. -/
def takeBatch : Nat → Conn cfg β → Conn cfg β × List (PacketQueueItem w β)
  | 0, c => (c, [])
  | n + 1, c =>
    if c.lastReported ≠ c.lastAck then
      let id := c.lastReported + 1
      let r := takeBatch n { c with lastReported := id }
      (r.1, c.packetsQ (slot id) :: r.2)
    else (c, [])

/-- Takes the unnumbered packet saved to be reported. -/
def takeUnnumbered (c : Conn cfg β) : Conn cfg β × List (PacketQueueItem w β) :=
  if c.flags.uConfirm then ({ c with flags := { c.flags with uConfirm := false } }, [c.uConfirm])
  else (c, [])

/-- The locked section of a pass, and the callbacks it then runs before the next one. -/
def confirmPass (c : Conn cfg β) : Conn cfg β × List (Todo w β) :=
  let u := takeUnnumbered c
  let b := takeBatch cfg.confirmBatch u.1
  let c := seqResetIfDrained b.1
  if u.2 = [] ∧ b.2 = [] then ({ c with reportBusy := false }, [])
  else
    (c, u.2.map (fun it => .call (.onConfirm .unnumbered it)) ++
      b.2.map (fun it => .call (.onConfirm .numbered it)) ++ [.confirmPass])

section Batch

variable {c : Conn cfg β} {q : SendQueue (PacketQueueItem w β)}

theorem takeBatch_eq (n : Nat) (c : Conn cfg β) :
    (takeBatch n c).1 = { c with lastReported := (takeBatch n c).1.lastReported } := by
  induction n generalizing c with
  | zero => rfl
  | succ n ih =>
    rw [takeBatch]
    split
    · exact ih _
    · rfl

/-- The first `n` of those pending have been taken. -/
def SendQueue.take {α : Type} (n : Nat) (q : SendQueue α) : SendQueue α :=
  { q with rep := q.rep + min n q.pend.length, pend := q.pend.drop n }

@[simp] theorem SendQueue.take_base {α : Type} (n : Nat) (q : SendQueue α) :
    (q.take n).base = q.base := by
  simp only [SendQueue.take, SendQueue.base, List.length_drop]
  omega

theorem SendQueue.take_nil {α : Type} (n : Nat) {q : SendQueue α} (h : q.pend = []) :
    q.take n = q := by
  cases q
  simp_all [SendQueue.take]

theorem takeBatch_spec (hmt : cfg.mt = true) (n : Nat) (h : Holding c q) :
    Holding (takeBatch n c).1 (q.take n) ∧ (takeBatch n c).2 = q.pend.take n := by
  have hpos := window_pos w
  have htwo := two_window_le w
  induction n generalizing c q with
  | zero => simpa [SendQueue.take, takeBatch] using h
  | succ n ih =>
    have hroom := h.room
    have hrep : c.lastReported = wrap w.idBits q.rep := by
      simpa [Conn.connLastReported, hmt] using h.reported
    rw [takeBatch]
    cases hp : q.pend with
    | nil =>
      have heq : c.lastReported = c.lastAck := by simp [hrep, h.ack, SendQueue.base, hp]
      rw [if_neg (by simp [heq]), SendQueue.take_nil _ hp]
      exact ⟨h, by simp⟩
    | cons it pend =>
      have hne : c.lastReported ≠ c.lastAck := by
        rw [hp, List.length_cons] at hroom
        rw [hrep, h.ack, SendQueue.base, hp, List.length_cons, ne_eq,
          wrap_inj (by omega) (by omega)]
        omega
      rw [if_pos hne]
      have hhead : c.packetsQ (slot (c.lastReported + 1)) = it := by
        have hholds := h.holds
        rw [hp] at hholds
        rw [hrep, wrap_add_one, slot_wrap]
        exact Ring.Holds.head (show Ring.Holds c.packetsQ q.rep ([] ++ it :: _) from hholds)
      have hstep : Holding ({ c with lastReported := c.lastReported + 1 } : Conn cfg β)
          (q.take 1) := by
        constructor
        · rw [SendQueue.take_base]; exact h.ack
        · rw [SendQueue.take_base]; exact h.queued
        · simp only [Conn.connLastReported, hmt, if_true, hrep, wrap_add_one]
          simp [SendQueue.take, hp]
        · simp [hmt]
        · have := h.holds.drop (k := 1) (by simp [hp])
          simpa [SendQueue.take, hp] using this
        · have := h.room
          simp [SendQueue.take, hp] at this ⊢
          omega
        · exact h.ttl
      obtain ⟨hq, hb⟩ := ih hstep
      refine ⟨?_, ?_⟩
      · have heq : (q.take 1).take n = q.take (n + 1) := by
          simp only [SendQueue.take, hp, List.length_cons, List.drop_succ_cons, List.drop_zero]
          congr 1
          omega
        rwa [heq] at hq
      · simp only [hhead, hb, SendQueue.take, hp, List.drop_succ_cons, List.drop_zero,
          List.take_succ_cons]

/-- The connection after what a pass takes, before the reset it may make. -/
def taken (c : Conn cfg β) : Conn cfg β := (takeBatch cfg.confirmBatch (takeUnnumbered c).1).1

theorem taken_eq (c : Conn cfg β) :
    taken c =
      { c with
        lastReported := (taken c).lastReported
        flags := { c.flags with uConfirm := false } } := by
  rw [taken, takeBatch_eq]
  unfold takeUnnumbered
  split
  · rfl
  next hf =>
    have hf : c.flags.uConfirm = false := by simpa using hf
    rw [← hf]

theorem taken_spec (hmt : cfg.mt = true) (h : Refines c q) :
    Refines (taken c) (q.take cfg.confirmBatch) ∧
      (takeBatch cfg.confirmBatch (takeUnnumbered c).1).2 = q.pend.take cfg.confirmBatch := by
  have hu : Holding (takeUnnumbered c).1 q := by
    unfold takeUnnumbered
    split
    · exact h.toHolding.congr rfl rfl rfl rfl
    · exact h.toHolding
  obtain ⟨hq, hb⟩ := takeBatch_spec hmt cfg.confirmBatch hu
  have hbusy : (taken c).flags.busOut = c.flags.busOut := by rw [taken_eq]
  have hsent : (taken c).lastSent = c.lastSent := by rw [taken_eq]
  refine ⟨⟨hq, fun hf => ?_, fun hf => h.closed (hbusy ▸ hf)⟩, hb⟩
  obtain ⟨hs, hle⟩ := h.sent (hbusy ▸ hf)
  exact ⟨by rw [SendQueue.take_base, hsent]; exact hs, hle⟩

/-- The queue behind a pass: what it takes is gone, and with nothing left the sequence of a link
that is down starts anew. -/
theorem confirmPass_refines (hmt : cfg.mt = true) (h : Refines c q) :
    Refines (seqResetIfDrained (taken c))
      (if c.flags.busOut && !undrained (taken c) then .empty else q.take cfg.confirmBatch) := by
  obtain ⟨hq, -⟩ := taken_spec hmt h
  have hbusy : (taken c).flags.busOut = c.flags.busOut := by rw [taken_eq]
  cases hb : c.flags.busOut with
  | false =>
    rw [seqReset_idle (by simp [hbusy, hb])]
    exact hq
  | true =>
    cases hu : undrained (taken c) with
    | true =>
      rw [seqReset_idle fun _ => hu]
      exact hq
    | false =>
      rw [seqReset_drained (hbusy.trans hb) hu]
      exact refines_empty rfl rfl rfl fun _ => by simp [hmt]

end Batch

end Ludlc
