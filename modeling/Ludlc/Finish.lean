import Ludlc.Frames
import Ludlc.Reporting

/-! # Calls run to their end

What a call runs with the lock released where nothing else runs meanwhile and callbacks leave the core
alone, in either build: the multi-threaded one makes its passes until there is nothing left to report.
-/

namespace Ludlc

open SeqNum

variable {w : Wire} {cfg : Cfg w} {β : Type}

/-- The passes of `ludlc_confirm_unlocked`, until one finds nothing. -/
def reportAll : Nat → Conn cfg β → Conn cfg β
  | 0, c => c
  | n + 1, c =>
    match confirmPass c with
    | (c, []) => c
    | (c, todo) => reportAll n (todo.foldl runTodo c)

/-- `ludlc_confirm_unlocked`, or a callback. A pass takes a packet at least, of at most a window and the
unnumbered one. -/
def finishCall (c : Conn cfg β) : Todo w β → Conn cfg β
  | .confirmUnlocked =>
    if cfg.mt && !c.reportBusy then reportAll (w.window + 2) { c with reportBusy := true } else c
  | a => runTodo c a

def finishTodo (c : Conn cfg β) : Todo w β → Conn cfg β
  | .handleDisconnect => (handleDisconnect c).todo.foldl finishCall (handleDisconnect c).conn
  | a => finishCall c a

/-- A call that nothing else runs beside. -/
def Out.finish (o : Out cfg β) : Conn cfg β := o.todo.foldl finishTodo o.conn

/-- The callbacks of a report. -/
def reportTodo (items : List (PacketQueueItem w β)) : List (Todo w β) :=
  items.map fun it => .call (.onConfirm .numbered it)

@[simp] theorem reportTodo_append (l l' : List (PacketQueueItem w β)) :
    reportTodo (l ++ l') = reportTodo l ++ reportTodo l' := List.map_append

theorem reportTodo_calls {items : List (PacketQueueItem w β)} :
    ∀ a ∈ reportTodo items, ∃ cb, a = .call cb := by
  intro a ha
  obtain ⟨it, -, rfl⟩ := List.mem_map.mp ha
  exact ⟨_, rfl⟩

variable {c d : Conn cfg β} {q : SendQueue (PacketQueueItem w β)}

/-! ### The history only grows -/

theorem runTodo_log (c : Conn cfg β) (a : Todo w β) : c.log <+: (runTodo c a).log := by
  obtain ⟨evs, hlog, -⟩ := runTodo_deliveries c a
  rw [hlog]
  exact List.prefix_append _ _

theorem foldl_log {f : Conn cfg β → Todo w β → Conn cfg β} (hf : ∀ c a, c.log <+: (f c a).log)
    (todo : List (Todo w β)) (c : Conn cfg β) : c.log <+: (todo.foldl f c).log := by
  induction todo generalizing c with
  | nil => exact List.prefix_refl _
  | cons a todo ih => exact (hf c a).trans (ih _)

theorem confirmPass_log (c : Conn cfg β) : c.log <+: (confirmPass c).1.log := by
  have htaken : (takeBatch cfg.confirmBatch (takeUnnumbered c).1).1.log = c.log := by
    rw [takeBatch_eq, takeUnnumbered]
    split <;> rfl
  obtain ⟨evs, -, hlog⟩ := Threads.seqReset_log (takeBatch cfg.confirmBatch (takeUnnumbered c).1).1
  rw [htaken] at hlog
  rw [confirmPass]
  split
  all_goals
    dsimp only
    rw [hlog]
    exact List.prefix_append _ _

theorem reportAll_log (n : Nat) (c : Conn cfg β) : c.log <+: (reportAll n c).log := by
  induction n generalizing c with
  | zero => exact List.prefix_refl _
  | succ n ih =>
    have hpass := confirmPass_log c
    rw [reportAll]
    split
    next c' heq =>
      rw [heq] at hpass
      exact hpass
    next c' todo _ heq =>
      rw [heq] at hpass
      exact hpass.trans ((foldl_log runTodo_log todo c').trans (ih _))

theorem finishCall_log (c : Conn cfg β) (a : Todo w β) : c.log <+: (finishCall c a).log := by
  unfold finishCall
  split
  · split
    · exact reportAll_log _ { c with reportBusy := true }
    · exact List.prefix_refl _
  · exact runTodo_log c a

theorem finish_log (c : Conn cfg β) (a : Call w β) : c.log <+: (a.run c).finish.log := by
  obtain ⟨evs, hlog, -⟩ := run_hushed c a
  have hrun : c.log <+: (a.run c).conn.log := hlog ▸ List.prefix_append _ _
  apply hrun.trans
  apply foldl_log
  intro d b
  unfold finishTodo
  split
  · obtain ⟨evs', hlog', -⟩ := run_hushed d .handleDisconnect
    have hdown : d.log <+: (handleDisconnect d).conn.log := hlog' ▸ List.prefix_append _ _
    exact hdown.trans (foldl_log finishCall_log _ _)
  · exact finishCall_log d b

theorem confirmPass_eq (hmt : cfg.mt = true) (h : Holding c q) (hopen : c.flags.busOut = false)
    (hu : c.flags.uConfirm = false) :
    Holding (takeBatch cfg.confirmBatch c).1 (q.take cfg.confirmBatch) ∧
      confirmPass c =
        if q.pend = [] then ({ (takeBatch cfg.confirmBatch c).1 with reportBusy := false }, [])
        else ((takeBatch cfg.confirmBatch c).1,
          reportTodo (q.pend.take cfg.confirmBatch) ++ [.confirmPass]) := by
  obtain ⟨hq, hitems⟩ := takeBatch_spec hmt cfg.confirmBatch h
  have hbusy : (takeBatch cfg.confirmBatch c).1.flags.busOut = false := by rw [takeBatch_eq]; exact hopen
  have hreset : seqResetIfDrained (takeBatch cfg.confirmBatch c).1 = (takeBatch cfg.confirmBatch c).1 :=
    seqReset_idle (by simp [hbusy])
  have hfirst : takeUnnumbered c = (c, []) := by simp [takeUnnumbered, hu]
  have hbatch := cfg.batch_ok
  have hnil : q.pend.take cfg.confirmBatch = [] ↔ q.pend = [] := by
    rw [List.take_eq_nil_iff]
    exact ⟨fun h => h.resolve_left hbatch.ne', .inr⟩
  refine ⟨hq, ?_⟩
  simp only [confirmPass, hfirst, hitems, hreset, hnil, true_and, List.map_nil, List.nil_append]
  rfl

/-- Everything pending is reported, and the report ends. -/
theorem reportAll_spec (hmt : cfg.mt = true) {n : Nat} (h : Holding c q)
    (hopen : c.flags.busOut = false) (hu : c.flags.uConfirm = false) (hn : q.pend.length < n) :
    reportAll n c =
      { c with
        lastReported := c.lastAck
        reportBusy := false
        log := c.log ++ todoLog (reportTodo q.pend) } := by
  induction n generalizing c q with
  | zero => omega
  | succ n ih =>
    obtain ⟨hq, hpass⟩ := confirmPass_eq hmt h hopen hu
    have heq := takeBatch_eq cfg.confirmBatch c
    generalize (takeBatch cfg.confirmBatch c).1 = b at hq hpass heq
    have hack : b.lastAck = c.lastAck := by rw [heq]
    have hlog : b.log = c.log := by rw [heq]
    rw [reportAll, hpass]
    rcases eq_or_ne q.pend [] with hp | hp
    · have hrep : b.lastReported = c.lastAck := by
        have hreported := hq.reported
        simp only [Conn.connLastReported, hmt, if_true, SendQueue.take_nil _ hp] at hreported
        rw [hreported, h.ack, SendQueue.base, hp, List.length_nil, Nat.add_zero]
      rw [if_pos hp]
      dsimp only
      rw [heq, hrep, hp]
      simp [reportTodo, todoLog]
    · have hno : (.handleDisconnect : Todo w β) ∉
          reportTodo (q.pend.take cfg.confirmBatch) ++ [.confirmPass] := by
        intro hmem
        rcases List.mem_append.mp hmem with hmem | hmem
        · obtain ⟨cb, hcb⟩ := reportTodo_calls _ hmem
          cases hcb
        · cases List.mem_singleton.mp hmem
      have hsettle := settle_eq (o := ⟨b, _, false, .ok, none⟩) hno
      rw [if_neg hp]
      rw [Out.settle] at hsettle
      dsimp only at hsettle ⊢
      split
      next hnil => simp at hnil
      next c' todo hcons =>
      obtain ⟨rfl, rfl⟩ := Prod.mk.inj hcons
      rw [hsettle, ih (q := q.take cfg.confirmBatch)]
      · simp only [hack, hlog, SendQueue.take]
        rw [heq]
        dsimp only
        congr 1
        have hall := List.take_append_drop cfg.confirmBatch q.pend
        conv_rhs => rw [← hall]
        rw [reportTodo_append, todoLog_append, todoLog_append, List.append_assoc, List.append_assoc]
        rfl
      · exact hq.congr rfl rfl rfl rfl
      · rw [heq]
        exact hopen
      · rw [heq]
        exact hu
      · have hbatch := cfg.batch_ok
        have hlen := List.length_pos_iff_ne_nil.mpr hp
        rw [SendQueue.take, List.length_drop]
        omega

/-- Nothing is left to report where a call ends. -/
theorem finish_confirm (h : Holding c q) (hopen : c.flags.busOut = false)
    (hu : c.flags.uConfirm = false) (hbusy : c.reportBusy = false) :
    finishTodo c .confirmUnlocked =
      { c with
        lastReported := if cfg.mt then c.lastAck else c.lastReported
        log := c.log ++ todoLog (reportTodo q.pend) } := by
  rw [finishTodo, finishCall]
  · cases hmt : cfg.mt with
    | false => simp [h.inline hmt, reportTodo, todoLog]
    | true =>
      have hroom := h.room
      have hheld : Holding ({ c with reportBusy := true } : Conn cfg β) q := h.congr rfl rfl rfl rfl
      have hfree : (true && !c.reportBusy) = true := by rw [hbusy]; rfl
      rw [if_pos hfree, reportAll_spec hmt hheld hopen hu (by omega)]
      simp only [if_true, hbusy]
  · simp

/-- Callbacks only. -/
theorem finish_calls {todo : List (Todo w β)} (h : ∀ a ∈ todo, ∃ cb, a = .call cb) (c : Conn cfg β) :
    todo.foldl finishTodo c = { c with log := c.log ++ todoLog todo } := by
  induction todo generalizing c with
  | nil => simp [todoLog]
  | cons a todo ih =>
    obtain ⟨⟨cb, rfl⟩, hrest⟩ := List.forall_mem_cons.mp h
    rw [List.foldl_cons, ih hrest]
    simp [finishTodo, finishCall, runTodo, callNow, Conn.emit, todoLog]

theorem Refines.settled (h : Refines c q)
    (hd : d = { c with
      lastReported := if cfg.mt then c.lastAck else c.lastReported
      log := d.log }) : Refines d q.settled := by
  have hack : d.lastAck = c.lastAck := by rw [hd]
  have hbusy : d.flags.busOut = c.flags.busOut := by rw [hd]
  refine ⟨⟨?_, ?_, ?_, fun _ => rfl, ?_, ?_, h.ttl⟩, fun hb => ?_, fun hb => ?_⟩
  · rw [hack, h.ack, SendQueue.settled_base]
  · rw [SendQueue.settled_base, hd]
    exact h.queued
  · rw [Conn.connLastReported, hack, SendQueue.settled]
    dsimp only
    split
    next hmt => rw [hd]; simp [hmt, h.ack]
    next => exact h.ack
  · have hslots : d.packetsQ = c.packetsQ := by rw [hd]
    have hwin := h.holds.drop (k := q.pend.length) (by simp)
    rw [List.drop_left] at hwin
    rw [hslots]
    exact hwin
  · have := h.room
    simp only [SendQueue.settled, List.length_nil]
    omega
  · obtain ⟨hs, hle⟩ := h.sent (hbusy ▸ hb)
    refine ⟨?_, hle⟩
    rw [SendQueue.settled_base, hd]
    exact hs
  · exact h.closed (hbusy ▸ hb)

end Ludlc
