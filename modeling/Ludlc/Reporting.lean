import Ludlc.Threads

/-! # Every numbered packet is given back once

The invariant of the multi-threaded build for numbered packets, and what follows from it: each is
reported at most once and with the result that was decided, none that has left the window stays
unreported, and no payload is read after its packet has been reported. All of it rests on a session
starting with its sequence reset, and fails without.
-/

namespace Ludlc.Threads

open SeqNum Runs

variable {w : Wire} {cfg : Cfg w} {β T : Type}

section Pass

variable {c : Conn cfg β} {q : SendQueue (PacketQueueItem w β)}

def isPass : Todo w β → Bool
  | .confirmPass => true
  | _ => false

/-- How many times a thread is the reporter. -/
def passes (todo : List (Todo w β)) : Nat := todo.countP isPass

@[simp] theorem passes_append (l l' : List (Todo w β)) : passes (l ++ l') = passes l + passes l' :=
  List.countP_append

@[simp] theorem passes_cons (a : Todo w β) (l : List (Todo w β)) :
    passes (a :: l) = passes l + (isPass a).toNat := by
  cases h : isPass a <;> simp [passes, h]

theorem passes_eq_zero {todo : List (Todo w β)} (h : .confirmPass ∉ todo) : passes todo = 0 := by
  rw [passes, List.countP_eq_zero]
  intro a ha hp
  cases a <;> first | exact absurd ha h | simp [isPass] at hp

theorem handItems_numbered (l : List (PacketQueueItem w β)) :
    handItems (l.map fun it => Todo.call (.onConfirm .numbered it)) = l := by
  induction l with
  | nil => rfl
  | cons it l ih => exact congrArg (it :: ·) ih

theorem handItems_unnumbered (l : List (PacketQueueItem w β)) :
    handItems (l.map fun it => Todo.call (.onConfirm .unnumbered it)) = [] := by
  induction l with
  | nil => rfl
  | cons it l ih => exact ih

theorem seqReset_log (c : Conn cfg β) :
    ∃ evs, Quiet evs ∧ (seqResetIfDrained c).log = c.log ++ evs := by
  unfold seqResetIfDrained
  split
  · exact ⟨[], quiet_nil, by simp⟩
  split
  · exact ⟨[], quiet_nil, by simp⟩
  · exact ⟨[.seqReset], quiet_seqReset, rfl⟩

@[simp] theorem seqReset_connState (c : Conn cfg β) :
    (seqResetIfDrained c).connState = c.connState := by
  unfold seqResetIfDrained
  repeat' split
  all_goals rfl

@[simp] theorem seqReset_reportBusy (c : Conn cfg β) :
    (seqResetIfDrained c).reportBusy = c.reportBusy := by
  unfold seqResetIfDrained
  repeat' split
  all_goals rfl

theorem seqReset_busOut {c : Conn cfg β} (h : c.flags.busOut = false) :
    (seqResetIfDrained c).flags.busOut = false := by
  rw [seqReset_idle (by simp [h]), h]

/-- What a pass of `ludlc_confirm_unlocked` takes, it takes from the front of what is pending, and
it ends only with nothing left. -/
structure PassEffect (c : Conn cfg β) (q q' : SendQueue (PacketQueueItem w β)) : Prop where
  refines : Refines (confirmPass c).1 q'
  fresh : (confirmPass c).1.connState = .connected → (confirmPass c).1.flags.busOut = false
  win : q'.win = q.win
  pend : q.pend = handItems (confirmPass c).2 ++ q'.pend
  log : ∃ evs, Quiet evs ∧ (confirmPass c).1.log = c.log ++ evs
  ends : (passes (confirmPass c).2 = 0 ∧ (confirmPass c).1.reportBusy = false ∧ q'.pend = []) ∨
    (passes (confirmPass c).2 = 1 ∧ (confirmPass c).1.reportBusy = c.reportBusy)

theorem confirmPass_effect (hmt : cfg.mt = true) (h : Refines c q)
    (hc : c.connState = .connected → c.flags.busOut = false) : ∃ q', PassEffect c q q' := by
  obtain ⟨hq, hb⟩ := taken_spec hmt h
  have href := confirmPass_refines hmt h
  have hlog : ∃ evs, Quiet evs ∧ (seqResetIfDrained (taken c)).log = c.log ++ evs := by
    have : (taken c).log = c.log := by rw [taken_eq]
    rw [← this]
    exact seqReset_log _
  have hfresh : (seqResetIfDrained (taken c)).connState = .connected →
      (seqResetIfDrained (taken c)).flags.busOut = false := by
    intro hconn
    refine seqReset_busOut ?_
    rw [seqReset_connState, taken_eq] at hconn
    rw [taken_eq]
    exact hc hconn
  have hbusy : (seqResetIfDrained (taken c)).reportBusy = c.reportBusy := by
    rw [seqReset_reportBusy, taken_eq]
  -- The queue that a reset leaves is empty, and so was what it found.
  obtain ⟨q', hq', hwin, hpend⟩ : ∃ q', Refines (seqResetIfDrained (taken c)) q' ∧
      q'.win = q.win ∧ q.pend = q.pend.take cfg.confirmBatch ++ q'.pend := by
    refine ⟨_, href, ?_⟩
    split
    next hr =>
      simp only [Bool.and_eq_true, Bool.not_eq_true'] at hr
      have hnone : (q.take cfg.confirmBatch).pend = [] := by
        by_contra hne
        have := (undrained_iff hq.toHolding hmt).mpr (.inl hne)
        rw [hr.2] at this
        cases this
      refine ⟨(h.closed hr.1).symm, ?_⟩
      conv_lhs => rw [← List.take_append_drop cfg.confirmBatch q.pend]
      rw [show q.pend.drop cfg.confirmBatch = [] from hnone]
      rfl
    · exact ⟨rfl, (List.take_append_drop _ _).symm⟩
  refine ⟨q', ?_⟩
  have hnone : ∀ (kind : Kind) (l : List (PacketQueueItem w β)), passes (l.map fun it =>
      Todo.call (.onConfirm kind it)) = 0 := by
    intro kind l
    exact passes_eq_zero (by simp)
  by_cases hempty : (takeUnnumbered c).2 = [] ∧ q.pend.take cfg.confirmBatch = []
  · have heq : confirmPass c = ({ seqResetIfDrained (taken c) with reportBusy := false }, []) := by
      simp only [confirmPass, hb, hempty, and_self, if_true]
      rfl
    have hpend' : q'.pend = [] := by
      have := cfg.batch_ok
      rcases List.take_eq_nil_iff.mp hempty.2 with h0 | h0
      · omega
      · rw [h0] at hpend
        simpa using hpend
    refine ⟨?_, ?_, hwin, ?_, ?_, ?_⟩
    all_goals rw [heq]
    · exact hq'.congr rfl rfl rfl rfl rfl rfl
    · exact hfresh
    · rw [hpend, hempty.2]
      rfl
    · exact hlog
    · exact .inl ⟨rfl, rfl, hpend'⟩
  · have heq : confirmPass c = (seqResetIfDrained (taken c),
        (takeUnnumbered c).2.map (fun it => .call (.onConfirm .unnumbered it)) ++
        (q.pend.take cfg.confirmBatch).map (fun it => .call (.onConfirm .numbered it)) ++
        [.confirmPass]) := by
      simp only [confirmPass, hb, hempty, if_false]
      rfl
    refine ⟨?_, ?_, hwin, ?_, ?_, ?_⟩
    all_goals rw [heq]
    · exact hq'
    · exact hfresh
    · simp only [handItems_append, handItems_numbered, handItems_unnumbered]
      rw [List.nil_append, show handItems [(.confirmPass : Todo w β)] = [] from rfl,
        List.append_nil]
      exact hpend
    · exact hlog
    · refine .inr ⟨?_, hbusy⟩
      simp only [passes_append, hnone]
      rfl

end Pass

section Total

variable [Fintype T] {M : Type} [AddCommMonoid M]

/-- What all threads have together, each by its own list. -/
def total (f : List (Todo w β) → M) (todo : T → List (Todo w β)) : M := ∑ t, f (todo t)

theorem total_eq_zero {f : List (Todo w β) → M} {todo : T → List (Todo w β)}
    (h : ∀ t, f (todo t) = 0) : total f todo = 0 :=
  Finset.sum_eq_zero fun t _ => h t

variable [DecidableEq T]

theorem total_update (f : List (Todo w β) → M) (todo : T → List (Todo w β)) (t : T)
    (l : List (Todo w β)) :
    total f (Function.update todo t l) = f l + ∑ t' ∈ Finset.univ.erase t, f (todo t') := by
  rw [total, ← Finset.add_sum_erase _ _ (Finset.mem_univ t), Function.update_self]
  refine congrArg (f l + ·) (Finset.sum_congr rfl fun t' ht' => ?_)
  rw [Function.update_of_ne (Finset.ne_of_mem_erase ht')]

theorem total_exchange {f : List (Todo w β) → M} {todo : T → List (Todo w β)} {t : T}
    {l : List (Todo w β)} {x y : M} (h : f (todo t) + x = y + f l) :
    total f todo + x = y + total f (Function.update todo t l) := by
  conv_lhs => rw [← Function.update_eq_self t todo]
  rw [total_update, total_update, add_right_comm, h, add_assoc]

theorem total_add {f : List (Todo w β) → M} {todo : T → List (Todo w β)} {t : T}
    {l : List (Todo w β)} {x : M} (h : f l = x + f (todo t)) :
    total f (Function.update todo t l) = x + total f todo := by
  have hx : f (todo t) + x = 0 + f l := by rw [h, zero_add, add_comm]
  rw [← zero_add (total f _), ← total_exchange hx, add_comm]

theorem total_sub {f : List (Todo w β) → M} {todo : T → List (Todo w β)} {t : T}
    {l : List (Todo w β)} {x : M} (h : f (todo t) = x + f l) :
    total f todo = x + total f (Function.update todo t l) := by
  rw [← total_exchange (x := 0) (by rw [add_zero, h]), add_zero]

end Total

/-- What one thread has still to do stays in some thread's list as long as it stays in that one's. -/
theorem exists_update [DecidableEq T] {x : Todo w β} {todo : T → List (Todo w β)} {t : T}
    {l : List (Todo w β)} (h : ∃ t', x ∈ todo t') (hmem : x ∈ todo t → x ∈ l) :
    ∃ t', x ∈ Function.update todo t l t' := by
  obtain ⟨t', ht'⟩ := h
  refine ⟨t', ?_⟩
  by_cases heq : t' = t
  · subst heq
    rw [Function.update_self]
    exact hmem ht'
  · rwa [Function.update_of_ne heq]

variable [Fintype T]

/-- The packets in the hands of the threads, to be given back. -/
def inHand (todo : T → List (Todo w β)) : Multiset (PacketQueueItem w β) :=
  total (fun l => (handItems l : Multiset (PacketQueueItem w β))) todo

/-- What holds in every state: every packet accepted is in the window or decided, and every packet
decided has been reported, is in the hands of a thread, or waits for the reporter, of which there is
one exactly while `report_busy` is set. -/
structure Inv (s : Sys cfg β T) (q : SendQueue (PacketQueueItem w β)) : Prop where
  refines : Refines s.conn q
  fresh : s.conn.connState = .connected → s.conn.flags.busOut = false
  tagged : Tagged (acceptedKeys s.conn.log) s.conn.log.length
  keys : acceptedKeys s.conn.log =
    (resolvedItems s.conn.log).map (·.key) ++ q.win.map (·.key)
  items : (resolvedItems s.conn.log : Multiset (PacketQueueItem w β)) =
    confirmedItems s.conn.log + inHand s.todo + q.pend
  reporter : total passes s.todo = s.conn.reportBusy.toNat
  report : q.pend ≠ [] → s.conn.reportBusy = true ∨ ∃ t, .confirmUnlocked ∈ s.todo t

theorem inv_init : Inv (Sys.init cfg β T) .empty where
  refines := refines_empty rfl rfl rfl fun _ => rfl
  fresh := fun h => by cases h
  tagged := tagged_nil
  keys := rfl
  items := by
    have : inHand (w := w) (β := β) (T := T) (fun _ => []) = 0 := total_eq_zero fun _ => rfl
    simp only [Sys.init, this]
    rfl
  reporter := total_eq_zero fun _ => rfl
  report := by simp [SendQueue.empty]

variable {s : Sys cfg β T} {q : SendQueue (PacketQueueItem w β)}

theorem Inv.resolved_nodup (h : Inv s q) : ((resolvedItems s.conn.log).map (·.key)).Nodup := by
  have := h.tagged.nodup
  rw [h.keys] at this
  exact this.of_append_left

theorem Inv.confirmed_le (h : Inv s q) :
    (confirmedItems s.conn.log : Multiset (PacketQueueItem w β)) ≤ resolvedItems s.conn.log := by
  rw [h.items, add_assoc]
  exact Multiset.le_add_right _ _

theorem Inv.confirmed_nodup (h : Inv s q) : (confirmedKeys s.conn.log).Nodup := by
  have hle := Multiset.map_le_map (f := (·.key)) h.confirmed_le
  rw [Multiset.map_coe, Multiset.map_coe] at hle
  exact Multiset.coe_nodup.mp (Multiset.nodup_of_le hle (Multiset.coe_nodup.mpr h.resolved_nodup))

/-- With every thread outside the core there is no reporter and nothing to report. -/
theorem Inv.idle (h : Inv s q) (hidle : ∀ t, s.todo t = []) :
    s.conn.reportBusy = false ∧ q.pend = [] ∧
      (resolvedItems s.conn.log : Multiset (PacketQueueItem w β)) = confirmedItems s.conn.log := by
  have hhand : inHand s.todo = 0 := total_eq_zero fun t => by rw [hidle]; rfl
  have hnone : total passes s.todo = 0 := total_eq_zero fun t => by rw [hidle]; rfl
  have hbusy : s.conn.reportBusy = false := by
    have := h.reporter
    rw [hnone] at this
    simpa using this.symm
  have hpend : q.pend = [] := by
    by_contra hne
    rcases h.report hne with hb | ⟨t, ht⟩
    · rw [hbusy] at hb
      cases hb
    · rw [hidle] at ht
      cases ht
  refine ⟨hbusy, hpend, ?_⟩
  rw [h.items, hhand, hpend, add_zero, Multiset.coe_nil, add_zero]

/-- With every thread outside the core, all that has been decided has been confirmed. -/
theorem Inv.confirmed_all (h : Inv s q) (hidle : ∀ t, s.todo t = []) {it : PacketQueueItem w β}
    (hit : it ∈ resolvedItems s.conn.log) : it ∈ confirmedItems s.conn.log := by
  obtain ⟨-, -, heq⟩ := h.idle hidle
  exact Multiset.mem_coe.mp (heq ▸ Multiset.mem_coe.mpr hit)

variable [DecidableEq T]

theorem Inv.effect {t : T} {o : Out cfg β} {q' : SendQueue (PacketQueueItem w β)}
    {new : List (Key w β)} {done exp : List (PacketQueueItem w β)} {rest : List (Todo w β)}
    (h : Inv s q) (he : Effect s.conn o q q' new done exp)
    (hhand : handItems (s.todo t) = handItems rest) (hpass : passes (s.todo t) = passes rest)
    (hun : .confirmUnlocked ∈ s.todo t → .confirmUnlocked ∈ rest) :
    Inv ⟨o.conn, Function.update s.todo t (o.todo ++ rest)⟩ q' where
  refines := he.refines
  fresh := he.fresh
  tagged := h.tagged.append he.accepted he.grows he.tags.1 he.tags.2
  keys := by
    have hkeys := he.keys
    rw [he.accepted, he.resolved, h.keys, List.append_assoc, hkeys]
    simp
  items := by
    have hin : inHand (Function.update s.todo t (o.todo ++ rest)) = exp + inHand s.todo := by
      refine total_add ?_
      rw [handItems_append, he.hand, hhand, Multiset.coe_add]
    rw [he.resolved, he.confirmed, hin, he.pend, ← Multiset.coe_add, ← Multiset.coe_add,
      ← Multiset.coe_add, h.items]
    abel
  reporter := by
    have : total passes (Function.update s.todo t (o.todo ++ rest)) =
        0 + total passes s.todo := by
      refine total_add ?_
      rw [passes_append, passes_eq_zero he.noPass, hpass]
    rw [this, h.reporter, he.busy, Nat.zero_add]
  report := by
    intro hne
    dsimp only
    rw [he.busy]
    by_cases hdone : done = []
    · rw [he.pend, hdone, List.append_nil] at hne
      exact (h.report hne).imp_right fun hex =>
        exists_update hex fun ht => List.mem_append_right _ (hun ht)
    · refine .inr ⟨t, ?_⟩
      rw [Function.update_self]
      exact List.mem_append_left _ (he.report hdone)

theorem Inv.pop {t : T} {a : Todo w β} {rest l : List (Todo w β)} {c : Conn cfg β}
    {e : List (Ev w β)} (h : Inv s q) (ht : s.todo t = a :: rest)
    (hrefines : Refines c q) (hstate : c.connState = s.conn.connState)
    (hflags : c.flags = s.conn.flags) (hlog : c.log = s.conn.log ++ e)
    (hacc : acceptedKeys e = []) (hres : resolvedItems e = [])
    (hhand : (handItems (a :: rest) : Multiset (PacketQueueItem w β)) =
      confirmedItems e + handItems l)
    (hbusy : passes l + s.conn.reportBusy.toNat = passes (a :: rest) + c.reportBusy.toNat)
    (hreport : s.conn.reportBusy = true → c.reportBusy = true)
    (hun : a = .confirmUnlocked → c.reportBusy = true)
    (hmem : ∀ b, b ∈ rest → b ∈ l) : Inv ⟨c, Function.update s.todo t l⟩ q where
  refines := hrefines
  fresh hc := by
    dsimp only
    rw [hflags]
    exact h.fresh (hstate ▸ hc)
  tagged := h.tagged.later (by simp [hlog, hacc]) (by simp [hlog])
  keys := by simp [hlog, hacc, hres, h.keys]
  items := by
    have hin : inHand s.todo = confirmedItems e + inHand (Function.update s.todo t l) := by
      refine total_sub ?_
      rw [ht, hhand]
    have := h.items
    rw [hin] at this
    simp only [hlog, resolvedItems_append, hres, List.append_nil, confirmedItems_append,
      ← Multiset.coe_add, this]
    abel
  reporter := by
    have := h.reporter
    have hold := total_update passes s.todo t (s.todo t)
    rw [Function.update_eq_self, ht] at hold
    have hnew := total_update passes s.todo t l
    dsimp only
    omega
  report := by
    intro hne
    rcases h.report hne with hb | hex
    · exact .inl (hreport hb)
    · by_cases ha : a = .confirmUnlocked
      · exact .inl (hun ha)
      · refine .inr (exists_update hex fun hin => ?_)
        rw [ht] at hin
        exact hmem _ ((List.mem_cons.mp hin).resolve_left (Ne.symm ha))

theorem Inv.pass {t : T} {rest : List (Todo w β)} {q' : SendQueue (PacketQueueItem w β)}
    (h : Inv s q) (ht : s.todo t = .confirmPass :: rest) (he : PassEffect s.conn q q') :
    Inv ⟨(confirmPass s.conn).1,
      Function.update s.todo t ((confirmPass s.conn).2 ++ rest)⟩ q' := by
  obtain ⟨evs, hevs, hlog⟩ := he.log
  have hreporter := h.reporter
  have hold := total_update passes s.todo t (s.todo t)
  rw [Function.update_eq_self, ht, passes_cons] at hold
  have hnew := total_update passes s.todo t ((confirmPass s.conn).2 ++ rest)
  rw [passes_append] at hnew
  have hbusy : s.conn.reportBusy = true := by
    cases hb : s.conn.reportBusy with
    | true => rfl
    | false => simp only [hb, isPass, Bool.toNat_true, Bool.toNat_false] at hold hreporter; omega
  refine ⟨he.refines, he.fresh, ?_, ?_, ?_, ?_, fun hne => .inl ?_⟩
  · exact h.tagged.later (by simp [hlog, hevs.accepted]) (by simp [hlog])
  · simp [hlog, hevs.accepted, hevs.resolved, h.keys, he.win]
  · have hin : inHand (Function.update s.todo t ((confirmPass s.conn).2 ++ rest)) =
        handItems (confirmPass s.conn).2 + inHand s.todo := by
      refine total_add ?_
      rw [handItems_append, ht, ← Multiset.coe_add]
      rfl
    have hitems := h.items
    rw [he.pend, ← Multiset.coe_add] at hitems
    simp only [hlog, resolvedItems_append, hevs.resolved, confirmedItems_append, hevs.confirmed,
      List.append_nil, hin, hitems]
    abel
  · simp only [isPass, hbusy, Bool.toNat_true] at hold hreporter
    rcases he.ends with ⟨hp, hb, -⟩ | ⟨hp, hb⟩
    · simp only [hb, Bool.toNat_false]
      omega
    · simp only [hb, hbusy, Bool.toNat_true]
      omega
  · rcases he.ends with ⟨-, -, hnil⟩ | ⟨-, hb⟩
    · exact absurd hnil hne
    · exact hb.trans hbusy

theorem inv_run (hmt : cfg.mt = true) {t : T} {c : Conn cfg β} {l : List (Todo w β)}
    (h : Inv s q) (hr : runNext s.conn (s.todo t) = some (c, l)) :
    ∃ q', Inv ⟨c, Function.update s.todo t l⟩ q' := by
  have hold : ∀ d : Conn cfg β, d.lastAck = s.conn.lastAck → d.lastQueued = s.conn.lastQueued →
      d.lastReported = s.conn.lastReported → d.packetsQ = s.conn.packetsQ →
      d.lastSent = s.conn.lastSent → d.flags = s.conn.flags → Refines d q := by
    intro d hack hqueued hrep hslots hsent hflags
    exact ⟨h.refines.toHolding.congr hack hqueued hrep hslots,
      by rw [hflags]; simpa [SentAt, hsent] using h.refines.sent, by rw [hflags]; exact h.refines.closed⟩
  cases ht : s.todo t with
  | nil => simp [ht, runNext] at hr
  | cons a rest =>
    rw [ht] at hr
    cases a with
    | call cb =>
      simp only [runNext, Option.some.injEq, Prod.mk.injEq] at hr
      obtain ⟨rfl, rfl⟩ := hr
      refine ⟨q, h.pop (e := [.call cb]) ht (hold _ rfl rfl rfl rfl rfl rfl) rfl rfl rfl rfl rfl
        ?_ (by simp [isPass]) id (by simp) (fun b hb => List.mem_cons_of_mem _ hb)⟩
      cases hg : cb.gives <;> simp [handItems, confirmedItems, hg]
    | ret cb =>
      simp only [runNext, Option.some.injEq, Prod.mk.injEq] at hr
      obtain ⟨rfl, rfl⟩ := hr
      exact ⟨q, h.pop (e := [.ret cb]) ht (hold _ rfl rfl rfl rfl rfl rfl) rfl rfl rfl rfl rfl
        (by simp [handItems, confirmedItems]) (by simp [isPass]) id (by simp) (fun _ hb => hb)⟩
    | confirmUnlocked =>
      simp only [runNext] at hr
      split at hr
      next hb =>
        simp only [Option.some.injEq, Prod.mk.injEq] at hr
        obtain ⟨rfl, rfl⟩ := hr
        exact ⟨q, h.pop (e := []) ht h.refines rfl rfl (by simp) rfl rfl
          (by simp [handItems, confirmedItems]) (by simp [isPass]) id (fun _ => hb)
          (fun _ hb => hb)⟩
      next hb =>
        simp only [Option.some.injEq, Prod.mk.injEq] at hr
        obtain ⟨rfl, rfl⟩ := hr
        exact ⟨q, h.pop (e := []) ht (hold _ rfl rfl rfl rfl rfl rfl) rfl rfl (by simp) rfl rfl
          (by simp [handItems, confirmedItems]) (by simp [isPass, hb]) (fun _ => rfl)
          (fun _ => rfl) (fun _ hb => List.mem_cons_of_mem _ hb)⟩
    | confirmPass =>
      simp only [runNext, Option.some.injEq, Prod.mk.injEq] at hr
      obtain ⟨rfl, rfl⟩ := hr
      obtain ⟨q', he⟩ := confirmPass_effect hmt h.refines h.fresh
      exact ⟨q', h.pass ht he⟩
    | handleDisconnect =>
      simp only [runNext, Option.some.injEq, Prod.mk.injEq] at hr
      obtain ⟨rfl, rfl⟩ := hr
      obtain ⟨q', done, he, -⟩ := handleDisconnect_effect hmt h.refines h.fresh
      exact ⟨q', h.effect he (by simp [ht, handItems]) (by simp [ht, isPass])
        (by simp [ht])⟩

/-- The states that runs reach in which every session starts with its sequence reset. -/
abbrev Reaches (rx tx : T) (s : Sys cfg β T) : Prop :=
  Reachable (Sys.init cfg β T) (step rx tx) (fun s a => freshStart s a = true) s

theorem inv_step (hmt : cfg.mt = true) {rx tx : T} {a : Act w β T} {s' : Sys cfg β T}
    (h : ∃ q, Inv s q) (hfresh : freshStart s a = true) (hs : step rx tx s a = some s') :
    ∃ q, Inv s' q := by
  obtain ⟨q, h⟩ := h
  cases a with
  | call t a =>
    simp only [step] at hs
    split at hs
    next =>
      cases hs
      obtain ⟨q', new, done, exp, he⟩ := call_effect hmt h.refines h.fresh a fun p pktSz tstamp ha => by
        subst ha
        exact (Bool.not_eq_true' _).mp hfresh
      exact ⟨q', h.effect he rfl rfl id⟩
    next => cases hs
  | run t =>
    obtain ⟨⟨c, l⟩, hr, rfl⟩ := Option.map_eq_some_iff.mp hs
    exact inv_run hmt h hr

theorem inv_reaches (hmt : cfg.mt = true) {rx tx : T} (h : Reaches rx tx s) : ∃ q, Inv s q :=
  h.invariant (I := fun s => ∃ q, Inv s q) ⟨_, inv_init⟩ fun hi ha hs => inv_step hmt hi ha hs

/-- Every numbered packet is confirmed at most once, with what was accepted and the result that was
decided, and none stays unconfirmed behind threads that have all left the core. -/
theorem numbered_once (hmt : cfg.mt = true) {rx tx : T} (h : Reaches rx tx s) :
    (confirmedKeys s.conn.log).Nodup ∧
      (∀ it ∈ confirmedItems s.conn.log,
        it.key ∈ acceptedKeys s.conn.log ∧ it ∈ resolvedItems s.conn.log) ∧
      ((resolvedItems s.conn.log).map (·.key)).Nodup ∧
      acceptedKeys s.conn.log =
        (resolvedItems s.conn.log).map (·.key) ++ s.conn.windowItems.map (·.key) ∧
      ((∀ t, s.todo t = []) → ∀ it ∈ resolvedItems s.conn.log, it ∈ confirmedItems s.conn.log) := by
  obtain ⟨q, hq⟩ := inv_reaches hmt h
  refine ⟨hq.confirmed_nodup, fun it hit => ?_, hq.resolved_nodup, ?_, fun hidle it hit =>
    hq.confirmed_all hidle hit⟩
  · have hres : it ∈ resolvedItems s.conn.log :=
      Multiset.mem_coe.mp (Multiset.mem_of_le hq.confirmed_le (Multiset.mem_coe.mpr hit))
    refine ⟨?_, hres⟩
    rw [hq.keys, List.mem_append]
    exact .inl (List.mem_map_of_mem hres)
  · rw [hq.refines.windowItems]
    exact hq.keys

instance threads_neZero : NeZero 3 := ⟨by decide⟩

/-- A build that reports a packet at a time, over a link with a window of one. -/
abbrev lone : Cfg (.ofWindow 0 zero_lt_idBits) := .ofBuild _ true 1 Nat.one_pos

/-- Thread 2 is in the callback of the first packet while the second is swept, and a session starts
before the sequence is reset. -/
def staleStart : List (Act (.ofWindow 0 zero_lt_idBits) Unit (Fin 3)) :=
  .call 2 (.enqueueData 1 (some ()) 1 1) :: Act.through 2 .connect 3 ++
    .call 1 (.enqueueData 1 (some ()) 1 1) :: Act.through 1 .connect 1 ++
    Act.handshake 0 0

/-- The first NAK of that session finds the second packet in the slot it charges, and thread 2 then
comes to it too. -/
def staleNak : List (Act (.ofWindow 0 zero_lt_idBits) Unit (Fin 3)) :=
  staleStart ++ Act.through 0 (.receive (.ping 1 ⟨true, 1⟩) 2 0) 2 ++ [.run 2, .run 2, .run 2]

theorem numbered_twice : ¬ ∀ s : Sys lone Unit (Fin 3),
    Reachable (Sys.init lone Unit (Fin 3)) (step 0 1) (fun _ _ => True) s →
      (confirmedKeys s.conn.log).Nodup := by
  obtain ⟨s, hs, htwice⟩ := Reachable.of_exec (Sys.init lone Unit (Fin 3)) (step 0 1) (fun _ _ => true)
    (staleNak)
    (fun s => ¬ (confirmedKeys s.conn.log).Nodup) (by decide +kernel) (by decide +kernel)
  exact fun h => of_decide_eq_true htwice (h s (hs.mono fun _ _ _ => trivial))

/-- A packet is acknowledged, reported and confirmed. -/
theorem numbered_once_acked : ∃ s : Sys lone Unit (Fin 3), Reaches 0 1 s ∧
    (confirmedKeys s.conn.log).length = 1 ∧ (confirmedKeys s.conn.log).Nodup := by
  obtain ⟨s, hs, hone⟩ := Reachable.of_exec (Sys.init lone Unit (Fin 3)) (step 0 1) freshStart
    (Act.handshake 0 1 ++ .call 2 (.enqueueData 1 (some ()) 1 1) ::
      .call 1 (.getPacketToSend fun _ => [7]) ::
      Act.through 0 (.receive (.ping 1 ⟨false, 1⟩) 2 0) 5)
    (fun s => (confirmedKeys s.conn.log).length = 1) (by decide +kernel) (by decide +kernel)
  exact ⟨s, hs, of_decide_eq_true hone, (numbered_once rfl hs).1⟩

end Ludlc.Threads
