import Ludlc.Callbacks

/-! # Confirmations in the order of acceptance

The reporter gives numbered packets back in order, and the thread that received a NAK gives back by
itself the packet the NAK gave up, which follows those reported before and precedes those a sweep
fails after. Nothing makes one of the two wait for the other, so the order holds as long as neither
starts while the other has a packet in its hands.
-/

namespace Ludlc

open SeqNum Runs

variable {w : Wire} {cfg : Cfg w} {β : Type}

/-- The slots of `(last_reported, last_ack]`. -/
def Conn.pendingItems (c : Conn cfg β) : List (PacketQueueItem w β) :=
  c.slots (c.lastAck - c.connLastReported).toNat c.connLastReported

theorem pendingItems_congr {c d : Conn cfg β} (hack : d.lastAck = c.lastAck)
    (hrep : d.lastReported = c.lastReported) (hslots : d.packetsQ = c.packetsQ) :
    d.pendingItems = c.pendingItems := by
  have hall : ∀ n id, d.slots n id = c.slots n id := by
    intro n
    induction n with
    | zero => exact fun _ => rfl
    | succ n ih =>
      intro id
      rw [Conn.slots, Conn.slots, ih, hslots]
  rw [Conn.pendingItems, Conn.pendingItems, hall, Conn.connLastReported, Conn.connLastReported, hack,
    hrep]

theorem Holding.pendingItems {c : Conn cfg β} {q : SendQueue (PacketQueueItem w β)}
    (h : Holding c q) : c.pendingItems = q.pend := by
  have hnum : (c.lastAck - c.connLastReported).toNat = q.pend.length := by
    have := h.room
    have := two_window_le w
    have := window_pos w
    rw [h.ack, h.reported, SendQueue.base, sub_of_le (by omega) (by omega)]
    omega
  rw [Conn.pendingItems, hnum, h.reported, Holding.slots_eq h.holds.prefix rfl]

theorem Callback.gives_eq_some {cb : Callback w β} {it : PacketQueueItem w β}
    (h : cb.gives = some it) : cb = .onConfirm .numbered it ∨ cb = .onConfirm .expired it := by
  cases cb with
  | onConfirm k it' => cases k <;> simp_all [Callback.gives]
  | _ => cases h

namespace Threads

variable {T : Type}

/-- No `on_confirm` of a numbered packet starts before that of every packet accepted before has
returned. -/
def InTurn (log : List (Ev w β)) : Prop :=
  ∀ pre cb it, pre ++ [.call cb] <+: log → cb.gives = some it →
    ∀ older younger, acceptedKeys log = older ++ it.key :: younger →
      ∀ k ∈ older, k ∈ (returnedItems pre).map (·.key)

/-- The packets of one kind that a thread has still to report, or is reporting. -/
def reporting (kind : Kind) (todo : List (Todo w β)) : List (PacketQueueItem w β) :=
  todo.filterMap fun
    | .call (.onConfirm k it) => if k = kind then some it else none
    | .ret (.onConfirm k it) => if k = kind then some it else none
    | _ => none

/-- The thread is in the callback of a packet given up. -/
def givingUp (todo : List (Todo w β)) : Bool :=
  todo.any fun
    | .ret (.onConfirm .expired _) => true
    | _ => false

/-- A packet given up is reported only when no thread has a numbered packet to report, and what
waits for the reporter was swept after it. While one is still to be reported the reporter takes
no swept packet. -/
def turnsKept [Fintype T] (rx : T) (s : Sys cfg β T) (a : Act w β T) : Bool :=
  freshStart s a &&
    match a with
    | .call _ _ => true
    | .run t =>
      match s.todo t with
      | .call (.onConfirm .expired _) :: _ =>
        (∀ t, reporting .numbered (s.todo t) = []) && s.conn.pendingItems.all (·.result = .epipe)
      | .confirmPass :: _ =>
        (reporting .expired (s.todo rx)).isEmpty ||
          (s.conn.pendingItems.take cfg.confirmBatch).all (·.result ≠ .epipe)
      | _ => true

section Lists

variable {kind : Kind} {l l' : List (Todo w β)}

@[simp] theorem reporting_nil : reporting kind ([] : List (Todo w β)) = [] := rfl

@[simp] theorem reporting_append :
    reporting kind (l ++ l') = reporting kind l ++ reporting kind l' := List.filterMap_append

@[simp] theorem reporting_confirmPass (l : List (Todo w β)) :
    reporting kind (.confirmPass :: l) = reporting kind l := rfl

@[simp] theorem reporting_confirmUnlocked (l : List (Todo w β)) :
    reporting kind (.confirmUnlocked :: l) = reporting kind l := rfl

@[simp] theorem reporting_handleDisconnect (l : List (Todo w β)) :
    reporting kind (.handleDisconnect :: l) = reporting kind l := rfl

/-- A callback that has started is still one to report. -/
theorem reporting_ret (cb : Callback w β) (l : List (Todo w β)) :
    reporting kind (.ret cb :: l) = reporting kind (.call cb :: l) := by
  cases cb <;> rfl

theorem reporting_call (k : Kind) (it : PacketQueueItem w β) (l : List (Todo w β)) :
    reporting kind (.call (.onConfirm k it) :: l) =
      if k = kind then it :: reporting kind l else reporting kind l := by
  rw [reporting, List.filterMap_cons]
  split <;> split at * <;> simp_all [reporting]

theorem reporting_map (k : Kind) (items : List (PacketQueueItem w β)) :
    reporting kind (items.map fun it => Todo.call (.onConfirm k it)) =
      if k = kind then items else [] := by
  induction items with
  | nil => simp
  | cons it items ih =>
    rw [List.map_cons, reporting_call, ih]
    split <;> rfl

/-- A callback that gives no numbered packet back is no report of one. -/
theorem reporting_of_gives {cb : Callback w β} (hcb : cb.gives = none) (hkind : kind ≠ .unnumbered)
    (l : List (Todo w β)) : reporting kind (.call cb :: l) = reporting kind l := by
  cases cb with
  | onConfirm k it =>
    cases k with
    | unnumbered => rw [reporting_call, if_neg hkind.symm]
    | _ => simp [Callback.gives] at hcb
  | _ => rfl

theorem givingUp_ret {cb : Callback w β} (hcb : ∀ it, cb ≠ .onConfirm .expired it)
    (l : List (Todo w β)) : givingUp (.ret cb :: l) = givingUp l := by
  cases cb with
  | onConfirm k it =>
    cases k with
    | expired => exact absurd rfl (hcb it)
    | _ => rfl
  | _ => rfl

theorem givingUp_append : givingUp (l ++ l') = (givingUp l || givingUp l') := List.any_append

theorem reporting_of_givingUp (h : givingUp l = true) : reporting .expired l ≠ [] := by
  obtain ⟨a, ha, hexp⟩ := List.any_eq_true.mp h
  intro hnil
  rw [reporting, List.filterMap_eq_nil_iff] at hnil
  have := hnil a ha
  cases a with
  | ret cb =>
    cases cb with
    | onConfirm k it => cases k <;> simp at hexp this
    | _ => simp at hexp
  | _ => simp at hexp

/-- What a section leaves to do holds nothing that has started, so what it gives back is what it is
to report. -/
theorem reporting_of_hand (hret : ∀ cb, .ret cb ∉ l) (hhand : handItems l = [])
    (hkind : kind ≠ .unnumbered) : reporting kind l = [] := by
  induction l with
  | nil => rfl
  | cons a l ih =>
    have hl := ih fun cb hcb => hret cb (List.mem_cons_of_mem _ hcb)
    cases a with
    | call cb =>
      cases hg : cb.gives with
      | none =>
        rw [reporting_of_gives hg hkind]
        exact hl (by simpa [handItems, hg] using hhand)
      | some it => simp [handItems, hg] at hhand
    | ret cb => exact absurd List.mem_cons_self (hret cb)
    | _ => exact hl hhand

theorem givingUp_of_ret (hret : ∀ cb, .ret cb ∉ l) : givingUp l = false := by
  rw [givingUp, List.any_eq_false]
  intro a ha hexp
  cases a with
  | ret cb => exact hret cb ha
  | _ => simp at hexp

end Lists

/-- What is taken of a list holds no swept packet, so it ends before the swept ones. -/
theorem prefix_of_apart {early late batch more : List (PacketQueueItem w β)}
    (h : early ++ late = batch ++ more) (hbatch : ∀ it ∈ batch, it.result ≠ .epipe)
    (hlate : ∀ it ∈ late, it.result = .epipe) :
    ∃ early', early = batch ++ early' ∧ more = early' ++ late := by
  obtain ⟨over', rfl, rfl⟩ | ⟨early', rfl, rfl⟩ := List.append_eq_append_iff.mp h
  · have hnil : over' = [] := List.eq_nil_iff_forall_not_mem.mpr fun it hit =>
      hbatch it (List.mem_append_right _ hit) (hlate it (List.mem_append_left _ hit))
    subst hnil
    exact ⟨[], by simp, by simp⟩
  · exact ⟨early', rfl, rfl⟩

/-- Behind each numbered packet that the thread has to report there is the pass that took it. -/
def Behind : List (Todo w β) → Prop
  | [] => True
  | a :: l => (reporting .numbered [a] ≠ [] → .confirmPass ∈ l) ∧ Behind l

section Behind

variable {l l' : List (Todo w β)}

theorem Behind.append_of_nil (h : Behind l') (hl : reporting .numbered l = []) :
    Behind (l ++ l') := by
  induction l with
  | nil => exact h
  | cons a l ih =>
    rw [show a :: l = [a] ++ l from rfl, reporting_append, List.append_eq_nil_iff] at hl
    exact ⟨fun hne => absurd hl.1 hne, ih hl.2⟩

theorem Behind.append_of_mem (h : Behind l') (hmem : .confirmPass ∈ l') : Behind (l ++ l') := by
  induction l with
  | nil => exact h
  | cons a l ih => exact ⟨fun _ => List.mem_append_right _ hmem, ih⟩

theorem Behind.reporting (h : Behind l) (hno : .confirmPass ∉ l) : reporting .numbered l = [] := by
  induction l with
  | nil => rfl
  | cons a l ih =>
    simp only [List.mem_cons, not_or] at hno
    rw [show a :: l = [a] ++ l from rfl, reporting_append, ih h.2 hno.2, List.append_nil]
    by_contra hne
    exact hno.2 (h.1 hne)

end Behind

section Pass

variable {c : Conn cfg β} {q : SendQueue (PacketQueueItem w β)}

theorem confirmPass_conn (c : Conn cfg β) :
    ∃ b, (confirmPass c).1 = { seqResetIfDrained (taken c) with reportBusy := b } := by
  unfold confirmPass
  dsimp only
  split
  · exact ⟨false, rfl⟩
  · exact ⟨(seqResetIfDrained (taken c)).reportBusy, rfl⟩

/-- A pass takes the batch from the front of what is pending, and comes back for more. -/
theorem confirmPass_todo (hmt : cfg.mt = true) (h : Refines c q) :
    handItems (confirmPass c).2 = q.pend.take cfg.confirmBatch ∧
      reporting .numbered (confirmPass c).2 = q.pend.take cfg.confirmBatch ∧
      reporting .expired (confirmPass c).2 = [] ∧ givingUp (confirmPass c).2 = false ∧
      ((confirmPass c).2 = [] ∨ ∃ l, (confirmPass c).2 = l ++ [.confirmPass]) := by
  obtain ⟨-, hb⟩ := taken_spec hmt h
  generalize q.pend.take cfg.confirmBatch = batch at hb ⊢
  by_cases hempty : (takeUnnumbered c).2 = [] ∧ batch = []
  · have heq : (confirmPass c).2 = [] := by
      simp only [confirmPass, hb, hempty, and_self, if_true]
    rw [heq, hempty.2]
    exact ⟨rfl, rfl, rfl, rfl, .inl rfl⟩
  · have heq : (confirmPass c).2 =
        (takeUnnumbered c).2.map (fun it => .call (.onConfirm .unnumbered it)) ++
        batch.map (fun it => .call (.onConfirm .numbered it)) ++ [.confirmPass] := by
      simp only [confirmPass, hb, hempty, if_false]
    rw [heq]
    refine ⟨?_, ?_, ?_, ?_, .inr ⟨_, rfl⟩⟩
    · rw [handItems_append, handItems_append, handItems_unnumbered, handItems_numbered,
        List.nil_append, show handItems [(.confirmPass : Todo w β)] = [] from rfl, List.append_nil]
    · simp [reporting_map]
    · simp [reporting_map]
    · exact givingUp_of_ret (by simp)

/-- A link that a pass opens has nothing left to report. -/
theorem confirmPass_opened (hmt : cfg.mt = true) (hb : c.flags.busOut = true)
    (hopen : (confirmPass c).1.flags.busOut = false) : (confirmPass c).1.pendingItems = [] := by
  obtain ⟨b, heq⟩ := confirmPass_conn c
  have hbusy : (taken c).flags.busOut = true := by rw [taken_eq]; exact hb
  rw [heq] at hopen ⊢
  cases hu : undrained (taken c) with
  | true =>
    rw [seqReset_idle fun _ => hu] at hopen
    rw [hbusy] at hopen
    cases hopen
  | false =>
    rw [seqReset_drained hbusy hu]
    simp [Conn.pendingItems, Conn.connLastReported, Conn.slots, hmt]

end Pass

/-- Every packet accepted before `it` has been reported, and its callback has returned. -/
def Due (log : List (Ev w β)) (it : PacketQueueItem w β) : Prop :=
  ∃ older younger, acceptedKeys log = older ++ it.key :: younger ∧
    ∀ k ∈ older, k ∈ (returnedItems log).map (·.key)

/-- Each packet given back was the next in turn. -/
def Ordered (log : List (Ev w β)) : Prop :=
  ∀ pre cb it, pre ++ [.call cb] <+: log → cb.gives = some it → Due pre it

section Ordered

variable {log evs : List (Ev w β)}

theorem Ordered.call {cb : Callback w β} (h : Ordered log)
    (hturn : ∀ it, cb.gives = some it → Due log it) : Ordered (log ++ [.call cb]) := by
  intro pre cb' it hpre hit
  rcases List.prefix_concat_iff.mp hpre with heq | hpre
  · obtain ⟨rfl, hcb⟩ := List.append_inj' heq rfl
    obtain rfl : cb' = cb := by simpa using hcb
    exact hturn it hit
  · exact h pre cb' it hpre hit

theorem Ordered.append (h : Ordered log) (hconf : confirmedItems evs = []) :
    Ordered (log ++ evs) := by
  induction evs generalizing log with
  | nil => simpa using h
  | cons e evs ih =>
    rw [show e :: evs = [e] ++ evs from rfl, confirmedItems_append, List.append_eq_nil_iff] at hconf
    rw [List.append_cons]
    refine ih (fun pre cb it hpre hit => ?_) hconf.2
    rcases List.prefix_concat_iff.mp hpre with heq | hpre
    · obtain ⟨-, hcb⟩ := List.append_inj' heq rfl
      obtain rfl : .call cb = e := by simpa using hcb
      simp [confirmedItems, hit] at hconf
    · exact h pre cb it hpre hit

/-- Each packet being accepted once, those accepted before it are the same later on. -/
theorem Ordered.inTurn (h : Ordered log) (hnodup : (acceptedKeys log).Nodup) : InTurn log := by
  intro pre cb it hpre hit older younger hkeys
  obtain ⟨older', younger', hold, hreturned⟩ := h pre cb it hpre hit
  obtain ⟨evs, rfl⟩ := hpre
  have hsplit : older' ++ it.key :: (younger' ++ acceptedKeys ([.call cb] ++ evs)) =
      older ++ it.key :: younger := by
    simp only [← hkeys, acceptedKeys_append, hold, List.append_assoc, List.cons_append]
  have hnot : it.key ∉ older ∧ it.key ∉ younger := by
    rw [hkeys, List.nodup_middle, List.nodup_cons, List.mem_append, not_or] at hnodup
    exact hnodup.1
  obtain ⟨rfl, -⟩ := (List.append_cons_inj_of_notMem hnot.1 hnot.2).mp hsplit.symm
  exact hreturned

theorem turn_of_order {it : PacketQueueItem w β} {held : List (Key w β)}
    {more : List (PacketQueueItem w β)}
    (hkeys : acceptedKeys log = (resolvedItems log).map (·.key) ++ held)
    (horder : resolvedItems log = returnedItems log ++ it :: more) : Due log it := by
  refine ⟨(returnedItems log).map (·.key), more.map (·.key) ++ held, ?_, fun _ hk => hk⟩
  rw [hkeys, horder]
  simp

end Ordered

/-- The packets decided, in the order of their numbers: those returned, those the reporter `r` has
taken, `early`, the one given up, and `late`. `early` and `late` wait for the reporter, swept those
behind the packet given up and no other. -/
structure Standing (rx : T) (s : Sys cfg β T) (r : T) (early late : List (PacketQueueItem w β)) :
    Prop where
  others : ∀ t, t ≠ r → reporting .numbered (s.todo t) = []
  pending : s.conn.pendingItems = early ++ late
  order : resolvedItems s.conn.log = returnedItems s.conn.log ++ reporting .numbered (s.todo r) ++
    early ++ reporting .expired (s.todo rx) ++ late
  apart : reporting .expired (s.todo rx) ≠ [] →
    (∀ it ∈ early, it.result ≠ .epipe) ∧ ∀ it ∈ late, it.result = .epipe
  alone : givingUp (s.todo rx) = true → reporting .numbered (s.todo r) = [] ∧ early = []

/-- What holds in every state: one thread has numbered packets to report and the receiving thread
what was given up, and the order of acceptance goes through both. -/
structure Turns (rx : T) (s : Sys cfg β T) : Prop where
  own : ∀ t, t ≠ rx → reporting .expired (s.todo t) = []
  behind : ∀ t, Behind (s.todo t)
  standing : ∃ r early late, Standing rx s r early late
  opened : s.conn.flags.busOut = false → ∀ it ∈ s.conn.pendingItems, it.result ≠ .epipe
  ordered : Ordered s.conn.log

theorem turns_init (rx : T) : Turns rx (Sys.init cfg β T) where
  own _ _ := rfl
  behind _ := trivial
  standing := by
    refine ⟨rx, [], [], fun _ _ => rfl, ?_, rfl, fun h => absurd rfl h, fun h => by cases h⟩
    simp [Sys.init, Conn.init, Conn.pendingItems, Conn.slots, Conn.connLastReported]
  opened _ it hit := by
    simp [Sys.init, Conn.init, Conn.pendingItems, Conn.slots, Conn.connLastReported] at hit
  ordered pre cb it hpre := by
    have := hpre.length_le
    simp [Sys.init, Conn.init] at this

variable [DecidableEq T] {rx t : T} {s : Sys cfg β T} {d : Conn cfg β} {l rest : List (Todo w β)}

theorem reporting_update {kind : Kind} (h : reporting kind l = reporting kind (s.todo t)) (t' : T) :
    reporting kind (Function.update s.todo t l t') = reporting kind (s.todo t') := by
  by_cases heq : t' = t
  · rw [heq, Function.update_self, h]
  · rw [Function.update_of_ne heq]

theorem behind_update {todo : T → List (Todo w β)} (h : ∀ t, Behind (todo t)) (hl : Behind l)
    (t' : T) : Behind (Function.update todo t l t') := by
  by_cases heq : t' = t
  · rw [heq, Function.update_self]
    exact hl
  · rw [Function.update_of_ne heq]
    exact h t'

/-- A step that changes neither what is to be reported nor what is decided. -/
theorem Turns.same {evs : List (Ev w β)} (h : Turns rx s)
    (hnum : reporting .numbered l = reporting .numbered (s.todo t))
    (hexp : reporting .expired l = reporting .expired (s.todo t)) (hbehind : Behind l)
    (halone : givingUp (Function.update s.todo t l rx) = true → givingUp (s.todo rx) = true ∨
      ∀ r early late, Standing rx s r early late → reporting .numbered (s.todo r) = [] ∧ early = [])
    (hpend : d.pendingItems = s.conn.pendingItems)
    (hbusy : d.flags.busOut = s.conn.flags.busOut) (hlog : d.log = s.conn.log ++ evs)
    (hres : resolvedItems evs = []) (hret : returnedItems evs = []) (hordered : Ordered d.log) :
    Turns rx ⟨d, Function.update s.todo t l⟩ where
  own t' hne := (reporting_update hexp t').trans (h.own t' hne)
  behind := behind_update h.behind hbehind
  standing := by
    obtain ⟨r, early, late, hs⟩ := h.standing
    refine ⟨r, early, late, fun t' hne => ?_, hpend.trans hs.pending, ?_, fun hne => ?_,
      fun hgive => ?_⟩
    · exact (reporting_update hnum t').trans (hs.others t' hne)
    · dsimp only
      rw [reporting_update hnum, reporting_update hexp, hlog, resolvedItems_append,
        returnedItems_append, hres, hret, List.append_nil, List.append_nil]
      exact hs.order
    · exact hs.apart (reporting_update hexp rx ▸ hne)
    · dsimp only
      rw [reporting_update hnum]
      exact (halone hgive).elim hs.alone fun hall => hall r early late hs
  opened hb := by
    dsimp only at hb ⊢
    rw [hpend]
    exact h.opened (hbusy ▸ hb)
  ordered := hordered

variable [Fintype T] {q : SendQueue (PacketQueueItem w β)} {r : T}
  {early late more : List (PacketQueueItem w β)} {it : PacketQueueItem w β}

omit [DecidableEq T] in
/-- The first packet that a thread has taken to report is the next in turn. -/
theorem Standing.numbered (hs : Standing rx s r early late) (hq : Inv s q)
    (hnum : reporting .numbered (s.todo t) = it :: more) : t = r ∧ Due s.conn.log it := by
  have hr : t = r := by
    by_contra hne
    rw [hs.others t hne] at hnum
    cases hnum
  refine ⟨hr, turn_of_order hq.keys (?_ : _ = _ ++ it :: (more ++ early ++
    reporting .expired (s.todo rx) ++ late))⟩
  rw [hs.order, ← hr, hnum]
  simp

omit [DecidableEq T] in
/-- The packet given up is the next in turn when nothing is before it. -/
theorem Standing.expired (hs : Standing rx s r early late) (hq : Inv s q)
    (hexp : reporting .expired (s.todo rx) = it :: more)
    (halone : reporting .numbered (s.todo r) = [] ∧ early = []) : Due s.conn.log it := by
  refine turn_of_order hq.keys (?_ : _ = _ ++ it :: (more ++ late))
  rw [hs.order, halone.1, halone.2, hexp]
  simp

omit [DecidableEq T] [Fintype T] in
theorem Standing.alone_of_swept (hs : Standing rx s r early late)
    (hnum : ∀ t, reporting .numbered (s.todo t) = [])
    (hswept : ∀ it ∈ s.conn.pendingItems, it.result = .epipe)
    (hexp : reporting .expired (s.todo rx) ≠ []) :
    reporting .numbered (s.todo r) = [] ∧ early = [] := by
  refine ⟨hnum r, List.eq_nil_iff_forall_not_mem.mpr fun it hit => ?_⟩
  refine (hs.apart hexp).1 it hit (hswept it ?_)
  rw [hs.pending]
  exact List.mem_append_left _ hit

omit [Fintype T] in
/-- A callback returns, and with it the packet it gave back. -/
theorem Turns.ret {cb : Callback w β} (h : Turns rx s) (ht : s.todo t = .ret cb :: rest) :
    Turns rx ⟨s.conn.emit (.ret cb), Function.update s.todo t rest⟩ := by
  have hbehind : Behind rest := by
    have hb := h.behind t
    rw [ht] at hb
    exact hb.2
  have hpend : (s.conn.emit (.ret cb)).pendingItems = s.conn.pendingItems :=
    pendingItems_congr rfl rfl rfl
  have hordered : Ordered (s.conn.emit (.ret cb)).log := h.ordered.append rfl
  have hgive : givingUp (Function.update s.todo t rest rx) = true → givingUp (s.todo rx) = true := by
    by_cases hrx : rx = t
    · rw [hrx, Function.update_self, ht, show Todo.ret cb :: rest = [.ret cb] ++ rest from rfl,
        givingUp_append]
      exact fun hg => by rw [hg, Bool.or_true]
    · rw [Function.update_of_ne hrx]
      exact id
  cases hg : cb.gives with
  | none =>
    have hsame : ∀ kind, kind ≠ .unnumbered → reporting kind rest = reporting kind (s.todo t) := by
      intro kind hkind
      rw [ht, reporting_ret, reporting_of_gives hg hkind]
    refine h.same (hsame _ (by simp)) (hsame _ (by simp)) hbehind (fun hgv => .inl (hgive hgv)) hpend
      rfl rfl rfl ?_ hordered
    simp [returnedItems, hg]
  | some it =>
    obtain ⟨r, early, late, hs⟩ := h.standing
    have horder := hs.order
    have hres : resolvedItems (s.conn.emit (.ret cb)).log = resolvedItems s.conn.log := by
      simp [resolvedItems]
    have hret : returnedItems (s.conn.emit (.ret cb)).log = returnedItems s.conn.log ++ [it] := by
      simp [returnedItems, hg]
    have hopened : ∀ it ∈ (s.conn.emit (.ret cb)).pendingItems, s.conn.flags.busOut = false →
        it.result ≠ .epipe := by
      rw [hpend]
      exact fun it hit hb => h.opened hb it hit
    rcases Callback.gives_eq_some hg with rfl | rfl
    · have hnum : reporting .numbered (s.todo t) = it :: reporting .numbered rest := by
        rw [ht, reporting_ret, reporting_call, if_pos rfl]
      have hexp : reporting .expired rest = reporting .expired (s.todo t) := by
        rw [ht, reporting_ret, reporting_call, if_neg (by simp)]
      have hr : t = r := by
        by_contra hne
        rw [hs.others t hne] at hnum
        cases hnum
      subst hr
      refine ⟨fun t' hne => (reporting_update hexp t').trans (h.own t' hne),
        behind_update h.behind hbehind, ⟨t, early, late, fun t' hne => ?_, hpend.trans hs.pending,
          ?_, fun hne => hs.apart (reporting_update hexp rx ▸ hne), fun hg => ?_⟩,
        fun hb it hit => hopened it hit hb, hordered⟩
      · dsimp only
        rw [Function.update_of_ne hne]
        exact hs.others t' hne
      · dsimp only
        rw [reporting_update hexp, Function.update_self, hres, hret, horder, hnum]
        simp
      · rw [(hs.alone (hgive hg)).1] at hnum
        cases hnum
    · have hexp : reporting .expired (s.todo t) = it :: reporting .expired rest := by
        rw [ht, reporting_ret, reporting_call, if_pos rfl]
      have hnum : reporting .numbered rest = reporting .numbered (s.todo t) := by
        rw [ht, reporting_ret, reporting_call, if_neg (by simp)]
      have hrx : t = rx := by
        by_contra hne
        rw [h.own t hne] at hexp
        cases hexp
      subst hrx
      have halone := hs.alone (by rw [ht]; rfl)
      have hapart := hs.apart (by simp [hexp])
      refine ⟨fun t' hne => ?_, behind_update h.behind hbehind, ⟨r, early, late, fun t' hne =>
          (reporting_update hnum t').trans (hs.others t' hne), hpend.trans hs.pending, ?_,
          fun _ => hapart, fun _ => ⟨(reporting_update hnum r).trans halone.1, halone.2⟩⟩,
        fun hb it hit => hopened it hit hb, hordered⟩
      · dsimp only
        rw [Function.update_of_ne hne]
        exact h.own t' hne
      · dsimp only
        rw [reporting_update hnum, Function.update_self, hres, hret, horder, halone.1, halone.2, hexp]
        simp

theorem Turns.call {cb : Callback w β} (h : Turns rx s) (hq : Inv s q)
    (ht : s.todo t = .call cb :: rest) (hok : turnsKept rx s (.run t) = true) :
    Turns rx ⟨s.conn.emit (.call cb), Function.update s.todo t (.ret cb :: rest)⟩ := by
  have hsame : ∀ kind, reporting kind (.ret cb :: rest) = reporting kind (s.todo t) := by
    intro kind
    rw [ht, reporting_ret]
  have hbehind : Behind (.ret cb :: rest) := by
    have hb := h.behind t
    rw [ht] at hb
    exact ⟨fun hne => hb.1 (by rwa [reporting_ret] at hne), hb.2⟩
  obtain ⟨r, early, late, hs⟩ := h.standing
  by_cases hcb : ∃ it, cb = .onConfirm .expired it
  · obtain ⟨it, rfl⟩ := hcb
    have hexp : reporting .expired (s.todo t) = it :: reporting .expired rest := by
      rw [ht, reporting_call, if_pos rfl]
    have hrx : t = rx := by
      by_contra hne
      rw [h.own t hne] at hexp
      cases hexp
    subst hrx
    simp only [turnsKept, ht, Bool.and_eq_true, decide_eq_true_eq, List.all_eq_true] at hok
    have hne : reporting .expired (s.todo t) ≠ [] := by simp [hexp]
    exact h.same (hsame _) (hsame _) hbehind
      (fun _ => .inr fun r early late hs => hs.alone_of_swept hok.2.1 hok.2.2 hne)
      (pendingItems_congr rfl rfl rfl) rfl rfl rfl rfl
      (h.ordered.call fun it' hit' => by
        obtain rfl : it = it' := Option.some_inj.mp hit'
        exact hs.expired hq hexp (hs.alone_of_swept hok.2.1 hok.2.2 hne))
  · have hgive : givingUp (Function.update s.todo t (.ret cb :: rest) rx) = givingUp (s.todo rx) := by
      by_cases hrx : rx = t
      · rw [hrx, Function.update_self, ht, givingUp_ret fun it heq => hcb ⟨it, heq⟩]
        rfl
      · rw [Function.update_of_ne hrx]
    refine h.same (hsame _) (hsame _) hbehind (fun hg => .inl (hgive ▸ hg))
      (pendingItems_congr rfl rfl rfl) rfl rfl rfl rfl (h.ordered.call fun it hit => ?_)
    cases cb with
    | onConfirm k it' =>
      cases k with
      | numbered =>
        obtain rfl : it' = it := Option.some_inj.mp hit
        exact (hs.numbered hq (by rw [ht, reporting_call, if_pos rfl])).2
      | expired => exact absurd ⟨it', rfl⟩ hcb
      | unnumbered => cases hit
    | _ => cases hit

omit [DecidableEq T] in
/-- A thread about to make a pass is the only reporter. -/
theorem Inv.only_pass (hq : Inv s q) (ht : s.todo t = .confirmPass :: rest) :
    .confirmPass ∉ rest ∧ ∀ t', t' ≠ t → .confirmPass ∉ s.todo t' := by
  classical
  have hreporter := hq.reporter
  have htotal := total_update passes s.todo t (s.todo t)
  rw [Function.update_eq_self, ht, passes_cons, hreporter] at htotal
  have hone : s.conn.reportBusy.toNat ≤ 1 := Bool.toNat_le _
  simp only [isPass, Bool.toNat_true] at htotal
  have hrest : passes rest = 0 := by omega
  have hothers : ∑ t' ∈ Finset.univ.erase t, passes (s.todo t') = 0 := by omega
  have hnone : ∀ {todo : List (Todo w β)}, passes todo = 0 → .confirmPass ∉ todo :=
    fun hp hmem => by simpa [isPass] using List.countP_eq_zero.mp hp _ hmem
  refine ⟨hnone hrest, fun t' hne => hnone ?_⟩
  exact Finset.sum_eq_zero_iff.mp hothers t' (Finset.mem_erase.mpr ⟨hne, Finset.mem_univ _⟩)

theorem Turns.pass (hmt : cfg.mt = true) (h : Turns rx s) (hq : Inv s q)
    (ht : s.todo t = .confirmPass :: rest) (hok : turnsKept rx s (.run t) = true) :
    Turns rx ⟨(confirmPass s.conn).1,
      Function.update s.todo t ((confirmPass s.conn).2 ++ rest)⟩ := by
  obtain ⟨q', he⟩ := confirmPass_effect hmt hq.refines hq.fresh
  obtain ⟨hhand, hnum, hexp, hgive, hends⟩ := confirmPass_todo hmt hq.refines
  obtain ⟨evs, hevs, hlog⟩ := he.log
  obtain ⟨hrest, hothers⟩ := hq.only_pass ht
  have hpend : s.conn.pendingItems = q.pend := hq.refines.toHolding.pendingItems
  have hpend' : (confirmPass s.conn).1.pendingItems = q'.pend := he.refines.toHolding.pendingItems
  have htaken := he.pend
  simp only [turnsKept, ht, Bool.and_eq_true, Bool.or_eq_true, List.isEmpty_iff, List.all_eq_true,
    decide_eq_true_eq, hpend] at hok
  have hbatch := hok.2
  rw [hhand] at htaken
  generalize q.pend.take cfg.confirmBatch = batch at hnum htaken hbatch
  have hb : Behind rest := by
    have := h.behind t
    rw [ht] at this
    exact this.2
  -- No thread has a numbered packet, so the batch is all there is.
  have hnone : ∀ t', reporting .numbered (s.todo t') = [] := by
    intro t'
    by_cases hne : t' = t
    · rw [hne, ht, reporting_confirmPass]
      exact hb.reporting hrest
    · exact (h.behind t').reporting (hothers t' hne)
  have hsame : reporting .expired ((confirmPass s.conn).2 ++ rest) = reporting .expired (s.todo t) := by
    rw [reporting_append, hexp, ht, List.nil_append, reporting_confirmPass]
  have hnum' : reporting .numbered ((confirmPass s.conn).2 ++ rest) = batch := by
    rw [reporting_append, hnum, hb.reporting hrest, List.append_nil]
  have hgive' : givingUp (Function.update s.todo t ((confirmPass s.conn).2 ++ rest) rx) =
      givingUp (s.todo rx) := by
    by_cases hrx : rx = t
    · rw [hrx, Function.update_self, givingUp_append, hgive, ht]
      rfl
    · rw [Function.update_of_ne hrx]
  obtain ⟨r, early, late, hs⟩ := h.standing
  have horder := hs.order
  rw [hnone r, List.append_nil] at horder
  have hsplit : ∃ early' late', q'.pend = early' ++ late' ∧
      early ++ reporting .expired (s.todo rx) ++ late =
        batch ++ early' ++ reporting .expired (s.todo rx) ++ late' ∧
      (reporting .expired (s.todo rx) ≠ [] → early = batch ++ early' ∧ late' = late) := by
    have hall : early ++ late = batch ++ q'.pend := by rw [← hs.pending, hpend, htaken]
    by_cases hne : reporting .expired (s.todo rx) = []
    · refine ⟨q'.pend, [], by simp, ?_, fun h => absurd hne h⟩
      rw [hne, List.append_nil, List.append_nil, List.append_nil]
      exact hall
    · obtain ⟨early', hearly, hlate⟩ := prefix_of_apart hall (hbatch.resolve_left hne)
        (hs.apart hne).2
      exact ⟨early', late, hlate, by simp [hearly], fun _ => ⟨hearly, rfl⟩⟩
  obtain ⟨early', late', hpending, heq, hapart⟩ := hsplit
  refine ⟨fun t' hne => (reporting_update hsame t').trans (h.own t' hne), behind_update h.behind ?_,
    ⟨t, early', late', fun t' hne => ?_, hpend'.trans hpending, ?_, fun hne => ?_, fun hg => ?_⟩,
    fun hopen => ?_, ?_⟩
  · rcases hends with heq | ⟨l, heq⟩
    · rw [heq]
      exact hb
    · rw [heq, List.append_assoc]
      have hpass : Behind ([.confirmPass] ++ rest) := hb.append_of_nil rfl
      exact hpass.append_of_mem (by simp)
  · dsimp only
    rw [Function.update_of_ne hne]
    exact hnone t'
  · dsimp only
    rw [reporting_update hsame, Function.update_self, hnum', hlog, resolvedItems_append,
      returnedItems_append, hevs.resolved, hevs.returned, List.append_nil, List.append_nil, horder]
    simpa using heq
  · rw [reporting_update hsame] at hne
    obtain ⟨hearly, rfl⟩ := hapart hne
    obtain ⟨hopen, hswept⟩ := hs.apart hne
    exact ⟨fun it hit => hopen it (hearly ▸ List.mem_append_right _ hit), hswept⟩
  · rw [hgive'] at hg
    obtain ⟨hearly, -⟩ := hapart (reporting_of_givingUp hg)
    rw [(hs.alone hg).2] at hearly
    obtain ⟨rfl, rfl⟩ := List.append_eq_nil_iff.mp hearly.symm
    refine ⟨?_, rfl⟩
    dsimp only
    rw [Function.update_self, hnum']
  · dsimp only at hopen ⊢
    cases hbusy : s.conn.flags.busOut with
    | true =>
      rw [confirmPass_opened hmt hbusy hopen]
      simp
    | false =>
      intro it hit
      rw [hpend'] at hit
      refine h.opened hbusy it ?_
      rw [hpend, htaken]
      exact List.mem_append_right _ hit
  · dsimp only
    rw [hlog]
    exact h.ordered.append hevs.confirmed

omit [DecidableEq T] [Fintype T] in
/-- What a section leaves to do has not been started. -/
theorem ret_notMem_run (c : Conn cfg β) (a : Call w β) (cb : Callback w β) :
    .ret cb ∉ (a.run c).todo := by
  cases a with
  | enqueueData dstChan buf size ttl =>
    obtain ⟨htodo, -⟩ := enqueueData_cases c c.log.length dstChan (.ofPtr buf) size ttl
    change _ ∉ (enqueueData c c.log.length dstChan (.ofPtr buf) size ttl).todo
    simp [htodo]
  | sendUrgentData dstChan buf size =>
    obtain ⟨htodo, -⟩ := sendUrgentData_cases c c.log.length dstChan (.ofPtr buf) size
    change _ ∉ (sendUrgentData c c.log.length dstChan (.ofPtr buf) size).todo
    simp [htodo]
  | sendDisconnect =>
    simp only [Call.run, Ludlc.sendDisconnect]
    repeat' split
    all_goals simp
  | connect =>
    simp only [Call.run, Ludlc.connect]
    repeat' split
    all_goals simp
  | handleDisconnect =>
    simp only [Call.run, Ludlc.handleDisconnect]
    split
    all_goals simp
  | getPacketToSend mem =>
    simp only [Call.run, Ludlc.getPacketToSend]
    repeat' split
    all_goals simp
  | receive p pktSz tstamp =>
    simp only [Call.run, Ludlc.receive, receiveTodo, callIf]
    cases (rxHandlePacket c p pktSz).expired
    all_goals
      repeat' split
      all_goals simp

/-- A section that decides packets only by sweeping them puts them behind all others. -/
theorem Turns.sweep {o : Out cfg β} {q' : SendQueue (PacketQueueItem w β)} {new : List (Key w β)}
    {done : List (PacketQueueItem w β)} (h : Turns rx s) (hq : Inv s q)
    (he : Effect s.conn o q q' new done []) (hdone : ∀ it ∈ done, it.result = .epipe)
    (hopen : KeepsOpen s.conn o q' done) (hlog : Hushed s.conn o.conn)
    (hret : ∀ cb, .ret cb ∉ o.todo)
    (ht : s.todo t = rest ∨ s.todo t = .handleDisconnect :: rest) :
    Turns rx ⟨o.conn, Function.update s.todo t (o.todo ++ rest)⟩ := by
  obtain ⟨evs, hlog, -⟩ := hlog
  obtain ⟨r, early, late, hs⟩ := h.standing
  have hsame : ∀ kind, kind ≠ .unnumbered →
      reporting kind (o.todo ++ rest) = reporting kind (s.todo t) := by
    intro kind hkind
    rw [reporting_append, reporting_of_hand hret he.hand hkind, List.nil_append]
    rcases ht with ht | ht <;> rw [ht]
    rw [reporting_handleDisconnect]
  have hnum := hsame .numbered (by simp)
  have hexp := hsame .expired (by simp)
  have hgive : givingUp (Function.update s.todo t (o.todo ++ rest) rx) = givingUp (s.todo rx) := by
    by_cases hrx : rx = t
    · rw [hrx, Function.update_self, givingUp_append, givingUp_of_ret hret, Bool.false_or]
      rcases ht with ht | ht <;> rw [ht]
      rfl
    · rw [Function.update_of_ne hrx]
  have hrest : Behind rest := by
    have hb := h.behind t
    rcases ht with ht | ht
    · rwa [ht] at hb
    · rw [ht] at hb
      exact hb.2
  have hpend : s.conn.pendingItems = q.pend := hq.refines.toHolding.pendingItems
  have hpend' : o.conn.pendingItems = s.conn.pendingItems ++ done := by
    rw [he.refines.toHolding.pendingItems, he.pend, hpend]
  refine ⟨fun t' hne => (reporting_update hexp t').trans (h.own t' hne), behind_update h.behind
      (hrest.append_of_nil (reporting_of_hand hret he.hand (by simp))),
    ⟨r, early, late ++ done, fun t' hne => (reporting_update hnum t').trans (hs.others t' hne), ?_, ?_,
      fun hne => ?_, fun hg => ?_⟩, fun hb => ?_, ?_⟩
  · dsimp only
    rw [hpend', hs.pending, List.append_assoc]
  · dsimp only
    rw [reporting_update hnum, reporting_update hexp, he.resolved, he.returned, hs.order]
    simp
  · obtain ⟨hearly, hlate⟩ := hs.apart (reporting_update hexp rx ▸ hne)
    exact ⟨hearly, fun it hit => (List.mem_append.mp hit).elim (hlate it) (hdone it)⟩
  · dsimp only
    rw [reporting_update hnum]
    exact hs.alone (hgive ▸ hg)
  · dsimp only at hb ⊢
    rcases hopen hb with hnil | ⟨hbusy, hdone⟩
    · rw [he.refines.toHolding.pendingItems, hnil]
      simp
    · rw [hpend']
      exact fun it hit => (List.mem_append.mp hit).elim (h.opened hbusy it) (hdone it)
  · dsimp only
    have hconf := he.confirmed
    rw [hlog, confirmedItems_append, List.append_right_eq_self] at hconf
    rw [hlog]
    exact h.ordered.append hconf

omit [DecidableEq T] [Fintype T] in
theorem reporting_receive (r : RxOut cfg β) (p : Packet w) (pktSz tstamp : Nat) :
    reporting .numbered (receiveTodo r p pktSz tstamp) = [] ∧
      reporting .expired (receiveTodo r p pktSz tstamp) = r.expired.toList := by
  have hif : ∀ (kind : Kind) (b : Bool) (cb : Callback w β), cb.isConfirm = false →
      reporting kind (callIf b cb) = [] := by
    intro kind b cb hcb
    cases b
    · rfl
    · cases cb <;> first | rfl | simp [Callback.isConfirm] at hcb
  simp only [receiveTodo, reporting_append, reporting_confirmUnlocked]
  constructor
  · rw [hif _ _ _ rfl, hif _ _ _ rfl, hif _ _ _ rfl, hif _ _ _ rfl, reporting_map, if_neg (by simp)]
    rfl
  · rw [hif _ _ _ rfl, hif _ _ _ rfl, hif _ _ _ rfl, hif _ _ _ rfl, reporting_map, if_pos rfl,
      List.append_nil, List.append_nil, List.nil_append]
    rfl

/-- The receiving thread takes a packet: what is acknowledged precedes the one given up. -/
theorem Turns.receive {p : Packet w} {pktSz tstamp : Nat} {q' : SendQueue (PacketQueueItem w β)}
    {done exp : List (PacketQueueItem w β)} (h : Turns rx s) (hq : Inv s q) (ht : s.todo rx = [])
    (he : Effect s.conn (Ludlc.receive s.conn p pktSz tstamp) q q' [] done exp)
    (hup : exp ≠ [] → (Ludlc.receive s.conn p pktSz tstamp).conn.flags.busOut = false)
    (hopen : KeepsOpen s.conn (Ludlc.receive s.conn p pktSz tstamp) q' done) :
    Turns rx ⟨(Ludlc.receive s.conn p pktSz tstamp).conn,
      Function.update s.todo rx ((Ludlc.receive s.conn p pktSz tstamp).todo ++ s.todo rx)⟩ := by
  obtain ⟨evs, hlog, -⟩ := run_hushed s.conn (.receive p pktSz tstamp)
  have hret := ret_notMem_run s.conn (.receive p pktSz tstamp)
  obtain ⟨hnum, hexp⟩ := reporting_receive (rxHandlePacket s.conn p pktSz) p pktSz tstamp
  have hhand := he.hand
  change (Ludlc.receive s.conn p pktSz tstamp).conn.log = _ at hlog
  change ∀ cb, .ret cb ∉ (Ludlc.receive s.conn p pktSz tstamp).todo at hret
  change reporting .numbered (Ludlc.receive s.conn p pktSz tstamp).todo = [] at hnum
  change reporting .expired (Ludlc.receive s.conn p pktSz tstamp).todo = _ at hexp
  change handItems (receiveTodo _ p pktSz tstamp) = exp at hhand
  rw [handItems_receive] at hhand
  rw [hhand] at hexp
  generalize Ludlc.receive s.conn p pktSz tstamp = o at *
  obtain ⟨r, early, late, hs⟩ := h.standing
  have hpend : s.conn.pendingItems = q.pend := hq.refines.toHolding.pendingItems
  have hpend' : o.conn.pendingItems = s.conn.pendingItems ++ done := by
    rw [he.refines.toHolding.pendingItems, he.pend, hpend]
  have hopened : o.conn.flags.busOut = false → ∀ it ∈ o.conn.pendingItems, it.result ≠ .epipe := by
    intro hb
    rcases hopen hb with hnil | ⟨hbusy, hdone⟩
    · rw [he.refines.toHolding.pendingItems, hnil]
      simp
    · rw [hpend']
      exact fun it hit => (List.mem_append.mp hit).elim (h.opened hbusy it) (hdone it)
  rw [ht, List.append_nil]
  have hsame : reporting .numbered o.todo = reporting .numbered (s.todo rx) := by
    rw [hnum, ht]
    rfl
  refine ⟨fun t' hne => ?_, behind_update h.behind ?_, ⟨r, early ++ late ++ done, [], fun t' hne =>
      (reporting_update hsame t').trans (hs.others t' hne), ?_, ?_, fun hne => ⟨?_, by simp⟩,
      fun hg => ?_⟩, hopened, ?_⟩
  · dsimp only
    rw [Function.update_of_ne hne]
    exact h.own t' hne
  · have hb : Behind ([] : List (Todo w β)) := trivial
    simpa using hb.append_of_nil hnum
  · dsimp only
    rw [hpend', hs.pending, List.append_nil]
  · have horder := hs.order
    rw [ht, reporting_nil, List.append_nil] at horder
    dsimp only
    rw [reporting_update hsame, Function.update_self, he.resolved, he.returned, hexp, horder]
    simp
  · dsimp only at hne
    rw [Function.update_self, hexp] at hne
    rw [← hs.pending, ← hpend']
    exact hopened (hup hne)
  · dsimp only at hg
    rw [Function.update_self, givingUp_of_ret hret] at hg
    cases hg
  · dsimp only
    have hconf := he.confirmed
    rw [hlog, confirmedItems_append, List.append_right_eq_self] at hconf
    rw [hlog]
    exact h.ordered.append hconf

omit [DecidableEq T] in
theorem freshStart_of_kept {a : Act w β T} (h : turnsKept rx s a = true) : freshStart s a = true := by
  unfold turnsKept at h
  exact ((Bool.and_eq_true _ _).mp h).1

theorem turns_step (hmt : cfg.mt = true) {tx : T} {a : Act w β T} {s' : Sys cfg β T}
    (h : Turns rx s) (hq : Inv s q) (hok : turnsKept rx s a = true)
    (hs : step rx tx s a = some s') : Turns rx s' := by
  have hfresh := freshStart_of_kept hok
  cases a with
  | call t a =>
    simp only [step] at hs
    split at hs
    next hmay =>
      cases hs
      by_cases hr : ∃ p pktSz tstamp, a = .receive p pktSz tstamp
      · obtain ⟨p, pktSz, tstamp, rfl⟩ := hr
        simp only [mayCall, Bool.and_eq_true, decide_eq_true_eq, List.isEmpty_iff] at hmay
        obtain ⟨⟨rfl, ht⟩, -⟩ := hmay
        obtain ⟨q', done, exp, he, -, hup, hopen⟩ := receive_effect hmt hq.refines hq.fresh p pktSz
          tstamp ((Bool.not_eq_true' _).mp hfresh)
        exact h.receive hq ht he hup hopen
      · obtain ⟨q', new, done, he, hdone, hopen⟩ := local_effect hmt hq.refines hq.fresh
          fun p pktSz tstamp heq => hr ⟨p, pktSz, tstamp, heq⟩
        exact h.sweep hq he hdone hopen (run_hushed s.conn a) (ret_notMem_run s.conn a) (.inl rfl)
    next => cases hs
  | run t =>
    obtain ⟨⟨d, l⟩, hr, rfl⟩ := Option.map_eq_some_iff.mp hs
    cases ht : s.todo t with
    | nil => simp [ht, runNext] at hr
    | cons b rest =>
      have hb := h.behind t
      rw [ht] at hr hb
      cases b with
      | call cb =>
        cases hr
        exact h.call hq ht hok
      | ret cb =>
        cases hr
        exact h.ret ht
      | confirmUnlocked =>
        have hsame : ∀ kind, reporting kind rest = reporting kind (s.todo t) := fun kind => by
          rw [ht, reporting_confirmUnlocked]
        have hgive : ∀ l, givingUp l = givingUp rest →
            givingUp (Function.update s.todo t l rx) = true → givingUp (s.todo rx) = true := by
          intro l hl
          by_cases hrx : rx = t
          · rw [hrx, Function.update_self, ht, hl]
            exact id
          · rw [Function.update_of_ne hrx]
            exact id
        simp only [runNext] at hr
        split at hr
        · cases hr
          exact h.same (hsame _) (hsame _) hb.2 (fun hg => .inl (hgive _ rfl hg)) rfl rfl
            (List.append_nil _).symm rfl rfl h.ordered
        · cases hr
          exact h.same (hsame _) (hsame _) (hb.2.append_of_nil (l := [.confirmPass]) rfl)
            (fun hg => .inl (hgive (.confirmPass :: rest) rfl hg)) (pendingItems_congr rfl rfl rfl) rfl
            (List.append_nil _).symm rfl rfl h.ordered
      | confirmPass =>
        cases hr
        exact h.pass hmt hq ht hok
      | handleDisconnect =>
        cases hr
        obtain ⟨q', done, he, hdone, hopen⟩ := handleDisconnect_effect hmt hq.refines hq.fresh
        exact h.sweep hq he hdone hopen (run_hushed s.conn .handleDisconnect)
          (ret_notMem_run s.conn .handleDisconnect) (.inr ht)

/-- Numbered packets are given back in the order they were accepted in, where none that was given up
is reported beside the reporter. -/
theorem confirmed_in_turn (hmt : cfg.mt = true) {tx : T}
    (h : Reachable (Sys.init cfg β T) (step rx tx) (fun s a => turnsKept rx s a = true) s) :
    InTurn s.conn.log := by
  have hinv : (∃ q, Inv s q) ∧ Turns rx s := by
    refine h.invariant (I := fun s => (∃ q, Inv s q) ∧ Turns rx s) ⟨⟨_, inv_init⟩, turns_init rx⟩ ?_
    rintro s a s' ⟨⟨q, hq⟩, ht⟩ hok hs
    exact ⟨inv_step hmt ⟨q, hq⟩ (freshStart_of_kept hok) hs, turns_step hmt ht hq hok hs⟩
  obtain ⟨⟨q, hq⟩, ht⟩ := hinv
  exact ht.ordered.inTurn hq.tagged.nodup

/-- Thread 2 is about to make a pass as the link comes up, and takes the first packet once it is
acknowledged. -/
def slowReporter : List (Act (.ofWindow 0 zero_lt_idBits) Unit (Fin 3)) :=
  .call 2 .connect :: .run 2 :: Act.handshake 0 0 ++
    [.call 1 (.enqueueData 1 (some ()) 1 1), .call 1 (.getPacketToSend fun _ => [7])] ++
    Act.through 0 (.receive (.ping 1 ⟨false, 1⟩) 2 0) 1 ++ [.run 2]

/-- The second packet is sent, and a NAK gives it up. -/
def secondGivenUp : List (Act (.ofWindow 0 zero_lt_idBits) Unit (Fin 3)) :=
  [.call 1 (.enqueueData 1 (some ()) 1 1), .call 1 (.getPacketToSend fun _ => [7])] ++
    Act.through 0 (.receive (.ping 1 ⟨true, 1⟩) 2 0) 2

/-- The second packet is confirmed while the callback of the first has not even started. -/
theorem confirmed_out_of_turn : ¬ ∀ s : Sys lone Unit (Fin 3),
    Reachable (Sys.init lone Unit (Fin 3)) (step 0 1) (fun _ _ => True) s → InTurn s.conn.log := by
  obtain ⟨s, hs, hbad⟩ := Reachable.of_exec (Sys.init lone Unit (Fin 3)) (step 0 1)
    (fun _ _ => true) (slowReporter ++ secondGivenUp)
    (fun s => (acceptedKeys s.conn.log).length = 2 ∧
      confirmedKeys s.conn.log = (acceptedKeys s.conn.log).tail ∧ returnedItems s.conn.log = [])
    (by decide +kernel) (by decide +kernel)
  obtain ⟨hlen, hconf, hret⟩ := of_decide_eq_true hbad
  obtain ⟨k, k', hacc⟩ := List.length_eq_two.mp hlen
  rw [hacc, List.tail_cons, confirmedKeys, List.map_eq_singleton_iff] at hconf
  obtain ⟨it, hconf, hkey⟩ := hconf
  have hit : it ∈ confirmedItems s.conn.log := by simp [hconf]
  obtain ⟨e, he, hgives⟩ := List.mem_filterMap.mp hit
  cases e with
  | call cb =>
    obtain ⟨pre, suf, hlog⟩ := List.append_of_mem he
    intro hall
    have hturn := hall s (hs.mono fun _ _ _ => trivial) pre cb it ⟨suf, by simp [hlog]⟩ hgives [k] []
      (by rw [hacc, hkey]; rfl) k (by simp)
    rw [hlog, returnedItems_append, List.append_eq_nil_iff] at hret
    simp [hret.1] at hturn
  | _ => cases hgives

/-- A packet is acknowledged and confirmed, and the next one given up and confirmed. -/
theorem confirmed_in_turn_two : ∃ s : Sys lone Unit (Fin 3),
    (confirmedKeys s.conn.log).length = 2 ∧ InTurn s.conn.log := by
  obtain ⟨s, hs, htwo⟩ := Reachable.of_exec (Sys.init lone Unit (Fin 3)) (step 0 1) (turnsKept 0)
    (slowReporter ++ .replicate 3 (.run 2) ++ secondGivenUp ++ [.run 0, .run 0])
    (fun s => (confirmedKeys s.conn.log).length = 2) (by decide +kernel) (by decide +kernel)
  exact ⟨s, of_decide_eq_true htwo, confirmed_in_turn rfl hs⟩

end Threads

end Ludlc
