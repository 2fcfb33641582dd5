import Ludlc.Callbacks
import Ludlc.Cleanup

/-! # When a link is reported up and down

The order in which `on_connect` and `on_disconnect` are called in the build that reports inline, over
any sequence of calls, in the course of which the transport may set TERMINATE.
-/

namespace Ludlc

open Runs

variable {w : Wire} {cfg : Cfg w} {β : Type}

/-- What a run shows of the sessions: each call with the state it finds and what it returns, and the
two callbacks. -/
inductive Mark (w : Wire) (β : Type)
  | call (a : Call w β) (found : ConnState) (ret : Ret)
  | terminate
  | onConnect
  | onDisconnect

def Mark.isOnConnect : Mark w β → Bool
  | .onConnect => true
  | _ => false

def Mark.isOnDisconnect : Mark w β → Bool
  | .onDisconnect => true
  | _ => false

def Callback.mark : Callback w β → Option (Mark w β)
  | .onConnect => some .onConnect
  | .onDisconnect => some .onDisconnect
  | _ => none

/-- The two callbacks as a log has them. -/
def callMarks (log : List (Ev w β)) : List (Mark w β) :=
  log.filterMap fun
    | .call cb => cb.mark
    | _ => none

@[simp] theorem callMarks_append (l l' : List (Ev w β)) :
    callMarks (l ++ l') = callMarks l ++ callMarks l' := List.filterMap_append

/-- One connection comes from another with neither callback called. -/
def Silent (c d : Conn cfg β) : Prop := ∃ evs, d.log = c.log ++ evs ∧ callMarks evs = []

section Silent

variable {c d : Conn cfg β}

theorem Silent.of_log (h : d.log = c.log) : Silent c d := ⟨[], by simp [h], rfl⟩

theorem callMarks_eq (log : List (Ev w β)) :
    callMarks log = (spoken log).filterMap Callback.mark := by
  rw [callMarks, spoken, List.filterMap_filterMap]
  congr 1
  funext ev
  cases ev with
  | call cb => cases cb <;> rfl
  | _ => rfl

theorem Hushed.silent (h : Hushed c d) : Silent c d := by
  obtain ⟨evs, hlog, hs⟩ := h
  exact ⟨evs, hlog, by rw [callMarks_eq, hs, List.filterMap_nil]⟩

end Silent

/-- The callbacks of what a call leaves to run. -/
def todoMarks (todo : List (Todo w β)) : List (Mark w β) :=
  todo.filterMap fun
    | .call cb => cb.mark
    | _ => none

@[simp] theorem todoMarks_append (l l' : List (Todo w β)) :
    todoMarks (l ++ l') = todoMarks l ++ todoMarks l' := List.filterMap_append

theorem todoMarks_callIf (b : Bool) (cb : Callback w β) :
    todoMarks (callIf b cb) = if b then cb.mark.toList else [] := by
  cases b
  · rfl
  · cases h : cb.mark <;> simp [callIf, todoMarks, h]

theorem todoMarks_receive (r : RxOut cfg β) (p : Packet w) (pktSz tstamp : Nat) :
    todoMarks (receiveTodo r p pktSz tstamp) =
      (if r.ret.connected then [.onConnect] else []) ++
        (if r.ret.disconnect then [.onDisconnect] else []) := by
  have hexp : todoMarks (.confirmUnlocked ::
      r.expired.toList.map fun it => Todo.call (.onConfirm .expired it)) = [] := by
    cases r.expired <;> rfl
  simp only [receiveTodo]
  rw [todoMarks_append, todoMarks_append, todoMarks_append, todoMarks_append, hexp]
  simp only [todoMarks_callIf, Callback.mark, Option.toList]
  simp

/-- Running what is left, none of it a disconnect, makes its callbacks and changes nothing else. -/
theorem settle_marks {o : Out cfg β} (h : .handleDisconnect ∉ o.todo) :
    ∃ evs, o.settle = { o.conn with log := o.conn.log ++ evs } ∧ callMarks evs = todoMarks o.todo := by
  refine ⟨todoLog o.todo, settle_eq h, ?_⟩
  rw [callMarks_eq, spoken_todoLog, todoSpoken, todoMarks, List.filterMap_filterMap]
  congr 1
  funext a
  cases a with
  | call cb => cases cb <;> rfl
  | _ => rfl

namespace Inline

/-- A call of `ludlc_connect` that was carried out. -/
def drops (c : Conn cfg β) : Call w β → Bool
  | .connect => c.flags.inited && c.connState ≠ .terminate
  | _ => false

/-- A disconnect the transport reports during a handshake. -/
def midHandshake (c : Conn cfg β) : Call w β → Bool
  | .handleDisconnect => c.connState = .waitConn1 || c.connState = .waitConn2
  | _ => false

/-- What a call made in `c`, which leaves `d`, reports of the session. -/
inductive Notes (c d : Conn cfg β) (a : Call w β) : List (Mark w β) → Prop
  | quiet : (d.connState = .connected → c.connState = .connected ∧ drops c a = false) →
      (d.flags.discAfterTx = true →
        (c.connState = .connected ∨ c.flags.discAfterTx = true) ∧ drops c a = false) →
      Notes c d a []
  | up : Notes c d a [.onConnect]
  | upDown : d.connState ≠ .connected → d.flags.discAfterTx = false →
      Notes c d a [.onConnect, .onDisconnect]
  | down : drops c a = false → (c.connState = .connected ∨ c.flags.discAfterTx = true ∨
      midHandshake c a = true) → d.connState ≠ .connected → d.flags.discAfterTx = false →
      Notes c d a [.onDisconnect]

theorem onDisconnectLock_disc (c : Conn cfg β) :
    (onDisconnectLock c).flags.discAfterTx = false := by
  rw [onDisconnectLock_eq, sweep_eq, linkDown_eq]
  rfl

variable {c : Conn cfg β}

theorem notes_of_silent {a : Call w β} {o : Out cfg β} {l : List (Mark w β)}
    (hs : Silent c o.conn) (htodo : .handleDisconnect ∉ o.todo) (hm : todoMarks o.todo = l)
    (h : ∀ evs, Notes c { o.conn with log := o.conn.log ++ evs } a l) :
    ∃ evs, o.settle.log = c.log ++ evs ∧ Notes c o.settle a (callMarks evs) := by
  obtain ⟨evs, hlog, hquiet⟩ := hs
  obtain ⟨evs', hsettle, hmarks⟩ := settle_marks htodo
  refine ⟨evs ++ evs', ?_, ?_⟩
  · rw [hsettle]
    simp [hlog]
  · rw [callMarks_append, hquiet, hmarks, hm, hsettle]
    exact h evs'

theorem receive_notes (p : Packet w) (pktSz tstamp : Nat) :
    ∃ evs, (receive c p pktSz tstamp).settle.log = c.log ++ evs ∧
      Notes c (receive c p pktSz tstamp).settle (.receive p pktSz tstamp) (callMarks evs) := by
  have hstep := rxHandlePacket_step c p pktSz
  have hm : todoMarks (receive c p pktSz tstamp).todo =
      (if (rxHandlePacket c p pktSz).ret.connected then [.onConnect] else []) ++
        (if (rxHandlePacket c p pktSz).ret.disconnect then [.onDisconnect] else []) :=
    todoMarks_receive _ _ _ _
  apply notes_of_silent (hushed_rxHandlePacket c p pktSz).silent (receive_todo c p pktSz tstamp) hm
  simp only [receive]
  generalize rxHandlePacket c p pktSz = r at hstep ⊢
  intro evs
  cases hstep with
  | dropped => exact .quiet (fun hc => ⟨hc, rfl⟩) fun hd => ⟨.inr hd, rfl⟩
  | handshake ret _ hne _ hdis _ hconn =>
    rw [hdis, if_neg Bool.false_ne_true, List.append_nil]
    split
    · exact .up
    next hno =>
      refine .quiet (fun hc => absurd (hconn.mpr hc) hno) fun hd => ⟨.inr ?_, rfl⟩
      simpa using hd
  | lastStep _ hc => exact .quiet (fun _ => ⟨hc, rfl⟩) fun hd => ⟨.inr hd, rfl⟩
  | down ret _ _ _ hdis hconn =>
    rw [hdis, if_pos rfl]
    have hstate : (onDisconnectLock (rxUp c p)).connState ≠ .connected := by simp
    split
    · exact .upDown hstate (onDisconnectLock_disc _)
    next hno =>
      have hc : c.connState = .connected := by
        by_contra hc
        exact hno (hconn.mpr hc)
      exact .down rfl (.inl hc) hstate (onDisconnectLock_disc _)
  | data ret a s _ hup _ ha hs _ hdis hconn =>
    rw [hdis, if_neg Bool.false_ne_true, List.append_nil]
    split
    · exact .up
    next hno =>
      have hc : c.connState = .connected := by
        by_contra hc
        exact hno (hconn.mpr hc)
      exact .quiet (fun _ => ⟨hc, rfl⟩) fun _ => ⟨.inl hc, rfl⟩

/-- A disconnect, reported if it finds the link neither down nor destroyed. -/
theorem handleDisconnect_notes {a : Call w β} {d : Conn cfg β} (hlog : d.log = c.log)
    (hstate : d.connState = c.connState) (hdisc : d.flags.discAfterTx = c.flags.discAfterTx)
    (hnone : drops c a = false)
    (hwhy : c.connState ≠ .disconnected → c.connState ≠ .terminate →
      c.connState = .connected ∨ c.flags.discAfterTx = true ∨ midHandshake c a = true) :
    ∃ evs, (runTodo d .handleDisconnect).log = c.log ++ evs ∧
      Notes c (runTodo d .handleDisconnect) a (callMarks evs) := by
  by_cases hup : d.connState ≠ .disconnected ∧ d.connState ≠ .terminate
  · have hcore : disconnectCore d = (onDisconnectLock d, true) := by
      rw [disconnectCore, if_pos hup]
    obtain ⟨evs, hsweep, hm⟩ := (hushed_onDisconnectLock d).silent
    rw [hstate] at hup
    simp only [runTodo, hcore, if_true]
    refine ⟨evs ++ [.call .onDisconnect, .ret .onDisconnect], ?_, ?_⟩
    · simp [callNow, Conn.emit, hsweep, hlog]
    · rw [callMarks_append, hm]
      exact .down hnone (hwhy hup.1 hup.2) (by simp [callNow]) (onDisconnectLock_disc d)
  · have hcore : disconnectCore d = (d, false) := by rw [disconnectCore, if_neg hup]
    simp only [runTodo, hcore, Bool.false_eq_true, if_false]
    refine ⟨[], by rw [hlog, List.append_nil], .quiet (fun hc => ?_) fun hd => ?_⟩
    · exact ⟨hstate ▸ hc, hnone⟩
    · exact ⟨.inr (hdisc ▸ hd), hnone⟩

theorem sendDisconnect_notes :
    ∃ evs, (sendDisconnect c).settle.log = c.log ++ evs ∧
      Notes c (sendDisconnect c).settle .sendDisconnect (callMarks evs) := by
  have hstill : Notes c c .sendDisconnect (callMarks []) :=
    .quiet (fun hc => ⟨hc, rfl⟩) fun hd => ⟨.inr hd, rfl⟩
  simp only [Ludlc.sendDisconnect, Out.settle]
  split
  · exact ⟨[], by simp [runTodo], hstill⟩
  next hconn =>
  have hconn : c.connState = .connected := by simpa using hconn
  split
  · exact ⟨[], by simp [runTodo], hstill⟩
  · have hback : Silent c (if !c.flags.uIdle && !c.flags.discAfterTx then
        confirmULock { c with uPacket := { c.uPacket with result := .ecanceled } } else c) := by
      split
      · exact (hushed_confirmULock { c with
          uPacket := { c.uPacket with result := .ecanceled } }).silent
      · exact .of_log rfl
    obtain ⟨evs, hlog, hm⟩ := hback
    refine ⟨evs, hlog, ?_⟩
    rw [hm]
    exact .quiet (fun _ => ⟨hconn, rfl⟩) fun _ => ⟨.inl hconn, rfl⟩

theorem run_notes (a : Call w β) :
    ∃ evs, (a.run c).settle.log = c.log ++ evs ∧ Notes c (a.run c).settle a (callMarks evs) := by
  cases a with
  | enqueueData dstChan buf size ttl =>
    obtain ⟨htodo, hd⟩ := enqueueData_cases c c.log.length dstChan (.ofPtr buf) size ttl
    simp only [Call.run, Out.settle, htodo, List.foldl_nil]
    rcases hd with hd | ⟨-, -, -, -, hd⟩
    · rw [hd]
      exact ⟨[], by simp, .quiet (fun hc => ⟨hc, rfl⟩) fun hdisc => ⟨.inr hdisc, rfl⟩⟩
    · rw [hd]
      exact ⟨_, rfl, .quiet (fun hc => ⟨hc, rfl⟩) fun hdisc => ⟨.inr hdisc, rfl⟩⟩
  | sendUrgentData dstChan buf size =>
    obtain ⟨htodo, hd⟩ := sendUrgentData_cases c c.log.length dstChan (.ofPtr buf) size
    simp only [Call.run, Out.settle, htodo, List.foldl_nil]
    rcases hd with hd | ⟨-, -, -, -, hd⟩
    · rw [hd]
      exact ⟨[], by simp, .quiet (fun hc => ⟨hc, rfl⟩) fun hdisc => ⟨.inr hdisc, rfl⟩⟩
    · rw [hd]
      exact ⟨_, rfl, .quiet (fun hc => ⟨hc, rfl⟩) fun hdisc => ⟨.inr hdisc, rfl⟩⟩
  | sendDisconnect => exact sendDisconnect_notes
  | connect =>
    simp only [Call.run, Ludlc.connect, Out.settle]
    split
    next hi =>
      have hnone : drops c (.connect : Call w β) = false := by
        have : c.flags.inited = false := by simpa using hi
        simp [drops, this]
      exact ⟨[], by simp, .quiet (fun hc => ⟨hc, hnone⟩) fun hd => ⟨.inr hd, hnone⟩⟩
    split
    next ht =>
      have hnone : drops c (.connect : Call w β) = false := by simp [drops, ht]
      exact ⟨[], by simp [runTodo], .quiet (fun hc => ⟨hc, hnone⟩) fun hd => ⟨.inr hd, hnone⟩⟩
    · obtain ⟨evs, hlog, hm⟩ := (hushed_onDisconnectLock c).silent
      refine ⟨evs, hlog, ?_⟩
      rw [hm]
      refine .quiet (fun hc => ?_) fun hd => ?_
      · simp [runTodo] at hc
      · have hdisc := onDisconnectLock_disc c
        exact absurd (hdisc.symm.trans hd) (by simp)
  | handleDisconnect =>
    have hsettle : (Call.run c .handleDisconnect).settle = runTodo c .handleDisconnect := by
      simp only [Call.run, Ludlc.handleDisconnect, Out.settle, runTodo, disconnectCore]
      split <;> rfl
    rw [hsettle]
    refine handleDisconnect_notes rfl rfl rfl rfl fun hdown hterm => ?_
    cases hc : c.connState <;> simp_all [midHandshake]
  | getPacketToSend mem =>
    change ∃ evs, (getPacketToSend mem c).settle.log = _ ∧ Notes c (getPacketToSend mem c).settle _ _
    cases hd : txDiscSent c with
    | true =>
      rw [getPacketToSend_disc mem hd]
      simp only [txDiscSent, Bool.and_eq_true] at hd
      exact handleDisconnect_notes rfl rfl rfl rfl fun _ _ => .inr (.inl hd.2)
    | false =>
      obtain ⟨hs, -⟩ := getPacketToSend_step mem hd
      have htodo := getPacketToSend_todo mem hd
      apply notes_of_silent (l := []) (hushed_getPacketToSend mem c).silent
      · rw [htodo]
        exact disconnect_notMem_callIf _ _
      · rw [htodo, todoMarks_callIf]
        split <;> rfl
      · intro evs
        refine .quiet (fun hc => ⟨hs.connState ▸ hc, rfl⟩) fun hdisc => ⟨.inr ?_, rfl⟩
        exact hs.discAfterTx ▸ hdisc
  | receive p pktSz tstamp => exact receive_notes p pktSz tstamp

/-- A link with what has been seen of its sessions. -/
structure Traced {w : Wire} (cfg : Cfg w) (β : Type) where
  conn : Conn cfg β
  marks : List (Mark w β)

/-- What can happen at a link: a call, or its transport setting TERMINATE. -/
inductive Event (w : Wire) (β : Type)
  | call (a : Call w β)
  | terminate

/-- A step shows the call and the callbacks it has made by the time it returns. -/
def traceStep (s : Traced cfg β) : Event w β → Option (Traced cfg β)
  | .call a => (step s.conn a).map fun d =>
    ⟨d, s.marks ++ .call a s.conn.connState (a.run s.conn).ret ::
      callMarks (d.log.drop s.conn.log.length)⟩
  | .terminate => some ⟨setTerminate s.conn, s.marks ++ [.terminate]⟩

/-- The last session announced has neither been reported down nor been dropped by `ludlc_connect`. -/
def OpenSession (marks : List (Mark w β)) : Prop :=
  ∃ old since, marks = old ++ .onConnect :: since ∧ .onDisconnect ∉ since ∧
    ∀ found, .call .connect found .ok ∉ since

/-- The call being made is a `ludlc_handle_disconnect` that found a handshake in progress. -/
def BrokenHandshake (marks : List (Mark w β)) : Prop :=
  ∃ old found ret, marks = old ++ [.call .handleDisconnect found ret] ∧
    (found = .waitConn1 ∨ found = .waitConn2)

/-- Every `on_disconnect` is the end of a session announced, or of a handshake that
`ludlc_handle_disconnect` found in progress. -/
def Reported (marks : List (Mark w β)) : Prop :=
  ∀ pre post, marks = pre ++ .onDisconnect :: post → OpenSession pre ∨ BrokenHandshake pre

section Marks

variable {marks : List (Mark w β)}

theorem Reported.snoc {m : Mark w β} (h : Reported marks)
    (hm : m = .onDisconnect → OpenSession marks ∨ BrokenHandshake marks) :
    Reported (marks ++ [m]) := by
  intro pre post heq
  rcases List.eq_nil_or_concat post with rfl | ⟨post, last, rfl⟩
  · obtain ⟨rfl, hlast⟩ := List.append_inj' heq rfl
    exact hm (List.singleton_inj.mp hlast)
  · rw [List.concat_eq_append, ← List.cons_append, ← List.append_assoc] at heq
    exact h pre post (List.append_inj' heq rfl).1

theorem OpenSession.snoc {m : Mark w β} (h : OpenSession marks) (hdown : m ≠ .onDisconnect)
    (hdrop : ∀ found, m ≠ .call .connect found .ok) : OpenSession (marks ++ [m]) := by
  obtain ⟨old, since, rfl, hd, hc⟩ := h
  refine ⟨old, since ++ [m], by simp, ?_, fun found => ?_⟩
  · simpa [hd] using hdown.symm
  · simpa [hc found] using (hdrop found).symm

theorem openSession_connect (marks : List (Mark w β)) : OpenSession (marks ++ [.onConnect]) :=
  ⟨marks, [], rfl, by simp, by simp⟩

end Marks

/-- What holds between two calls: a session that is up, or whose DISCONNECT is still to be sent, is one
announced. -/
structure Announced (s : Traced cfg β) : Prop where
  inited : s.conn.flags.inited = true
  reported : Reported s.marks
  up : s.conn.connState = .connected → OpenSession s.marks
  disc : s.conn.flags.discAfterTx = true → OpenSession s.marks

theorem announced_init : Announced (⟨Conn.init cfg β, []⟩ : Traced cfg β) where
  inited := rfl
  reported pre post h := by simp at h
  up h := by cases h
  disc h := by cases h

theorem Announced.call {s : Traced cfg β} {a : Call w β} (h : Announced s) :
    Announced ⟨(a.run s.conn).settle, s.marks ++ .call a s.conn.connState (a.run s.conn).ret ::
      callMarks ((a.run s.conn).settle.log.drop s.conn.log.length)⟩ := by
  obtain ⟨evs, hlog, hnotes⟩ := run_notes (c := s.conn) a
  rw [hlog, List.drop_left]
  have hinited : (a.run s.conn).settle.flags.inited = true := by
    rw [settle_inited, run_inited, h.inited]
  generalize hm : Mark.call a s.conn.connState (a.run s.conn).ret = m
  have hcall : Reported (s.marks ++ [m]) := h.reported.snoc fun hd => by simp [← hm] at hd
  have hopen : drops s.conn a = false → OpenSession s.marks → OpenSession (s.marks ++ [m]) := by
    intro hnone hs
    refine hs.snoc (by simp [← hm]) fun found heq => ?_
    rw [← hm, Mark.call.injEq] at heq
    obtain ⟨rfl, -, hret⟩ := heq
    simp only [drops, h.inited, Bool.true_and, decide_eq_false_iff_not, not_not] at hnone
    simp [Call.run, connect, h.inited, hnone] at hret
  generalize (a.run s.conn).settle = d at hnotes hinited ⊢
  generalize callMarks evs = l at hnotes ⊢
  rw [List.append_cons]
  cases hnotes with
  | quiet hup hdisc =>
    rw [List.append_nil]
    refine ⟨hinited, hcall, fun hc => ?_, fun hd => ?_⟩
    · obtain ⟨hc, hnone⟩ := hup hc
      exact hopen hnone (h.up hc)
    · obtain ⟨hwhy, hnone⟩ := hdisc hd
      exact hopen hnone (hwhy.elim h.up h.disc)
  | up =>
    have hnow := openSession_connect (s.marks ++ [m])
    exact ⟨hinited, hcall.snoc (by simp), fun _ => hnow, fun _ => hnow⟩
  | upDown hdown hdisc =>
    have hnow := openSession_connect (s.marks ++ [m])
    refine ⟨hinited, ?_, fun hc => absurd hc hdown, fun hd => by simp [hdisc] at hd⟩
    rw [List.append_cons]
    exact (hcall.snoc (by simp)).snoc fun _ => .inl hnow
  | down hnone hwhy hdown hdisc =>
    refine ⟨hinited, ?_, fun hc => absurd hc hdown, fun hd => by simp [hdisc] at hd⟩
    refine hcall.snoc fun _ => ?_
    rcases hwhy with hc | hd | hmid
    · exact .inl (hopen hnone (h.up hc))
    · exact .inl (hopen hnone (h.disc hd))
    · right
      cases a with
      | handleDisconnect =>
        exact ⟨s.marks, _, _, by rw [hm], by simpa [midHandshake] using hmid⟩
      | _ => cases hmid

theorem Announced.step {s s' : Traced cfg β} {e : Event w β} (h : Announced s)
    (hs : traceStep s e = some s') : Announced s' := by
  cases e with
  | call a =>
    simp only [traceStep, Option.map_eq_some_iff] at hs
    obtain ⟨d, hd, rfl⟩ := hs
    rw [step_eq hd]
    exact h.call
  | terminate =>
    cases hs
    refine ⟨h.inited, h.reported.snoc (by simp), fun hc => (by cases hc), fun hd => ?_⟩
    exact (h.disc hd).snoc (by simp) (by simp)

/-- The runs of a link and its transport from `ludlc_connection_init` on. -/
abbrev Traces (s : Traced cfg β) : Prop :=
  Reachable (⟨Conn.init cfg β, []⟩ : Traced cfg β) traceStep (fun _ _ => True) s

/-- A session is reported down only if it was reported up, has not been reported down since and has
not been dropped by `ludlc_connect`, or if the transport breaks off a handshake. -/
theorem disconnect_reported {s : Traced cfg β} (h : Traces s) : Reported s.marks :=
  (h.invariant announced_init fun hi _ hs => Announced.step hi hs).reported

/-- A handshake that got its first step and no more is reported down, and no session ever was up. -/
theorem disconnect_unannounced :
    let cfg := Cfg.ofBuild (.ofWindow 1 (by decide)) false 1 (by decide)
    ¬ ∀ s : Traced cfg Unit, Traces s →
      ∀ pre post, s.marks = pre ++ .onDisconnect :: post →
        ∃ old since, pre = old ++ .onConnect :: since ∧ .onDisconnect ∉ since ∧
          ∀ found ret, .call .connect found ret ∉ since := by
  intro cfg h
  obtain ⟨s, hs, hmarks⟩ := Reachable.of_exec (⟨Conn.init cfg Unit, []⟩ : Traced cfg Unit) traceStep
    (fun _ _ => true) [.call (.receive (.hshake _ 0) 3 0), .call .handleDisconnect]
    (fun s => s.marks.any Mark.isOnDisconnect ∧ s.marks.all fun m => !m.isOnConnect)
    (by decide +kernel) (by decide +kernel)
  obtain ⟨hdown, hnone⟩ := of_decide_eq_true hmarks
  obtain ⟨m, hm, hdown⟩ := List.any_eq_true.mp hdown
  obtain ⟨pre, post, heq⟩ := List.append_of_mem hm
  obtain rfl : m = .onDisconnect := by
    cases m <;> simp [Mark.isOnDisconnect] at hdown ⊢
  obtain ⟨old, since, rfl, -⟩ := h s (hs.mono fun _ _ _ => trivial) pre post heq
  have := List.all_eq_true.mp hnone .onConnect (by rw [heq]; simp)
  simp [Mark.isOnConnect] at this

/-- A session comes up and the transport reports the line broken. -/
theorem disconnect_reported_once :
    let cfg := Cfg.ofBuild (.ofWindow 1 (by decide)) false 1 (by decide)
    ∃ s : Traced cfg Unit, s.marks.countP Mark.isOnDisconnect = 1 ∧ Reported s.marks := by
  intro cfg
  obtain ⟨s, hs, hmarks⟩ := Reachable.of_exec (⟨Conn.init cfg Unit, []⟩ : Traced cfg Unit) traceStep
    (fun _ _ => true) [.call (.receive (.hshake _ 0) 3 0), .call (.receive (.hshake _ 1) 3 0),
      .call (.receive (.hshake _ 2) 3 0), .call .handleDisconnect]
    (fun s => s.marks.countP Mark.isOnDisconnect = 1) (by decide +kernel) (by decide +kernel)
  exact ⟨s, of_decide_eq_true hmarks, disconnect_reported (hs.mono fun _ _ _ => trivial)⟩

end Inline

end Ludlc
