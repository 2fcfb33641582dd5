import Ludlc.Sections

/-! # No session on a sequence that was not reset

Between the end of one session and the start of the next the counters have been set to zero, and no
reset lands in a session. It holds as long as no handshake completes while the reset waits for the
reporter, which the code does not see to.
-/

namespace Ludlc.Threads

open SeqNum Runs

variable {w : Wire} {cfg : Cfg w} {β T : Type}

/-- The sequence has been reset since the last session ended. -/
def ResetSince (log : List (Ev w β)) : Prop :=
  ∀ pre post, log = pre ++ .down :: post → .seqReset ∈ post

/-- The events that leave the sequence and the session alone. -/
def Steady (evs : List (Ev w β)) : Prop := .down ∉ evs ∧ .seqReset ∉ evs

theorem steady_nil : Steady ([] : List (Ev w β)) := by simp [Steady]

theorem steady_up (up : Bool) : Steady (upMark up : List (Ev w β)) := by
  cases up <;> simp [Steady, upMark]

theorem steady_copy (it : Option (Kind × PacketQueueItem w β)) : Steady (copyLog it) := by
  unfold copyLog
  split
  · exact steady_nil
  · split <;> simp [Steady]

theorem Decides.steady {evs : List (Ev w β)} (h : Decides evs) : Steady evs :=
  ⟨fun he => by simpa [Ev.decides] using h _ he, fun he => by simpa [Ev.decides] using h _ he⟩

theorem Steady.append {evs evs' : List (Ev w β)} (h : Steady evs) (h' : Steady evs') :
    Steady (evs ++ evs') :=
  ⟨by simp [h.1, h'.1], by simp [h.2, h'.2]⟩

theorem ResetSince.append {log evs : List (Ev w β)} (h : ResetSince log) (hs : Steady evs) :
    ResetSince (log ++ evs) := by
  intro pre post heq
  rcases List.append_eq_append_iff.mp heq with ⟨mid, hpre, hpost⟩ | ⟨mid, hlog, hmid⟩
  · exact absurd (hpost ▸ by simp) hs.1
  · cases mid with
    | nil =>
      rw [List.nil_append] at hmid
      exact absurd (hmid ▸ by simp) hs.1
    | cons e mid =>
      obtain ⟨rfl, rfl⟩ := List.cons.inj hmid
      exact List.mem_append_left _ (h pre mid hlog)

theorem resetSince_reset (log : List (Ev w β)) {evs : List (Ev w β)} (hs : .down ∉ evs) :
    ResetSince (log ++ .seqReset :: evs) := by
  intro pre post heq
  rcases List.append_eq_append_iff.mp heq with ⟨mid, hpre, hpost⟩ | ⟨mid, hlog, hmid⟩
  · cases mid with
    | nil => cases hpost
    | cons e mid =>
      obtain ⟨-, rfl⟩ := List.cons.inj hpost
      exact absurd (by simp) hs
  · cases mid with
    | nil => cases hmid
    | cons e mid =>
      obtain ⟨-, rfl⟩ := List.cons.inj hmid
      simp

/-- A link that is up came up on a sequence that had been reset, and has been left alone since. A
queue that is open is one whose sequence has been reset. -/
structure Session (c : Conn cfg β) : Prop where
  reset : c.flags.busOut = false → ResetSince c.log
  isOpen : c.connState = .connected → c.flags.busOut = false
  up : c.connState = .connected →
    ∃ pre post, c.log = pre ++ .up :: post ∧ ResetSince pre ∧ Steady post

variable {c d : Conn cfg β}

theorem Session.still (evs : List (Ev w β)) (h : Session c) (hlog : d.log = c.log ++ evs)
    (hs : Steady evs) (hbusy : d.flags.busOut = c.flags.busOut)
    (hstate : d.connState = .connected → c.connState = .connected) : Session d where
  reset hb := hlog ▸ (h.reset (hbusy ▸ hb)).append hs
  isOpen hc := hbusy.trans (h.isOpen (hstate hc))
  up hc := by
    obtain ⟨pre, post, heq, hpre, hpost⟩ := h.up (hstate hc)
    exact ⟨pre, post ++ evs, by rw [hlog, heq]; simp, hpre, hpost.append hs⟩

theorem Session.section (hmt : cfg.mt = true) {gap : Bool} {o : Out cfg β} (h : Session c)
    (hs : Section gap c o) :
    Session o.conn := by
  cases hs with
  | link up evs hslot hbusy hevs hlog hup hno =>
    cases up with
    | false =>
      refine h.still evs (by simpa [upMark] using hlog) hevs.steady hbusy (hno rfl).mp
    | true =>
      obtain ⟨-, -, hopen⟩ := hup rfl
      have hlog : o.conn.log = c.log ++ .up :: evs := by simpa [upMark] using hlog
      refine ⟨fun _ => ?_, fun _ => hbusy.trans hopen, fun _ => ?_⟩
      · rw [hlog]
        exact (h.reset hopen).append ((steady_up true).append hevs.steady)
      · exact ⟨c.log, evs, hlog, h.reset hopen, hevs.steady⟩
  | down e up hslot hlog hconn =>
    obtain ⟨items, hdown⟩ := onDisconnectLock_log hmt e
    have hstate : o.conn.connState ≠ .connected := by simp [hconn]
    refine ⟨fun hb => ?_, fun hc => absurd hc hstate, fun hc => absurd hc hstate⟩
    have hdrained : undrained (sweep e) = false := by
      have := (onDisconnectLock_slot hmt e).1
      rw [← hconn] at this
      rwa [this] at hb
    rw [hconn, hdown, hdrained, if_neg Bool.false_ne_true, List.append_assoc]
    exact resetSince_reset _ (by simp)
  | hold it _ _ _ _ _ _ hconn =>
    refine h.still [.accepted .unnumbered it] ?_ (by simp [Steady]) ?_ ?_ <;>
      simp [hconn, Conn.hold]
  | disconnect _ _ hconn =>
    refine h.still [] ?_ steady_nil ?_ ?_ <;> simp [hconn, replaced]
  | discSent _ hconn =>
    refine h.still [] ?_ steady_nil ?_ ?_ <;> simp [hconn]
  | frame mem _ _ hstep hlog =>
    exact h.still _ hlog (steady_copy _) hstep.busOut fun hc => hstep.connState ▸ hc

theorem Session.pass (h : Session c) : Session (confirmPass c).1 := by
  have htaken : Session (taken c) := by
    refine h.still [] ?_ steady_nil ?_ ?_ <;> rw [taken_eq] <;> simp
  have hreset : Session (seqResetIfDrained (taken c)) := by
    cases hb : (taken c).flags.busOut with
    | false =>
      rw [seqReset_idle (by simp [hb])]
      exact htaken
    | true =>
      cases hu : undrained (taken c) with
      | true =>
        rw [seqReset_idle fun _ => hu]
        exact htaken
      | false =>
        have hdown : (taken c).connState ≠ .connected := fun hc => by
          simp [htaken.isOpen hc] at hb
        rw [seqReset_drained hb hu]
        exact ⟨fun _ => resetSince_reset _ (by simp), fun hc => absurd hc hdown,
          fun hc => absurd hc hdown⟩
  simp only [confirmPass]
  split
  · refine hreset.still [] ?_ steady_nil rfl id
    exact (List.append_nil _).symm
  · exact hreset

theorem Session.move [DecidableEq T] (hmt : cfg.mt = true) {gap : Bool}
    {s s' : Sys cfg β T} {t : T} (h : Session s.conn) (hm : Move gap s t s') : Session s'.conn := by
  cases hm with
  | locked o rest hs => exact h.section hmt hs
  | call cb => exact h.still [.call cb] rfl (by simp [Steady]) rfl id
  | ret cb => exact h.still [.ret cb] rfl (by simp [Steady]) rfl id
  | leave => exact h
  | claim => exact h.still [] (by simp) steady_nil rfl id
  | pass => exact h.pass

theorem session_init : Session (Sys.init cfg β T).conn := by
  refine ⟨fun _ pre post heq => ?_, fun _ => rfl, fun hc => by cases hc⟩
  simp [Sys.init, Conn.init] at heq

/-- A link that is up runs on an open queue and on a sequence that was reset after the session before
and not since. -/
theorem session_reset [DecidableEq T] [Fintype T] (hmt : cfg.mt = true) {rx tx : T}
    {s : Sys cfg β T} (h : Reaches rx tx s) (hup : s.conn.connState = .connected) :
    s.conn.flags.busOut = false ∧ ∃ pre post, s.conn.log = pre ++ .up :: post ∧
      .down ∉ post ∧ .seqReset ∉ post ∧
      ∀ old between, pre = old ++ .down :: between → .seqReset ∈ between := by
  have hs : Session s.conn := reaches_invariant hmt (I := fun s => Session s.conn) session_init
    (fun hi => hi.isOpen) (fun hi hm => hi.move hmt hm) h
  obtain ⟨pre, post, heq, hpre, hpost⟩ := hs.up hup
  exact ⟨hs.isOpen hup, pre, post, heq, hpost.1, hpost.2, hpre⟩

theorem session_not_reset : ¬ ∀ s : Sys lone Unit (Fin 3),
    Reachable (Sys.init lone Unit (Fin 3)) (step 0 1) (fun _ _ => True) s →
      s.conn.connState = .connected → s.conn.flags.busOut = false := by
  obtain ⟨s, hs, hstale⟩ := Reachable.of_exec (Sys.init lone Unit (Fin 3)) (step 0 1) (fun _ _ => true)
    (staleStart)
    (fun s => s.conn.connState = .connected ∧ s.conn.flags.busOut = true)
    (by decide +kernel) (by decide +kernel)
  intro h
  obtain ⟨hup, hbusy⟩ := of_decide_eq_true hstale
  have := h s (hs.mono fun _ _ _ => trivial) hup
  simp [hbusy] at this

/-- The first session, after `ludlc_connect` has reset the sequence. -/
theorem session_reset_first : ∃ s : Sys lone Unit (Fin 3), Reaches 0 1 s ∧
    s.conn.connState = .connected ∧ s.conn.flags.busOut = false := by
  obtain ⟨s, hs, hup⟩ := Reachable.of_exec (Sys.init lone Unit (Fin 3)) (step 0 1) freshStart
    (Act.through 2 .connect 2 ++ Act.handshake 0 1)
    (fun s => s.conn.connState = .connected) (by decide +kernel) (by decide +kernel)
  have hup := of_decide_eq_true hup
  exact ⟨s, hs, hup, (session_reset rfl hs hup).1⟩

end Ludlc.Threads
