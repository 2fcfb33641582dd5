import Ludlc.Callbacks

/-! # The peer's capabilities

`on_caps` is decided on the handshake step that takes an end out of State 1 and called once the lock
is released, apart from the `on_connect` that a later packet leads to. A run is followed through what
moves the connection and those two callbacks.
-/

namespace Ludlc

open Runs

variable {w : Wire} {cfg : Cfg w} {β : Type}

/-- What a run shows of a connection coming up: it enters DISCONNECTED, a packet takes it from State 1
to State 2, a packet completes the handshake, and the two callbacks. -/
inductive Stage (w : Wire)
  | down
  | left (p : Packet w) (pktSz : Nat)
  | up
  | caps (data : List UInt8) (size : Nat)
  | connect
  deriving DecidableEq

def Stage.isCaps : Stage w → Bool
  | .caps _ _ => true
  | _ => false

def Stage.isLeft : Stage w → Bool
  | .left _ _ => true
  | _ => false

def Callback.stage : Callback w β → Option (Stage w)
  | .onCaps data size => some (.caps data size)
  | .onConnect => some .connect
  | _ => none

/-- The two callbacks as a log has them. -/
def callStages (log : List (Ev w β)) : List (Stage w) := (spoken log).filterMap Callback.stage

/-- The callback for the payload of a packet, `NULL` where it has none. -/
def capsOf (p : Packet w) (pktSz : Nat) : Stage w :=
  .caps (if pktSz - w.hdrSz = 0 then [] else p.payload) (pktSz - w.hdrSz)

/-- A change of state that enters DISCONNECTED. -/
def downOf (found last : ConnState) : List (Stage w) :=
  if found ≠ .disconnected ∧ last = .disconnected then [.down] else []

/-- A packet that takes a connection out of State 1 and on to State 2. -/
def leftOf (found last : ConnState) (p : Packet w) (pktSz : Nat) : List (Stage w) :=
  if found = .waitConn1 ∧ last = .waitConn2 then [.left p pktSz] else []

/-- Whether a packet completes the handshake. -/
def bringsUp (c : Conn cfg β) (p : Packet w) (pktSz : Nat) : Bool :=
  !rxDropped p pktSz && c.connState ≠ .connected && (rxUp c p).connState = .connected

/-- What a call shows, in order: what moves the connection with the lock held, then the callbacks. -/
def stages (c : Conn cfg β) (a : Call w β) : List (Stage w) :=
  (match a with
    | .receive p pktSz _ =>
      leftOf c.connState (a.run c).settle.connState p pktSz ++ if bringsUp c p pktSz then [.up] else []
    | _ => []) ++
    downOf c.connState (a.run c).settle.connState ++
    callStages ((a.run c).settle.log.drop c.log.length)

/-- What a call that finds a connection in one state and leaves it in another can show. -/
inductive Stages (w : Wire) (found last : ConnState) : List (Stage w) → Prop
  | quiet : (last = .waitConn1 → found = .disconnected ∨ found = .waitConn1) →
      (last = .waitConn2 → found = .waitConn2) →
      (last = .disconnected → found = .disconnected) → Stages w found last []
  | down : last = .disconnected → Stages w found last [.down]
  | caps (p : Packet w) (pktSz : Nat) : isHshake p = true → found = .waitConn1 →
      last = .waitConn2 → Stages w found last [.left p pktSz, capsOf p pktSz]
  | up : found = .waitConn2 → last = .connected → Stages w found last [.up, .connect]
  | upDown : found = .waitConn2 → last = .disconnected →
      Stages w found last [.up, .down, .connect]

/-- A connection that stays as it is or goes down, with nothing called. -/
theorem stages_downOf {found last : ConnState} (h : last = found ∨ last = .disconnected) :
    Stages w found last (downOf found last) := by
  rw [downOf]
  split
  next hd => exact .down hd.2
  next hno =>
    have hstill : last = found := by
      rcases h with h | h
      · exact h
      · by_contra hne
        exact hno ⟨fun hf => hne (h.trans hf.symm), h⟩
    exact .quiet (fun h => .inr (hstill ▸ h)) (fun h => hstill ▸ h) fun h => hstill ▸ h

section Receive

variable {c : Conn cfg β} {p : Packet w} {pktSz : Nat}

/-- Where the handshake takes the connection, and when it asks for `on_caps`. -/
theorem rxHandleHandshake_state (hne : c.connState ≠ .connected) :
    let h := rxHandleHandshake c p (isHshake p)
    (h.2.caps = true ↔ c.connState = .waitConn1 ∧ h.1.connState = .waitConn2) ∧
      (h.2.caps = true → isHshake p = true) ∧
      (h.1.connState = .connected → c.connState = .waitConn2) ∧
      (h.1.connState = .waitConn1 → c.connState = .disconnected ∨ c.connState = .waitConn1) ∧
      (h.1.connState = .waitConn2 → c.connState = .waitConn1 ∨ c.connState = .waitConn2) := by
  unfold rxHandleHandshake
  cases hs : isHshake p with
  | false => cases hc : c.connState <;> simp
  | true =>
    simp only [Bool.not_true, Bool.false_eq_true, if_false]
    split
    · cases hc : c.connState <;> simp_all [ConnState.next]
    · split
      · cases hc : c.connState <;> simp_all
      · cases hc : c.connState <;> simp_all

theorem rxUp_state (hne : c.connState ≠ .connected) :
    (rxUp c p).connState = (rxHandleHandshake c p (isHshake p)).1.connState := by
  rw [rxUp, if_neg hne]
  dsimp only
  split <;> rfl

theorem rxConnected_ret (c : Conn cfg β) (p : Packet w) (pktSz : Nat) (ret : RxRet) :
    (rxConnected c p pktSz ret).ret.caps = ret.caps ∧
      (rxConnected c p pktSz ret).ret.connected = ret.connected := by
  unfold rxConnected
  split
  · exact ⟨rfl, rfl⟩
  · split
    · split <;> exact ⟨rfl, rfl⟩
    · exact ⟨rfl, rfl⟩

theorem rxConnected_state (hc : c.connState = .connected) (p : Packet w) (pktSz : Nat)
    (ret : RxRet) :
    (rxConnected c p pktSz ret).conn.connState = .connected ∨
      (rxConnected c p pktSz ret).conn.connState = .disconnected := by
  unfold rxConnected
  split
  · exact .inr (onDisconnectLock_connState c)
  · split
    · split
      · exact .inr (onDisconnectLock_connState c)
      · exact .inl hc
    · left
      rw [rxSequence_connState, (rxHandleAck_rest _ _).connState]
      exact hc

/-- `on_caps` is asked for by the handshake step that takes the connection from State 1 to State 2. -/
theorem rxHandlePacket_caps (c : Conn cfg β) (p : Packet w) (pktSz : Nat) :
    let r := rxHandlePacket c p pktSz
    (r.ret.caps = true ↔ c.connState = .waitConn1 ∧ r.conn.connState = .waitConn2) ∧
      (r.ret.caps = true → isHshake p = true) := by
  dsimp only
  rw [rxHandlePacket]
  by_cases hdrop : rxDropped p pktSz = true
  · rw [if_pos hdrop]
    refine ⟨⟨fun h => (by cases h), ?_⟩, fun h => (by cases h)⟩
    rintro ⟨h1, h2⟩
    rw [h1] at h2
    cases h2
  rw [if_neg hdrop]
  by_cases hc : c.connState = .connected
  · rw [if_neg (not_not.mpr hc), (rxConnected_ret _ _ _ _).1]
    refine ⟨⟨fun h => (by cases h), ?_⟩, fun h => (by cases h)⟩
    rintro ⟨h, -⟩
    rw [hc] at h
    cases h
  rw [if_pos hc]
  obtain ⟨hiff, hstep, -⟩ := rxHandleHandshake_state (p := p) hc
  obtain ⟨-, -, -, -, hcont⟩ := rxHandleHandshake_spec c p hc
  generalize rxHandleHandshake c p (isHshake p) = h at hiff hstep hcont
  have hconn : (if h.2.connected then (watchdogRestart h.1).emit .up else h.1).connState =
      h.1.connState := by split <;> rfl
  dsimp only
  generalize (if h.2.connected then (watchdogRestart h.1).emit .up else h.1) = d at hconn
  split
  · rw [hconn]
    exact ⟨hiff, hstep⟩
  next hgo =>
    have hgo : h.2.cont = true := by simpa using hgo
    obtain ⟨-, hnum, hup⟩ := hcont hgo
    have hno : h.2.caps ≠ true := by
      intro hcaps
      rw [hstep hcaps] at hnum
      cases hnum
    rw [(rxConnected_ret _ _ _ _).1]
    refine ⟨⟨fun hcaps => absurd hcaps hno, ?_⟩, fun hcaps => absurd hcaps hno⟩
    rintro ⟨-, hlast⟩
    rcases rxConnected_state (hconn.trans hup) p pktSz h.2 with hst | hst
    · rw [hst] at hlast
      cases hlast
    · rw [hst] at hlast
      cases hlast

/-- `on_connect` is asked for by the packet that completes the handshake. -/
theorem rxHandlePacket_connected (c : Conn cfg β) (p : Packet w) (pktSz : Nat) :
    (rxHandlePacket c p pktSz).ret.connected = bringsUp c p pktSz := by
  rw [rxHandlePacket, bringsUp]
  by_cases hdrop : rxDropped p pktSz = true
  · simp [hdrop]
  rw [if_neg hdrop]
  by_cases hc : c.connState = .connected
  · rw [if_neg (not_not.mpr hc), (rxConnected_ret _ _ _ _).2]
    simp [hc]
  rw [if_pos hc]
  obtain ⟨-, -, -, hconn, -⟩ := rxHandleHandshake_spec c p hc
  have hup : (rxHandleHandshake c p (isHshake p)).2.connected =
      (!rxDropped p pktSz && decide (c.connState ≠ .connected) &&
        decide ((rxUp c p).connState = .connected)) := by
    rw [rxUp_state hc, Bool.eq_iff_iff, hconn]
    simp [hdrop, hc]
  dsimp only
  split
  · exact hup
  · rw [(rxConnected_ret _ _ _ _).2]
    exact hup

theorem receive_settle_state (c : Conn cfg β) (p : Packet w) (pktSz tstamp : Nat) :
    (receive c p pktSz tstamp).settle.connState = (rxHandlePacket c p pktSz).conn.connState := by
  rw [settle_eq (receive_todo c p pktSz tstamp)]
  rfl

theorem callStages_receive (c : Conn cfg β) (p : Packet w) (pktSz tstamp : Nat) :
    callStages ((receive c p pktSz tstamp).settle.log.drop c.log.length) =
      (if (rxHandlePacket c p pktSz).ret.caps then [capsOf p pktSz] else []) ++
        if (rxHandlePacket c p pktSz).ret.connected then [.connect] else [] := by
  obtain ⟨evs, hlog, hnone⟩ := hushed_rxHandlePacket c p pktSz
  have hall : (receive c p pktSz tstamp).settle.log =
      c.log ++ (evs ++ todoLog (receive c p pktSz tstamp).todo) := by
    rw [settle_eq (receive_todo c p pktSz tstamp), ← List.append_assoc, ← hlog]
    rfl
  rw [hall, List.drop_left, callStages, spoken_append, hnone, List.nil_append, spoken_todoLog, receive,
    todoSpoken_receive]
  generalize rxHandlePacket c p pktSz = r
  rw [List.filterMap_append, List.filterMap_append, List.filterMap_append]
  cases r.ret.caps <;> cases r.ret.connected <;> cases r.ret.disconnect <;> cases r.ret.accept <;> rfl

theorem receive_stages (c : Conn cfg β) (p : Packet w) (pktSz tstamp : Nat) :
    Stages w c.connState (receive c p pktSz tstamp).settle.connState
      (stages c (.receive p pktSz tstamp)) := by
  simp only [stages, Call.run]
  rw [callStages_receive, receive_settle_state, rxHandlePacket_connected]
  have hfrom : bringsUp c p pktSz = true → c.connState = .waitConn2 := by
    intro hup
    simp only [bringsUp, Bool.and_eq_true, decide_eq_true_eq] at hup
    obtain ⟨⟨-, hne⟩, hup⟩ := hup
    rw [rxUp_state hne] at hup
    exact (rxHandleHandshake_state hne).2.2.1 hup
  have hconn := rxHandlePacket_connected c p pktSz
  have hsteps := rxHandlePacket_step c p pktSz
  obtain ⟨hcaps, hnum⟩ := rxHandlePacket_caps c p pktSz
  generalize rxHandlePacket c p pktSz = r at hsteps hcaps hnum hconn ⊢
  -- a packet after which the link is up or down, having brought it up or not
  have hlink : ∀ {last : ConnState}, r.conn.connState = last → (last = .connected ∨ last = .disconnected) →
      (bringsUp c p pktSz = false → c.connState = .connected) →
      Stages w c.connState r.conn.connState
        (leftOf c.connState r.conn.connState p pktSz ++
          (if bringsUp c p pktSz = true then [.up] else []) ++ downOf c.connState r.conn.connState ++
          ((if r.ret.caps = true then [capsOf p pktSz] else []) ++
            if bringsUp c p pktSz = true then [.connect] else [])) := by
    intro last hlast hend hold
    have hno : r.ret.caps = false := by
      rcases hend with h | h <;> simpa [hlast, h] using hcaps
    rw [hlast, hno]
    cases hup : bringsUp c p pktSz with
    | true =>
      rw [hfrom hup]
      rcases hend with rfl | rfl
      · exact .up rfl rfl
      · exact .upDown rfl rfl
    | false =>
      rw [hold hup]
      rcases hend with rfl | rfl
      · exact stages_downOf (.inl rfl)
      · exact stages_downOf (.inr rfl)
  cases hsteps with
  | dropped =>
    have hup : bringsUp c p pktSz = false := hconn.symm
    have hleft : leftOf c.connState c.connState p pktSz = [] :=
      if_neg (by rintro ⟨h1, h2⟩; rw [h1] at h2; cases h2)
    simp only [hup, hleft, Bool.false_eq_true, if_false, List.append_nil, List.nil_append]
    exact stages_downOf (.inl rfl)
  | handshake ret hdrop hne =>
    obtain ⟨-, -, -, hone, htwo⟩ := rxHandleHandshake_state (p := p) hne
    rw [← rxUp_state hne] at hone htwo
    by_cases hlast : (rxUp c p).connState = .connected
    · exact hlink hlast (.inl rfl) fun hno => by simp [bringsUp, hdrop, hne, hlast] at hno
    have hup : bringsUp c p pktSz = false := by simp [bringsUp, hlast]
    simp only [hup, Bool.false_eq_true, if_false, List.append_nil]
    cases hcap : ret.caps with
    | true =>
      obtain ⟨hfound, htwo⟩ := hcaps.mp hcap
      rw [hfound, htwo]
      exact .caps p pktSz (hnum hcap) rfl rfl
    | false =>
      have hleft : leftOf c.connState (rxUp c p).connState p pktSz = [] :=
        if_neg fun h => absurd (hcaps.mpr h) (by simp [hcap])
      simp only [hleft, Bool.false_eq_true, if_false, List.append_nil, List.nil_append]
      by_cases hdown : (rxUp c p).connState = .disconnected
      · exact stages_downOf (.inr hdown)
      · rw [downOf, if_neg fun h => hdown h.2]
        refine .quiet hone (fun h => ?_) fun h => absurd h hdown
        rcases htwo h with hfound | hfound
        · exact absurd (hcaps.mpr ⟨hfound, h⟩) (by simp [hcap])
        · exact hfound
  | lastStep _ hc => exact hlink hc (.inl rfl) fun _ => hc
  | down ret hdrop hup =>
    refine hlink (onDisconnectLock_connState _) (.inr rfl) fun hno => ?_
    simpa [bringsUp, hdrop, hup] using hno
  | data ret a s hdrop hup _ ha hs =>
    have hlast : s.1.connState = .connected := by
      rw [hs, rxSequence_connState, ha, (rxHandleAck_rest _ _).connState]
      exact hup
    refine hlink hlast (.inl rfl) fun hno => ?_
    simpa [bringsUp, hdrop, hup] using hno

end Receive

/-- A call that calls neither back shows at most that the connection goes down. -/
theorem stages_of_hushed {c : Conn cfg β} {a : Call w β} (hrx : ∀ p n t, a ≠ .receive p n t)
    (hsaid : callStages ((a.run c).settle.log.drop c.log.length) = [])
    (hlast : (a.run c).settle.connState = c.connState ∨
      (a.run c).settle.connState = .disconnected) :
    Stages w c.connState (a.run c).settle.connState (stages c a) := by
  have hmove : stages c a = downOf c.connState (a.run c).settle.connState := by
    rw [stages.eq_def, hsaid, List.append_nil]
    cases a with
    | receive p n t => exact absurd rfl (hrx p n t)
    | _ => rfl
  rw [hmove]
  exact stages_downOf hlast

/-- What a call runs with the lock released, where that calls neither back. -/
theorem callStages_settle {c : Conn cfg β} {o : Out cfg β} (hlog : Hushed c o.conn)
    (hdis : .handleDisconnect ∉ o.todo) (htodo : (todoSpoken o.todo).filterMap Callback.stage = []) :
    callStages (o.settle.log.drop c.log.length) = [] ∧ o.settle.connState = o.conn.connState := by
  obtain ⟨evs, hlog, hnone⟩ := hlog
  rw [settle_eq hdis]
  refine ⟨?_, rfl⟩
  change callStages ((o.conn.log ++ _).drop _) = []
  rw [hlog, List.append_assoc, List.drop_left, callStages, spoken_append, hnone, spoken_todoLog]
  exact htodo

theorem callStages_disconnect {c d : Conn cfg β} (hlog : d.log = c.log)
    (hstate : d.connState = c.connState) :
    callStages ((runTodo d .handleDisconnect).log.drop c.log.length) = [] ∧
      ((runTodo d .handleDisconnect).connState = c.connState ∨
        (runTodo d .handleDisconnect).connState = .disconnected) := by
  obtain ⟨evs, hevs, hnone⟩ := hushed_disconnectCore d
  rw [hlog] at hevs
  simp only [runTodo]
  split
  next hb =>
    constructor
    · have hall : (callNow (disconnectCore d).1 .onDisconnect).log =
          c.log ++ (evs ++ [.call .onDisconnect, .ret .onDisconnect]) := by
        simp [callNow, Conn.emit, hevs]
      rw [hall, List.drop_left, callStages, spoken_append, hnone]
      rfl
    · right
      change (disconnectCore d).1.connState = _
      rw [disconnectCore] at hb ⊢
      split at hb
      next hup =>
        rw [if_pos hup]
        exact onDisconnectLock_connState d
      · cases hb
  next hb =>
    constructor
    · rw [hevs, List.drop_left, callStages, hnone]
      rfl
    · left
      rw [disconnectCore] at hb ⊢
      split at hb
      · exact absurd rfl hb
      next hup =>
        rw [if_neg hup]
        exact hstate

theorem run_stages (c : Conn cfg β) (a : Call w β) :
    Stages w c.connState (a.run c).settle.connState (stages c a) := by
  have hhush := run_hushed c a
  -- every call but `ludlc_receive`, where it carries no disconnect out on its return
  have hcall : (∀ p n t, a ≠ .receive p n t) → .handleDisconnect ∉ (a.run c).todo →
      (todoSpoken (a.run c).todo).filterMap Callback.stage = [] →
      ((a.run c).conn.connState = c.connState ∨ (a.run c).conn.connState = .disconnected) →
      Stages w c.connState (a.run c).settle.connState (stages c a) := by
    intro hrx hdis htodo hstate
    obtain ⟨hsaid, hlast⟩ := callStages_settle hhush hdis htodo
    exact stages_of_hushed hrx hsaid (hlast ▸ hstate)
  cases a with
  | receive p pktSz tstamp => exact receive_stages c p pktSz tstamp
  | enqueueData dstChan buf size ttl =>
    obtain ⟨htodo, hd⟩ := enqueueData_cases c c.log.length dstChan (.ofPtr buf) size ttl
    apply hcall
    · simp
    · simp [Call.run, htodo]
    · simp [Call.run, htodo, todoSpoken]
    · left
      change (enqueueData c c.log.length dstChan (.ofPtr buf) size ttl).conn.connState = _
      rcases hd with hd | ⟨-, -, -, -, hd⟩
      · rw [hd]
      · rw [hd]
        rfl
  | sendUrgentData dstChan buf size =>
    obtain ⟨htodo, hd⟩ := sendUrgentData_cases c c.log.length dstChan (.ofPtr buf) size
    apply hcall
    · simp
    · simp [Call.run, htodo]
    · simp [Call.run, htodo, todoSpoken]
    · left
      change (sendUrgentData c c.log.length dstChan (.ofPtr buf) size).conn.connState = _
      rcases hd with hd | ⟨-, -, -, -, hd⟩
      · rw [hd]
      · rw [hd]
        rfl
  | sendDisconnect =>
    have htodo : (sendDisconnect c).todo = [.confirmUnlocked] := by
      rw [sendDisconnect]
      split
      · rfl
      · split <;> rfl
    apply hcall
    · simp
    · simp [Call.run, htodo]
    · simp [Call.run, htodo, todoSpoken]
    · left
      simp only [Call.run, sendDisconnect]
      split
      · rfl
      split
      · rfl
      · dsimp only
        split
        · unfold confirmULock
          split <;> rfl
        · rfl
  | connect =>
    apply hcall
    · simp
    · simp only [Call.run, connect]
      split
      · simp
      · split <;> simp
    · simp only [Call.run, connect]
      split
      · rfl
      · split <;> rfl
    · simp only [Call.run, connect]
      split
      · exact .inl rfl
      · split
        · exact .inl rfl
        · exact .inr (onDisconnectLock_connState c)
  | handleDisconnect =>
    have hsettle : (Call.run c .handleDisconnect).settle = runTodo c .handleDisconnect := by
      simp only [Call.run, handleDisconnect, Out.settle, runTodo]
      split <;> rfl
    obtain ⟨hsaid, hlast⟩ := callStages_disconnect (c := c) (d := c) rfl rfl
    rw [← hsettle] at hsaid hlast
    exact stages_of_hushed (by simp) hsaid hlast
  | getPacketToSend mem =>
    cases hd : txDiscSent c with
    | true =>
      obtain ⟨hsaid, hlast⟩ := callStages_disconnect (c := c)
        (d := { c with flags := { c.flags with uDone := true } }) rfl rfl
      have hsettle : (Call.run c (.getPacketToSend mem)).settle =
          runTodo { c with flags := { c.flags with uDone := true } } .handleDisconnect := by
        rw [Call.run, getPacketToSend_disc mem hd]
        rfl
      rw [← hsettle] at hsaid hlast
      exact stages_of_hushed (by simp) hsaid hlast
    | false =>
      have htodo := getPacketToSend_todo mem hd
      apply hcall
      · simp
      · rw [Call.run, htodo]
        exact disconnect_notMem_callIf _ _
      · rw [Call.run, htodo, callIf]
        split <;> rfl
      · exact .inl (getPacketToSend_step mem hd).1.connState

namespace Inline

/-- A connection with what it has shown. -/
structure Shown {w : Wire} (cfg : Cfg w) (β : Type) where
  conn : Conn cfg β
  stages : List (Stage w)

def showStep (s : Shown cfg β) (a : Call w β) : Option (Shown cfg β) :=
  (step s.conn a).map fun d => ⟨d, s.stages ++ Ludlc.stages s.conn a⟩

/-- The runs of an end from `ludlc_connection_init` on. -/
abbrev Shows (s : Shown cfg β) : Prop :=
  Reachable (⟨Conn.init cfg β, []⟩ : Shown cfg β) showStep (fun _ _ => True) s

/-- These are the stages up to where the connection entered DISCONNECTED, or none at all. -/
def Entered (old : List (Stage w)) : Prop := old = [] ∨ ∃ before, old = before ++ [.down]

/-- Among these stages one packet took the connection out of State 1, and its payload was handed over
once. -/
def CapsOnce (since : List (Stage w)) : Prop :=
  ∃ p pktSz, isHshake p = true ∧ since.filter Stage.isLeft = [.left p pktSz] ∧
    since.filter Stage.isCaps = [capsOf p pktSz]

/-- Each `on_connect` is for a packet that completed the handshake, and follows the capabilities of the
session that came up then. The same packet may have ended that session. -/
def AnnouncedFirst (stages : List (Stage w)) : Prop :=
  ∀ pre post, stages = pre ++ .connect :: post →
    ∃ old since mid, pre = old ++ since ++ .up :: mid ∧ Entered old ∧ .down ∉ since ∧
      (mid = [] ∨ mid = [.down]) ∧ CapsOnce since

/-- What holds between two calls: what has been shown since the connection last entered
DISCONNECTED. -/
structure Coming (state : ConnState) (stages : List (Stage w)) : Prop where
  first : AnnouncedFirst stages
  since : ∃ old since, stages = old ++ since ∧ Entered old ∧ .down ∉ since ∧
    ((state = .disconnected ∨ state = .waitConn1) →
      since.filter Stage.isLeft = [] ∧ since.filter Stage.isCaps = []) ∧
    (state = .waitConn2 → CapsOnce since)

section Coming

variable {found last : ConnState} {shown l : List (Stage w)}

theorem AnnouncedFirst.append (h : AnnouncedFirst shown) (hl : .connect ∉ l) :
    AnnouncedFirst (shown ++ l) := by
  intro pre post heq
  rcases List.append_eq_append_iff.mp heq with ⟨rest, rfl, hrest⟩ | ⟨rest, rfl, hrest⟩
  · exact absurd (hrest ▸ by simp) hl
  · cases rest with
    | nil =>
      rw [List.nil_append] at hrest
      exact absurd (hrest ▸ List.mem_cons_self ..) hl
    | cons e rest =>
      obtain ⟨rfl, rfl⟩ := List.cons.inj hrest
      exact h pre rest rfl

theorem AnnouncedFirst.connect {old since mid : List (Stage w)}
    (h : AnnouncedFirst (old ++ since)) (hold : Entered old) (hdown : .down ∉ since)
    (hmid : mid = [] ∨ mid = [.down]) (hcaps : CapsOnce since) :
    AnnouncedFirst (old ++ since ++ .up :: mid ++ [.connect]) := by
  have hbefore : AnnouncedFirst (old ++ since ++ .up :: mid) := by
    apply h.append
    rcases hmid with rfl | rfl <;> simp
  intro pre post heq
  rcases List.eq_nil_or_concat post with rfl | ⟨post, e, rfl⟩
  · obtain ⟨rfl, -⟩ := List.append_inj' heq rfl
    exact ⟨old, since, mid, rfl, hold, hdown, hmid, hcaps⟩
  · rw [List.concat_eq_append, ← List.cons_append, ← List.append_assoc] at heq
    exact hbefore pre post (List.append_inj' heq rfl).1

theorem Coming.step (h : Coming found shown) (hl : Stages w found last l) :
    Coming last (shown ++ l) := by
  obtain ⟨old, since, rfl, hold, hdown, hnone, hsome⟩ := h.since
  cases hl with
  | quiet hone htwo hzero =>
    rw [List.append_nil]
    refine ⟨h.first, old, since, rfl, hold, hdown, fun hlast => hnone ?_, fun hlast => hsome (htwo hlast)⟩
    rcases hlast with hlast | hlast
    · exact .inl (hzero hlast)
    · exact hone hlast
  | down hlast =>
    refine ⟨h.first.append (by simp), old ++ since ++ [.down], [], by simp, .inr ⟨_, rfl⟩, by simp,
      fun _ => ⟨rfl, rfl⟩, fun htwo => ?_⟩
    rw [hlast] at htwo
    cases htwo
  | caps p pktSz hstep hfound hlast =>
    obtain ⟨hleft, hcaps⟩ := hnone (.inr hfound)
    refine ⟨h.first.append (by simp [capsOf]), old, since ++ [.left p pktSz, capsOf p pktSz], by simp,
      hold, by simp [hdown, capsOf], fun hst => ?_, fun _ => ⟨p, pktSz, hstep, ?_, ?_⟩⟩
    · rw [hlast] at hst
      rcases hst with hst | hst <;> cases hst
    · rw [List.filter_append, hleft]
      rfl
    · rw [List.filter_append, hcaps]
      rfl
  | up hfound hlast =>
    have hfirst := h.first.connect hold hdown (.inl rfl) (hsome hfound)
    rw [List.append_assoc] at hfirst
    refine ⟨hfirst, old, since ++ [.up, .connect], by simp, hold, by simp [hdown], fun hst => ?_,
      fun hst => ?_⟩
    · rw [hlast] at hst
      rcases hst with hst | hst <;> cases hst
    · rw [hlast] at hst
      cases hst
  | upDown hfound hlast =>
    have hfirst := h.first.connect hold hdown (.inr rfl) (hsome hfound)
    rw [List.append_assoc] at hfirst
    refine ⟨hfirst, old ++ since ++ [.up, .down], [.connect], by simp,
      .inr ⟨old ++ since ++ [.up], by simp⟩, by simp, fun _ => ⟨rfl, rfl⟩, fun hst => ?_⟩
    rw [hlast] at hst
    cases hst

end Coming

/-- Before every `on_connect` the peer's capabilities have been handed over once, as the handshake step
that took the connection out of State 1 carried them, since it last entered DISCONNECTED before the
packet that brought it up. -/
theorem caps_announced {s : Shown cfg β} (h : Shows s) : AnnouncedFirst s.stages := by
  have hcoming : Coming s.conn.connState s.stages := by
    apply h.invariant (I := fun s => Coming s.conn.connState s.stages)
    · refine ⟨fun pre post heq => (by simp at heq), [], [], rfl, .inl rfl, by simp,
        fun _ => ⟨rfl, rfl⟩, fun hst => (by cases hst)⟩
    · intro s a s' hi _ hs
      obtain ⟨d, hd, rfl⟩ := Option.map_eq_some_iff.mp hs
      rw [step_eq hd]
      exact hi.step (run_stages s.conn a)
  exact hcoming.first

/-- A DISCONNECT completes the handshake and ends the session: the connection has entered DISCONNECTED
since the capabilities were handed over, and `on_connect` comes after that. -/
theorem caps_before_down :
    let cfg := Cfg.ofBuild (.ofWindow 1 (by decide)) false 1 (by decide)
    ¬ ∀ s : Shown cfg Unit, Shows s → ∀ old since post,
      s.stages = old ++ since ++ .connect :: post → Entered old → .down ∉ since →
        (since.filter Stage.isCaps).length = 1 := by
  intro cfg h
  obtain ⟨s, hs, hstages⟩ := Reachable.of_exec (⟨Conn.init cfg Unit, []⟩ : Shown cfg Unit) showStep
    (fun _ _ => true) [.receive (.hshake _ 0) 3 0, .receive (.hshake _ 1) 3 0,
      .receive ⟨⟨⟨true, 1⟩, ⟨false, 0⟩, 0⟩, [ctrlDisconnect], none⟩ 4 0]
    (fun s => s.stages =
      [.left (.hshake _ 1) 3, .caps [] 0, .up, .down, .connect]) (by decide +kernel) (by decide +kernel)
  have hone := h s (hs.mono fun _ _ _ => trivial)
    [.left (.hshake _ 1) 3, .caps [] 0, .up, .down] [] [] (of_decide_eq_true hstages)
    (.inr ⟨[.left (.hshake _ 1) 3, .caps [] 0, .up], rfl⟩) (by simp)
  cases hone

/-- A session whose peer announces two octets. -/
theorem caps_announced_two :
    let cfg := Cfg.ofBuild (.ofWindow 1 (by decide)) false 1 (by decide)
    ∃ s : Shown cfg Unit, s.stages.filter Stage.isCaps = [.caps [7, 8] 2] ∧
      .connect ∈ s.stages ∧ AnnouncedFirst s.stages := by
  intro cfg
  obtain ⟨s, hs, hstages⟩ := Reachable.of_exec (⟨Conn.init cfg Unit, []⟩ : Shown cfg Unit) showStep
    (fun _ _ => true) [.receive (.hshake _ 0) 3 0,
      .receive { Packet.hshake _ 1 with payload := [7, 8] } 5 0, .receive (.hshake _ 2) 3 0]
    (fun s => decide (s.stages.filter Stage.isCaps = [.caps [7, 8] 2] ∧ .connect ∈ s.stages))
    (by decide +kernel) (by decide +kernel)
  obtain ⟨hcaps, hconn⟩ := of_decide_eq_true hstages
  exact ⟨s, hcaps, hconn, caps_announced (hs.mono fun _ _ _ => trivial)⟩

end Inline

end Ludlc
