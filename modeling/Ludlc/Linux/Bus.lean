import Ludlc.Lib.Runs

/-! # The bus of a link

`ludlc_bus.c` keeps the devices of a link in line with its state. The callbacks of the core and the
power transitions of the system only set flags and schedule `bus_work`; the devices are added and
removed by its runs, at most one at a time, and one scheduled while it runs is run again. An action
is what one of these does between two points where the others may come in.
-/

namespace Ludlc.Linux

variable {κ ι : Type}

/-- A device the link enumerated, for a child node of its firmware. -/
structure Dev (κ : Type) where
  child : κ
  /-- The number of sessions begun when it was added. -/
  since : Nat
  deriving DecidableEq

/-- A device that somebody else put on the bus. -/
structure Own (ι : Type) where
  id : ι
  /-- The session its driver was probed in, if it has one. -/
  session : Option Nat
  deriving DecidableEq

/-- What the work did to a device. -/
inductive Op (κ ι : Type)
  | add (child : κ)
  | remove (child : κ)
  | reprobe (id : ι)
  deriving DecidableEq

/-- What a run of the work is about to do. It has read the state of the link where it carries `seen`:
the number of the session, or `none` where there was none. -/
inductive Stage (κ ι : Type)
  /-- Read `conn_state`. -/
  | entry
  /-- Test BUS_HOLD. -/
  | holdTest (seen : Option Nat)
  /-- Test and clear SESSION_LOST. -/
  | lostTest (seen : Option Nat)
  /-- Go on sweeping the devices of the session lost. -/
  | sweepLost (seen : Option Nat)
  /-- Compare the bus with the link. -/
  | compare (seen : Option Nat)
  /-- Register the children left. -/
  | populate (rest : List κ)
  /-- Look at the devices left, in the session read at the start. -/
  | reprobe (session : Nat) (rest : List ι)
  /-- Go on sweeping. -/
  | sweep
  deriving DecidableEq

/-- Where the caller of the power management phases is. -/
inductive Pm
  | idle
  /-- In `cancel_work_sync`, which lets nothing be queued. -/
  | canceling
  /-- In `ludlc_bus_conn_resync`. -/
  | resyncing
  deriving DecidableEq

/-- A link and its bus. -/
structure Link (κ ι : Type) where
  connected : Bool
  /-- Sessions begun. -/
  sess : Nat
  /-- Calls of `on_connect` still to come. -/
  ups : Nat
  /-- Calls of `on_disconnect` still to come: the session that ended, or 0 for a handshake that was
  broken off. -/
  downs : List Nat
  /-- Callbacks about to schedule the work. -/
  kicks : Nat
  /-- `pconn.session`. -/
  session : Nat
  busHold : Bool
  sessionLost : Bool
  populated : Bool
  queued : Bool
  run : Option (Stage κ ι)
  devices : List (Dev κ)
  /-- Children that could not be registered, each with the sessions begun then. -/
  skipped : List (κ × Nat)
  own : List (Own ι)
  ops : List (Op κ ι)
  pm : Pm
  /-- Calls of `ludlc_conn_prepare` that have returned and no `ludlc_conn_complete` matches yet. -/
  held : Nat

/-- A link never connected. -/
def Link.init (own : List (Own ι)) : Link κ ι where
  connected := false
  sess := 0
  ups := 0
  downs := []
  kicks := 0
  session := 0
  busHold := false
  sessionLost := false
  populated := false
  queued := false
  run := none
  devices := []
  skipped := []
  own := own
  ops := []
  pm := .idle
  held := 0

/-- `schedule_work`, for `bus_work`. -/
def Link.scheduleWork (s : Link κ ι) : Link κ ι :=
  if s.pm = .canceling then s else { s with queued := true }

/-! ## The work -/

/-- A step of `ludlc_bus_sweep`, over the enumerated devices. -/
def Link.busSweep (s : Link κ ι) (stage next : Option (Stage κ ι)) : Link κ ι :=
  match s.devices with
  | [] => { s with run := next }
  | d :: ds => { s with run := stage, devices := ds, ops := s.ops ++ [.remove d.child] }

/-- `ludlc_bus_populate` for one child, which can be registered or not. -/
def Link.busPopulate (s : Link κ ι) (ok : Bool) (child : κ) : Link κ ι :=
  if ok then
    { s with devices := s.devices ++ [⟨child, s.sess⟩], ops := s.ops ++ [.add child] }
  else
    { s with skipped := s.skipped ++ [(child, s.sess)] }

/-- `ludlc_bus_reprobe` for one device, whose driver binds again or not. -/
def Link.busReprobe [DecidableEq ι] (s : Link κ ι) (ok : Bool) (session : Nat) (id : ι) :
    Link κ ι :=
  if s.own.any fun o => o.id = id ∧ o.session ≠ some session then
    { s with
      own := s.own.map fun o =>
        if o.id = id then { o with session := if ok then some s.session else none } else o
      ops := s.ops ++ [.reprobe id] }
  else s

/-- A step of `ludlc_bus_link_workfn`, on a link with these child nodes. POPULATED belongs to the
work, so what it does with that flag goes with the step before. -/
def Link.linkWork [DecidableEq ι] (children : List κ) (s : Link κ ι) (ok : Bool) :
    Stage κ ι → Link κ ι
  | .entry => { s with run := some (.holdTest (if s.connected then some s.sess else none)) }
  | .holdTest seen => { s with run := if s.busHold then none else some (.lostTest seen) }
  | .lostTest seen =>
    if s.sessionLost ∧ s.populated then
      { s with sessionLost := false, populated := false, run := some (.sweepLost seen) }
    else
      { s with sessionLost := false, run := some (.compare seen) }
  | .sweepLost seen => s.busSweep (some (.sweepLost seen)) (some (.compare seen))
  | .compare seen =>
    if seen.isSome = s.populated then { s with run := none }
    else if seen.isSome then { s with populated := true, run := some (.populate children) }
    else { s with populated := false, run := some .sweep }
  | .populate (child :: rest) => { s.busPopulate ok child with run := some (.populate rest) }
  | .populate [] => { s with run := some (.reprobe s.session (s.own.map Own.id)) }
  | .reprobe session (id :: rest) =>
    { s.busReprobe ok session id with run := some (.reprobe session rest) }
  | .reprobe _ [] => { s with run := none }
  | .sweep => s.busSweep (some .sweep) none

/-! ## The steps -/

inductive Act
  /-- The link reaches CONNECTED. -/
  | connect
  /-- It leaves it. -/
  | disconnect
  /-- A handshake is broken off, which the core reports as well. -/
  | breakOff
  /-- `ludlc_bus_on_connect`, up to the scheduling. -/
  | onConnect
  /-- `ludlc_bus_on_disconnect` for a session, up to the scheduling. -/
  | onDisconnect (sess : Nat)
  /-- The scheduling, and the return of the callback. -/
  | schedule
  /-- The work queued starts to run. -/
  | start
  /-- The run goes on. A device it tries to register or to probe again succeeds or not. -/
  | work (ok : Bool)
  /-- `ludlc_conn_prepare`, up to its return or `cancel_work_sync`. -/
  | prepare
  /-- `cancel_work_sync` returns. -/
  | canceled
  /-- `ludlc_conn_complete`, up to its return or `ludlc_bus_conn_resync`. -/
  | complete
  /-- `ludlc_bus_conn_resync`. -/
  | resync
  deriving DecidableEq

def Link.step [DecidableEq ι] (children : List κ) (s : Link κ ι) : Act → Option (Link κ ι)
  | .connect =>
    if s.connected then none
    else some { s with connected := true, sess := s.sess + 1, ups := s.ups + 1 }
  | .disconnect =>
    if s.connected then some { s with connected := false, downs := s.downs ++ [s.sess] } else none
  | .breakOff => if s.connected then none else some { s with downs := s.downs ++ [0] }
  | .onConnect =>
    if s.ups = 0 then none
    else some { s with ups := s.ups - 1, session := s.session + 1, kicks := s.kicks + 1 }
  | .onDisconnect sess =>
    if sess ∈ s.downs then
      some { s with downs := s.downs.erase sess, sessionLost := true, kicks := s.kicks + 1 }
    else none
  | .schedule => if s.kicks = 0 then none else some { s.scheduleWork with kicks := s.kicks - 1 }
  | .start =>
    if s.queued ∧ s.run = none then some { s with queued := false, run := some .entry } else none
  | .work ok => s.run.map (s.linkWork children ok)
  | .prepare =>
    if s.pm ≠ .idle then none
    else if s.busHold then some { s with queued := false, pm := .canceling }
    else some { s with busHold := true, held := s.held + 1 }
  | .canceled =>
    if s.pm = .canceling ∧ s.run = none then some { s with pm := .idle, held := s.held + 1 }
    else none
  | .complete =>
    if s.pm ≠ .idle ∨ s.held = 0 then none
    else if s.busHold then
      some { s with busHold := false, pm := .resyncing, held := s.held - 1 }
    else some { s with held := s.held - 1 }
  | .resync => if s.pm = .resyncing then some { s.scheduleWork with pm := .idle } else none

/-! ## What a step leaves alone -/

/-- The events of the link and their callbacks. -/
def Act.ofLink : Act → Bool
  | .connect => true
  | .disconnect => true
  | .breakOff => true
  | .onConnect => true
  | .onDisconnect _ => true
  | .schedule => true
  | _ => false

namespace Link

/-- The bus, its runs and its holds are the same. -/
structure SameBus (s s' : Link κ ι) : Prop where
  busHold : s'.busHold = s.busHold
  pm : s'.pm = s.pm
  held : s'.held = s.held
  run : s'.run = s.run
  populated : s'.populated = s.populated
  devices : s'.devices = s.devices
  skipped : s'.skipped = s.skipped
  ops : s'.ops = s.ops

theorem scheduleWork_sameBus (s : Link κ ι) : SameBus s s.scheduleWork := by
  rw [scheduleWork]
  split
  · exact ⟨rfl, rfl, rfl, rfl, rfl, rfl, rfl, rfl⟩
  · exact ⟨rfl, rfl, rfl, rfl, rfl, rfl, rfl, rfl⟩

theorem scheduleWork_queued {s : Link κ ι} (h : s.pm ≠ .canceling) :
    s.scheduleWork.queued = true := by
  rw [scheduleWork, if_neg h]

theorem step_ofLink [DecidableEq ι] {children : List κ} {s s' : Link κ ι} {a : Act}
    (ha : a.ofLink = true) (hstep : s.step children a = some s') : SameBus s s' := by
  have hsame := scheduleWork_sameBus s
  cases a with
  | schedule =>
    rw [step] at hstep
    split at hstep
    · cases hstep
    · cases hstep
      exact ⟨hsame.busHold, hsame.pm, hsame.held, hsame.run, hsame.populated, hsame.devices,
        hsame.skipped, hsame.ops⟩
  | connect | disconnect | breakOff | onConnect | onDisconnect _ =>
    rw [step] at hstep
    split at hstep
    all_goals cases hstep
    exact ⟨rfl, rfl, rfl, rfl, rfl, rfl, rfl, rfl⟩
  | _ => cases ha

/-- What the work leaves to others. -/
structure SameHold (s s' : Link κ ι) : Prop where
  busHold : s'.busHold = s.busHold
  pm : s'.pm = s.pm
  held : s'.held = s.held

theorem linkWork_sameHold [DecidableEq ι] (children : List κ) (s : Link κ ι) (ok : Bool)
    (st : Stage κ ι) : SameHold s (s.linkWork children ok st) := by
  have hsweep : ∀ stage next : Option (Stage κ ι), SameHold s (s.busSweep stage next) := by
    intro stage next
    rw [busSweep]
    split
    · exact ⟨rfl, rfl, rfl⟩
    · exact ⟨rfl, rfl, rfl⟩
  cases st with
  | entry => exact ⟨rfl, rfl, rfl⟩
  | holdTest seen => exact ⟨rfl, rfl, rfl⟩
  | lostTest seen =>
    rw [linkWork]
    split
    · exact ⟨rfl, rfl, rfl⟩
    · exact ⟨rfl, rfl, rfl⟩
  | sweepLost seen => exact hsweep ..
  | compare seen =>
    rw [linkWork]
    split
    · exact ⟨rfl, rfl, rfl⟩
    · split
      · exact ⟨rfl, rfl, rfl⟩
      · exact ⟨rfl, rfl, rfl⟩
  | populate rest =>
    cases rest with
    | nil => exact ⟨rfl, rfl, rfl⟩
    | cons child rest =>
      rw [linkWork, busPopulate]
      split
      · exact ⟨rfl, rfl, rfl⟩
      · exact ⟨rfl, rfl, rfl⟩
  | reprobe session rest =>
    cases rest with
    | nil => exact ⟨rfl, rfl, rfl⟩
    | cons id rest =>
      rw [linkWork, busReprobe]
      split
      · exact ⟨rfl, rfl, rfl⟩
      · exact ⟨rfl, rfl, rfl⟩
  | sweep => exact hsweep ..

end Link

end Ludlc.Linux
