import Ludlc.Lib.Runs

/-! # Who asks for an exchange over SPI

The work and the interrupt thread of `ludlc_spi_master_drv.c`, the exchange thread of
`ludlc_zephyr_spi_slave.c` and the data-ready line between them, one access of what they share at a time.
What the cores answer, and what a transfer brings that does not meet its like, is up to the run.
-/

namespace Ludlc.Spi

open Runs

/-- The line interrupts the master by its edge or by its level, or there is none and the master polls. -/
inductive Asking
  | edge
  | level
  | poll
  deriving DecidableEq

/-- `frame_cap` of the two ends, and the octets of a transfer of the frame. -/
structure Bus where
  asking : Asking
  masterCap : Nat
  slaveCap : Nat
  chunkSz : Nat

/-- An exchange behind its headers. -/
structure Moving where
  txLen : Nat
  rxLen : Nat
  sent : Nat
  recvd : Nat
  deriving DecidableEq

namespace Moving

def len (x : Moving) : Nat := max x.txLen x.rxLen

/-- The octets of the next transfer. -/
def chunk (x : Moving) (chunkSz : Nat) : Nat := min (x.len - x.sent) chunkSz

def next (x : Moving) (chunkSz : Nat) : Moving :=
  { x with sent := x.sent + x.chunk chunkSz, recvd := x.recvd + min (x.chunk chunkSz) (x.rxLen - x.recvd) }

end Moving

/-- Where an exchange is: ready for the transfer of its header or of a part of its frame, with octets its
decoder has yet to look at, or behind that. -/
inductive Phase
  | header (txLen : Nat)
  | frame (x : Moving)
  | feed (x : Moving)
  | fed (x : Moving)
  deriving DecidableEq

/-- A transfer, with the length that a header from the other end announces. `none` tells that neither end
has anything to send. -/
def Phase.clocked (rxLen : Nat) : Phase → Option Phase
  | .header txLen => if txLen = 0 ∧ rxLen = 0 then none else some (.frame ⟨txLen, rxLen, 0, 0⟩)
  | .frame x => some (.feed x)
  | p => some p

/-- The end is ready for a transfer. -/
def Phase.ready : Phase → Bool
  | .header _ | .frame _ => true
  | .feed _ | .fed _ => false

/-- The octets announced. -/
def Phase.txLen : Phase → Nat
  | .header n => n
  | .frame x | .feed x | .fed x => x.txLen

/-- A packet to send: the octets it is announced with, and whether it is the last. -/
structure Loaded where
  len : Nat
  last : Bool
  len_pos : 0 < len
  deriving DecidableEq

/-! ## The master -/

/-- The two contexts that run `ludlc_spi_drain`. -/
inductive Runner
  | work
  | isr
  deriving DecidableEq

/-- Where a context is: `top` is the first test of `ludlc_spi_ready_isr`, `lock` waits for `xfer_lock`,
`held` is inside the drain and `after` behind it, with what it returned. -/
inductive RunnerAt
  | off
  | top
  | lock
  | held
  | after (more : Bool)
  deriving DecidableEq

/-- Where the drain is. `loaded` has what `ludlc_get_packet_to_send` led to: a packet, or a negative
number. -/
inductive DrainAt
  | test
  | load
  | took
  | loaded (r : Option Loaded)
  | xfer (p : Phase)
  deriving DecidableEq

structure Drain where
  runner : Runner
  budget : Nat
  pc : DrainAt
  deriving DecidableEq

/-- Where a system suspend is: `marked` behind the bit that `ludlc_conn_suspend` sets, `unlocked` once the
lock was taken and dropped again, `asleep` behind `cancel_delayed_work_sync`, and `resuming` behind the bit
that `ludlc_conn_resume` clears. -/
inductive PmAt
  | awake
  | marked
  | unlocked
  | asleep
  | resuming
  deriving DecidableEq

/-- `pending` tells that `xfer_work` is queued and `calling` counts the contexts about to queue it. `gaveUp`
is a history: since the last look at the request bit an exchange failed, a packet could not be announced,
or a callback asked for a TX round while there was no packet. -/
structure Master where
  work : RunnerAt
  isr : RunnerAt
  drain : Option Drain
  pending : Bool
  calling : Nat
  forceTx : Bool
  suspended : Bool
  pm : PmAt
  terminated : Bool
  gaveUp : Bool
  deriving DecidableEq

namespace Master

/-- `ludlc_spi_master_connection_create`. -/
def init : Master where
  work := .off
  isr := .off
  drain := none
  pending := true
  calling := 0
  forceTx := true
  suspended := false
  pm := .awake
  terminated := false
  gaveUp := false

/-- `ludlc_spi_quiesced`. -/
def quiesced (m : Master) : Bool := m.suspended || m.terminated

def place (m : Master) : Runner → RunnerAt
  | .work => m.work
  | .isr => m.isr

def put (m : Master) (r : Runner) (a : RunnerAt) : Master :=
  match r with
  | .work => { m with work := a }
  | .isr => { m with isr := a }

/-- The drain returns. -/
def finish (m : Master) (d : Drain) (more : Bool) : Master :=
  { m.put d.runner (.after more) with drain := none }

def goto (m : Master) (d : Drain) (pc : DrainAt) : Master := { m with drain := some { d with pc := pc } }

/-- `ludlc_platform_request_tx` from inside the drain. `ludlc_spi_schedule_xfer` does not queue the work
from the work itself. -/
def requestInside (m : Master) (d : Drain) : Master :=
  { m with
    forceTx := true
    pending := m.pending || d.runner = .isr
    gaveUp := m.gaveUp || d.pc = .loaded none }

/-- A step of the drain by itself. -/
def run (B : Bus) (m : Master) (d : Drain) : Option Master :=
  match d.pc with
  | .test =>
    match d.budget with
    | 0 => some (m.finish d true)
    | n + 1 =>
      let d' := { d with budget := n }
      some (if m.quiesced then m.finish d' false else m.goto d' .load)
  | .load =>
    let m' := { m with forceTx := false, gaveUp := false }
    some (if m.forceTx then m'.goto d .took else m'.goto d (.xfer (.header 0)))
  | .loaded none => some (m.goto d (.xfer (.header 0)))
  | .loaded (some r) =>
    if B.masterCap < r.len then some ({ m with gaveUp := true }.goto d (.xfer (.header 0)))
    else
      let m' := m.goto d (.xfer (.header r.len))
      some (if r.last then m' else m'.requestInside d)
  | .xfer (.fed x) => some (m.goto d (if x.sent < x.len then .xfer (.frame x) else .test))
  | _ => none

/-- `ludlc_get_packet_to_send`. `asked` tells that it asks for a TX round itself. -/
def getPacket (m : Master) (d : Drain) (asked : Bool) (r : Option Loaded) : Master :=
  let d' : Drain := { d with pc := .loaded r }
  let m' := { m with drain := some d' }
  if asked then m'.requestInside d' else m'

/-- The decoder looks at what arrived, and the core receives it. -/
def feed (B : Bus) (m : Master) (d : Drain) (x : Moving) (asked : Bool) : Master :=
  let m' := m.goto d (.xfer (.fed (x.next B.chunkSz)))
  if asked then m'.requestInside d else m'

/-- A transfer fails, and `ludlc_handle_disconnect` ends the session. -/
def fails (m : Master) (d : Drain) (asked : Bool) : Master :=
  let m' := if asked then m.requestInside d else m
  { m'.finish d false with gaveUp := true }

/-- A transfer goes through. -/
def clocked (m : Master) (d : Drain) (p : Phase) (rxLen : Nat) : Master :=
  match p.clocked rxLen with
  | none => m.finish d false
  | some p' => m.goto d (.xfer p')

/-- The end of `ludlc_spi_xfer_workfn` and of `ludlc_spi_ready_isr`. -/
def done (B : Bus) (m : Master) (r : Runner) (more : Bool) : Master :=
  let again := !m.quiesced && (more || (r = .work && B.asking = .poll))
  { m.put r .off with pending := m.pending || again }

/-- Steps of the master and of what it calls. The first is a request from outside the drain, up to the
`mod_delayed_work` of `schedule`. -/
inductive Act
  | requestTx
  | schedule
  | start
  | top
  | acquire (r : Runner)
  | run
  | getPacket (asked : Bool) (r : Option Loaded)
  | callback
  | feed (asked : Bool)
  | fails (asked : Bool)
  | done (r : Runner)
  | suspend
  | lock
  | cancel
  | resume
  | restart
  | terminate
  deriving DecidableEq

/-- A transfer fails. -/
def Act.isFails : Act → Bool
  | .fails _ => true
  | _ => false

def step (B : Bus) (m : Master) : Act → Option Master
  | .requestTx => some { m with forceTx := true, calling := m.calling + 1 }
  | .schedule =>
    if m.calling = 0 then none else some { m with calling := m.calling - 1, pending := true }
  | .start =>
    if m.pending = true ∧ m.work = .off then some { m with pending := false, work := .lock } else none
  | .top => if m.isr = .top then some { m with isr := if m.quiesced then .off else .lock } else none
  | .acquire r =>
    if m.place r = .lock ∧ m.drain = none then
      -- `LUDLC_SPI_BUDGET`
      some { m.put r .held with drain := some ⟨r, 8, .test⟩ }
    else none
  | .run => m.drain.bind fun d => m.run B d
  | .getPacket asked r =>
    m.drain.bind fun d => if d.pc = .took then some (m.getPacket d asked r) else none
  | .callback =>
    m.drain.bind fun d =>
      match d.pc with
      | .loaded _ | .xfer (.fed _) => some (m.requestInside d)
      | _ => none
  | .feed asked =>
    m.drain.bind fun d =>
      match d.pc with
      | .xfer (.feed x) => some (m.feed B d x asked)
      | _ => none
  | .fails asked =>
    m.drain.bind fun d =>
      match d.pc with
      | .xfer p => if p.ready then some (m.fails d asked) else none
      | _ => none
  | .done r =>
    match m.place r with
    | .after more => some (m.done B r more)
    | _ => none
  | .suspend => if m.pm = .awake then some { m with suspended := true, pm := .marked } else none
  | .lock =>
    -- This waits for the exchange in progress, and the cancellation for the work.
    if m.pm = .marked ∧ m.drain = none then some { m with pm := .unlocked } else none
  | .cancel =>
    if m.pm = .unlocked ∧ m.work = .off then some { m with pending := false, pm := .asleep } else none
  | .resume => if m.pm = .asleep then some { m with suspended := false, pm := .resuming } else none
  | .restart => if m.pm = .resuming then some { m with pending := true, pm := .awake } else none
  | .terminate => some { m with terminated := true }

end Master

/-! ## The peripheral -/

/-- Where the exchange thread is: `lower` and `check` are the first two lines of `ludlc_spi_load_tx`, and
`after` is behind an exchange. -/
inductive SlaveAt
  | lower
  | check
  | took
  | loaded (r : Option Loaded)
  | xfer (p : Phase)
  | after
  | off
  deriving DecidableEq

/-- `txEvent` is the request bit, and `raising` counts the contexts that have posted it and are about to
raise the line. -/
structure Slave where
  pc : SlaveAt
  txEvent : Bool
  raising : Nat
  line : Bool
  deriving DecidableEq

namespace Slave

/-- `ludlc_spi_slave_connection_create` before `ludlc_connect`. -/
def init : Slave := ⟨.lower, false, 0, false⟩

/-- `ludlc_platform_request_tx` in the exchange thread. -/
def requestByThread (s : Slave) : Slave := { s with txEvent := true, line := true }

/-- A step of the thread by itself. -/
def run (B : Bus) (s : Slave) : Option Slave :=
  match s.pc with
  | .lower => some { s with line := false, pc := .check }
  | .check =>
    some (if s.txEvent then { s with txEvent := false, pc := .took } else { s with pc := .xfer (.header 0) })
  | .loaded none => some { s with pc := .xfer (.header 0) }
  | .loaded (some r) =>
    some (if B.slaveCap < r.len then { s with pc := .xfer (.header 0) }
      else { s with line := true, txEvent := s.txEvent || !r.last, pc := .xfer (.header r.len) })
  | .xfer (.fed x) => some { s with pc := if x.sent < x.len then .xfer (.frame x) else .after }
  | .after => some { s with pc := .lower }
  | _ => none

/-- A transfer goes through. -/
def clocked (s : Slave) (p : Phase) (rxLen : Nat) : Slave :=
  match p.clocked rxLen with
  | none => { s with pc := .after }
  | some p' => { s with pc := .xfer p' }

/-- Steps of the thread, of what it calls, and of the other contexts. `fails` and `ends` are the two ways
out of the loop. -/
inductive Act
  | run
  | getPacket (asked : Bool) (r : Option Loaded)
  | feed (asked : Bool)
  | request
  | raise
  | fails
  | ends
  deriving DecidableEq

def step (B : Bus) (s : Slave) : Act → Option Slave
  | .run => s.run B
  | .getPacket asked r =>
    if s.pc = .took then
      let s' := { s with pc := .loaded r }
      some (if asked then s'.requestByThread else s')
    else none
  | .feed asked =>
    match s.pc with
    | .xfer (.feed x) =>
      let s' := { s with pc := .xfer (.fed (x.next B.chunkSz)) }
      some (if asked then s'.requestByThread else s')
    | _ => none
  | .request => some { s with txEvent := true, raising := s.raising + 1 }
  | .raise => if s.raising = 0 then none else some { s with raising := s.raising - 1, line := true }
  | .fails =>
    match s.pc with
    | .xfer p => if p.ready then some { s with pc := .off, line := false } else none
    | _ => none
  | .ends => if s.pc = .after then some { s with pc := .off, line := false } else none

end Slave

/-! ## The two and the line -/

/-- `latched` tells that an edge waits to be handled. `strayed` is a history: a transfer failed or did not
meet its like, the headers not being heard as they were sent included. -/
structure Ends where
  master : Master
  slave : Slave
  latched : Bool
  strayed : Bool
  deriving DecidableEq

/-- A transfer of the one end is that of the other. -/
def Phase.inStep (rxLen rxLen' : Nat) : Phase → Phase → Bool
  | .header n, .header k => rxLen = k ∧ rxLen' = n
  | .frame _, .frame _ => true
  | _, _ => false

namespace Ends

def init : Ends := ⟨.init, .init, false, false⟩

/-- The peripheral makes a step, and the line may rise. -/
def setSlave (B : Bus) (s : Ends) (t : Slave) : Ends :=
  { s with slave := t, latched := s.latched || (B.asking = .edge && !s.slave.line && t.line) }

/-- The interrupt controller has the handler run. -/
def interrupts (B : Bus) (s : Ends) : Prop :=
  B.asking = .edge ∧ s.latched = true ∨ B.asking = .level ∧ s.slave.line = true

instance (B : Bus) (s : Ends) : Decidable (s.interrupts B) := inferInstanceAs (Decidable (_ ∨ _))

/-- Beside the steps of the two, the interrupt, a transfer the two make together, with the lengths that
headers announce to each, and one the peripheral is not ready for. -/
inductive Act
  | master (a : Master.Act)
  | slave (a : Slave.Act)
  | interrupt
  | meet (rxLen rxLen' : Nat)
  | alone (rxLen : Nat)
  deriving DecidableEq

def step (B : Bus) (s : Ends) : Act → Option Ends
  | .master a => (s.master.step B a).map fun m =>
    { s with master := m, strayed := s.strayed || a.isFails }
  | .slave a => (s.slave.step B a).map fun t =>
    { s.setSlave B t with strayed := s.strayed || a = .fails }
  | .interrupt =>
    if s.master.isr = .off ∧ s.interrupts B then
      some { s with master := { s.master with isr := .top }, latched := false }
    else none
  | .meet rxLen rxLen' =>
    s.master.drain.bind fun d =>
      match d.pc, s.slave.pc with
      | .xfer p, .xfer q =>
        if p.ready ∧ q.ready then
          some { s with
            master := s.master.clocked d p rxLen
            slave := s.slave.clocked q rxLen'
            strayed := s.strayed || !p.inStep rxLen rxLen' q }
        else none
      | _, _ => none
  | .alone rxLen =>
    s.master.drain.bind fun d =>
      match d.pc with
      | .xfer p =>
        if p.ready then some { s with master := s.master.clocked d p rxLen, strayed := true } else none
      | _ => none

abbrev Reaches (B : Bus) (s : Ends) : Prop := Reachable init (step B) (fun _ _ => True) s

end Ends

end Ludlc.Spi
