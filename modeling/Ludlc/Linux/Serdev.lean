import Ludlc.Framing.Decodes
import Ludlc.Lib.Runs

/-! # The work that sends on a serial port of Linux

`ludlc_serdev_tx_workfn` of `ludlc_serdev_drv.c`, one access of what it shares at a time, against the
contexts that ask for a TX round, the port that has room again, and the system that suspends.
-/

namespace Ludlc.Linux

open Runs

/-- A `kfifo` of the kernel over `size` octets of storage: what is in it, and how many octets have gone
out of it, which tells where the first of them lies. -/
structure KernelFifo (size : Nat) where
  octets : List UInt8
  out : Nat
  fits : octets.length ≤ size

namespace KernelFifo

variable {size : Nat}

/-- `INIT_KFIFO`, `kfifo_reset`. -/
def empty (size : Nat) : KernelFifo size := ⟨[], 0, Nat.zero_le size⟩

/-- `kfifo_avail`. -/
def avail (f : KernelFifo size) : Nat := size - f.octets.length

/-- The octets of the one span that `kfifo_dma_in_prepare` gives: the free ones up to the end of the
storage. -/
def inSpan (f : KernelFifo size) : Nat := min f.avail (size - (f.out + f.octets.length) % size)

/-- `kfifo_dma_in_finish` of a span filled. -/
def put (f : KernelFifo size) (l : List UInt8) : Option (KernelFifo size) :=
  if h : l.length ≤ f.avail then
    some ⟨f.octets ++ l, f.out, by
      have := f.fits
      rw [avail] at h
      rw [List.length_append]
      omega⟩
  else none

/-- `kfifo_out_linear_ptr`: the octets used up to the end of the storage. -/
def outSpan (f : KernelFifo size) : Nat := min f.octets.length (size - f.out % size)

/-- `kfifo_skip_count`. -/
def skip (f : KernelFifo size) (n : Nat) : KernelFifo size :=
  ⟨f.octets.drop n, f.out + n, by
    have := f.fits
    rw [List.length_drop]
    omega⟩

theorem inSpan_le (f : KernelFifo size) : f.inSpan ≤ f.avail := Nat.min_le_left ..

theorem inSpan_pos (f : KernelFifo size) (h : f.octets.length < size) : 0 < f.inSpan := by
  have := Nat.mod_lt (f.out + f.octets.length) (Nat.zero_lt_of_lt h)
  rw [inSpan, avail]
  omega

theorem outSpan_pos (f : KernelFifo size) (h : f.octets ≠ []) : 0 < f.outSpan := by
  have hlen := List.length_pos_of_ne_nil h
  have hsize := hlen.trans_le f.fits
  have := Nat.mod_lt f.out hsize
  rw [outSpan]
  omega

theorem outSpan_eq_zero (f : KernelFifo size) : f.outSpan = 0 ↔ f.octets = [] := by
  constructor
  · intro h
    by_contra hne
    have := f.outSpan_pos hne
    omega
  · intro h
    simp [outSpan, h]

end KernelFifo

variable {σ : Type}

/-- An encoder that is idle once initialised, and the size of the FIFO. -/
structure SerdevPort (σ : Type) where
  writer : Stream.Writer σ (TxPacket × Bool) UInt8
  encInit : σ → σ
  init_idle : ∀ e, writer.busy (encInit e) = false
  size : Nat
  size_pos : 0 < size

/-- A port with a framing and a FIFO of `size` octets. -/
def SerdevPort.ofFraming {w : Wire} {b : Nat} {cfg : Cfg w} {csum : Option (Csum b)}
    (F : StreamFraming cfg csum) (size : Nat) (hsize : 0 < size) : SerdevPort F.Enc where
  writer := F.writer
  encInit := F.encInit
  init_idle := F.enc_idle
  size := size
  size_pos := hsize

/-- Where `ludlc_serdev_tx_workfn` is: `top` is the test of `while`, `took` the call of the core, `idle`
the look for a request when there are no octets left, and `off` that the work is not running. -/
inductive WorkAt
  | off
  | top
  | load
  | took
  | fill
  | out
  | idle
  | write
  deriving DecidableEq

/-- Where a system suspend is: `marked` behind the bit that `ludlc_conn_suspend` sets, `cancelled` behind
`cancel_work_sync`, `asleep` behind the reset of the encoder and the FIFO, and `resuming` behind the bit
that `ludlc_conn_resume` clears. -/
inductive PmAt
  | awake
  | marked
  | cancelled
  | asleep
  | resuming
  deriving DecidableEq

/-- What the encoder was handed and what the port took, up to a suspend. -/
structure SerdevEpoch where
  taken : List (TxPacket × Bool)
  sent : List UInt8

/-- `pending` tells that `tx_work` is queued and `calling` counts the contexts about to queue it. `owed`
and `failed` are history: the port was full and has not called `write_wakeup` since, and the last run
ended with a write that failed. -/
structure Serdev (P : SerdevPort σ) where
  pc : WorkAt
  pending : Bool
  calling : Nat
  forceTx : Bool
  suspended : Bool
  pm : PmAt
  connState : ConnState
  enc : σ
  fifo : KernelFifo P.size
  txPacket : Nat
  owed : Bool
  failed : Bool
  taken : List (TxPacket × Bool)
  sent : List UInt8
  past : List SerdevEpoch

variable {P : SerdevPort σ}

namespace Serdev

/-- The link as `ludlc_serial_connection_create` leaves it before `ludlc_connect`. -/
def init (P : SerdevPort σ) (e : σ) : Serdev P where
  pc := .off
  pending := false
  calling := 0
  forceTx := false
  suspended := false
  pm := .awake
  connState := .disconnected
  enc := P.encInit e
  fifo := .empty P.size
  txPacket := 0
  owed := false
  failed := false
  taken := []
  sent := []
  past := []

/-- `ludlc_serdev_tx_quiesced`. -/
def quiesced (s : Serdev P) : Bool := s.suspended || s.connState = .terminate

/-- `ludlc_platform_request_tx` from another context than the work, up to the `schedule_work` of
`ludlc_serdev_schedule_tx`. -/
def requestTx (s : Serdev P) : Serdev P := { s with forceTx := true, calling := s.calling + 1 }

/-- The same from inside the work, which `ludlc_serdev_schedule_tx` does not queue again. -/
def requestInside (s : Serdev P) (asked : Bool) : Serdev P :=
  { s with forceTx := s.forceTx || asked }

/-- The encoder fills a span of the FIFO, if it is busy and there is one. -/
def fill (s : Serdev P) : Option (Serdev P) :=
  if P.writer.busy s.enc ∧ s.fifo.inSpan ≠ 0 then
    (P.writer.fill s.enc s.fifo.inSpan).bind fun r =>
      (s.fifo.put r.2).map fun f =>
        { s with
          pc := .out, enc := r.1, fifo := f
          txPacket := if P.writer.busy r.1 then s.txPacket else s.txPacket + 1 }
  else some { s with pc := .out }

/-- A step of the work by itself. -/
def run (s : Serdev P) : Option (Serdev P) :=
  match s.pc with
  | .top => some { s with pc := if s.quiesced then .off else .load }
  | .load =>
    some (if P.writer.busy s.enc = false ∧ s.forceTx then { s with forceTx := false, pc := .took }
      else { s with pc := .fill })
  | .fill => s.fill
  | .out => some (if s.fifo.outSpan = 0 then { s with pc := .idle } else { s with pc := .write })
  | .idle => some { s with pc := if s.forceTx then .top else .off }
  | _ => none

/-- What `ludlc_get_packet_to_send` leads to: a packet with `pending != 0`, or a negative number. -/
def load (s : Serdev P) : Option (TxPacket × Bool) → Serdev P
  | none => { s with pc := .fill }
  | some r =>
    { s with
      pc := .fill, enc := P.writer.load s.enc r, taken := s.taken ++ [r]
      forceTx := s.forceTx || !r.2 }

/-- `serdev_device_write_buf` takes `n` octets of the span. -/
def write (s : Serdev P) (n : Nat) : Option (Serdev P) :=
  if n ≤ s.fifo.outSpan then
    let s' := { s with fifo := s.fifo.skip n, sent := s.sent ++ s.fifo.octets.take n }
    some (if n < s.fifo.outSpan then { s' with pc := .off, owed := true } else { s' with pc := .top })
  else none

/-- It fails, and `ludlc_handle_disconnect` takes the link down. `asked` tells that a callback asks for a
TX round there. -/
def writeFails (s : Serdev P) (asked : Bool) : Serdev P :=
  { s.requestInside asked with
    pc := .off, failed := true
    connState := if s.connState = .terminate then .terminate else .disconnected }

/-- `write_wakeup`, up to its `schedule_work`. -/
def wakeup (s : Serdev P) : Serdev P :=
  if s.quiesced then { s with owed := false } else { s with owed := false, calling := s.calling + 1 }

/-- The reset at the end of `ludlc_serdev_suspend`. -/
def reset (s : Serdev P) : Serdev P :=
  { s with
    pm := .asleep, enc := P.encInit s.enc, fifo := .empty P.size
    taken := [], sent := [], past := s.past ++ [⟨s.taken, s.sent⟩] }

/-- `ludlc_conn_resume` behind the bit: a link that is up or comes back asks for a TX round. -/
def restart (s : Serdev P) : Serdev P :=
  match s.connState with
  | .terminate => { s with pm := .awake }
  | .connected => { s.requestTx with pm := .awake }
  | _ => { s.requestTx with pm := .awake, connState := .disconnected }

/-- Steps of the other contexts, of the work, and of what it calls. -/
inductive Act
  | setState (st : ConnState)
  | requestTx
  | schedule
  | wakeup
  | start
  | run
  | getPacket (asked : Bool) (r : Option (TxPacket × Bool))
  | write (n : Nat)
  | writeFails (asked : Bool)
  | suspend
  | cancel
  | reset
  | resume
  | restart

/-- No step leads out of TERMINATE. -/
def step (s : Serdev P) : Act → Option (Serdev P)
  | .setState st => if s.connState = .terminate then none else some { s with connState := st }
  | .requestTx => some s.requestTx
  | .schedule =>
    if s.calling = 0 then none else some { s with calling := s.calling - 1, pending := true }
  | .wakeup => some s.wakeup
  | .start =>
    if s.pending = true ∧ s.pc = .off then
      some { s with pending := false, pc := .top, failed := false }
    else none
  | .run => s.run
  | .getPacket asked r => if s.pc = .took then some ((s.requestInside asked).load r) else none
  | .write n => if s.pc = .write then s.write n else none
  | .writeFails asked => if s.pc = .write then some (s.writeFails asked) else none
  | .suspend => if s.pm = .awake then some { s with suspended := true, pm := .marked } else none
  | .cancel =>
    -- `cancel_work_sync` waits for the work that runs.
    if s.pm = .marked ∧ s.pc = .off then some { s with pending := false, pm := .cancelled } else none
  | .reset => if s.pm = .cancelled then some s.reset else none
  | .resume => if s.pm = .asleep then some { s with suspended := false, pm := .resuming } else none
  | .restart => if s.pm = .resuming then some s.restart else none

/-- The core hands over packets that the encoder can take. -/
def answers (good : TxPacket × Bool → Prop) : Act → Prop
  | .getPacket _ (some r) => good r
  | _ => True

instance (good : TxPacket × Bool → Prop) [DecidablePred good] : DecidablePred (answers good)
  | .getPacket _ (some r) => inferInstanceAs (Decidable (good r))
  | .getPacket _ none => inferInstanceAs (Decidable True)
  | .setState _ | .requestTx | .schedule | .wakeup | .start | .run | .write _ | .writeFails _ | .suspend
  | .cancel | .reset | .resume | .restart => inferInstanceAs (Decidable True)

abbrev Reaches (P : SerdevPort σ) (good : TxPacket × Bool → Prop) (e : σ) (s : Serdev P) : Prop :=
  Reachable (init P e) step (fun _ a => answers good a) s

/-- The encoder, the FIFO and the port as a stream. -/
def pump (s : Serdev P) : Stream.Pump σ (TxPacket × Bool) UInt8 := ⟨s.enc, s.fifo.octets, s.taken, s.sent⟩

/-- There is something to send. -/
def work (s : Serdev P) : Prop :=
  s.forceTx = true ∨ P.writer.busy s.enc = true ∨ s.fifo.octets ≠ []

/-- Something goes on that leads to a turn of the work. -/
def acts (s : Serdev P) : Prop :=
  s.pc ≠ .off ∨ s.pending = true ∨ 0 < s.calling ∨ s.owed = true ∨ s.pm = .resuming

/-! ## What every step keeps -/

/-- What is known where the work is. With octets left it does not look for another request. -/
def Placed (s : Serdev P) : Prop :=
  match s.pc with
  | .took => P.writer.busy s.enc = false
  | .out => s.fifo.octets = [] → P.writer.busy s.enc = false
  | .idle => s.fifo.octets = [] ∧ P.writer.busy s.enc = false
  | .write => s.fifo.octets ≠ []
  | _ => True

/-- Behind the cancellation the work turns back at its first test. -/
structure Asleep (s : Serdev P) : Prop where
  marked : s.pm = .marked ∨ s.pm = .cancelled ∨ s.pm = .asleep → s.suspended = true
  held : s.pm = .cancelled ∨ s.pm = .asleep → s.pc = .off ∨ s.pc = .top

/-- What there is to send is on its way to be sent. -/
def Heeded (s : Serdev P) : Prop :=
  s.work → s.acts ∨ s.quiesced = true ∨ s.failed = true

variable {good : TxPacket × Bool → Prop} {wire : TxPacket × Bool → List UInt8}

structure Inv (L : P.writer.Lawful good wire) (s : Serdev P) : Prop where
  pump : s.pump.Sound L
  past : ∀ e ∈ s.past, e.sent <+: e.taken.flatMap wire
  placed : s.Placed
  asleep : s.Asleep
  heeded : s.Heeded

variable {L : P.writer.Lawful good wire} {s s' : Serdev P}

theorem inv_init {e : σ} (he : L.Inv (P.encInit e)) : Inv L (init P e) where
  pump := .start he (P.init_idle e)
  past := by simp [init]
  placed := trivial
  asleep := ⟨by simp [init], by simp [init]⟩
  heeded := by
    intro hwork
    simp [work, init, P.init_idle, KernelFifo.empty] at hwork

/-- A step that leaves the octets alone. -/
theorem Inv.control (h : Inv L s) (hpump : s'.pump = s.pump) (hpast : s'.past = s.past)
    (hplaced : s'.Placed) (hasleep : s'.Asleep) (hheeded : s'.Heeded) : Inv L s' :=
  ⟨hpump ▸ h.pump, hpast ▸ h.past, hplaced, hasleep, hheeded⟩

theorem heeded_of_acts (h : s.acts) : s.Heeded := fun _ => .inl h

/-- While the work runs, a suspend is not behind its cancellation, the first test apart. -/
theorem Asleep.awake (h : s.Asleep) (hoff : s.pc ≠ .off) (htop : s.pc ≠ .top) :
    s.pm ≠ .cancelled ∧ s.pm ≠ .asleep := by
  constructor
  · intro hpm
    rcases h.held (.inl hpm) with hpc | hpc
    · exact hoff hpc
    · exact htop hpc
  · intro hpm
    rcases h.held (.inr hpm) with hpc | hpc
    · exact hoff hpc
    · exact htop hpc

/-- The work goes on from a place that a suspend waits for. -/
theorem Asleep.move (h : s.Asleep) (hoff : s.pc ≠ .off) (htop : s.pc ≠ .top) (hpm : s'.pm = s.pm)
    (hbit : s'.suspended = s.suspended) : s'.Asleep where
  marked := by
    rw [hpm, hbit]
    exact h.marked
  held := by
    obtain ⟨hcancelled, hasleep⟩ := h.awake hoff htop
    rw [hpm]
    rintro (hp | hp)
    · exact absurd hp hcancelled
    · exact absurd hp hasleep

/-- An encoder that is busy finds a span, unless the FIFO has octets to send. -/
theorem Inv.fill (h : Inv L s) (hpc : s.pc = .fill) : ∃ s', s.run = some s' ∧ Inv L s' := by
  have hasleep : ∀ {t : Serdev P}, t.pm = s.pm → t.suspended = s.suspended → t.Asleep :=
    h.asleep.move (by simp [hpc]) (by simp [hpc])
  rw [run, hpc]
  simp only [Serdev.fill]
  by_cases hfill : P.writer.busy s.enc = true ∧ s.fifo.inSpan ≠ 0
  · rw [if_pos hfill]
    obtain ⟨hbusy, hspan⟩ := hfill
    obtain ⟨p, l, hp, hsound, hbuf, hlen, hlast⟩ := h.pump.fill hbusy (Nat.pos_of_ne_zero hspan)
    obtain ⟨r, hr, rfl⟩ := Option.map_eq_some_iff.mp hp
    obtain rfl : r.2 = l := List.append_cancel_left hbuf
    have hfits : r.2.length ≤ s.fifo.avail := hlen.trans s.fifo.inSpan_le
    have hr' : P.writer.fill s.enc s.fifo.inSpan = some r := hr
    rw [hr', Option.bind_some, KernelFifo.put, dif_pos hfits, Option.map_some]
    refine ⟨_, rfl, hsound, h.past, ?_, hasleep rfl rfl, heeded_of_acts (.inl (by simp))⟩
    intro hempty
    exact hlast (List.append_eq_nil_iff.mp hempty).2
  · rw [if_neg hfill]
    refine ⟨_, rfl, h.control rfl rfl ?_ (hasleep rfl rfl) (heeded_of_acts (.inl (by simp)))⟩
    intro hempty
    cases hbusy : P.writer.busy s.enc with
    | false => rfl
    | true =>
      refine absurd ⟨hbusy, ?_⟩ hfill
      have hroom : s.fifo.octets.length < P.size := by
        rw [show s.fifo.octets = [] from hempty]
        exact P.size_pos
      exact (s.fifo.inSpan_pos hroom).ne'

/-- The work goes on from each place but those where it calls out. -/
theorem Inv.run (h : Inv L s) (hpc : s.pc ≠ .off ∧ s.pc ≠ .took ∧ s.pc ≠ .write) :
    ∃ s', s.run = some s' ∧ Inv L s' := by
  obtain ⟨hoff, htook, hwrite⟩ := hpc
  have hplaced := h.placed
  cases hat : s.pc with
  | off => exact absurd hat hoff
  | took => exact absurd hat htook
  | write => exact absurd hat hwrite
  | fill => exact h.fill hat
  | top =>
    rw [Serdev.run, hat]
    refine ⟨_, rfl, ?_⟩
    cases hq : s.quiesced with
    | true => exact h.control rfl rfl trivial ⟨h.asleep.marked, fun _ => .inl rfl⟩ fun _ => .inr (.inl hq)
    | false =>
      have hbit : s.suspended ≠ true := by
        intro hbit
        rw [quiesced, hbit] at hq
        cases hq
      refine h.control rfl rfl trivial ⟨h.asleep.marked, ?_⟩ (heeded_of_acts (.inl (by simp)))
      rintro (hpm | hpm)
      · exact absurd (h.asleep.marked (.inr (.inl hpm))) hbit
      · exact absurd (h.asleep.marked (.inr (.inr hpm))) hbit
  | load =>
    have hasleep : ∀ {t : Serdev P}, t.pm = s.pm → t.suspended = s.suspended → t.Asleep :=
      h.asleep.move hoff (by simp [hat])
    rw [Serdev.run, hat]
    refine ⟨_, rfl, ?_⟩
    split
    next htaken =>
      exact h.control rfl rfl htaken.1 (hasleep rfl rfl) (heeded_of_acts (.inl (by simp)))
    next => exact h.control rfl rfl trivial (hasleep rfl rfl) (heeded_of_acts (.inl (by simp)))
  | out =>
    have hasleep : ∀ {t : Serdev P}, t.pm = s.pm → t.suspended = s.suspended → t.Asleep :=
      h.asleep.move hoff (by simp [hat])
    rw [Placed, hat] at hplaced
    rw [Serdev.run, hat]
    refine ⟨_, rfl, ?_⟩
    split
    next hspan =>
      have hempty := s.fifo.outSpan_eq_zero.mp hspan
      exact h.control rfl rfl ⟨hempty, hplaced hempty⟩ (hasleep rfl rfl)
        (heeded_of_acts (.inl (by simp)))
    next hspan =>
      have hne : s.fifo.octets ≠ [] := fun hempty => hspan (s.fifo.outSpan_eq_zero.mpr hempty)
      exact h.control rfl rfl hne (hasleep rfl rfl) (heeded_of_acts (.inl (by simp)))
  | idle =>
    have hasleep : ∀ {t : Serdev P}, t.pm = s.pm → t.suspended = s.suspended → t.Asleep :=
      h.asleep.move hoff (by simp [hat])
    rw [Placed, hat] at hplaced
    rw [Serdev.run, hat]
    refine ⟨_, rfl, ?_⟩
    cases hreq : s.forceTx with
    | true => exact h.control rfl rfl trivial (hasleep rfl rfl) (heeded_of_acts (.inl (by simp)))
    | false =>
      refine h.control rfl rfl trivial (hasleep rfl rfl) ?_
      rintro (hwork | hwork | hwork)
      · cases hwork
      · cases hplaced.2.symm.trans hwork
      · exact absurd hplaced.1 hwork

/-- The call of the core, and the packet it hands over. -/
theorem Inv.getPacket (h : Inv L s) (hpc : s.pc = .took) (asked : Bool) {r : Option (TxPacket × Bool)}
    (hr : ∀ p, r = some p → good p) : Inv L ((s.requestInside asked).load r) := by
  have hidle := h.placed
  rw [Placed, hpc] at hidle
  have hasleep : ∀ {t : Serdev P}, t.pm = s.pm → t.suspended = s.suspended → t.Asleep :=
    h.asleep.move (by simp [hpc]) (by simp [hpc])
  cases r with
  | none => exact h.control rfl rfl trivial (hasleep rfl rfl) (heeded_of_acts (.inl (by simp [load])))
  | some p =>
    exact ⟨h.pump.load hidle (hr p rfl), h.past, trivial, hasleep rfl rfl,
      heeded_of_acts (.inl (by simp [load]))⟩

/-- What the port takes goes out from the front, and a port that is full owes a wakeup. -/
theorem Inv.write (h : Inv L s) (hpc : s.pc = .write) {n : Nat} (hs : s.write n = some s') :
    Inv L s' := by
  have hasleep : ∀ {t : Serdev P}, t.pm = s.pm → t.suspended = s.suspended → t.Asleep :=
    h.asleep.move (by simp [hpc]) (by simp [hpc])
  rw [Serdev.write] at hs
  split at hs
  next =>
    split at hs
    next =>
      cases hs
      exact ⟨h.pump.ship n, h.past, trivial, hasleep rfl rfl,
        heeded_of_acts (.inr (.inr (.inr (.inl rfl))))⟩
    next =>
      cases hs
      exact ⟨h.pump.ship n, h.past, trivial, hasleep rfl rfl, heeded_of_acts (.inl (by simp))⟩
  next => cases hs

/-- Nothing half-sent survives, and the work is not where that would show. -/
theorem Inv.reset (h : Inv L s) (hpm : s.pm = .cancelled) (he : L.Inv (P.encInit s.enc)) :
    Inv L s.reset where
  pump := .start he (P.init_idle s.enc)
  past := by
    intro e he
    rcases List.mem_append.mp he with he | he
    · exact h.past e he
    · obtain rfl := List.mem_singleton.mp he
      exact h.pump.sent_first
  placed := by
    rcases h.asleep.held (.inl hpm) with hpc | hpc
    · simp [Placed, Serdev.reset, hpc]
    · simp [Placed, Serdev.reset, hpc]
  asleep :=
    ⟨fun _ => h.asleep.marked (.inr (.inl hpm)), fun _ => h.asleep.held (.inl hpm)⟩
  heeded := by
    intro _
    have hbit : s.suspended = true := h.asleep.marked (.inr (.inl hpm))
    right
    left
    simp [quiesced, Serdev.reset, hbit]

/-- A link that may send again asks for a TX round. -/
theorem Inv.restart (h : Inv L s) : Inv L s.restart := by
  have hasleep : ∀ {t : Serdev P}, t.pm = .awake → t.Asleep := by
    intro t hpm
    exact ⟨by simp [hpm], by simp [hpm]⟩
  have hcalls : 0 < s.requestTx.calling := Nat.succ_pos _
  rw [Serdev.restart]
  split
  next hst => exact h.control rfl rfl h.placed (hasleep rfl) fun _ => .inr (.inl (by simp [quiesced, hst]))
  next => exact h.control rfl rfl h.placed (hasleep rfl) (heeded_of_acts (.inr (.inr (.inl hcalls))))
  next => exact h.control rfl rfl h.placed (hasleep rfl) (heeded_of_acts (.inr (.inr (.inl hcalls))))

/-- A suspend under way holds the work off. -/
theorem Asleep.quiesced (h : s.Asleep) (hpm : s.pm = .marked ∨ s.pm = .cancelled ∨ s.pm = .asleep) :
    s.quiesced = true := by
  rw [Serdev.quiesced, h.marked hpm, Bool.true_or]

theorem Inv.step (h : Inv L s) (hinit : ∀ e, L.Inv (P.encInit e)) {a : Act} (ha : answers good a)
    (hs : Serdev.step s a = some s') : Inv L s' := by
  cases a with
  | setState st =>
    simp only [Serdev.step] at hs
    split at hs
    next => cases hs
    next hst =>
      cases hs
      refine h.control rfl rfl h.placed ⟨h.asleep.marked, h.asleep.held⟩ ?_
      intro hwork
      rcases h.heeded hwork with hacts | hq | hfailed
      · exact .inl hacts
      · right
        left
        have hbit : s.suspended = true := by simpa [quiesced, hst] using hq
        simp [quiesced, hbit]
      · exact .inr (.inr hfailed)
  | requestTx =>
    cases hs
    exact h.control rfl rfl h.placed ⟨h.asleep.marked, h.asleep.held⟩ (heeded_of_acts (.inr (.inr (.inl (Nat.succ_pos _)))))
  | schedule =>
    simp only [Serdev.step] at hs
    split at hs
    next => cases hs
    next =>
      cases hs
      exact h.control rfl rfl h.placed ⟨h.asleep.marked, h.asleep.held⟩ (heeded_of_acts (.inr (.inl rfl)))
  | wakeup =>
    cases hs
    rw [Serdev.wakeup]
    split
    next hq => exact h.control rfl rfl h.placed ⟨h.asleep.marked, h.asleep.held⟩ fun _ => .inr (.inl hq)
    next =>
      exact h.control rfl rfl h.placed ⟨h.asleep.marked, h.asleep.held⟩ (heeded_of_acts (.inr (.inr (.inl (Nat.succ_pos _)))))
  | start =>
    simp only [Serdev.step] at hs
    split at hs
    next hpc =>
      cases hs
      exact h.control rfl rfl trivial ⟨h.asleep.marked, fun _ => .inr rfl⟩
        (heeded_of_acts (.inl (by simp)))
    next => cases hs
  | run =>
    have hpc : s.pc ≠ .off ∧ s.pc ≠ .took ∧ s.pc ≠ .write := by
      refine ⟨?_, ?_, ?_⟩
      all_goals
        intro hpc
        rw [Serdev.step, Serdev.run, hpc] at hs
        cases hs
    obtain ⟨t, ht, hinv⟩ := h.run hpc
    obtain rfl : t = s' := Option.some_inj.mp (ht.symm.trans hs)
    exact hinv
  | getPacket asked r =>
    simp only [Serdev.step] at hs
    split at hs
    next hpc =>
      cases hs
      apply h.getPacket hpc
      rintro p rfl
      exact ha
    next => cases hs
  | write n =>
    simp only [Serdev.step] at hs
    split at hs
    next hpc => exact h.write hpc hs
    next => cases hs
  | writeFails asked =>
    simp only [Serdev.step] at hs
    split at hs
    next hpc =>
      cases hs
      exact h.control rfl rfl trivial (h.asleep.move (by simp [hpc]) (by simp [hpc]) rfl rfl)
        fun _ => .inr (.inr rfl)
    next => cases hs
  | suspend =>
    simp only [Serdev.step] at hs
    split at hs
    next =>
      cases hs
      exact h.control rfl rfl h.placed ⟨fun _ => rfl, by simp⟩ fun _ => .inr (.inl rfl)
    next => cases hs
  | cancel =>
    simp only [Serdev.step] at hs
    split at hs
    next hpm =>
      cases hs
      have hq := h.asleep.quiesced (.inl hpm.1)
      exact h.control rfl rfl h.placed ⟨fun _ => h.asleep.marked (.inl hpm.1), fun _ => .inl hpm.2⟩
        fun _ => .inr (.inl hq)
    next => cases hs
  | reset =>
    simp only [Serdev.step] at hs
    split at hs
    next hpm =>
      cases hs
      exact h.reset hpm (hinit s.enc)
    next => cases hs
  | resume =>
    simp only [Serdev.step] at hs
    split at hs
    next =>
      cases hs
      exact h.control rfl rfl h.placed ⟨by simp, by simp⟩
        (heeded_of_acts (.inr (.inr (.inr (.inr rfl)))))
    next => cases hs
  | restart =>
    simp only [Serdev.step] at hs
    split at hs
    next =>
      cases hs
      exact h.restart
    next => cases hs

theorem inv_reaches {e : σ} (hinit : ∀ e, L.Inv (P.encInit e)) (h : Reaches P good e s) : Inv L s :=
  Reachable.invariant (inv_init (hinit e)) (fun hi ha hs => hi.step hinit ha hs) h

/-- The octets the port took, those in the FIFO and those the encoder still has are what the packets taken
since the last suspend come to on the wire, and what went out before it is the front of that; nor does the
work ever stop where it goes on by itself, or write past a span of the FIFO. -/
theorem stream_kept {e : σ} (hinit : ∀ e, L.Inv (P.encInit e)) (h : Reaches P good e s) :
    s.sent ++ s.fifo.octets ++ L.left s.enc = s.taken.flatMap wire ∧
      (∀ ep ∈ s.past, ep.sent <+: ep.taken.flatMap wire) ∧
      (s.pc ≠ .off ∧ s.pc ≠ .took ∧ s.pc ≠ .write → (step s .run).isSome = true) := by
  have hinv := inv_reaches hinit h
  refine ⟨hinv.pump.octets, hinv.past, ?_⟩
  intro hpc
  obtain ⟨t, ht, -⟩ := hinv.run hpc
  exact Option.isSome_iff_exists.mpr ⟨t, ht⟩

/-- A window of two packets, on the escaping without a checksum. -/
def shortLink : Cfg (.ofWindow 1 one_lt_idBits) := Cfg.ofBuild (.ofWindow 1 one_lt_idBits) false 1 Nat.one_pos

theorem shortLink_frame : connFrameSz shortLink (none : Option (Csum 8)) ≤ 68 := by
  change 67 ≤ 68
  decide

def shortFraming : StreamFraming shortLink (none : Option (Csum 8)) :=
  Hdlc.plainFraming shortLink shortLink_frame Hdlc.unusedEnc Hdlc.unusedDec

def shortPort : SerdevPort shortFraming.Enc := .ofFraming shortFraming 64 (by decide)

def shortPacket : TxPacket := ⟨[0, 0], []⟩

def fitsShort (p : TxPacket × Bool) : Prop := p.1.Fits shortLink (none : Option (Csum 8))

instance : DecidablePred fitsShort := fun p =>
  inferInstanceAs (Decidable (p.1.Fits shortLink (none : Option (Csum 8))))

/-- The work starts, takes a packet, and the port takes two of its octets. -/
def beginPacket : List Act :=
  [.schedule, .start, .run, .run, .getPacket false (some (shortPacket, true)), .run, .run, .write 2]

theorem stream_kept_suspended : ∃ s, Reaches shortPort fitsShort Hdlc.unusedEnc s ∧
    s.past ≠ [] ∧ s.fifo.octets ≠ [] ∧
    s.sent ++ s.fifo.octets ++ shortFraming.lawful.left s.enc = s.taken.flatMap shortFraming.wire := by
  obtain ⟨s, hs, hP⟩ := Reachable.of_exec (init shortPort Hdlc.unusedEnc) step
    (fun _ a => decide (answers fitsShort a))
    ([.requestTx] ++ beginPacket ++ [.suspend, .cancel, .reset, .resume, .restart] ++ beginPacket)
    (fun s => s.past.length = 1 ∧ s.fifo.octets ≠ [])
    (by decide +kernel) (by decide +kernel)
  have hrun := hs.mono fun _ _ ha => of_decide_eq_true ha
  obtain ⟨hpast, hfifo⟩ := of_decide_eq_true hP
  have hkept := stream_kept shortFraming.enc_inv hrun
  exact ⟨s, hrun, List.ne_nil_of_length_eq_add_one hpast, hfifo, hkept.1⟩

/-- Where nothing goes on that leads to a turn of the work, there is nothing to send, unless writing is
forbidden or the last run ended with a write that failed. -/
theorem Inv.rest (h : Inv L s) (hrest : ¬ s.acts) (hq : s.quiesced = false) (hfailed : s.failed = false) :
    s.forceTx = false ∧ s.sent = s.taken.flatMap wire := by
  have hidle : ¬ s.work := by
    intro hwork
    rcases h.heeded hwork with hacts | hquiet | hfail
    · exact hrest hacts
    · cases hq.symm.trans hquiet
    · cases hfailed.symm.trans hfail
  simp only [work, not_or, Bool.not_eq_true, not_not] at hidle
  exact ⟨hidle.1, h.pump.sent_eq hidle.2.1 hidle.2.2⟩

/-- The port takes the rest when it has room again, and the work goes off. -/
def endPacket : List Act :=
  [.wakeup, .schedule, .start, .run, .run, .run, .run, .write 2, .run, .run, .run, .run, .run]

theorem idle_reached : ∃ s, Reaches shortPort fitsShort Hdlc.unusedEnc s ∧
    s.taken = [(shortPacket, true)] ∧ ¬ s.acts ∧ s.quiesced = false ∧ s.failed = false := by
  obtain ⟨s, hs, hP⟩ := Reachable.of_exec (init shortPort Hdlc.unusedEnc) step
    (fun _ a => decide (answers fitsShort a)) ([.requestTx] ++ beginPacket ++ endPacket)
    (fun s => (s.taken = [(shortPacket, true)] ∧ s.quiesced = false ∧ s.failed = false) ∧
      (s.pc = .off ∧ s.pending = false ∧ s.calling = 0 ∧ s.owed = false ∧ s.pm = .awake))
    (by decide +kernel) (by decide +kernel)
  obtain ⟨⟨htaken, hq, hfailed⟩, hpc, hpending, hcalling, howed, hpm⟩ := of_decide_eq_true hP
  refine ⟨s, hs.mono fun _ _ ha => of_decide_eq_true ha, htaken, ?_, hq, hfailed⟩
  simp [acts, hpc, hpending, hcalling, howed, hpm]

end Serdev

/-! ## From port to port -/

section Ports

variable {w : Wire} {b : Nat} {cfg : Cfg w} {csum : Option (Csum b)}

variable {F : StreamFraming cfg csum} {size : Nat} {hsize : 0 < size} {e : F.Enc}
  {s : Serdev (.ofFraming F size hsize)}

end Ports

end Ludlc.Linux
