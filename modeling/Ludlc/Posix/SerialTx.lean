import Ludlc.Posix.Kfifo
import Ludlc.Posix.SerialRx

/-! # The transmitting thread of the POSIX serial port

`ludlc_tx_serial_thread` of `ludlc_posix_serial.c`. The thread fills a FIFO from the encoder and writes
the FIFO to the port at two places: behind `poll`, where an error takes the link down, and at the end of
its loop, where it does not.
-/

namespace Ludlc.Posix

open Runs

/-- What the thread does that a failing port is measured by. A write that fails is told with the state
of the link. -/
inductive TxEv
  | writeFailed (st : ConnState)
  | disconnect
  | taken (p : TxPacket)
  deriving DecidableEq

/-- Where the thread is: `sleep` is the test for `poll`, `calc` that for the next sleep, and `take`
between the flag it found and `ludlc_get_packet_to_send`. -/
inductive TxAt
  | loop
  | sleep
  | poll
  | polled (pollOut : Bool)
  | pollSend
  | full
  | load
  | take
  | fill
  | calc
  | send
  | exited
  deriving DecidableEq

variable {σ : Type}

/-- An encoder that is idle once initialised, and a FIFO of `2 ^ k` octets. -/
structure TxPort (σ : Type) where
  writer : Stream.Writer σ (TxPacket × Bool) UInt8
  encInit : σ → σ
  init_idle : ∀ e, writer.busy (encInit e) = false
  k : Nat
  k_lt : k < 32

/-- `pipe` is what `tx_pipe` holds, `pollOut` whether `uart_events` has POLLOUT. -/
structure Tx (σ : Type) where
  pc : TxAt
  connState : ConnState
  forceTx : Bool
  pipe : Nat
  canSleep : Bool
  pollOut : Bool
  enc : σ
  fifo : Kfifo UInt8
  txPacket : Nat
  dropped : Nat
  log : List TxEv

def Tx.init (P : TxPort σ) (e : σ) (data : Nat → UInt8) : Tx σ where
  pc := .loop
  connState := .disconnected
  forceTx := false
  pipe := 0
  canSleep := true
  pollOut := false
  enc := P.encInit e
  fifo := .init data
  txPacket := 0
  dropped := 0
  log := []

/-- `ludlc_platform_request_tx`. -/
def Tx.requestTx (s : Tx σ) : Tx σ := { s with forceTx := true, pipe := s.pipe + 1 }

/-- `UINT_MAX`. -/
def uintMax : Nat := 2 ^ 32 - 1

/-- `kfifo_put_finish` of octets written at the head of the FIFO. -/
def Kfifo.fill (k : Nat) (f : Kfifo α) (src : List α) : Kfifo α :=
  let head := (fifoOffset k f.inIdx).toNat
  { f with
    data := fun i => if i < head then f.data i else (src[i - head]?).getD (f.data i)
    inIdx := f.inIdx + BitVec.ofNat 32 src.length }

/-- What a `write` of the octets claimed does: how many go out, or an error. -/
abbrev WriteRes := Except Errno Nat

/-- `send_tx_fifo`: the thread after it, and whether it returns an error. `none` where `write` is told
to take more than it is given. -/
def sendTxFifo (P : TxPort σ) (s : Tx σ) (r : WriteRes) : Option (Tx σ × Bool) :=
  let len := (getClaim P.k s.fifo.inIdx s.fifo.outIdx uintMax).2
  if len = 0 then some (s, false)
  else
    match r with
    | .error e =>
      if e ≠ .EAGAIN ∧ e ≠ .EWOULDBLOCK then
        some ({ s with log := s.log ++ [.writeFailed s.connState] }, true)
      else some (s, false)
    | .ok n =>
      if n ≤ len then
        some ({ s with
          fifo := { s.fifo with outIdx := s.fifo.outIdx + BitVec.ofNat 32 n } }, false)
      else none

/-- Behind `poll` an error ends the session. -/
def afterPollSend (P : TxPort σ) (r : Tx σ × Bool) : Tx σ :=
  if r.2 then
    { r.1 with
      enc := P.encInit r.1.enc, dropped := r.1.dropped + 1, log := r.1.log ++ [.disconnect], pc := .full }
  else { r.1 with pollOut := !r.1.fifo.isEmpty, pc := .full }

/-- At the end of the loop it does not. -/
def afterSend (P : TxPort σ) (r : Tx σ × Bool) : Tx σ :=
  if r.2 then
    { r.1 with enc := P.encInit r.1.enc, dropped := r.1.dropped + 1, canSleep := true, pc := .loop }
  else if !r.1.fifo.isEmpty then { r.1 with pollOut := true, canSleep := true, pc := .loop }
  else { r.1 with pollOut := false, pc := .loop }

/-- A turn of the loop that pumps the encoder into the FIFO. -/
def pump (P : TxPort σ) (s : Tx σ) : Option (Tx σ) :=
  let room := (putClaim P.k s.fifo.inIdx s.fifo.outIdx uintMax).2
  if P.writer.busy s.enc = false ∨ room = 0 then some { s with pc := .calc }
  else
    (P.writer.fill s.enc room).map fun r =>
      { s with
        enc := r.1, fifo := s.fifo.fill P.k r.2
        txPacket := if P.writer.busy r.1 then s.txPacket else s.txPacket + 1 }

/-- Whether the thread may sleep after this turn. -/
def calcSleep (P : TxPort σ) (s : Tx σ) : Bool :=
  if s.fifo.isFull P.k && P.writer.busy s.enc then true
  else !P.writer.busy s.enc && s.fifo.isEmpty && !s.forceTx

/-- The rest of `ludlc_posix_enc_load` once a packet was asked for, of which the core says whether another
is behind it. -/
def takePacket (P : TxPort σ) (s : Tx σ) : Option (TxPacket × Bool) → Tx σ
  | none => { s with pc := .fill }
  | some (p, pending) =>
    let s := { s with
      enc := P.writer.load s.enc (p, pending), pc := .fill, log := s.log ++ [.taken p] }
    if pending then s else s.requestTx

/-- A step of the thread by itself. -/
def txRun (P : TxPort σ) (s : Tx σ) : Option (Tx σ) :=
  match s.pc with
  | .loop => some { s with pc := if s.connState = .terminate then .exited else .sleep }
  | .sleep =>
    some { s with
      pc := if s.canSleep && !s.forceTx && !P.writer.busy s.enc && s.fifo.isEmpty then .poll else .load }
  | .polled pollOut =>
    some { s with
      pc := if s.connState = .terminate then .exited else if pollOut then .pollSend else .full }
  | .full =>
    some (if s.fifo.isFull P.k then { s with pollOut := true, pc := .loop } else { s with pc := .load })
  | .load =>
    some (if P.writer.busy s.enc then { s with pc := .fill }
      else if s.forceTx then { s with forceTx := false, pc := .take }
      else { s with pc := .fill })
  | .fill => pump P s
  | .calc => some { s with canSleep := calcSleep P s, pc := .send }
  | _ => none

/-- Steps of the other threads, of the thread, and of what it calls. The answer of
`ludlc_get_packet_to_send` is a packet with `pending != 0`, or a negative number. -/
inductive TxAct
  | setState (st : ConnState)
  | requestTx
  | run
  | poll (r : Except Errno Bool)
  | write (r : WriteRes)
  | getPacket (r : Option (TxPacket × Bool))

def txStep (P : TxPort σ) (s : Tx σ) : TxAct → Option (Tx σ)
  | .setState st => some { s with connState := st }
  | .requestTx => some s.requestTx
  | .run => txRun P s
  | .poll r =>
    match s.pc, r with
    | .poll, .error .EINTR => some { s with pc := .loop }
    | .poll, .error _ => some { s with pc := .exited }
    | .poll, .ok pollOut => some { s with pipe := 0, pc := .polled (pollOut && s.pollOut) }
    | _, _ => none
  | .write r =>
    match s.pc with
    | .pollSend => (sendTxFifo P s r).map (afterPollSend P)
    | .send => (sendTxFifo P s r).map (afterSend P)
    | _ => none
  | .getPacket r =>
    match s.pc with
    | .take => some (takePacket P s r)
    | _ => none

/-- Once a write has failed on a link that is up, the thread takes the link down before it takes a
packet. -/
def FailureEnds (log : List TxEv) : Prop :=
  ∀ l₁ l₂ l₃ p, log = l₁ ++ .writeFailed .connected :: l₂ ++ .taken p :: l₃ → .disconnect ∈ l₂

/-! ## Where the error path leads -/

section Log

variable {log : List TxEv}

theorem failureEnds_nil : FailureEnds [] := by
  intro l₁ l₂ l₃ p h
  simp at h

/-- What `FailureEnds` asks of an event and those before it. -/
def EndedBefore (before : List TxEv) (e : TxEv) : Prop :=
  ∀ p, e = .taken p → ∀ l₁ l₂, before = l₁ ++ .writeFailed .connected :: l₂ → .disconnect ∈ l₂

theorem failureEnds_iff_each : FailureEnds log ↔ Each EndedBefore log := by
  constructor
  · rintro h before e after rfl p rfl l₁ l₂ rfl
    exact h l₁ l₂ after p rfl
  · rintro h l₁ l₂ l₃ p rfl
    exact h _ _ l₃ rfl p rfl l₁ l₂ rfl

/-- What is no packet taken cannot break it. -/
theorem failureEnds_snoc {e : TxEv} (he : ∀ p, e ≠ .taken p) :
    FailureEnds (log ++ [e]) ↔ FailureEnds log := by
  rw [failureEnds_iff_each, each_snoc, failureEnds_iff_each]
  exact and_iff_left fun p hp => absurd hp (he p)

/-- With no link taken down so far, a packet may be taken only if no write has failed. -/
theorem failureEnds_taken (hno : .disconnect ∉ log) (p : TxPacket) :
    FailureEnds (log ++ [.taken p]) ↔ FailureEnds log ∧ .writeFailed .connected ∉ log := by
  rw [failureEnds_iff_each, each_snoc, failureEnds_iff_each]
  refine and_congr_right fun _ => ⟨fun h hmem => ?_, fun hfailed q _ l₁ l₂ heq => ?_⟩
  · obtain ⟨l₁, l₂, rfl⟩ := List.append_of_mem hmem
    have hin := h p rfl l₁ l₂ rfl
    exact hno (List.mem_append_right _ (List.mem_cons_of_mem _ hin))
  · exact absurd (by rw [heq]; simp) hfailed

end Log

/-- The thread is behind the test that it may sleep. -/
def TxAt.polling : TxAt → Bool
  | .poll | .polled _ | .pollSend => true
  | _ => false

/-- The FIFO is empty where the error path that takes the link down is. -/
structure TxInv (s : Tx σ) : Prop where
  empty : s.pc.polling = true → s.fifo.isEmpty = true
  up : .disconnect ∉ s.log

theorem txInv_init (P : TxPort σ) (e : σ) (data : Nat → UInt8) : TxInv (Tx.init P e data) where
  empty h := by cases h
  up := List.not_mem_nil

/-- Nothing is written from an empty FIFO. -/
theorem sendTxFifo_empty {P : TxPort σ} {s : Tx σ} (h : s.fifo.isEmpty = true) (r : WriteRes) :
    sendTxFifo P s r = some (s, false) := by
  have hidx : s.fifo.inIdx = s.fifo.outIdx := beq_iff_eq.mp h
  have hlen : (getClaim P.k s.fifo.inIdx s.fifo.outIdx uintMax).2 = 0 := by
    rw [getClaim, fifoUsed, hidx, BitVec.sub_self]
    simp
  simp only [sendTxFifo, if_pos hlen]

/-- A write puts nothing into the log but its failure. -/
theorem sendTxFifo_log {P : TxPort σ} {s : Tx σ} {r : WriteRes} {q : Tx σ × Bool}
    (h : sendTxFifo P s r = some q) :
    q.1.log = s.log ∨ q.1.log = s.log ++ [.writeFailed s.connState] := by
  simp only [sendTxFifo] at h
  split at h
  · cases h
    exact .inl rfl
  · split at h
    · split at h
      · cases h
        exact .inr rfl
      · cases h
        exact .inl rfl
    · split at h
      · cases h
        exact .inl rfl
      · cases h

theorem afterSend_spec (P : TxPort σ) (q : Tx σ × Bool) :
    (afterSend P q).log = q.1.log ∧ (afterSend P q).pc = .loop := by
  rw [afterSend]
  split
  · exact ⟨rfl, rfl⟩
  · split
    · exact ⟨rfl, rfl⟩
    · exact ⟨rfl, rfl⟩

/-- What a step adds to the log, and where it leaves the FIFO empty. -/
structure TxEffect (s s' : Tx σ) (evs : List TxEv) : Prop where
  log : s'.log = s.log ++ evs
  empty : s'.pc.polling = true → s'.fifo.isEmpty = true

theorem TxEffect.silent {s s' : Tx σ} (hlog : s'.log = s.log)
    (hempty : s'.pc.polling = true → s'.fifo.isEmpty = true) : TxEffect s s' [] :=
  ⟨by rw [hlog, List.append_nil], hempty⟩

theorem TxEffect.away {s s' : Tx σ} (hlog : s'.log = s.log) (hpc : s'.pc.polling = false) :
    TxEffect s s' [] :=
  .silent hlog fun h => by rw [hpc] at h; cases h

theorem txRun_effect {P : TxPort σ} {s s' : Tx σ} (h : TxInv s) (hs : txRun P s = some s') :
    TxEffect s s' [] := by
  have hempty := h.empty
  simp only [txRun] at hs
  split at hs
  next =>
    cases hs
    refine .away rfl ?_
    simp only
    split <;> rfl
  next =>
    cases hs
    refine .silent rfl fun hp => ?_
    simp only at hp
    split at hp
    next hsleep =>
      simp only [Bool.and_eq_true] at hsleep
      exact hsleep.2
    next => cases hp
  next hpc =>
    cases hs
    rw [hpc] at hempty
    exact .silent rfl fun _ => hempty rfl
  next =>
    cases hs
    refine .away ?_ ?_
    · split <;> rfl
    · split <;> rfl
  next =>
    cases hs
    refine .away ?_ ?_
    · split
      · rfl
      · split <;> rfl
    · split
      · rfl
      · split <;> rfl
  next hpc =>
    simp only [pump] at hs
    split at hs
    · cases hs
      exact .away rfl rfl
    · obtain ⟨r, -, rfl⟩ := Option.map_eq_some_iff.mp hs
      exact .away rfl (by rw [hpc]; rfl)
  next =>
    cases hs
    exact .away rfl rfl
  next => cases hs

/-- A packet the core has is taken; no other step logs more than the failure of a write. -/
theorem txStep_effect {P : TxPort σ} {s s' : Tx σ} {a : TxAct} (h : TxInv s)
    (hs : txStep P s a = some s') :
    match a with
    | .getPacket (some (p, _)) => TxEffect s s' [.taken p]
    | _ => TxEffect s s' [] ∨ ∃ st, TxEffect s s' [.writeFailed st] := by
  have hempty := h.empty
  cases a with
  | setState st =>
    cases hs
    exact .inl (.silent rfl hempty)
  | requestTx =>
    cases hs
    exact .inl (.silent rfl hempty)
  | run => exact .inl (txRun_effect h hs)
  | poll r =>
    left
    simp only [txStep] at hs
    split at hs
    next =>
      cases hs
      exact .away rfl rfl
    next =>
      cases hs
      exact .away rfl rfl
    next hpc =>
      cases hs
      rw [hpc] at hempty
      exact .silent rfl fun _ => hempty rfl
    next => cases hs
  | write r =>
    simp only [txStep] at hs
    split at hs
    next hpc =>
      -- the FIFO is empty here, so that no write is made
      rw [hpc] at hempty
      rw [sendTxFifo_empty (hempty rfl), Option.map_some] at hs
      cases hs
      exact .inl (.away rfl rfl)
    next hpc =>
      obtain ⟨q, hq, rfl⟩ := Option.map_eq_some_iff.mp hs
      obtain ⟨hlog, hloop⟩ := afterSend_spec P q
      have haway : (afterSend P q).pc.polling = true → (afterSend P q).fifo.isEmpty = true := by
        rw [hloop]
        exact fun h => by cases h
      rcases sendTxFifo_log hq with hsame | hfailed
      · exact .inl (.silent (hlog.trans hsame) haway)
      · exact .inr ⟨s.connState, hlog.trans hfailed, haway⟩
    next => cases hs
  | getPacket r =>
    simp only [txStep] at hs
    split at hs
    next =>
      cases hs
      cases r with
      | none => exact .inl (.away rfl rfl)
      | some r =>
        obtain ⟨p, pending⟩ := r
        cases pending with
        | true => exact ⟨rfl, fun h => by cases h⟩
        | false => exact ⟨rfl, fun h => by cases h⟩
    next => cases hs

/-- No write has failed on a link that was up, or the core has no packet. -/
def noneAfterFailure (s : Tx σ) : TxAct → Bool
  | .getPacket (some _) => .writeFailed .connected ∉ s.log
  | _ => true

theorem failureEnds_step {P : TxPort σ} {s s' : Tx σ} {a : TxAct} (h : TxInv s)
    (hs : txStep P s a = some s') :
    TxInv s' ∧ (FailureEnds s'.log ↔ FailureEnds s.log ∧ noneAfterFailure s a = true) := by
  have heff := txStep_effect h hs
  have hother : (TxEffect s s' [] ∨ ∃ st, TxEffect s s' [.writeFailed st]) →
      TxInv s' ∧ (FailureEnds s'.log ↔ FailureEnds s.log) := by
    rintro (he | ⟨st, he⟩)
    · rw [he.log, List.append_nil]
      exact ⟨⟨he.empty, by rw [he.log, List.append_nil]; exact h.up⟩, Iff.rfl⟩
    · rw [he.log, failureEnds_snoc (by simp)]
      exact ⟨⟨he.empty, by rw [he.log]; simp [h.up]⟩, Iff.rfl⟩
  cases a with
  | getPacket r =>
    cases r with
    | some r =>
      have he : TxEffect s s' [.taken r.1] := heff
      rw [he.log, failureEnds_taken h.up, noneAfterFailure, decide_eq_true_iff]
      exact ⟨⟨he.empty, by rw [he.log]; simp [h.up]⟩, Iff.rfl⟩
    | none => simpa [noneAfterFailure] using hother heff
  | _ => simpa [noneAfterFailure] using hother heff

/-- A port with the escaping, a checksum of one octet and a FIFO of 64 octets. -/
def hdlcTx : TxPort (Hdlc.Enc 8) where
  writer := Hdlc.writer (some lrc)
  encInit := Hdlc.encInit
  init_idle _ := rfl
  k := 6
  k_lt := by decide

/-- The link is up, a packet goes into the FIFO, and the port fails. -/
def portFails : List TxAct :=
  [.setState .connected, .requestTx, .run, .run, .run, .getPacket (some (⟨[1, 0x80], []⟩, true)), .run,
    .run, .run, .write (.error (.other 5))]

end Ludlc.Posix
