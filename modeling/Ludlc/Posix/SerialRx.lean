import Ludlc.Framing.HdlcDecoder
import Ludlc.Lib.Runs

/-! # The receiving thread of the POSIX serial port

`ludlc_rx_serial_thread` of `ludlc_posix_serial.c`, with `ludlc_serial_read` step by step. The thread
sleeps in `poll` on its line and on a pipe, which the watchdog of the link writes to when it expires.
-/

namespace Ludlc.Posix

open Runs

/-- The values of `errno` that the port tells apart. -/
inductive Errno
  | EAGAIN
  | EWOULDBLOCK
  | EINTR
  | EPIPE
  | other (code : Nat)
  deriving DecidableEq

/-- What happens on a link: its watchdog expires, and the thread calls `ludlc_handle_disconnect` or
`ludlc_receive`. -/
inductive RxEv
  | expired
  | disconnect
  | receive (pkt : List UInt8) (tstamp : Nat)
  deriving DecidableEq

/-- Where the thread is. In `drain` and `read` it carries whether `poll` found octets on the line, in
`feed` the octets read and not decoded yet. -/
inductive RxAt
  | loop
  | poll
  | drain (uart : Bool)
  | read (uart : Bool)
  | feed (rest : List UInt8)
  | exited
  deriving DecidableEq

/-- A decoder, and the octets its pipe holds. -/
structure RxPort (σ : Type) where
  reader : Stream.Reader σ (List UInt8) UInt8
  decInit : σ → σ
  pipeCap : Nat
  pipeCap_pos : 0 < pipeCap

/-- `line` is what has arrived and was not read. -/
structure Rx (σ : Type) where
  pc : RxAt
  dec : σ
  pipe : Nat
  line : List UInt8
  terminate : Bool
  log : List RxEv

variable {σ : Type}

def Rx.init (P : RxPort σ) (d : σ) : Rx σ :=
  ⟨.loop, P.reader.prep (P.decInit d), 0, [], false, []⟩

/-- What `poll` returns. -/
inductive PollRes
  | failed (errno : Errno)
  | timeout
  | ready (uart : Bool)

inductive RxAct
  | arrive (src : List UInt8)
  | expire
  | terminate
  | enter
  | poll (r : PollRes)
  | drain
  | read (r : Except Errno Nat)
  | feed (clock : Option Nat)

/-- The octets of `buf` in `ludlc_rx_serial_thread`. -/
def rxBufSz : Nat := 16

/-- What the loop does with what `ludlc_serial_read` returns. -/
def rxReturn (P : RxPort σ) (s : Rx σ) : Except Errno (List UInt8) → Rx σ
  | .ok buf => { s with pc := .feed buf }
  | .error .EAGAIN => { s with pc := .loop }
  | .error _ =>
    { s with pc := .loop, dec := P.reader.prep (P.decInit s.dec), log := s.log ++ [.disconnect] }

/-- One turn of the loop over the octets read. `clock` is what `get_timestamp` gives. -/
def rxFeed (P : RxPort σ) (s : Rx σ) (rest : List UInt8) (clock : Option Nat) : Rx σ :=
  let r := P.reader.feed s.dec rest
  if r.2.1 then
    { s with
      pc := .feed (rest.drop r.1), dec := P.reader.prep r.2.2
      log := match clock with
        | some ts => s.log ++ [.receive (P.reader.item r.2.2) ts]
        | none => s.log }
  else { s with pc := .feed (rest.drop r.1), dec := r.2.2 }

def rxStep (P : RxPort σ) (s : Rx σ) : RxAct → Option (Rx σ)
  | .arrive src => some { s with line := s.line ++ src }
  | .expire =>
    -- `ludlc_platform_conn_timeout`: an octet that a full pipe refuses is not missed.
    some { s with pipe := min (s.pipe + 1) P.pipeCap, log := s.log ++ [.expired] }
  | .terminate => some { s with terminate := true }
  | .enter =>
    match s.pc with
    | .loop => some { s with pc := if s.terminate then .exited else .poll }
    | _ => none
  | .poll r =>
    match s.pc, r with
    | .poll, .failed e => some (rxReturn P s (.error e))
    | .poll, .timeout => some (rxReturn P s (.error .EAGAIN))
    | .poll, .ready uart => some { s with pc := if s.pipe = 0 then .read uart else .drain uart }
    | _, _ => none
  | .drain =>
    match s.pc with
    | .drain uart =>
      if s.pipe = 0 then some { s with pc := .read uart } else some { s with pipe := s.pipe - 1 }
    | _ => none
  | .read r =>
    match s.pc, r with
    | .read false, _ => some (rxReturn P s (.error .EPIPE))
    | .read true, .error e => some (rxReturn P s (.error e))
    | .read true, .ok n =>
      if n ≤ min rxBufSz s.line.length then
        some (rxReturn P { s with line := s.line.drop n } (.ok (s.line.take n)))
      else none
    | _, _ => none
  | .feed clock =>
    match s.pc with
    | .feed [] => some { s with pc := .loop }
    | .feed (c :: rest) => some (rxFeed P s (c :: rest) clock)
    | _ => none

/-- The watchdog has expired, and nothing was done about it yet. -/
def Rx.Owed (s : Rx σ) : Prop := s.log.getLast? = some .expired

/-- The thread sleeps in `poll`. -/
def Rx.Asleep (s : Rx σ) : Prop := s.pc = .poll ∧ s.pipe = 0 ∧ s.line = []

/-- A packet is complete in the octets. -/
def RxPort.Completes (P : RxPort σ) (d : σ) (src : List UInt8) : Prop :=
  ∃ t out, P.reader.Reads d src t out ∧ out ≠ []

theorem RxPort.not_completes_nil (P : RxPort σ) (d : σ) : ¬ P.Completes d [] := by
  rintro ⟨t, out, hread, hne⟩
  exact hne hread.eq_of_nil.2

theorem RxPort.Completes.more {P : RxPort σ} {d : σ} {c : UInt8} {rest : List UInt8}
    (h : P.Completes d (c :: rest)) (hd : ¬ (P.reader.feed d (c :: rest)).2.1 = true) :
    P.Completes (P.reader.feed d (c :: rest)).2.2
      ((c :: rest).drop (P.reader.feed d (c :: rest)).1) := by
  obtain ⟨t, out, ⟨fuel, hread⟩, hne⟩ := h
  cases fuel with
  | zero => cases hread
  | succ fuel =>
    rw [Stream.Reader.read, if_neg (by simp), if_neg hd] at hread
    exact ⟨t, out, ⟨fuel, hread⟩, hne⟩

/-- No expiry is lost in the step: the last octets on the line complete a packet if they are read
behind its back, and so do those after a packet that gets no timestamp. -/
def rxKeeps (P : RxPort σ) (s : Rx σ) : RxAct → Prop
  | .read (.ok n) => s.pc = .read true → s.Owed → s.pipe = 0 → s.line.length ≤ n →
      P.Completes s.dec s.line
  | .read (.error e) => s.pc = .read true → s.Owed → s.pipe = 0 → s.line = [] → e ≠ .EAGAIN
  | .feed none => ∀ rest, s.pc = .feed rest → s.Owed → s.pipe = 0 → s.line = [] →
      (P.reader.feed s.dec rest).2.1 = true →
        P.Completes (P.reader.prep (P.reader.feed s.dec rest).2.2)
          (rest.drop (P.reader.feed s.dec rest).1)
  | _ => True

/-- What the place of the thread still promises about an expiry that left no octet behind. -/
def RxAt.Promises (P : RxPort σ) (d : σ) : RxAt → Prop
  | .loop | .poll => False
  | .drain _ | .read _ | .exited => True
  | .feed rest => P.Completes d rest

def RxInv (P : RxPort σ) (s : Rx σ) : Prop :=
  s.Owed → s.pipe = 0 → s.line = [] → s.pc.Promises P s.dec

/-- An error is taken to the core, or is `EAGAIN` and leaves the link as it is. -/
theorem rxReturn_error_inv {P : RxPort σ} {s : Rx σ} {e : Errno}
    (h : s.Owed → s.pipe = 0 → s.line = [] → e ≠ .EAGAIN) : RxInv P (rxReturn P s (.error e)) := by
  intro howed hpipe hline
  by_cases he : e = .EAGAIN
  · subst he
    exact h howed hpipe hline rfl
  · have hret : (rxReturn P s (.error e)).log = s.log ++ [.disconnect] := by
      cases e <;> first | rfl | exact absurd rfl he
    rw [Rx.Owed, hret] at howed
    simp at howed

theorem rxFeed_inv {P : RxPort σ} {s : Rx σ} {c : UInt8} {rest : List UInt8} {clock : Option Nat}
    (h : RxInv P s) (hpc : s.pc = .feed (c :: rest)) (hok : rxKeeps P s (.feed clock)) :
    RxInv P (rxFeed P s (c :: rest) clock) := by
  by_cases hd : (P.reader.feed s.dec (c :: rest)).2.1 = true
  · simp only [rxFeed, if_pos hd]
    cases clock with
    | none =>
      intro howed hpipe hline
      exact hok _ hpc howed hpipe hline hd
    | some ts =>
      intro howed
      simp [Rx.Owed] at howed
  · simp only [rxFeed, if_neg hd]
    intro howed hpipe hline
    have hpromise := h howed hpipe hline
    rw [hpc] at hpromise
    exact hpromise.more hd

theorem rxInv_step {P : RxPort σ} {s s' : Rx σ} {a : RxAct} (h : RxInv P s) (hok : rxKeeps P s a)
    (hs : rxStep P s a = some s') : RxInv P s' := by
  cases a with
  | arrive src =>
    cases hs
    intro howed hpipe hline
    exact h howed hpipe (List.append_eq_nil_iff.mp hline).1
  | expire =>
    cases hs
    intro _ hpipe
    have hcap := P.pipeCap_pos
    simp only at hpipe
    omega
  | terminate =>
    cases hs
    exact h
  | enter =>
    simp only [rxStep] at hs
    split at hs
    next hpc =>
      cases hs
      intro howed hpipe hline
      have hpromise := h howed hpipe hline
      rw [hpc] at hpromise
      exact hpromise.elim
    next => cases hs
  | poll r =>
    have hnone : s.pc = .poll → s.Owed → s.pipe = 0 → s.line ≠ [] := by
      intro hpc howed hpipe hline
      have hpromise := h howed hpipe hline
      rw [hpc] at hpromise
      exact hpromise
    simp only [rxStep] at hs
    split at hs
    next hpc =>
      cases hs
      exact rxReturn_error_inv fun howed hpipe hline => absurd hline (hnone hpc howed hpipe)
    next hpc =>
      cases hs
      exact rxReturn_error_inv fun howed hpipe hline => absurd hline (hnone hpc howed hpipe)
    next hpc =>
      cases hs
      intro _ _ _
      simp only
      split <;> trivial
    next => cases hs
  | drain =>
    simp only [rxStep] at hs
    split at hs
    next hpc =>
      split at hs
      · cases hs
        exact fun _ _ _ => trivial
      · cases hs
        intro _ _ _
        rw [hpc]
        trivial
    next => cases hs
  | read r =>
    simp only [rxStep] at hs
    split at hs
    next =>
      cases hs
      exact rxReturn_error_inv fun _ _ _ he => by cases he
    next hpc =>
      cases hs
      exact rxReturn_error_inv fun howed hpipe hline => hok hpc howed hpipe hline
    next n hpc =>
      split at hs
      · cases hs
        intro howed hpipe hline
        have hlen : s.line.length ≤ n := List.drop_eq_nil_iff.mp hline
        have hall := hok hpc howed hpipe hlen
        rw [← List.take_of_length_le hlen] at hall
        exact hall
      · cases hs
    next => cases hs
  | feed clock =>
    simp only [rxStep] at hs
    split at hs
    next hpc =>
      cases hs
      intro howed hpipe hline
      have hpromise := h howed hpipe hline
      rw [hpc] at hpromise
      exact P.not_completes_nil _ hpromise
    next c rest hpc =>
      cases hs
      exact rxFeed_inv h hpc hok
    next => cases hs

/-- Before the thread sleeps again, an expiry has led to a disconnect or to a packet for the core. -/
theorem expiry_heeded {P : RxPort σ} {d : σ} {s : Rx σ}
    (h : Reachable (Rx.init P d) (rxStep P) (rxKeeps P) s) (hasleep : s.Asleep) :
    s.log.getLast? ≠ some .expired := by
  have hinv : RxInv P s :=
    h.invariant (fun howed => by cases howed) fun hi hok hs => rxInv_step hi hok hs
  intro howed
  obtain ⟨hpc, hpipe, hline⟩ := hasleep
  have hpromise := hinv howed hpipe hline
  rw [hpc] at hpromise
  exact hpromise

/-- The thread decodes octets that complete no packet, and comes back to its loop. -/
theorem feed_through {P : RxPort σ} {s : Rx σ} {rest : List UInt8} {t : σ}
    (hpc : s.pc = .feed rest) (hread : P.reader.Reads s.dec rest t []) :
    ∃ as, exec (rxStep P) s as = some { s with pc := .loop, dec := t } := by
  obtain ⟨fuel, hread⟩ := hread
  induction fuel generalizing s rest with
  | zero => cases hread
  | succ fuel ih =>
    cases rest with
    | nil =>
      cases hread
      refine ⟨[.feed none], ?_⟩
      simp only [exec, rxStep, hpc, Option.bind_some]
    | cons c rest =>
      rw [Stream.Reader.read, if_neg (by simp)] at hread
      by_cases hd : (P.reader.feed s.dec (c :: rest)).2.1 = true
      · rw [if_pos hd] at hread
        obtain ⟨r, -, hr⟩ := Option.map_eq_some_iff.mp hread
        cases (Prod.mk.inj hr).2
      · rw [if_neg hd] at hread
        have hturn : rxFeed P s (c :: rest) none = { s with
            pc := .feed ((c :: rest).drop (P.reader.feed s.dec (c :: rest)).1)
            dec := (P.reader.feed s.dec (c :: rest)).2.2 } := by
          simp only [rxFeed, if_neg hd]
        obtain ⟨as, has⟩ := ih (s := rxFeed P s (c :: rest) none) (by rw [hturn])
          (by rw [hturn]; exact hread)
        refine ⟨.feed none :: as, ?_⟩
        rw [hturn] at has
        simp only [exec, rxStep, hpc, Option.bind_some, hturn]
        exact has

/-- The last octets on the line are read behind the back of an expiry and complete no packet: with no
further step of the line or the watchdog, the thread sleeps and the expiry is lost. -/
theorem expiry_lost {P : RxPort σ} {s : Rx σ} {t : σ} (hpc : s.pc = .read true) (howed : s.Owed)
    (hpipe : s.pipe = 0) (hline : s.line.length ≤ rxBufSz) (hup : s.terminate = false)
    (hread : P.reader.Reads s.dec s.line t []) :
    ∃ as s', exec (rxStep P) s as = some s' ∧ s'.Asleep ∧ s'.Owed := by
  let s₁ : Rx σ := { s with line := [], pc := .feed s.line }
  have hstep : rxStep P s (.read (.ok s.line.length)) = some s₁ := by
    have hle : s.line.length ≤ min rxBufSz s.line.length := le_min hline le_rfl
    simp only [rxStep, hpc, if_pos hle, List.drop_length, List.take_length]
    rfl
  obtain ⟨as, has⟩ := feed_through (P := P) (s := s₁) rfl hread
  refine ⟨.read (.ok s.line.length) :: (as ++ [.enter]), { s₁ with pc := .poll, dec := t }, ?_,
    ⟨rfl, hpipe, rfl⟩, howed⟩
  rw [exec, hstep, Option.bind_some, exec_append, has, Option.bind_some]
  simp only [exec, rxStep, Option.bind_some, s₁, hup]
  rfl

/-- A port with the escaping and a checksum of one octet. -/
def hdlcPort : RxPort (Hdlc.Dec 8) where
  reader := Hdlc.reader (.ofWindow 1 one_lt_idBits) (some lrc) 68
  decInit := Hdlc.decInit
  pipeCap := 65536
  pipeCap_pos := by decide

/-- The watchdog expires, and the thread finds the line readable in the same pass. -/
def expiryThenRead (src : List UInt8) (r : Except Errno Nat) : List RxAct :=
  [.expire, .arrive src, .enter, .poll (.ready true), .drain, .drain, .read r]

theorem Rx.asleep_of {s : Rx σ} (h : (decide (s.pc = .poll) && s.pipe == 0 && s.line.isEmpty) = true) :
    s.Asleep := by
  simp only [Bool.and_eq_true, decide_eq_true_eq, beq_iff_eq, List.isEmpty_iff] at h
  exact ⟨h.1.1, h.1.2, h.2⟩

/-- One octet of noise, or a read that finds nothing, and the expiry is gone. -/
theorem expiry_lost_noise :
    ¬ ∀ s : Rx (Hdlc.Dec 8), Reachable (Rx.init hdlcPort Hdlc.unusedDec) (rxStep hdlcPort)
      (fun _ _ => True) s → s.Asleep → s.log.getLast? ≠ some .expired := by
  obtain ⟨s, hs, hbad⟩ := Reachable.of_exec (Rx.init hdlcPort Hdlc.unusedDec) (rxStep hdlcPort)
    (fun _ _ => true) (expiryThenRead [0] (.ok 1) ++ [.feed (some 0), .feed (some 0), .enter])
    (fun s => (decide (s.pc = .poll) && s.pipe == 0 && s.line.isEmpty) &&
      decide (s.log.getLast? = some .expired)) (by decide +kernel) (by decide +kernel)
  rw [Bool.and_eq_true, decide_eq_true_eq] at hbad
  exact fun h => h s (hs.mono fun _ _ _ => trivial) (Rx.asleep_of hbad.1) hbad.2

/-- Steps in which the port reads no octet and keeps its clock. -/
def readsNothing (_ : Rx σ) : RxAct → Bool
  | .read (.ok _) => false
  | .read (.error e) => e ≠ .EAGAIN
  | .feed none => false
  | _ => true

/-- The expiry alone wakes the thread, which takes the link down. -/
theorem expiry_heeded_alone :
    ∃ s : Rx (Hdlc.Dec 8), s.Asleep ∧ s.log = [.expired, .disconnect] ∧
      s.log.getLast? ≠ some .expired := by
  obtain ⟨s, hs, hend⟩ := Reachable.of_exec (Rx.init hdlcPort Hdlc.unusedDec) (rxStep hdlcPort)
    readsNothing [.enter, .expire, .poll (.ready false), .drain, .drain, .read (.error .EPIPE), .enter]
    (fun s => (decide (s.pc = .poll) && s.pipe == 0 && s.line.isEmpty) &&
      decide (s.log = [.expired, .disconnect])) (by decide +kernel) (by decide +kernel)
  rw [Bool.and_eq_true, decide_eq_true_eq] at hend
  have hasleep := Rx.asleep_of hend.1
  refine ⟨s, hasleep, hend.2, expiry_heeded (hs.mono fun s a ha => ?_) hasleep⟩
  cases a with
  | read r =>
    cases r with
    | ok n => cases ha
    | error e => exact fun _ _ _ _ => of_decide_eq_true ha
  | feed clock =>
    cases clock with
    | none => cases ha
    | some ts => trivial
  | _ => trivial

end Ludlc.Posix
