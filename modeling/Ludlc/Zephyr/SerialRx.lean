import Ludlc.Framing.HdlcDecoder
import Ludlc.Lib.Runs

/-! # The receive buffers of the Zephyr serial port

`ludlc_serial_rx_feed`, `ludlc_serial_irq_cb` and `ludlc_serial_rx` of `ludlc_zephyr_serial.c`. The
interrupt decodes into a buffer of the slab and queues each frame; the thread reads the frames and
hands the buffers back, one step at a time, and the interrupt may come between any two.
-/

namespace Ludlc.Zephyr

open Runs

/-- A decoder, and whether the port runs the asynchronous API. -/
structure SerialPort (σ : Type) where
  reader : Stream.Reader σ (List UInt8) UInt8
  async : Bool

/-- Where the receiving thread is, with the `rx_buf` it holds. -/
inductive RxAt (n : Nat)
  | get
  | got (rxBuf : Fin n)
  | received (rxBuf : Fin n)
  | prep (rxBuf : Fin n)
  | set (rxBuf : Fin n)
  | enable
  | free (rxBuf : Fin n)
  | wait
  | out
  deriving DecidableEq

/-- The buffer is in the hands of the thread. -/
def RxAt.hands {n : Nat} : RxAt n → List (Fin n)
  | .got b | .received b | .prep b | .set b | .free b => [b]
  | _ => []

/-- The frame in the buffer was not passed on yet. -/
def RxAt.unread {n : Nat} : RxAt n → List (Fin n)
  | .got b => [b]
  | _ => []

/-- The part of the connection that receives. `decBuf` is the buffer the decoder was last prepared
with and writes to, whoever has it. `completed` and `received` are histories. -/
structure SerialRx (σ : Type) (n : Nat) where
  slab : List (Fin n)
  currRxBuf : Option (Fin n)
  fifo : List (Fin n)
  payload : Fin n → List UInt8
  size : Fin n → Nat
  dec : σ
  decBuf : Fin n
  pc : RxAt n
  /-- `RX_READY_EVT`. -/
  ready : Bool
  irqOn : Bool
  terminate : Bool
  overrun : Nat
  completed : List (List UInt8)
  received : List (List UInt8 × Nat)

variable {σ : Type} {n : Nat}

/-- What `ludlc_receive` is given of a buffer. -/
def SerialRx.frame (s : SerialRx σ n) (b : Fin n) : List UInt8 := (s.payload b).take (s.size b)

/-- The open port: the decoder has the first buffer, the slab the others. -/
def SerialRx.init (P : SerialPort σ) (n : Nat) (d : σ) : SerialRx σ (n + 1) where
  slab := (List.finRange n).map Fin.succ
  currRxBuf := some 0
  fifo := []
  payload _ := []
  size _ := 0
  dec := P.reader.prep d
  decBuf := 0
  pc := .get
  ready := false
  irqOn := !P.async
  terminate := false
  overrun := 0
  completed := []
  received := []

/-! ## The interrupt -/

/-- `ludlc_dec_feed` on the octets: what it stores goes to the buffer it was prepared with. -/
def decFeed (P : SerialPort σ) (s : SerialRx σ n) (src : List UInt8) : SerialRx σ n :=
  { s with
    dec := (P.reader.feed s.dec src).2.2
    payload := Function.update s.payload s.decBuf (P.reader.item (P.reader.feed s.dec src).2.2) }

/-- A complete frame is queued, and the decoder goes on in the next buffer, if there is one. -/
def rxQueue (P : SerialPort σ) (s : SerialRx σ n) (rxBuf : Fin n) : SerialRx σ n :=
  let s := { s with
    size := Function.update s.size rxBuf (P.reader.item s.dec).length
    fifo := s.fifo ++ [rxBuf], ready := true
    completed := s.completed ++ [P.reader.item s.dec] }
  match s.slab with
  | [] => { s with currRxBuf := none, overrun := s.overrun + 1 }
  | nextBuf :: slab =>
    { s with slab := slab, currRxBuf := some nextBuf, dec := P.reader.prep s.dec, decBuf := nextBuf }

/-- The loop of `ludlc_serial_rx_feed`, in the buffer `rxBuf`. -/
def rxFeedLoop (P : SerialPort σ) : Nat → SerialRx σ n → Fin n → List UInt8 →
    Option (SerialRx σ n × Bool)
  | 0, _, _, _ => none
  | fuel + 1, s, rxBuf, src =>
    if src.isEmpty then some (s, true)
    else if (P.reader.feed s.dec src).2.1 then
      let s' := rxQueue P (decFeed P s src) rxBuf
      match s'.currRxBuf with
      | none => some (s', false)
      | some nextBuf => rxFeedLoop P fuel s' nextBuf (src.drop (P.reader.feed s.dec src).1)
    else rxFeedLoop P fuel (decFeed P s src) rxBuf (src.drop (P.reader.feed s.dec src).1)

/-- `ludlc_serial_rx_feed`. -/
def rxFeed (P : SerialPort σ) (fuel : Nat) (s : SerialRx σ n) (src : List UInt8) :
    Option (SerialRx σ n × Bool) :=
  match s.currRxBuf with
  | none => some (s, false)
  | some rxBuf => rxFeedLoop P fuel s rxBuf src

/-- The loop of `ludlc_serial_irq_cb` over what `uart_fifo_read` returns. -/
def irqRead (P : SerialPort σ) (fuel : Nat) : SerialRx σ n → List (List UInt8) →
    Option (SerialRx σ n)
  | s, [] => some s
  | s, buf :: bufs =>
    (rxFeed P fuel s buf).bind fun r =>
      if r.2 then irqRead P fuel r.1 bufs else some { r.1 with irqOn := false }

/-- The receiving half of `ludlc_serial_irq_cb`. -/
def irqCb (P : SerialPort σ) (fuel : Nat) (s : SerialRx σ n) (rxReady : Bool)
    (bufs : List (List UInt8)) : Option (SerialRx σ n) :=
  if !rxReady || s.currRxBuf.isNone then some s else irqRead P fuel s bufs

/-! ## The thread -/

/-- One step of `ludlc_serial_rx`, or of `ludlc_serial_rx_thread` around it. `clock` is what
`get_timestamp` gives. -/
def rxThread (P : SerialPort σ) (s : SerialRx σ n) (clock : Option Nat) : Option (SerialRx σ n) :=
  match s.pc with
  | .get =>
    if s.terminate then some { s with pc := .out }
    else match s.fifo with
      | [] => some { s with pc := .wait }
      | rxBuf :: fifo => some { s with pc := .got rxBuf, fifo := fifo }
  | .got rxBuf =>
    some { s with
      pc := .received rxBuf
      received := match clock with
        | some ts => s.received ++ [(s.frame rxBuf, ts)]
        | none => s.received }
  | .received rxBuf =>
    some { s with pc := if s.currRxBuf.isNone then .prep rxBuf else .free rxBuf }
  | .prep rxBuf =>
    some { s with pc := .set rxBuf, dec := P.reader.prep s.dec, decBuf := rxBuf }
  | .set rxBuf =>
    some { s with pc := if P.async then .get else .enable, currRxBuf := some rxBuf }
  | .enable => some { s with pc := .get, irqOn := true }
  | .free rxBuf => some { s with pc := .get, slab := rxBuf :: s.slab }
  | .wait => if s.ready then some { s with pc := .get, ready := false } else none
  | .out => none

/-- The octets `ludlc_serial_irq_cb` reads at a time. -/
def irqBufSz : Nat := 8

inductive SerialAct
  | irq (fuel : Nat) (rxReady : Bool) (bufs : List (List UInt8))
  | rxRdy (fuel : Nat) (buf : List UInt8)
  | thread (clock : Option Nat)
  | timeout
  | terminate

def serialStep (P : SerialPort σ) (s : SerialRx σ n) : SerialAct → Option (SerialRx σ n)
  | .irq fuel rxReady bufs =>
    if P.async = false ∧ ∀ buf ∈ bufs, buf ≠ [] ∧ buf.length ≤ irqBufSz then
      irqCb P fuel s rxReady bufs
    else none
  | .rxRdy fuel buf =>
    -- `UART_RX_RDY` of `ludlc_serial_async_cb`: what `ludlc_serial_rx_feed` returns is ignored.
    if P.async then (rxFeed P fuel s buf).map Prod.fst else none
  | .thread clock => rxThread P s clock
  | .timeout =>
    -- `LUDLC_CONN_RX_TOUT_EVT` wakes the thread, and takes `RX_READY_EVT` along.
    if s.pc = .wait then some { s with pc := .get, ready := false } else none
  | .terminate => some { s with terminate := true }

/-- The clock gives a timestamp, and the link is not terminated. -/
def serialUp (_ : SerialRx σ n) : SerialAct → Prop
  | .thread none => False
  | .terminate => False
  | _ => True

/-! ## Where the buffers are -/

/-- The slab, the decoder, the queue and the hands of the thread. -/
def SerialRx.places (s : SerialRx σ n) : List (Fin n) :=
  s.slab ++ s.currRxBuf.toList ++ s.fifo ++ s.pc.hands

/-- The frames on their way to `ludlc_receive`. -/
def SerialRx.pending (s : SerialRx σ n) : List (List UInt8) :=
  (s.pc.unread ++ s.fifo).map s.frame

structure SerialInv (P : SerialPort σ) (s : SerialRx σ n) : Prop where
  once : ∀ b, s.places.count b = 1
  frames : s.received.map Prod.fst ++ s.pending = s.completed
  armed : ∀ b, s.currRxBuf = some b ∨ s.pc = .set b → s.decBuf = b
  /-- The thread gives a buffer to the decoder only where the decoder has none. -/
  handBack : ∀ b, s.pc = .prep b ∨ s.pc = .set b → s.currRxBuf = none
  irq : P.async = false → s.currRxBuf.isSome → s.irqOn = true ∨ s.pc = .enable
  asleep : s.pc = .wait → s.fifo ≠ [] → s.ready = true
  up : s.terminate = false
  running : s.pc ≠ .out

theorem RxAt.unread_subset {pc : RxAt n} {b : Fin n} (h : b ∈ pc.unread) : b ∈ pc.hands := by
  cases pc <;> first | exact h | cases h

/-- The decoder's buffer is nowhere else. -/
theorem SerialInv.alone {P : SerialPort σ} {s : SerialRx σ n} (h : SerialInv P s) {b : Fin n}
    (hb : s.currRxBuf = some b) : b ∉ s.pc.unread ++ s.fifo := by
  have honce := h.once b
  simp only [SerialRx.places, hb, Option.toList_some, List.count_append, List.count_cons_self,
    List.count_nil] at honce
  intro hmem
  rcases List.mem_append.mp hmem with hmem | hmem
  · have := List.count_pos_iff.mpr (RxAt.unread_subset hmem)
    omega
  · have := List.count_pos_iff.mpr hmem
    omega

theorem serialInv_init (P : SerialPort σ) (n : Nat) (d : σ) :
    SerialInv P (SerialRx.init P n d) where
  once b := by
    have hplaces : (SerialRx.init P n d).places.Perm (List.finRange (n + 1)) := by
      rw [List.finRange_succ]
      simp only [SerialRx.places, SerialRx.init, Option.toList_some, RxAt.hands, List.append_nil]
      exact List.perm_append_singleton _ _
    rw [hplaces.count_eq]
    exact List.count_eq_one_of_mem (List.nodup_finRange _) (List.mem_finRange b)
  frames := rfl
  armed b hb := hb.elim Option.some_inj.mp fun hset => by cases hset
  handBack b hb := by rcases hb with hb | hb <;> cases hb
  irq hasync _ := .inl (by rw [SerialRx.init, hasync]; rfl)
  asleep hpc := by cases hpc
  up := rfl
  running := by
    intro hpc
    cases hpc

/-! ## What the interrupt does -/

theorem SerialInv.decFeed {P : SerialPort σ} {s : SerialRx σ n} (h : SerialInv P s) {b : Fin n}
    (hb : s.currRxBuf = some b) (src : List UInt8) : SerialInv P (decFeed P s src) where
  once := h.once
  frames := by
    refine Eq.trans ?_ h.frames
    refine congrArg (s.received.map Prod.fst ++ ·) (List.map_congr_left ?_)
    intro c hc
    have hne : c ≠ s.decBuf := by
      rintro rfl
      exact h.alone hb (h.armed b (.inl hb) ▸ hc)
    simp only [SerialRx.frame, Zephyr.decFeed, Function.update_of_ne hne]
  armed := h.armed
  handBack := h.handBack
  irq := h.irq
  asleep := h.asleep
  up := h.up
  running := h.running


/-- The queue takes the buffer over, with the frame the decoder stored in it. -/
theorem SerialInv.rxQueue {P : SerialPort σ} {s : SerialRx σ n} (h : SerialInv P s) {b : Fin n}
    (hb : s.currRxBuf = some b) (hstored : s.payload b = P.reader.item s.dec) :
    SerialInv P (rxQueue P s b) := by
  have hframes : s.received.map Prod.fst ++
      (s.pc.unread ++ (s.fifo ++ [b])).map
        (fun c => (s.payload c).take
          (Function.update s.size b (P.reader.item s.dec).length c)) =
      s.completed ++ [P.reader.item s.dec] := by
    rw [← List.append_assoc, List.map_append, ← List.append_assoc, ← h.frames]
    congr 1
    · refine congrArg (s.received.map Prod.fst ++ ·) (List.map_congr_left ?_)
      intro c hc
      have hne : c ≠ b := by
        rintro rfl
        exact h.alone hb hc
      rw [SerialRx.frame, Function.update_of_ne hne]
    · rw [List.map_singleton, Function.update_self, hstored, List.take_length]
  have honce := h.once
  have hhand : ∀ c, ¬ (s.pc = .prep c ∨ s.pc = .set c) := by
    intro c hc
    have hnone := h.handBack c hc
    rw [hb] at hnone
    cases hnone
  simp only [SerialRx.places, hb, Option.toList_some] at honce
  unfold Zephyr.rxQueue
  cases hslab : s.slab with
  | nil =>
    refine ⟨fun c => ?_, hframes, ?_, ?_, ?_, fun _ _ => rfl, h.up, h.running⟩
    · have := honce c
      rw [hslab] at this
      simp only [SerialRx.places, Option.toList_none, List.count_append, List.count_nil] at this ⊢
      omega
    · intro c hc
      rcases hc with hc | hc
      · cases hc
      · exact absurd (.inr hc) (hhand c)
    · exact fun c hc => absurd hc (hhand c)
    · intro _ hc
      cases hc
  | cons nextBuf slab =>
    refine ⟨fun c => ?_, hframes, ?_, ?_, ?_, fun _ _ => rfl, h.up, h.running⟩
    · have := honce c
      rw [hslab, ← List.singleton_append] at this
      simp only [SerialRx.places, Option.toList_some, List.count_append] at this ⊢
      omega
    · exact fun c hc => hc.elim Option.some_inj.mp fun hset => absurd (.inr hset) (hhand c)
    · exact fun c hc => absurd hc (hhand c)
    · exact fun hasync _ => h.irq hasync (by rw [hb]; rfl)

/-- The feeding keeps the buffers, and ends early only where none is left. -/
theorem SerialInv.rxFeedLoop {P : SerialPort σ} {fuel : Nat} {s s' : SerialRx σ n} {b : Fin n}
    {src : List UInt8} {taken : Bool} (h : SerialInv P s) (hb : s.currRxBuf = some b)
    (hs : rxFeedLoop P fuel s b src = some (s', taken)) :
    SerialInv P s' ∧ (taken = false → s'.currRxBuf = none) := by
  induction fuel generalizing s b src with
  | zero => cases hs
  | succ fuel ih =>
    have hfeed := h.decFeed hb src
    have hbuf : (Zephyr.decFeed P s src).currRxBuf = some b := hb
    rw [Zephyr.rxFeedLoop] at hs
    split at hs
    · cases hs
      exact ⟨h, fun hf => by cases hf⟩
    · split at hs
      · have hstored : (Zephyr.decFeed P s src).payload b =
            P.reader.item (Zephyr.decFeed P s src).dec := by
          rw [← h.armed b (.inl hb)]
          exact Function.update_self ..
        have hqueue := hfeed.rxQueue hbuf hstored
        simp only at hs
        split at hs
        next hnone =>
          cases hs
          exact ⟨hqueue, fun _ => hnone⟩
        next nextBuf hnext => exact ih hqueue hnext hs
      · exact ih hfeed hbuf hs

theorem SerialInv.rxFeed {P : SerialPort σ} {fuel : Nat} {s s' : SerialRx σ n}
    {src : List UInt8} {taken : Bool} (h : SerialInv P s)
    (hs : rxFeed P fuel s src = some (s', taken)) :
    SerialInv P s' ∧ (taken = false → s'.currRxBuf = none) := by
  rw [Zephyr.rxFeed] at hs
  split at hs
  next hnone =>
    cases hs
    exact ⟨h, fun _ => hnone⟩
  next b hb => exact h.rxFeedLoop hb hs

/-- The interrupt is switched off only where the decoder has no buffer. -/
theorem SerialInv.irqRead {P : SerialPort σ} {fuel : Nat} {s s' : SerialRx σ n}
    {bufs : List (List UInt8)} (h : SerialInv P s) (hs : irqRead P fuel s bufs = some s') :
    SerialInv P s' := by
  induction bufs generalizing s with
  | nil =>
    cases hs
    exact h
  | cons buf bufs ih =>
    obtain ⟨⟨t, taken⟩, ht, hs⟩ := Option.bind_eq_some_iff.mp hs
    obtain ⟨hinv, hnone⟩ := h.rxFeed ht
    cases taken with
    | true => exact ih hinv hs
    | false =>
      cases hs
      refine { hinv with irq := fun _ hsome => ?_ }
      rw [hnone rfl] at hsome
      cases hsome

/-- A decoder that reads the octets to their end does so here, however many buffers there are. -/
theorem rxFeedLoop_ends {P : SerialPort σ} {fuel : Nat} {s : SerialRx σ n} {b : Fin n}
    {src : List UInt8} {r : σ × List (List UInt8)} (hread : P.reader.read fuel s.dec src = some r) :
    ∃ r', rxFeedLoop P fuel s b src = some r' := by
  induction fuel generalizing s b src r with
  | zero => cases hread
  | succ fuel ih =>
    rw [Stream.Reader.read] at hread
    rw [Zephyr.rxFeedLoop]
    split at hread
    next he => exact ⟨_, if_pos he⟩
    next he =>
      rw [if_neg he]
      split at hread
      next hd =>
        obtain ⟨t, ht, -⟩ := Option.map_eq_some_iff.mp hread
        rw [if_pos hd]
        simp only
        split
        next => exact ⟨_, rfl⟩
        next nextBuf hnext =>
          refine ih (r := t) ?_
          cases hslab : s.slab with
          | nil =>
            simp only [Zephyr.rxQueue, Zephyr.decFeed, hslab] at hnext
            cases hnext
          | cons c slab =>
            simp only [Zephyr.rxQueue, Zephyr.decFeed, hslab]
            exact ht
      next hd =>
        rw [if_neg hd]
        exact ih (r := r) hread

/-! ## What the thread does -/

/-- The thread neither hands a buffer to the decoder here, nor sleeps. -/
def RxAt.calm : RxAt n → Bool
  | .prep _ | .set _ | .wait | .out => false
  | _ => true

/-- A step that leaves the decoder alone, and the interrupt on if it was. -/
theorem SerialInv.calm {P : SerialPort σ} {s s' : SerialRx σ n} (h : SerialInv P s)
    (hpc : s'.pc.calm = true) (honce : ∀ b, s'.places.count b = 1)
    (hframes : s'.received.map Prod.fst ++ s'.pending = s'.completed)
    (hcurr : s'.currRxBuf = s.currRxBuf) (hbuf : s'.decBuf = s.decBuf)
    (hirq : s'.irqOn = true ∨ s'.irqOn = s.irqOn ∧ s.pc ≠ .enable)
    (hup : s'.terminate = s.terminate) : SerialInv P s' where
  once := honce
  frames := hframes
  armed b hb := by
    rw [hbuf]
    refine h.armed b (.inl ?_)
    rw [← hcurr]
    refine hb.resolve_right fun hset => ?_
    rw [hset] at hpc
    cases hpc
  handBack b hb := by
    rcases hb with hb | hb <;> rw [hb] at hpc <;> cases hpc
  irq hasync hsome := by
    rw [hcurr] at hsome
    rcases hirq with hon | ⟨hsame, hne⟩
    · exact .inl hon
    · rw [hsame]
      exact .inl ((h.irq hasync hsome).resolve_right hne)
  asleep hwait := by
    rw [hwait] at hpc
    cases hpc
  up := hup.trans h.up
  running hout := by
    rw [hout] at hpc
    cases hpc

/-- A step in which no buffer changes hands. -/
theorem SerialInv.move {P : SerialPort σ} {s : SerialRx σ n} (h : SerialInv P s) {pc : RxAt n}
    (hhands : pc.hands = s.pc.hands) (hunread : pc.unread = s.pc.unread)
    (hprep : ∀ b, pc = .prep b → s.currRxBuf = none) (hset : ∀ b, pc ≠ .set b)
    (hirq : s.pc ≠ .enable) (hasleep : pc = .wait → s.fifo = []) (hrunning : pc ≠ .out) :
    SerialInv P { s with pc := pc } where
  once b := by
    rw [← h.once b]
    simp only [SerialRx.places, hhands]
  frames := by
    rw [← h.frames]
    simp only [SerialRx.pending, hunread]
    rfl
  armed b hb := h.armed b (hb.imp_right fun hpc => absurd hpc (hset b))
  handBack b hb := hb.elim (hprep b) fun hpc => absurd hpc (hset b)
  irq hasync hsome := .inl ((h.irq hasync hsome).resolve_right hirq)
  asleep hpc hne := absurd (hasleep hpc) hne
  up := h.up
  running := hrunning

/-- An event wakes the thread. -/
theorem SerialInv.wake {P : SerialPort σ} {s : SerialRx σ n} (h : SerialInv P s)
    (hpc : s.pc = .wait) : SerialInv P { s with pc := .get, ready := false } := by
  have honce := h.once
  have hframes := h.frames
  simp only [SerialRx.places, hpc] at honce
  simp only [SerialRx.pending, hpc] at hframes
  exact h.calm rfl honce hframes rfl rfl (.inr ⟨rfl, by simp [hpc]⟩) rfl

/-- The decoder has a buffer again, and the thread has let go of it. -/
theorem SerialInv.handOver {P : SerialPort σ} {s : SerialRx σ n} {b : Fin n} (h : SerialInv P s)
    (hpc : s.pc = .set b) :
    SerialInv P { s with pc := if P.async then .get else .enable, currRxBuf := some b } := by
  have honce := h.once
  have hframes := h.frames
  have hnone := h.handBack b (.inr hpc)
  simp only [SerialRx.places, hpc, hnone] at honce
  simp only [SerialRx.pending, hpc] at hframes
  have hhands : (if P.async then RxAt.get else .enable : RxAt n).hands = [] := by
    split <;> rfl
  have hunread : (if P.async then RxAt.get else .enable : RxAt n).unread = [] := by
    split <;> rfl
  refine ⟨fun c => ?_, ?_, fun c hc => ?_, fun c hc => ?_, fun ha _ => .inr (by simp [ha]), ?_, h.up,
    ?_⟩
  · have := honce c
    rw [RxAt.hands] at this
    simp only [SerialRx.places, hhands, Option.toList_some, Option.toList_none, List.count_append,
      List.count_nil] at this ⊢
    omega
  · rw [← hframes]
    simp only [SerialRx.pending, hunread]
    rfl
  · rcases hc with hc | hc
    · rw [← Option.some_inj.mp hc]
      exact h.armed b (.inr hpc)
    · split at hc <;> cases hc
  · split at hc <;> rcases hc with hc | hc <;> cases hc
  · split <;> simp
  · split <;> simp

theorem SerialInv.rxThread {P : SerialPort σ} {s s' : SerialRx σ n} {ts : Nat}
    (h : SerialInv P s) (hs : rxThread P s (some ts) = some s') : SerialInv P s' := by
  have honce := h.once
  have hframes := h.frames
  simp only [SerialRx.places] at honce
  simp only [SerialRx.pending] at hframes
  unfold Zephyr.rxThread at hs
  cases hpc : s.pc with
  | get =>
    simp only [hpc] at hs
    rw [if_neg (by simp [h.up])] at hs
    split at hs
    next hfifo =>
      cases hs
      apply h.move
      · rw [hpc]
        rfl
      · rw [hpc]
        rfl
      · simp
      · simp
      · simp [hpc]
      · exact fun _ => hfifo
      · simp
    next rxBuf fifo hfifo =>
      cases hs
      rw [hpc, hfifo] at honce hframes
      refine h.calm rfl (fun c => ?_) hframes rfl rfl (.inr ⟨rfl, by simp [hpc]⟩) rfl
      have := honce c
      rw [← List.singleton_append] at this
      simp only [SerialRx.places, RxAt.hands, List.count_append, List.count_nil] at this ⊢
      omega
  | got rxBuf =>
    simp only [hpc] at hs
    cases hs
    rw [hpc] at honce hframes
    refine h.calm rfl honce ?_ rfl rfl (.inr ⟨rfl, by simp [hpc]⟩) rfl
    rw [← hframes]
    simp [SerialRx.pending, RxAt.unread, SerialRx.frame]
  | received rxBuf =>
    simp only [hpc] at hs
    cases hs
    apply h.move
    · rw [hpc]
      split <;> rfl
    · rw [hpc]
      split <;> rfl
    · intro b hb
      by_cases hnone : s.currRxBuf.isNone = true
      · exact Option.isNone_iff_eq_none.mp hnone
      · simp [hnone] at hb
    · split <;> simp
    · simp [hpc]
    · split <;> simp
    · split <;> simp
  | prep rxBuf =>
    simp only [hpc] at hs
    cases hs
    have hnone := h.handBack rxBuf (.inl hpc)
    rw [hpc] at honce hframes
    refine ⟨honce, hframes, ?_, fun b _ => hnone, fun _ hc => ?_, ?_, h.up, ?_⟩
    · intro b hb
      rw [hnone] at hb
      simpa using hb
    · rw [hnone] at hc
      cases hc
    · simp
    · simp
  | set rxBuf =>
    simp only [hpc] at hs
    cases hs
    exact h.handOver hpc
  | enable =>
    simp only [hpc] at hs
    cases hs
    rw [hpc] at honce hframes
    exact h.calm rfl honce hframes rfl rfl (.inl rfl) rfl
  | free rxBuf =>
    simp only [hpc] at hs
    cases hs
    rw [hpc] at honce hframes
    refine h.calm rfl (fun c => ?_) hframes rfl rfl (.inr ⟨rfl, by simp [hpc]⟩) rfl
    have := honce c
    simp only [SerialRx.places, RxAt.hands, List.count_append, List.count_cons,
      List.count_nil] at this ⊢
    omega
  | wait =>
    simp only [hpc] at hs
    split at hs
    next =>
      cases hs
      exact h.wake hpc
    next => cases hs
  | out => exact absurd hpc h.running

theorem SerialInv.step {P : SerialPort σ} {s s' : SerialRx σ n} {a : SerialAct}
    (h : SerialInv P s) (hup : serialUp s a) (hs : serialStep P s a = some s') :
    SerialInv P s' := by
  cases a with
  | irq fuel rxReady bufs =>
    simp only [serialStep] at hs
    split at hs
    · rw [irqCb] at hs
      split at hs
      · cases hs
        exact h
      · exact h.irqRead hs
    · cases hs
  | rxRdy fuel buf =>
    simp only [serialStep] at hs
    split at hs
    · obtain ⟨r, hr, rfl⟩ := Option.map_eq_some_iff.mp hs
      exact (h.rxFeed hr).1
    · cases hs
  | thread clock =>
    cases clock with
    | none => cases hup
    | some ts => exact h.rxThread hs
  | timeout =>
    simp only [serialStep] at hs
    split at hs
    next hpc =>
      cases hs
      exact h.wake hpc
    next => cases hs
  | terminate => cases hup

theorem serialInv_of_reachable {P : SerialPort σ} {d : σ} {s : SerialRx σ (n + 1)}
    (h : Reachable (SerialRx.init P n d) (serialStep P) serialUp s) : SerialInv P s :=
  h.invariant (serialInv_init P n d) fun hi hok hs => hi.step hok hs

/-! ## The frames get through -/

/-- The steps from there to the head of the loop, or to sleep. -/
def RxAt.stepsLeft : RxAt n → Nat
  | .wait | .out => 0
  | .get => 1
  | .enable | .free _ => 2
  | .set _ => 3
  | .prep _ => 4
  | .received _ => 5
  | .got _ => 6

def SerialRx.stepsLeft (s : SerialRx σ n) : Nat :=
  7 * s.fifo.length + (if s.ready then 2 else 0) + s.pc.stepsLeft

/-- The thread sleeps with nothing to wake it. -/
def SerialRx.Asleep (s : SerialRx σ n) : Prop := s.pc = .wait ∧ s.ready = false

/-- The thread is never stuck on the way to sleep. -/
theorem SerialInv.thread_goes_on {P : SerialPort σ} {s : SerialRx σ n} (h : SerialInv P s)
    (hawake : ¬ s.Asleep) (ts : Nat) :
    ∃ s', Zephyr.rxThread P s (some ts) = some s' ∧ s'.stepsLeft < s.stepsLeft ∧
      s'.completed = s.completed := by
  unfold Zephyr.rxThread SerialRx.stepsLeft
  cases hpc : s.pc with
  | get =>
    simp only
    rw [if_neg (by simp [h.up])]
    cases hfifo : s.fifo with
    | nil => exact ⟨_, rfl, by simp [RxAt.stepsLeft], rfl⟩
    | cons b fifo => exact ⟨_, rfl, by simp [RxAt.stepsLeft]; omega, rfl⟩
  | got rxBuf => exact ⟨_, rfl, by simp [RxAt.stepsLeft], rfl⟩
  | received rxBuf =>
    have hnext : (if s.currRxBuf.isNone then RxAt.prep rxBuf else .free rxBuf).stepsLeft ≤ 4 := by
      split <;> simp [RxAt.stepsLeft]
    exact ⟨_, rfl, Nat.add_lt_add_left (Nat.lt_succ_of_le hnext) _, rfl⟩
  | prep rxBuf => exact ⟨_, rfl, by simp [RxAt.stepsLeft], rfl⟩
  | set rxBuf =>
    have hnext : (if P.async then RxAt.get else .enable : RxAt n).stepsLeft ≤ 2 := by
      split <;> simp [RxAt.stepsLeft]
    exact ⟨_, rfl, Nat.add_lt_add_left (Nat.lt_succ_of_le hnext) _, rfl⟩
  | enable => exact ⟨_, rfl, by simp [RxAt.stepsLeft], rfl⟩
  | free rxBuf => exact ⟨_, rfl, by simp [RxAt.stepsLeft], rfl⟩
  | wait =>
    have hready : s.ready = true := by
      cases hr : s.ready with
      | true => rfl
      | false => exact absurd ⟨hpc, hr⟩ hawake
    simp only [hready, if_true]
    exact ⟨_, rfl, by simp [RxAt.stepsLeft], rfl⟩
  | out => exact absurd hpc h.running

/-- The thread alone reads all that is queued, and goes to sleep. -/
theorem SerialInv.drains {P : SerialPort σ} {s : SerialRx σ n} (h : SerialInv P s) (ts : Nat) :
    ∃ k s', exec (serialStep P) s (List.replicate k (.thread (some ts))) = some s' ∧
      s'.Asleep ∧ s'.completed = s.completed ∧ s'.received.map Prod.fst = s.completed := by
  induction hm : s.stepsLeft using Nat.strong_induction_on generalizing s with
  | _ m ih =>
    by_cases hawake : s.Asleep
    · refine ⟨0, s, rfl, hawake, rfl, ?_⟩
      have hfifo : s.fifo = [] := by
        by_contra hne
        have hready := h.asleep hawake.1 hne
        rw [hawake.2] at hready
        cases hready
      have hframes := h.frames
      rw [SerialRx.pending, hawake.1, hfifo] at hframes
      exact (List.append_nil _).symm.trans hframes
    · obtain ⟨t, ht, hlt, hsame⟩ := h.thread_goes_on hawake ts
      obtain ⟨k, s', hexec, hasleep, hcompleted, hreceived⟩ :=
        ih _ (hm ▸ hlt) (h.rxThread ht) rfl
      refine ⟨k + 1, s', ?_, hasleep, hcompleted.trans hsame, hreceived.trans hsame⟩
      rw [List.replicate_succ, exec, serialStep, ht]
      exact hexec

/-- Every buffer is in one place; the frames completed are read once each, in order and unchanged,
and the thread reads those to come; and where the decoder has a buffer, the interrupt is enabled, or
the next step of the thread enables it. -/
theorem rx_buffers_kept {P : SerialPort σ} {d : σ} {s : SerialRx σ (n + 1)}
    (h : Reachable (SerialRx.init P n d) (serialStep P) serialUp s) :
    (∀ b, s.places.count b = 1) ∧
      s.received.map Prod.fst ++ s.pending = s.completed ∧
      (∀ ts, ∃ k s', exec (serialStep P) s (List.replicate k (.thread (some ts))) = some s' ∧
        s'.Asleep ∧ s'.completed = s.completed ∧ s'.received.map Prod.fst = s.completed) ∧
      (P.async = false → s.currRxBuf.isSome → s.irqOn = true ∨
        ∀ clock, ∃ s', rxThread P s clock = some s' ∧ s'.irqOn = true) := by
  have hinv := serialInv_of_reachable h
  refine ⟨hinv.once, hinv.frames, hinv.drains, fun hasync hsome => ?_⟩
  refine (hinv.irq hasync hsome).imp_right fun hpc clock => ⟨{ s with pc := .get, irqOn := true }, ?_, rfl⟩
  simp only [rxThread, hpc]

/-- An interrupt-driven port with the escaping and a checksum of one octet. -/
def hdlcPort : SerialPort (Hdlc.Dec 8) where
  reader := Hdlc.reader (.ofWindow 1 one_lt_idBits) (some lrc) 68
  async := false

/-- Steps of a link that is up. -/
def serialUpB (_ : SerialRx (Hdlc.Dec 8) n) : SerialAct → Bool
  | .thread none => false
  | .terminate => false
  | _ => true

/-- A frame takes the only buffer, and the thread hands it back: the interrupt is still off, until the
next step of the thread. -/
theorem rx_buffers_kept_dry :
    ∃ s : SerialRx (Hdlc.Dec 8) 1, s.received = [([1, 0x80], 7)] ∧ s.currRxBuf = some 0 ∧
      s.irqOn = false ∧ (∀ b, s.places.count b = 1) ∧
      ∃ s', rxThread hdlcPort s none = some s' ∧ s'.irqOn = true := by
  obtain ⟨s, hs, hend⟩ := Reachable.of_exec (SerialRx.init hdlcPort 0 Hdlc.unusedDec)
    (serialStep hdlcPort) serialUpB
    (.irq 8 true [[85, 1, 0x80, 0x81, 85]] :: List.replicate 5 (.thread (some 7)))
    (fun s => decide (s.received = [([1, 0x80], 7)]) && decide (s.currRxBuf = some 0) && !s.irqOn)
    (by decide +kernel) (by decide +kernel)
  rw [Bool.and_eq_true, Bool.and_eq_true, decide_eq_true_eq, decide_eq_true_eq,
    Bool.not_eq_true'] at hend
  obtain ⟨⟨hreceived, hcurr⟩, hoff⟩ := hend
  have hup : Reachable (SerialRx.init hdlcPort 0 Hdlc.unusedDec) (serialStep hdlcPort) serialUp s := by
    refine hs.mono fun s a ha => ?_
    cases a with
    | thread clock =>
      cases clock with
      | none => cases ha
      | some ts => trivial
    | terminate => cases ha
    | _ => trivial
  obtain ⟨honce, -, -, hirq⟩ := rx_buffers_kept hup
  refine ⟨s, hreceived, hcurr, hoff, honce, ?_⟩
  refine (hirq rfl (by rw [hcurr]; rfl)).resolve_left ?_ none
  rw [hoff]
  decide

end Ludlc.Zephyr
