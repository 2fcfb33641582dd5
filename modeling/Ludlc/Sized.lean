import Ludlc.Frames
import Ludlc.Framing.Csum

/-! # What goes into a frame fits it

No packet in the window or in the unnumbered slot is longer than the link carries or than its caller's
buffer. So every frame has the octets that its size says, and a peer that carries as much takes it.
-/

namespace Ludlc

variable {w : Wire} {cfg : Cfg w} {β : Type}

/-- The octets of the packet are there to be copied, and no more than the link carries. -/
structure Loaded (cfg : Cfg w) (mem : β → List UInt8) (it : PacketQueueItem w β) : Prop where
  lim : it.size ≤ cfg.payloadLim
  backed : it.size ≤ (it.payload.read mem).length

structure Conn.Sized (mem : β → List UInt8) (c : Conn cfg β) : Prop where
  slots : ∀ i, Loaded cfg mem (c.packetsQ i)
  unnumbered : Loaded cfg mem c.uPacket

/-- A caller's buffer holds the octets it is handed over with. -/
def Call.backed (mem : β → List UInt8) : Call w β → Prop
  | .enqueueData _ (some b) size _ => size ≤ (mem b).length
  | .sendUrgentData _ (some b) size => size ≤ (mem b).length
  | _ => True

variable {mem : β → List UInt8} {c d : Conn cfg β}

instance (a : Call w β) : Decidable (a.backed mem) :=
  match a with
  | .enqueueData _ (some b) size _ => inferInstanceAs (Decidable (size ≤ (mem b).length))
  | .sendUrgentData _ (some b) size => inferInstanceAs (Decidable (size ≤ (mem b).length))
  | .enqueueData _ none _ _ | .sendUrgentData _ none _ | .sendDisconnect | .connect
  | .handleDisconnect | .getPacketToSend _ | .receive _ _ _ => inferInstanceAs (Decidable True)

theorem loaded_zero : Loaded cfg mem (.zero : PacketQueueItem w β) :=
  ⟨Nat.zero_le _, Nat.zero_le _⟩

theorem sized_init : (Conn.init cfg β).Sized mem := ⟨fun _ => loaded_zero, loaded_zero⟩

theorem Conn.Sized.same (h : c.Sized mem) (hslots : d.packetsQ = c.packetsQ) (hu : d.uPacket = c.uPacket) :
    d.Sized mem where
  slots := by
    rw [hslots]
    exact h.slots
  unnumbered := by
    rw [hu]
    exact h.unnumbered

/-- A slot is filled. -/
theorem Conn.Sized.put (h : c.Sized mem) {i : Fin w.window} {it : PacketQueueItem w β}
    (hit : Loaded cfg mem it) (hslots : d.packetsQ = Function.update c.packetsQ i it)
    (hu : d.uPacket = c.uPacket) : d.Sized mem where
  slots j := by
    rw [hslots]
    by_cases hj : j = i
    · subst hj
      rwa [Function.update_self]
    · rw [Function.update_of_ne hj]
      exact h.slots j
  unnumbered := by
    rw [hu]
    exact h.unnumbered

/-- The unnumbered slot is filled, or what is in it resolved. -/
theorem Conn.Sized.hold (h : c.Sized mem) (hslots : d.packetsQ = c.packetsQ)
    (hu : Loaded cfg mem d.uPacket) : d.Sized mem where
  slots := by
    rw [hslots]
    exact h.slots
  unnumbered := hu

/-! ## The end of a session -/

theorem Conn.Sized.failQueued (n : Nat) (id : Id w) (h : c.Sized mem) : (failQueued n id c).Sized mem := by
  induction n generalizing id c with
  | zero => exact h
  | succ n ih =>
    apply ih
    rw [failPacket_eq]
    have hslot := h.slots (slot (id + 1))
    have hit : Loaded cfg mem ((c.packetsQ (slot (id + 1))).resolve .epipe) := ⟨hslot.lim, hslot.backed⟩
    exact h.put hit rfl rfl

theorem Conn.Sized.sweep (h : c.Sized mem) : (sweep c).Sized mem := by
  have hdown : (linkDown c).Sized mem := by
    rw [linkDown_eq]
    refine ⟨h.slots, ?_⟩
    simp only
    split
    · exact ⟨h.unnumbered.lim, h.unnumbered.backed⟩
    · exact h.unnumbered
  exact (hdown.failQueued _ _).same rfl rfl

theorem Conn.Sized.onDisconnectLock (h : c.Sized mem) : (onDisconnectLock c).Sized mem := by
  rw [onDisconnectLock_eq]
  exact h.sweep.same rfl rfl

theorem Conn.Sized.disconnectCore (h : c.Sized mem) : (disconnectCore c).1.Sized mem := by
  rw [Ludlc.disconnectCore]
  split
  · exact h.onDisconnectLock
  · exact h

theorem Conn.Sized.settle {o : Out cfg β} (h : o.conn.Sized mem) : o.settle.Sized mem := by
  unfold Out.settle
  generalize o.conn = c at h
  induction o.todo generalizing c with
  | nil => exact h
  | cons a todo ih =>
    apply ih
    cases a with
    | call cb => exact h.same rfl rfl
    | handleDisconnect =>
      rw [runTodo]
      split
      · exact h.disconnectCore.same rfl rfl
      · exact h.disconnectCore
    | _ => exact h

/-! ## A packet received -/

theorem Conn.Sized.ackPackets (n : Nat) (h : c.Sized mem) : (ackPackets n c).Sized mem := by
  induction n generalizing c with
  | zero => exact h
  | succ n ih =>
    apply ih
    have hslot := h.slots (slot (c.lastAck + 1))
    have hit : Loaded cfg mem { c.packetsQ (slot (c.lastAck + 1)) with result := .ok } :=
      ⟨hslot.lim, hslot.backed⟩
    simp only [ackPacket, confirmQueuedLock_eq]
    split
    · exact h.put hit rfl rfl
    · exact h.put hit rfl rfl

theorem loaded_shiftQueue (n : Nat) {q : Fin w.window → PacketQueueItem w β} (id : Id w)
    (h : ∀ i, Loaded cfg mem (q i)) (i : Fin w.window) : Loaded cfg mem (shiftQueue q id n i) := by
  induction n generalizing q id with
  | zero => exact h i
  | succ n ih =>
    apply ih
    intro j
    by_cases hj : j = slot id
    · subst hj
      rw [Function.update_self]
      exact h _
    · rw [Function.update_of_ne hj]
      exact h j

/-- The first packet pays for its copies, and is given up or not. -/
theorem Conn.Sized.rxHandleNak (h : c.Sized mem) : (rxHandleNak c).1.Sized mem := by
  have hslot := h.slots (slot (c.lastAck + 1))
  have hcharged : Loaded cfg mem (chargeTtl (c.packetsQ (slot (c.lastAck + 1)))) :=
    ⟨hslot.lim, hslot.backed⟩
  simp only [Ludlc.rxHandleNak]
  split
  · split
    · refine ⟨loaded_shiftQueue _ _ fun j => ?_, h.unnumbered⟩
      rw [Function.update_idem]
      by_cases hj : j = slot (c.lastAck + 1)
      · subst hj
        rw [Function.update_self]
        exact ⟨hslot.lim, hslot.backed⟩
      · rw [Function.update_of_ne hj]
        exact h.slots j
    · exact h.put hcharged rfl rfl
  · exact h.same rfl rfl

theorem Conn.Sized.rxHandleAck (h : c.Sized mem) (a : WireId w.idBits) :
    (rxHandleAck c a).1.Sized mem := by
  have hacked : (rxHandleAcked c a).Sized mem := by
    simp only [rxHandleAcked]
    split
    · exact (h.ackPackets _).same rfl rfl
    · exact h.ackPackets _
  simp only [Ludlc.rxHandleAck]
  split
  · exact h
  · split
    · exact hacked.rxHandleNak
    · exact hacked

theorem Conn.Sized.receive (h : c.Sized mem) (p : Packet w) (pktSz tstamp : Nat) :
    (receive c p pktSz tstamp).conn.Sized mem := by
  have hup : (rxUp c p).Sized mem := h.same (rxUp_packetsQ c p) (rxUp_uPacket c p)
  have hstep := rxHandlePacket_step c p pktSz
  simp only [Ludlc.receive]
  generalize rxHandlePacket c p pktSz = r at hstep ⊢
  cases hstep with
  | dropped => exact h
  | handshake => exact hup
  | lastStep => exact h
  | down => exact hup.onDisconnectLock
  | data ret a s _ _ _ ha hs =>
    subst ha hs
    have hack : (Ludlc.rxHandleAck (watchdogRestart (rxUp c p)) p.hdr.ackId).1.Sized mem :=
      Conn.Sized.rxHandleAck (c := watchdogRestart (rxUp c p)) (hup.same rfl rfl) _
    exact hack.same (rxSequence_packetsQ ..) (rxSequence_uPacket ..)

/-! ## The calls -/

theorem Conn.Sized.getPacketToSend (h : c.Sized mem) (mem' : β → List UInt8) :
    (getPacketToSend mem' c).conn.Sized mem := by
  cases hd : txDiscSent c with
  | true =>
    rw [getPacketToSend_disc mem' hd]
    exact h.same rfl rfl
  | false =>
    have hrest := (getPacketToSend_step mem' hd).1.toTxRest
    apply h.hold hrest.packetsQ
    rcases hrest.uPacket with hu | hu
    · rw [hu]
      exact h.unnumbered
    · rw [hu]
      exact ⟨h.unnumbered.lim, h.unnumbered.backed⟩

/-- A pointer that is `NULL` only with no octets, and to a buffer that has them. -/
theorem loaded_ofPtr {it : PacketQueueItem w β} {buf : Option β} (hp : it.payload = .ofPtr buf)
    (hnull : (Buf.ofPtr buf).isNull = true → it.size = 0) (hlim : it.size ≤ cfg.payloadLim)
    (hback : ∀ b, buf = some b → it.size ≤ (mem b).length) : Loaded cfg mem it := by
  refine ⟨hlim, ?_⟩
  cases buf with
  | none =>
    have hzero := hnull rfl
    simp [hzero]
  | some b =>
    rw [hp]
    exact hback b rfl

theorem Conn.Sized.enqueueData (h : c.Sized mem) {buf : Option β} {size : Nat}
    (hback : ∀ b, buf = some b → size ≤ (mem b).length) (tag : Nat) (dstChan : Channel w) (ttl : Nat) :
    (enqueueData c tag dstChan (.ofPtr buf) size ttl).conn.Sized mem := by
  unfold Ludlc.enqueueData
  split
  · exact h
  next hnull =>
    split
    · exact h
    · split
      · exact h
      next hlim =>
        split
        · exact h
        · split
          · refine h.put (loaded_ofPtr rfl ?_ (Nat.le_of_not_lt hlim) hback) rfl rfl
            intro hb
            simpa [hb] using hnull
          · exact h

theorem Conn.Sized.sendUrgentData (h : c.Sized mem) {buf : Option β} {size : Nat}
    (hback : ∀ b, buf = some b → size ≤ (mem b).length) (tag : Nat) (dstChan : Channel w) :
    (sendUrgentData c tag dstChan (.ofPtr buf) size).conn.Sized mem := by
  unfold Ludlc.sendUrgentData
  split
  · exact h
  next hbad =>
    split
    · exact h
    · split
      · exact h
      · split
        · exact h
        · simp only [Bool.or_eq_true, decide_eq_true_eq, not_or] at hbad
          refine ⟨h.slots, loaded_ofPtr rfl ?_ (Nat.le_of_not_lt hbad.2) hback⟩
          exact fun hb => absurd hb hbad.1.1

/-- The one octet of the DISCONNECT. -/
theorem Conn.Sized.sendDisconnect (h : c.Sized mem) (hlim : 0 < cfg.payloadLim) :
    (sendDisconnect c).conn.Sized mem := by
  unfold Ludlc.sendDisconnect
  split
  · exact h
  · split
    · exact h
    · have hopcode : ∀ it : PacketQueueItem w β,
          Loaded cfg mem { it with chan := w.controlChannel, payload := .opcode, size := 1 } :=
        fun _ => ⟨hlim, le_refl 1⟩
      refine ⟨?_, hopcode _⟩
      simp only
      split
      · intro i
        have hslots : ∀ d : Conn cfg β, (confirmULock d).packetsQ = d.packetsQ := by
          intro d
          unfold confirmULock
          split <;> rfl
        rw [hslots]
        exact h.slots i
      · exact h.slots

/-- No call puts a packet into the queue that is too long for the link or for its buffer. -/
theorem Conn.Sized.run (h : c.Sized mem) (hlim : 0 < cfg.payloadLim) {a : Call w β} (ha : a.backed mem) :
    (a.run c).conn.Sized mem := by
  cases a with
  | enqueueData dstChan buf size ttl =>
    apply h.enqueueData
    rintro b rfl
    exact ha
  | sendUrgentData dstChan buf size =>
    apply h.sendUrgentData
    rintro b rfl
    exact ha
  | sendDisconnect => exact h.sendDisconnect hlim
  | connect =>
    simp only [Call.run, connect]
    split
    · exact h
    · split
      · exact h
      · exact h.onDisconnectLock
  | handleDisconnect => exact h.disconnectCore
  | getPacketToSend mem' => exact h.getPacketToSend mem'
  | receive p pktSz tstamp => exact h.receive p pktSz tstamp

/-! ## The frame -/

/-- A PING is its IDs, and any other frame a header and the octets its size says. -/
inductive TxFrame.Whole (c : Conn cfg β) (f : TxFrame w β) : Prop
  | ping : c.txHdr.txId.flag = true → f.hdrSz = w.pingSz → f.paySz = 0 → TxFrame.Whole c f
  | full : f.hdrSz = w.hdrSz → f.paySz ≤ (f.octets c).length → f.paySz ≤ cfg.payloadLim →
      TxFrame.Whole c f

theorem TxFrame.Whole.same {f : TxFrame w β} (h : f.Whole c) (hhdr : d.txHdr = c.txHdr)
    (hpay : d.txPayload = c.txPayload) : f.Whole d := by
  cases h with
  | ping hflag hsz hzero => exact .ping (hhdr ▸ hflag) hsz hzero
  | full hsz hlen hlim =>
    apply TxFrame.Whole.full hsz _ hlim
    rw [TxFrame.octets, hpay]
    exact hlen

theorem txAck_txId (c : Conn cfg β) (id : Id w) (ping numbered : Bool) :
    (txAck c id ping numbered).txHdr.txId = c.txHdr.txId := by
  unfold txAck
  dsimp only
  split <;> rfl

theorem txCopy_whole (mem : β → List UInt8) {p : TxPrep cfg β} {kind : Kind}
    {it : PacketQueueItem w β} (hit : p.it = some (kind, it)) (hsz : p.hdrSz = w.hdrSz)
    (hl : Loaded cfg mem it) : (txCopy mem p).2.Whole (txCopy mem p).1 := by
  simp only [txCopy, hit]
  apply TxFrame.Whole.full hsz
  · simp only [TxFrame.octets]
    split
    next =>
      simp only [Conn.emit]
      rw [List.length_take, Nat.min_eq_left hl.backed]
    next hzero =>
      rw [not_not] at hzero
      rw [hzero]
      exact Nat.zero_le _
  · exact hl.lim

theorem txPrep_whole (mem : β → List UInt8) (h : c.Sized mem) (uDone : Bool) :
    (txCopy mem (txPrep c uDone)).2.Whole (txCopy mem (txPrep c uDone)).1 := by
  unfold txPrep
  split
  · unfold txConnected
    split
    · exact txCopy_whole mem rfl rfl h.unnumbered
    · split
      · apply TxFrame.Whole.ping
        · exact congrArg WireId.flag (txAck_txId _ _ _ _)
        · rfl
        · rfl
      · exact txCopy_whole mem rfl rfl (h.slots _)
  · apply TxFrame.Whole.full
    · rfl
    · simp only [txCopy, txHandshake, TxFrame.octets]
      split
      next hst =>
        by_cases hcaps : cfg.caps = []
        · simp [hcaps]
        · simp [hst, hcaps]
      next => exact Nat.zero_le _
    · simp only [txCopy, txHandshake]
      split
      · exact cfg.caps_ok
      · exact Nat.zero_le _

/-- A frame the core hands over has the octets that its size says, and no more than the link carries. -/
theorem getPacketToSend_whole (mem : β → List UInt8) (h : c.Sized mem) {f : TxFrame w β}
    (hf : (getPacketToSend mem c).frame = some f) : f.Whole (getPacketToSend mem c).conn := by
  cases hd : txDiscSent c with
  | true =>
    rw [getPacketToSend_disc mem hd] at hf
    cases hf
  | false =>
    simp only [getPacketToSend, hd, Bool.false_eq_true, if_false] at hf ⊢
    obtain rfl := Option.some_inj.mp hf
    have hdone : (txDone c !c.flags.uDone).Sized mem := by
      refine ⟨h.slots, ?_⟩
      simp only [txDone]
      split
      · exact ⟨h.unnumbered.lim, h.unnumbered.backed⟩
      · exact h.unnumbered
    exact (txPrep_whole mem hdone _).same rfl rfl

end Ludlc
