import Ludlc.Unnumbered

/-! # No buffer is read after it was given back

A payload is copied while its packet is the core's: accepted, and not confirmed. The frame is a copy,
which only the call for the next one changes.
-/

namespace Ludlc.Threads

open SeqNum Runs

variable {w : Wire} {cfg : Cfg w} {β T : Type}

/-- After the history `pre` the packet is the core's. The DISCONNECT has no buffer of a caller. -/
def Owned (pre : List (Ev w β)) : Kind → PacketQueueItem w β → Prop
  | .unnumbered, it => it.payload.isOpcode = false →
    it.key ∈ acceptedUnnumbered pre ∧ it.key ∉ (confirmedUnnumbered pre).map (·.key)
  | _, it => it.key ∈ acceptedKeys pre ∧ it.key ∉ confirmedKeys pre

def CopiesOwned (log : List (Ev w β)) : Prop :=
  ∀ pre post kind it, log = pre ++ .copied kind it :: post → Owned pre kind it

/-- No payload is read. -/
def Copyless (evs : List (Ev w β)) : Prop := ∀ kind it, .copied kind it ∉ evs

theorem CopiesOwned.append {log evs : List (Ev w β)} (h : CopiesOwned log) (hevs : Copyless evs) :
    CopiesOwned (log ++ evs) := by
  intro pre post kind it heq
  rcases List.append_eq_append_iff.mp heq with ⟨mid, -, hpost⟩ | ⟨mid, hlog, hmid⟩
  · exact absurd (hpost ▸ by simp) (hevs kind it)
  · cases mid with
    | nil =>
      rw [List.nil_append] at hmid
      exact absurd (hmid ▸ by simp) (hevs kind it)
    | cons e mid =>
      obtain ⟨rfl, -⟩ := List.cons.inj hmid
      exact h pre mid kind it hlog

theorem CopiesOwned.copy {log : List (Ev w β)} {kind : Kind} {it : PacketQueueItem w β}
    (h : CopiesOwned log) (hown : Owned log kind it) : CopiesOwned (log ++ [.copied kind it]) := by
  intro pre post kind' it' heq
  rcases List.append_eq_append_iff.mp heq with ⟨mid, rfl, hpost⟩ | ⟨mid, hlog, hmid⟩
  · cases mid with
    | nil =>
      rw [List.nil_append] at hpost
      cases hpost
      rwa [List.append_nil]
    | cons e mid => simp at hpost
  · cases mid with
    | nil =>
      rw [List.nil_append] at hmid
      cases hmid
      rw [List.append_nil] at hlog
      exact hlog ▸ hown
    | cons e mid =>
      obtain ⟨rfl, -⟩ := List.cons.inj hmid
      exact h pre mid kind' it' hlog

theorem Decides.copyless {evs : List (Ev w β)} (h : Decides evs) : Copyless evs :=
  fun _ _ he => by simpa [Ev.decides] using h _ he

variable {c : Conn cfg β} {o : Out cfg β} {gap : Bool}

/-- A section leaves the copies owned, if the packet it reads from, if any, is. -/
theorem Section.copies (hmt : cfg.mt = true) (h : CopiesOwned c.log)
    (hitem : ∀ kind it, txItem (txDone c !c.flags.uDone) = some (kind, it) → Owned c.log kind it)
    (hs : Section gap c o) : CopiesOwned o.conn.log := by
  cases hs with
  | link up evs _ _ hevs hlog =>
    rw [hlog, List.append_assoc]
    refine h.append fun kind it he => ?_
    rw [List.mem_append] at he
    rcases he with he | he
    · cases up <;> simp [upMark] at he
    · exact hevs.copyless kind it he
  | down d up _ hlog hconn =>
    obtain ⟨items, hdown⟩ := onDisconnectLock_log hmt d
    rw [hconn, hdown, hlog]
    simp only [List.append_assoc]
    refine h.append fun kind it he => ?_
    simp only [List.mem_append, List.mem_cons] at he
    rcases he with he | he
    · cases up <;> simp [upMark] at he
    · split at he <;> simp at he
  | hold it _ _ _ _ _ _ hd =>
    rw [hd]
    exact h.append (by simp [Copyless])
  | disconnect _ _ hd => rwa [hd]
  | discSent _ hd => rwa [hd]
  | frame mem _ _ _ hlog =>
    rw [hlog]
    cases hit : txItem (txDone c !c.flags.uDone) with
    | none => simpa [copyLog] using h
    | some p =>
      unfold copyLog
      dsimp only
      split
      · exact h.copy (hitem _ _ hit)
      · simpa using h

section Frame

/-- The frame last prepared is as it was. -/
def SameFrame (c d : Conn cfg β) : Prop := d.txHdr = c.txHdr ∧ d.txPayload = c.txPayload

theorem SameFrame.trans {c d e : Conn cfg β} (h : SameFrame c d) (h' : SameFrame d e) :
    SameFrame c e := ⟨h'.1.trans h.1, h'.2.trans h.2⟩

theorem sameFrame_down (c : Conn cfg β) : SameFrame c (onDisconnectLock c) := by
  rw [onDisconnectLock_eq, sweep_eq, linkDown_eq]
  exact ⟨rfl, rfl⟩

theorem sameFrame_handleDisconnect (c : Conn cfg β) : SameFrame c (handleDisconnect c).conn := by
  simp only [handleDisconnect, disconnectCore]
  split
  · exact sameFrame_down c
  · exact ⟨rfl, rfl⟩

theorem sameFrame_receive (c : Conn cfg β) (p : Packet w) (pktSz tstamp : Nat) :
    SameFrame c (receive c p pktSz tstamp).conn := by
  have hup : SameFrame c (rxUp c p) := ⟨rxUp_txHdr c p, rxUp_txPayload c p⟩
  have hstep := rxHandlePacket_step c p pktSz
  simp only [receive]
  generalize rxHandlePacket c p pktSz = r at hstep ⊢
  cases hstep with
  | dropped => exact ⟨rfl, rfl⟩
  | handshake => exact hup
  | lastStep => exact ⟨rfl, rfl⟩
  | down => exact hup.trans (sameFrame_down _)
  | data ret a s _ _ _ ha hs =>
    have hrest := rxHandleAck_rest (watchdogRestart (rxUp c p)) p.hdr.ackId
    rw [← ha] at hrest
    rw [hs]
    exact hup.trans ⟨(rxSequence_txHdr _ _ _).trans hrest.txHdr,
      (rxSequence_txPayload _ _ _).trans hrest.txPayload⟩

/-- The call prepares a frame. -/
def Call.prepares : Call w β → Bool
  | .getPacketToSend _ => true
  | _ => false

def Act.prepares : Act w β T → Bool
  | .call _ a => Call.prepares a
  | .run _ => false

theorem sameFrame_run (c : Conn cfg β) {a : Call w β} (ha : Call.prepares a = false) :
    SameFrame c (a.run c).conn := by
  cases a with
  | enqueueData dstChan buf size ttl =>
    obtain ⟨-, hd⟩ := enqueueData_cases c c.log.length dstChan (.ofPtr buf) size ttl
    simp only [Call.run]
    rcases hd with hd | ⟨-, -, -, -, hd⟩ <;> rw [hd] <;> exact ⟨rfl, rfl⟩
  | sendUrgentData dstChan buf size =>
    obtain ⟨-, hd⟩ := sendUrgentData_cases c c.log.length dstChan (.ofPtr buf) size
    simp only [Call.run]
    rcases hd with hd | ⟨-, -, -, -, hd⟩ <;> rw [hd] <;> exact ⟨rfl, rfl⟩
  | sendDisconnect =>
    simp only [Call.run, Ludlc.sendDisconnect, confirmULock]
    repeat' split
    all_goals exact ⟨rfl, rfl⟩
  | connect =>
    simp only [Call.run, Ludlc.connect]
    split
    · exact ⟨rfl, rfl⟩
    split
    · exact ⟨rfl, rfl⟩
    · exact sameFrame_down c
  | handleDisconnect => exact sameFrame_handleDisconnect c
  | getPacketToSend mem => cases ha
  | receive p pktSz tstamp => exact sameFrame_receive c p pktSz tstamp

theorem sameFrame_step [DecidableEq T] {rx tx : T} {s s' : Sys cfg β T} {a : Act w β T}
    (ha : Act.prepares a = false) (hs : step rx tx s a = some s') : SameFrame s.conn s'.conn := by
  cases a with
  | call t a =>
    simp only [step] at hs
    split at hs
    · cases hs
      exact sameFrame_run s.conn ha
    · cases hs
  | run t =>
    obtain ⟨⟨d, l⟩, hr, rfl⟩ := Option.map_eq_some_iff.mp hs
    cases ht : s.todo t with
    | nil => simp [ht, runNext] at hr
    | cons b rest =>
      rw [ht] at hr
      cases b with
      | call cb => cases hr; exact ⟨rfl, rfl⟩
      | ret cb => cases hr; exact ⟨rfl, rfl⟩
      | confirmUnlocked =>
        simp only [runNext] at hr
        split at hr <;> cases hr <;> exact ⟨rfl, rfl⟩
      | confirmPass =>
        cases hr
        exact ⟨(confirmPass_slot s.conn).txHdr, (confirmPass_slot s.conn).txPayload⟩
      | handleDisconnect =>
        cases hr
        exact sameFrame_handleDisconnect s.conn

theorem sameFrame_exec [DecidableEq T] {rx tx : T} {s s' : Sys cfg β T} {as : List (Act w β T)}
    (has : ∀ a ∈ as, Act.prepares a = false) (hs : exec (step rx tx) s as = some s') :
    SameFrame s.conn s'.conn := by
  induction as generalizing s with
  | nil =>
    cases hs
    exact ⟨rfl, rfl⟩
  | cons a as ih =>
    obtain ⟨t, ht, hs⟩ := Option.bind_eq_some_iff.mp hs
    exact (sameFrame_step (has a (by simp)) ht).trans (ih (fun b hb => has b (by simp [hb])) hs)

theorem txAck_chan (c : Conn cfg β) (id : Id w) (ping numbered : Bool) :
    (txAck c id ping numbered).txHdr.chan = c.txHdr.chan := by
  simp only [txAck]
  split <;> rfl

theorem txPrep_chan (c : Conn cfg β) (uDone : Bool) {kind : Kind} {it : PacketQueueItem w β}
    (hit : (txPrep c uDone).it = some (kind, it)) :
    (txPrep c uDone).conn.txHdr.chan = it.chan := by
  unfold txPrep txConnected at hit ⊢
  by_cases hconn : c.connState = .connected
  · rw [if_pos hconn] at hit ⊢
    by_cases hidle : c.flags.uIdle = true
    · by_cases hlast : c.lastSent = c.lastQueued
      · simp [hidle, hlast, txPing] at hit
      · simp only [hidle, hlast, Bool.not_true, Bool.false_eq_true, if_false, txData, txAck_chan,
          Option.some.injEq, Prod.mk.injEq] at hit ⊢
        rw [← hit.2]
    · simp only [hidle, Bool.not_false, if_true, txUrgent, txAck_chan, Option.some.injEq,
        Prod.mk.injEq] at hit ⊢
      rw [← hit.2]
  · simp [hconn, txHandshake] at hit

theorem txCopy_it (mem : β → List UInt8) (p : TxPrep cfg β) : (txCopy mem p).2.it = p.it := by
  unfold txCopy
  split
  next h => rw [h]
  next h => rw [h]

/-- The payload of a packet is copied, and the pointer is to the copy. -/
theorem txCopy_spec (mem : β → List UInt8) {p : TxPrep cfg β} {kind : Kind}
    {it : PacketQueueItem w β} (hit : p.it = some (kind, it)) :
    (txCopy mem p).1.txHdr = p.conn.txHdr ∧ (txCopy mem p).2.paySz = it.size ∧
      (txCopy mem p).2.payload = .txPayload ∧
      (txCopy mem p).1.txPayload.take it.size = (it.payload.read mem).take it.size := by
  unfold txCopy
  rw [hit]
  dsimp only
  split
  next => exact ⟨rfl, rfl, rfl, by simp⟩
  next hsize =>
    have hsize : it.size = 0 := by simpa using hsize
    exact ⟨rfl, rfl, rfl, by simp [hsize]⟩

/-- A frame with a packet in it has that packet's channel, and its octets behind the pointer. -/
theorem getPacketToSend_frame {mem : β → List UInt8} {c : Conn cfg β} {f : TxFrame w β}
    {kind : Kind} {it : PacketQueueItem w β} (hf : (getPacketToSend mem c).frame = some f)
    (hit : f.it = some (kind, it)) :
    (getPacketToSend mem c).conn.txHdr.chan = it.chan ∧ f.paySz = it.size ∧
      f.payload = .txPayload ∧
      (getPacketToSend mem c).conn.txPayload.take it.size = (it.payload.read mem).take it.size := by
  cases hd : txDiscSent c with
  | true =>
    rw [getPacketToSend_disc mem hd] at hf
    cases hf
  | false =>
    simp only [getPacketToSend, hd, Bool.false_eq_true, if_false, Option.some.injEq] at hf ⊢
    rw [← hf, txCopy_it] at hit
    obtain ⟨hhdr, hsz, hptr, hpay⟩ := txCopy_spec mem hit
    rw [← hf, hhdr]
    exact ⟨txPrep_chan _ _ hit, hsz, hptr, hpay⟩

end Frame

variable [Fintype T] {s s' : Sys cfg β T} {q : SendQueue (PacketQueueItem w β)}
  {lost : Multiset (Key w β)}

theorem Inv.owned (h : Inv s q) {it : PacketQueueItem w β} (hit : it ∈ q.win) :
    Owned s.conn.log .numbered it := by
  have hkey : it.key ∈ q.win.map (·.key) := List.mem_map_of_mem hit
  have hnodup := h.tagged.nodup
  refine ⟨h.keys ▸ List.mem_append_right _ hkey, fun hconf => ?_⟩
  rw [h.keys] at hnodup
  have hle := Multiset.map_le_map (f := (·.key)) h.confirmed_le
  have hres := Multiset.mem_of_le hle (Multiset.mem_coe.mpr hconf)
  exact List.disjoint_of_nodup_append hnodup (Multiset.mem_coe.mp hres) hkey

theorem UInv.owned (h : UInv s lost) (hidle : s.conn.flags.uIdle = false) :
    Owned s.conn.log .unnumbered s.conn.uPacket := by
  intro hpay
  have hlive : liveKey s.conn = {s.conn.uPacket.key} := by simp [liveKey, hidle, hpay]
  have hkeys := h.keys
  rw [hlive] at hkeys
  have hacc : s.conn.uPacket.key ∈ (acceptedUnnumbered s.conn.log : Multiset (Key w β)) := by
    rw [hkeys]
    simp
  have hnodup : (acceptedUnnumbered s.conn.log : Multiset (Key w β)).Nodup :=
    Multiset.coe_nodup.mpr h.tagged.nodup
  refine ⟨Multiset.mem_coe.mp hacc, fun hconf => ?_⟩
  rw [hkeys] at hnodup
  have hdisj := Multiset.nodup_add.mp (Multiset.nodup_add.mp hnodup).1
  refine Multiset.disjoint_left.mp hdisj.2.2 ?_ (Multiset.mem_singleton_self _)
  rw [Multiset.mem_add, Multiset.mem_add]
  exact .inl (.inl (Multiset.mem_coe.mpr hconf))

theorem txItem_owned (h : Inv s q) (hu : UInv s lost) {kind : Kind} {it : PacketQueueItem w β}
    (hit : txItem (txDone s.conn !s.conn.flags.uDone) = some (kind, it)) :
    Owned s.conn.log kind it := by
  unfold txItem at hit
  split at hit
  next hn =>
    cases hit
    obtain ⟨-, hitem⟩ := getPacketToSend_refines (fun _ => []) h.refines h.fresh
    obtain ⟨hlt, heq⟩ := hitem hn
    have hown := h.owned (List.getElem_mem hlt)
    rwa [← heq] at hown
  next =>
    split at hit
    next hun =>
      cases hit
      have hidle : s.conn.flags.uIdle = false := by
        simp only [txUnnumbered, Bool.and_eq_true, Bool.not_eq_true'] at hun
        exact hun.2
      have hdone : s.conn.flags.uDone = true := by
        cases hd : s.conn.flags.uDone with
        | true => rfl
        | false => simp [hu.slot.one hd] at hidle
      have := hu.owned hidle
      simpa [txDone, hdone] using this
    next => cases hit

/-- Every copy so far was of a packet that was the core's. -/
structure Reads (s : Sys cfg β T) : Prop where
  numbered : ∃ q, Inv s q
  unnumbered : ∃ lost, UInv s lost
  copies : CopiesOwned s.conn.log

variable [DecidableEq T]

theorem Reads.step (hmt : cfg.mt = true) {rx tx : T} {a : Act w β T} (h : Reads s)
    (hfresh : freshStart s a = true) (hs : step rx tx s a = some s') : Reads s' := by
  obtain ⟨q, hq⟩ := h.numbered
  obtain ⟨lost, hu⟩ := h.unnumbered
  obtain ⟨t, hm⟩ := step_move hmt hu.session.isOpen hfresh hs
  obtain ⟨more, hu', -⟩ := hu.move hmt hm
  refine ⟨inv_step hmt h.numbered hfresh hs, ⟨_, hu'⟩, ?_⟩
  cases hm with
  | locked o rest hsec => exact hsec.copies hmt h.copies fun kind it hit => txItem_owned hq hu hit
  | call cb => exact h.copies.append (by simp [Copyless])
  | ret cb => exact h.copies.append (by simp [Copyless])
  | leave => exact h.copies
  | claim => exact h.copies
  | pass =>
    rcases (confirmPass_slot s.conn).log with hlog | hlog
    · dsimp only
      rw [hlog]
      exact h.copies
    · dsimp only
      rw [hlog]
      exact h.copies.append (by simp [Copyless])

theorem reads_reaches (hmt : cfg.mt = true) {rx tx : T} (h : Reaches rx tx s) : Reads s := by
  refine h.invariant (I := Reads) ⟨⟨_, inv_init⟩, ⟨_, uinv_init⟩, ?_⟩ fun hi ha hs => hi.step hmt ha hs
  intro pre post kind it heq
  simp [Sys.init, Conn.init] at heq

/-- Every payload copied is one of a packet accepted and not yet confirmed, and the frame that a call
prepared, with that packet's channel and octets, is the same until the next such call. -/
theorem buffer_owned (hmt : cfg.mt = true) {rx tx : T} (h : Reaches rx tx s) :
    (∀ pre post kind it, s.conn.log = pre ++ .copied kind it :: post → Owned pre kind it) ∧
      ∀ mem f kind it as s', (getPacketToSend mem s.conn).frame = some f →
        f.it = some (kind, it) → (∀ a ∈ as, Act.prepares a = false) →
        exec (step rx tx) s (.call tx (.getPacketToSend mem) :: as) = some s' →
        s'.conn.txHdr = (getPacketToSend mem s.conn).conn.txHdr ∧ s'.conn.txHdr.chan = it.chan ∧
          f.paySz = it.size ∧ (f.octets s'.conn).take f.paySz = (it.payload.read mem).take it.size := by
  refine ⟨(reads_reaches hmt h).copies, fun mem f kind it as s' hf hit has hexec => ?_⟩
  obtain ⟨s₁, hstep, hexec⟩ := Option.bind_eq_some_iff.mp hexec
  have hconn : s₁.conn = (getPacketToSend mem s.conn).conn := by
    simp only [step] at hstep
    split at hstep
    · cases hstep
      rfl
    · cases hstep
  have hsame := sameFrame_exec has hexec
  obtain ⟨hchan, hsz, hptr, hpay⟩ := getPacketToSend_frame hf hit
  rw [← hconn] at hchan hpay ⊢
  refine ⟨hsame.1, hsame.1 ▸ hchan, hsz, ?_⟩
  rw [TxFrame.octets, hptr, hsz]
  exact hsame.2 ▸ hpay

/-- A build that reports a packet at a time, over a link with a window of two. -/
abbrev pair : Cfg (.ofWindow 1 one_lt_idBits) := .ofBuild _ true 1 Nat.one_pos

/-- Two packets are swept behind the one whose callback thread 2 is in, and a session starts before
the sequence is reset. Thread 2 gives back the first of them, and the transport asks for a frame. -/
def staleCopy : List (Act (.ofWindow 1 one_lt_idBits) Unit (Fin 3)) :=
  .call 2 (.enqueueData 1 (some ()) 1 1) :: Act.through 2 .connect 3 ++
    [.call 1 (.enqueueData 1 (some ()) 1 1), .call 1 (.enqueueData 1 (some ()) 1 1)] ++
    Act.through 1 .connect 1 ++ Act.handshake 0 0 ++
    [.run 2, .run 2, .run 2, .call 1 (.getPacketToSend fun _ => [7])]

/-- The packet of the window that was copied into a frame. -/
def copyOf {w : Wire} {β : Type} : Ev w β → Option (PacketQueueItem w β)
  | .copied .numbered it => some it
  | _ => none

theorem copyOf_last {w : Wire} {β : Type} {log : List (Ev w β)} {it : PacketQueueItem w β}
    (h : log.getLast?.bind copyOf = some it) : log = log.dropLast ++ [.copied .numbered it] := by
  obtain ⟨e, he, hcopy⟩ := Option.bind_eq_some_iff.mp h
  have hlog := List.dropLast_append_getLast? e he
  unfold copyOf at hcopy
  split at hcopy
  next =>
    cases hcopy
    exact hlog.symm
  next => cases hcopy

theorem buffer_read_back : ¬ ∀ s : Sys pair Unit (Fin 3),
    Reachable (Sys.init pair Unit (Fin 3)) (step 0 1) (fun _ _ => True) s →
      ∀ pre post kind it, s.conn.log = pre ++ .copied kind it :: post → Owned pre kind it := by
  obtain ⟨s, hs, hread⟩ := Reachable.of_exec (Sys.init pair Unit (Fin 3)) (step 0 1)
    (fun _ _ => true) staleCopy
    (fun s => (s.conn.log.getLast?.bind copyOf).any fun it =>
      it.key ∈ confirmedKeys s.conn.log.dropLast)
    (by decide +kernel) (by decide +kernel)
  intro h
  obtain ⟨it, hit, hgiven⟩ := (Option.any_eq_true _ _).mp hread
  exact (h s (hs.mono fun _ _ _ => trivial) _ [] .numbered it (copyOf_last hit)).2
    (of_decide_eq_true hgiven)

/-- A packet of the window is copied into a frame. -/
theorem buffer_owned_sent : ∃ s : Sys lone Unit (Fin 3), Reaches 0 1 s ∧
    ∃ pre it, s.conn.log = pre ++ [.copied .numbered it] ∧ Owned pre .numbered it := by
  obtain ⟨s, hs, hcopy⟩ := Reachable.of_exec (Sys.init lone Unit (Fin 3)) (step 0 1) freshStart
    (Act.handshake 0 1 ++ [.call 2 (.enqueueData 1 (some ()) 1 1),
      .call 1 (.getPacketToSend fun _ => [7])])
    (fun s => (s.conn.log.getLast?.bind copyOf).isSome)
    (by decide +kernel) (by decide +kernel)
  obtain ⟨it, hit⟩ := Option.isSome_iff_exists.mp hcopy
  have hlog := copyOf_last hit
  exact ⟨s, hs, _, it, hlog, (buffer_owned rfl hs).1 _ [] _ it hlog⟩

end Ludlc.Threads
