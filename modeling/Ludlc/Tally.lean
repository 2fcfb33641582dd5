import Ludlc.Frames

/-! # What an end counts since its last reset

`last_ack` and `last_received` are, cut to the ID, the numbers of packets acknowledged and received
since the sequence was reset. A call adds to them what it adds to the history, or resets the sequence
and leaves nothing to count.
-/

namespace Ludlc

open SeqNum

variable {w : Wire} {cfg : Cfg w} {β : Type}

def Ev.isReset : Ev w β → Bool
  | .seqReset => true
  | _ => false

/-- The part of a history that follows the last reset of the sequence. -/
def sinceReset (log : List (Ev w β)) : List (Ev w β) :=
  log.foldl (fun part ev => if ev.isReset then [] else part ++ [ev]) []

/-- The numbered packets confirmed from the window. -/
def ackedItems (log : List (Ev w β)) : List (PacketQueueItem w β) :=
  log.filterMap fun
    | .call (.onConfirm .numbered it) => some it
    | _ => none

/-- The packets given up, which are confirmed with `-ETIMEDOUT`. -/
def expiredItems (log : List (Ev w β)) : List (PacketQueueItem w β) :=
  log.filterMap fun
    | .call (.onConfirm .expired it) => some it
    | _ => none

section Log

variable {log evs post : List (Ev w β)}

theorem sinceReset_append (h : .seqReset ∉ evs) : sinceReset (log ++ evs) = sinceReset log ++ evs := by
  induction evs generalizing log with
  | nil => simp
  | cons ev evs ih =>
    rw [List.mem_cons, not_or] at h
    have hev : ev.isReset = false := by
      cases ev with
      | seqReset => exact absurd rfl h.1
      | _ => rfl
    rw [List.append_cons, ih h.2, sinceReset, List.foldl_append, List.foldl_cons, List.foldl_nil, hev,
      ← sinceReset]
    simp

theorem sinceReset_reset (h : .seqReset ∉ post) : sinceReset (log ++ .seqReset :: post) = post := by
  have hreset : sinceReset (log ++ [.seqReset]) = [] := by
    rw [sinceReset, List.foldl_append]
    rfl
  rw [List.append_cons, sinceReset_append h, hreset, List.nil_append]

theorem sinceReset_take {p : Nat} (h : .seqReset ∉ log.drop p) :
    sinceReset log = sinceReset (log.take p) ++ log.drop p := by
  rw [← sinceReset_append h, List.take_append_drop]

@[simp] theorem ackedItems_append (l l' : List (Ev w β)) :
    ackedItems (l ++ l') = ackedItems l ++ ackedItems l' := List.filterMap_append

@[simp] theorem expiredItems_append (l l' : List (Ev w β)) :
    expiredItems (l ++ l') = expiredItems l ++ expiredItems l' := List.filterMap_append

/-- A packet given back has been acknowledged or given up. -/
theorem mem_confirmedKeys {k : Key w β} (h : k ∈ confirmedKeys log) :
    k ∈ (ackedItems log).map (·.key) ∨ k ∈ (expiredItems log).map (·.key) := by
  obtain ⟨it, hit, rfl⟩ := List.mem_map.mp h
  obtain ⟨ev, hev, hgives⟩ := List.mem_filterMap.mp hit
  cases ev with
  | call cb =>
    cases cb with
    | onConfirm kind it' =>
      cases kind with
      | numbered =>
        cases hgives
        exact .inl (List.mem_map_of_mem (List.mem_filterMap.mpr ⟨_, hev, rfl⟩))
      | expired =>
        cases hgives
        exact .inr (List.mem_map_of_mem (List.mem_filterMap.mpr ⟨_, hev, rfl⟩))
      | unnumbered => cases hgives
    | _ => cases hgives
  | _ => cases hgives

/-- An event that adds to none of the counts and does not reset them. -/
def Ev.idle : Ev w β → Bool
  | .accepted kind _ => kind = .unnumbered
  | .call cb => cb.gives.isNone && cb.delivers.isNone
  | .seqReset => false
  | _ => true

def Idle (evs : List (Ev w β)) : Prop := ∀ ev ∈ evs, ev.idle = true

theorem idle_nil : Idle ([] : List (Ev w β)) := by simp [Idle]

theorem Idle.append (h : Idle evs) (h' : Idle post) : Idle (evs ++ post) :=
  fun ev hev => (List.mem_append.mp hev).elim (h ev) (h' ev)

theorem Idle.noReset (h : Idle evs) : .seqReset ∉ evs := fun hmem => by
  cases h _ hmem

theorem Idle.filterMap {γ : Type} (h : Idle evs) {f : Ev w β → Option γ}
    (hf : ∀ ev, ev.idle = true → f ev = none) : evs.filterMap f = [] :=
  List.filterMap_eq_nil_iff.mpr fun ev hev => hf ev (h ev hev)

theorem Idle.accepted (h : Idle evs) : acceptedKeys evs = [] := by
  apply h.filterMap
  rintro (⟨kind, it⟩ | _) hidle
  · cases kind <;> first | rfl | cases hidle
  all_goals rfl

theorem Idle.confirmed (h : Idle evs) : confirmedKeys evs = [] := by
  rw [confirmedKeys, List.map_eq_nil_iff]
  apply h.filterMap
  rintro (_ | _ | _ | cb | _) hidle
  case call => simpa using (Bool.and_eq_true_iff.mp hidle).1
  all_goals rfl

theorem Idle.deliveries (h : Idle evs) : deliveries evs = [] := by
  apply h.filterMap
  rintro (_ | _ | _ | cb | _) hidle
  case call => simpa using (Bool.and_eq_true_iff.mp hidle).2
  all_goals rfl

theorem Idle.acked (h : Idle evs) : ackedItems evs = [] := by
  apply h.filterMap
  rintro (_ | _ | _ | cb | _) hidle
  case call =>
    cases cb with
    | onConfirm kind it => cases kind <;> first | rfl | cases hidle
    | _ => rfl
  all_goals rfl

end Log

/-- What a call leaves: `got` is what it passes to `on_recv` and `acked` the number of packets it
confirms from the window. A link that it leaves down has neither. -/
inductive Course (c d : Conn cfg β) (got : List (Delivery w)) (acked : Nat) : Prop
  | kept (evs : List (Ev w β)) : d.log = c.log ++ evs → .seqReset ∉ evs →
      (ackedItems evs).length = acked → deliveries evs = got →
      d.lastAck = c.lastAck + wrap w.idBits acked →
      d.lastReceived = c.lastReceived + wrap w.idBits got.length →
      (c.connState = .connected → d.connState = .connected) →
      (d.connState ≠ .connected → acked = 0 ∧ got = []) → Course c d got acked
  | reset (pre post : List (Ev w β)) : d.log = c.log ++ pre ++ .seqReset :: post → Idle post →
      d.lastQueued = 0 → d.lastAck = 0 → d.lastReceived = 0 → d.connState ≠ .connected →
      Course c d got acked

section Course

variable {c d : Conn cfg β}

theorem Course.log {got : List (Delivery w)} {acked : Nat} (h : Course c d got acked) :
    ∃ evs, d.log = c.log ++ evs := by
  cases h with
  | kept evs hlog => exact ⟨evs, hlog⟩
  | reset pre post hlog => exact ⟨pre ++ .seqReset :: post, by rw [hlog, List.append_assoc]⟩

theorem Course.idle (evs : List (Ev w β)) (hlog : d.log = c.log ++ evs) (hidle : Idle evs)
    (hack : d.lastAck = c.lastAck) (hrecv : d.lastReceived = c.lastReceived)
    (hup : c.connState = .connected → d.connState = .connected) : Course c d [] 0 := by
  refine .kept evs hlog hidle.noReset ?_ hidle.deliveries ?_ ?_ hup fun _ => ⟨rfl, rfl⟩
  · rw [hidle.acked, List.length_nil]
  · rw [hack, wrap_zero, add_zero]
  · rw [hrecv, List.length_nil, wrap_zero, add_zero]

/-- A disconnect resets the sequence, in the build that reports inline. -/
theorem Course.down (hmt : cfg.mt = false) {e : Conn cfg β} {evs : List (Ev w β)}
    (hpre : ∃ pre, e.log = c.log ++ pre) (hd : d = { onDisconnectLock e with log := d.log })
    (hlog : d.log = (onDisconnectLock e).log ++ evs) (hidle : Idle evs) {got : List (Delivery w)}
    {acked : Nat} : Course c d got acked := by
  obtain ⟨pre, hpre⟩ := hpre
  have hdown : Hushed e (linkDown e) := by
    refine ⟨downLog e, by rw [linkDown_eq], ?_⟩
    unfold downLog unnumberedLog
    split <;> rfl
  obtain ⟨evs', hsweep, -⟩ : Hushed e (sweep e) := hdown.trans (hushed_failQueued _ _ _)
  have heq := onDisconnectLock_eq e
  rw [undrained_inline hmt] at heq
  simp only [Bool.false_eq_true, if_false] at heq
  refine .reset (pre ++ evs') (.swept :: evs) ?_ ?_ ?_ ?_ ?_ ?_
  · rw [hlog, heq]
    simp [hsweep, hpre]
  · have hswept : Idle [(.swept : Ev w β)] := by simp [Idle, Ev.idle]
    exact hswept.append hidle
  · rw [hd, heq]
  · rw [hd, heq]
  · rw [hd, heq]
  · rw [hd]
    simp

theorem Idle.todoLog {todo : List (Todo w β)} (h : ∀ cb, .call cb ∈ todo →
    cb.gives = none ∧ cb.delivers = none) : Idle (todoLog todo) := by
  intro ev hev
  obtain ⟨a, ha, hev⟩ := List.mem_flatMap.mp hev
  cases a with
  | call cb =>
    obtain ⟨hgives, hdel⟩ := h cb ha
    simp only [List.mem_cons, List.not_mem_nil, or_false] at hev
    rcases hev with rfl | rfl
    · simp [Ev.idle, hgives, hdel]
    · rfl
  | _ => cases hev

theorem idle_unnumbered (it : PacketQueueItem w β) :
    Idle [.call (.onConfirm .unnumbered it), .ret (.onConfirm .unnumbered it)] := by
  simp [Idle, Ev.idle, Callback.gives, Callback.delivers]

theorem course_disconnect (hmt : cfg.mt = false) {e : Conn cfg β} (hlog : e.log = c.log)
    (hack : e.lastAck = c.lastAck) (hrecv : e.lastReceived = c.lastReceived)
    (hstate : e.connState = c.connState) : Course c (runTodo e .handleDisconnect) [] 0 := by
  simp only [runTodo, disconnectCore]
  split
  next h =>
    have hcall : Idle [(.call .onDisconnect : Ev w β), .ret .onDisconnect] := by
      simp [Idle, Ev.idle, Callback.gives, Callback.delivers]
    refine .down hmt (e := e) ⟨[], by rw [hlog, List.append_nil]⟩ ?_ ?_ hcall
    · simp [callNow, Conn.emit]
    · simp [callNow, Conn.emit]
  · exact .idle [] (by simpa using hlog) idle_nil hack hrecv fun hc => hstate.trans hc

theorem course_send (hmt : cfg.mt = false) (mem : β → List UInt8) (c : Conn cfg β) :
    Course c (getPacketToSend mem c).settle [] 0 := by
  cases hd : txDiscSent c with
  | true =>
    rw [getPacketToSend_disc mem hd]
    exact course_disconnect hmt rfl rfl rfl rfl
  | false =>
    obtain ⟨hs, hlog⟩ := getPacketToSend_step mem hd
    have htodo := getPacketToSend_todo mem hd
    have hno : .handleDisconnect ∉ (getPacketToSend mem c).todo := by
      rw [htodo]
      exact disconnect_notMem_callIf _ _
    rw [settle_eq hno]
    refine .idle (copyLog (txItem (txDone c !c.flags.uDone)) ++ todoLog (getPacketToSend mem c).todo)
      ?_ ?_ hs.lastAck hs.lastReceived fun hc => hs.connState.trans hc
    · dsimp only
      rw [hlog, List.append_assoc]
    · apply Idle.append
      · unfold copyLog
        repeat' split
        all_goals simp [Idle, Ev.idle]
      · rw [htodo]
        apply Idle.todoLog
        intro cb hcb
        simp only [callIf] at hcb
        split at hcb
        · rw [List.mem_singleton] at hcb
          cases hcb
          exact ⟨rfl, rfl⟩
        · cases hcb

/-- A call that receives nothing confirms nothing from a window that stays up. -/
theorem course_call (hmt : cfg.mt = false) (c : Conn cfg β) {a : Call w β}
    (hr : ∀ p n t, a ≠ .receive p n t) : Course c (a.run c).settle [] 0 := by
  have hsame : Course c c [] 0 := .idle [] (List.append_nil _).symm idle_nil rfl rfl id
  cases a with
  | enqueueData dstChan buf size ttl =>
    obtain ⟨htodo, hd⟩ := enqueueData_cases c c.log.length dstChan (.ofPtr buf) size ttl
    simp only [Call.run, Out.settle, htodo, List.foldl_nil]
    rcases hd with hd | ⟨-, -, -, -, hd⟩ <;> rw [hd]
    · exact hsame
    · refine .kept [.accepted .numbered _] rfl (by simp) rfl rfl ?_ ?_ id fun _ => ⟨rfl, rfl⟩
      all_goals simp [Conn.push]
  | sendUrgentData dstChan buf size =>
    obtain ⟨htodo, hd⟩ := sendUrgentData_cases c c.log.length dstChan (.ofPtr buf) size
    simp only [Call.run, Out.settle, htodo, List.foldl_nil]
    rcases hd with hd | ⟨-, -, -, -, hd⟩ <;> rw [hd]
    · exact hsame
    · exact .idle [.accepted .unnumbered _] rfl (by simp [Idle, Ev.idle]) rfl rfl id
  | sendDisconnect =>
    simp only [Call.run, sendDisconnect, Out.settle]
    split
    · exact hsame
    split
    · exact hsame
    · simp only [List.foldl_cons, List.foldl_nil, runTodo, confirmULock, hmt, Bool.false_eq_true, if_false]
      split
      · have hidle := idle_unnumbered { c.uPacket with result := .ecanceled }
        exact .idle _ (by simp [callNow, Conn.emit]) hidle rfl rfl id
      · exact .idle [] (List.append_nil _).symm idle_nil rfl rfl id
  | connect =>
    simp only [Call.run, connect, Out.settle]
    split
    · exact hsame
    split
    · exact hsame
    · exact .down hmt ⟨[], (List.append_nil _).symm⟩ rfl (List.append_nil _).symm idle_nil
  | handleDisconnect =>
    have h := course_disconnect hmt (e := c) rfl rfl rfl rfl
    simp only [runTodo] at h
    simp only [Call.run, handleDisconnect, Out.settle]
    split at h
    next hb => simpa [runTodo, hb] using h
    next hb => simpa [runTodo, hb] using h
  | getPacketToSend mem => exact course_send hmt mem c
  | receive p n t => exact absurd rfl (hr p n t)

theorem noReset_todoLog (todo : List (Todo w β)) : .seqReset ∉ todoLog todo := by
  intro h
  obtain ⟨a, -, hev⟩ := List.mem_flatMap.mp h
  cases a <;> simp at hev

theorem acked_todoLog {todo : List (Todo w β)} (h : ∀ it, .call (.onConfirm .numbered it) ∉ todo) :
    ackedItems (todoLog todo) = [] := by
  rw [ackedItems, List.filterMap_eq_nil_iff]
  intro ev hev
  obtain ⟨a, ha, hev⟩ := List.mem_flatMap.mp hev
  cases a with
  | call cb =>
    simp only [List.mem_cons, List.not_mem_nil, or_false] at hev
    rcases hev with rfl | rfl
    · split
      next hcb =>
        cases hcb
        exact absurd ha (h _)
      next => rfl
    · rfl
  | _ => cases hev

theorem ackedItems_resolve (hmt : cfg.mt = false) (items : List (PacketQueueItem w β)) :
    let evs := items.flatMap fun it => resolveLog cfg (it.resolve .ok)
    .seqReset ∉ evs ∧ (ackedItems evs).length = items.length ∧ deliveries evs = [] := by
  induction items with
  | nil => exact ⟨List.not_mem_nil, rfl, rfl⟩
  | cons it items ih =>
    obtain ⟨hno, hlen, hdel⟩ := ih
    dsimp only
    rw [List.flatMap_cons]
    refine ⟨?_, ?_, ?_⟩
    · simp only [List.mem_append, not_or]
      exact ⟨by simp [resolveLog, hmt], hno⟩
    · rw [ackedItems_append, List.length_append, hlen, List.length_cons, Nat.add_comm]
      simp [ackedItems, resolveLog, hmt]
    · rw [deliveries_append, hdel]
      simp [deliveries, resolveLog, hmt, Callback.delivers]

theorem SendQueue.ackNak_base (mt : Bool) {n : Nat} (nak : Option Bool)
    {q : SendQueue (PacketQueueItem w β)} (h : n ≤ q.win.length) :
    (q.ackNak mt n nak).1.base = q.base + n := by
  rw [← SendQueue.advance_base mt (·.resolve .ok) h]
  cases nak with
  | none => rfl
  | some charge =>
    simp only [SendQueue.ackNak, SendQueue.nak]
    split
    · split <;> rfl
    · rfl

/-- How many packets an ACK field confirms: none, or as many as it is ahead of `last_ack`. -/
structure Acks (e : Conn cfg β) (a : WireId w.idBits) (n : Nat) (evs : List (Ev w β)) : Prop where
  log : (rxHandleAck e a).1.log = e.log ++ evs
  noReset : .seqReset ∉ evs
  acked : (ackedItems evs).length = n
  none : deliveries evs = []
  lastAck : (rxHandleAck e a).1.lastAck = e.lastAck + wrap w.idBits n
  count : n = 0 ∨ n = (a.id - e.lastAck).toNat ∧ n ≤ (e.lastQueued - e.lastAck).toNat

theorem acks (hmt : cfg.mt = false) {e : Conn cfg β} {q : SendQueue (PacketQueueItem w β)}
    (h : Inline.Inv e [] q) (a : WireId w.idBits) : ∃ n evs, Acks e a n evs := by
  by_cases hfar : q.win.length < (a.id - e.lastAck).toNat
  · have heq := rxHandleAck_far h.refines.toHolding hfar
    refine ⟨0, [], ?_, List.not_mem_nil, rfl, rfl, ?_, .inl rfl⟩
    · rw [heq, List.append_nil]
    · rw [heq, wrap_zero, add_zero]
  · have hn := Nat.not_lt.mp hfar
    obtain ⟨hq, -, hlog⟩ := rxHandleAck_spec h.refines h.isOpen hn
    obtain ⟨hno, hlen, hdel⟩ :=
      ackedItems_resolve hmt (q.win.take (a.id - e.lastAck).toNat)
    have hidle : Idle ((rxHandleAck e a).2.1.toList.map (.resolved : _ → Ev w β)) := by
      intro ev hev
      obtain ⟨it, -, rfl⟩ := List.mem_map.mp hev
      rfl
    refine ⟨(a.id - e.lastAck).toNat, _, by rw [hlog, List.append_assoc], ?_, ?_, ?_, ?_, .inr ⟨rfl, ?_⟩⟩
    · rw [List.mem_append, not_or]
      exact ⟨hno, hidle.noReset⟩
    · rw [ackedItems_append, hidle.acked, List.append_nil, hlen, List.length_take, Nat.min_eq_left hn]
    · rw [deliveries_append, hdel, hidle.deliveries]
      rfl
    · rw [hq.ack, SendQueue.ackNak_base cfg.mt _ hn, h.refines.ack]
      simp only [wrap, BitVec.ofNat_add]
    · rw [h.refines.numQueued]
      exact hn

/-- The callbacks `ludlc_receive` leaves to run. -/
theorem receive_calls {r : RxOut cfg β} {p : Packet w} {pktSz tstamp : Nat} {cb : Callback w β}
    (h : .call cb ∈ receiveTodo r p pktSz tstamp) : cb.gives = none ∧ cb.delivers = none ∨
      (∃ it, r.expired = some it ∧ cb = .onConfirm .expired it) ∨
      r.ret.accept = true ∧ cb = .onRecv p.hdr.chan p.payload (pktSz - w.hdrSz) tstamp p.src := by
  simp only [receiveTodo, callIf, List.mem_append, List.mem_cons, List.mem_map, Option.mem_toList] at h
  rcases h with (((h | h) | h | ⟨it, hit, heq⟩) | h) | h
  · split at h
    · cases List.mem_singleton.mp h
      exact .inl ⟨rfl, rfl⟩
    · cases h
  · split at h
    · cases List.mem_singleton.mp h
      exact .inl ⟨rfl, rfl⟩
    · cases h
  · cases h
  · cases heq
    exact .inr (.inl ⟨it, hit, rfl⟩)
  · split at h
    · cases List.mem_singleton.mp h
      exact .inl ⟨rfl, rfl⟩
    · cases h
  · split at h
    next hacc =>
      cases List.mem_singleton.mp h
      exact .inr (.inr ⟨hacc, rfl⟩)
    next => cases h

theorem deliveries_todoLog (todo : List (Todo w β)) :
    deliveries (todoLog todo) = todoDeliveries todo := by
  induction todo with
  | nil => rfl
  | cons a todo ih =>
    have hcons : todoLog (a :: todo) = todoLog [a] ++ todoLog todo := by simp [todoLog]
    have hone : deliveries (todoLog [a]) = todoDeliveries [a] := by cases a <;> rfl
    rw [hcons, deliveries_append, ih, hone, todoDeliveries, todoDeliveries, todoDeliveries,
      ← List.filterMap_append]
    rfl

/-- What the frame itself says of the packet it carries. -/
def Frame.carried (f : Frame w) : List (Delivery w) :=
  f.pkt.src.toList.map fun tag => ⟨tag, f.pkt.hdr.chan, f.pkt.payload, f.size - w.hdrSz⟩

/-- A frame carries a queued packet if and only if it has a number of its own. -/
structure Frame.Sound (f : Frame w) : Prop where
  flagged : f.pkt.hdr.txId.flag = true → f.pkt.src = none
  numbered : f.pkt.hdr.txId.flag = false → isHshake f.pkt = false → f.pkt.src.isSome = true

/-- What an end does with a frame: it may take the packet it carries, and may confirm as many of its own
as the ACK field is ahead. -/
theorem course_receive (hmt : cfg.mt = false) {q : SendQueue (PacketQueueItem w β)}
    (h : Inline.Inv c [] q) {f : Frame w} (hf : f.Sound) (tstamp : Nat) :
    ∃ got acked, Course c (receive c f.pkt f.size tstamp).settle got acked ∧
      (got = [] ∨ isHshake f.pkt = false ∧ f.pkt.hdr.txId.flag = false ∧ got = f.carried) ∧
      (acked = 0 ∨ isHshake f.pkt = false ∧ acked = (f.pkt.hdr.ackId.id - c.lastAck).toNat ∧
        acked ≤ (c.lastQueued - c.lastAck).toNat) := by
  have hsettle := settle_eq (receive_todo c f.pkt f.size tstamp)
  have hidle : ∀ r : RxOut cfg β, r.expired = none → r.ret.accept = false →
      Idle (todoLog (receiveTodo r f.pkt f.size tstamp)) := by
    intro r hexp hacc
    apply Idle.todoLog
    intro cb hcb
    rcases receive_calls hcb with hcb | ⟨it, hit, -⟩ | ⟨hyes, -⟩
    · exact hcb
    · rw [hexp] at hit
      cases hit
    · rw [hacc] at hyes
      cases hyes
  simp only [receive] at hsettle ⊢
  have hstep := rxHandlePacket_step c f.pkt f.size
  generalize rxHandlePacket c f.pkt f.size = r at hstep hsettle ⊢
  rw [hsettle]
  cases hstep with
  | dropped =>
    exact ⟨[], 0, .idle _ rfl (hidle _ rfl rfl) rfl rfl id, .inl rfl, .inl rfl⟩
  | handshake ret _ hne hacc =>
    refine ⟨[], 0, .idle
      (upLog c f.pkt ++ todoLog (receiveTodo ⟨rxUp c f.pkt, ret, none⟩ f.pkt f.size tstamp))
      ?_ ?_ ?_ ?_ fun hc => absurd hc hne, .inl rfl, .inl rfl⟩
    · simp
    · apply Idle.append _ (hidle _ rfl hacc)
      unfold upLog
      split <;> simp [Idle, Ev.idle]
    · simp
    · simp
  | lastStep =>
    exact ⟨[], 0, .idle _ rfl (hidle _ rfl rfl) rfl rfl id, .inl rfl, .inl rfl⟩
  | down ret _ _ hacc =>
    refine ⟨[], 0, .down hmt ⟨upLog c f.pkt, by simp⟩ rfl rfl (hidle _ rfl hacc), .inl rfl, .inl rfl⟩
  | data ret a s _ hup hs ha hseq hacc =>
    have hw : Inline.Inv (watchdogRestart (rxUp c f.pkt)) [] q :=
      (h.up f.pkt).frame [] rfl rfl rfl rfl rfl rfl (by simp [watchdogRestart]) quiet_nil
    obtain ⟨n, evs, hacks⟩ := acks hmt hw f.pkt.hdr.ackId
    have hrest := rxHandleAck_rest (watchdogRestart (rxUp c f.pkt)) f.pkt.hdr.ackId
    have hwlog : (watchdogRestart (rxUp c f.pkt)).log = c.log ++ upLog c f.pkt := rxUp_log c f.pkt
    have hwack : (watchdogRestart (rxUp c f.pkt)).lastAck = c.lastAck := rxUp_lastAck c f.pkt
    have hwqueued : (watchdogRestart (rxUp c f.pkt)).lastQueued = c.lastQueued :=
      rxUp_lastQueued c f.pkt
    have hrecv : a.1.lastReceived = c.lastReceived := by
      rw [ha, hrest.lastReceived]
      exact rxUp_lastReceived c f.pkt
    have hconn : s.1.connState = .connected := by
      rw [hseq, rxSequence_connState, ha, hrest.connState]
      exact hup
    have hup : Idle (upLog c f.pkt) := by
      unfold upLog
      split <;> simp [Idle, Ev.idle]
    have hcalls : ∀ it, .call (.onConfirm .numbered it) ∉
        receiveTodo ⟨s.1, ret, a.2.1⟩ f.pkt f.size tstamp := by
      intro it hit
      rcases receive_calls hit with ⟨hgives, -⟩ | ⟨it', -, heq⟩ | ⟨-, heq⟩
      · cases hgives
      · cases heq
      · cases heq
    have hgot : deliveries (todoLog (receiveTodo ⟨s.1, ret, a.2.1⟩ f.pkt f.size tstamp)) =
        if s.2.accept then f.carried else [] := by
      rw [deliveries_todoLog, todoDeliveries_receive, ← hacc]
      rfl
    refine ⟨if s.2.accept then f.carried else [], n, .kept (upLog c f.pkt ++ evs ++
      todoLog (receiveTodo ⟨s.1, ret, a.2.1⟩ f.pkt f.size tstamp)) ?_ ?_ ?_ ?_ ?_ ?_ (fun _ => hconn)
      (fun hno => absurd hconn hno), ?_, ?_⟩
    · dsimp only
      rw [hseq, rxSequence_log, ha, hacks.log, hwlog]
      simp only [List.append_assoc]
    · simp only [List.mem_append, not_or]
      exact ⟨⟨hup.noReset, hacks.noReset⟩, noReset_todoLog _⟩
    · rw [ackedItems_append, ackedItems_append, hup.acked, acked_todoLog hcalls, List.nil_append,
        List.append_nil, hacks.acked]
    · rw [deliveries_append, deliveries_append, hup.deliveries, hacks.none, hgot]
      rfl
    · dsimp only
      rw [hseq, rxSequence_lastAck, ha, hacks.lastAck, hwack]
    · dsimp only
      have hcases := rxSequence_cases a.1 f.pkt (isUPacket f.pkt f.size)
      rw [← hseq, hrecv] at hcases
      rcases hcases with ⟨hflag, hid, hnow, hyes⟩ | ⟨hnow, hflag⟩
      · have hlen : f.carried.length = 1 := by
          obtain ⟨tag, htag⟩ := Option.isSome_iff_exists.mp (hf.numbered hflag hs)
          simp [Frame.carried, htag]
        rw [if_pos hyes, hlen, hnow, hid]
        rfl
      · have hnone : (if s.2.accept then f.carried else []) = [] := by
          split
          next hyes => simp [Frame.carried, hf.flagged (hflag hyes)]
          next => rfl
        rw [hnone, hnow, List.length_nil, wrap_zero, add_zero]
    · by_cases hyes : s.2.accept = true
      · cases hflag : f.pkt.hdr.txId.flag with
        | true => simp [hyes, Frame.carried, hf.flagged hflag]
        | false => exact .inr ⟨hs, rfl, if_pos hyes⟩
      · exact .inl (if_neg hyes)
    · rcases hacks.count with hn | ⟨hn, hle⟩
      · exact .inl hn
      · exact .inr ⟨hs, hwack ▸ hn, hwqueued ▸ hwack ▸ hle⟩

end Course

/-- The counters of an end, and that nothing accepted before the last reset is still held. -/
structure Tally (c : Conn cfg β) : Prop where
  past : ∃ past, c.log = past ++ sinceReset c.log ∧ acceptedKeys past = confirmedKeys past
  acked : c.lastAck = wrap w.idBits (ackedItems (sinceReset c.log)).length
  received : c.lastReceived = wrap w.idBits (deliveries (sinceReset c.log)).length
  down : c.connState ≠ .connected →
    ackedItems (sinceReset c.log) = [] ∧ deliveries (sinceReset c.log) = []

section Tally

variable {c d : Conn cfg β} {q : SendQueue (PacketQueueItem w β)}

theorem tally_init : Tally (Conn.init cfg β) :=
  ⟨⟨[], rfl, rfl⟩, rfl, rfl, fun _ => ⟨rfl, rfl⟩⟩

theorem Tally.course {got : List (Delivery w)} {acked : Nat} (h : Tally c) (hd : Inline.Inv d [] q)
    (hc : Course c d got acked) : Tally d := by
  cases hc with
  | kept evs hlog hno hacked hgot hack hrecv hup hdown =>
    have hsince : sinceReset d.log = sinceReset c.log ++ evs := by rw [hlog, sinceReset_append hno]
    refine ⟨?_, ?_, ?_, fun hne => ?_⟩
    · obtain ⟨past, heq, hpast⟩ := h.past
      refine ⟨past, ?_, hpast⟩
      rw [hsince, ← List.append_assoc, ← heq, hlog]
    · rw [hack, h.acked, hsince, ackedItems_append, List.length_append, hacked]
      simp only [wrap, BitVec.ofNat_add]
    · rw [hrecv, h.received, hsince, deliveries_append, List.length_append, hgot]
      simp only [wrap, BitVec.ofNat_add]
    · obtain ⟨ha, hr⟩ := h.down fun hc => hne (hup hc)
      obtain ⟨rfl, rfl⟩ := hdown hne
      rw [hsince, ackedItems_append, deliveries_append, ha, hr, hgot, List.eq_nil_of_length_eq_zero hacked]
      exact ⟨rfl, rfl⟩
  | reset pre post hlog hidle hqueued hack hrecv hstate =>
    have hsince : sinceReset d.log = post := by rw [hlog, sinceReset_reset hidle.noReset]
    have hnil : q.win = [] := by
      rw [← List.length_eq_zero_iff, ← hd.refines.numQueued, hqueued, hack]
      simp
    refine ⟨⟨c.log ++ pre ++ [.seqReset], ?_, ?_⟩, ?_, ?_, fun _ => ?_⟩
    · rw [hsince, hlog, List.append_cons]
    · have hkeys := hd.ledger.keys
      rw [hnil, hlog, List.append_cons, acceptedKeys_append, confirmedKeys_append _ post, hidle.accepted,
        hidle.confirmed] at hkeys
      simpa using hkeys
    · rw [hack, hsince, hidle.acked]
      rfl
    · rw [hrecv, hsince, hidle.deliveries]
      rfl
    · rw [hsince]
      exact ⟨hidle.acked, hidle.deliveries⟩

/-- The packets accepted since the last reset are those confirmed and those in the window. -/
theorem Tally.held (h : Tally c) (hq : Inline.Inv c [] q) : acceptedKeys (sinceReset c.log) =
    confirmedKeys (sinceReset c.log) ++ q.win.map (·.key) := by
  obtain ⟨past, heq, hpast⟩ := h.past
  have hkeys := hq.ledger.keys
  rw [heq, acceptedKeys_append, confirmedKeys_append, hpast, List.append_assoc] at hkeys
  simpa using List.append_cancel_left hkeys

end Tally

end Ludlc
