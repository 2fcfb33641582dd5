import Ludlc.InOrder
import Ludlc.Lib.Sliding
import Ludlc.Peers

/-! # What a confirmation tells within a session

Two ends that have just come up, in either build, and the channels between them. As long as no NAK gives up a
packet that has arrived or still may, what an end has received is a part of what the other has sent that
reaches past all it has confirmed: so a packet confirmed with 0 has been passed on once, and one given up never.
-/

namespace Ludlc

/-- The calls an application makes while a session goes on. -/
def Call.inSession {w : Wire} {β : Type} : Call w β → Bool
  | .enqueueData _ _ _ _ => true
  | .sendUrgentData _ _ _ => true
  | _ => false

namespace Peers

open SeqNum Runs Sliding

variable {w : Wire} {β : Type}

/-- An end that has come up on a sequence just reset. -/
structure Fresh {cfg : Cfg w} (c : Conn cfg β) : Prop where
  connState : c.connState = .connected
  flags : c.flags = .init
  reportBusy : c.reportBusy = false
  lastQueued : c.lastQueued = 0
  lastSent : c.lastSent = 0
  lastAck : c.lastAck = 0
  lastReceived : c.lastReceived = 0
  lastSeen : c.lastSeen = 0
  lastReported : cfg.mt = true → c.lastReported = 0
  accepted : acceptedKeys c.log = []
  confirmed : confirmedItems c.log = []
  delivered : deliveries c.log = []

variable {cfg : Side → Cfg w}

instance {cfg : Cfg w} (c : Conn cfg β) : Decidable (Fresh c) :=
  decidable_of_iff (c.connState = .connected ∧ c.flags = .init ∧ c.reportBusy = false ∧
      c.lastQueued = 0 ∧ c.lastSent = 0 ∧ c.lastAck = 0 ∧ c.lastReceived = 0 ∧ c.lastSeen = 0 ∧
      (cfg.mt = true → c.lastReported = 0) ∧ acceptedKeys c.log = [] ∧ confirmedItems c.log = [] ∧
      deliveries c.log = [])
    ⟨fun ⟨h₁, h₂, h₃, h₄, h₅, h₆, h₇, h₈, h₉, h₁₀, h₁₁, h₁₂⟩ =>
      ⟨h₁, h₂, h₃, h₄, h₅, h₆, h₇, h₈, h₉, h₁₀, h₁₁, h₁₂⟩,
    fun h => ⟨h.connState, h.flags, h.reportBusy, h.lastQueued, h.lastSent, h.lastAck, h.lastReceived,
      h.lastSeen, h.lastReported, h.accepted, h.confirmed, h.delivered⟩⟩

/-- Two ends that have just come up, and nothing on its way. -/
structure Opening (s : Pair cfg β) : Prop where
  fresh : ∀ e, Fresh (s.conn e)
  empty : ∀ e, s.chan e = []

/-- An end `e` has made a call, run to its end. -/
def after (s : Pair cfg β) (e : Side) (o : Out (cfg e) β) (due : Bool) : Pair cfg β where
  conn := Function.update s.conn e o.finish
  chan := Function.update s.chan e (s.chan e ++ o.sent)
  due := Function.update s.due e due

def step (mem : Side → β → List UInt8) (s : Pair cfg β) : Pair.Move w β → Option (Pair cfg β)
  | .call e a =>
    let o := a.run (s.conn e)
    if a.inSession then some (after s e o (s.due e || o.requestTx)) else none
  | .tx e =>
    let o := getPacketToSend (mem e) (s.conn e)
    some (after s e o (o.requestTx || o.ret = .ok))
  | .rx e tstamp =>
    match s.chan e.peer with
    | [] => none
    | f :: rest =>
      let o := receive (s.conn e) f.pkt f.size tstamp
      some (after ({ s with chan := Function.update s.chan e.peer rest } : Pair cfg β) e o
        (s.due e || o.requestTx))
  | .drop e i => some { s with chan := Function.update s.chan e ((s.chan e).eraseIdx i) }

/-- No NAK takes the last attempt of a packet that its receiver holds, or of which a copy is on its way. -/
def timely (s : Pair cfg β) : Pair.Move w β → Bool
  | .rx e _ =>
    match s.chan e.peer with
    | [] => true
    | f :: _ => !lastAttempt (s.conn e) f.pkt.hdr.ackId ||
        ((s.conn e.peer).lastReceived = f.pkt.hdr.ackId.id &&
          (s.chan e).all fun g => g.pkt.hdr.txId ≠ ⟨false, f.pkt.hdr.ackId.id + 1⟩)
  | _ => true

/-- The packets that an end has given up. -/
def gaveUp (log : List (Ev w β)) : List Nat :=
  ((confirmedItems log).filter (·.result ≠ .ok)).map (·.tag)

theorem gaveUp_mono {log log' : List (Ev w β)} (h : log <+: log') : gaveUp log <+: gaveUp log' := by
  obtain ⟨evs, rfl⟩ := h
  simp [gaveUp]

abbrev Reaches (mem : Side → β → List UInt8) (s₀ s : Pair cfg β) : Prop :=
  Reachable s₀ (step mem) (fun s a => timely s a = true) s

/-- What is known of a frame on its way: the packet it carries, with its place since the session began,
and how many packets its sender had received. -/
structure Mark (w : Wire) where
  num : Option (Nat × Delivery w)
  ack : Nat

structure Mark.Of (m : Mark w) (f : Frame w) : Prop where
  session : f.OfSession
  acks : f.pkt.hdr.ackId.id = wrap w.idBits m.ack
  bare : m.num = none → f.pkt.hdr.txId.flag = true ∧ f.carried = []
  data : ∀ p, m.num = some p → f.pkt.hdr.txId = ⟨false, wrap w.idBits (p.1 + 1)⟩ ∧ f.carried = [p.2]

/-- What the receiver of a packet is to get. -/
def handed (mem : β → List UInt8) (items : List (PacketQueueItem w β)) : List (Delivery w) :=
  (items.map (·.key)).map (·.delivery mem)

/-- The packets on their way of the frames so marked. -/
def flight (marks : List (Mark w)) : List (Nat × Delivery w) := marks.filterMap (·.num)

/-- One direction: the end `c` sends and `d` receives. -/
structure Line {cfg cfg' : Cfg w} (mem : β → List UInt8) (c : Conn cfg β)
    (q : SendQueue (PacketQueueItem w β)) (marks : List (Mark w)) (d : Conn cfg' β)
    (acks : List (Mark w)) : Prop where
  sound : Sound w.window (handed mem (okItems c.log)) (handed mem q.win) (deliveries d.log)
    (flight marks) (acks.map (·.ack))
  received : d.lastReceived = wrap w.idBits (deliveries d.log).length

/-- The two ends agree on the packets of the session. -/
structure Agreed (mem : Side → β → List UInt8) (s : Pair cfg β)
    (q : Side → SendQueue (PacketQueueItem w β)) (marks : Side → List (Mark w)) : Prop where
  up : ∀ e, Up (s.conn e) (q e)
  marked : ∀ e, List.Forall₂ Mark.Of (marks e) (s.chan e)
  lines : ∀ e f, e ≠ f → Line (mem e) (s.conn e) (q e) (marks e) (s.conn f) (marks f)

section Line

variable {cfg cfg' : Cfg w} {mem : β → List UInt8} {c c' : Conn cfg β} {d d' : Conn cfg' β}
  {q q' : SendQueue (PacketQueueItem w β)} {marks acks : List (Mark w)}

@[simp] theorem handed_append (l l' : List (PacketQueueItem w β)) :
    handed mem (l ++ l') = handed mem l ++ handed mem l' := by simp [handed]

theorem handed_congr {l l' : List (PacketQueueItem w β)} (h : l.map (·.key) = l'.map (·.key)) :
    handed mem l = handed mem l' := by rw [handed, h, handed]

@[simp] theorem flight_append (l l' : List (Mark w)) : flight (l ++ l') = flight l ++ flight l' :=
  List.filterMap_append

@[simp] theorem length_handed (l : List (PacketQueueItem w β)) :
    (handed mem l).length = l.length := by simp [handed]

/-- The sender takes a packet more into its window, or none. -/
theorem Line.push (h : Line mem c q marks d acks) (hok : okItems c'.log = okItems c.log)
    (hkeys : q'.win.map (·.key) = q.win.map (·.key) ∨
      ∃ k, q'.win.map (·.key) = q.win.map (·.key) ++ [k]) : Line mem c' q' marks d acks where
  sound := by
    rcases hkeys with hkeys | ⟨k, hkeys⟩
    · rw [hok, handed_congr hkeys]
      exact h.sound
    · have hwin : handed mem q'.win = handed mem q.win ++ [k.delivery mem] := by
        rw [handed, hkeys]
        simp [handed]
      rw [hok, hwin]
      exact h.sound.push _
  received := h.received

/-- The receiver takes no part in what its own application does. -/
theorem Line.rest (h : Line mem c q marks d acks) (hdel : deliveries d'.log = deliveries d.log)
    (hrecv : d'.lastReceived = d.lastReceived) : Line mem c q marks d' acks where
  sound := by
    rw [hdel]
    exact h.sound
  received := by rw [hrecv, hdel, h.received]

/-- The sender sends a frame. -/
theorem Line.send (h : Line mem c q marks d acks) (hq : Refines c q) (hok : okItems c'.log = okItems c.log)
    (hwin : q'.win = q.win) {m : Mark w}
    (hm : m.num = none ∨ ∃ it, q.win[q.sent]? = some it ∧
      m.num = some ((okItems c.log).length + q.sent, it.key.delivery mem)) :
    Line mem c' q' (marks ++ [m]) d acks where
  sound := by
    rw [hok, hwin, flight_append]
    rcases hm with hm | ⟨it, hit, hm⟩
    · simpa [flight, hm] using h.sound
    · have hroom := hq.room
      have hitem : (handed mem q.win)[q.sent]? = some (it.key.delivery mem) := by simp [handed, hit]
      have hsend := h.sound.send (by rw [length_handed]; omega) hitem
      rw [length_handed] at hsend
      simpa [flight, hm] using hsend
  received := h.received

/-- The receiver sends a frame, which says how much it has received. -/
theorem Line.say (h : Line mem c q marks d acks) (hdel : deliveries d'.log = deliveries d.log)
    (hrecv : d'.lastReceived = d.lastReceived) {m : Mark w} (hm : m.ack = (deliveries d.log).length) :
    Line mem c q marks d' (acks ++ [m]) where
  sound := by
    rw [hdel, List.map_append, List.map_singleton, hm]
    exact h.sound.say
  received := by rw [hrecv, hdel, h.received]

/-- Frames are lost. -/
theorem Line.lose (h : Line mem c q marks d acks) {marks' acks' : List (Mark w)}
    (hm : marks'.Sublist marks) (ha : acks'.Sublist acks) : Line mem c q marks' d acks' where
  sound := h.sound.lose (hm.filterMap _) (ha.map _)
  received := h.received

/-- What an ACK says is between what has been confirmed and what is queued. -/
theorem Line.near (h : Line mem c q marks d acks) (hup : Up c q) {k : Nat} (hk : k ∈ acks.map (·.ack)) :
    (wrap w.idBits k - c.lastAck).toNat = k - (okItems c.log).length ∧
      k - (okItems c.log).length ≤ q.win.length := by
  have hwithin := h.sound.acked k hk
  have hlen := h.sound.length_le
  have hroom := hup.refines.room
  have htwo := two_window_le w
  have hpos := window_pos w
  rw [length_handed] at hwithin hlen
  rw [length_handed] at hlen
  refine ⟨?_, by omega⟩
  rw [hup.refines.ack, ← hup.acked, sub_of_le hwithin.1 (by omega)]

/-- The sender takes in what the receiver has said, and gives up a packet only if it is gone. -/
theorem Line.ack {m : Mark w} (h : Line mem c q marks d (m :: acks)) (hup : Up c q) {f : Frame w}
    (hm : m.Of f) {n : Nat} (hr : Received c q f c' q' n)
    (htimely : lastAttempt c f.pkt.hdr.ackId = true →
      (deliveries d.log).length = m.ack ∧ ∀ p ∈ flight marks, p.1 ≠ m.ack) :
    Line mem c' q' marks d acks where
  sound := by
    have hwithin := h.sound.acked m.ack (by simp)
    have hmem : m.ack ∈ (m :: acks).map (·.ack) := by simp
    obtain ⟨hdist, hle⟩ := h.near hup hmem
    have hn : n = m.ack - (okItems c.log).length := by
      have hnear := hr.near
      rw [hm.acks, hdist] at hnear
      exact hnear hle
    have hacked := h.sound.ack (by simp : (m :: acks).map (·.ack) = m.ack :: acks.map (·.ack))
    rw [length_handed, ← hn] at hacked
    have hdone : handed mem (okItems c'.log) =
        handed mem (okItems c.log) ++ (handed mem q.win).take n := by
      rw [hr.acked, handed_append, List.map_take]
      simp [handed, Function.comp_def]
    have hrest : (handed mem q.win).drop n = handed mem (q.win.drop n) := by
      simp [handed, List.map_drop]
    rw [hrest, ← hdone] at hacked
    rcases hr.keys with hkeys | ⟨hlast, k, hkeys⟩
    · rw [handed_congr hkeys]
      exact hacked
    · obtain ⟨hgot, hgone⟩ := htimely hlast
      have hlen : (handed mem (okItems c'.log)).length = m.ack := by
        rw [length_handed] at hwithin
        rw [hdone, List.length_append, List.length_take, length_handed, length_handed]
        omega
      exact hacked.giveUp (hgot.trans hlen.symm) fun p hp => hlen ▸ hgone p hp
  received := h.received

/-- The receiver takes in a frame. -/
theorem Line.take {m : Mark w} (h : Line mem c q (m :: marks) d acks) {f : Frame w} (hm : m.Of f)
    (hgot : f.pkt.hdr.txId.flag = false ∧ f.pkt.hdr.txId.id = d.lastReceived + 1 ∧
        d'.lastReceived = f.pkt.hdr.txId.id ∧ deliveries d'.log = deliveries d.log ++ f.carried ∨
      d'.lastReceived = d.lastReceived ∧ deliveries d'.log = deliveries d.log) :
    Line mem c q marks d' acks := by
  rcases hgot with ⟨hflag, hid, hrecv, hdel⟩ | ⟨hrecv, hdel⟩
  · cases hnum : m.num with
    | none =>
      rw [(hm.bare hnum).1] at hflag
      cases hflag
    | some p =>
      obtain ⟨htx, hcarried⟩ := hm.data p hnum
      have hflight : flight (m :: marks) = p :: flight marks := by simp [flight, hnum]
      have hsound := h.sound
      rw [hflight] at hsound
      have hahead := hsound.ahead p List.mem_cons_self
      have hbehind := hsound.behind p List.mem_cons_self
      have hlen := hsound.length_le
      have htwo := two_window_le w
      have hpos := window_pos w
      have hplace : p.1 = (deliveries d.log).length := by
        rw [htx, h.received, wrap_add_one, wrap_inj (by omega) (by omega)] at hid
        omega
      have hp : p = ((deliveries d.log).length, p.2) := by rw [← hplace]
      rw [hcarried] at hdel
      refine ⟨?_, ?_⟩
      · rw [hdel]
        exact hsound.take (by rw [← hp])
      · rw [hrecv, htx, hdel, List.length_append, List.length_singleton, hplace]
  · exact (h.lose (List.sublist_cons_self m marks) (List.Sublist.refl _)).rest hdel hrecv

end Line

section Run

variable {mem : Side → β → List UInt8} {s s₀ s' : Pair cfg β}
  {q : Side → SendQueue (PacketQueueItem w β)} {marks : Side → List (Mark w)}

def Agreed.Holds (mem : Side → β → List UInt8) (s : Pair cfg β) : Prop := ∃ q marks, Agreed mem s q marks

theorem Agreed.of_ends {e f : Side} (hef : e ≠ f) (qe qf : SendQueue (PacketQueueItem w β))
    (me mf : List (Mark w)) (he : Up (s.conn e) qe) (hf : Up (s.conn f) qf)
    (hme : List.Forall₂ Mark.Of me (s.chan e)) (hmf : List.Forall₂ Mark.Of mf (s.chan f))
    (hout : Line (mem e) (s.conn e) qe me (s.conn f) mf)
    (hin : Line (mem f) (s.conn f) qf mf (s.conn e) me) : Agreed.Holds mem s := by
  refine ⟨Function.update (fun _ => qf) e qe, Function.update (fun _ => mf) e me, ?_, ?_, ?_⟩
  · intro x
    rcases Side.eq_or_eq hef x with rfl | rfl
    · simpa using he
    · simpa [Function.update_of_ne hef.symm] using hf
  · intro x
    rcases Side.eq_or_eq hef x with rfl | rfl
    · simpa using hme
    · simpa [Function.update_of_ne hef.symm] using hmf
  · intro x y hxy
    rcases Side.eq_or_eq hef x with rfl | rfl
    · obtain rfl : y = f := (Side.eq_or_eq hef y).resolve_left hxy.symm
      simpa [Function.update_of_ne hef.symm] using hout
    · obtain rfl : y = e := (Side.eq_or_eq hef y).resolve_right hxy.symm
      simpa [Function.update_of_ne hef.symm] using hin

theorem Fresh.up {cfg : Cfg w} {c : Conn cfg β} (h : Fresh c) : Up c .empty := by
  have hrefines : Refines c .empty := refines_empty h.lastAck h.lastQueued h.lastSent h.lastReported
  refine ⟨hrefines, rfl, h.connState, ?_, ?_, ?_, h.reportBusy, ?_, ?_, ?_, ?_, ?_, ?_⟩
  · rw [h.flags]
    rfl
  · rw [h.flags]
    rfl
  · rw [h.flags]
    rfl
  · rintro it ⟨⟩
  · rw [h.flags]
    rintro ⟨⟩
  · rw [h.accepted]
    exact tagged_nil.later rfl (Nat.zero_le _)
  · rw [h.accepted, confirmedKeys, h.confirmed]
    rfl
  · rw [h.confirmed]
    rintro it ⟨⟩
  · rw [okItems, h.confirmed]
    rfl

theorem Opening.agreed (h : Opening s) : Agreed.Holds mem s := by
  refine ⟨fun _ => .empty, fun _ => [], fun e => (h.fresh e).up, ?_, ?_⟩
  · intro e
    rw [h.empty e]
    exact .nil
  · intro e f _
    constructor
    · rw [okItems, (h.fresh e).confirmed, (h.fresh f).delivered]
      exact sound_nil
    · rw [(h.fresh f).lastReceived, (h.fresh f).delivered]
      rfl

theorem Agreed.call (h : Agreed mem s q marks) (e : Side) {a : Call w β} (ha : a.inSession = true)
    (due : Bool) : Agreed.Holds mem (after s e (a.run (s.conn e)) due) := by
  have hef : e ≠ e.peer := by cases e <;> simp [Side.peer]
  have hsent : (a.run (s.conn e)).sent = [] := by
    rw [Out.sent, run_frame _ (by rintro _ rfl; cases ha)]
    rfl
  obtain ⟨q', hup, hok, hdel, hrecv, hkeys⟩ : ∃ q', Up (a.run (s.conn e)).finish q' ∧
      okItems (a.run (s.conn e)).finish.log = okItems (s.conn e).log ∧
      deliveries (a.run (s.conn e)).finish.log = deliveries (s.conn e).log ∧
      (a.run (s.conn e)).finish.lastReceived = (s.conn e).lastReceived ∧
      (q'.win.map (·.key) = (q e).win.map (·.key) ∨
        ∃ k, q'.win.map (·.key) = (q e).win.map (·.key) ++ [k]) := by
    cases a with
    | enqueueData dstChan buf size ttl =>
      obtain ⟨q', hup, -, hrest⟩ := (h.up e).enqueueData dstChan buf size ttl
      exact ⟨q', hup, hrest⟩
    | sendUrgentData dstChan buf size =>
      obtain ⟨hup, hok, hdel, hrecv⟩ := (h.up e).sendUrgentData dstChan buf size
      exact ⟨q e, hup, hok, hdel, hrecv, .inl rfl⟩
    | _ => cases ha
  refine Agreed.of_ends hef q' (q e.peer) (marks e) (marks e.peer) ?_ ?_ ?_ ?_ ?_ ?_
  all_goals simp only [after, hsent, List.append_nil, Function.update_self, Function.update_of_ne hef.symm]
  · exact hup
  · exact h.up e.peer
  · exact h.marked e
  · exact h.marked e.peer
  · exact (h.lines e e.peer hef).push hok hkeys
  · exact (h.lines e.peer e hef.symm).rest hdel hrecv

theorem Agreed.tx (h : Agreed mem s q marks) (e : Side) (due : Bool) :
    Agreed.Holds mem (after s e (getPacketToSend (mem e) (s.conn e)) due) := by
  have hef : e ≠ e.peer := by cases e <;> simp [Side.peer]
  obtain ⟨q', f, hup, -, hwin, hok, hdel, hrecv, hsent, hsession, hack, hsends⟩ := (h.up e).send (mem e)
  have hline := h.lines e e.peer hef
  have hback := h.lines e.peer e hef.symm
  obtain ⟨m, hm, hnum, hmack⟩ : ∃ m : Mark w, m.Of f ∧
      (m.num = none ∨ ∃ it, (q e).win[(q e).sent]? = some it ∧
        m.num = some ((okItems (s.conn e).log).length + (q e).sent, it.key.delivery (mem e))) ∧
      m.ack = (deliveries (s.conn e).log).length := by
    have hacks := hack.trans hback.received
    rcases hsends with ⟨hflag, hbare⟩ | ⟨it, hit, hid, hdata⟩
    · exact ⟨⟨none, _⟩, ⟨hsession, hacks, fun _ => ⟨hflag, hbare⟩, by rintro p ⟨⟩⟩, .inl rfl, rfl⟩
    · refine ⟨⟨some ((q e).base + (q e).sent, it.key.delivery (mem e)), _⟩,
        ⟨hsession, hacks, by rintro ⟨⟩, ?_⟩, .inr ⟨it, hit, ?_⟩, rfl⟩
      · rintro p ⟨⟩
        exact ⟨hid, hdata⟩
      · rw [(h.up e).acked]
  refine Agreed.of_ends hef q' (q e.peer) (marks e ++ [m]) (marks e.peer)
    ?_ ?_ ?_ ?_ ?_ ?_
  all_goals simp only [after, hsent, Function.update_self, Function.update_of_ne hef.symm]
  · exact hup
  · exact h.up e.peer
  · exact List.rel_append (h.marked e) (.cons hm .nil)
  · exact h.marked e.peer
  · exact hline.send (h.up e).refines hok hwin hnum
  · exact hback.say hdel hrecv hmack

/-- What a NAK that is in time says of the packet it may give up. -/
theorem Agreed.in_time {tstamp : Nat} {e : Side} (h : Agreed mem s q marks) {f : Frame w}
    {rest : List (Frame w)} {m : Mark w} (hchan : s.chan e.peer = f :: rest) (hm : m.Of f)
    (hack : m.ack ∈ (marks e.peer).map (·.ack)) (ht : timely s (.rx e tstamp) = true)
    (hlast : lastAttempt (s.conn e) f.pkt.hdr.ackId = true) :
    (deliveries (s.conn e.peer).log).length = m.ack ∧ ∀ p ∈ flight (marks e), p.1 ≠ m.ack := by
  have hef : e ≠ e.peer := by cases e <;> simp [Side.peer]
  have hline := h.lines e e.peer hef
  have hlen := hline.sound.length_le
  have hacked := hline.sound.acked m.ack hack
  have hroom := (h.up e).refines.room
  have hpos := window_pos w
  have htwo := two_window_le w
  simp only [length_handed] at hlen hacked
  simp only [timely, hchan, hlast, Bool.not_true, Bool.false_or, Bool.and_eq_true, decide_eq_true_eq,
    List.all_eq_true] at ht
  obtain ⟨hrecv, hgone⟩ := ht
  constructor
  · rw [hm.acks, hline.received, wrap_inj (by omega) (by omega)] at hrecv
    exact hrecv
  · rintro p hp heq
    obtain ⟨m', hm', hnum⟩ := List.mem_filterMap.mp hp
    obtain ⟨g, hg, hof⟩ := forall₂_mem_left (h.marked e) hm'
    apply hgone g hg
    rw [(hof.data p hnum).1, hm.acks, wrap_add_one, heq]

theorem Agreed.step (h : Agreed mem s q marks) {a : Pair.Move w β} (ht : timely s a = true)
    (hs : step mem s a = some s') : Agreed.Holds mem s' := by
  cases a with
  | call e a =>
    simp only [Peers.step, Option.ite_none_right_eq_some, Option.some.injEq] at hs
    obtain ⟨ha, rfl⟩ := hs
    exact h.call e ha _
  | tx e =>
    cases hs
    exact h.tx e _
  | rx e tstamp =>
    simp only [Peers.step] at hs
    split at hs
    · cases hs
    next f rest hchan =>
    cases hs
    have hef : e ≠ e.peer := by cases e <;> simp [Side.peer]
    have hmarked := h.marked e.peer
    have hout := h.lines e e.peer hef
    have hin := h.lines e.peer e hef.symm
    have htime := fun m hm hack => h.in_time (m := m) hchan hm hack ht
    rw [hchan] at hmarked
    generalize marks e.peer = ms at hmarked hout hin htime
    cases hmarked with
    | @cons m _ ms' _ hm hms =>
    obtain ⟨q', n, hr⟩ := (h.up e).receive hm.session tstamp
    have hsent : (Ludlc.receive (s.conn e) f.pkt f.size tstamp).sent = [] := by simp [Out.sent, Ludlc.receive]
    refine Agreed.of_ends hef q' (q e.peer) (marks e) ms' ?_ ?_ ?_ ?_ ?_ ?_
    all_goals simp only [after, hsent, List.append_nil, Function.update_self,
      Function.update_of_ne hef, Function.update_of_ne hef.symm]
    · exact hr.up
    · exact h.up e.peer
    · exact h.marked e
    · exact hms
    · exact hout.ack (h.up e) hm hr (htime m hm (by simp))
    · exact hin.take hm hr.got
  | drop e i =>
    cases hs
    have hef : e ≠ e.peer := by cases e <;> simp [Side.peer]
    have hsub : ((marks e).eraseIdx i).Sublist (marks e) := List.eraseIdx_sublist _ i
    refine Agreed.of_ends hef (q e) (q e.peer) ((marks e).eraseIdx i) (marks e.peer)
      (h.up e) (h.up e.peer) ?_ ?_ ?_ ?_
    all_goals simp only [Function.update_self, Function.update_of_ne hef.symm]
    · exact forall₂_eraseIdx (h.marked e) i
    · exact h.marked e.peer
    · exact (h.lines e e.peer hef).lose hsub (List.Sublist.refl _)
    · exact (h.lines e.peer e hef.symm).lose (List.Sublist.refl _) hsub

theorem agreed (h₀ : Opening s₀) (h : Reaches mem s₀ s) : Agreed.Holds mem s :=
  h.invariant h₀.agreed fun ⟨_, _, hi⟩ ht hs => hi.step ht hs

theorem after_log (s : Pair cfg β) (x : Side) (a : Call w β) (due : Bool) (e : Side) :
    (s.conn e).log <+: ((after s x (a.run (s.conn x)) due).conn e).log := by
  rcases eq_or_ne e x with rfl | hne
  · simp only [after, Function.update_self]
    exact finish_log (s.conn e) a
  · simp only [after, Function.update_of_ne hne]
    exact List.prefix_refl _

theorem step_log {a : Pair.Move w β} (hs : step mem s a = some s') (e : Side) :
    (s.conn e).log <+: (s'.conn e).log := by
  cases a with
  | call x a =>
    simp only [Peers.step, Option.ite_none_right_eq_some, Option.some.injEq] at hs
    obtain ⟨-, rfl⟩ := hs
    exact after_log s x a _ e
  | tx x =>
    cases hs
    exact after_log s x (.getPacketToSend (mem x)) _ e
  | rx x tstamp =>
    simp only [Peers.step] at hs
    split at hs
    · cases hs
    next f rest _ =>
      cases hs
      exact after_log { s with chan := Function.update s.chan x.peer rest } x
        (.receive f.pkt f.size tstamp) _ e
  | drop x i =>
    cases hs
    exact List.prefix_refl _

/-- A NAK that is not in time gives a packet up. -/
theorem Agreed.late (h : Agreed mem s q marks) {a : Pair.Move w β} (ht : timely s a = false)
    (hs : Peers.step mem s a = some s') : ∃ e, gaveUp (s'.conn e).log ≠ [] := by
  cases a with
  | rx e tstamp =>
    simp only [Peers.step] at hs
    split at hs
    · cases hs
    next f rest hchan =>
    cases hs
    have hmarked := h.marked e.peer
    rw [hchan] at hmarked
    obtain ⟨m, hm⟩ : ∃ m : Mark w, m.Of f := by
      generalize marks e.peer = ms at hmarked
      cases hmarked with
      | cons hm _ => exact ⟨_, hm⟩
    obtain ⟨q', n, hr⟩ := (h.up e).receive hm.session tstamp
    have hlast : lastAttempt (s.conn e) f.pkt.hdr.ackId = true := by
      simp only [timely, hchan, Bool.or_eq_false_iff, Bool.not_eq_false'] at ht
      exact ht.1
    obtain ⟨it, hit, hbad⟩ := hr.gave hlast
    refine ⟨e, List.ne_nil_of_mem (a := it.tag) ?_⟩
    simp only [after, Function.update_self]
    exact List.mem_map_of_mem (List.mem_filter.mpr ⟨hit, by simp [hbad]⟩)
  | _ => cases ht

/-- While no packet is given up, every NAK is in time. -/
theorem Reaches.of_kept (h₀ : Opening s₀) (h : Reachable s₀ (Peers.step mem) (fun _ _ => True) s)
    (hkept : ∀ e, gaveUp (s.conn e).log = []) : Reaches mem s₀ s := by
  induction h with
  | init => exact .init
  | @step s s' a _ _ hs ih =>
    have hbefore : ∀ e, gaveUp (s.conn e).log = [] := by
      intro e
      have hgrow := gaveUp_mono (step_log hs e)
      rw [hkept e] at hgrow
      exact List.prefix_nil.mp hgrow
    have hrun := ih hbefore
    obtain ⟨q, marks, hagreed⟩ := agreed h₀ hrun
    refine .step hrun ?_ hs
    by_contra hlate
    obtain ⟨e, hgave⟩ := hagreed.late (Bool.eq_false_iff.mpr hlate) hs
    exact hgave (hkept e)

end Run

/-- Two ends with a window of two, as the handshake leaves them. -/
def opened : Pair (fun _ => Cfg.ofBuild (.ofWindow 1 one_lt_idBits) false 1 Nat.one_pos) UInt8 :=
  (exec (Pair.step fun _ b => [b]) (Pair.init _ UInt8) Pair.handshake).getD (Pair.init _ UInt8)

theorem opening_opened : Opening opened := by
  have hfresh : Fresh (opened.conn .left) ∧ Fresh (opened.conn .right) := by decide +kernel
  have hempty : (opened.chan .left).isEmpty ∧ (opened.chan .right).isEmpty := by decide +kernel
  constructor
  · rintro (_ | _)
    · exact hfresh.1
    · exact hfresh.2
  · rintro (_ | _)
    · exact List.isEmpty_iff.mp hempty.1
    · exact List.isEmpty_iff.mp hempty.2

/-- The first of two packets is lost and given up, and the second sent again under its number. -/
theorem opened_gives_up : ∃ s, Reaches (fun _ b => [b]) opened s ∧
    (confirmedItems (s.conn .left).log).map (·.result) = [.etimedout, .ok] := by
  obtain ⟨s, hs, hresults⟩ := Reachable.of_exec opened (step fun _ b => [b]) timely
    [.call .left (.enqueueData 1 (some 7) 1 1), .call .left (.enqueueData 1 (some 8) 1 3), .tx .left,
      .tx .left, .drop .left 0, .rx .right 0, .tx .right, .rx .left 0, .tx .left, .rx .right 0, .tx .right,
      .rx .left 0]
    (fun s => (confirmedItems (s.conn .left).log).map (·.result) = [.etimedout, .ok])
    (by decide +kernel) (by decide +kernel)
  exact ⟨s, hs, of_decide_eq_true hresults⟩

section Told

variable {mem : Side → β → List UInt8} {s s₀ : Pair cfg β}

section End

variable {cfg : Cfg w} {c : Conn cfg β} {q : SendQueue (PacketQueueItem w β)} {mem : β → List UInt8}

theorem keys_sorted (h : Up c q) : (confirmedKeys c.log ++ q.win.map (·.key)).Pairwise (·.tag < ·.tag) := by
  rw [← h.keys]
  exact h.tagged.tags

/-- A packet is confirmed once. -/
theorem confirmed_inj (h : Up c q) {it it' : PacketQueueItem w β} (hit : it ∈ confirmedItems c.log)
    (hit' : it' ∈ confirmedItems c.log) (htag : it.tag = it'.tag) : it = it' := by
  have hsorted := (List.pairwise_append.mp (keys_sorted h)).1
  rw [confirmedKeys, List.pairwise_map] at hsorted
  have hnodup : ((confirmedItems c.log).map (·.tag)).Nodup := by
    apply List.Pairwise.imp Nat.ne_of_lt
    rw [List.pairwise_map]
    exact hsorted
  exact List.inj_on_of_nodup_map hnodup hit hit' htag

/-- What has been accepted and not given up is what has been confirmed with 0 and the window behind it. -/
theorem handed_kept (h : Up c q) :
    ((acceptedKeys c.log).filter fun k => k.tag ∉ gaveUp c.log).map (·.delivery mem) =
      handed mem (okItems c.log) ++ handed mem q.win := by
  have hsorted := List.pairwise_append.mp (keys_sorted h)
  have hok : (confirmedKeys c.log).filter (fun k => k.tag ∉ gaveUp c.log) =
      (okItems c.log).map (·.key) := by
    rw [confirmedKeys, List.filter_map, okItems]
    congr 1
    apply List.filter_congr
    intro it hit
    have hgave : it.tag ∈ gaveUp c.log ↔ it.result ≠ .ok := by
      constructor
      · intro hmem
        obtain ⟨it', hit', htag⟩ := List.mem_map.mp hmem
        obtain ⟨hconf, hbad⟩ := List.mem_filter.mp hit'
        rw [← confirmed_inj h hconf hit htag]
        exact of_decide_eq_true hbad
      · intro hbad
        exact List.mem_map_of_mem (List.mem_filter.mpr ⟨hit, decide_eq_true hbad⟩)
    simp only [Function.comp_apply, PacketQueueItem.key, hgave, ne_eq, not_not]
  have hwin : (q.win.map (·.key)).filter (fun k => k.tag ∉ gaveUp c.log) = q.win.map (·.key) := by
    rw [List.filter_eq_self]
    intro k hk
    apply decide_eq_true
    intro hmem
    obtain ⟨it, hit, htag⟩ := List.mem_map.mp hmem
    have hlt := hsorted.2.2 it.key (List.mem_map_of_mem (List.mem_of_mem_filter hit)) k hk
    exact absurd htag hlt.ne
  rw [h.keys, List.filter_append, hok, hwin, List.map_append, handed, handed]

theorem handed_sorted (h : Up c q) (mem : β → List UInt8) :
    (handed mem (okItems c.log) ++ handed mem q.win).Pairwise (·.tag < ·.tag) := by
  rw [← handed_kept h, List.pairwise_map]
  exact h.tagged.tags.filter _

end End

theorem filter_tag {l : List (Delivery w)} (h : l.Pairwise (·.tag < ·.tag)) {x : Delivery w}
    (hx : x ∈ l) : l.filter (·.tag = x.tag) = [x] := by
  induction l with
  | nil => cases hx
  | cons y l ih =>
    obtain ⟨hy, hrest⟩ := List.pairwise_cons.mp h
    rcases List.mem_cons.mp hx with rfl | hx
    · rw [List.filter_cons_of_pos (by simp), List.cons.injEq, List.filter_eq_nil_iff]
      exact ⟨rfl, fun z hz => by simpa using (hy z hz).ne'⟩
    · rw [List.filter_cons_of_neg (by simpa using (hy x hx).ne)]
      exact ih hrest hx

/-- A packet is reported with 0 if the peer's `on_recv` has got it, which it has then once, and with
`-ETIMEDOUT` if it has not and never will. -/
theorem confirmed_true (h₀ : Opening s₀) (h : Reaches mem s₀ s) (e : Side) {it : PacketQueueItem w β}
    (hit : it ∈ confirmedItems (s.conn e).log) :
    it.result = .ok ∧
        (deliveries (s.conn e.peer).log).filter (·.tag = it.tag) = [it.key.delivery (mem e)] ∨
      it.result = .etimedout ∧ (deliveries (s.conn e.peer).log).filter (·.tag = it.tag) = [] := by
  have hef : e ≠ e.peer := by cases e <;> simp [Side.peer]
  obtain ⟨q, marks, hagreed⟩ := agreed h₀ h
  have hup := hagreed.up e
  have hsound := (hagreed.lines e e.peer hef).sound
  have hsorted := (handed_sorted hup (mem e)).sublist hsound.known.sublist
  rcases hup.results it hit with hok | hbad
  · have hmem : it.key.delivery (mem e) ∈ deliveries (s.conn e.peer).log := by
      apply hsound.held.subset
      apply List.mem_map_of_mem
      apply List.mem_map_of_mem
      exact List.mem_filter.mpr ⟨hit, decide_eq_true hok⟩
    exact .inl ⟨hok, filter_tag hsorted hmem⟩
  · refine .inr ⟨hbad, ?_⟩
    rw [List.filter_eq_nil_iff]
    intro k hk htag
    have hkept := hsound.known.subset hk
    rw [← handed_kept hup] at hkept
    obtain ⟨k', hk', rfl⟩ := List.mem_map.mp hkept
    have hgave : it.tag ∈ gaveUp (s.conn e).log :=
      List.mem_map_of_mem (List.mem_filter.mpr ⟨hit, by simp [hbad]⟩)
    have hnot := of_decide_eq_true (List.mem_filter.mp hk').2
    apply hnot
    rw [show k'.tag = it.tag from of_decide_eq_true htag]
    exact hgave

theorem confirmed_true_opened : ∃ s, Reaches (fun _ b => [b]) opened s ∧
    (confirmedItems (s.conn .left).log).map (·.result) = [.etimedout, .ok] ∧
    ∀ it ∈ confirmedItems (s.conn .left).log,
      it.result = .ok ∧
          (deliveries (s.conn .right).log).filter (·.tag = it.tag) = [it.key.delivery fun b => [b]] ∨
        it.result = .etimedout ∧ (deliveries (s.conn .right).log).filter (·.tag = it.tag) = [] := by
  obtain ⟨s, hs, hresults⟩ := opened_gives_up
  exact ⟨s, hs, hresults, fun it hit => confirmed_true opening_opened hs .left hit⟩

/-- An end sends when a TX round is pending, and otherwise only while nothing goes on. -/
def prompt (s : Pair cfg β) : Pair.Move w β → Bool
  | .tx e => s.due e ||
      !s.due e.peer && (s.chan .left).isEmpty && (s.chan .right).isEmpty
  | _ => true

/-- A keep-alive repeats a NAK that has been taken, the next pass makes the receiver repeat it again, and the
sender gives up two packets for the two: the second has arrived. -/
theorem opened_told_wrong : ∃ s, Reachable opened (step fun _ b => [b]) (fun s a => prompt s a = true) s ∧
    ∃ it ∈ confirmedItems (s.conn .left).log, it.result = .etimedout ∧
      ∃ k ∈ deliveries (s.conn .right).log, k.tag = it.tag := by
  obtain ⟨s, hs, hwrong⟩ := Reachable.of_exec opened (step fun _ b => [b]) prompt
    [.call .left (.enqueueData 1 (some 7) 1 1), .call .left (.enqueueData 1 (some 8) 1 1), .tx .left,
      .tx .left, .drop .left 0, .rx .right 0, .tx .right, .rx .left 0, .tx .left, .drop .left 0, .tx .right,
      .call .left (.enqueueData 1 (some 9) 1 1), .tx .left, .rx .right 0, .tx .right, .rx .left 0, .tx .left,
      .rx .right 0, .rx .left 0]
    (fun s => ∃ it ∈ confirmedItems (s.conn .left).log, it.result = .etimedout ∧
      ∃ k ∈ deliveries (s.conn .right).log, k.tag = it.tag)
    (by decide +kernel) (by decide +kernel)
  exact ⟨s, hs, of_decide_eq_true hwrong⟩

/-- Where two ends agree, an end has got the first of what its peer has sent and not given up. -/
theorem Agreed.got (h : Agreed mem s q marks) (e : Side) :
    deliveries (s.conn e.peer).log <+:
      ((acceptedKeys (s.conn e).log).filter fun k => k.tag ∉ gaveUp (s.conn e).log).map
        (·.delivery (mem e)) := by
  have hef : e ≠ e.peer := by cases e <;> simp [Side.peer]
  rw [handed_kept (h.up e)]
  exact (h.lines e e.peer hef).sound.known

theorem Agreed.counts (h : Agreed mem s q marks) (e : Side) :
    (deliveries (s.conn e.peer).log).length =
        (okItems (s.conn e).log).length + ((s.conn e.peer).lastReceived - (s.conn e).lastAck).toNat ∧
      ((s.conn e.peer).lastReceived - (s.conn e).lastAck).toNat ≤
        ((s.conn e).lastQueued - (s.conn e).lastAck).toNat := by
  have hef : e ≠ e.peer := by cases e <;> simp [Side.peer]
  have hup := h.up e
  have hline := h.lines e e.peer hef
  have hlen := hline.sound.length_le
  simp only [length_handed] at hlen
  have hroom := hup.refines.room
  have htwo := two_window_le w
  have hpos := window_pos w
  have hqueued : ((s.conn e).lastQueued - (s.conn e).lastAck).toNat = (q e).win.length := by
    rw [hup.refines.queued, hup.refines.ack, sub_of_le (by omega) (by omega)]
    omega
  have hreceived : ((s.conn e.peer).lastReceived - (s.conn e).lastAck).toNat =
      (deliveries (s.conn e.peer).log).length - (okItems (s.conn e).log).length := by
    rw [hline.received, hup.refines.ack, ← hup.acked, sub_of_le (by omega) (by omega)]
  constructor
  · omega
  · omega

/-- What an end has got is the first of what its peer has accepted and not given up, without a gap and at
least as far as it has been confirmed. Its `last_received` tells how far: that much ahead of the peer's
`last_ack`, and not past its `last_queued`. -/
theorem received_known (h₀ : Opening s₀) (h : Reaches mem s₀ s) (e : Side) :
    deliveries (s.conn e.peer).log <+:
        ((acceptedKeys (s.conn e).log).filter fun k => k.tag ∉ gaveUp (s.conn e).log).map
          (·.delivery (mem e)) ∧
      (deliveries (s.conn e.peer).log).length =
        (okItems (s.conn e).log).length + ((s.conn e.peer).lastReceived - (s.conn e).lastAck).toNat ∧
      ((s.conn e.peer).lastReceived - (s.conn e).lastAck).toNat ≤
        ((s.conn e).lastQueued - (s.conn e).lastAck).toNat := by
  obtain ⟨q, marks, hagreed⟩ := agreed h₀ h
  exact ⟨hagreed.got e, hagreed.counts e⟩

theorem received_known_opened : ∃ s, Reaches (fun _ b => [b]) opened s ∧
    (okItems (s.conn .left).log).length ≤ (deliveries (s.conn .right).log).length ∧
    deliveries (s.conn .right).log <+:
      ((acceptedKeys (s.conn .left).log).filter fun k => k.tag ∉ gaveUp (s.conn .left).log).map
        (·.delivery fun b => [b]) := by
  obtain ⟨s, hs, -⟩ := opened_gives_up
  obtain ⟨hfront, hlen, -⟩ := received_known opening_opened hs .left
  exact ⟨s, hs, hlen.ge.trans' (Nat.le_add_right _ _), hfront⟩

/-- However the ends are scheduled and whatever is lost, as long as neither has given a packet up an end has
got the first packets that its peer accepted, each once and in order, and all that it has confirmed. -/
theorem kept_all (h₀ : Opening s₀) (h : Reachable s₀ (step mem) (fun _ _ => True) s)
    (hkept : ∀ e, gaveUp (s.conn e).log = []) (e : Side) :
    deliveries (s.conn e.peer).log <+: (acceptedKeys (s.conn e).log).map (·.delivery (mem e)) ∧
      (confirmedItems (s.conn e).log).length ≤ (deliveries (s.conn e.peer).log).length := by
  obtain ⟨q, marks, hagreed⟩ := agreed h₀ (Reaches.of_kept h₀ h hkept)
  have hfront := hagreed.got e
  have hlen := (hagreed.counts e).1
  have hall : (confirmedItems (s.conn e).log).filter (·.result ≠ .ok) = [] :=
    List.map_eq_nil_iff.mp (hkept e)
  have hok : okItems (s.conn e).log = confirmedItems (s.conn e).log := by
    rw [okItems, List.filter_eq_self]
    intro it hit
    have hgood := List.filter_eq_nil_iff.mp hall it hit
    simpa using hgood
  constructor
  · simpa [hkept e] using hfront
  · rw [hlen, hok]
    exact Nat.le_add_right _ _

theorem kept_all_opened : ∃ s, (deliveries (s.conn .right).log).length = 2 ∧
    Reachable opened (step fun _ b => [b]) (fun _ _ => True) s ∧
    deliveries (s.conn .right).log <+: (acceptedKeys (s.conn .left).log).map (·.delivery fun b => [b]) := by
  obtain ⟨s, hs, hall⟩ := Reachable.of_exec opened (step fun _ b => [b]) (fun _ _ => true)
    [.call .left (.enqueueData 1 (some 7) 1 3), .call .left (.enqueueData 1 (some 8) 1 3), .tx .left,
      .tx .left, .drop .left 0, .rx .right 0, .tx .right, .rx .left 0, .tx .left, .tx .left, .rx .right 0,
      .rx .right 0]
    (fun s => (deliveries (s.conn .right).log).length = 2 ∧ gaveUp (s.conn .left).log = [] ∧
      gaveUp (s.conn .right).log = []) (by decide +kernel) (by decide +kernel)
  obtain ⟨hlen, hleft, hright⟩ := of_decide_eq_true hall
  have hrun : Reachable opened (step fun _ b => [b]) (fun _ _ => True) s := hs.mono fun _ _ _ => trivial
  refine ⟨s, hlen, hrun, (kept_all opening_opened hrun ?_ .left).1⟩
  rintro (_ | _)
  · exact hleft
  · exact hright

end Told

end Peers

end Ludlc
