import Ludlc.Pair

/-! # Packets arrive in order and once

The numbered packets passed to one end's `on_recv` are among those the other end accepted, in that
order and each at most once, however the ends are scheduled, whatever is lost and however often either
of them starts again.

A packet in the window keeps its place behind those before it while its number may only fall. So a
frame sent later either carries a later packet or a number at most a window behind, and no such
number is the one the receiver waits for.
-/

namespace Ludlc

open SeqNum Runs

variable {w : Wire} {β : Type}

/-- What the sender knows of a frame: for a handshake step, since when it has been starting again, as
a length of its history; for a numbered packet, its number without the wrap and its tag. -/
inductive Stamp
  | step (since : Nat)
  | data (num tag : Nat)
  | other

/-- A frame with stamp `x` is sent before one with stamp `y`. -/
def Stamp.Before (w : Wire) : Stamp → Stamp → Prop
  | .data num tag, .data num' tag' => tag < tag' ∨ num' ≤ num ∧ num < num' + w.window
  | .data _ tag, .step since => tag < since
  | .step since, .data _ tag => since ≤ tag
  | .step since, .step since' => since ≤ since'
  | _, _ => True

/-- A frame has the stamp. -/
def Stamp.Of (mem : β → List UInt8) (log : List (Ev w β)) (f : Frame w) : Stamp → Prop
  | .step _ => f.pkt.src = none ∧ isHshake f.pkt = true
  | .data num tag => isHshake f.pkt = false ∧ f.pkt.hdr.txId = ⟨false, wrap w.idBits num⟩ ∧
      f.pkt.src = some tag ∧ ∃ k ∈ acceptedKeys log,
        k.delivery mem = ⟨tag, f.pkt.hdr.chan, f.pkt.payload, f.size - w.hdrSz⟩
  | .other => f.pkt.src = none ∧ f.pkt.hdr.txId.flag = true

variable {cfg : Cfg w} {c c' : Conn cfg β} {q q' : SendQueue (PacketQueueItem w β)} {since : Nat}

/-- The sender's window, `since` telling when it last started again. -/
structure Sender (c : Conn cfg β) (q : SendQueue (PacketQueueItem w β)) (since : Nat) : Prop where
  inv : Inline.Inv c [] q
  born : ∀ it ∈ q.win, since ≤ it.tag ∧ isCtrlChan it.chan = false
  past : since ≤ c.log.length

/-- A frame with stamp `x` was sent before all that the sender still has to send. -/
def Stamp.Behind (c : Conn cfg β) (q : SendQueue (PacketQueueItem w β)) (since : Nat) : Stamp → Prop
  | .step since' => since' ≤ since
  | .data num tag => tag < c.log.length ∧ (tag < since ∨ c.connState = .connected ∧
      num ≤ q.base + w.window ∧
      ∀ j, (h : j < q.win.length) → q.win[j].tag ≤ tag → q.base + 1 + j ≤ num)
  | .other => True

section Sender

/-- A call at the sender leaves what was sent behind what is to be sent. -/
theorem Sender.onward (h : Sender c q since) (hinv : Inline.Inv c' [] q')
    (hon : Inline.Onward c q c' q') (hlen : c.log.length ≤ c'.log.length) :
    ∃ since', Sender c' q' since' ∧ ∀ x, Stamp.Behind c q since x → Stamp.Behind c' q' since' x := by
  cases hon with
  | kept hshift hup =>
    refine ⟨since, ⟨hinv, ?_, h.past.trans hlen⟩, ?_⟩
    · intro it hit
      obtain ⟨j, hj, rfl⟩ := List.getElem_of_mem hit
      rcases hshift.items j hj with ⟨hnew, hchan⟩ | ⟨i, hi, hkey, -⟩
      · exact ⟨h.past.trans hnew, hchan⟩
      · have htag : q.win[i].tag = q'.win[j].tag := congrArg Key.tag hkey
        have hchan : q.win[i].chan = q'.win[j].chan := congrArg Key.chan hkey
        rw [← htag, ← hchan]
        exact h.born _ (List.getElem_mem hi)
    · intro x hx
      cases x with
      | step => exact hx
      | other => trivial
      | data num tag =>
        obtain ⟨hold, hplace⟩ := hx
        refine ⟨hold.trans_le hlen, hplace.imp id ?_⟩
        rintro ⟨hc, hnum, hitems⟩
        have hbase := hshift.base
        refine ⟨hup hc, by omega, fun j hj hle => ?_⟩
        rcases hshift.items j hj with ⟨hnew, -⟩ | ⟨i, hi, hkey, hmove⟩
        · omega
        · have htag : q.win[i].tag = q'.win[j].tag := congrArg Key.tag hkey
          have := hitems i hi (htag ▸ hle)
          omega
  | ended hnil =>
    refine ⟨c.log.length, ⟨hinv, by simp [hnil], hlen⟩, ?_⟩
    intro x hx
    cases x with
    | step => exact hx.trans h.past
    | other => trivial
    | data num tag => exact ⟨hx.1.trans_le hlen, .inl hx.1⟩

/-- The packets of the window are in the order in which they were accepted. -/
theorem Sender.sorted (h : Sender c q since) : q.win.Pairwise (·.tag < ·.tag) := by
  have htags := h.inv.ledger.tags
  rw [h.inv.ledger.keys, List.nil_append] at htags
  have hwin := (List.pairwise_append.mp htags).2.1
  rw [List.pairwise_map] at hwin
  exact hwin

theorem Sender.accepted (h : Sender c q since) {it : PacketQueueItem w β} (hit : it ∈ q.win) :
    it.key ∈ acceptedKeys c.log := by
  rw [h.inv.ledger.keys]
  exact List.mem_append_right _ (List.mem_map_of_mem hit)

theorem Sender.send (h : Sender c q since) (mem : β → List UInt8) {f : Frame w}
    (hf : Sends mem c f) : ∃ y : Stamp, y.Of mem c.log f ∧
      (∀ x, Stamp.Behind c q since x → x.Before w y) ∧ Stamp.Behind c q since y := by
  cases hf with
  | hshake hdown hsrc hchan =>
    cases hflag : f.pkt.hdr.txId.flag with
    | true =>
      refine ⟨.other, ⟨hsrc, hflag⟩, fun x _ => ?_, trivial⟩
      cases x <;> trivial
    | false =>
      refine ⟨.step since, ⟨hsrc, by simp [isHshake, hflag, hchan]⟩, ?_, le_refl _⟩
      intro x hx
      cases x with
      | step => exact hx
      | other => trivial
      | data num tag =>
        rcases hx.2 with hold | ⟨hc, -⟩
        · exact hold
        · exact absurd hc hdown
  | unnumbered hsrc hflag =>
    refine ⟨.other, ⟨hsrc, hflag⟩, fun x _ => ?_, trivial⟩
    cases x <;> trivial
  | data it hnum hit hid hsrc hdata =>
    obtain ⟨hlt, hslot⟩ := (getPacketToSend_refines mem h.inv.refines fun _ => h.inv.isOpen).2 hnum
    rw [← hit] at hslot
    have hmem : it ∈ q.win := hslot ▸ List.getElem_mem hlt
    have hborn := h.born it hmem
    have hkey := h.accepted hmem
    have hsent := (h.inv.refines.sent h.inv.isOpen).1
    have hroom := h.inv.refines.room
    have hsorted := List.pairwise_iff_getElem.mp h.sorted
    have hconn : c.connState = .connected := by
      simp only [txNumbered, Bool.and_eq_true, decide_eq_true_eq] at hnum
      exact hnum.1.1
    refine ⟨.data (q.base + q.sent + 1) it.tag, ⟨?_, ?_, hsrc, it.key, hkey, hdata⟩, ?_, ?_⟩
    · have hchan : f.pkt.hdr.chan = it.chan := (congrArg Delivery.chan hdata).symm
      have hctrl : isCtrlChan w.controlChannel = true := decide_eq_true w.tag_ok.2
      have hne : it.chan ≠ w.controlChannel := by
        intro heq
        rw [heq, hctrl] at hborn
        cases hborn.2
      simp [isHshake, hchan, hne]
    · rw [hid, hsent, wrap_add_one]
    · intro x hx
      cases x with
      | step => exact hx.trans hborn.1
      | other => trivial
      | data num tag =>
        by_cases hnew : tag < it.tag
        · exact .inl hnew
        · right
          rcases hx.2 with hold | ⟨-, hnum, hitems⟩
          · have := hborn.1
            omega
          · have := hitems q.sent hlt (hslot ▸ Nat.not_lt.mp hnew)
            omega
    · refine ⟨h.inv.ledger.fresh _ hkey, .inr ⟨hconn, by omega, fun j hj hle => ?_⟩⟩
      by_contra hfar
      have := hsorted q.sent j hlt hj (by omega)
      rw [hslot] at hle
      omega

end Sender

/-- The receiver's place: what it has taken of the peer's packets is before the frames with a stamp
that `x` is before. A link that is down has heard no handshake step since it took `x`. -/
def Stamp.Heard {cfg : Cfg w} (d : Conn cfg β) : Stamp → Prop
  | .step since => ∀ k ∈ deliveries d.log, k.tag < since
  | .data num tag => (∀ k ∈ deliveries d.log, k.tag ≤ tag) ∧
      (d.connState = .disconnected ∨
        d.connState = .connected ∧ d.lastReceived = wrap w.idBits num)
  | .other => False

section Receiver

variable {cfg : Cfg w} {d d' : Conn cfg β} {x y : Stamp}

theorem Stamp.Heard.rests (h : x.Heard d) (hd : Rests d d')
    (hdel : deliveries d'.log = deliveries d.log) : x.Heard d' := by
  cases x with
  | other => exact h
  | step since =>
    intro k hk
    rw [hdel] at hk
    exact h k hk
  | data num tag =>
    refine ⟨hdel ▸ h.1, ?_⟩
    rcases hd with hdown | ⟨hstate, hrecv⟩
    · exact .inl hdown
    · rw [hstate, hrecv]
      exact h.2

/-- A frame is passed over, or it is the receiver's place from then on. What is passed to `on_recv` is
later than all before. -/
theorem Stamp.Heard.takes {mem : β → List UInt8} {log : List (Ev w β)} {f : Frame w}
    (h : x.Heard d) (hy : y.Of mem log f) (hxy : x.Before w y) (ht : Takes d f d') :
    (x.Heard d' ∨ y.Heard d') ∧ (deliveries d'.log = deliveries d.log ∨
      ∃ k ∈ acceptedKeys log, deliveries d'.log = deliveries d.log ++ [k.delivery mem] ∧
        ∀ k' ∈ deliveries d.log, k'.tag < k.tag) := by
  cases ht with
  | away hdown hdel => exact ⟨.inl (h.rests (.inl hdown) hdel), .inl hdel⟩
  | still hstate hrecv hdel => exact ⟨.inl (h.rests (.inr ⟨hstate, hrecv⟩) hdel), .inl hdel⟩
  | hshake hne hs hdel =>
    refine ⟨?_, .inl hdel⟩
    cases y with
    | other => simp [isHshake, hy.2] at hs
    | data => simp [hy.1] at hs
    | step since =>
      right
      intro k hk
      rw [hdel] at hk
      cases x with
      | other => exact h.elim
      | step since' => exact (h k hk).trans_le hxy
      | data num tag => exact (h.1 k hk).trans_lt hxy
  | opened hwait hdel =>
    refine ⟨.inl ?_, .inl hdel⟩
    cases x with
    | other => exact h
    | step since =>
      intro k hk
      rw [hdel] at hk
      exact h k hk
    | data =>
      rcases h.2 with hdown | ⟨hconn, -⟩
      · rw [hwait] at hdown
        cases hdown
      · rw [hwait] at hconn
        cases hconn
  | next hwas hflag hs hid hconn hrecv hdel =>
    cases y with
    | other => simp [hy.2] at hflag
    | step => simp [hy.2] at hs
    | data num tag =>
      obtain ⟨-, htx, hsrc, k, hk, hdata⟩ := hy
      rw [htx] at hid hrecv
      have hdel : deliveries d'.log = deliveries d.log ++ [k.delivery mem] := by
        rw [hdel, hsrc, hdata]
        rfl
      have htag : k.tag = tag := congrArg Delivery.tag hdata
      have hlater : ∀ k' ∈ deliveries d.log, k'.tag < tag := by
        intro k' hk'
        cases x with
        | other => exact h.elim
        | step since => exact (h k' hk').trans_le hxy
        | data num' tag' =>
          apply (h.1 k' hk').trans_lt
          rcases hxy with hlt | ⟨hle, hnear⟩
          · exact hlt
          -- No number up to a window behind is the one the receiver waits for.
          have hlast : d.lastReceived = wrap w.idBits num' := by
            rcases h.2 with hdown | ⟨-, hlast⟩
            · rcases hwas with hup | hup
              all_goals
                rw [hdown] at hup
                cases hup
            · exact hlast
          have hpos := window_pos w
          have htwo := two_window_le w
          rw [hlast, wrap_add_one, wrap_inj (by omega) (by omega)] at hid
          omega
      refine ⟨.inr ⟨?_, .inr ⟨hconn, hrecv⟩⟩, .inr ⟨k, hk, hdel, htag ▸ hlater⟩⟩
      intro k' hk'
      rw [hdel, List.mem_append, List.mem_singleton] at hk'
      rcases hk' with hk' | rfl
      · exact (hlater k' hk').le
      · exact htag.le

end Receiver

/-- One direction: the sender `c`, the frames `ch` on their way and the receiver `d`. -/
structure Line {cfg cfg' : Cfg w} (mem : β → List UInt8) (c : Conn cfg β) (ch : List (Frame w))
    (d : Conn cfg' β) (q : SendQueue (PacketQueueItem w β)) (since : Nat) (x : Stamp)
    (ys : List Stamp) : Prop where
  sender : Sender c q since
  stamps : List.Forall₂ (fun f y => Stamp.Of mem c.log f y) ch ys
  order : (x :: ys).Pairwise (Stamp.Before w)
  behind : ∀ y ∈ x :: ys, Stamp.Behind c q since y
  heard : x.Heard d
  sorted : (deliveries d.log).Pairwise (·.tag < ·.tag)
  known : ∀ k ∈ deliveries d.log, k ∈ (acceptedKeys c.log).map (·.delivery mem)

def Line.Holds {cfg cfg' : Cfg w} (mem : β → List UInt8) (c : Conn cfg β) (ch : List (Frame w))
    (d : Conn cfg' β) : Prop := ∃ q since x ys, Line mem c ch d q since x ys

section Line

variable {cfg cfg' : Cfg w} {mem : β → List UInt8} {c c' : Conn cfg β} {ch : List (Frame w)}
  {d d' : Conn cfg' β}

theorem Stamp.Of.mono {log evs : List (Ev w β)} {f : Frame w} {y : Stamp} (h : y.Of mem log f) :
    y.Of mem (log ++ evs) f := by
  cases y with
  | step => exact h
  | other => exact h
  | data num tag =>
    obtain ⟨hs, hid, hsrc, k, hk, hdata⟩ := h
    refine ⟨hs, hid, hsrc, k, ?_, hdata⟩
    rw [acceptedKeys_append]
    exact List.mem_append_left _ hk

theorem Line.Holds.sender (hmt : cfg.mt = false) (h : Line.Holds mem c ch d) (a : Call w β)
    {fs : List (Frame w)} (hone : fs.length ≤ 1) (hfs : ∀ f ∈ fs, Sends mem c f) :
    Line.Holds mem (a.run c).settle (ch ++ fs) d := by
  obtain ⟨q, since, x, ys, h⟩ := h
  obtain ⟨q', hinv, hon⟩ := Inline.inv_run hmt h.sender.inv a
  obtain ⟨evs, hlog, -⟩ := run_deliveries c a
  obtain ⟨since', hsender, hbehind⟩ := h.sender.onward hinv hon (by simp [hlog])
  obtain ⟨zs, hzs, hafter, hnew⟩ : ∃ zs, List.Forall₂ (fun f z => Stamp.Of mem c.log f z) fs zs ∧
      (x :: (ys ++ zs)).Pairwise (Stamp.Before w) ∧ ∀ z ∈ zs, Stamp.Behind c q since z := by
    match fs, hone with
    | [], _ => exact ⟨[], .nil, by simpa using h.order, by simp⟩
    | [f], _ =>
      obtain ⟨z, hz, hbefore, hbehind⟩ := h.sender.send mem (hfs f List.mem_cons_self)
      refine ⟨[z], .cons hz .nil, ?_, by simpa using hbehind⟩
      rw [← List.cons_append, List.pairwise_append]
      refine ⟨h.order, List.pairwise_singleton _ _, fun y hy z' hz' => ?_⟩
      rw [List.mem_singleton.mp hz']
      exact hbefore y (h.behind y hy)
  refine ⟨q', since', x, ys ++ zs, hsender, ?_, hafter, ?_, h.heard, h.sorted, ?_⟩
  · rw [hlog]
    exact (List.rel_append h.stamps hzs).imp fun _ _ hof => hof.mono
  · intro y hy
    apply hbehind
    rw [← List.cons_append, List.mem_append] at hy
    rcases hy with hy | hy
    · exact h.behind y hy
    · exact hnew y hy
  · intro k hk
    rw [hlog, acceptedKeys_append, List.map_append]
    exact List.mem_append_left _ (h.known k hk)

theorem Line.Holds.rests (h : Line.Holds mem c ch d) (hd : Rests d d')
    (hdel : deliveries d'.log = deliveries d.log) : Line.Holds mem c ch d' := by
  obtain ⟨q, since, x, ys, h⟩ := h
  refine ⟨q, since, x, ys, h.sender, h.stamps, h.order, h.behind, h.heard.rests hd hdel, ?_, ?_⟩
  · rw [hdel]
    exact h.sorted
  · rw [hdel]
    exact h.known

theorem Line.Holds.takes {f : Frame w} (h : Line.Holds mem c (f :: ch) d)
    (ht : (f.pkt.hdr.txId.flag = true → f.pkt.src = none) → Takes d f d') :
    Line.Holds mem c ch d' := by
  obtain ⟨q, since, x, ys, h⟩ := h
  cases ys with
  | nil => cases h.stamps
  | cons y ys =>
  obtain ⟨hy, hys⟩ := List.forall₂_cons.mp h.stamps
  have hsrc : f.pkt.hdr.txId.flag = true → f.pkt.src = none := by
    intro hflag
    cases y with
    | step => exact hy.1
    | other => exact hy.1
    | data => simp [hy.2.1] at hflag
  have hxy : x.Before w y := List.rel_of_pairwise_cons h.order List.mem_cons_self
  obtain ⟨hplace, hdel⟩ := h.heard.takes hy hxy (ht hsrc)
  have hsorted : (deliveries d'.log).Pairwise (·.tag < ·.tag) ∧
      ∀ k ∈ deliveries d'.log, k ∈ (acceptedKeys c.log).map (·.delivery mem) := by
    rcases hdel with hdel | ⟨k, hk, hdel, hlater⟩
    · rw [hdel]
      exact ⟨h.sorted, h.known⟩
    · rw [hdel]
      constructor
      · rw [List.pairwise_append]
        refine ⟨h.sorted, List.pairwise_singleton _ _, fun k' hk' k'' hk'' => ?_⟩
        rw [List.mem_singleton.mp hk'']
        exact hlater k' hk'
      · intro k' hk'
        rw [List.mem_append, List.mem_singleton] at hk'
        rcases hk' with hk' | rfl
        · exact h.known k' hk'
        · exact List.mem_map_of_mem hk
  have horder := List.pairwise_cons.mp h.order
  rcases hplace with hplace | hplace
  · refine ⟨q, since, x, ys, h.sender, hys, ?_, ?_, hplace, hsorted.1, hsorted.2⟩
    · exact h.order.sublist (.cons_cons x (List.sublist_cons_self y ys))
    · exact fun z hz => h.behind z ((List.mem_cons.mp hz).elim (· ▸ List.mem_cons_self)
        fun hz => by simp [hz])
  · refine ⟨q, since, y, ys, h.sender, hys, horder.2, ?_, hplace, hsorted.1, hsorted.2⟩
    exact fun z hz => h.behind z (List.mem_cons_of_mem x hz)

theorem Line.Holds.drop (h : Line.Holds mem c ch d) (i : Nat) :
    Line.Holds mem c (ch.eraseIdx i) d := by
  obtain ⟨q, since, x, ys, h⟩ := h
  have hsub : (ys.eraseIdx i).Sublist ys := List.eraseIdx_sublist ys i
  refine ⟨q, since, x, ys.eraseIdx i, h.sender, forall₂_eraseIdx h.stamps i,
    h.order.sublist (hsub.cons_cons x), ?_, h.heard, h.sorted, h.known⟩
  intro y hy
  apply h.behind
  rcases List.mem_cons.mp hy with rfl | hy
  · exact List.mem_cons_self
  · exact List.mem_cons_of_mem x (hsub.mem hy)

theorem Line.Holds.sublist (h : Line.Holds mem c ch d) :
    (deliveries d.log).Sublist ((acceptedKeys c.log).map (·.delivery mem)) ∧
      ((deliveries d.log).map (·.tag)).Nodup := by
  obtain ⟨q, since, x, ys, h⟩ := h
  have hanti : Std.Antisymm fun k k' : Delivery w => k.tag < k'.tag :=
    ⟨fun k k' hlt hgt => absurd hgt hlt.asymm⟩
  have hnodup : ((deliveries d.log).map (·.tag)).Nodup := by
    apply List.Pairwise.imp Nat.ne_of_lt
    rw [List.pairwise_map]
    exact h.sorted
  have haccepted : ((acceptedKeys c.log).map (·.delivery mem)).Pairwise (·.tag < ·.tag) := by
    rw [List.pairwise_map]
    exact h.sender.inv.ledger.tags
  refine ⟨?_, hnodup⟩
  apply List.sublist_of_subperm_of_pairwise _ h.sorted haccepted
  exact List.subperm_of_subset hnodup.of_map h.known

end Line

namespace Pair

variable {cfg : Side → Cfg w} {mem : Side → β → List UInt8} {s s' : Pair cfg β}

/-- Both directions. -/
def Ordered (mem : Side → β → List UInt8) (s : Pair cfg β) : Prop :=
  ∀ e f, e ≠ f → Line.Holds (mem e) (s.conn e) (s.chan e) (s.conn f)

theorem ordered_init : Ordered mem (Pair.init cfg β) := by
  intro e f _
  refine ⟨.empty, 0, .step 0, [], ⟨Inline.inv_init, by simp [SendQueue.empty], Nat.zero_le _⟩, .nil,
    List.pairwise_singleton _ _, ?_, ?_, .nil, ?_⟩
  · intro y hy
    rw [List.mem_singleton.mp hy]
    exact le_refl 0
  · rintro k ⟨⟩
  · rintro k ⟨⟩

theorem Ordered.call (hmt : ∀ e, (cfg e).mt = false) (h : Ordered mem s) (x : Side) {a : Call w β}
    (hr : ∀ p n t, a ≠ .receive p n t) (due : Bool) (hone : (a.run (s.conn x)).sent.length ≤ 1)
    (hsent : ∀ f ∈ (a.run (s.conn x)).sent, Sends (mem x) (s.conn x) f) :
    Ordered mem (s.after x (a.run (s.conn x)) due) := by
  intro e f hef
  rcases Side.eq_or_eq hef x with rfl | rfl
  · simp only [after, Function.update_self, Function.update_of_ne hef.symm]
    exact (h x f hef).sender (hmt x) a hone hsent
  · simp only [after, Function.update_self, Function.update_of_ne hef]
    obtain ⟨hrests, hdel⟩ := settle_rests (s.conn x) hr
    exact (h e x hef).rests hrests hdel

theorem sent_length {cfg : Cfg w} (o : Out cfg β) : o.sent.length ≤ 1 := by
  unfold Out.sent
  cases o.frame <;> simp

theorem sent_local {cfg : Cfg w} (c : Conn cfg β) {a : Call w β} (h : a.isLocal = true) :
    (a.run c).sent = [] := by
  have hframe : (a.run c).frame = none := by
    apply run_frame
    rintro mem rfl
    cases h
  simp [Out.sent, hframe]

theorem Ordered.step (hmt : ∀ e, (cfg e).mt = false) (h : Ordered mem s) {a : Move w β}
    (hs : step mem s a = some s') : Ordered mem s' := by
  cases a with
  | call x a =>
    simp only [Pair.step, Option.ite_none_right_eq_some, Option.some.injEq] at hs
    obtain ⟨hlocal, rfl⟩ := hs
    have hsent := sent_local (s.conn x) hlocal
    apply h.call hmt x _ _ (sent_length _)
    · simp [hsent]
    · rintro p n t rfl
      cases hlocal
  | tx x =>
    cases hs
    exact h.call hmt x (a := .getPacketToSend (mem x)) (by simp) _ (sent_length _)
      (getPacketToSend_sends (mem x) (s.conn x))
  | rx x tstamp =>
    simp only [Pair.step] at hs
    split at hs
    · cases hs
    next f rest hchan =>
    cases hs
    intro e e' hef
    rcases Side.eq_or_eq hef x with rfl | rfl
    · -- The end that receives as the sender of the other direction.
      have hpeer : x ≠ x.peer := by cases x <;> simp [Side.peer]
      simp only [after, Function.update_self, Function.update_of_ne hef.symm,
        Function.update_of_ne hpeer]
      exact (h x e' hef).sender (hmt x) (.receive f.pkt f.size tstamp) (sent_length _) (by simp [Out.sent, receive])
    · rw [Side.peer_eq hef] at hchan ⊢
      simp only [after, Function.update_self, Function.update_of_ne hef]
      have hline := h e x hef
      rw [hchan] at hline
      exact hline.takes (receive_takes (s.conn x) f tstamp)
  | drop x i =>
    cases hs
    intro e f hef
    rcases Side.eq_or_eq hef x with rfl | rfl
    · simp only [Function.update_self]
      exact (h x f hef).drop i
    · simp only [Function.update_of_ne hef]
      exact h e x hef

/-- The numbered packets passed to an end's `on_recv` are among those its peer accepted, in order and
each at most once. -/
theorem in_order (hmt : ∀ e, (cfg e).mt = false) (h : Reaches mem s) (e : Side) :
    (deliveries (s.conn e.peer).log).Sublist
        ((acceptedKeys (s.conn e).log).map (·.delivery (mem e))) ∧
      ((deliveries (s.conn e.peer).log).map (·.tag)).Nodup := by
  have hordered : Ordered mem s := h.invariant ordered_init fun hi _ hs => hi.step hmt hs
  have hne : e ≠ e.peer := by cases e <;> simp [Side.peer]
  exact (hordered e e.peer hne).sublist

/-- Each end sends a handshake step and the other takes it, until both are connected. -/
def handshake : List (Move w β) :=
  [.tx .left, .rx .right 0, .tx .right, .rx .left 0, .tx .left, .rx .right 0, .tx .right,
    .rx .left 0, .tx .left, .rx .right 0, .tx .right, .rx .left 0]

/-- The first of two packets is lost, and both are sent again. -/
theorem in_order_two :
    let cfg := fun _ : Side => Cfg.ofBuild (.ofWindow 1 (by decide)) false 1 (by decide)
    let mem := fun (_ : Side) (b : UInt8) => [b]
    ∃ s : Pair cfg UInt8, (deliveries (s.conn .right).log).length = 2 ∧
      (deliveries (s.conn .right).log).Sublist
        ((acceptedKeys (s.conn .left).log).map (·.delivery (mem .left))) := by
  intro cfg mem
  obtain ⟨s, hs, hlen⟩ := Reachable.of_exec (Pair.init cfg UInt8) (Pair.step mem) (fun _ _ => true)
    (handshake ++ [.call .left (.enqueueData 1 (some 7) 1 3), .call .left (.enqueueData 1 (some 8) 1 3),
      .tx .left, .tx .left, .drop .left 0, .rx .right 0, .tx .right, .rx .left 0, .tx .left, .tx .left,
      .rx .right 0, .rx .right 0])
    (fun s => (deliveries (s.conn .right).log).length = 2) (by decide +kernel) (by decide +kernel)
  have hrun : Reaches mem s := hs.mono fun _ _ _ => trivial
  exact ⟨s, of_decide_eq_true hlen, (in_order (fun _ => rfl) hrun .left).1⟩

end Pair

end Ludlc
