import Ludlc.Frames
import Ludlc.Lib.Attempts

/-! # What a packet pays before it is given up

A NAK takes one off the TTL of the first packet of the window, and a packet left with none is given
up. A copy of the packet has gone out since the NAK before, in any order of acknowledgements,
NAKs and disconnects, truthful or not: so it is given up after as many copies as its TTL.
-/

namespace Ludlc

open Attempts

variable {w : Wire} {cfg : Cfg w} {β : Type}

/-- The numbered packets accepted, with the TTL each was given. -/
def acceptedItems (log : List (Ev w β)) : List (PacketQueueItem w β) :=
  log.filterMap fun
    | .accepted .numbered it => some it
    | _ => none

@[simp] theorem acceptedItems_append (l l' : List (Ev w β)) :
    acceptedItems (l ++ l') = acceptedItems l ++ acceptedItems l' := List.filterMap_append

theorem acceptedItems_keys (log : List (Ev w β)) :
    (acceptedItems log).map (·.key) = acceptedKeys log := by
  rw [acceptedItems, acceptedKeys, List.map_filterMap]
  congr 1
  funext e
  cases e with
  | accepted kind it => cases kind <;> rfl
  | _ => rfl

/-- The copy of a numbered packet that a call returns. -/
def copyMark (o : Out cfg β) : List (Mark Nat) :=
  match o.frame.bind (·.it) with
  | some (.numbered, it) => [.copy it.tag]
  | _ => []

/-- Whether a packet is left, or given back, with a TTL lower than it had. -/
def pays (after : List (PacketQueueItem w β)) (it : PacketQueueItem w β) : Bool :=
  after.any fun y => y.tag = it.tag && decide (y.ttl < it.ttl)

/-- The packets of a window that are charged. -/
def lowered (win after : List (PacketQueueItem w β)) : List (Mark Nat) :=
  (win.filter (pays after)).map (.charge ·.tag)

/-- The charges of a step. -/
def charged (c d : Conn cfg β) : List (Mark Nat) :=
  lowered c.windowItems ((confirmedItems d.log).drop (confirmedItems c.log).length ++ d.windowItems)

/-! ### Which packets are charged -/

section Lowered

variable {win after pre rest : List (PacketQueueItem w β)} {x : PacketQueueItem w β}

/-- What a charge is seen by. -/
def PacketQueueItem.stamp (it : PacketQueueItem w β) : Nat × Nat := (it.tag, it.ttl)

theorem not_pays {it : PacketQueueItem w β} (hnodup : (win.map (·.tag)).Nodup) (hit : it ∈ win)
    (hafter : ∀ y ∈ after, y.tag = it.tag → y.stamp ∈ win.map (·.stamp)) :
    pays after it = false := by
  rw [pays, List.any_eq_false]
  intro y hy hlow
  rw [Bool.and_eq_true, decide_eq_true_iff, decide_eq_true_iff] at hlow
  obtain ⟨htag, hlt⟩ := hlow
  obtain ⟨z, hz, hstamp⟩ := List.mem_map.mp (hafter y hy htag)
  obtain ⟨hztag, hzttl⟩ := Prod.mk.inj hstamp
  obtain rfl := List.inj_on_of_nodup_map hnodup hz hit (hztag.trans htag)
  omega

theorem lowered_kept (hnodup : (win.map (·.tag)).Nodup)
    (hafter : ∀ y ∈ after, y.stamp ∈ win.map (·.stamp) ∨ y.tag ∉ win.map (·.tag)) :
    lowered win after = [] := by
  rw [lowered, List.map_eq_nil_iff, List.filter_eq_nil_iff]
  intro it hit
  rw [not_pays hnodup hit]
  · exact Bool.false_ne_true
  · intro y hy htag
    rcases hafter y hy with hy | hy
    · exact hy
    · exact absurd (List.mem_map.mpr ⟨it, hit, htag.symm⟩) hy

theorem lowered_one {y : PacketQueueItem w β} (hnodup : ((pre ++ x :: rest).map (·.tag)).Nodup)
    (hy : y ∈ after) (htag : y.tag = x.tag) (hlt : y.ttl < x.ttl)
    (hafter : ∀ z ∈ after, z.stamp ∈ (pre ++ x :: rest).map (·.stamp) ∨ z.tag = x.tag) :
    lowered (pre ++ x :: rest) after = [.charge x.tag] := by
  have hother : ∀ it ∈ pre ++ x :: rest, it.tag ≠ x.tag →
      pays after it = false := by
    intro it hit hne
    apply not_pays hnodup hit
    intro z hz hzt
    rcases hafter z hz with hz | hz
    · exact hz
    · exact absurd (hzt.symm.trans hz) hne
  have hx : pays after x = true := by
    rw [pays, List.any_eq_true]
    refine ⟨y, hy, ?_⟩
    simp [htag, hlt]
  rw [List.map_append, List.map_cons, List.nodup_append] at hnodup
  obtain ⟨_, hrest, hdisj⟩ := hnodup
  have hpre : ∀ it ∈ pre, it.tag ≠ x.tag := by
    intro it hit
    exact hdisj _ (List.mem_map_of_mem hit) _ List.mem_cons_self
  have hpost : ∀ it ∈ rest, it.tag ≠ x.tag := by
    intro it hit heq
    exact (List.nodup_cons.mp hrest).1 (List.mem_map.mpr ⟨it, hit, heq⟩)
  rw [lowered, List.filter_append, List.filter_cons_of_pos hx,
    List.filter_eq_nil_iff.mpr, List.filter_eq_nil_iff.mpr]
  · rfl
  · intro it hit
    rw [hother it (List.mem_append_right _ (List.mem_cons_of_mem _ hit)) (hpost it hit)]
    exact Bool.false_ne_true
  · intro it hit
    rw [hother it (List.mem_append_left _ hit) (hpre it hit)]
    exact Bool.false_ne_true

end Lowered

/-! ### What a call does to the packets -/

/-- What a call does to the queue: the marks it leaves, the packets it takes and gives back, and
the queue after it. `n` is the next tag. -/
inductive Moves (n : Nat) (q : SendQueue (PacketQueueItem w β)) :
    List (Mark Nat) → List (PacketQueueItem w β) → List (PacketQueueItem w β) →
      SendQueue (PacketQueueItem w β) → Prop
  | same : Moves n q [] [] [] q
  | push {it : PacketQueueItem w β} : it.tag = n → Moves n q [] [it] [] (q.push it)
  | copy {x : PacketQueueItem w β} : q.win[q.sent]? = some x →
      Moves n q [.copy x.tag] [] [] { q with sent := q.sent + 1 }
  /-- `k` packets are acknowledged, and perhaps a NAK goes back for nothing. -/
  | acked {k : Nat} {r : SendQueue (PacketQueueItem w β)} : r.win = q.win.drop k →
      r.sent ≤ q.sent - k → Moves n q [] [] ((q.win.take k).map (·.resolve .ok)) r
  | charged {pre rest : List (PacketQueueItem w β)} {x : PacketQueueItem w β}
      {r : SendQueue (PacketQueueItem w β)} : q.win = pre ++ x :: rest → pre.length < q.sent →
      r.win = x.charged :: rest → r.sent = 0 → Moves n q [] [] (pre.map (·.resolve .ok)) r
  | expired {pre rest : List (PacketQueueItem w β)} {x : PacketQueueItem w β}
      {r : SendQueue (PacketQueueItem w β)} : q.win = pre ++ x :: rest → pre.length < q.sent →
      x.ttl = 1 → r.win = rest → r.sent = 0 →
      Moves n q [] [] (pre.map (·.resolve .ok) ++ [x.charged.resolve .etimedout]) r
  | ended : Moves n q [] [] (q.win.map (·.resolve .epipe)) .empty

theorem Moves.retag {n n' : Nat} {q r : SendQueue (PacketQueueItem w β)} {marks : List (Mark Nat)}
    {back : List (PacketQueueItem w β)} (h : Moves n q marks [] back r) :
    Moves n' q marks [] back r := by
  cases h with
  | same => exact .same
  | copy hx => exact .copy hx
  | acked hwin hsent => exact .acked hwin hsent
  | charged hw hlt hwin hsent => exact .charged hw hlt hwin hsent
  | expired hw hlt hone hwin hsent => exact .expired hw hlt hone hwin hsent
  | ended => exact .ended

/-- What the marks say of the packets accepted, of those given back and of the window. -/
structure Spent (accepted given : List (PacketQueueItem w β)) (n : Nat)
    (q : SendQueue (PacketQueueItem w β)) (tr : List (Mark Nat)) : Prop where
  paid : Paid tr
  /-- The part of the window that was sent is fresh. -/
  sent : ∀ i x, q.win[i]? = some x → i < q.sent → fresh x.tag tr = true
  /-- A charge takes one off. -/
  ttl : ∀ x ∈ q.win, ∀ pkt ∈ accepted, pkt.tag = x.tag → x.ttl + charges x.tag tr = pkt.ttl
  expired : ∀ x ∈ given, x.result = .etimedout → ∀ pkt ∈ accepted, pkt.tag = x.tag →
    pkt.ttl ≤ charges x.tag tr
  old : ∀ m ∈ tr, m.key < n

/-- The packets are told apart by their tags, and the next one will be too; none is sent that is not
there, and each has an attempt left. -/
structure Regular (accepted given : List (PacketQueueItem w β)) (n : Nat)
    (q : SendQueue (PacketQueueItem w β)) : Prop where
  nodup : (q.win.map (·.tag)).Nodup
  accepted : ∀ x ∈ accepted, x.tag < n
  given : ∀ x ∈ given, x.tag < n
  win : ∀ x ∈ q.win, x.tag < n
  sent : q.sent ≤ q.win.length
  ttl : ∀ x ∈ q.win, 1 ≤ x.ttl

section Spent

variable {n n' : Nat} {q r : SendQueue (PacketQueueItem w β)} {tr marks : List (Mark Nat)}
  {accepted given taken back : List (PacketQueueItem w β)}

theorem Spent.init : Spent ([] : List (PacketQueueItem w β)) [] 0 .empty [] where
  paid := .nil
  sent := by
    rintro i x h
    simp [SendQueue.empty] at h
  ttl := by rintro x ⟨⟩
  expired := by rintro x ⟨⟩
  old := by rintro m ⟨⟩

/-- The first packet not acknowledged is charged, and nothing is left as sent. -/
theorem Spent.charge {pre rest : List (PacketQueueItem w β)} {x : PacketQueueItem w β}
    (h : Spent accepted given n q tr) (ha : Regular accepted given n q) (hn : n ≤ n')
    (hw : q.win = pre ++ x :: rest) (hlt : pre.length < q.sent) (hsent : r.sent = 0)
    (hr : ∀ y ∈ r.win, y = x.charged ∨ y ∈ rest)
    (hback : ∀ y ∈ back, y.result = .etimedout → x.ttl = 1 ∧ y.tag = x.tag) :
    Spent accepted (given ++ back) n' r (tr ++ [.charge x.tag]) where
  paid := by
    apply h.paid.charge
    apply h.sent pre.length x _ hlt
    rw [hw]
    simp
  sent := by
    intro i y _ hi
    omega
  ttl := by
    intro y hy pkt hpkt htag
    have hx := ha.ttl x (by simp [hw])
    have hnodup := ha.nodup
    rw [hw, List.map_append, List.map_cons, List.nodup_append] at hnodup
    rw [charges_charge]
    rcases hr y hy with rfl | hy
    · have := h.ttl x (by simp [hw]) pkt hpkt htag
      have hself : x.charged.tag = x.tag := rfl
      have hless : x.charged.ttl = x.ttl - 1 := rfl
      rw [hself, hless]
      simp only [decide_true, Bool.toNat_true]
      omega
    · have hne : x.tag ≠ y.tag := by
        intro heq
        exact (List.nodup_cons.mp hnodup.2.1).1 (heq ▸ List.mem_map_of_mem hy)
      simp only [hne, decide_false, Bool.toNat_false, Nat.add_zero]
      exact h.ttl y (by simp [hw, hy]) pkt hpkt htag
  expired := by
    intro y hy hres pkt hpkt htag
    rw [charges_charge]
    rcases List.mem_append.mp hy with hy | hy
    · exact le_trans (h.expired y hy hres pkt hpkt htag) (Nat.le_add_right _ _)
    · obtain ⟨hone, hyx⟩ := hback y hy hres
      have := h.ttl x (by simp [hw]) pkt hpkt (htag.trans hyx)
      rw [hyx]
      simp only [decide_true, Bool.toNat_true]
      omega
  old := by
    intro m hm
    rcases List.mem_append.mp hm with hm | hm
    · exact lt_of_lt_of_le (h.old m hm) hn
    · rw [List.mem_singleton.mp hm]
      exact lt_of_lt_of_le (ha.win x (by simp [hw])) hn

/-- A packet accepted has a new tag, and no marks yet. -/
theorem Spent.push {it : PacketQueueItem w β} (h : Spent accepted given n q tr)
    (ha : Regular accepted given n q) (htag : it.tag = n) (hn : n ≤ n') :
    Spent (accepted ++ [it]) given n' (q.push it) tr where
  paid := h.paid
  sent := by
    intro i x hx hi
    rw [SendQueue.push, List.getElem?_append_left (lt_of_lt_of_le hi ha.sent)] at hx
    exact h.sent i x hx hi
  ttl := by
    intro x hx pkt hpkt hpt
    rcases List.mem_append.mp hpkt with hpkt | hpkt
    · rcases List.mem_append.mp hx with hx | hx
      · exact h.ttl x hx pkt hpkt hpt
      · have := ha.accepted pkt hpkt
        rw [List.mem_singleton.mp hx] at hpt
        omega
    · obtain rfl := List.mem_singleton.mp hpkt
      rcases List.mem_append.mp hx with hx | hx
      · have := ha.win x hx
        omega
      · have hunmarked : charges pkt.tag tr = 0 := by
          apply charges_of_unmarked
          intro m hm heq
          have := h.old m hm
          omega
        rw [List.mem_singleton.mp hx, hunmarked, Nat.add_zero]
  expired := by
    intro x hx hres pkt hpkt hpt
    rcases List.mem_append.mp hpkt with hpkt | hpkt
    · exact h.expired x hx hres pkt hpkt hpt
    · have := ha.given x hx
      rw [List.mem_singleton.mp hpkt] at hpt
      omega
  old m hm := lt_of_lt_of_le (h.old m hm) hn

/-- The packet next to send is sent. -/
theorem Spent.copy {x : PacketQueueItem w β} (h : Spent accepted given n q tr)
    (ha : Regular accepted given n q) (hx : q.win[q.sent]? = some x) (hn : n ≤ n') :
    Spent accepted given n' { q with sent := q.sent + 1 } (tr ++ [.copy x.tag]) where
  paid := h.paid.copy x.tag
  sent := by
    intro i y hy hi
    rw [fresh_copy]
    rcases Nat.lt_succ_iff_lt_or_eq.mp hi with hi | rfl
    · rw [h.sent i y hy hi, Bool.true_or]
    · obtain rfl : y = x := Option.some_inj.mp (hy.symm.trans hx)
      simp
  ttl := by
    intro y hy pkt hpkt hpt
    rw [charges_copy]
    exact h.ttl y hy pkt hpkt hpt
  expired := by
    intro y hy hres pkt hpkt hpt
    rw [charges_copy]
    exact h.expired y hy hres pkt hpkt hpt
  old := by
    intro m hm
    rcases List.mem_append.mp hm with hm | hm
    · exact lt_of_lt_of_le (h.old m hm) hn
    · rw [List.mem_singleton.mp hm]
      exact lt_of_lt_of_le (ha.win x (List.mem_of_getElem? hx)) hn

/-- Packets leave the window for another reason than that their attempts are used up. -/
theorem Spent.settle (h : Spent accepted given n q tr) (hn : n ≤ n')
    (hsent : ∀ i x, r.win[i]? = some x → i < r.sent → fresh x.tag tr = true)
    (hwin : ∀ x ∈ r.win, x ∈ q.win) (hback : ∀ y ∈ back, y.result ≠ .etimedout) :
    Spent accepted (given ++ back) n' r tr where
  paid := h.paid
  sent := hsent
  ttl x hx := h.ttl x (hwin x hx)
  expired := by
    intro x hx hres
    rcases List.mem_append.mp hx with hx | hx
    · exact h.expired x hx hres
    · exact absurd hres (hback x hx)
  old m hm := lt_of_lt_of_le (h.old m hm) hn

theorem Spent.moves (h : Spent accepted given n q tr) (ha : Regular accepted given n q)
    (hm : Moves n q marks taken back r) (hn : n + taken.length ≤ n') :
    Spent (accepted ++ taken) (given ++ back) n' r (tr ++ (marks ++ lowered q.win (back ++ r.win))) := by
  have hold : ∀ m ∈ tr, m.key < n' := fun m hm' => lt_of_lt_of_le (h.old m hm') (by omega)
  have hsame : ∀ (e : Errno) {l : List (PacketQueueItem w β)}, (∀ y ∈ l, y ∈ q.win) →
      ∀ y ∈ l.map (·.resolve e), y.stamp ∈ q.win.map (·.stamp) := by
    intro e l hl y hy
    obtain ⟨x, hx, rfl⟩ := List.mem_map.mp hy
    exact List.mem_map.mpr ⟨x, hl x hx, rfl⟩
  have hstamp : ∀ y ∈ q.win, y.stamp ∈ q.win.map (·.stamp) := fun y hy => List.mem_map_of_mem hy
  cases hm with
  | same =>
    simp only [List.nil_append, List.append_nil]
    rw [lowered_kept ha.nodup fun y hy => .inl (hstamp y hy), List.append_nil]
    exact { h with old := hold }
  | @push it htag =>
    have hnew : ∀ y ∈ q.win, y.tag ≠ it.tag := by
      intro y hy heq
      have := ha.win y hy
      omega
    have hlow : lowered q.win (q.win ++ [it]) = [] := by
      apply lowered_kept ha.nodup
      intro y hy
      rcases List.mem_append.mp hy with hy | hy
      · exact .inl (hstamp y hy)
      · right
        rw [List.mem_singleton.mp hy]
        rintro hmem
        obtain ⟨z, hz, heq⟩ := List.mem_map.mp hmem
        exact hnew z hz heq
    simp only [List.nil_append, List.append_nil, SendQueue.push, hlow]
    exact h.push ha htag (by omega)
  | @copy x hx =>
    simp only [List.nil_append, List.append_nil]
    rw [lowered_kept ha.nodup fun y hy => .inl (hstamp y hy), List.append_nil]
    exact h.copy ha hx (by omega)
  | @acked k r hwin hsent =>
    have hlow : lowered q.win ((q.win.take k).map (·.resolve .ok) ++ r.win) = [] := by
      apply lowered_kept ha.nodup
      intro y hy
      left
      rcases List.mem_append.mp hy with hy | hy
      · exact hsame .ok (fun _ => List.mem_of_mem_take) y hy
      · rw [hwin] at hy
        exact hstamp y (List.mem_of_mem_drop hy)
    simp only [List.append_nil, hlow]
    refine h.settle (by omega) (fun i x hx hi => ?_) (fun x hx => ?_) fun y hy => ?_
    · rw [hwin, List.getElem?_drop] at hx
      exact h.sent (k + i) x hx (by omega)
    · rw [hwin] at hx
      exact List.mem_of_mem_drop hx
    · obtain ⟨z, _, rfl⟩ := List.mem_map.mp hy
      simp [PacketQueueItem.resolve]
  | @charged pre rest x r hw hlt hwin hsent =>
    have hx : x ∈ q.win := by simp [hw]
    have hpos := ha.ttl x hx
    have hlow : lowered q.win (pre.map (·.resolve .ok) ++ r.win) = [.charge x.tag] := by
      have hnodup := ha.nodup
      rw [hw] at hnodup hsame hstamp ⊢
      rw [hwin]
      apply lowered_one (y := x.charged) hnodup (by simp) rfl
      · exact Nat.sub_one_lt (by omega)
      · intro z hz
        rcases List.mem_append.mp hz with hz | hz
        · exact .inl (hsame .ok (fun _ => List.mem_append_left _) z hz)
        · rcases List.mem_cons.mp hz with rfl | hz
          · exact .inr rfl
          · exact .inl (hstamp z (by simp [hz]))
    simp only [List.nil_append, List.append_nil, hlow]
    apply h.charge ha (by omega) hw hlt hsent
    · intro y hy
      rw [hwin] at hy
      exact List.mem_cons.mp hy
    · intro y hy hres
      obtain ⟨z, _, rfl⟩ := List.mem_map.mp hy
      cases hres
  | @expired pre rest x r hw hlt hone hwin hsent =>
    have hlow : lowered q.win (pre.map (·.resolve .ok) ++ [x.charged.resolve .etimedout] ++ r.win) =
        [.charge x.tag] := by
      have hnodup := ha.nodup
      rw [hw] at hnodup hsame hstamp ⊢
      rw [hwin]
      apply lowered_one (y := x.charged.resolve .etimedout) hnodup (by simp) rfl
      · exact Nat.sub_one_lt (by omega)
      · intro z hz
        rw [List.append_assoc] at hz
        rcases List.mem_append.mp hz with hz | hz
        · exact .inl (hsame .ok (fun _ => List.mem_append_left _) z hz)
        · rcases List.mem_cons.mp hz with rfl | hz
          · exact .inr rfl
          · exact .inl (hstamp z (List.mem_append_right _ (List.mem_cons_of_mem _ hz)))
    simp only [List.nil_append, List.append_nil, hlow]
    apply h.charge ha (by omega) hw hlt hsent
    · intro y hy
      rw [hwin] at hy
      exact .inr hy
    · intro y hy hres
      rcases List.mem_append.mp hy with hy | hy
      · obtain ⟨z, _, rfl⟩ := List.mem_map.mp hy
        cases hres
      · rw [List.mem_singleton.mp hy]
        exact ⟨hone, rfl⟩
  | ended =>
    have hlow : lowered q.win (q.win.map (·.resolve .epipe) ++ []) = [] := by
      apply lowered_kept ha.nodup
      intro y hy
      rw [List.append_nil] at hy
      exact .inl (hsame .epipe (fun _ => id) y hy)
    simp only [List.append_nil, List.nil_append] at hlow ⊢
    rw [show (SendQueue.empty : SendQueue (PacketQueueItem w β)).win = [] from rfl,
      List.append_nil, hlow, List.append_nil]
    refine h.settle (by omega) ?_ ?_ fun y hy => ?_
    · rintro i x hx
      cases hx
    · rintro x ⟨⟩
    · obtain ⟨z, _, rfl⟩ := List.mem_map.mp hy
      simp [PacketQueueItem.resolve]

end Spent

namespace Inline

variable {c d : Conn cfg β} {q : SendQueue (PacketQueueItem w β)}

/-- The packets a step takes and gives back, as the log has them. -/
structure Adds (c d : Conn cfg β) (taken back : List (PacketQueueItem w β)) : Prop where
  accepted : acceptedItems d.log = acceptedItems c.log ++ taken
  confirmed : confirmedItems d.log = confirmedItems c.log ++ back

theorem Adds.of_log {evs : List (Ev w β)} (hlog : d.log = c.log ++ evs) :
    Adds c d (acceptedItems evs) (confirmedItems evs) := by
  constructor
  · rw [hlog, acceptedItems_append]
  · rw [hlog, confirmedItems_append]

theorem Adds.trans {e : Conn cfg β} {taken taken' back back' : List (PacketQueueItem w β)}
    (h : Adds c d taken back) (h' : Adds d e taken' back') :
    Adds c e (taken ++ taken') (back ++ back') := by
  constructor
  · rw [h'.accepted, h.accepted, List.append_assoc]
  · rw [h'.confirmed, h.confirmed, List.append_assoc]

theorem acceptedItems_of_keys {evs : List (Ev w β)} (h : acceptedKeys evs = []) :
    acceptedItems evs = [] := by
  rw [← acceptedItems_keys, List.map_eq_nil_iff] at h
  exact h

/-- Packets resolved one after the other are given back in that order. -/
theorem confirmedItems_resolveLog (hmt : cfg.mt = false) (e : Errno)
    (items : List (PacketQueueItem w β)) :
    confirmedItems (items.flatMap fun it => resolveLog cfg (it.resolve e)) =
      items.map (·.resolve e) := by
  induction items with
  | nil => rfl
  | cons it items ih =>
    rw [List.flatMap_cons, confirmedItems_append, ih, List.map_cons]
    simp [resolveLog, hmt, confirmedItems, Callback.gives]

/-- What a call does to the connection, told by the queue it stands for. -/
def Moved (c : Conn cfg β) (q : SendQueue (PacketQueueItem w β)) (marks : List (Mark Nat))
    (taken : List (PacketQueueItem w β)) (d : Conn cfg β) : Prop :=
  ∃ r back, Refines d r ∧ Adds c d taken back ∧ Moves c.log.length q marks taken back r

theorem Moved.same {evs : List (Ev w β)} (hd : Inv d [] q) (hlog : d.log = c.log ++ evs)
    (hq : Quiet evs) : Moved c q [] [] d := by
  refine ⟨q, [], hd.refines, ?_, .same⟩
  have hadds := Adds.of_log hlog
  rwa [acceptedItems_of_keys hq.accepted, hq.confirmed] at hadds

theorem Moved.still (h : Inv c [] q) : Moved c q [] [] c := by
  refine ⟨q, [], h.refines, ?_, .same⟩
  constructor
  · rw [List.append_nil]
  · rw [List.append_nil]

theorem Moved.later {marks : List (Mark Nat)} {taken : List (PacketQueueItem w β)}
    {evs : List (Ev w β)} (h : Moved c q marks taken d) (hq : Quiet evs) :
    Moved c q marks taken { d with log := d.log ++ evs } := by
  obtain ⟨r, back, hd, hadds, hmoves⟩ := h
  refine ⟨r, back, hd.congr rfl rfl rfl rfl rfl rfl, ?_, hmoves⟩
  constructor
  · rw [acceptedItems_append, acceptedItems_of_keys hq.accepted, List.append_nil, hadds.accepted]
  · rw [confirmedItems_append, hq.confirmed, List.append_nil, hadds.confirmed]

theorem Moved.down (hmt : cfg.mt = false) (h : Inv c [] q) :
    Moved c q [] [] (onDisconnectLock c) := by
  obtain ⟨hrefines, hlog⟩ := onDisconnectLock_spec h.refines.toHolding
  have hu := undrained_inline hmt (sweep c)
  obtain ⟨hacc, _, _⟩ := resolveLog_inline hmt .epipe q.win
  rw [hu] at hrefines hlog
  refine ⟨.empty, q.win.map (·.resolve .epipe), hrefines, ?_, .ended⟩
  constructor
  · simp only [hlog, Bool.false_eq_true, if_false, acceptedItems_append,
      acceptedItems_of_keys (quiet_down c).accepted, acceptedItems_of_keys hacc,
      acceptedItems_of_keys quiet_seqReset.accepted]
    simp [acceptedItems]
  · simp only [hlog, Bool.false_eq_true, if_false, confirmedItems_append,
      (quiet_down c).confirmed, quiet_seqReset.confirmed, confirmedItems_resolveLog hmt]
    simp

theorem Moved.handleDisconnect (hmt : cfg.mt = false) (h : Inv c [] q) :
    Moved c q [] [] (runTodo c .handleDisconnect) := by
  simp only [runTodo, disconnectCore]
  split
  · have hquiet : Quiet [(.call .onDisconnect : Ev w β), .ret .onDisconnect] := quiet_call rfl
    have := (Moved.down hmt h).later hquiet
    simpa [callNow, Conn.emit] using this
  · exact .still h

/-- The ACK field of a packet, up to the callback for the packet it gives up. -/
theorem moves_ackNak {n k : Nat} {nak : Option Bool} (mt : Bool) (hk : k ≤ q.win.length)
    (hsent : q.sent ≤ q.win.length) (hcharge : nak = some true → k < q.sent) :
    Moves n q [] [] ((q.win.take k).map (·.resolve .ok) ++ (q.ackNak mt k nak).2.toList)
      (q.ackNak mt k nak).1 := by
  cases nak with
  | none =>
    rw [show (q.ackNak mt k none).2.toList = [] from rfl, List.append_nil]
    exact .acked rfl (le_refl _)
  | some charge =>
    cases charge with
    | false =>
      have hnak : q.ackNak mt k (some false) =
          ({ q.advance mt (·.resolve .ok) k with sent := 0 }, none) := by
        simp only [SendQueue.ackNak, SendQueue.nak]
        split
        · rename_i h
          cases h
        · rfl
      rw [hnak, Option.toList_none, List.append_nil]
      exact .acked rfl (Nat.zero_le _)
    | true =>
      have hlt := hcharge rfl
      obtain ⟨x, rest, hdrop⟩ := List.exists_cons_of_length_pos
        (show 0 < (q.win.drop k).length by rw [List.length_drop]; omega)
      have hw : q.win = q.win.take k ++ x :: rest := by rw [← hdrop, List.take_append_drop]
      have hpre : (q.win.take k).length < q.sent := by
        rw [List.length_take]
        omega
      by_cases hone : x.ttl = 1
      · simp only [SendQueue.ackNak, SendQueue.nak, SendQueue.advance_win, hdrop, if_pos hone]
        exact .expired hw hpre hone rfl rfl
      · simp only [SendQueue.ackNak, SendQueue.nak, SendQueue.advance_win, hdrop, if_neg hone,
          Option.toList_none, List.append_nil]
        exact .charged hw hpre rfl rfl

/-- The ACK field of a packet, up to the callback for the packet it gives up. -/
theorem rxHandleAck_moved (hmt : cfg.mt = false) (h : Inv c [] q) (a : WireId w.idBits) (n : Nat) :
    ∃ r back, Refines (rxHandleAck c a).1 r ∧ Adds c (rxHandleAck c a).1 [] back ∧
      Moves n q [] [] (back ++ (rxHandleAck c a).2.1.toList) r := by
  by_cases hfar : q.win.length < (a.id - c.lastAck).toNat
  · rw [rxHandleAck_far h.refines.toHolding hfar]
    refine ⟨q, [], h.refines, ?_, .same⟩
    constructor
    · rw [List.append_nil]
    · rw [List.append_nil]
  · have hk : (a.id - c.lastAck).toNat ≤ q.win.length := by omega
    have hsent := h.refines.sent h.isOpen
    obtain ⟨hrefines, hexpired, hlog⟩ := rxHandleAck_spec h.refines h.isOpen hk
    obtain ⟨hacked, _⟩ := rxHandleAcked_spec h.refines h.isOpen hk
    have hopen := (rxHandleAcked_rest c a).busOut.trans h.isOpen
    have hcharge : nakOf c a = some true → (a.id - c.lastAck).toNat < q.sent := by
      intro hnak
      rw [nakOf] at hnak
      split at hnak
      · have hne := ((nakCharges_iff hacked.toHolding (hacked.sent hopen)).mp
          (Option.some_inj.mp hnak)).1
        rw [SendQueue.advance_sent] at hne
        omega
      · cases hnak
    have hmoves := moves_ackNak (n := n) cfg.mt hk hsent.2 hcharge
    rw [← hexpired] at hmoves
    refine ⟨_, _, hrefines, ?_, hmoves⟩
    obtain ⟨hacc, _, _⟩ :=
      resolveLog_inline hmt .ok (q.win.take (a.id - c.lastAck).toNat)
    obtain ⟨hacc', _, hconf', _⟩ := resolved_only (rxHandleAck c a).2.1.toList
    constructor
    · simp only [hlog, acceptedItems_append, acceptedItems_of_keys hacc,
        acceptedItems_of_keys hacc', List.append_nil]
    · simp only [hlog, confirmedItems_append, confirmedItems_resolveLog hmt, hconf',
        List.append_nil]

theorem rxHandlePacket_moved (hmt : cfg.mt = false) (h : Inv c [] q) (p : Packet w) (pktSz : Nat) :
    ∃ r back, Refines (rxHandlePacket c p pktSz).conn r ∧
      Adds c (rxHandlePacket c p pktSz).conn [] back ∧
      Moves c.log.length q [] [] (back ++ (rxHandlePacket c p pktSz).expired.toList) r := by
  have hmoved : ∀ {d : Conn cfg β}, Moved c q [] [] d → ∃ r back, Refines d r ∧
      Adds c d [] back ∧ Moves c.log.length q [] [] (back ++ []) r := by
    rintro d ⟨r, back, hd, hadds, hmoves⟩
    rw [← List.append_nil back] at hmoves
    exact ⟨r, back, hd, hadds, hmoves⟩
  have hup : Adds c (rxUp c p) [] [] := by
    have := Adds.of_log (rxUp_log c p)
    rwa [acceptedItems_of_keys (quiet_up c p).accepted, (quiet_up c p).confirmed] at this
  have hstep := rxHandlePacket_step c p pktSz
  generalize rxHandlePacket c p pktSz = r at hstep ⊢
  cases hstep with
  | dropped => exact hmoved (.still h)
  | handshake ret => exact hmoved (.same (h.up p) (rxUp_log c p) (quiet_up c p))
  | lastStep => exact hmoved (.still h)
  | down ret =>
    obtain ⟨r, back, hd, hadds, hmoves⟩ := Moved.down hmt (h.up p)
    exact hmoved ⟨r, back, hd, hup.trans hadds, hmoves.retag⟩
  | data ret a s _ _ _ ha hs =>
    have hw : Inv (watchdogRestart (rxUp c p)) [] q :=
      (h.up p).frame [] rfl rfl rfl rfl rfl rfl (by simp [watchdogRestart]) quiet_nil
    obtain ⟨r, back, hd, hadds, hmoves⟩ := rxHandleAck_moved hmt hw p.hdr.ackId c.log.length
    rw [← ha] at hd hadds hmoves
    refine ⟨r, back, ?_, ?_, hmoves⟩
    · rw [hs, rxSequence_eq]
      exact hd.congr rfl rfl rfl rfl rfl rfl
    · have hup' : Adds c (watchdogRestart (rxUp c p)) [] [] := ⟨hup.accepted, hup.confirmed⟩
      have hsame : Adds c a.1 [] back := hup'.trans hadds
      rw [hs]
      constructor
      · rw [rxSequence_log, hsame.accepted]
      · rw [rxSequence_log, hsame.confirmed]

/-- Of the callbacks for a packet received, the one for the packet given up gives one back. -/
theorem receiveTodo_adds (r : RxOut cfg β) (p : Packet w) (pktSz tstamp : Nat) :
    acceptedItems (todoLog (receiveTodo r p pktSz tstamp)) = [] ∧
      confirmedItems (todoLog (receiveTodo r p pktSz tstamp)) = r.expired.toList := by
  have hcaps := quiet_callIf r.ret.caps (.onCaps (if pktSz - w.hdrSz = 0 then [] else p.payload)
    (pktSz - w.hdrSz) : Callback w β) rfl
  have hconn := quiet_callIf r.ret.connected (.onConnect : Callback w β) rfl
  have hdisc := quiet_callIf r.ret.disconnect (.onDisconnect : Callback w β) rfl
  have hrecv := quiet_callIf r.ret.accept
    (.onRecv p.hdr.chan p.payload (pktSz - w.hdrSz) tstamp p.src : Callback w β) rfl
  have hexpired : todoLog (.confirmUnlocked :: r.expired.toList.map fun it =>
      Todo.call (.onConfirm .expired it)) = r.expired.toList.flatMap fun it =>
        [.call (.onConfirm .expired it), .ret (.onConfirm .expired it)] := by
    cases r.expired with
    | none => rfl
    | some it => rfl
  have hback : acceptedItems (r.expired.toList.flatMap fun it =>
        [(.call (.onConfirm .expired it) : Ev w β), .ret (.onConfirm .expired it)]) = [] ∧
      confirmedItems (r.expired.toList.flatMap fun it =>
        [(.call (.onConfirm .expired it) : Ev w β), .ret (.onConfirm .expired it)]) =
          r.expired.toList := by
    cases r.expired with
    | none => exact ⟨rfl, rfl⟩
    | some it => exact ⟨rfl, rfl⟩
  simp only [receiveTodo, todoLog_append, hexpired]
  constructor
  · simp only [acceptedItems_append, hback.1, acceptedItems_of_keys hcaps.accepted,
      acceptedItems_of_keys hconn.accepted, acceptedItems_of_keys hdisc.accepted,
      acceptedItems_of_keys hrecv.accepted, List.append_nil]
  · simp only [confirmedItems_append, hback.2, hcaps.confirmed, hconn.confirmed,
      hdisc.confirmed, hrecv.confirmed, List.nil_append, List.append_nil]

theorem receive_moved (hmt : cfg.mt = false) (h : Inv c [] q) (p : Packet w) (pktSz tstamp : Nat) :
    Moved c q [] [] (receive c p pktSz tstamp).settle := by
  obtain ⟨r, back, hd, hadds, hmoves⟩ := rxHandlePacket_moved hmt h p pktSz
  obtain ⟨hacc, hconf⟩ := receiveTodo_adds (rxHandlePacket c p pktSz) p pktSz tstamp
  rw [settle_eq (receive_todo c p pktSz tstamp)]
  refine ⟨r, _, hd.congr rfl rfl rfl rfl rfl rfl, ?_, hmoves⟩
  constructor
  · simp only [receive, acceptedItems_append, hacc, hadds.accepted, List.append_nil]
  · simp only [receive, confirmedItems_append, hconf, hadds.confirmed, List.append_assoc]

theorem getPacketToSend_it {mem : β → List UInt8} (hd : txDiscSent c = false) :
    (getPacketToSend mem c).frame.bind (·.it) = txItem (txDone c !c.flags.uDone) := by
  simp only [getPacketToSend, hd, Bool.false_eq_true, if_false, Option.bind_some]
  rw [← txPrep_it _ (!c.flags.uDone), txCopy]
  split
  · rename_i hit
    exact hit.symm
  · rename_i hit
    exact hit.symm

theorem getPacketToSend_moved (hmt : cfg.mt = false) (h : Inv c [] q) (mem : β → List UInt8) :
    Moved c q (copyMark (getPacketToSend mem c)) [] (getPacketToSend mem c).settle := by
  obtain ⟨hrefines, hitem⟩ := getPacketToSend_refines mem h.refines fun _ => h.isOpen
  cases hd : txDiscSent c with
  | true =>
    rw [getPacketToSend_disc mem hd]
    have hdone : Inv ({ c with flags := { c.flags with uDone := true } } : Conn cfg β) [] q :=
      h.frame [] rfl rfl rfl rfl rfl rfl (by simp) quiet_nil
    obtain ⟨r, back, hd, hadds, hmoves⟩ := Moved.handleDisconnect hmt hdone
    exact ⟨r, back, hd, ⟨hadds.accepted, hadds.confirmed⟩, hmoves⟩
  | false =>
    obtain ⟨_, hlog⟩ := getPacketToSend_step mem hd
    have htodo := getPacketToSend_todo mem hd
    have hno : .handleDisconnect ∉ (getPacketToSend mem c).todo := by
      rw [htodo]
      exact disconnect_notMem_callIf _ _
    rw [settle_eq hno, htodo]
    apply Moved.later _ (quiet_callIf _ _ rfl)
    have hcopy := quiet_copy (txItem (txDone c !c.flags.uDone))
    have hadds := Adds.of_log hlog
    rw [acceptedItems_of_keys hcopy.accepted, hcopy.confirmed] at hadds
    refine ⟨_, [], hrefines, hadds, ?_⟩
    rw [copyMark, getPacketToSend_it hd, hd]
    cases hn : txNumbered c with
    | true =>
      obtain ⟨hlt, hx⟩ := hitem hn
      have hit : txItem (txDone c !c.flags.uDone) = some (.numbered, q.win[q.sent]) := by
        rw [← hx]
        exact if_pos hn
      rw [hit]
      exact .copy (List.getElem?_eq_getElem hlt)
    | false =>
      have hit : ∀ it, txItem (txDone c !c.flags.uDone) ≠ some (.numbered, it) := by
        intro it hit
        rw [txItem, if_neg (by rw [show txNumbered (txDone c _) = txNumbered c from rfl, hn]
                               exact Bool.false_ne_true)] at hit
        split at hit
        · cases hit
        · cases hit
      split
      · rename_i hnum
        exact absurd hnum (hit _)
      · exact .same

theorem copyMark_none {a : Call w β} (hg : ∀ mem, a ≠ .getPacketToSend mem) :
    copyMark (a.run c) = [] := by
  rw [copyMark, run_frame c hg]
  rfl

theorem run_moved (hmt : cfg.mt = false) (h : Inv c [] q) (a : Call w β) :
    ∃ taken, Moved c q (copyMark (a.run c)) taken (a.run c).settle := by
  have hsame : Moved c q [] [] c := .still h
  cases a with
  | enqueueData dstChan buf size ttl =>
    obtain ⟨htodo, hc⟩ := enqueueData_cases c c.log.length dstChan (.ofPtr buf) size ttl
    rw [copyMark_none (by rintro mem ⟨⟩)]
    simp only [Call.run, Out.settle, htodo, List.foldl_nil]
    rcases hc with hc | ⟨hopen, hroom, _, _, hc⟩
    · rw [hc]
      exact ⟨[], hsame⟩
    · rw [hc]
      refine ⟨[c.queuedItem c.log.length dstChan (.ofPtr buf) size ttl], _, [],
        push_spec h.refines hopen hroom (normTtl_bounds ttl), ?_, .push rfl⟩
      constructor
      · exact acceptedItems_append _ [.accepted .numbered _]
      · exact confirmedItems_append _ [.accepted .numbered _]
  | sendUrgentData dstChan buf size =>
    obtain ⟨htodo, hc⟩ := sendUrgentData_cases c c.log.length dstChan (.ofPtr buf) size
    rw [copyMark_none (by rintro mem ⟨⟩)]
    simp only [Call.run, Out.settle, htodo, List.foldl_nil]
    rcases hc with hc | ⟨_, _, _, _, hc⟩
    · rw [hc]
      exact ⟨[], hsame⟩
    · rw [hc]
      have hquiet : Quiet [(.accepted .unnumbered
          (c.urgentItem c.log.length dstChan (.ofPtr buf) size) : Ev w β)] := quiet_cons rfl quiet_nil
      exact ⟨[], .same (h.frame _ rfl rfl rfl rfl rfl rfl rfl hquiet) rfl hquiet⟩
  | sendDisconnect =>
    rw [copyMark_none (by rintro mem ⟨⟩)]
    simp only [Call.run, Ludlc.sendDisconnect, Out.settle]
    split
    · exact ⟨[], hsame⟩
    · split
      · exact ⟨[], hsame⟩
      · simp only [List.foldl_cons, List.foldl_nil, runTodo]
        split
        · simp only [confirmULock, hmt, Bool.false_eq_true, if_false, callNow, Conn.emit]
          have hquiet : Quiet [(.call (.onConfirm .unnumbered (c.uPacket.resolve .ecanceled)) :
              Ev w β), .ret (.onConfirm .unnumbered (c.uPacket.resolve .ecanceled))] :=
            quiet_call rfl
          refine ⟨[], .same (h.frame _ rfl rfl rfl rfl rfl rfl ?_ hquiet) ?_ hquiet⟩
          · exact List.append_assoc _ _ _
          · exact List.append_assoc _ _ _
        · have hlog : c.log = c.log ++ [] := by rw [List.append_nil]
          exact ⟨[], .same (h.frame [] rfl rfl rfl rfl rfl rfl hlog quiet_nil) hlog quiet_nil⟩
  | connect =>
    rw [copyMark_none (by rintro mem ⟨⟩)]
    simp only [Call.run, Ludlc.connect, Out.settle]
    split
    · exact ⟨[], hsame⟩
    · split
      · exact ⟨[], hsame⟩
      · exact ⟨[], .down hmt h⟩
  | handleDisconnect =>
    rw [copyMark_none (by rintro mem ⟨⟩)]
    have hdown := Moved.handleDisconnect hmt h
    simp only [runTodo] at hdown
    simp only [Call.run, Ludlc.handleDisconnect, Out.settle]
    refine ⟨[], ?_⟩
    split at hdown
    · rename_i hb
      simpa [runTodo, hb] using hdown
    · rename_i hb
      simpa [runTodo, hb] using hdown
  | getPacketToSend mem => exact ⟨[], getPacketToSend_moved hmt h mem⟩
  | receive p pktSz tstamp =>
    rw [copyMark_none (by rintro mem ⟨⟩)]
    exact ⟨[], receive_moved hmt h p pktSz tstamp⟩

/-! ### Runs -/

theorem Inv.regular (h : Inv c [] q) :
    Regular (acceptedItems c.log) (confirmedItems c.log) c.log.length q := by
  have hkeys : acceptedKeys c.log = confirmedKeys c.log ++ q.win.map (·.key) := h.ledger.keys
  have hwin : ∀ x ∈ q.win, x.key ∈ acceptedKeys c.log := by
    intro x hx
    rw [hkeys]
    exact List.mem_append_right _ (List.mem_map_of_mem hx)
  constructor
  · have htags := h.ledger.tags
    rw [hkeys, List.pairwise_append, List.pairwise_map] at htags
    rw [List.Nodup, List.pairwise_map]
    exact htags.2.1.imp fun hlt => Nat.ne_of_lt hlt
  · intro x hx
    apply h.ledger.fresh x.key
    rw [← acceptedItems_keys]
    exact List.mem_map_of_mem hx
  · intro x hx
    apply h.ledger.fresh x.key
    rw [hkeys]
    exact List.mem_append_left _ (List.mem_map_of_mem hx)
  · intro x hx
    exact h.ledger.fresh x.key (hwin x hx)
  · exact (h.refines.sent h.isOpen).2
  · intro x hx
    exact (h.refines.ttl x hx).1

/-- One end with what its calls have returned and charged. -/
def tally (s : Conn cfg β × List (Mark Nat)) (a : Call w β) :
    Option (Conn cfg β × List (Mark Nat)) :=
  (step s.1 a).map fun d => (d, s.2 ++ (copyMark (a.run s.1) ++ charged s.1 d))

/-- The histories that calls from `ludlc_connection_init` on leave. -/
abbrev Tallied (s : Conn cfg β × List (Mark Nat)) : Prop :=
  Runs.Reachable (Conn.init cfg β, []) tally (fun _ _ => True) s

/-- What holds between two calls. -/
def Accounts (s : Conn cfg β × List (Mark Nat)) : Prop :=
  ∃ q, Inv s.1 [] q ∧
    Spent (acceptedItems s.1.log) (confirmedItems s.1.log) s.1.log.length q s.2

theorem accounts_run (hmt : cfg.mt = false) {s s' : Conn cfg β × List (Mark Nat)}
    (h : Accounts s) {a : Call w β} (hs : tally s a = some s') : Accounts s' := by
  obtain ⟨q, hinv, hspent⟩ := h
  obtain ⟨d, hd, rfl⟩ := Option.map_eq_some_iff.mp hs
  obtain rfl := step_eq hd
  obtain ⟨q', hinv', _⟩ := inv_run hmt hinv a
  obtain ⟨taken, r, back, hrefines, hadds, hmoves⟩ := run_moved hmt hinv a
  obtain ⟨evs, hlog, _⟩ := run_deliveries s.1 a
  have hwin : q'.win = r.win := by
    rw [← hinv'.refines.windowItems, hrefines.windowItems]
  have hsent : q'.sent = r.sent := by
    rw [← SentAt.numSent hinv'.refines.toHolding (hinv'.refines.sent hinv'.isOpen),
      SentAt.numSent hrefines.toHolding (hrefines.sent hinv'.isOpen)]
  have hcharged : charged s.1 (a.run s.1).settle = lowered q.win (back ++ r.win) := by
    rw [charged, hinv.refines.windowItems, hrefines.windowItems, hadds.confirmed,
      List.drop_left]
  have hlen : s.1.log.length + taken.length ≤ (a.run s.1).settle.log.length := by
    have htaken : acceptedItems evs = taken := by
      have hacc := hadds.accepted
      rw [hlog, acceptedItems_append] at hacc
      exact List.append_cancel_left hacc
    rw [hlog, List.length_append, ← htaken]
    exact Nat.add_le_add_left (List.length_filterMap_le _ _) _
  have hafter := hspent.moves hinv.regular hmoves hlen
  refine ⟨q', hinv', ?_⟩
  simp only [hcharged, hadds.accepted, hadds.confirmed]
  refine ⟨hafter.paid, ?_, ?_, hafter.expired, hafter.old⟩
  · rw [hwin, hsent]
    exact hafter.sent
  · rw [hwin]
    exact hafter.ttl

theorem accounts_tallied (hmt : cfg.mt = false) {s : Conn cfg β × List (Mark Nat)}
    (h : Tallied s) : Accounts s := by
  have hinit : Accounts ((Conn.init cfg β, []) : Conn cfg β × List (Mark Nat)) :=
    ⟨.empty, inv_init, Spent.init⟩
  exact h.invariant (I := Accounts) hinit fun hi _ hs => accounts_run hmt hi hs

/-- A packet given up was sent as often as its TTL says, and between two charges it was sent
again. -/
theorem given_up_paid (hmt : cfg.mt = false) {c : Conn cfg β} {tr : List (Mark Nat)}
    (h : Tallied (c, tr)) :
    (∀ pkt ∈ acceptedItems c.log, ∀ it ∈ confirmedItems c.log, it.tag = pkt.tag →
      it.result = .etimedout → pkt.ttl ≤ copies pkt.tag tr) ∧
    ∀ tag pre mid post, tr = pre ++ .charge tag :: (mid ++ .charge tag :: post) →
      .copy tag ∈ mid := by
  obtain ⟨q, _, hspent⟩ := accounts_tallied hmt h
  constructor
  · intro pkt hpkt it hit htag hres
    have hcharges := hspent.expired it hit hres pkt hpkt htag.symm
    rw [htag] at hcharges
    exact le_trans hcharges (hspent.paid.charges_le pkt.tag)
  · intro tag pre mid post htr
    exact hspent.paid.copy_between htr

/-- A packet with a TTL of two is sent, missed, sent again, missed again and given up. -/
theorem given_up_paid_two :
    ∃ s : Conn (.ofBuild (.ofWindow 1 (by decide)) false 1 (by decide)) Unit × List (Mark Nat),
      Tallied s ∧ ∃ pkt ∈ acceptedItems s.1.log, ∃ it ∈ confirmedItems s.1.log,
        it.tag = pkt.tag ∧ it.result = .etimedout ∧ pkt.ttl = 2 ∧ 2 ≤ copies pkt.tag s.2 := by
  obtain ⟨s, hs, hgiven⟩ := Runs.Reachable.of_exec
    (Conn.init (.ofBuild (.ofWindow 1 (by decide)) false 1 (by decide)) Unit, []) tally
    (fun _ _ => true)
    [.receive (.hshake _ 0) 3 0, .receive (.hshake _ 1) 3 0, .receive (.hshake _ 2) 3 0,
      .enqueueData 1 (some ()) 1 2, .getPacketToSend fun _ => [7],
      .receive (.ping 0 ⟨true, 0⟩) 2 0, .getPacketToSend fun _ => [7],
      .receive (.ping 0 ⟨true, 0⟩) 2 0]
    (fun s => (acceptedItems s.1.log).any fun pkt => pkt.ttl = 2 &&
      (confirmedItems s.1.log).any fun it => it.tag = pkt.tag && decide (it.result = .etimedout))
    (by decide +kernel) (by decide +kernel)
  have hreach : Tallied s := hs.mono fun _ _ _ => trivial
  obtain ⟨pkt, hpkt, hgiven⟩ := List.any_eq_true.mp hgiven
  rw [Bool.and_eq_true, decide_eq_true_iff] at hgiven
  obtain ⟨it, hit, hlow⟩ := List.any_eq_true.mp hgiven.2
  simp only [Bool.and_eq_true, decide_eq_true_eq] at hlow
  have hpaid := (given_up_paid rfl hreach).1 pkt hpkt it hit hlow.1 hlow.2
  rw [hgiven.1] at hpaid
  exact ⟨s, hreach, pkt, hpkt, it, hit, hlow.1, hlow.2, hgiven.1, hpaid⟩

end Inline

end Ludlc
