import Ludlc.InOrder
import Ludlc.Tally

/-! # What two ends make of a session

A handshake step carries the number of its sender's state and nothing of the session it is for. So the
steps of an earlier session that are still on their way may complete a later handshake, and the ends
then disagree. As long as an end comes up on a frame that its peer has sent since the peer's last reset,
what it holds is what the peer has sent it in this session.
-/

namespace Ludlc

open SeqNum Runs

variable {w : Wire} {β : Type}

/-- Two ends, with when each frame on its way was sent, as a length of its sender's history. -/
structure Dated {w : Wire} (cfg : Side → Cfg w) (β : Type) where
  pair : Pair cfg β
  sentAt : Side → List Nat
  /-- When the last frame was sent that an end took while it was not CONNECTED. An end that is has come
  up on that frame. -/
  upAt : Side → Nat

namespace Dated

variable {cfg : Side → Cfg w}

def init {w : Wire} (cfg : Side → Cfg w) (β : Type) : Dated cfg β where
  pair := .init cfg β
  sentAt _ := []
  upAt _ := 0

def step (mem : Side → β → List UInt8) (s : Dated cfg β) (a : Pair.Move w β) : Option (Dated cfg β) :=
  (Pair.step mem s.pair a).map fun pair =>
    { pair
      sentAt := match a with
        | .call _ _ => s.sentAt
        | .tx e => Function.update s.sentAt e (s.sentAt e ++
            (getPacketToSend (mem e) (s.pair.conn e)).sent.map fun _ => (s.pair.conn e).log.length)
        | .rx e _ => Function.update s.sentAt e.peer (s.sentAt e.peer).tail
        | .drop e i => Function.update s.sentAt e ((s.sentAt e).eraseIdx i)
      upAt := match a with
        | .rx e _ =>
          if (s.pair.conn e).connState = .connected then s.upAt
          else Function.update s.upAt e ((s.sentAt e.peer).headD 0)
        | _ => s.upAt }

/-- The runs of two ends from `ludlc_connection_init` on. -/
abbrev Reaches (mem : Side → β → List UInt8) (s : Dated cfg β) : Prop :=
  Reachable (Dated.init cfg β) (step mem) (fun _ _ => True) s

end Dated

/-- What a frame says that was sent where the history was `log`. -/
structure Carries (mem : β → List UInt8) (log : List (Ev w β)) (f : Frame w) : Prop extends f.Sound where
  acks : f.pkt.hdr.ackId.id = wrap w.idBits (deliveries (sinceReset log)).length
  data : ∀ k ∈ f.carried, k ∈ (acceptedKeys (sinceReset log)).map (·.delivery mem)

section Carries

variable {cfg : Cfg w} {c : Conn cfg β} {q : SendQueue (PacketQueueItem w β)}

/-- A frame that is sent says how far its sender has received, and carries a packet of this session. -/
theorem getPacketToSend_carries (mem : β → List UInt8) (h : Tally c) (hq : Inline.Inv c [] q) :
    ∀ f ∈ (getPacketToSend mem c).sent, Carries mem c.log f := by
  intro f hf
  have hack : f.pkt.hdr.ackId.id = wrap w.idBits (deliveries (sinceReset c.log)).length := by
    rw [getPacketToSend_ackId mem c f hf]
    split
    next => exact h.received
    next hne => rw [(h.down hne).2, List.length_nil, wrap_zero]
  cases getPacketToSend_sends mem c f hf with
  | hshake hne hsrc hchan =>
    refine ⟨⟨fun _ => hsrc, fun hflag hs => ?_⟩, hack, by simp [Frame.carried, hsrc]⟩
    simp [isHshake, hflag, hchan] at hs
  | unnumbered hsrc hflag =>
    refine ⟨⟨fun _ => hsrc, fun hno => ?_⟩, hack, by simp [Frame.carried, hsrc]⟩
    rw [hflag] at hno
    cases hno
  | data it hnum hit htx hsrc hdata =>
    refine ⟨⟨fun hflag => ?_, fun _ _ => by rw [hsrc]; rfl⟩, hack, ?_⟩
    · rw [htx] at hflag
      cases hflag
    · obtain ⟨hlt, hslot⟩ := (getPacketToSend_refines mem hq.refines fun _ => hq.isOpen).2 hnum
      have hmem : it.key ∈ acceptedKeys (sinceReset c.log) := by
        rw [h.held hq, hit, hslot]
        exact List.mem_append_right _ (List.mem_map_of_mem (List.getElem_mem hlt))
      intro k hk
      rw [Frame.carried, hsrc, Option.toList_some, List.map_singleton, List.mem_singleton, ← hdata] at hk
      rw [hk]
      exact List.mem_map_of_mem hmem

end Carries

section Log

variable {log evs : List (Ev w β)} {up p p' : Nat}

theorem noReset_append (hup : up ≤ log.length) (h : .seqReset ∉ (log ++ evs).drop up) :
    .seqReset ∉ log.drop up ∧ .seqReset ∉ evs := by
  rw [List.drop_append_of_le_length hup, List.mem_append, not_or] at h
  exact h

theorem noReset_drop (hle : p ≤ p') (h : .seqReset ∉ log.drop p) : .seqReset ∉ log.drop p' := by
  intro hmem
  apply h
  obtain ⟨k, rfl⟩ := Nat.exists_eq_add_of_le hle
  rw [← List.drop_drop] at hmem
  exact List.mem_of_mem_drop hmem

/-- Within a session the end never has received less. -/
theorem deliveries_take_le (hle : p ≤ p') (h : .seqReset ∉ log.drop p) :
    (deliveries (sinceReset (log.take p))).length ≤
      (deliveries (sinceReset (log.take p'))).length := by
  obtain ⟨k, rfl⟩ := Nat.exists_eq_add_of_le hle
  have hno : .seqReset ∉ (log.drop p).take k := fun hmem => h (List.mem_of_mem_take hmem)
  rw [List.take_add, sinceReset_append hno, deliveries_append, List.length_append]
  exact Nat.le_add_right _ _

end Log

/-- One direction: the sender `c`, the frames `ch` on their way and when they were sent, and the
receiver `d`, which came up on a frame sent at `up`. -/
structure Leg {cfg cfg' : Cfg w} (mem : β → List UInt8) (c : Conn cfg β) (ch : List (Frame w))
    (ps : List Nat) (d : Conn cfg' β) (up : Nat) : Prop where
  sorted : (up :: ps).Pairwise (· ≤ ·)
  past : ∀ p ∈ up :: ps, p ≤ c.log.length
  frames : List.Forall₂ (fun f p => Carries mem (c.log.take p) f) ch ps
  heard : d.connState = .connected → .seqReset ∉ c.log.drop up → ∀ k ∈ deliveries (sinceReset d.log),
    k ∈ (acceptedKeys (sinceReset c.log)).map (·.delivery mem)

section Leg

variable {cfg cfg' : Cfg w} {mem : β → List UInt8} {c c' : Conn cfg β} {ch : List (Frame w)}
  {ps : List Nat} {d d' : Conn cfg' β} {up : Nat}

/-- The history of the sender grows, and what it sends is sent at its end. -/
theorem Leg.sender (h : Leg mem c ch ps d up) {evs : List (Ev w β)} (hlog : c'.log = c.log ++ evs)
    {fs : List (Frame w)} (hfs : ∀ f ∈ fs, Carries mem c.log f) :
    Leg mem c' (ch ++ fs) (ps ++ fs.map fun _ => c.log.length) d up where
  sorted := by
    rw [← List.cons_append, List.pairwise_append]
    refine ⟨h.sorted, ?_, fun p hp p' hp' => ?_⟩
    · rw [List.pairwise_map]
      exact List.pairwise_of_forall fun _ _ => le_refl _
    · obtain ⟨f, -, rfl⟩ := List.mem_map.mp hp'
      exact h.past p hp
  past := by
    intro p hp
    have hlen : c.log.length ≤ c'.log.length := by simp [hlog]
    rw [← List.cons_append, List.mem_append] at hp
    rcases hp with hp | hp
    · exact (h.past p hp).trans hlen
    · obtain ⟨f, -, rfl⟩ := List.mem_map.mp hp
      exact hlen
  frames := by
    apply List.rel_append
    · obtain ⟨hlen, hcarries⟩ := List.forall₂_iff_zip.mp h.frames
      refine List.forall₂_iff_zip.mpr ⟨hlen, fun hmem => ?_⟩
      have hp := h.past _ (List.mem_cons_of_mem _ (List.of_mem_zip hmem).2)
      rw [hlog, List.take_append_of_le_length hp]
      exact hcarries hmem
    · rw [List.forall₂_map_right_iff, List.forall₂_same]
      intro f hf
      rw [hlog, List.take_left]
      exact hfs f hf
  heard := by
    intro hconn hno k hk
    rw [hlog] at hno
    obtain ⟨hno, hevs⟩ := noReset_append (h.past up List.mem_cons_self) hno
    rw [hlog, sinceReset_append hevs, acceptedKeys_append, List.map_append, List.mem_append]
    exact .inl (h.heard hconn hno k hk)

/-- What the receiver has got since its last reset grows by what it takes, or is nothing. -/
theorem Tally.got {got : List (Delivery w)} {acked : Nat} (h : Tally d) (hc : Course d d' got acked) :
    ∀ k ∈ deliveries (sinceReset d'.log),
      (d.connState = .connected ∧ k ∈ deliveries (sinceReset d.log)) ∨ k ∈ got := by
  intro k hk
  cases hc with
  | kept evs hlog hno _ hgot =>
    rw [hlog, sinceReset_append hno, deliveries_append, hgot, List.mem_append] at hk
    rcases hk with hk | hk
    · left
      refine ⟨?_, hk⟩
      by_contra hne
      rw [(h.down hne).2] at hk
      cases hk
    · exact .inr hk
  | reset pre post hlog hidle =>
    rw [hlog, sinceReset_reset hidle.noReset, hidle.deliveries] at hk
    cases hk

theorem Leg.receiver (h : Leg mem c ch ps d up) (ht : Tally d) {acked : Nat}
    (hc : Course d d' [] acked) : Leg mem c ch ps d' up := by
  refine ⟨h.sorted, h.past, h.frames, fun _ hno k hk => ?_⟩
  rcases ht.got hc k hk with ⟨hconn, hk⟩ | hk
  · exact h.heard hconn hno k hk
  · cases hk

/-- The receiver takes the first frame, which it comes up on if it is not CONNECTED. -/
theorem Leg.takes {f : Frame w} {p : Nat} (h : Leg mem c (f :: ch) (p :: ps) d up) (ht : Tally d)
    {got : List (Delivery w)} {acked : Nat} (hc : Course d d' got acked)
    (hgot : ∀ k ∈ got, k ∈ f.carried) :
    Leg mem c ch ps d' (if d.connState = .connected then up else p) := by
  obtain ⟨hf, hframes⟩ := List.forall₂_cons.mp h.frames
  have hp : up ≤ p := List.rel_of_pairwise_cons h.sorted List.mem_cons_self
  have hgot : .seqReset ∉ c.log.drop p → ∀ k ∈ got,
      k ∈ (acceptedKeys (sinceReset c.log)).map (·.delivery mem) := by
    intro hno k hk
    rw [sinceReset_take hno, acceptedKeys_append, List.map_append, List.mem_append]
    exact .inl (hf.data k (hgot k hk))
  split
  next hconn =>
    refine ⟨h.sorted.sublist (.cons_cons up (List.sublist_cons_self p ps)), ?_, hframes, ?_⟩
    · intro p' hp'
      apply h.past
      rcases List.mem_cons.mp hp' with rfl | hp'
      · exact List.mem_cons_self
      · simp [hp']
    · intro _ hno k hk
      rcases ht.got hc k hk with ⟨-, hk⟩ | hk
      · exact h.heard hconn hno k hk
      · exact hgot (noReset_drop hp hno) k hk
  next hne =>
    refine ⟨(List.pairwise_cons.mp h.sorted).2, fun p' hp' => h.past p' (List.mem_cons_of_mem _ hp'),
      hframes, ?_⟩
    intro _ hno k hk
    rcases ht.got hc k hk with ⟨hconn, -⟩ | hk
    · exact absurd hconn hne
    · exact hgot hno k hk

theorem Leg.drop (h : Leg mem c ch ps d up) (i : Nat) :
    Leg mem c (ch.eraseIdx i) (ps.eraseIdx i) d up := by
  have hsub : (up :: ps.eraseIdx i).Sublist (up :: ps) := (List.eraseIdx_sublist ps i).cons_cons up
  exact ⟨h.sorted.sublist hsub, fun p hp => h.past p (hsub.mem hp), forall₂_eraseIdx h.frames i, h.heard⟩

end Leg

/-- No packet that `c` has given up in this session has been passed to `on_recv` at the other end. -/
def NoneLost {cfg cfg' : Cfg w} (c : Conn cfg β) (d : Conn cfg' β) : Prop :=
  ∀ k ∈ deliveries (sinceReset d.log), ∀ it ∈ expiredItems (sinceReset c.log), it.tag ≠ k.tag

/-- In a session that the sender and the receiver `d` share, no packet has been acknowledged that the
receiver did not count, neither now nor in what it has sent at `ps`. -/
def Behind {cfg cfg' : Cfg w} (c : Conn cfg β) (up : Nat) (d : Conn cfg' β) (ps : List Nat)
    (up' : Nat) : Prop :=
  c.connState = .connected → .seqReset ∉ d.log.drop up →
    (d.connState = .connected → .seqReset ∉ c.log.drop up') → NoneLost c d →
    ∀ p ∈ d.log.length :: ps, (ackedItems (sinceReset c.log)).length ≤
      (deliveries (sinceReset (d.log.take p))).length

section Behind

variable {cfg cfg' : Cfg w} {mem : β → List UInt8} {c c' : Conn cfg β} {ch : List (Frame w)}
  {ps ps' : List Nat} {d d' : Conn cfg' β} {up up' : Nat} {q : SendQueue (PacketQueueItem w β)}

/-- What an end has received is acknowledged or in its peer's window. -/
theorem received_le (hc : Tally c) (hq : Inline.Inv c [] q) (hd : Tally d)
    (hnodup : ((deliveries d.log).map (·.tag)).Nodup)
    (hheard : ∀ k ∈ deliveries (sinceReset d.log),
      k ∈ (acceptedKeys (sinceReset c.log)).map (·.delivery mem)) (hlost : NoneLost c d) :
    (deliveries (sinceReset d.log)).length ≤
      (ackedItems (sinceReset c.log)).length + q.win.length := by
  obtain ⟨past, hpast, -⟩ := hd.past
  rw [hpast, deliveries_append, List.map_append] at hnodup
  have hsub : (deliveries (sinceReset d.log)).map (·.tag) ⊆
      (ackedItems (sinceReset c.log) ++ q.win).map (·.key.tag) := by
    intro tag htag
    obtain ⟨k, hk, rfl⟩ := List.mem_map.mp htag
    obtain ⟨key, hkey, rfl⟩ := List.mem_map.mp (hheard k hk)
    rw [hc.held hq, List.mem_append] at hkey
    rcases hkey with hkey | hkey
    · rcases mem_confirmedKeys hkey with hkey | hkey
      · obtain ⟨it, hit, rfl⟩ := List.mem_map.mp hkey
        exact List.mem_map.mpr ⟨it, List.mem_append_left _ hit, rfl⟩
      · obtain ⟨it, hit, rfl⟩ := List.mem_map.mp hkey
        exact absurd rfl (hlost _ hk it hit)
    · obtain ⟨it, hit, rfl⟩ := List.mem_map.mp hkey
      exact List.mem_map.mpr ⟨it, List.mem_append_right _ hit, rfl⟩
  have hle := (List.subperm_of_subset (List.nodup_append.mp hnodup).2.1 hsub).length_le
  simpa using hle

theorem NoneLost.of_append {evs evs' : List (Ev w β)}
    (h : NoneLost c' d') (hc : sinceReset c'.log = sinceReset c.log ++ evs)
    (hd : sinceReset d'.log = sinceReset d.log ++ evs') : NoneLost c d := by
  intro k hk it hit
  apply h
  · rw [hd, deliveries_append]
    exact List.mem_append_left _ hk
  · rw [hc, expiredItems_append]
    exact List.mem_append_left _ hit

/-- A call of the sender that receives nothing acknowledges nothing. -/
theorem Behind.sender (h : Behind c up d ps up') (ht : Tally c) (hpast : up' ≤ c.log.length)
    {got : List (Delivery w)} (hc : Course c c' got 0) : Behind c' up d ps up' := by
  intro hconn hno hno' hlost p hp
  cases hc with
  | reset pre post _ _ _ _ _ hne => exact absurd hconn hne
  | kept evs hlog hevs hacked =>
    have hsince : sinceReset c'.log = sinceReset c.log ++ evs := by rw [hlog, sinceReset_append hevs]
    rw [hsince, ackedItems_append, List.length_append, hacked, Nat.add_zero]
    by_cases hc : c.connState = .connected
    · refine h hc hno (fun hd => ?_) (hlost.of_append hsince (List.append_nil _).symm) p hp
      exact (noReset_append hpast (hlog ▸ hno' hd)).1
    · rw [(ht.down hc).1]
      exact Nat.zero_le _

/-- What the sender takes from the receiver acknowledges what that had received when it sent it. -/
theorem Behind.takes {f : Frame w} {p : Nat} (h : Behind c up d (p :: ps) up') (ht : Tally c)
    (hq : Inline.Inv c [] q) (hd : Tally d) (hleg : Leg mem c ch ps' d up')
    (hsorted : (up :: p :: ps).Pairwise (· ≤ ·)) (hpast : ∀ p' ∈ p :: ps, p' ≤ d.log.length)
    (hnodup : ((deliveries d.log).map (·.tag)).Nodup)
    {mem' : β → List UInt8} (hf : Carries mem' (d.log.take p) f)
    {got : List (Delivery w)} {acked : Nat} (hc : Course c c' got acked)
    (hacked : acked = 0 ∨ acked = (f.pkt.hdr.ackId.id - c.lastAck).toNat) :
    Behind c' (if c.connState = .connected then up else p) d ps up' := by
  intro hconn hno hno' hlost p' hp'
  cases hc with
  | reset pre post _ _ _ _ _ hne => exact absurd hconn hne
  | kept evs hlog hevs hcount =>
    have hsince : sinceReset c'.log = sinceReset c.log ++ evs := by rw [hlog, sinceReset_append hevs]
    rw [hsince, ackedItems_append, List.length_append, hcount]
    have hlost : NoneLost c d := hlost.of_append hsince (List.append_nil _).symm
    have hno' : d.connState = .connected → .seqReset ∉ c.log.drop up' := fun hc =>
      (noReset_append (hleg.past up' List.mem_cons_self) (hlog ▸ hno' hc)).1
    have hdrop : .seqReset ∉ d.log.drop p := by
      split at hno
      · exact noReset_drop (List.rel_of_pairwise_cons hsorted List.mem_cons_self) hno
      · exact hno
    -- The frame counts all that has been acknowledged, and no more than has been sent.
    have hlow : (ackedItems (sinceReset c.log)).length ≤
        (deliveries (sinceReset (d.log.take p))).length := by
      by_cases hc : c.connState = .connected
      · rw [if_pos hc] at hno
        exact h hc hno hno' hlost p (by simp)
      · rw [(ht.down hc).1]
        exact Nat.zero_le _
    have hnext : ∀ p' ∈ d.log.length :: ps, p ≤ p' := by
      intro p' hp'
      rcases List.mem_cons.mp hp' with rfl | hp'
      · exact hpast p List.mem_cons_self
      · exact List.rel_of_pairwise_cons (List.pairwise_cons.mp hsorted).2 hp'
    have hheard : ∀ k ∈ deliveries (sinceReset d.log),
        k ∈ (acceptedKeys (sinceReset c.log)).map (·.delivery mem) := by
      intro k hk
      by_cases hc : d.connState = .connected
      · exact hleg.heard hc (hno' hc) k hk
      · rw [(hd.down hc).2] at hk
        cases hk
    have hhigh := received_le ht hq hd hnodup hheard hlost
    have hnow := deliveries_take_le (hnext _ List.mem_cons_self) hdrop
    rw [List.take_length] at hnow
    have hroom := hq.refines.room
    have htwo := two_window_le w
    have hpos := window_pos w
    have hdist : (f.pkt.hdr.ackId.id - c.lastAck).toNat =
        (deliveries (sinceReset (d.log.take p))).length - (ackedItems (sinceReset c.log)).length := by
      rw [hf.acks, ht.acked, sub_of_le hlow (by omega)]
    have hmono := deliveries_take_le (hnext p' hp') hdrop
    omega

/-- The receiver counts on, and what it sends says what it has counted. -/
theorem Behind.receiver (h : Behind c up d ps up') (hpast : ∀ p ∈ up :: ps, p ≤ d.log.length)
    {got : List (Delivery w)} {acked : Nat} (hd : Course d d' got acked) {up'' : Nat}
    (hup : d.connState = .connected → up'' = up') (fs : List (Frame w)) :
    Behind c up d' (ps ++ fs.map fun _ => d.log.length) up'' := by
  intro hconn hno hno' hlost p hp
  have hup' : up ≤ d.log.length := hpast up List.mem_cons_self
  cases hd with
  | reset pre post hlog =>
    rw [hlog, List.append_assoc] at hno
    exact absurd (by simp) (noReset_append hup' hno).2
  | kept evs hlog hevs _ _ _ _ hkeep =>
    have hsince : sinceReset d'.log = sinceReset d.log ++ evs := by rw [hlog, sinceReset_append hevs]
    have hall := h hconn (noReset_append hup' (hlog ▸ hno)).1
      (fun hc => hup hc ▸ hno' (hkeep hc)) (hlost.of_append (List.append_nil _).symm hsince)
    have hold : ∀ p ∈ d.log.length :: ps, (ackedItems (sinceReset c.log)).length ≤
        (deliveries (sinceReset (d'.log.take p))).length := by
      intro p hp
      have hle : p ≤ d.log.length := by
        rcases List.mem_cons.mp hp with rfl | hp
        · exact le_refl _
        · exact hpast p (List.mem_cons_of_mem _ hp)
      rw [hlog, List.take_append_of_le_length hle]
      exact hall p hp
    rcases List.mem_cons.mp hp with rfl | hp
    · rw [List.take_length, hsince, deliveries_append, List.length_append]
      have := hall d.log.length List.mem_cons_self
      rw [List.take_length] at this
      omega
    · rcases List.mem_append.mp hp with hp | hp
      · exact hold p (List.mem_cons_of_mem _ hp)
      · obtain ⟨f, -, rfl⟩ := List.mem_map.mp hp
        exact hold _ List.mem_cons_self

theorem Behind.drop (h : Behind c up d ps up') (i : Nat) : Behind c up d (ps.eraseIdx i) up' := by
  intro hconn hno hno' hlost p hp
  apply h hconn hno hno' hlost
  exact ((List.eraseIdx_sublist ps i).cons_cons d.log.length).mem hp

end Behind

namespace Dated

variable {cfg : Side → Cfg w} {mem : Side → β → List UInt8} {s s' : Dated cfg β}

structure Agrees (mem : Side → β → List UInt8) (s : Dated cfg β) : Prop where
  ordered : Pair.Ordered mem s.pair
  tally : ∀ e, Tally (s.pair.conn e)
  inv : ∀ e, ∃ q, Inline.Inv (s.pair.conn e) [] q
  leg : ∀ e f, e ≠ f →
    Leg (mem e) (s.pair.conn e) (s.pair.chan e) (s.sentAt e) (s.pair.conn f) (s.upAt f)
  behind : ∀ e f, e ≠ f →
    Behind (s.pair.conn e) (s.upAt e) (s.pair.conn f) (s.sentAt f) (s.upAt f)

theorem agrees_init : Agrees mem (Dated.init cfg β) where
  ordered := Pair.ordered_init
  tally _ := tally_init
  inv _ := ⟨_, Inline.inv_init⟩
  leg e f _ := by
    refine ⟨List.pairwise_singleton _ _, fun p hp => ?_, .nil, ?_⟩
    · cases List.mem_singleton.mp hp
      exact Nat.zero_le _
    · rintro - - k ⟨⟩
  behind e f _ := by
    rintro ⟨⟩

/-- An end makes a call that receives nothing, and may send a frame. -/
theorem Agrees.call (hmt : ∀ e, (cfg e).mt = false) (h : Agrees mem s) (x : Side) {a : Call w β}
    (hr : ∀ p n t, a ≠ .receive p n t)
    (hfs : ∀ f ∈ (a.run (s.pair.conn x)).sent, Carries (mem x) (s.pair.conn x).log f) (due : Bool)
    (hord : Pair.Ordered mem (s.pair.after x (a.run (s.pair.conn x)) due)) :
    Agrees mem { s with
      pair := s.pair.after x (a.run (s.pair.conn x)) due
      sentAt := Function.update s.sentAt x (s.sentAt x ++
        (a.run (s.pair.conn x)).sent.map fun _ => (s.pair.conn x).log.length) } := by
  have hc := course_call (hmt x) (s.pair.conn x) hr
  obtain ⟨evs, hlog⟩ := hc.log
  obtain ⟨q, hq⟩ := h.inv x
  obtain ⟨q', hq', -⟩ := Inline.inv_run (hmt x) hq a
  refine ⟨hord, ?_, ?_, fun e f hef => ?_, fun e f hef => ?_⟩
  · apply (Function.forall_update_iff _ fun _ c => Tally c).mpr
    exact ⟨(h.tally x).course hq' hc, fun e _ => h.tally e⟩
  · apply (Function.forall_update_iff _ fun _ c => ∃ q, Inline.Inv c [] q).mpr
    exact ⟨⟨q', hq'⟩, fun e _ => h.inv e⟩
  · rcases Side.eq_or_eq hef x with rfl | rfl
    · simp only [Pair.after, Function.update_self, Function.update_of_ne hef.symm]
      exact (h.leg x f hef).sender hlog hfs
    · simp only [Pair.after, Function.update_self, Function.update_of_ne hef]
      exact (h.leg e x hef).receiver (h.tally x) hc
  · rcases Side.eq_or_eq hef x with rfl | rfl
    · simp only [Pair.after, Function.update_self, Function.update_of_ne hef.symm]
      exact (h.behind x f hef).sender (h.tally x) ((h.leg x f hef).past _ List.mem_cons_self) hc
    · simp only [Pair.after, Function.update_self, Function.update_of_ne hef]
      exact (h.behind e x hef).receiver (h.leg x e hef.symm).past hc (fun _ => rfl) _

theorem Agrees.receive (hmt : ∀ e, (cfg e).mt = false) (h : Agrees mem s) (x : Side)
    {f : Frame w} {rest : List (Frame w)} (hchan : s.pair.chan x.peer = f :: rest) (tstamp : Nat)
    (due : Bool)
    (hord : Pair.Ordered mem (({ s.pair with
      chan := Function.update s.pair.chan x.peer rest } : Pair cfg β).after x
        (receive (s.pair.conn x) f.pkt f.size tstamp) due)) :
    Agrees mem { s with
      pair := ({ s.pair with chan := Function.update s.pair.chan x.peer rest } : Pair cfg β).after x
        (receive (s.pair.conn x) f.pkt f.size tstamp) due
      sentAt := Function.update s.sentAt x.peer (s.sentAt x.peer).tail
      upAt := if (s.pair.conn x).connState = .connected then s.upAt
        else Function.update s.upAt x ((s.sentAt x.peer).headD 0) } := by
  have hpeer : x.peer ≠ x := by cases x <;> simp [Side.peer]
  have hline := h.leg x.peer x hpeer
  have hnodup := ((h.ordered x x.peer hpeer.symm).sublist).2
  have hback := h.behind x x.peer hpeer.symm
  rw [hchan] at hline
  generalize hps : s.sentAt x.peer = ps at hline hback
  cases ps with
  | nil => cases hline.frames
  | cons p ps =>
  have hf := (List.forall₂_cons.mp hline.frames).1
  obtain ⟨q, hq⟩ := h.inv x
  obtain ⟨got, acked, hc, hgot, hacked⟩ := course_receive (hmt x) hq hf.toSound tstamp
  obtain ⟨evs, hlog⟩ := hc.log
  obtain ⟨q', hq', -⟩ := Inline.inv_run (hmt x) hq (.receive f.pkt f.size tstamp)
  have hgot : ∀ k ∈ got, k ∈ f.carried := by
    rcases hgot with rfl | ⟨-, -, rfl⟩
    · exact fun k hk => absurd hk List.not_mem_nil
    · exact fun k hk => hk
  have hup : ∀ y, (if (s.pair.conn x).connState = .connected then s.upAt
      else Function.update s.upAt x p) y =
      if y = x then (if (s.pair.conn x).connState = .connected then s.upAt x else p) else s.upAt y := by
    intro y
    by_cases hyx : y = x
    · subst hyx
      split <;> simp
    · split <;> simp [hyx]
  refine ⟨hord, ?_, ?_, fun e e' hef => ?_, fun e e' hef => ?_⟩
  · apply (Function.forall_update_iff _ fun _ c => Tally c).mpr
    exact ⟨(h.tally x).course hq' hc, fun e _ => h.tally e⟩
  · apply (Function.forall_update_iff _ fun _ c => ∃ q, Inline.Inv c [] q).mpr
    exact ⟨⟨q', hq'⟩, fun e _ => h.inv e⟩
  · dsimp only [Pair.after]
    rw [List.headD_cons, List.tail_cons, hup]
    rcases Side.eq_or_eq hef x with rfl | rfl
    · have hnone : ∀ f ∈ ([] : List (Frame w)), Carries (mem x) (s.pair.conn x).log f := by simp
      have hleg := (h.leg x e' hef).sender hlog hnone
      simp only [if_neg hef.symm, Function.update_self, Function.update_of_ne hef.symm,
        Function.update_of_ne hpeer.symm]
      simpa [Out.sent, Ludlc.receive] using hleg
    · obtain rfl : x.peer = e := Side.peer_eq hef
      have hleg := hline.takes (h.tally x) hc hgot
      simp only [if_true, Function.update_self, Function.update_of_ne hef]
      exact hleg
  · dsimp only [Pair.after]
    rw [List.headD_cons, List.tail_cons, hup, hup]
    rcases Side.eq_or_eq hef x with rfl | rfl
    · obtain rfl : x.peer = e' := Side.peer_eq hef.symm
      have hacks : acked = 0 ∨ acked = (f.pkt.hdr.ackId.id - (s.pair.conn x).lastAck).toNat :=
        hacked.imp id fun hn => hn.2.1
      have hbehind := hback.takes (h.tally x) hq (h.tally x.peer) (h.leg x x.peer hef)
        hline.sorted (fun p' hp' => hline.past p' (List.mem_cons_of_mem _ hp')) hnodup hf hc hacks
      simp only [if_true, if_neg hef.symm, Function.update_self, Function.update_of_ne hef.symm]
      exact hbehind
    · obtain rfl : x.peer = e := Side.peer_eq hef
      have hstays : (s.pair.conn x).connState = .connected →
          (if (s.pair.conn x).connState = .connected then s.upAt x else p) = s.upAt x :=
        fun hconn => if_pos hconn
      have hbehind := (h.behind x.peer x hef).receiver (h.leg x x.peer hef.symm).past hc hstays []
      simp only [if_true, if_neg hef, Function.update_self, Function.update_of_ne hef,
        Function.update_of_ne hef.symm]
      simpa using hbehind

theorem Agrees.step (hmt : ∀ e, (cfg e).mt = false) (h : Agrees mem s) {a : Pair.Move w β}
    (hs : step mem s a = some s') : Agrees mem s' := by
  obtain ⟨p, hp, rfl⟩ := Option.map_eq_some_iff.mp hs
  have hord := h.ordered.step hmt hp
  cases a with
  | call x a =>
    simp only [Pair.step, Option.ite_none_right_eq_some, Option.some.injEq] at hp
    obtain ⟨hlocal, rfl⟩ := hp
    have hsent := Pair.sent_local (s.pair.conn x) hlocal
    have hcall := h.call hmt x (a := a) (by rintro p n t rfl; cases hlocal) (by simp [hsent]) _ hord
    simpa [hsent] using hcall
  | tx x =>
    cases hp
    obtain ⟨q, hq⟩ := h.inv x
    exact h.call hmt x (a := .getPacketToSend (mem x)) (by simp)
      (getPacketToSend_carries (mem x) (h.tally x) hq) _ hord
  | rx x tstamp =>
    simp only [Pair.step] at hp
    split at hp
    · cases hp
    next f rest hchan =>
    cases hp
    exact h.receive hmt x hchan tstamp _ hord
  | drop x i =>
    cases hp
    refine ⟨hord, h.tally, h.inv, fun e f hef => ?_, fun e f hef => ?_⟩
    · by_cases hex : e = x
      · subst hex
        simp only [Function.update_self]
        exact (h.leg e f hef).drop i
      · simp only [Function.update_of_ne hex]
        exact h.leg e f hef
    · by_cases hfx : f = x
      · subst hfx
        simp only [Function.update_self]
        exact (h.behind e f hef).drop i
      · simp only [Function.update_of_ne hfx]
        exact h.behind e f hef

theorem agrees (hmt : ∀ e, (cfg e).mt = false) (h : Reaches mem s) : Agrees mem s :=
  h.invariant agrees_init fun hi _ hs => hi.step hmt hs

/-- The dates say nothing of what the ends can do. -/
theorem reaches_iff {p : Pair cfg β} :
    Pair.Reaches mem p ↔ ∃ s : Dated cfg β, Reaches mem s ∧ s.pair = p := by
  constructor
  · intro h
    induction h with
    | init => exact ⟨Dated.init cfg β, .init, rfl⟩
    | @step p p' a _ _ hs ih =>
      obtain ⟨s, hr, rfl⟩ := ih
      refine ⟨_, hr.step (a := a) trivial (Option.map_eq_some_iff.mpr ⟨p', hs, rfl⟩), rfl⟩
  · rintro ⟨s, h, rfl⟩
    induction h with
    | init => exact .init
    | step _ _ hs ih =>
      obtain ⟨p', hp, rfl⟩ := Option.map_eq_some_iff.mp hs
      exact ih.step trivial hp

/-- The frame on which an end came up was sent since its peer's last reset. -/
def Current (s : Dated cfg β) (e : Side) : Prop :=
  .seqReset ∉ (s.pair.conn e.peer).log.drop (s.upAt e)

/-- What an end has got since its last reset, its peer has accepted since its own, if the end came up on
a frame that the peer had sent since then. If both came up so, and nothing given up has arrived,
`last_received` is not ahead of `last_queued`: it is at most a window behind. -/
theorem sessions_agree (hmt : ∀ e, (cfg e).mt = false) (h : Reaches mem s)
    (hconn : ∀ e, (s.pair.conn e).connState = .connected) (e : Side) (hcur : s.Current e) :
    (∀ k ∈ deliveries (sinceReset (s.pair.conn e).log),
      k ∈ (acceptedKeys (sinceReset (s.pair.conn e.peer).log)).map (·.delivery (mem e.peer))) ∧
    (s.Current e.peer → NoneLost (s.pair.conn e.peer) (s.pair.conn e) →
      ((s.pair.conn e.peer).lastQueued - (s.pair.conn e).lastReceived).toNat ≤ w.window) := by
  have hpeer : e.peer ≠ e := by cases e <;> simp [Side.peer]
  have hback : e.peer.peer = e := Side.peer_eq hpeer.symm
  have hi := agrees hmt h
  have hheard := (hi.leg e.peer e hpeer).heard (hconn e) hcur
  refine ⟨hheard, fun hcur' hlost => ?_⟩
  obtain ⟨q, hq⟩ := hi.inv e.peer
  have hc := hi.tally e.peer
  have hd := hi.tally e
  have hhigh := received_le hc hq hd ((hi.ordered e.peer e hpeer).sublist).2 hheard hlost
  have hlow := hi.behind e.peer e hpeer (hconn e.peer) (by rw [Current, hback] at hcur'; exact hcur')
    (fun _ => hcur) hlost _ List.mem_cons_self
  rw [List.take_length] at hlow
  have hroom := hq.refines.room
  have htwo := two_window_le w
  have hpos := window_pos w
  have hqueued : (s.pair.conn e.peer).lastQueued =
      wrap w.idBits ((ackedItems (sinceReset (s.pair.conn e.peer).log)).length + q.win.length) := by
    have hack := hc.acked
    rw [hq.refines.ack] at hack
    rw [hq.refines.queued]
    simp only [wrap, BitVec.ofNat_add] at hack ⊢
    rw [← hack]
  rw [hqueued, hd.received, sub_of_le hhigh (by omega)]
  omega

/-- An end that restarts, and its peer with it, on steps that they send for it. -/
theorem sessions_agree_restart :
    let cfg := fun _ : Side => Cfg.ofBuild (.ofWindow 1 (by decide)) false 1 (by decide)
    let mem := fun (_ : Side) (b : UInt8) => [b]
    ∃ s : Dated cfg UInt8, (deliveries (sinceReset (s.pair.conn .right).log)).length = 1 ∧
      (deliveries (s.pair.conn .right).log).length = 2 ∧
      (∀ k ∈ deliveries (sinceReset (s.pair.conn .right).log),
        k ∈ (acceptedKeys (sinceReset (s.pair.conn .left).log)).map (·.delivery (mem .left))) ∧
      ((s.pair.conn .left).lastQueued - (s.pair.conn .right).lastReceived).toNat ≤ 2 := by
  intro cfg mem
  obtain ⟨s, hs, hall⟩ := Reachable.of_exec (Dated.init cfg UInt8) (Dated.step mem) (fun _ _ => true)
    (Pair.handshake ++ [.call .left (.enqueueData 1 (some 7) 1 3), .tx .left, .rx .right 0,
      .call .left .connect, .tx .left, .rx .right 0] ++ Pair.handshake ++
      [.call .left (.enqueueData 1 (some 8) 1 3), .tx .left, .rx .right 0])
    (fun s => (deliveries (sinceReset (s.pair.conn .right).log)).length = 1 ∧
      (deliveries (s.pair.conn .right).log).length = 2 ∧
      (s.pair.conn .left).connState = .connected ∧ (s.pair.conn .right).connState = .connected ∧
      .seqReset ∉ (s.pair.conn .left).log.drop (s.upAt .right) ∧
      .seqReset ∉ (s.pair.conn .right).log.drop (s.upAt .left) ∧
      expiredItems (sinceReset (s.pair.conn .left).log) = []) (by decide +kernel) (by decide +kernel)
  obtain ⟨hone, htwo, hleft, hright, hcur, hcur', hnone⟩ := of_decide_eq_true hall
  have hrun : Reaches mem s := hs.mono fun _ _ _ => trivial
  have hconn : ∀ e, (s.pair.conn e).connState = .connected := by
    intro e
    cases e with
    | left => exact hleft
    | right => exact hright
  have hlost : NoneLost (s.pair.conn .left) (s.pair.conn .right) := by
    intro k _ it hit
    rw [hnone] at hit
    cases hit
  obtain ⟨hheard, hwin⟩ := sessions_agree (fun _ => rfl) hrun hconn .right hcur
  exact ⟨s, hone, htwo, hheard, hwin hcur' hlost⟩

/-- The right end completes a handshake on steps that the left end sent for the one before and gets
packet 7, the left end restarts, and the steps of the right end bring it up again. -/
def staleSteps : List (Pair.Move w UInt8) :=
  [.tx .left, .tx .right, .rx .right 0, .rx .left 0, .tx .left, .tx .left, .tx .right, .rx .right 0,
    .rx .left 0, .tx .left, .tx .left, .tx .right, .rx .left 0,
    .call .left (.enqueueData 1 (some 7) 1 3), .tx .left,
    .call .right .connect, .tx .right, .rx .right 0, .tx .right, .rx .right 0, .tx .right, .rx .right 0,
    .rx .right 0, .call .left .connect, .rx .left 0, .rx .left 0, .rx .left 0]

/-- A NAK that is repeated while a copy of the packet is on its way has it given up. -/
def earlyNak : List (Pair.Move w UInt8) :=
  Pair.handshake ++ [.call .left (.enqueueData 1 (some 7) 1 2), .tx .left, .drop .left 0, .tx .left,
    .rx .right 0, .tx .right, .tx .right, .rx .left 0, .tx .left, .rx .right 0, .rx .left 0, .tx .right,
    .rx .left 0, .drop .left 0]

/-- An end holds what its peer has forgotten, and in a session that both share an end has received a
number that its peer has taken back. -/
theorem sessions_cross :
    let cfg := fun _ : Side => Cfg.ofBuild (.ofWindow 1 (by decide)) false 1 (by decide)
    let mem := fun (_ : Side) (b : UInt8) => [b]
    (∃ s : Pair cfg UInt8, Pair.Reaches mem s ∧ (∀ e, (s.conn e).connState = .connected) ∧
      (∀ e, s.chan e = []) ∧
      (∃ k ∈ deliveries (sinceReset (s.conn .right).log),
        k ∉ (acceptedKeys (sinceReset (s.conn .left).log)).map (·.delivery (mem .left))) ∧
      2 < ((s.conn .left).lastQueued - (s.conn .right).lastReceived).toNat) ∧
    ∃ s : Dated cfg UInt8, Reaches mem s ∧ (∀ e, (s.pair.conn e).connState = .connected) ∧
      (∀ e, s.pair.chan e = []) ∧ (∀ e, s.Current e) ∧
      2 < ((s.pair.conn .left).lastQueued - (s.pair.conn .right).lastReceived).toNat := by
  intro cfg mem
  constructor
  · obtain ⟨s, hs, hall⟩ := Reachable.of_exec (Pair.init cfg UInt8) (Pair.step mem) (fun _ _ => true)
      staleSteps (fun s => (s.conn .left).connState = .connected ∧
        (s.conn .right).connState = .connected ∧ s.chan .left = [] ∧ s.chan .right = [] ∧
        (∃ k ∈ deliveries (sinceReset (s.conn .right).log),
          k ∉ (acceptedKeys (sinceReset (s.conn .left).log)).map (·.delivery (mem .left))) ∧
        2 < ((s.conn .left).lastQueued - (s.conn .right).lastReceived).toNat)
      (by decide +kernel) (by decide +kernel)
    obtain ⟨hleft, hright, hnone, hnone', hstale, hahead⟩ := of_decide_eq_true hall
    refine ⟨s, hs.mono fun _ _ _ => trivial, ?_, ?_, hstale, hahead⟩
    · rintro (_ | _)
      · exact hleft
      · exact hright
    · rintro (_ | _)
      · exact hnone
      · exact hnone'
  · obtain ⟨s, hs, hall⟩ := Reachable.of_exec (Dated.init cfg UInt8) (Dated.step mem) (fun _ _ => true)
      earlyNak (fun s => (s.pair.conn .left).connState = .connected ∧
        (s.pair.conn .right).connState = .connected ∧ s.pair.chan .left = [] ∧ s.pair.chan .right = [] ∧
        .seqReset ∉ (s.pair.conn .right).log.drop (s.upAt .left) ∧
        .seqReset ∉ (s.pair.conn .left).log.drop (s.upAt .right) ∧
        2 < ((s.pair.conn .left).lastQueued - (s.pair.conn .right).lastReceived).toNat)
      (by decide +kernel) (by decide +kernel)
    obtain ⟨hleft, hright, hnone, hnone', hcur, hcur', hahead⟩ := of_decide_eq_true hall
    refine ⟨s, hs.mono fun _ _ _ => trivial, ?_, ?_, ?_, hahead⟩
    · rintro (_ | _)
      · exact hleft
      · exact hright
    · rintro (_ | _)
      · exact hnone
      · exact hnone'
    · rintro (_ | _)
      · exact hcur
      · exact hcur'

end Dated

end Ludlc
