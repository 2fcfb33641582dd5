import Ludlc.Framing.Csum
import Ludlc.Lib.Stream

/-! # Frames with no delimiter: the decoder

The decoder of `ludlc_raw.c`. A frame is as long as the transport was told it would be, and ends
there whether it is valid or not.
-/

namespace Ludlc.Raw

variable {b : Nat}

inductive DecState
  | idle
  | data
  deriving DecidableEq

/-- `struct ludlc_rdec_state`. The octets stored are as many as `size` says. -/
structure Dec (b : Nat) where
  state : DecState
  payload : List UInt8
  /-- Octets of the frame still to come. -/
  sz : Nat
  csum : BitVec b
  stats : RxStats

/-- `ludlc_raw_dec_init`. -/
def decInit (d : Dec b) : Dec b := { d with state := .idle, payload := [] }

/-- `ludlc_raw_dec_prep`. -/
def decPrep (csum : Option (Csum b)) (cap : Nat) (d : Dec b) : Dec b :=
  { d with
    payload := [], sz := cap, state := if cap = 0 then .idle else .data
    csum := csumRxInit csum d.csum }

/-- The announced length is reached, valid frame or not. -/
def decEnd (w : Wire) (csum : Option (Csum b)) (d : Dec b) : Bool × Dec b :=
  let d := { d with state := .idle }
  if d.payload.length < frameMinSz w csum then
    (false, { d with stats := { d.stats with dropped := d.stats.dropped + 1 } })
  else if ¬ csumRxOk csum d.csum then
    (false, { d with stats := { d.stats with badCsum := d.stats.badCsum + 1 } })
  else
    (true, { d with
      payload := d.payload.take (d.payload.length - csumOctets csum)
      stats := { d.stats with rxPacket := d.stats.rxPacket + 1 } })

/-- `ludlc_raw_dec_feed`: the octets taken, whether a packet is complete, and the decoder. -/
def decFeed (w : Wire) (csum : Option (Csum b)) (d : Dec b) (src : List UInt8) :
    Nat × Bool × Dec b :=
  let take := min src.length d.sz
  match d.state with
  | .data =>
    let d := { d with
      csum := (src.take take).foldl (csumRx csum) d.csum
      payload := d.payload ++ src.take take, sz := d.sz - take }
    if d.sz ≠ 0 then (take, false, d)
    else (take, decEnd w csum d)
  | .idle => (src.length, false, d)

/-! ### What it has read -/

/-- The packet in the octets that came of a frame announced as `n`, if they are all of it and it is
well formed. -/
def unframe (w : Wire) (csum : Option (Csum b)) (n : Nat) (seg : List UInt8) :
    Option (List UInt8) :=
  if seg.length = n ∧ frameMinSz w csum ≤ seg.length ∧
      csumRxOk csum (seg.foldl (csumRx csum) (csumRxInit csum 0)) then
    some (seg.take (seg.length - csumOctets csum))
  else none

theorem frameMinSz_pos (w : Wire) (csum : Option (Csum b)) : 0 < frameMinSz w csum := by
  have h2 := two_le_pingSz w
  rw [frameMinSz]
  omega

theorem unframe_short {w : Wire} {csum : Option (Csum b)} {n : Nat} {seg : List UInt8}
    (h : seg.length ≠ n) : unframe w csum n seg = none := by
  rw [unframe, if_neg (fun hc => h hc.1)]

/-- The decoder after the octets `seg` of a frame announced as `n`: in the middle of it, or past its
end. -/
def Dec.Reads (csum : Option (Csum b)) (n : Nat) (d : Dec b) (seg : List UInt8) : Prop :=
  seg.length < n ∧ d.state = .data ∧ d.payload = seg ∧ d.sz = n - seg.length ∧
      (∃ r, d.csum = seg.foldl (csumRx csum) (csumRxInit csum r)) ∨
    n ≤ seg.length ∧ d.state = .idle

theorem decPrep_reads (csum : Option (Csum b)) (n : Nat) (d : Dec b) :
    (decPrep csum n d).Reads csum n [] := by
  by_cases hn : n = 0
  · right
    refine ⟨by rw [hn, List.length_nil], ?_⟩
    rw [decPrep]
    exact if_pos hn
  · left
    refine ⟨Nat.pos_of_ne_zero hn, ?_, rfl, rfl, d.csum, rfl⟩
    rw [decPrep]
    exact if_neg hn

theorem decEnd_spec (w : Wire) (csum : Option (Csum b)) (d : Dec b)
    (hsum : ∃ r, d.csum = d.payload.foldl (csumRx csum) (csumRxInit csum r)) :
    (decEnd w csum d).2.state = .idle ∧
      match unframe w csum d.payload.length d.payload with
      | some p => (decEnd w csum d).1 = true ∧ (decEnd w csum d).2.payload = p
      | none => (decEnd w csum d).1 = false := by
  obtain ⟨r, hr⟩ := hsum
  have hok : csumRxOk csum d.csum =
      csumRxOk csum (d.payload.foldl (csumRx csum) (csumRxInit csum 0)) := by
    rw [hr]
    cases csum with
    | none => rfl
    | some a => rfl
  rw [unframe, decEnd]
  simp only
  by_cases hmin : d.payload.length < frameMinSz w csum
  · rw [if_pos hmin, if_neg (fun hc => absurd hc.2.1 (by omega))]
    exact ⟨rfl, rfl⟩
  · rw [if_neg hmin, hok]
    by_cases hc : csumRxOk csum (d.payload.foldl (csumRx csum) (csumRxInit csum 0)) = true
    · rw [if_neg (not_not.mpr hc), if_pos ⟨trivial, by omega, hc⟩]
      exact ⟨rfl, rfl, rfl⟩
    · rw [if_pos hc, if_neg (fun h => hc h.2.2)]
      exact ⟨rfl, rfl⟩

/-- Feeding what lies inside the announced length: it is all taken, and a packet is complete where
the frame is whole and well formed. -/
theorem decFeed_spec {w : Wire} {csum : Option (Csum b)} {n : Nat} {d : Dec b}
    {seg src : List UInt8} (h : d.Reads csum n seg) (hne : src ≠ [])
    (hfit : (seg ++ src).length ≤ n) :
    (decFeed w csum d src).1 = src.length ∧ (decFeed w csum d src).2.2.Reads csum n (seg ++ src) ∧
      match unframe w csum n (seg ++ src) with
      | some p => (decFeed w csum d src).2.1 = true ∧ (decFeed w csum d src).2.2.payload = p
      | none => (decFeed w csum d src).2.1 = false := by
  rw [List.length_append] at hfit
  have hpos := List.length_pos_of_ne_nil hne
  rcases h with ⟨hlt, hstate, hpay, hsz, r, hr⟩ | ⟨hle, _⟩
  · have htake : min src.length d.sz = src.length := by omega
    rw [decFeed, hstate]
    simp only [htake, List.take_length]
    by_cases hmore : d.sz - src.length ≠ 0
    · -- the frame goes on
      rw [if_pos hmore, unframe_short (by rw [List.length_append]; omega)]
      refine ⟨rfl, .inl ⟨?_, rfl, ?_, ?_, r, ?_⟩, rfl⟩
      · rw [List.length_append]
        omega
      · rw [hpay]
      · simp only [List.length_append]
        omega
      · rw [List.foldl_append, ← hr]
    · rw [if_neg hmore]
      have hall : (seg ++ src).length = n := by
        rw [List.length_append]
        omega
      obtain ⟨hidle, hend⟩ := decEnd_spec w csum
        { d with
          csum := src.foldl (csumRx csum) d.csum
          payload := d.payload ++ src, sz := d.sz - src.length }
        ⟨r, by rw [hpay, List.foldl_append, ← hr]⟩
      refine ⟨rfl, .inr ⟨hall.ge, hidle⟩, ?_⟩
      simp only [hpay, hall] at hend
      rw [hpay]
      exact hend
  · omega

end Ludlc.Raw
