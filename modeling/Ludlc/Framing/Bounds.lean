import Ludlc.Lib.Gather
import Ludlc.Framing.Resync

/-! # What a decoder stores and reports is bounded

Over any calls a transport may make, with any octets, each decoder stores inside the buffer it was
given, and the size it reports is that of a packet of the link.
-/

namespace Ludlc

open Gather

variable {b : Nat}

/-- `CONFIG_LUDLC_PAYLOAD_BITS`. The build is refused unless its largest packet is a value of the
type, and a link's payload is no larger than the build's. -/
structure PayloadSize {w : Wire} (cfg : Cfg w) where
  bits : Nat
  packet_le : cfg.payloadLim + w.hdrSz ≤ 2 ^ bits - 1

/-- The value of a size in `ludlc_payload_size_t`. -/
def PayloadSize.cast {w : Wire} {cfg : Cfg w} (p : PayloadSize cfg) (n : Nat) : Nat := n % 2 ^ p.bits

theorem PayloadSize.cast_of_le {w : Wire} {cfg : Cfg w} (p : PayloadSize cfg) {n : Nat}
    (h : n ≤ cfg.payloadLim + w.hdrSz) : p.cast n = n := by
  have hpos : 0 < 2 ^ p.bits := Nat.two_pow_pos p.bits
  have hle := p.packet_le
  exact Nat.mod_eq_of_lt (by omega)

/-- What a call owes: it stores inside the buffer, and a size it reports is at least that of a PING,
leaves room for the checksum, and loses nothing in `ludlc_payload_size_t`. -/
structure Bounded (w : Wire) (csum : Option (Csum b)) (f : Fed) : Prop where
  stores : ∀ i ∈ f.stores, i < f.cap
  min : f.done = true → w.pingSz ≤ f.size
  max : f.done = true → f.size + csumOctets csum ≤ f.cap
  whole : f.done = true → f.size = f.stored

/-- A packet no longer than the buffer without the checksum fits the type of its size. -/
theorem bounded_of_stored {w : Wire} {cfg : Cfg w} {csum : Option (Csum b)} (p : PayloadSize cfg)
    {f : Fed} (hcap : f.cap ≤ connFrameSz cfg csum) (hsize : f.size = p.cast f.stored)
    (hstores : ∀ i ∈ f.stores, i < f.cap)
    (hdone : f.done = true → w.pingSz ≤ f.stored ∧ f.stored + csumOctets csum ≤ f.cap) :
    Bounded w csum f := by
  have hwhole : f.done = true → f.size = f.stored := by
    intro h
    have := (hdone h).2
    rw [connFrameSz] at hcap
    rw [hsize, p.cast_of_le (by omega)]
  constructor
  · exact hstores
  · intro h
    rw [hwhole h]
    exact (hdone h).1
  · intro h
    rw [hwhole h]
    exact (hdone h).2
  · exact hwhole

namespace Cobs

/-- Where `ludlc_cobs_dec_feed` stores. -/
def decStores (w : Wire) (csum : Option (Csum b)) : Dec b → List UInt8 → List Nat
  | _, [] => []
  | d, c :: src =>
    if c ≠ delimiter then
      grown d.payload.length (decOctet csum d c).payload.length ++
        decStores w csum (decOctet csum d c) src
    else if (decDelim w csum d).1 then []
    else decStores w csum (decDelim w csum d).2 src

/-- What `ludlc_create_framing_cobs` makes. -/
def Dec.zero : Dec b := ⟨[], 0, 0, 0, 0, false, false, ⟨0, 0, 0, 0⟩⟩

/-- The decoder of a link, with `ludlc_cobs_dec_size`. -/
def decoder {w : Wire} {cfg : Cfg w} (csum : Option (Csum b)) (p : PayloadSize cfg) :
    Decoder (Dec b) UInt8 where
  init := decInit
  prep := decPrep csum
  feed := decFeed w csum
  stores := decStores w csum
  stored d := d.payload.length
  size d := p.cast d.payload.length

/-- What is stored fits the buffer. -/
def Dec.Within (cap : Nat) (d : Dec b) : Prop := d.payloadCap = cap ∧ d.payload.length ≤ cap

theorem storeByte_within {csum : Option (Csum b)} {cap : Nat} {d : Dec b} (h : d.Within cap)
    (c : UInt8) : (storeByte csum d c).Within cap := by
  obtain ⟨hcap, hlen⟩ := h
  rw [storeByte]
  split
  · rename_i hlt
    constructor
    · exact hcap
    · simp only [List.length_append, List.length_singleton]
      omega
  · exact ⟨hcap, hlen⟩

theorem decOctet_within (csum : Option (Csum b)) {cap : Nat} {d : Dec b} (h : d.Within cap)
    (c : UInt8) : (decOctet csum d c).Within cap := by
  rw [decOctet]
  split
  · exact h
  · split
    · exact storeByte_within h c
    · simp only
      split
      · exact storeByte_within h delimiter
      · exact h

/-- The delimiter stores nothing, and a packet it completes is a frame without its checksum. -/
theorem decDelim_within (w : Wire) (csum : Option (Csum b)) {cap : Nat} {d : Dec b}
    (h : d.Within cap) :
    (decDelim w csum d).2.Within cap ∧
      ((decDelim w csum d).1 = true → w.pingSz ≤ (decDelim w csum d).2.payload.length ∧
        (decDelim w csum d).2.payload.length + csumOctets csum ≤ cap) := by
  obtain ⟨hcap, hlen⟩ := h
  cases hd : (decDelim w csum d).1 with
  | false =>
    obtain ⟨d', hd', hcap'⟩ := decDelim_resets hd
    rw [hd']
    exact ⟨⟨hcap'.trans hcap, Nat.zero_le cap⟩, by rintro ⟨⟩⟩
  | true =>
    obtain ⟨hmin, hpay⟩ := decDelim_completes hd
    rw [frameMinSz] at hmin
    have hsize : (decDelim w csum d).2.payload.length = d.payload.length - csumOctets csum := by
      rw [hpay, List.length_take]
      omega
    rw [Dec.Within, decDelim_cap, hsize]
    exact ⟨⟨hcap, by omega⟩, fun _ => by omega⟩

theorem decFeed_within (w : Wire) (csum : Option (Csum b)) {cap : Nat} (src : List UInt8) :
    ∀ {d : Dec b}, d.Within cap →
      (decFeed w csum d src).2.2.Within cap ∧ (∀ i ∈ decStores w csum d src, i < cap) ∧
      ((decFeed w csum d src).2.1 = true →
        w.pingSz ≤ (decFeed w csum d src).2.2.payload.length ∧
          (decFeed w csum d src).2.2.payload.length + csumOctets csum ≤ cap) := by
  induction src with
  | nil =>
    intro d h
    exact ⟨h, fun i hi => absurd hi List.not_mem_nil, by rintro ⟨⟩⟩
  | cons c src ih =>
    intro d h
    rw [decFeed, decStores]
    by_cases hc : c ≠ delimiter
    · rw [if_pos hc, if_pos hc]
      have hoct := decOctet_within csum h c
      obtain ⟨hw, hstores, hdone⟩ := ih hoct
      refine ⟨hw, ?_, hdone⟩
      intro i hi
      rcases List.mem_append.mp hi with hi | hi
      · exact lt_of_mem_grown hi hoct.2
      · exact hstores i hi
    · rw [if_neg hc, if_neg hc]
      obtain ⟨hdw, hddone⟩ := decDelim_within w csum h
      cases hd : decDelim w csum d with
      | mk done d' =>
        rw [hd] at hdw hddone
        cases done with
        | true => exact ⟨hdw, fun i hi => absurd hi List.not_mem_nil, hddone⟩
        | false => exact ih hdw

theorem decoder_keeps {w : Wire} {cfg : Cfg w} (csum : Option (Csum b)) (p : PayloadSize cfg) :
    (decoder csum p).Keeps (connFrameSz cfg csum) Dec.Within (Bounded w csum) where
  init _ _ h := ⟨h.1, Nat.zero_le _⟩
  prep cap _ _ := ⟨rfl, Nat.zero_le cap⟩
  feed cap s src hcap h := by
    obtain ⟨hw, hstores, hdone⟩ := decFeed_within w csum src h
    exact ⟨hw, bounded_of_stored p hcap rfl hstores hdone⟩

end Cobs

namespace Hdlc

/-- Where `ludlc_hdlc_dec_feed` stores. -/
def decStores (w : Wire) (csum : Option (Csum b)) : Dec b → List UInt8 → List Nat
  | _, [] => []
  | d, c :: src =>
    grown d.payload.length (decOctet w csum d c).2.payload.length ++
      if (decOctet w csum d c).1 then [] else decStores w csum (decOctet w csum d c).2 src

/-- What `ludlc_create_framing_hdlc` makes. -/
def Dec.zero : Dec b := ⟨[], 0, 0, .idle, ⟨0, 0, 0, 0⟩⟩

/-- The decoder of a link, with `ludlc_hdlc_dec_size`. -/
def decoder {w : Wire} {cfg : Cfg w} (csum : Option (Csum b)) (p : PayloadSize cfg) :
    Decoder (Dec b) UInt8 where
  init := decInit
  prep := decPrep csum
  feed := decFeed w csum
  stores := decStores w csum
  stored d := d.payload.length
  size d := p.cast d.payload.length

/-- What is stored fits the buffer. -/
def Dec.Within (cap : Nat) (d : Dec b) : Prop := d.payloadCap = cap ∧ d.payload.length ≤ cap

theorem storeByte_within {csum : Option (Csum b)} {cap : Nat} {d : Dec b} (h : d.Within cap)
    (c : UInt8) : (storeByte csum d c).Within cap := by
  obtain ⟨hcap, hlen⟩ := h
  rw [storeByte]
  split
  · rename_i hlt
    constructor
    · exact hcap
    · simp only [List.length_append, List.length_singleton]
      omega
  · exact ⟨hcap, Nat.zero_le cap⟩

/-- A start octet stores nothing, and a packet it completes is a frame without its checksum. -/
theorem decSof_within {w : Wire} {csum : Option (Csum b)} {cap : Nat} {d : Dec b}
    (h : d.Within cap) :
    (decSof w csum d).2.Within cap ∧
      ((decSof w csum d).1 = true → w.pingSz ≤ (decSof w csum d).2.payload.length ∧
        (decSof w csum d).2.payload.length + csumOctets csum ≤ cap) := by
  obtain ⟨hcap, hlen⟩ := h
  rw [decSof]
  split
  · rename_i hmin
    split
    · rw [frameMinSz] at hmin
      simp only [Dec.Within, List.length_take]
      exact ⟨⟨hcap, by omega⟩, fun _ => by omega⟩
    · exact ⟨⟨hcap, Nat.zero_le cap⟩, by rintro ⟨⟩⟩
  · split
    · exact ⟨⟨hcap, Nat.zero_le cap⟩, by rintro ⟨⟩⟩
    · exact ⟨⟨hcap, Nat.zero_le cap⟩, by rintro ⟨⟩⟩

theorem decOctet_within (w : Wire) (csum : Option (Csum b)) {cap : Nat} {d : Dec b}
    (h : d.Within cap) (c : UInt8) :
    (decOctet w csum d c).2.Within cap ∧
      ((decOctet w csum d c).1 = true → w.pingSz ≤ (decOctet w csum d c).2.payload.length ∧
        (decOctet w csum d c).2.payload.length + csumOctets csum ≤ cap) := by
  rw [decOctet]
  split
  · exact ⟨h, by rintro ⟨⟩⟩
  · exact decSof_within h
  · exact ⟨storeByte_within (d := { d with state := .payload }) h _, by rintro ⟨⟩⟩
  · split
    · exact ⟨h, by rintro ⟨⟩⟩
    · exact ⟨storeByte_within h c, by rintro ⟨⟩⟩

theorem decFeed_within (w : Wire) (csum : Option (Csum b)) {cap : Nat} (src : List UInt8) :
    ∀ {d : Dec b}, d.Within cap →
      (decFeed w csum d src).2.2.Within cap ∧ (∀ i ∈ decStores w csum d src, i < cap) ∧
      ((decFeed w csum d src).2.1 = true →
        w.pingSz ≤ (decFeed w csum d src).2.2.payload.length ∧
          (decFeed w csum d src).2.2.payload.length + csumOctets csum ≤ cap) := by
  induction src with
  | nil =>
    intro d h
    exact ⟨h, fun i hi => absurd hi List.not_mem_nil, by rintro ⟨⟩⟩
  | cons c src ih =>
    intro d h
    rw [decFeed, decStores]
    obtain ⟨hw, hdone⟩ := decOctet_within w csum h c
    cases hd : decOctet w csum d c with
    | mk done d' =>
      rw [hd] at hw hdone
      cases done with
      | true =>
        refine ⟨hw, ?_, hdone⟩
        intro i hi
        rw [if_pos rfl, List.append_nil] at hi
        exact lt_of_mem_grown hi hw.2
      | false =>
        obtain ⟨hrest, hstores, hend⟩ := ih hw
        refine ⟨hrest, ?_, hend⟩
        intro i hi
        rcases List.mem_append.mp hi with hi | hi
        · exact lt_of_mem_grown hi hw.2
        · exact hstores i hi

theorem decoder_keeps {w : Wire} {cfg : Cfg w} (csum : Option (Csum b)) (p : PayloadSize cfg) :
    (decoder csum p).Keeps (connFrameSz cfg csum) Dec.Within (Bounded w csum) where
  init _ _ h := ⟨h.1, Nat.zero_le _⟩
  prep cap _ _ := ⟨rfl, Nat.zero_le cap⟩
  feed cap s src hcap h := by
    obtain ⟨hw, hstores, hdone⟩ := decFeed_within w csum src h
    exact ⟨hw, bounded_of_stored p hcap rfl hstores hdone⟩

end Hdlc

namespace Raw

/-- Where `ludlc_raw_dec_feed` stores. -/
def decStores (d : Dec b) (src : List UInt8) : List Nat :=
  match d.state with
  | .data => grown d.payload.length (d.payload.length + min src.length d.sz)
  | .idle => []

/-- What `ludlc_create_framing_raw` makes. -/
def Dec.zero : Dec b := ⟨.idle, [], 0, 0, ⟨0, 0, 0, 0⟩⟩

/-- The decoder of a link, with `ludlc_raw_dec_size`. -/
def decoder {w : Wire} {cfg : Cfg w} (csum : Option (Csum b)) (p : PayloadSize cfg) :
    Decoder (Dec b) UInt8 where
  init := decInit
  prep := decPrep csum
  feed := decFeed w csum
  stores := decStores
  stored d := d.payload.length
  size d := p.cast d.payload.length

/-- What is stored of a frame and what is still to come make the length announced. -/
def Dec.Within (cap : Nat) (d : Dec b) : Prop :=
  d.state = .data → d.payload.length + d.sz = cap

theorem decEnd_within {w : Wire} {csum : Option (Csum b)} {cap : Nat} {d : Dec b}
    (h : d.payload.length ≤ cap) :
    (decEnd w csum d).1 = true → w.pingSz ≤ (decEnd w csum d).2.payload.length ∧
      (decEnd w csum d).2.payload.length + csumOctets csum ≤ cap := by
  rw [decEnd]
  simp only
  split
  · rintro ⟨⟩
  · rename_i hmin
    rw [frameMinSz] at hmin
    split
    · rintro ⟨⟩
    · intro _
      simp only [List.length_take]
      omega

theorem decFeed_within (w : Wire) (csum : Option (Csum b)) {cap : Nat} {d : Dec b}
    (h : d.Within cap) (src : List UInt8) :
    (decFeed w csum d src).2.2.Within cap ∧ (∀ i ∈ decStores d src, i < cap) ∧
      ((decFeed w csum d src).2.1 = true →
        w.pingSz ≤ (decFeed w csum d src).2.2.payload.length ∧
          (decFeed w csum d src).2.2.payload.length + csumOctets csum ≤ cap) := by
  rw [decFeed, decStores]
  cases hs : d.state with
  | idle => exact ⟨h, fun i hi => absurd hi List.not_mem_nil, by rintro ⟨⟩⟩
  | data =>
    have hlen := h hs
    simp only
    generalize htake : min src.length d.sz = take
    have hpay : (d.payload ++ src.take take).length = d.payload.length + take := by
      rw [List.length_append, List.length_take]
      omega
    refine ⟨?_, ?_, ?_⟩
    · split
      · intro _
        change (d.payload ++ src.take take).length + (d.sz - take) = cap
        omega
      · intro hdata
        rw [decEnd_state] at hdata
        cases hdata
    · intro i hi
      exact lt_of_mem_grown hi (by omega)
    · split
      · rintro ⟨⟩
      · apply decEnd_within
        change (d.payload ++ src.take take).length ≤ cap
        omega

theorem decoder_keeps {w : Wire} {cfg : Cfg w} (csum : Option (Csum b)) (p : PayloadSize cfg) :
    (decoder csum p).Keeps (connFrameSz cfg csum) Dec.Within (Bounded w csum) where
  init _ _ _ := by rintro ⟨⟩
  prep cap _ _ := fun _ => Nat.zero_add cap
  feed cap s src hcap h := by
    obtain ⟨hw, hstores, hdone⟩ := decFeed_within w csum h src
    exact ⟨hw, bounded_of_stored p hcap rfl hstores hdone⟩

end Raw

/-- For each framing, over any calls of a decoder with buffers no larger than the link's frame, any
octets, cuts and checksum: nothing is stored at or past the room given, and a size reported is at
least that of a PING, at most the room less the checksum, and whole in its type. -/
theorem decoders_bounded {w : Wire} {cfg : Cfg w} (csum : Option (Csum b)) (p : PayloadSize cfg)
    (ops : List (Op (connFrameSz cfg csum) UInt8)) :
    (∀ f ∈ (Hdlc.decoder csum p).run 0 Hdlc.Dec.zero ops, Bounded w csum f) ∧
      (∀ f ∈ (Cobs.decoder csum p).run 0 Cobs.Dec.zero ops, Bounded w csum f) ∧
      ∀ f ∈ (Raw.decoder csum p).run 0 Raw.Dec.zero ops, Bounded w csum f := by
  refine ⟨?_, ?_, ?_⟩
  · exact (Hdlc.decoder_keeps csum p).run ops (Nat.zero_le _) ⟨rfl, le_refl 0⟩
  · exact (Cobs.decoder_keeps csum p).run ops (Nat.zero_le _) ⟨rfl, le_refl 0⟩
  · exact (Raw.decoder_keeps csum p).run ops (Nat.zero_le _) (by rintro ⟨⟩)

end Ludlc
