import Ludlc.Framing.Cuts
import Ludlc.Lib.Pipe

/-! # What a decoder makes of a part of the stream

Out of a front of what the encoder of a stream framing puts out its decoder takes the first of the packets,
and out of all of it all of them, the last of which the escaping frames completes only by the start octet
asked for after it.
-/

namespace Ludlc

variable {b : Nat} {w : Wire} (cfg : Cfg w) {csum : Option (Csum b)} {cap : Nat}

/-- The packets that all the octets of `ps` complete: the last one only where it ends by itself. -/
def completed (whole : TxPacket × Bool → Bool) (ps : List (TxPacket × Bool)) : List (TxPacket × Bool) :=
  if ps.getLast?.all whole then ps else ps.dropLast

instance (p : TxPacket) : Decidable (p.Fits cfg csum) :=
  decidable_of_iff (2 ≤ p.hdr.length ∧ w.pingSz ≤ p.octets.length ∧
      p.octets.length + csumOctets csum ≤ connFrameSz cfg csum)
    ⟨fun h => ⟨h.1, h.2.1, h.2.2⟩, fun h => ⟨h.hdr, h.ping, h.frame⟩⟩

/-- A framing as the two ends of a stream run it: the encoder of one, the decoder of the other, whose
settings are `cfg`, with an encoder as it is allocated and a decoder as `ludlc_dec_init` and `ludlc_dec_prep`
leave it. `whole` tells the packets that their own octets complete. -/
structure StreamFraming (cfg : Cfg w) (csum : Option (Csum b)) where
  Enc : Type
  Dec : Type
  writer : Stream.Writer Enc (TxPacket × Bool) UInt8
  reader : Stream.Reader Dec (List UInt8) UInt8
  wire : TxPacket × Bool → List UInt8
  lawful : writer.Lawful (fun p => p.1.Fits cfg csum) wire
  steps : reader.Stepwise
  encInit : Enc → Enc
  enc : Enc
  dec : Dec
  enc_inv : ∀ e, lawful.Inv (encInit e)
  enc_idle : ∀ e, writer.busy (encInit e) = false
  dec_inv : steps.Inv dec
  prep_inv : ∀ d, steps.Inv (reader.prep d)
  decodes : steps.Decodes dec (fun p => p.1.Fits cfg csum) wire fun p => p.1.octets
  whole : TxPacket × Bool → Bool
  completes : ∀ ps, (∀ p ∈ ps, p.1.Fits cfg csum) →
    (steps.run dec (ps.flatMap wire)).2 = (completed whole ps).map fun p => p.1.octets

namespace Hdlc

open Escaping

/-- A start octet more at the end, if there is none yet. -/
theorem wire_closed (csum : Option (Csum b)) (ps : List (TxPacket × Bool)) (p : TxPacket × Bool) :
    (ps ++ [p]).flatMap (wireOf csum) <+: (ps ++ [(p.1, true)]).flatMap (wireOf csum) := by
  rw [List.flatMap_append, List.flatMap_append, List.flatMap_singleton, List.flatMap_singleton]
  apply (List.prefix_append_right_inj _).mpr
  obtain ⟨p, last⟩ := p
  cases last with
  | true => exact List.prefix_refl _
  | false =>
    simp only [wireOf]
    exact (List.prefix_append_right_inj _).mpr List.nil_prefix

theorem decodes (hres : ∀ a ∈ csum, a.Residual) (hcap : connFrameSz cfg csum ≤ cap) (d : Dec b) :
    (stepwise w csum cap).Decodes (decPrep csum cap d) (fun p => p.1.Fits cfg csum) (wireOf csum)
      fun p => p.1.octets := by
  intro ps hps src hsrc
  rcases List.eq_nil_or_concat' ps with rfl | ⟨l, p, rfl⟩
  · obtain rfl : src = [] := List.prefix_nil.mp hsrc
    exact List.nil_prefix
  · obtain ⟨rest, hrest⟩ := hsrc.trans (wire_closed csum l p)
    have hgood : ∀ q ∈ l ++ [(p.1, true)], q.1.Fits cfg csum := by
      intro q hq
      rcases List.mem_append.mp hq with hq | hq
      · exact hps q (List.mem_append_left _ hq)
      · obtain rfl := List.mem_singleton.mp hq
        exact hps p (by simp)
    have hexp : (reader_lawful cfg hres hcap).Expects (decPrep csum cap d)
        ((l ++ [(p.1, true)]).map fun p => p.1.octets) (src ++ rest) := by
      rw [hrest]
      exact ⟨rfl, none, rfl, .start ⟨hgood, by simp⟩⟩
    have hrun := (stepwise w csum cap).run_part (reader_lawful cfg hres hcap)
      (s := decPrep csum cap d) rfl hexp
    simpa using hrun

theorem two_le_wire {p : TxPacket × Bool} (hp : p.1.Fits cfg csum) : 2 ≤ (wireOf csum p).length := by
  have hne : code.escape (frameOf csum p.1.octets) ≠ [] := by
    intro hnil
    have hback := unescape_escape code (frameOf csum p.1.octets)
    rw [hnil] at hback
    have hempty : frameOf csum p.1.octets = [] := (congrArg (·.out) hback).symm
    have hlen := congrArg List.length hempty
    have htwo := two_le_pingSz w
    have hping := hp.ping
    rw [length_frameOf, List.length_nil] at hlen
    omega
  have := List.length_pos_of_ne_nil hne
  rw [wireOf, List.length_append, List.length_cons]
  omega

/-- One start octet completes one packet. -/
theorem Coming.one {seen : Option (List UInt8)} {is : List (List UInt8)}
    (h : Coming csum (fun p => p.Fits cfg csum) seen is [code.flag]) : is.length = 1 := by
  have hnone : ∀ ps : List (TxPacket × Bool), (∀ p ∈ ps, p.1.Fits cfg csum) →
      (ps.flatMap (wireOf csum)).length ≤ 1 → ps = [] := by
    intro ps hps hlen
    cases ps with
    | nil => rfl
    | cons p ps =>
      have htwo := two_le_wire cfg (hps p List.mem_cons_self)
      rw [List.flatMap_cons, List.length_append] at hlen
      omega
  generalize hsrc : [code.flag] = src at h
  have hlen : src.length = 1 := by rw [← hsrc]; rfl
  cases h with
  | @start ps hs =>
    obtain rfl := hnone ps hs.good hlen.le
    cases hlen
  | @frame p ps seen t hs ht =>
    cases t with
    | cons c t =>
      -- the octet would be one of the frame
      obtain ⟨rfl, -⟩ := List.cons.inj hsrc
      refine absurd ?_ (flag_notMem_escape code (by decide) (frameOf csum p.1.octets))
      rw [← ht]
      exact List.mem_append_right _ List.mem_cons_self
    | nil =>
      obtain rfl : ps = [] := by
        apply hnone ps fun q hq => hs.good q (List.mem_cons_of_mem p hq)
        rw [List.nil_append, List.length_append] at hlen
        omega
      rfl

/-- All the octets complete all the packets, the last one only if a start octet was asked for after it. -/
theorem completes (hres : ∀ a ∈ csum, a.Residual) (hcap : connFrameSz cfg csum ≤ cap) (d : Dec b)
    (ps : List (TxPacket × Bool)) (hps : ∀ p ∈ ps, p.1.Fits cfg csum) :
    ((stepwise w csum cap).run (decPrep csum cap d) (ps.flatMap (wireOf csum))).2 =
      (completed (·.2) ps).map fun p => p.1.octets := by
  cases hlast : ps.getLast?.all (·.2) with
  | true =>
    rw [completed, if_pos hlast]
    refine (stepwise w csum cap).run_all (reader_lawful cfg hres hcap) (s := decPrep csum cap d) rfl
      ⟨rfl, none, rfl, .start ⟨hps, ?_⟩⟩
    intro p hp
    rw [Option.mem_def.mp hp] at hlast
    exact hlast
  | false =>
    rw [completed, if_neg (by simp [hlast])]
    rcases List.eq_nil_or_concat' ps with rfl | ⟨l, p, rfl⟩
    · cases hlast
    · obtain ⟨p, last⟩ := p
      obtain rfl : last = false := by simpa using hlast
      have hwire : (l ++ [(p, true)]).flatMap (wireOf csum) =
          (l ++ [(p, false)]).flatMap (wireOf csum) ++ [code.flag] := by
        simp [wireOf]
      have hexp : (reader_lawful cfg hres hcap).Expects (decPrep csum cap d)
          ((l ++ [(p, true)]).map fun p => p.1.octets)
          ((l ++ [(p, false)]).flatMap (wireOf csum) ++ [code.flag]) := by
        rw [← hwire]
        refine ⟨rfl, none, rfl, .start ⟨?_, by simp⟩⟩
        intro q hq
        rcases List.mem_append.mp hq with hq | hq
        · exact hps q (List.mem_append_left _ hq)
        · obtain rfl := List.mem_singleton.mp hq
          exact hps (p, false) (by simp)
      obtain ⟨is', his, -, seen, -, hcome⟩ :=
        (stepwise w csum cap).run_lawful (reader_lawful cfg hres hcap) (s := decPrep csum cap d) rfl hexp
      obtain ⟨x, rfl⟩ := List.length_eq_one_iff.mp hcome.one
      rw [List.map_append, List.map_singleton] at his
      rw [List.dropLast_concat]
      exact (List.append_inj_left' his rfl).symm

/-- The escaping on a link. -/
def framing (hres : ∀ a ∈ csum, a.Residual) (hcap : connFrameSz cfg csum ≤ cap) (e : Enc b) (d : Dec b) :
    StreamFraming cfg csum where
  Enc := Enc b
  Dec := Dec b
  writer := writer csum
  reader := reader w csum cap
  wire := wireOf csum
  lawful := (writer_lawful csum).restrict fun _ hp => hp.hdr_ne
  steps := stepwise w csum cap
  encInit := encInit
  enc := e
  dec := decPrep csum cap d
  enc_inv _ := trivial
  enc_idle _ := rfl
  dec_inv := rfl
  prep_inv _ := rfl
  decodes := decodes cfg hres hcap d
  whole p := p.2
  completes := completes cfg hres hcap d

/-- The same without a checksum. -/
def plainFraming (hcap : connFrameSz cfg (none : Option (Csum b)) ≤ cap) (e : Enc b) (d : Dec b) :
    StreamFraming cfg (none : Option (Csum b)) :=
  framing cfg (by rintro _ ⟨⟩) hcap e d

end Hdlc

namespace Cobs

theorem decodes (hres : ∀ a ∈ csum, a.Residual) (hcap : connFrameSz cfg csum ≤ cap) (d : Dec b) :
    (stepwise w csum cap).Decodes (decPrep csum cap d) (fun p => p.Fits cfg csum) (wireOf csum)
      TxPacket.octets := by
  intro ps hps src hsrc
  obtain ⟨rest, hrest⟩ := hsrc
  have hexp : (reader_lawful cfg hres hcap).Expects (decPrep csum cap d) (ps.map TxPacket.octets)
      (src ++ rest) := by
    rw [hrest]
    exact ⟨rfl, [], decReset_reads .., .start hps⟩
  exact (stepwise w csum cap).run_part (reader_lawful cfg hres hcap) (s := decPrep csum cap d) rfl hexp

theorem completes (hres : ∀ a ∈ csum, a.Residual) (hcap : connFrameSz cfg csum ≤ cap) (d : Dec b)
    {ps : List TxPacket} (hps : ∀ p ∈ ps, p.Fits cfg csum) :
    ((stepwise w csum cap).run (decPrep csum cap d) (ps.flatMap (wireOf csum))).2 =
      ps.map TxPacket.octets :=
  (stepwise w csum cap).run_all (reader_lawful cfg hres hcap) (s := decPrep csum cap d) rfl
    ⟨rfl, [], decReset_reads .., .start hps⟩

/-- The stuffing on a link, which ends each frame by itself. -/
def framing (hres : ∀ a ∈ csum, a.Residual) (hcap : connFrameSz cfg csum ≤ cap) (e : Enc b) (d : Dec b) :
    StreamFraming cfg csum where
  Enc := Enc b
  Dec := Dec b
  writer := (writer csum).comap Prod.fst
  reader := reader w csum cap
  wire p := wireOf csum p.1
  lawful := ((writer_lawful csum).restrict fun _ hp => hp.hdr_ne).comap Prod.fst
  steps := stepwise w csum cap
  encInit := encInit
  enc := e
  dec := decPrep csum cap d
  enc_inv := encInit_ok csum
  enc_idle _ := rfl
  dec_inv := rfl
  prep_inv _ := rfl
  decodes ps hps src hsrc := by
    have hdec := decodes cfg hres hcap d (ps.map Prod.fst) (List.forall_mem_map.mpr hps) src
    rw [List.flatMap_map, List.map_map] at hdec
    exact hdec hsrc
  whole _ := true
  completes ps hps := by
    have hall : completed (fun _ => true) ps = ps := by
      rw [completed, if_pos (by cases ps.getLast? <;> rfl)]
    have hgood : ∀ p ∈ ps.map Prod.fst, p.Fits cfg csum := List.forall_mem_map.mpr hps
    have hdec := completes cfg hres hcap d hgood
    rw [List.flatMap_map, List.map_map] at hdec
    rw [hall]
    exact hdec

end Cobs

end Ludlc
