import Ludlc.Framing.CobsEncoder
import Ludlc.Framing.HdlcEncoder

/-! # Frames whose boundary a build chooses

What the encoders promise of the octet that delimits their frames, for the octets a build may set
in place of the defaults.
-/

namespace Ludlc

variable {b : Nat}

namespace Cobs

open Stuffing

/-- What a frame is on the wire: the delimiter ends it, and is nowhere else in it. -/
def Delimited (d : UInt8) (wire : List UInt8) : Prop := ∃ body, wire = body ++ [d] ∧ d ∉ body

theorem delimited_iff (d : UInt8) (csum : Option (Csum b)) (p : TxPacket) :
    Delimited d (wireWith d csum p) ↔
      ∀ g ∈ groups d (frameOf csum p.octets), g.length + 1 ≠ d.toNat := by
  constructor
  · rintro ⟨body, hwire, hbody⟩ g hg hlen
    rw [wireWith, List.append_left_inj] at hwire
    apply hbody
    rw [← hwire]
    exact (mem_encode_iff _).mpr ⟨g, hg, hlen⟩
  · intro h
    refine ⟨encode d (frameOf csum p.octets), rfl, ?_⟩
    intro hmem
    obtain ⟨g, hg, hlen⟩ := (mem_encode_iff _).mp hmem
    exact h g hg hlen

/-- With buffers of any sizes, the encoder of a build that sets this delimiter puts out a frame that
holds it once, at its end, if and only if no group the packet and its checksum are cut into is one
octet shorter than the delimiter's value. -/
theorem delimiter_kept_out_iff (d : UInt8) (csum : Option (Csum b)) (p : TxPacket)
    (hhdr : 2 ≤ p.hdr.length) (e : Enc b) (caps : Nat → Nat) (hcaps : ∀ n, 0 < caps n) :
    (∃ fuel e' n wire,
      (writerWith d csum).flush caps fuel 0 (encPrep (encInit e) p) = some (e', n, wire) ∧
        encBusy e' = false ∧ Delimited d wire) ↔
      ∀ g ∈ groups d (frameOf csum p.octets), g.length + 1 ≠ d.toNat := by
  obtain ⟨hok, hwire⟩ := encPrep_spec (d := d) (encInit_ok csum e) rfl (TxPacket.hdr_ne hhdr)
  obtain ⟨fuel, e', n, hflush, _, hidle⟩ :=
    (writerWith_lawful d csum).flush hcaps (encPrep (encInit e) p) hok 0
  change (writerWith d csum).flush caps fuel 0 (encPrep (encInit e) p) =
    some (e', n, (encPrep (encInit e) p).wire d csum) at hflush
  rw [hwire] at hflush
  rw [← delimited_iff d csum p]
  constructor
  · rintro ⟨fuel', e'', n', wire, hflush', _, hdelim⟩
    rwa [(Stream.Writer.flush_unique hflush hflush').2.2]
  · intro h
    exact ⟨fuel, e', n, _, hflush, hidle, h⟩

/-- An encoder whose memory was cleared. -/
def Enc.zero : Enc 8 := ⟨[], [], [], 0, 0, 0, .idle, false, false, false⟩

/-- The default on a frame with zeros in it. -/
theorem delimiter_kept_out_default :
    (∃ fuel e' n wire,
      (writerWith 0 (some lrc)).flush (fun _ => 1) fuel 0
          (encPrep (encInit Enc.zero) ⟨[1, 0x80, 1], [0, 5, 0]⟩) = some (e', n, wire) ∧
        encBusy e' = false ∧ Delimited 0 wire) ↔
      ∀ g ∈ groups 0 (frameOf (some lrc) (TxPacket.octets ⟨[1, 0x80, 1], [0, 5, 0]⟩)),
        g.length + 1 ≠ (0 : UInt8).toNat :=
  delimiter_kept_out_iff 0 (some lrc) ⟨[1, 0x80, 1], [0, 5, 0]⟩ (by decide) Enc.zero (fun _ => 1)
    (fun _ => Nat.one_pos)

/-- The octet that opens the frame of a PING is the delimiter of this build. -/
theorem delimiter_left_in :
    ¬ ∃ fuel e' n wire,
      (writerWith 3 (none : Option (Csum 8))).flush (fun _ => 8) fuel 0
          (encPrep (encInit Enc.zero) ⟨[1, 0x80], []⟩) = some (e', n, wire) ∧
        encBusy e' = false ∧ Delimited 3 wire := by
  rintro ⟨fuel, e', n, wire, hflush, _, body, hwire, hbody⟩
  have hrun : (writerWith 3 (none : Option (Csum 8))).flush (fun _ => 8) 2 0
      (encPrep (encInit Enc.zero) ⟨[1, 0x80], []⟩) = some (_, 1, [3, 1, 0x80] ++ [3]) := rfl
  rw [(Stream.Writer.flush_unique hflush hrun).2.2, List.append_left_inj] at hwire
  apply hbody
  rw [← hwire]
  decide

end Cobs

namespace Hdlc

open Escaping

/-- What a frame is on the wire: between a start octet and the one asked for after it, a list with
no start octet that spells the packet and its checksum. -/
def Framed (k : Code) (csum : Option (Csum b)) (p : TxPacket × Bool) (wire : List UInt8) : Prop :=
  ∃ body, wire = k.flag :: body ++ (if p.2 then [k.flag] else []) ∧ k.flag ∉ body ∧
    k.Spells body (frameOf csum p.1.octets)

theorem framed_iff (k : Code) (csum : Option (Csum b)) (p : TxPacket × Bool) :
    Framed k csum p (wireWith k csum p) ↔
      (k.esc ^^^ k.mask = k.flag → k.esc ∉ frameOf csum p.1.octets) := by
  constructor
  · rintro ⟨body, hwire, hflag, _⟩ hmask hesc
    have hbody : k.escape (frameOf csum p.1.octets) = body := by
      rw [wireWith, List.append_left_inj, List.cons.injEq] at hwire
      exact hwire.2
    apply hflag
    rw [← hbody]
    exact (flag_mem_escape_iff k _).mpr ⟨hesc, hmask⟩
  · intro h
    refine ⟨k.escape (frameOf csum p.1.octets), rfl, ?_, escape_spells k _⟩
    intro hflag
    obtain ⟨hesc, hmask⟩ := (flag_mem_escape_iff k _).mp hflag
    exact h hmask hesc

/-- With buffers of any sizes, the encoder of a build that sets these octets puts out a frame in which
no start octet is left, if and only if the escape is not the start octet under the mask or the
packet and its checksum do not hold it. -/
theorem sof_kept_out_iff (sof esc : UInt8) (hne : sof ≠ esc) (csum : Option (Csum b))
    (p : TxPacket × Bool) (hhdr : 2 ≤ p.1.hdr.length) (e : Enc b) (caps : Nat → Nat)
    (hcaps : ∀ n, 0 < caps n) :
    (∃ fuel e' n wire,
      (writerWith (octets sof esc hne) csum).flush caps fuel 0 (encPrep (encInit e) p) =
        some (e', n, wire) ∧ encBusy e' = false ∧ Framed (octets sof esc hne) csum p wire) ↔
      (esc = sof ^^^ 0x20 → esc ∉ frameOf csum p.1.octets) := by
  have hmask : esc ^^^ 0x20 = sof ↔ esc = sof ^^^ 0x20 := by
    constructor
    · rintro rfl
      rw [UInt8.xor_assoc, UInt8.xor_self, UInt8.xor_zero]
    · rintro rfl
      rw [UInt8.xor_assoc, UInt8.xor_self, UInt8.xor_zero]
  obtain ⟨hok, hwire⟩ := encPrep_spec (octets sof esc hne) csum
    (show encBusy (encInit e) = false from rfl) (TxPacket.hdr_ne hhdr)
  obtain ⟨fuel, e', n, hflush, _, hidle⟩ :=
    (writerWith_lawful (octets sof esc hne) csum).flush hcaps (encPrep (encInit e) p) hok 0
  change (writerWith (octets sof esc hne) csum).flush caps fuel 0 (encPrep (encInit e) p) =
    some (e', n, (encPrep (encInit e) p).wire (octets sof esc hne) csum) at hflush
  rw [hwire] at hflush
  have hiff := framed_iff (octets sof esc hne) csum p
  change _ ↔ (esc ^^^ 0x20 = sof → _) at hiff
  rw [hmask] at hiff
  constructor
  · rintro ⟨fuel', e'', n', wire, hflush', _, hframed⟩
    apply hiff.mp
    rwa [(Stream.Writer.flush_unique hflush hflush').2.2]
  · intro h
    exact ⟨fuel, e', n, _, hflush, hidle, hiff.mpr h⟩

/-- An encoder whose memory was cleared. -/
def Enc.zero : Enc 8 := ⟨[], [], [], 0, 0, .idle, .idle, 0, false⟩

/-- The defaults on a frame that holds both of its reserved octets. -/
theorem sof_kept_out_defaults :
    (∃ fuel e' n wire,
      (writerWith (octets 0x55 0xaa (by decide)) (some lrc)).flush (fun _ => 1) fuel 0
          (encPrep (encInit Enc.zero) (⟨[1, 0x80, 1], [0x55, 0xaa]⟩, true)) = some (e', n, wire) ∧
        encBusy e' = false ∧ Framed (octets 0x55 0xaa (by decide)) (some lrc)
          (⟨[1, 0x80, 1], [0x55, 0xaa]⟩, true) wire) ↔
      ((0xaa : UInt8) = 0x55 ^^^ 0x20 →
        (0xaa : UInt8) ∉ frameOf (some lrc) (TxPacket.octets ⟨[1, 0x80, 1], [0x55, 0xaa]⟩)) :=
  sof_kept_out_iff 0x55 0xaa (by decide) (some lrc) (⟨[1, 0x80, 1], [0x55, 0xaa]⟩, true) (by decide)
    Enc.zero (fun _ => 1) (fun _ => Nat.one_pos)

/-- The escape of this build goes out as itself and a start octet. -/
theorem sof_left_in :
    ¬ ∃ fuel e' n wire,
      (writerWith (octets 0x7e 0x5e (by decide)) none).flush (fun _ => 8) fuel 0
          (encPrep (encInit Enc.zero) (⟨[0x5e, 0x80], []⟩, false)) = some (e', n, wire) ∧
        encBusy e' = false ∧ Framed (octets 0x7e 0x5e (by decide)) (none : Option (Csum 8))
          (⟨[0x5e, 0x80], []⟩, false) wire := by
  rintro ⟨fuel, e', n, wire, hflush, _, body, hwire, hflag, _⟩
  have hrun : (writerWith (octets 0x7e 0x5e (by decide)) (none : Option (Csum 8))).flush (fun _ => 8)
      2 0 (encPrep (encInit Enc.zero) (⟨[0x5e, 0x80], []⟩, false)) =
        some (_, 1, [0x7e, 0x5e, 0x7e, 0x80]) := rfl
  rw [(Stream.Writer.flush_unique hflush hrun).2.2] at hwire
  have hbody : [0x5e, 0x7e, 0x80] = body := by
    rw [if_neg (by decide), List.append_nil] at hwire
    exact (List.cons.inj hwire).2
  apply hflag
  rw [← hbody]
  decide

end Hdlc

end Ludlc
