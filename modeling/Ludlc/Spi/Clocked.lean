import Ludlc.Spi.Proto
import Ludlc.Framing.RawEncoder

/-! # What the master clocks out

The sending half of `ludlc_spi_exchange` on Linux: the packet is loaded and announced, then the
encoder fills the chunks of the second transfer, which is as long as the longer announcement. What
is received in the same clocks does not touch the encoder.
-/

namespace Ludlc.Spi

variable {ε : Type} {b : Nat}

/-- `LUDLC_SPI_PAD`. -/
def pad : UInt8 := 0

/-- The front of a list, padded to a length. -/
def padded (n : Nat) (l : List UInt8) : List UInt8 := l.take n ++ List.replicate (n - l.length) pad

theorem padded_append (n m : Nat) (l : List UInt8) :
    padded n l ++ padded m (l.drop n) = padded (n + m) l := by
  rw [padded, padded, padded, List.length_drop]
  rcases le_total n l.length with h | h
  · rw [Nat.sub_eq_zero_of_le h, List.replicate_zero, List.append_nil, List.take_add,
      List.append_assoc]
    congr 3
    omega
  · rw [List.drop_of_length_le h, List.take_nil, List.nil_append, List.take_of_length_le h,
      List.take_of_length_le (show l.length ≤ n + m by omega), List.append_assoc,
      ← List.replicate_add]
    congr 2
    omega

@[simp] theorem padded_nil (n : Nat) : padded n [] = List.replicate n pad := by
  rw [padded, List.take_nil, List.nil_append, List.length_nil, Nat.sub_zero]

@[simp] theorem padded_zero (l : List UInt8) : padded 0 l = [] := by
  rw [padded, List.take_zero, Nat.zero_sub]
  rfl

/-- What sending calls on the framing of a link. -/
structure TxFraming (ε : Type) where
  /-- `frame_cap`, the framing's `encoded_max`. -/
  frameCap : Nat
  wireLen : TxPacket → Nat
  /-- `enc_prep`, `enc_busy` and `enc_fill`. -/
  writer : Stream.Writer ε TxPacket UInt8
  encInit : ε → ε

/-- What an exchange meets. -/
structure Turn where
  /-- The packet of the core, where a transmission was asked for and it has one. -/
  pkt : Option TxPacket
  /-- The first transfer goes through. -/
  announces : Bool
  /-- The length the peer announced, 0 where its header is refused. -/
  rxLen : Nat
  /-- The `k`th transfer of a chunk goes through. -/
  moves : Nat → Bool

/-- What an exchange that completed announced and clocked out. -/
structure Clocked where
  txLen : Nat
  out : List UInt8
  deriving DecidableEq

namespace TxFraming

variable (F : TxFraming ε)

/-- A packet whose length in `ludlc_frame_size_t` is more than the link can announce. -/
def Refused (frameBits : Nat) (p : TxPacket) : Prop := F.frameCap < F.wireLen p % 2 ^ frameBits

instance (frameBits : Nat) (p : TxPacket) : Decidable (F.Refused frameBits p) :=
  inferInstanceAs (Decidable (_ < _))

/-- `ludlc_spi_load_tx`: the encoder, and the length to announce. -/
def loadTx (frameBits : Nat) (e : ε) (pkt : Option TxPacket) : ε × Nat :=
  match pkt with
  | none => (e, 0)
  | some p =>
    if F.Refused frameBits p then (F.writer.load e p, 0)
    else (F.writer.load e p, F.wireLen p)

theorem loadTx_refused {frameBits : Nat} {e : ε} {p : TxPacket} (h : F.Refused frameBits p) :
    F.loadTx frameBits e (some p) = (F.writer.load e p, 0) := if_pos h

/-- `ludlc_spi_fill_tx`: the chunk, padded. -/
def fillTx (e : ε) (want : Nat) : Option (ε × List UInt8) :=
  (F.writer.fill e want).map fun r => (r.1, r.2 ++ List.replicate (want - r.2.length) pad)

/-- The second transfer, with the octets clocked out unless a chunk fails. -/
def clock (chunkSz len : Nat) (moves : Nat → Bool) :
    Nat → Nat → Nat → ε → Option (ε × Option (List UInt8))
  | 0, _, _, _ => none
  | fuel + 1, sent, k, e =>
    if sent < len then
      let chunk := min (len - sent) chunkSz
      (F.fillTx e chunk).bind fun r =>
        if moves k then
          (clock chunkSz len moves fuel (sent + chunk) (k + 1) r.1).map fun t =>
            (t.1, t.2.map (r.2 ++ ·))
        else some (F.encInit r.1, none)
    else some (e, some [])

/-- `ludlc_spi_exchange`, as far as it sends. -/
def exchange (frameBits chunkSz fuel : Nat) (e : ε) (t : Turn) : Option (ε × Option Clocked) :=
  let r := F.loadTx frameBits e t.pkt
  if ¬ t.announces then some (F.encInit r.1, none)
  else if r.2 = 0 ∧ t.rxLen = 0 then some (r.1, none)
  else
    (F.clock chunkSz (max r.2 t.rxLen) t.moves fuel 0 0 r.1).map fun s =>
      (s.1, s.2.map fun out => ⟨r.2, out⟩)

/-- One exchange after another, each with what it completed. -/
def exchanges (frameBits chunkSz fuel : Nat) : ε → List Turn → Option (List (Turn × Option Clocked))
  | _, [] => some []
  | e, t :: ts =>
    (F.exchange frameBits chunkSz fuel e t).bind fun r =>
      (exchanges frameBits chunkSz fuel r.1 ts).map fun l => (t, r.2) :: l

/-! ## What the master owes -/

/-- The octets clocked out are what was announced: pads alone, or a whole packet and pads. -/
structure Honest (wire : TxPacket → List UInt8) (t : Turn) (c : Clocked) : Prop where
  nothing : c.txLen = 0 → ∃ n, c.out = List.replicate n pad
  packet : c.txLen ≠ 0 → ∃ p n, t.pkt = some p ∧ c.txLen = F.wireLen p ∧
    c.out = wire p ++ List.replicate n pad

/-- Nothing that was refused is clocked out: where the peer has something to send, no packet is
refused, and without a packet the encoder holds none from before. -/
def Sound (frameBits : Nat) (e : ε) (t : Turn) : Prop :=
  t.announces = true → t.rxLen ≠ 0 →
    match t.pkt with
    | none => F.writer.busy e = false
    | some p => ¬ F.Refused frameBits p

/-- Every exchange of a run is sound, in the state the encoder is in before it. -/
def SoundRun (frameBits chunkSz : Nat) : ε → List Turn → Prop
  | _, [] => True
  | e, t :: ts => F.Sound frameBits e t ∧
    ∀ fuel r, F.exchange frameBits chunkSz fuel e t = some r → SoundRun frameBits chunkSz r.1 ts

variable {F}

theorem clock_mono {chunkSz len : Nat} {moves : Nat → Bool} {fuel fuel' : Nat} {sent k : Nat}
    {e : ε} {r : ε × Option (List UInt8)} (h : F.clock chunkSz len moves fuel sent k e = some r)
    (hle : fuel ≤ fuel') : F.clock chunkSz len moves fuel' sent k e = some r := by
  induction fuel generalizing fuel' sent k e r with
  | zero => cases h
  | succ fuel ih =>
    obtain ⟨fuel', rfl⟩ : ∃ n, fuel' = n + 1 := ⟨fuel' - 1, by omega⟩
    rw [clock] at h ⊢
    split at h
    · rename_i hsent
      rw [if_pos hsent]
      obtain ⟨u, hu, h⟩ := Option.bind_eq_some_iff.mp h
      simp only [hu, Option.bind_some]
      split at h
      · rename_i hmove
        obtain ⟨v, hv, rfl⟩ := Option.map_eq_some_iff.mp h
        rw [if_pos hmove, ih hv (by omega), Option.map_some]
      · rename_i hmove
        rw [if_neg hmove]
        exact h
    · rename_i hsent
      rw [if_neg hsent]
      exact h

theorem exchange_mono {frameBits chunkSz fuel fuel' : Nat} {e : ε} {t : Turn}
    {r : ε × Option Clocked} (h : F.exchange frameBits chunkSz fuel e t = some r)
    (hle : fuel ≤ fuel') : F.exchange frameBits chunkSz fuel' e t = some r := by
  rw [exchange] at h ⊢
  split at h
  · rename_i hann
    rw [if_pos hann]
    exact h
  · rename_i hann
    rw [if_neg hann]
    split at h
    · rename_i h0
      rw [if_pos h0]
      exact h
    · rename_i h0
      obtain ⟨u, hu, rfl⟩ := Option.map_eq_some_iff.mp h
      rw [if_neg h0, clock_mono hu hle, Option.map_some]

variable (F)

/-- Every exchange of the run that completes is honest. -/
def HonestRun (frameBits chunkSz : Nat) (wire : TxPacket → List UInt8) (e : ε) (ts : List Turn) :
    Prop :=
  ∃ fuel₀ l, (∀ fuel, fuel₀ ≤ fuel → F.exchanges frameBits chunkSz fuel e ts = some l) ∧
    ∀ x ∈ l, ∀ c ∈ x.2, F.Honest wire x.1 c

/-- What the encoder of a link that announces its frames does. -/
structure Lawful (good : TxPacket → Prop) (wire : TxPacket → List UInt8) where
  writer : F.writer.Lawful good wire
  /-- An encoder with nothing left to put out is idle, -/
  silent : ∀ e, writer.Inv e → writer.left e = [] → F.writer.busy e = false
  /-- and then puts out nothing. -/
  rest : ∀ e cap, F.writer.busy e = false → F.writer.fill e cap = some (e, [])
  init : ∀ e, writer.Inv (F.encInit e) ∧ F.writer.busy (F.encInit e) = false
  /-- A packet not started gives way to the next. -/
  reload : ∀ e p q, F.writer.load (F.writer.load e p) q = F.writer.load e q
  fits : ∀ p, good p → (wire p).length ≤ F.wireLen p
  pos : ∀ p, good p → 0 < F.wireLen p

namespace Lawful

variable {F} {good : TxPacket → Prop} {wire : TxPacket → List UInt8} (L : F.Lawful good wire)

/-- An encoder with nothing loaded. -/
def Idle (e : ε) : Prop := L.writer.Inv e ∧ F.writer.busy e = false

/-- Between two exchanges the encoder is idle, or holds a packet that was refused. -/
def Ready (e : ε) : Prop :=
  ∃ e₀, L.Idle e₀ ∧ (e = e₀ ∨ ∃ p, good p ∧ e = F.writer.load e₀ p)

theorem Idle.ready {e : ε} (h : L.Idle e) : L.Ready e := ⟨e, h, .inl rfl⟩

theorem Ready.inv {e : ε} (h : L.Ready e) : L.writer.Inv e := by
  obtain ⟨e₀, ⟨hinv, hb⟩, rfl | ⟨p, hp, rfl⟩⟩ := h
  · exact hinv
  · exact (L.writer.load e₀ p hinv hb hp).1

theorem Ready.load {e : ε} {p : TxPacket} (h : L.Ready e) (hp : good p) :
    L.Ready (F.writer.load e p) ∧ L.writer.left (F.writer.load e p) = wire p := by
  obtain ⟨e₀, ⟨hinv, hb⟩, rfl | ⟨q, _, rfl⟩⟩ := h
  · exact ⟨⟨_, ⟨hinv, hb⟩, .inr ⟨p, hp, rfl⟩⟩, (L.writer.load _ p hinv hb hp).2⟩
  · rw [L.reload]
    exact ⟨⟨e₀, ⟨hinv, hb⟩, .inr ⟨p, hp, rfl⟩⟩, (L.writer.load e₀ p hinv hb hp).2⟩

theorem fillTx_spec {e : ε} (h : L.writer.Inv e) {want : Nat} (hwant : 0 < want) :
    ∃ e', F.fillTx e want = some (e', padded want (L.writer.left e)) ∧
      L.writer.Inv e' ∧ L.writer.left e' = (L.writer.left e).drop want := by
  cases hb : F.writer.busy e with
  | true =>
    obtain ⟨e', hfill, hinv, hleft, _⟩ := L.writer.fill e want h hb hwant
    refine ⟨e', ?_, hinv, hleft⟩
    have hpads : want - ((L.writer.left e).take want).length =
        want - (L.writer.left e).length := by
      rw [List.length_take]
      omega
    rw [fillTx, hfill, Option.map_some, hpads]
    rfl
  | false =>
    have hnil := L.writer.idle e h hb
    refine ⟨e, ?_, h, ?_⟩
    · rw [fillTx, L.rest e want hb, hnil, padded_nil]
      rfl
    · rw [hnil, List.drop_nil]

/-- How the second transfer ends: a chunk fails, or what the encoder has left is out, padded to the
length. -/
theorem clock_spec {chunkSz : Nat} (hchunk : 0 < chunkSz) (len : Nat) (moves : Nat → Bool) (sent k : Nat)
    (e : ε) (h : L.writer.Inv e) :
    ∃ fuel₀ e', (∀ fuel, fuel₀ ≤ fuel →
        F.clock chunkSz len moves fuel sent k e = some (F.encInit e', none)) ∨
      (∀ fuel, fuel₀ ≤ fuel → F.clock chunkSz len moves fuel sent k e =
        some (e', some (padded (len - sent) (L.writer.left e)))) ∧
        L.writer.Inv e' ∧ L.writer.left e' = (L.writer.left e).drop (len - sent) := by
  induction hn : len - sent using Nat.strong_induction_on generalizing sent k e with
  | _ n ih =>
    by_cases hsent : sent < len
    · have hpos : 0 < min (len - sent) chunkSz := by omega
      obtain ⟨e₁, hfill, hinv, hleft⟩ := L.fillTx_spec h hpos
      have hturn : ∀ fuel, F.clock chunkSz len moves (fuel + 1) sent k e =
          (F.fillTx e (min (len - sent) chunkSz)).bind fun r =>
            if moves k then
              (F.clock chunkSz len moves fuel (sent + min (len - sent) chunkSz) (k + 1) r.1).map
                fun t => (t.1, t.2.map (r.2 ++ ·))
            else some (F.encInit r.1, none) := by
        intro fuel
        rw [clock, if_pos hsent]
      simp only [hfill, Option.bind_some] at hturn
      have hsplit : n = min (len - sent) chunkSz + (len - (sent + min (len - sent) chunkSz)) := by
        omega
      generalize min (len - sent) chunkSz = chunk at *
      cases hmove : moves k with
      | false =>
        refine ⟨1, e₁, .inl fun fuel hle => ?_⟩
        obtain ⟨fuel, rfl⟩ : ∃ m, fuel = m + 1 := ⟨fuel - 1, by omega⟩
        rw [hturn, hmove]
        rfl
      | true =>
        simp only [hmove, if_true] at hturn
        obtain ⟨fuel₀, e', hend⟩ := ih _ (by omega) (sent + chunk) (k + 1) e₁ hinv rfl
        refine ⟨fuel₀ + 1, e', ?_⟩
        rcases hend with hfail | ⟨hdone, hinv', hleft'⟩
        · left
          intro fuel hle
          obtain ⟨fuel, rfl⟩ : ∃ m, fuel = m + 1 := ⟨fuel - 1, by omega⟩
          rw [hturn, hfail fuel (by omega)]
          rfl
        · right
          refine ⟨?_, hinv', ?_⟩
          · intro fuel hle
            obtain ⟨fuel, rfl⟩ : ∃ m, fuel = m + 1 := ⟨fuel - 1, by omega⟩
            rw [hturn, hdone fuel (by omega), hleft, hsplit, ← padded_append]
            rfl
          · rw [hleft', hleft, List.drop_drop, ← hsplit]
    · have h0 : n = 0 := by omega
      refine ⟨1, e, .inr ⟨?_, h, ?_⟩⟩
      · intro fuel hle
        obtain ⟨fuel, rfl⟩ : ∃ m, fuel = m + 1 := ⟨fuel - 1, by omega⟩
        rw [clock, if_neg hsent, h0, padded_zero]
      · rw [h0, List.drop_zero]

/-- What an exchange leaves: an encoder ready for the next, idle unless something was refused, and
nothing or what was announced. -/
structure Kept (frameBits : Nat) (e : ε) (t : Turn) (r : ε × Option Clocked) : Prop where
  ready : L.Ready r.1
  idle : L.Idle e → (∀ p ∈ t.pkt, ¬ F.Refused frameBits p) → L.Idle r.1
  honest : ∀ c ∈ r.2, F.Honest wire t c

theorem Kept.of_idle {frameBits : Nat} {e : ε} {t : Turn} {r : ε × Option Clocked}
    (h : L.Idle r.1) (hc : ∀ c ∈ r.2, F.Honest wire t c) : L.Kept frameBits e t r :=
  ⟨h.ready L, fun _ _ => h, hc⟩

/-- The second transfer of a packet announced, or of an idle encoder. -/
theorem clocked_kept {chunkSz txLen rxLen : Nat} {moves : Nat → Bool} (hchunk : 0 < chunkSz)
    {e : ε} {t : Turn} (h : L.writer.Inv e)
    (hleft : txLen = 0 ∧ L.writer.left e = [] ∨
      ∃ p, t.pkt = some p ∧ good p ∧ txLen = F.wireLen p ∧ L.writer.left e = wire p) :
    ∃ fuel₀ r, (∀ fuel, fuel₀ ≤ fuel →
      (F.clock chunkSz (max txLen rxLen) moves fuel 0 0 e).map
        (fun s => (s.1, s.2.map fun out => (⟨txLen, out⟩ : Clocked))) = some r) ∧
      L.Idle r.1 ∧ ∀ c ∈ r.2, F.Honest wire t c := by
  obtain ⟨fuel₀, e', hend⟩ := L.clock_spec hchunk (max txLen rxLen) moves 0 0 e h
  rcases hend with hfail | ⟨hdone, hinv, hrest⟩
  · refine ⟨fuel₀, (F.encInit e', none), ?_, L.init e', ?_⟩
    · intro fuel hle
      rw [hfail fuel hle]
      rfl
    · rintro c ⟨⟩
  · rw [Nat.sub_zero] at hdone hrest
    have hlen : (L.writer.left e).length ≤ max txLen rxLen := by
      rcases hleft with ⟨_, hnil⟩ | ⟨p, _, hp, htx, hwire⟩
      · rw [hnil]
        exact Nat.zero_le _
      · have := L.fits p hp
        rw [hwire]
        omega
    refine ⟨fuel₀, (e', some ⟨txLen, padded (max txLen rxLen) (L.writer.left e)⟩), ?_, ?_, ?_⟩
    · intro fuel hle
      rw [hdone fuel hle]
      rfl
    · refine ⟨hinv, L.silent e' hinv ?_⟩
      rw [hrest, List.drop_of_length_le hlen]
    · rintro c ⟨⟩
      rw [padded, List.take_of_length_le hlen]
      rcases hleft with ⟨htx, hnil⟩ | ⟨p, hpkt, hp, htx, hwire⟩
      · constructor
        · intro _
          refine ⟨max txLen rxLen, ?_⟩
          rw [hnil]
          rfl
        · intro hne
          exact absurd htx hne
      · constructor
        · intro h0
          have := L.pos p hp
          rw [← htx, show txLen = 0 from h0] at this
          omega
        · intro _
          refine ⟨p, max txLen rxLen - (L.writer.left e).length, hpkt, htx, ?_⟩
          rw [hwire]

theorem exchange_kept {frameBits chunkSz : Nat} (hchunk : 0 < chunkSz) {e : ε} {t : Turn}
    (h : L.Ready e) (hgood : ∀ p ∈ t.pkt, good p) (hsound : F.Sound frameBits e t) :
    ∃ fuel₀ r, (∀ fuel, fuel₀ ≤ fuel →
      F.exchange frameBits chunkSz fuel e t = some r) ∧ L.Kept frameBits e t r := by
  by_cases hann : t.announces = true
  · have hex : ∀ fuel, F.exchange frameBits chunkSz fuel e t =
        if (F.loadTx frameBits e t.pkt).2 = 0 ∧ t.rxLen = 0 then
          some ((F.loadTx frameBits e t.pkt).1, none)
        else
          (F.clock chunkSz (max (F.loadTx frameBits e t.pkt).2 t.rxLen) t.moves fuel 0 0
            (F.loadTx frameBits e t.pkt).1).map fun s =>
              (s.1, s.2.map fun out => ⟨(F.loadTx frameBits e t.pkt).2, out⟩) := by
      intro fuel
      rw [exchange, if_neg (not_not.mpr hann)]
    simp only [hex]
    have hready : L.Ready (F.loadTx frameBits e t.pkt).1 := by
      rw [loadTx.eq_def]
      cases hpkt : t.pkt with
      | none => exact h
      | some p =>
        simp only
        split
        · exact (h.load L (hgood p hpkt)).1
        · exact (h.load L (hgood p hpkt)).1
    by_cases h0 : (F.loadTx frameBits e t.pkt).2 = 0 ∧ t.rxLen = 0
    · refine ⟨0, ((F.loadTx frameBits e t.pkt).1, none), ?_, hready, ?_, by rintro c ⟨⟩⟩
      · intro fuel _
        rw [if_pos h0]
      · intro hidle hacc
        rw [loadTx.eq_def] at h0 ⊢
        cases hpkt : t.pkt with
        | none => exact hidle
        | some p =>
          rw [hpkt] at h0
          simp only [if_neg (hacc p hpkt)] at h0
          have := L.pos p (hgood p hpkt)
          omega
    · simp only [if_neg h0]
      have hleft : (F.loadTx frameBits e t.pkt).2 = 0 ∧
            L.writer.left (F.loadTx frameBits e t.pkt).1 = [] ∨
          ∃ p, t.pkt = some p ∧ good p ∧ (F.loadTx frameBits e t.pkt).2 = F.wireLen p ∧
            L.writer.left (F.loadTx frameBits e t.pkt).1 = wire p := by
        rw [loadTx.eq_def] at h0 ⊢
        cases hpkt : t.pkt with
        | none =>
          left
          rw [hpkt] at h0
          have hidle := hsound hann (fun hrx => h0 ⟨rfl, hrx⟩)
          rw [hpkt] at hidle
          exact ⟨rfl, L.writer.idle e (h.inv L) hidle⟩
        | some p =>
          right
          have hp := hgood p hpkt
          have hnot : ¬ F.Refused frameBits p := by
            intro href
            rw [hpkt] at h0
            simp only [if_pos href] at h0
            have hs := hsound hann (fun hrx => h0 ⟨trivial, hrx⟩)
            rw [hpkt] at hs
            exact hs href
          simp only [if_neg hnot]
          exact ⟨p, rfl, hp, rfl, (h.load L hp).2⟩
      obtain ⟨fuel₀, r, hr, hidle, hhonest⟩ := L.clocked_kept hchunk (hready.inv L) hleft
      exact ⟨fuel₀, r, hr, .of_idle L hidle hhonest⟩
  · refine ⟨0, (F.encInit (F.loadTx frameBits e t.pkt).1, none), ?_, .of_idle L (L.init _) ?_⟩
    · intro fuel _
      rw [exchange, if_pos hann]
    · rintro c ⟨⟩

/-- A run of sound exchanges: each that completes clocks out what it announced. -/
theorem exchanges_honest {frameBits chunkSz : Nat} (hchunk : 0 < chunkSz) (ts : List Turn) :
    ∀ {e : ε}, L.Ready e → (∀ t ∈ ts, ∀ p ∈ t.pkt, good p) → F.SoundRun frameBits chunkSz e ts →
      F.HonestRun frameBits chunkSz wire e ts := by
  induction ts with
  | nil =>
    intro e _ _ _
    exact ⟨0, [], fun _ _ => rfl, by rintro x ⟨⟩⟩
  | cons t ts ih =>
    rintro e h hgood ⟨hsound, hrest⟩
    obtain ⟨fuel₁, r, hex, hkept⟩ :=
      L.exchange_kept hchunk h (hgood t (List.mem_cons_self ..)) hsound
    have hnext := hrest fuel₁ r (hex fuel₁ (le_refl _))
    obtain ⟨fuel₂, l, hexs, hall⟩ :=
      ih hkept.ready (fun u hu => hgood u (List.mem_cons_of_mem t hu)) hnext
    refine ⟨max fuel₁ fuel₂, (t, r.2) :: l, ?_, ?_⟩
    · intro fuel hle
      rw [exchanges, hex fuel (by omega), Option.bind_some, hexs fuel (by omega)]
      rfl
    · intro x hx
      rcases List.mem_cons.mp hx with rfl | hx
      · exact hkept.honest
      · exact hall x hx

theorem sound_of_accepted {frameBits chunkSz : Nat} (hchunk : 0 < chunkSz)
    (hacc : ∀ p, good p → ¬ F.Refused frameBits p) (ts : List Turn) :
    ∀ {e : ε}, L.Idle e → (∀ t ∈ ts, ∀ p ∈ t.pkt, good p) → F.SoundRun frameBits chunkSz e ts := by
  induction ts with
  | nil =>
    intro e _ _
    trivial
  | cons t ts ih =>
    intro e h hgood
    have ht := hgood t (List.mem_cons_self ..)
    have hsound : F.Sound frameBits e t := by
      intro _ _
      split
      · exact h.2
      · rename_i p hp
        exact hacc p (ht p hp)
    refine ⟨hsound, ?_⟩
    intro fuel r hex
    obtain ⟨fuel₀, r', hex', hkept⟩ := L.exchange_kept hchunk (h.ready L) ht hsound
    have hsame := (exchange_mono hex (le_max_left fuel fuel₀)).symm.trans
      (hex' _ (le_max_right fuel fuel₀))
    cases hsame
    apply ih (hkept.idle h fun p hp => hacc p (ht p hp))
    intro u hu
    exact hgood u (List.mem_cons_of_mem t hu)

end Lawful

end TxFraming

end Spi

/-! ## The framings that announce -/

/-- `ludlc_framing_cobs`, as a link over SPI sends with it. -/
def Cobs.txFraming {w : Wire} (d : UInt8) (cfg : Cfg w) (csum : Option (Csum b)) :
    Spi.TxFraming (Cobs.Enc b) where
  frameCap := Cobs.encodedMax cfg csum
  wireLen := Cobs.wireLen csum
  writer := Cobs.writerWith d csum
  encInit := Cobs.encInit

theorem Cobs.refused_iff {w : Wire} {d : UInt8} {cfg : Cfg w} {csum : Option (Csum b)}
    {frameBits : Nat} {p : TxPacket} : (Cobs.txFraming d cfg csum).Refused frameBits p ↔
      Cobs.encodedMax cfg csum < Cobs.wireLen csum p % 2 ^ frameBits :=
  Iff.rfl

/-- `ludlc_framing_raw`, as a link over SPI sends with it. -/
def Raw.txFraming {w : Wire} (cfg : Cfg w) (csum : Option (Csum b)) :
    Spi.TxFraming (Raw.Enc b) where
  frameCap := connFrameSz cfg csum
  wireLen := Raw.wireLen csum
  writer := Raw.writer csum
  encInit := Raw.encInit

theorem Cobs.busy_of_wire {d : UInt8} {csum : Option (Csum b)} {e : Cobs.Enc b}
    (h : e.wire d csum = []) : Cobs.encBusy e = false := by
  rw [Cobs.Enc.wire] at h
  rw [Cobs.encBusy]
  cases hs : e.state with
  | idle =>
    rw [hs] at h
    simp only at h
    split at h
    · rename_i hh
      rw [hh]
      rfl
    · simp at h
  | code =>
    rw [hs] at h
    simp at h
  | data =>
    rw [hs, List.append_eq_nil_iff, Cobs.Enc.after] at h
    have h := h.2
    split at h
    · simp at h
    · split at h
      · simp at h
      · cases h

theorem Cobs.txFraming_rest {w : Wire} (d : UInt8) (cfg : Cfg w) (csum : Option (Csum b))
    (e : Cobs.Enc b) (cap : Nat) (hb : (Cobs.txFraming d cfg csum).writer.busy e = false) :
    (Cobs.txFraming d cfg csum).writer.fill e cap = some (e, []) := by
  change Stream.fillLoop Cobs.encBusy (Cobs.encTurn d csum) (2 * cap + 2) e cap = some (e, [])
  rw [Stream.fillLoop, if_pos (.inr hb)]

theorem Cobs.txFraming_pos {w : Wire} (d : UInt8) {cfg : Cfg w} {csum : Option (Csum b)}
    {p : TxPacket} (hp : p.Fits cfg csum) : 0 < (Cobs.txFraming d cfg csum).wireLen p := by
  change 0 < Cobs.wireLen csum p
  rw [Cobs.wireLen_eq hp]
  omega

def Cobs.txFraming_lawful {w : Wire} (d : UInt8) (cfg : Cfg w) (csum : Option (Csum b)) :
    (Cobs.txFraming d cfg csum).Lawful (TxPacket.Fits cfg csum) (Cobs.wireWith d csum) where
  writer := (Cobs.writerWith_lawful d csum).restrict fun _ hp => hp.hdr_ne
  silent _ _ := Cobs.busy_of_wire
  rest := Cobs.txFraming_rest d cfg csum
  init e := ⟨Cobs.encInit_ok csum e, rfl⟩
  reload _ _ _ := rfl
  fits _ := Cobs.length_wireWith_le d
  pos _ hp := Cobs.txFraming_pos d hp

theorem Raw.txFraming_rest {w : Wire} (cfg : Cfg w) (csum : Option (Csum b)) (e : Raw.Enc b)
    (cap : Nat) (hb : (Raw.txFraming cfg csum).writer.busy e = false) :
    (Raw.txFraming cfg csum).writer.fill e cap = some (e, []) := by
  change Stream.fillLoop Raw.encBusy (Raw.encTurn csum) (2 * cap + 2) e cap = some (e, [])
  rw [Stream.fillLoop, if_pos (.inr hb)]

theorem Raw.txFraming_fits {w : Wire} (cfg : Cfg w) (csum : Option (Csum b)) (p : TxPacket) :
    (frameOf csum p.octets).length ≤ (Raw.txFraming cfg csum).wireLen p := by
  change _ ≤ Raw.wireLen csum p
  rw [length_frameOf, TxPacket.octets, List.length_append, Raw.wireLen, Nat.add_comm]

theorem Raw.txFraming_pos {w : Wire} {cfg : Cfg w} {csum : Option (Csum b)} {p : TxPacket}
    (hp : p.Fits cfg csum) : 0 < (Raw.txFraming cfg csum).wireLen p := by
  have hhdr := hp.hdr
  change 0 < Raw.wireLen csum p
  rw [Raw.wireLen]
  omega

def Raw.txFraming_lawful {w : Wire} (cfg : Cfg w) (csum : Option (Csum b)) :
    (Raw.txFraming cfg csum).Lawful (TxPacket.Fits cfg csum) (fun p => frameOf csum p.octets) where
  writer := (Raw.writer_lawful csum).restrict fun _ hp => hp.hdr_ne
  silent _ hok := Raw.busy_of_wire hok
  rest := Raw.txFraming_rest cfg csum
  init e := ⟨Raw.encInit_ok e, rfl⟩
  reload _ _ _ := rfl
  fits p _ := Raw.txFraming_fits cfg csum p
  pos _ hp := Raw.txFraming_pos hp

namespace Spi

open TxFraming

/-- On a link with raw frames the master clocks out what it announced, in every run. On a link that
stuffs its frames it does in every run that clocks out nothing it refused. -/
theorem clocked_as_announced {w : Wire} (cfg : Cfg w) (csum : Option (Csum b)) (d : UInt8)
    {frameBits chunkSz : Nat} (hchunk : 0 < chunkSz) (ts : List Turn)
    (hts : ∀ t ∈ ts, ∀ p ∈ t.pkt, p.Fits cfg csum) :
    (∀ e : Raw.Enc b, (Raw.txFraming cfg csum).HonestRun frameBits chunkSz
      (fun p => frameOf csum p.octets) (Raw.encInit e) ts) ∧
    ∀ e : Cobs.Enc b, (Cobs.txFraming d cfg csum).SoundRun frameBits chunkSz (Cobs.encInit e) ts →
      (Cobs.txFraming d cfg csum).HonestRun frameBits chunkSz (Cobs.wireWith d csum)
        (Cobs.encInit e) ts := by
  constructor
  · intro e
    let L := Raw.txFraming_lawful cfg csum
    have hacc : ∀ p : TxPacket, p.Fits cfg csum → ¬ (Raw.txFraming cfg csum).Refused frameBits p := by
      intro p hp
      have hframe := hp.frame
      have hmod := Nat.mod_le (Raw.wireLen csum p) (2 ^ frameBits)
      apply Nat.not_lt.mpr
      apply hmod.trans
      rw [TxPacket.octets, List.length_append, Nat.add_comm] at hframe
      exact hframe
    apply L.exchanges_honest hchunk ts (Lawful.Idle.ready L (L.init e)) hts
    exact L.sound_of_accepted hchunk hacc ts (L.init e) hts
  · intro e hsound
    let L := Cobs.txFraming_lawful d cfg csum
    exact L.exchanges_honest hchunk ts (Lawful.Idle.ready L (L.init e)) hts hsound

/-- A PING each way, and a PING that nothing answers. -/
theorem clocked_as_announced_ping :
    let cfg := Cfg.ofBuild (.ofWindow 1 (by decide)) true 1 (by decide)
    let ts : List Turn := [⟨some ⟨[1, 0x80], []⟩, true, 6, fun _ => true⟩,
      ⟨some ⟨[1, 0x80], []⟩, true, 0, fun k => k = 0⟩]
    let e : Cobs.Enc 8 := ⟨[], [], [], 0, 0, 0, .idle, false, false, false⟩
    (Cobs.txFraming Cobs.delimiter cfg (some lrc)).HonestRun 16 64
      (Cobs.wireWith Cobs.delimiter (some lrc)) (Cobs.encInit e) ts := by
  intro cfg ts e
  have hping : TxPacket.Fits cfg (some lrc) ⟨[1, 0x80], []⟩ := ⟨by decide, by decide, by decide⟩
  have hts : ∀ t ∈ ts, ∀ p ∈ t.pkt, p.Fits cfg (some lrc) := by
    intro t ht p hp
    rcases List.mem_pair.mp ht with rfl | rfl
    · cases hp
      exact hping
    · cases hp
      exact hping
  refine (clocked_as_announced cfg (some lrc) Cobs.delimiter (by decide) ts hts).2 e ⟨?_, ?_⟩
  · intro _ _
    change ¬ (Cobs.txFraming Cobs.delimiter cfg (some lrc)).Refused 16 ⟨[1, 0x80], []⟩
    decide
  · intro _ _ _
    exact ⟨fun _ h0 => absurd rfl h0, fun _ _ _ => trivial⟩

/-- An encoder that nothing was ever loaded into. -/
def newEncoder : Cobs.Enc 8 := ⟨[], [], [], 0, 0, 0, .idle, false, false, false⟩

/-- The master has the largest packet of its link, and the peer something of one octet. -/
def largestTurn : Turn := ⟨some Cobs.largestPacket, true, 1, fun _ => true⟩

/-- The link it goes over. -/
def largestLink : TxFraming (Cobs.Enc 8) := Cobs.txFraming Cobs.delimiter Cobs.twoGroups none

theorem refused_largestPacket : largestLink.Refused 16 Cobs.largestPacket := by
  rw [largestLink, Cobs.refused_iff, Nat.mod_eq_of_lt]
  · exact Cobs.encodedMax_lt_wireLen
  · rw [Cobs.wireLen_eq Cobs.largestPacket_fits, Cobs.length_largestPacket]
    decide

theorem fill_largestPacket : ∃ e,
    largestLink.writer.fill (largestLink.writer.load (Cobs.encInit newEncoder) Cobs.largestPacket) 1 =
      some (e, [255]) := by
  have hout : (largestLink.writer.fill
      (largestLink.writer.load (Cobs.encInit newEncoder) Cobs.largestPacket) 1).map Prod.snd =
        some [255] := by
    decide +kernel
  obtain ⟨⟨e, out⟩, hfill, rfl⟩ := Option.map_eq_some_iff.mp hout
  exact ⟨e, hfill⟩

/-- The packet is refused and zero is announced, but its first octet goes out. -/
theorem refused_clocked_out :
    Cobs.largestPacket.Fits Cobs.twoGroups (none : Option (Csum 8)) ∧
      ¬ largestLink.HonestRun 16 64 (Cobs.wireWith Cobs.delimiter (none : Option (Csum 8)))
        (Cobs.encInit newEncoder) [largestTurn] := by
  refine ⟨Cobs.largestPacket_fits, ?_⟩
  rintro ⟨fuel₀, l, hrun, hhonest⟩
  obtain ⟨e, hfill⟩ := fill_largestPacket
  have hclock : largestLink.clock 64 1 (fun _ => true) (fuel₀ + 2) 0 0
      (largestLink.writer.load (Cobs.encInit newEncoder) Cobs.largestPacket) =
        some (e, some [255]) := by
    rw [clock.eq_def]
    simp only [fillTx, Nat.zero_lt_one, if_true, show min (1 - 0) 64 = 1 from rfl, hfill]
    rfl
  have hex : largestLink.exchange 16 64 (fuel₀ + 2) (Cobs.encInit newEncoder) largestTurn =
      some (e, some ⟨0, [255]⟩) := by
    rw [exchange, show largestTurn.pkt = some Cobs.largestPacket from rfl,
      loadTx_refused _ refused_largestPacket]
    simp only [largestTurn, not_true_eq_false, Nat.one_ne_zero, and_false, if_false,
      Nat.zero_max, hclock]
    rfl
  have hl := hrun (fuel₀ + 2) (by omega)
  rw [exchanges, hex] at hl
  cases hl
  obtain ⟨n, hpads⟩ := (hhonest _ (List.mem_singleton_self _) _ rfl).nothing rfl
  have hlen := congrArg List.length hpads
  rw [List.length_replicate] at hlen
  rw [← hlen] at hpads
  exact absurd hpads (by decide)

end Spi

end Ludlc
