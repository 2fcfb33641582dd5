import Ludlc.Framing.CobsDecoder
import Ludlc.Framing.Raw
import Ludlc.Spi.Proto

/-! # An exchange over SPI

`ludlc_spi_exchange`, whose loop both transports share: the ends announce what they send, then
clock the longer of the two frames in chunks, feeding the decoder what lies inside the announced
length. A packet is handed over wherever the decoder says one is complete, and the decoder is not
prepared again for the octets after it.
-/

namespace Ludlc.Spi

variable {δ : Type} {b : Nat}

/-- What an exchange calls on the framing of a link. -/
structure Framing (δ : Type) where
  encodedMax : Nat
  decPrep : Nat → δ → δ
  decFeed : δ → List UInt8 → Nat × Bool × δ
  /-- The octets of the packet just decoded. -/
  packet : δ → List UInt8

/-- The receive loop: nothing prepares the decoder after a packet. -/
def Framing.loop (F : Framing δ) : Stream.Reader δ (List UInt8) UInt8 where
  feed := F.decFeed
  item := F.packet
  prep := id

/-- How an exchange ends. -/
inductive Outcome
  /-- Neither end had anything to send. -/
  | quiet
  /-- A transfer failed. -/
  | failed
  | moved
  deriving DecidableEq

/-- What an exchange leaves, and the packets the loop passed to `ludlc_spi_on_packet`. -/
structure Exchanged (δ : Type) where
  outcome : Outcome
  dec : δ
  packets : List (List UInt8)

/-- The transfers after the announcement, of at most `chunkSz` octets each. The peer and the line put
the octets of `line` on the bus, and the transfer they do not fill fails. `none` where `fuel` turns
are not enough. -/
def moveFrame (F : Framing δ) (chunkSz len rxLen : Nat) :
    Nat → Nat → Nat → δ → List UInt8 → Option (Exchanged δ)
  | 0, _, _, _, _ => none
  | fuel + 1, sent, recvd, d, line =>
    if sent < len then
      let chunk := min (len - sent) chunkSz
      if line.length < chunk then some ⟨.failed, d, []⟩
      else if recvd < rxLen then
        let rxFeed := min chunk (rxLen - recvd)
        (F.loop.read fuel d ((line.take chunk).take rxFeed)).bind fun r =>
          (moveFrame F chunkSz len rxLen fuel (sent + chunk) (recvd + rxFeed) r.1
            (line.drop chunk)).map fun t => { t with packets := r.2 ++ t.packets }
      else
        moveFrame F chunkSz len rxLen fuel (sent + chunk) recvd d (line.drop chunk)
    else some ⟨.moved, d, []⟩

/-- The length the peer announced, or 0 where its header did not come or is refused. -/
def announced (F : Framing δ) (hdr : Option Hdr) : Nat :=
  (hdr.bind fun h => hdrGet h F.encodedMax).getD 0

/-- `ludlc_spi_exchange`, with `txLen` octets to send and a peer whose header is `hdr`, unless its
transfer fails. -/
def exchange (F : Framing δ) (frameSz chunkSz txLen : Nat) (fuel : Nat) (d : δ) (hdr : Option Hdr)
    (line : List UInt8) : Option (Exchanged δ) :=
  match hdr with
  | none => some ⟨.failed, d, []⟩
  | some _ =>
    let rxLen := announced F hdr
    if txLen = 0 ∧ rxLen = 0 then some ⟨.quiet, d, []⟩
    else
      moveFrame F chunkSz (max txLen rxLen) rxLen fuel 0 0 (F.decPrep (min frameSz rxLen) d) line

/-- The calls of `ludlc_receive` that `ludlc_spi_on_packet` makes, each with its timestamp, the
`k`th reading of the clock being the next. A packet is dropped where the clock fails. -/
def onPackets (clock : Nat → Option Nat) : Nat → List (List UInt8) → List (List UInt8 × Nat)
  | _, [] => []
  | k, p :: ps =>
    match clock k with
    | none => onPackets clock (k + 1) ps
    | some ts => (p, ts) :: onPackets clock (k + 1) ps

/-! ## The octets that reach the decoder -/

/-- Of `l` octets on the bus, those in whole transfers of a frame of `n`. -/
def arrived (chunkSz n l : Nat) : Nat := if n ≤ l then n else l / chunkSz * chunkSz

/-- The octets that arrive inside the announced length. -/
def heard (F : Framing δ) (chunkSz txLen : Nat) (hdr : Option Hdr) (line : List UInt8) :
    List UInt8 :=
  (line.take (arrived chunkSz (max txLen (announced F hdr)) line.length)).take (announced F hdr)

theorem arrived_of_lt {chunkSz n l : Nat} (h : l < min n chunkSz) : arrived chunkSz n l = 0 := by
  rw [lt_min_iff] at h
  rw [arrived, if_neg (by omega), Nat.div_eq_of_lt h.2, Nat.zero_mul]

theorem arrived_of_le {chunkSz n l : Nat} (hchunk : 0 < chunkSz) (h : min n chunkSz ≤ l) :
    arrived chunkSz n l =
      min n chunkSz + arrived chunkSz (n - min n chunkSz) (l - min n chunkSz) := by
  rw [arrived, arrived]
  rcases le_total n chunkSz with hn | hn
  · rw [min_eq_left hn] at h ⊢
    rw [if_pos h, if_pos (by omega)]
    omega
  · rw [min_eq_right hn] at h ⊢
    by_cases hl : n ≤ l
    · rw [if_pos hl, if_pos (by omega)]
      omega
    · have hdiv : l / chunkSz = (l - chunkSz) / chunkSz + 1 := by
        rw [← Nat.add_div_right _ hchunk, Nat.sub_add_cancel h]
      rw [if_neg hl, if_neg (by omega), hdiv, Nat.succ_mul]
      omega

theorem take_arrived {chunkSz n : Nat} {line : List UInt8} (hchunk : 0 < chunkSz) (rem : Nat)
    (h : min n chunkSz ≤ line.length) :
    (line.take (arrived chunkSz n line.length)).take rem =
      (line.take (min n chunkSz)).take (min (min n chunkSz) rem) ++
        ((line.drop (min n chunkSz)).take
          (arrived chunkSz (n - min n chunkSz) (line.drop (min n chunkSz)).length)).take
            (rem - min (min n chunkSz) rem) := by
  rw [List.length_drop, arrived_of_le hchunk h]
  generalize min n chunkSz = chunk at *
  rw [List.take_add, List.take_append, List.length_take, min_eq_left h]
  congr 1
  · rw [List.take_take, List.take_take]
    congr 1
    omega
  · congr 1
    omega

theorem moveFrame_mono {F : Framing δ} {chunkSz len rxLen fuel fuel' : Nat} {sent recvd : Nat}
    {d : δ} {line : List UInt8} {r : Exchanged δ}
    (h : moveFrame F chunkSz len rxLen fuel sent recvd d line = some r) (hle : fuel ≤ fuel') :
    moveFrame F chunkSz len rxLen fuel' sent recvd d line = some r := by
  induction fuel generalizing fuel' sent recvd d line r with
  | zero => cases h
  | succ fuel ih =>
    obtain ⟨fuel', rfl⟩ : ∃ n, fuel' = n + 1 := ⟨fuel' - 1, by omega⟩
    rw [moveFrame] at h ⊢
    split at h
    · rename_i hs
      rw [if_pos hs]
      simp only at h ⊢
      split at h
      · rename_i hl
        rw [if_pos hl]
        exact h
      · rename_i hl
        rw [if_neg hl]
        split at h
        · rename_i hr
          rw [if_pos hr]
          obtain ⟨t, ht, h⟩ := Option.bind_eq_some_iff.mp h
          obtain ⟨u, hu, rfl⟩ := Option.map_eq_some_iff.mp h
          rw [Stream.Reader.read_mono ht (by omega), Option.bind_some, ih hu (by omega),
            Option.map_some]
        · rename_i hr
          rw [if_neg hr]
          exact ih h (by omega)
    · rename_i hs
      rw [if_neg hs]
      exact h

/-! ## What an exchange comes to -/

/-- What a decoder makes of the octets inside an announced length of `n`, fed in pieces: `Holds`
relates it to the octets and the packets so far, unless it is `Lost` in them. -/
structure Framing.Progress (F : Framing δ) (n : Nat)
    (Holds : δ → List UInt8 → List (List UInt8) → Prop) (Lost : List UInt8 → Prop) : Prop where
  feed : ∀ d fed ps src, Holds d fed ps → (fed ++ src).length ≤ n →
    (∃ d' ps', F.loop.Reads d src d' ps' ∧ Holds d' (fed ++ src) (ps ++ ps')) ∨
      F.loop.Stuck d src ∧ Lost (fed ++ src)
  lost : ∀ fed src, Lost fed → Lost (fed ++ src)

/-- The transfers come to what the octets heard come to, however they are cut. -/
theorem Framing.Progress.moveFrame {F : Framing δ} {chunkSz len rxLen : Nat}
    {Holds : δ → List UInt8 → List (List UInt8) → Prop} {Lost : List UInt8 → Prop}
    (L : F.Progress rxLen Holds Lost) (hchunk : 0 < chunkSz) (sent recvd : Nat) (d : δ)
    (line fed : List UInt8) (ps : List (List UInt8)) (hholds : Holds d fed ps)
    (hfed : fed.length ≤ recvd) (hrecvd : recvd ≤ rxLen) :
    let all := fed ++ (line.take (arrived chunkSz (len - sent) line.length)).take (rxLen - recvd)
    (∃ fuel r, Spi.moveFrame F chunkSz len rxLen fuel sent recvd d line = some r ∧
        Holds r.dec all (ps ++ r.packets)) ∨
      (∀ fuel, Spi.moveFrame F chunkSz len rxLen fuel sent recvd d line = none) ∧ Lost all := by
  induction hn : len - sent using Nat.strong_induction_on
    generalizing sent recvd d line fed ps with
  | _ n ih =>
    by_cases hsent : sent < len
    · by_cases hline : line.length < min (len - sent) chunkSz
      · -- the transfer fails
        left
        refine ⟨1, ⟨.failed, d, []⟩, ?_, ?_⟩
        · rw [Spi.moveFrame, if_pos hsent]
          exact if_pos hline
        · rw [← hn, arrived_of_lt hline, List.take_zero, List.take_nil, List.append_nil,
            List.append_nil]
          exact hholds
      · rw [not_lt] at hline
        have hless : len - (sent + min (len - sent) chunkSz) < n := by omega
        have hcut := take_arrived hchunk (rxLen - recvd) hline
        rw [Nat.sub_sub len sent] at hcut
        rw [← hn, hcut]
        have hturn : ∀ fuel, Spi.moveFrame F chunkSz len rxLen (fuel + 1) sent recvd d line =
            if recvd < rxLen then
              (F.loop.read fuel d ((line.take (min (len - sent) chunkSz)).take
                  (min (min (len - sent) chunkSz) (rxLen - recvd)))).bind fun r =>
                (Spi.moveFrame F chunkSz len rxLen fuel (sent + min (len - sent) chunkSz)
                  (recvd + min (min (len - sent) chunkSz) (rxLen - recvd)) r.1
                  (line.drop (min (len - sent) chunkSz))).map fun t =>
                    { t with packets := r.2 ++ t.packets }
            else
              Spi.moveFrame F chunkSz len rxLen fuel (sent + min (len - sent) chunkSz) recvd d
                (line.drop (min (len - sent) chunkSz)) := by
          intro fuel
          rw [Spi.moveFrame, if_pos hsent]
          exact if_neg (not_lt.mpr hline)
        generalize hch : min (len - sent) chunkSz = chunk at *
        by_cases hrx : recvd < rxLen
        · simp only [if_pos hrx] at hturn
          have hlen : ((line.take chunk).take (min chunk (rxLen - recvd))).length =
              min chunk (rxLen - recvd) := by
            rw [List.length_take, List.length_take, min_eq_left hline]
            omega
          generalize hsrc : (line.take chunk).take (min chunk (rxLen - recvd)) = src at *
          rcases L.feed d fed ps src hholds (by rw [List.length_append]; omega) with
            ⟨d', ps', hreads, hholds'⟩ | ⟨hstuck, hlost⟩
          · have hrec := ih _ hless (sent + chunk) (recvd + min chunk (rxLen - recvd)) d'
              (line.drop chunk) (fed ++ src) (ps ++ ps') hholds'
              (by rw [List.length_append]; omega) (by omega) rfl
            simp only [List.append_assoc, Nat.sub_sub] at hrec ⊢
            obtain ⟨fuel, hread⟩ := hreads
            rcases hrec with ⟨fuel', r, hmove, hlast⟩ | ⟨hnone, hlost⟩
            · left
              refine ⟨max fuel fuel' + 1, { r with packets := ps' ++ r.packets }, ?_, hlast⟩
              rw [hturn, Stream.Reader.read_mono hread (le_max_left ..), Option.bind_some,
                moveFrame_mono hmove (le_max_right ..), Option.map_some]
            · right
              refine ⟨fun k => ?_, hlost⟩
              cases k with
              | zero => rfl
              | succ k =>
                rw [hturn]
                cases hk : F.loop.read k d src with
                | none => rfl
                | some t =>
                  -- the loop reads the same wherever it ends
                  have h1 := Stream.Reader.read_mono hread (le_max_left fuel k)
                  have h2 := Stream.Reader.read_mono hk (le_max_right fuel k)
                  rw [h1] at h2
                  cases h2
                  rw [Option.bind_some, hnone, Option.map_none]
          · right
            constructor
            · intro k
              cases k with
              | zero => rfl
              | succ k => rw [hturn, hstuck k, Option.bind_none]
            · rw [← List.append_assoc]
              exact L.lost _ _ hlost
        · simp only [if_neg hrx] at hturn
          have h0 : rxLen - recvd = 0 := by omega
          have hrec := ih _ hless (sent + chunk) recvd d (line.drop chunk) fed ps hholds hfed hrecvd
            rfl
          simp only [h0, Nat.min_zero, Nat.sub_zero, List.take_zero, List.append_nil] at hrec ⊢
          rcases hrec with ⟨fuel, r, hmove, hlast⟩ | ⟨hnone, hlost⟩
          · left
            exact ⟨fuel + 1, r, (hturn fuel).trans hmove, hlast⟩
          · right
            refine ⟨fun k => ?_, hlost⟩
            cases k with
            | zero => rfl
            | succ k => exact (hturn k).trans (hnone k)
    · left
      refine ⟨1, ⟨.moved, d, []⟩, ?_, ?_⟩
      · rw [Spi.moveFrame, if_neg hsent]
      · have h0 : n = 0 := by omega
        have ha : arrived chunkSz 0 line.length = 0 := by
          rw [arrived, if_pos (Nat.zero_le _)]
        rw [h0, ha, List.take_zero, List.take_nil, List.append_nil, List.append_nil]
        exact hholds

theorem Framing.Progress.exchange {F : Framing δ} {frameSz chunkSz : Nat} {d : δ}
    {hdr : Option Hdr} {Holds : δ → List UInt8 → List (List UInt8) → Prop}
    {Lost : List UInt8 → Prop} (L : F.Progress (announced F hdr) Holds Lost) (txLen : Nat)
    (hstart : Holds (F.decPrep (min frameSz (announced F hdr)) d) [] []) (hchunk : 0 < chunkSz)
    (line : List UInt8) :
    (∃ fuel r d', Spi.exchange F frameSz chunkSz txLen fuel d hdr line = some r ∧
        Holds d' (heard F chunkSz txLen hdr line) r.packets) ∨
      (∀ fuel, Spi.exchange F frameSz chunkSz txLen fuel d hdr line = none) ∧
        Lost (heard F chunkSz txLen hdr line) := by
  have hnil : announced F hdr = 0 → heard F chunkSz txLen hdr line = [] := by
    intro h
    rw [heard, h, List.take_zero]
  cases hdr with
  | none =>
    left
    refine ⟨0, ⟨.failed, d, []⟩, F.decPrep (min frameSz (announced F none)) d, rfl, ?_⟩
    rw [hnil rfl]
    exact hstart
  | some h =>
    by_cases h0 : txLen = 0 ∧ announced F (some h) = 0
    · left
      refine ⟨0, ⟨.quiet, d, []⟩, F.decPrep (min frameSz (announced F (some h))) d, if_pos h0, ?_⟩
      rw [hnil h0.2]
      exact hstart
    · have hex : ∀ fuel, Spi.exchange F frameSz chunkSz txLen fuel d (some h) line =
          Spi.moveFrame F chunkSz (max txLen (announced F (some h))) (announced F (some h)) fuel 0 0
            (F.decPrep (min frameSz (announced F (some h))) d) line :=
        fun fuel => if_neg h0
      simp only [hex]
      rcases L.moveFrame hchunk 0 0 _ line [] [] hstart (le_refl _) (Nat.zero_le _) with
        ⟨fuel, r, hmove, hholds⟩ | ⟨hnone, hlost⟩
      · exact .inl ⟨fuel, r, r.dec, hmove, hholds⟩
      · exact .inr ⟨hnone, hlost⟩

/-! ## What an exchange owes -/

/-- An exchange ends, and calls `ludlc_receive` at most once, with the packet of the one frame among
the octets heard. -/
def Delivers (F : Framing δ) (frameSz chunkSz txLen : Nat) (d : δ) (hdr : Option Hdr)
    (line : List UInt8) (frames : List UInt8 → List (List UInt8)) : Prop :=
  ∃ fuel r, exchange F frameSz chunkSz txLen fuel d hdr line = some r ∧
    ∀ clock, (onPackets clock 0 r.packets).length ≤ 1 ∧
      ∀ call ∈ onPackets clock 0 r.packets,
        frames (heard F chunkSz txLen hdr line) = [call.1]

theorem onPackets_sublist (clock : Nat → Option Nat) (ps : List (List UInt8)) :
    ∀ k, ((onPackets clock k ps).map Prod.fst).Sublist ps := by
  induction ps with
  | nil =>
    intro k
    exact .slnil
  | cons p ps ih =>
    intro k
    rw [onPackets]
    split
    · exact (ih (k + 1)).cons p
    · exact (ih (k + 1)).cons_cons p

theorem onPackets_of_clock (ts : Nat) (ps : List (List UInt8)) :
    ∀ k, onPackets (fun _ => some ts) k ps = ps.map fun p => (p, ts) := by
  induction ps with
  | nil =>
    intro k
    rfl
  | cons p ps ih =>
    intro k
    rw [onPackets, ih]
    rfl

theorem exchange_mono {F : Framing δ} {frameSz chunkSz txLen fuel fuel' : Nat} {d : δ}
    {hdr : Option Hdr} {line : List UInt8} {r : Exchanged δ}
    (h : exchange F frameSz chunkSz txLen fuel d hdr line = some r) (hle : fuel ≤ fuel') :
    exchange F frameSz chunkSz txLen fuel' d hdr line = some r := by
  cases hdr with
  | none => exact h
  | some _ =>
    rw [exchange] at h ⊢
    split at h
    · rename_i h0
      rw [if_pos h0]
      exact h
    · rename_i h0
      rw [if_neg h0]
      exact moveFrame_mono h hle

/-- With a clock that never fails every packet passed on is received, so there may be one, and it is
the one framed. -/
theorem delivers_iff {F : Framing δ} {frameSz chunkSz txLen fuel : Nat} {d : δ}
    {hdr : Option Hdr} {line : List UInt8} {r : Exchanged δ}
    {frames : List UInt8 → List (List UInt8)}
    (h : exchange F frameSz chunkSz txLen fuel d hdr line = some r) :
    Delivers F frameSz chunkSz txLen d hdr line frames ↔
      r.packets = [] ∨ ∃ p, r.packets = [p] ∧ frames (heard F chunkSz txLen hdr line) = [p] := by
  constructor
  · rintro ⟨fuel', r', h', hall⟩
    have h1 := exchange_mono h (le_max_left fuel fuel')
    have h2 := exchange_mono h' (le_max_right fuel fuel')
    rw [h1] at h2
    cases h2
    obtain ⟨hlen, hcalls⟩ := hall fun _ => some 0
    rw [onPackets_of_clock] at hlen hcalls
    rw [List.length_map] at hlen
    cases hp : r.packets with
    | nil => exact .inl rfl
    | cons p ps =>
      cases ps with
      | nil =>
        right
        refine ⟨p, rfl, hcalls (p, 0) ?_⟩
        rw [hp]
        exact List.mem_singleton.mpr rfl
      | cons q ps =>
        rw [hp] at hlen
        simp at hlen
  · intro hp
    refine ⟨fuel, r, h, fun clock => ?_⟩
    have hsub := onPackets_sublist clock r.packets 0
    constructor
    · have hle := hsub.length_le
      rw [List.length_map] at hle
      refine hle.trans ?_
      rcases hp with hp | ⟨p, hp, _⟩
      · simp [hp]
      · simp [hp]
    · intro call hcall
      have hmem := hsub.subset (List.mem_map_of_mem hcall)
      rcases hp with hp | ⟨p, hp, hframes⟩
      · rw [hp] at hmem
        cases hmem
      · rw [hp, List.mem_singleton] at hmem
        rw [hframes, hmem]

end Ludlc.Spi
