import Ludlc.Lib.Stepwise
import Ludlc.Framing.CobsDecoder
import Ludlc.Framing.HdlcDecoder
import Ludlc.Framing.RawEncoder

/-! # The calls a frame is cut into

Each decoder goes octet by octet, and each encoder puts out the front of what it has left. So
neither the calls of `enc_fill` nor those of `dec_feed` show in what comes out.
-/

namespace Ludlc

variable {b : Nat}

namespace Cobs

/-- An octet, with `ludlc_cobs_dec_prep` after a packet: the delimiter that completed it is found
again by the decoder prepared, and ends an empty frame. -/
def step (w : Wire) (csum : Option (Csum b)) (cap : Nat) (d : Dec b) (c : UInt8) :
    Dec b × List (List UInt8) :=
  if c ≠ delimiter then (decOctet csum d c, [])
  else if (decDelim w csum d).1 then
    (decReset csum (decPrep csum cap (decDelim w csum d).2), [(decDelim w csum d).2.payload])
  else ((decDelim w csum d).2, [])

theorem decDelim_empty (w : Wire) (csum : Option (Csum b)) {d : Dec b} (hover : d.overF = false)
    (hleft : d.left = 0) (hpay : d.payload = []) : decDelim w csum d = (false, decReset csum d) := by
  have h2 := two_le_pingSz w
  rw [decDelim, if_neg (by simp [hover]), if_neg (by simp [hleft]),
    if_neg (by simp [frameMinSz, hpay]; omega), if_neg (by simp [hpay])]

@[simp] theorem decDelim_cap (w : Wire) (csum : Option (Csum b)) (d : Dec b) :
    (decDelim w csum d).2.payloadCap = d.payloadCap := by
  rw [decDelim]
  repeat' split
  all_goals rfl

theorem decFeed_octet {w : Wire} {csum : Option (Csum b)} (cap : Nat) (d : Dec b) {c : UInt8}
    (hc : c ≠ delimiter) : (reader w csum cap).Takes d c (decOctet csum d c) where
  nil := rfl
  cons src := by
    change decFeed w csum d (c :: src) = _
    rw [decFeed, if_pos hc]
    rfl

theorem decFeed_delim (w : Wire) (csum : Option (Csum b)) (cap : Nat) {d : Dec b}
    (h : (decDelim w csum d).1 = false) :
    (reader w csum cap).Takes d delimiter (decDelim w csum d).2 where
  nil := rfl
  cons src := by
    change decFeed w csum d (delimiter :: src) = _
    rw [decFeed, if_neg (not_not.mpr rfl)]
    cases hd : decDelim w csum d with
    | mk done d' =>
      rw [hd] at h
      subst h
      rfl

theorem decFeed_done {w : Wire} {csum : Option (Csum b)} {d : Dec b} (src : List UInt8)
    (h : (decDelim w csum d).1 = true) :
    decFeed w csum d (delimiter :: src) = (0, true, (decDelim w csum d).2) := by
  rw [decFeed, if_neg (not_not.mpr rfl)]
  cases hd : decDelim w csum d with
  | mk done d' =>
    rw [hd] at h
    subst h
    rfl

/-- The decoder of a link goes octet by octet. -/
def stepwise (w : Wire) (csum : Option (Csum b)) (cap : Nat) : (reader w csum cap).Stepwise where
  Inv d := d.payloadCap = cap
  step := step w csum cap
  inv d c h := by
    rw [step]
    split
    · exact (decOctet_cap csum d c).trans h
    · split
      · rfl
      · exact (decDelim_cap w csum d).trans h
  octet d c _ := by
    rw [step]
    split
    · rename_i hc
      exact .takes (decFeed_octet cap d hc)
    · rename_i hc
      rw [not_not] at hc
      subst hc
      split
      · rename_i hdone
        have hempty := decDelim_empty w csum (d := decPrep csum cap (decDelim w csum d).2) rfl rfl rfl
        have htakes := decFeed_delim w csum cap
          (d := decPrep csum cap (decDelim w csum d).2) (by rw [hempty])
        rw [hempty] at htakes
        exact .leaves (fun src => decFeed_done src hdone) htakes
      · rename_i hnot
        exact .takes (decFeed_delim w csum cap (Bool.eq_false_iff.mpr hnot))

end Cobs

namespace Hdlc

@[simp] theorem storeByte_cap (csum : Option (Csum b)) (d : Dec b) (c : UInt8) :
    (storeByte csum d c).payloadCap = d.payloadCap := by
  rw [storeByte]
  split
  · rfl
  · rfl

@[simp] theorem decSof_cap (w : Wire) (csum : Option (Csum b)) (d : Dec b) :
    (decSof w csum d).2.payloadCap = d.payloadCap := by
  rw [decSof]
  repeat' split
  all_goals rfl

@[simp] theorem decOctet_cap (w : Wire) (csum : Option (Csum b)) (d : Dec b) (c : UInt8) :
    (decOctet w csum d c).2.payloadCap = d.payloadCap := by
  rw [decOctet]
  split
  · rfl
  · exact decSof_cap w csum _
  · exact storeByte_cap csum _ _
  · split
    · rfl
    · exact storeByte_cap csum d c

/-- An octet, with `ludlc_hdlc_dec_prep` after a packet. -/
def step (w : Wire) (csum : Option (Csum b)) (cap : Nat) (d : Dec b) (c : UInt8) :
    Dec b × List (List UInt8) :=
  if (decOctet w csum d c).1 then
    (decPrep csum cap (decOctet w csum d c).2, [(decOctet w csum d c).2.payload])
  else ((decOctet w csum d c).2, [])

/-- The decoder of a link goes octet by octet. -/
def stepwise (w : Wire) (csum : Option (Csum b)) (cap : Nat) : (reader w csum cap).Stepwise where
  Inv d := d.payloadCap = cap
  step := step w csum cap
  inv d c h := by
    rw [step]
    split
    · rfl
    · exact (decOctet_cap w csum d c).trans h
  octet d c _ := by
    have hfeed : ∀ src, decFeed w csum d (c :: src) =
        match decOctet w csum d c with
        | (true, d) => (1, true, d)
        | (false, d) => ((decFeed w csum d src).1 + 1, (decFeed w csum d src).2) := fun _ => rfl
    rw [step]
    cases hd : decOctet w csum d c with
    | mk done d' =>
      rw [hd] at hfeed
      cases done with
      | true => exact .completes hfeed
      | false => exact .takes ⟨rfl, hfeed⟩

end Hdlc

namespace Raw

/-- The decoder of a link told of frames of `cap` octets. -/
def reader (w : Wire) (csum : Option (Csum b)) (cap : Nat) :
    Stream.Reader (Dec b) (List UInt8) UInt8 where
  feed := decFeed w csum
  item d := d.payload
  prep := decPrep csum cap

/-- An octet of the frame goes into the buffer. -/
def store (csum : Option (Csum b)) (d : Dec b) (c : UInt8) : Dec b :=
  { d with csum := csumRx csum d.csum c, payload := d.payload ++ [c], sz := d.sz - 1 }

/-- An octet, with `ludlc_raw_dec_prep` after a packet. -/
def step (w : Wire) (csum : Option (Csum b)) (cap : Nat) (d : Dec b) (c : UInt8) :
    Dec b × List (List UInt8) :=
  match d.state with
  | .idle => (d, [])
  | .data =>
    if d.sz ≠ 1 then (store csum d c, [])
    else if (decEnd w csum (store csum d c)).1 then
      (decPrep csum cap (decEnd w csum (store csum d c)).2,
        [(decEnd w csum (store csum d c)).2.payload])
    else ((decEnd w csum (store csum d c)).2, [])

/-- In the middle of a frame, more of it is to come. -/
def Dec.Midway (d : Dec b) : Prop := d.state = .data → d.sz ≠ 0

theorem decPrep_midway (csum : Option (Csum b)) (cap : Nat) (d : Dec b) :
    (decPrep csum cap d).Midway := by
  intro h
  rw [decPrep] at h ⊢
  simp only at h ⊢
  split at h
  · cases h
  · assumption

theorem decEnd_state (w : Wire) (csum : Option (Csum b)) (d : Dec b) :
    (decEnd w csum d).2.state = .idle := by
  rw [decEnd]
  simp only
  split
  · rfl
  · split
    · rfl
    · rfl

theorem decFeed_idle (w : Wire) (csum : Option (Csum b)) {d : Dec b} (h : d.state = .idle)
    (src : List UInt8) : decFeed w csum d src = (src.length, false, d) := by
  rw [decFeed, h]

theorem decFeed_nil (w : Wire) (csum : Option (Csum b)) {d : Dec b} (h : d.Midway) :
    decFeed w csum d [] = (0, false, d) := by
  cases d with
  | mk state payload sz sum stats =>
    cases state with
    | idle => rfl
    | data =>
      have hsz : sz ≠ 0 := h rfl
      rw [decFeed]
      simp [hsz]

/-- The octets before the last of a frame are stored along with what follows them. -/
theorem decFeed_store {w : Wire} {csum : Option (Csum b)} {d : Dec b} {k : Nat}
    (h : d.state = .data) (hsz : d.sz = k + 2) (c : UInt8) (src : List UInt8) :
    decFeed w csum d (c :: src) =
      ((decFeed w csum (store csum d c) src).1 + 1, (decFeed w csum (store csum d c) src).2) := by
  have h' : (store csum d c).state = .data := h
  have hsz' : (store csum d c).sz = k + 1 := by
    change d.sz - 1 = k + 1
    omega
  have htake : min (c :: src).length d.sz = min src.length (k + 1) + 1 := by
    rw [hsz, List.length_cons]
    omega
  rw [decFeed, decFeed, h, h', hsz']
  simp only [htake, List.take_succ_cons, List.foldl_cons]
  have hleft : d.sz - (min src.length (k + 1) + 1) = k + 1 - min src.length (k + 1) := by omega
  have hpay : d.payload ++ c :: src.take (min src.length (k + 1)) =
      (store csum d c).payload ++ src.take (min src.length (k + 1)) := by
    change _ = (d.payload ++ [c]) ++ _
    rw [List.append_assoc, List.singleton_append]
  rw [hleft, hpay]
  split
  · rfl
  · rfl

theorem decFeed_last (w : Wire) (csum : Option (Csum b)) {d : Dec b} (h : d.state = .data)
    (hsz : d.sz = 1) (c : UInt8) (src : List UInt8) :
    decFeed w csum d (c :: src) = (1, decEnd w csum (store csum d c)) := by
  have htake : min (c :: src).length d.sz = 1 := by
    rw [hsz, List.length_cons]
    omega
  rw [decFeed, h]
  simp only [htake, List.take_succ_cons, List.take_zero, List.foldl_cons, List.foldl_nil]
  rw [if_neg (by omega)]
  rfl

theorem step_midway (w : Wire) (csum : Option (Csum b)) (cap : Nat) (d : Dec b) (c : UInt8)
    (h : d.Midway) : (step w csum cap d c).1.Midway := by
  rw [step]
  cases hs : d.state with
  | idle => exact h
  | data =>
    simp only
    split
    · rename_i hsz
      intro _
      have := h hs
      change d.sz - 1 ≠ 0
      omega
    · split
      · exact decPrep_midway csum cap _
      · intro hdata
        rw [decEnd_state] at hdata
        cases hdata

theorem step_octet (w : Wire) (csum : Option (Csum b)) (cap : Nat) (d : Dec b) (c : UInt8)
    (h : d.Midway) :
    (reader w csum cap).Octet d c (step w csum cap d c).1 (step w csum cap d c).2 := by
  rw [step]
  cases hs : d.state with
  | idle =>
    simp only
    apply Stream.Reader.Octet.takes
    constructor
    · exact decFeed_idle w csum hs []
    · intro src
      change decFeed w csum d (c :: src) =
        ((decFeed w csum d src).1 + 1, (decFeed w csum d src).2)
      rw [decFeed_idle w csum hs, decFeed_idle w csum hs]
      rfl
  | data =>
    simp only
    have hne := h hs
    split
    · rename_i hsz
      obtain ⟨k, hk⟩ : ∃ k, d.sz = k + 2 := ⟨d.sz - 2, by omega⟩
      apply Stream.Reader.Octet.takes
      constructor
      · apply decFeed_nil
        intro _
        change d.sz - 1 ≠ 0
        omega
      · exact decFeed_store hs hk c
    · rename_i hsz
      rw [not_not] at hsz
      have hfeed := decFeed_last w csum hs hsz c
      cases hd : decEnd w csum (store csum d c) with
      | mk done d' =>
        rw [hd] at hfeed
        cases done with
        | true => exact .completes hfeed
        | false => exact .ends hfeed

/-- The decoder of a link goes octet by octet. -/
def stepwise (w : Wire) (csum : Option (Csum b)) (cap : Nat) : (reader w csum cap).Stepwise where
  Inv d := d.Midway
  step := step w csum cap
  inv := step_midway w csum cap
  octet := step_octet w csum cap

end Raw

/-- For each framing, whatever the link's checksum and buffer: what the encoder puts out for a packet
does not depend on the sizes of the buffers filled, and it is idle after finitely many calls; and
what the decoder reports out of any octets does not depend on how they are cut. -/
theorem codecs_cutFree (w : Wire) (csum : Option (Csum b)) (cap : Nat) :
    (∀ e, (Hdlc.writer csum).CutFree (Hdlc.encInit e)) ∧
      (∀ d, (Hdlc.reader w csum cap).CutFree (Hdlc.decPrep csum cap d)) ∧
    (∀ e, (Cobs.writer csum).CutFree (Cobs.encInit e)) ∧
      (∀ d, (Cobs.reader w csum cap).CutFree (Cobs.decPrep csum cap d)) ∧
    (∀ e, (Raw.writer csum).CutFree (Raw.encInit e)) ∧
      ∀ d, (Raw.reader w csum cap).CutFree (Raw.decPrep csum cap d) := by
  refine ⟨?_, ?_, ?_, ?_, ?_, ?_⟩
  · intro e
    apply (Hdlc.writer_lawful csum).cutFree
    · trivial
    · rfl
    · intro p hp
      rw [not_not] at hp
      change (Hdlc.encBusy (Hdlc.encPrep (Hdlc.encInit e) p)) = false
      simp [Hdlc.encBusy, Hdlc.encPrep, Hdlc.encInit, hp]
  · intro d
    exact (Hdlc.stepwise w csum cap).cutFree rfl
  · intro e
    apply (Cobs.writer_lawful csum).cutFree
    · exact Cobs.encInit_ok csum e
    · rfl
    · intro p hp
      rw [not_not] at hp
      change (Cobs.encBusy (Cobs.encPrep (Cobs.encInit e) p)) = false
      simp [Cobs.encBusy, Cobs.encPrep, Cobs.encInit, hp]
  · intro d
    exact (Cobs.stepwise w csum cap).cutFree rfl
  · intro e
    apply (Raw.writer_lawful csum).cutFree
    · exact Raw.encInit_ok e
    · rfl
    · intro p hp
      rw [not_not] at hp
      change (Raw.encBusy (Raw.encPrep (Raw.encInit e) p)) = false
      simp [Raw.encBusy, Raw.encPrep, Raw.encInit, hp]
  · intro d
    exact (Raw.stepwise w csum cap).cutFree (Raw.decPrep_midway csum cap d)

end Ludlc
