import Ludlc.Framing.Resync

/-! # A frame dropped half read

`dec_init` alone is what drops a frame that cannot be completed. The start octet of the next frame
does the rest for the escaping. The stuffing has nothing between a frame and the next, and what its
decoder still holds of the frame dropped goes into the next one.
-/

namespace Ludlc

variable {b : Nat}

/-- Frames of packets a link carries, one after the other. -/
def Cobs.Frames {w : Wire} (cfg : Cfg w) (csum : Option (Csum b)) (l : List UInt8) : Prop :=
  ∃ ps : List TxPacket, (∀ p ∈ ps, p.Fits cfg csum) ∧ l = ps.flatMap (Cobs.wireOf csum)

/-- Frames of packets a link carries, one after the other, each with a start octet after it or
without. -/
def Hdlc.Frames {w : Wire} (cfg : Cfg w) (csum : Option (Csum b)) (l : List UInt8) : Prop :=
  ∃ ps : List (TxPacket × Bool), (∀ p ∈ ps, p.1.Fits cfg csum) ∧
    l = ps.flatMap (Hdlc.wireOf csum)

/-- The checksum, run on from another value than its own. -/
def Csum.seeded (a : Csum b) (r : BitVec b) : Csum b := { a with rxInit := r }

namespace Hdlc

/-- The start octet of the first frame leaves nothing of the one dropped. -/
theorem drops {w : Wire} (cfg : Cfg w) (csum : Option (Csum b)) (cap : Nat) (g : List UInt8)
    (d fresh : Dec b) :
    (reader w csum cap).Drops decInit (Frames cfg csum) g (decPrep csum cap d)
      (decPrep csum cap (decInit fresh)) := by
  rw [(stepwise w csum cap).drops_iff decInit (decPrep csum cap d)
    (decPrep csum cap (decInit fresh)) rfl rfl fun t ht => ht]
  · rintro l ⟨ps, _, rfl⟩
    cases ps with
    | nil => rfl
    | cons p ps =>
      have hinv := (stepwise w csum cap).run_inv (s := decPrep csum cap d) rfl g
      generalize ((stepwise w csum cap).run (decPrep csum cap d) g).1 = t at hinv ⊢
      have ht : (decInit t).payloadCap = cap := hinv
      rw [List.flatMap_cons, wireOf, List.cons_append, List.cons_append]
      have hstale := step_opens w csum cap (d := decInit t) rfl
      have hfresh := step_opens w csum cap (d := decPrep csum cap (decInit fresh)) rfl
      have hopen := (step_flag w csum ht).alike
        (step_flag w csum (d := decPrep csum cap (decInit fresh)) rfl)
      have hrest := ((stepwise w csum cap).run_alike (step_alike w csum cap)
        (code.escape (frameOf csum p.1.octets) ++ (if p.2 then [code.flag] else []) ++
          ps.flatMap (wireOf csum)) hopen).2
      change (step w csum cap (decInit t) code.flag).2 ++ _ =
        (step w csum cap (decPrep csum cap (decInit fresh)) code.flag).2 ++ _
      rw [hstale, hfresh]
      exact hrest

end Hdlc

namespace Cobs

open Stuffing

/-- The octets since the last delimiter. -/
def lastSeg (g : List UInt8) : List UInt8 := g.rtakeWhile (· ≠ delimiter)

/-- What was read of a frame leaves nothing that shows in the next: it is nothing at all, or whole
groups of which the last was full, within the buffer, after whose octets the running sum still finds
every frame of the link intact. -/
def CleanCut {w : Wire} (cfg : Cfg w) (csum : Option (Csum b)) (cap : Nat) (seg : List UInt8) :
    Prop :=
  seg = [] ∨
    (decode seg).left = 0 ∧ (decode seg).code = 0xff ∧ (decode seg).out.length ≤ cap ∧
      ∀ p : TxPacket, p.Fits cfg csum → csumRxOk csum ((frameOf csum p.octets).foldl (csumRx csum)
        ((decode seg).out.foldl (csumRx csum) (csumRxInit csum 0))) = true

theorem run_reads (w : Wire) (csum : Option (Csum b)) (cap : Nat) (d : Dec b) (g : List UInt8) :
    ((stepwise w csum cap).run (decPrep csum cap d) g).1.Reads csum (lastSeg g) := by
  induction g using List.reverseRec with
  | nil => exact decReset_reads csum _
  | append_singleton g c ih =>
    rw [(stepwise w csum cap).run_append]
    have hinv := (stepwise w csum cap).run_inv (s := decPrep csum cap d) rfl g
    generalize ((stepwise w csum cap).run (decPrep csum cap d) g).1 = t at ih hinv ⊢
    change (step w csum cap t c).1.Reads csum _
    by_cases hc : c = delimiter
    · subst hc
      obtain ⟨t', ht', _⟩ := step_delimiter w csum hinv
      rw [ht', lastSeg, List.rtakeWhile_concat_neg _ _ _ (by simp)]
      exact decReset_reads csum t'
    · rw [step, if_pos hc, lastSeg, List.rtakeWhile_concat_pos _ _ _ (by simpa using hc)]
      exact decOctet_reads ih c

theorem run_octets (w : Wire) (csum : Option (Csum b)) (cap : Nat) (l : List UInt8) :
    ∀ d : Dec b, delimiter ∉ l →
      (stepwise w csum cap).run d l = (l.foldl (decOctet csum) d, []) := by
  induction l with
  | nil =>
    intro d _
    rfl
  | cons c l ih =>
    intro d hl
    rw [List.mem_cons, not_or] at hl
    have hstep : (stepwise w csum cap).step d c = (decOctet csum d c, []) :=
      if_pos (Ne.symm hl.1)
    rw [Stream.Reader.Stepwise.run, hstep, ih _ hl.2]
    rfl

/-- What is read out of the octets up to a delimiter and the delimiter. -/
theorem run_frame_end (w : Wire) (csum : Option (Csum b)) (cap : Nat) (l : List UInt8) (d : Dec b)
    (hl : delimiter ∉ l) :
    (stepwise w csum cap).run d (l ++ [delimiter]) =
      ((step w csum cap (l.foldl (decOctet csum) d) delimiter).1,
        (step w csum cap (l.foldl (decOctet csum) d) delimiter).2) := by
  rw [(stepwise w csum cap).run_append, run_octets w csum cap l d hl]
  change (_, [] ++ (_ ++ [])) = _
  rw [List.nil_append, List.append_nil]
  rfl

/-! ### A frame read on from another sum -/

/-- The link's checksum, run on from `r`. -/
def seeded (csum : Option (Csum b)) (r : BitVec b) : Option (Csum b) := csum.map (·.seeded r)

theorem decOctet_seeded (csum : Option (Csum b)) (r : BitVec b) :
    decOctet (seeded csum r) = decOctet csum := by
  cases csum with
  | none => rfl
  | some a => rfl

theorem decDelim_seeded (w : Wire) (csum : Option (Csum b)) (r : BitVec b) (d : Dec b) :
    (decDelim w (seeded csum r) d).1 = (decDelim w csum d).1 ∧
      ((decDelim w csum d).1 = true →
        (decDelim w (seeded csum r) d).2 = (decDelim w csum d).2) := by
  cases csum with
  | none => exact ⟨rfl, fun _ => rfl⟩
  | some a =>
    have hmin : frameMinSz w (seeded (some a) r) = frameMinSz w (some a) := rfl
    have hok : csumRxOk (seeded (some a) r) d.csum = csumRxOk (some a) d.csum := rfl
    rw [decDelim, decDelim, hmin, hok]
    split
    · exact ⟨rfl, fun h => absurd h (by simp)⟩
    · split
      · exact ⟨rfl, fun h => absurd h (by simp)⟩
      · split
        · split
          · exact ⟨rfl, fun _ => rfl⟩
          · exact ⟨rfl, fun h => absurd h (by simp)⟩
        · split
          · exact ⟨rfl, fun h => absurd h (by simp)⟩
          · exact ⟨rfl, fun h => absurd h (by simp)⟩

theorem foldl_reads (csum : Option (Csum b)) (l : List UInt8) :
    ∀ {d : Dec b} {seg : List UInt8}, d.Reads csum seg →
      (l.foldl (decOctet csum) d).Reads csum (seg ++ l) ∧
        (l.foldl (decOctet csum) d).payloadCap = d.payloadCap := by
  induction l with
  | nil =>
    intro d seg h
    rw [List.append_nil]
    exact ⟨h, rfl⟩
  | cons c l ih =>
    intro d seg h
    obtain ⟨hreads, hcap⟩ := ih (decOctet_reads h c)
    rw [List.append_assoc, List.singleton_append] at hreads
    exact ⟨hreads, hcap.trans (decOctet_cap csum d c)⟩

/-- Between two groups, with no delimiter owed to the data: the next octet opens a frame of its own,
but for the sum. -/
structure Dec.Clear (d : Dec b) : Prop where
  overF : d.overF = false
  left : d.left = 0
  payload : d.payload = []
  gap : ¬ (d.started ∧ d.code ≠ 0xff)

theorem Dec.Clear.reads {csum : Option (Csum b)} {d : Dec b} (h : d.Clear) (c : UInt8) :
    (decOctet csum d c).Reads (seeded csum d.csum) [c] := by
  have hoct : decOctet csum d c = { d with code := c, left := c.toNat - 1, started := true } := by
    rw [decOctet, if_neg (by simp [h.overF]), if_neg (by simp [h.left]), if_neg h.gap]
  have hdec : decode [c] = ⟨[], c, c.toNat - 1, true⟩ := rfl
  rw [hoct]
  constructor
  · rw [hdec]
    exact h.overF
  · intro _
    rw [hdec]
    exact h.payload
  · intro _
    rw [hdec]
    refine ⟨d.csum, ?_⟩
    cases csum with
    | none => rfl
    | some a => rfl
  · intro _
    rfl
  · intro _
    rfl
  · intro _
    rfl

/-- Whether a frame is reported is up to the sum it is read on from. -/
theorem unframe_seeded {w : Wire} {cfg : Cfg w} {csum : Option (Csum b)} {cap : Nat} {p : TxPacket}
    (hcap : connFrameSz cfg csum ≤ cap) (hp : p.Fits cfg csum) (r : BitVec b) :
    unframe w (seeded csum r) cap (encode delimiter (frameOf csum p.octets)) =
      if csumRxOk csum ((frameOf csum p.octets).foldl (csumRx csum) r) then some p.octets
      else none := by
  obtain ⟨hout, hleft⟩ := decode_encode_delimiter (frameOf csum p.octets)
  have hframe := hp.frame
  have hping := hp.ping
  have hmin : frameMinSz w (seeded csum r) = frameMinSz w csum := by
    cases csum with
    | none => rfl
    | some a => rfl
  have hsz : csumOctets (seeded csum r) = csumOctets csum := by
    cases csum with
    | none => rfl
    | some a => rfl
  have hok : csumRxOk (seeded csum r) ((frameOf csum p.octets).foldl (csumRx (seeded csum r))
      (csumRxInit (seeded csum r) 0)) =
        csumRxOk csum ((frameOf csum p.octets).foldl (csumRx csum) r) := by
    cases csum with
    | none => rfl
    | some a => rfl
  rw [unframe]
  simp only [hout, hleft, length_frameOf, hmin, hsz, hok, true_and]
  split
  · rename_i h
    rw [if_pos h.2.2, Nat.add_sub_cancel, frameOf_eq csum p.octets 0, List.take_left]
  · rename_i h
    rw [if_neg]
    intro hsum
    refine h ⟨by omega, ?_, hsum⟩
    rw [frameMinSz]
    omega

/-- The frame of a packet that fits, read from between two groups. -/
theorem run_wireOf {w : Wire} {cfg : Cfg w} {csum : Option (Csum b)} {cap : Nat} {p : TxPacket}
    (hcap : connFrameSz cfg csum ≤ cap) (hp : p.Fits cfg csum) {d : Dec b} (hd : d.Clear)
    (hdcap : d.payloadCap = cap) :
    ((stepwise w csum cap).run d (wireOf csum p)).2 =
      if csumRxOk csum ((frameOf csum p.octets).foldl (csumRx csum) d.csum) then [p.octets]
      else [] := by
  have hclean := delimiter_notMem_encode (frameOf csum p.octets)
  rw [wireOf, run_frame_end w csum cap _ d hclean]
  obtain ⟨c, l, hcl⟩ : ∃ c l, encode delimiter (frameOf csum p.octets) = c :: l := by
    rw [encode]
    exact ⟨_, _, rfl⟩
  have hreads := (foldl_reads (seeded csum d.csum) l (hd.reads c)).1
  have hend := (foldl_reads (seeded csum d.csum) l (hd.reads c)).2
  rw [decOctet_seeded, List.singleton_append, ← hcl] at hreads
  rw [decOctet_seeded, decOctet_cap, hdcap] at hend
  rw [hcl, List.foldl_cons]
  generalize l.foldl (decOctet csum) (decOctet csum d c) = t at hreads hend ⊢
  obtain ⟨hdone, heq⟩ := decDelim_seeded w csum d.csum t
  have hspec := (decDelim_spec (w := w) hreads).2
  rw [hend, unframe_seeded hcap hp] at hspec
  rw [step, if_neg (not_not.mpr rfl)]
  split at hspec
  · rename_i q hq
    obtain ⟨htrue, hpay⟩ := hspec
    rw [hdone] at htrue
    rw [heq htrue] at hpay
    rw [if_pos htrue, hpay]
    split at hq
    · rename_i hsum
      cases hq
      rw [if_pos hsum]
    · cases hq
  · rename_i hq
    rw [hdone] at hspec
    rw [if_neg (by simp [hspec.1])]
    split at hq
    · cases hq
    · rename_i hsum
      rw [if_neg hsum]

theorem decPrep_clear (csum : Option (Csum b)) (cap : Nat) (d : Dec b) :
    (decPrep csum cap d).Clear where
  overF := rfl
  left := rfl
  payload := rfl
  gap h := Bool.noConfusion h.1

theorem run_fresh {w : Wire} {cfg : Cfg w} {csum : Option (Csum b)} {cap : Nat} {p : TxPacket}
    (hres : ∀ a ∈ csum, a.Residual) (hcap : connFrameSz cfg csum ≤ cap) (hp : p.Fits cfg csum)
    (d : Dec b) :
    ((stepwise w csum cap).run (decPrep csum cap d) (wireOf csum p)).2 = [p.octets] := by
  rw [run_wireOf hcap hp (decPrep_clear csum cap d) rfl, if_pos]
  exact foldl_csumRx_ok hres p.octets d.csum

/-! ### A frame read on from the middle of another -/

/-- Nothing the decoder reports of this frame begins with anything but `x`. -/
def Dec.Begins (d : Dec b) (x : UInt8) : Prop := d.overF = true ∨ ∃ t, d.payload = x :: t

theorem storeByte_begins {csum : Option (Csum b)} {d : Dec b} {x : UInt8} (h : d.Begins x)
    (c : UInt8) : (storeByte csum d c).Begins x := by
  rw [storeByte]
  split
  · rcases h with hover | ⟨t, ht⟩
    · exact .inl hover
    · exact .inr ⟨t ++ [c], by simp [ht]⟩
  · exact .inl rfl

theorem foldl_begins (csum : Option (Csum b)) {x : UInt8} (l : List UInt8) :
    ∀ {d : Dec b}, d.Begins x → (l.foldl (decOctet csum) d).Begins x := by
  induction l with
  | nil =>
    intro d h
    exact h
  | cons c l ih =>
    intro d h
    apply ih
    rw [decOctet]
    split
    · exact h
    · split
      · exact storeByte_begins h c
      · simp only
        split
        · exact storeByte_begins h delimiter
        · exact h

theorem decDelim_over {w : Wire} {csum : Option (Csum b)} {d : Dec b}
    (h : (decDelim w csum d).1 = true) : ¬ d.overF = true := by
  intro hover
  rw [decDelim, if_pos hover] at h
  cases h

theorem report_begins (w : Wire) (csum : Option (Csum b)) (cap : Nat) {d : Dec b} {x : UInt8}
    (h : d.Begins x) : ∀ p ∈ (step w csum cap d delimiter).2, p.head? = some x := by
  have h2 := two_le_pingSz w
  intro p hp
  rw [step, if_neg (not_not.mpr rfl)] at hp
  split at hp
  · rename_i hdone
    obtain ⟨hmin, hpay⟩ := decDelim_completes hdone
    obtain ⟨t, ht⟩ := h.resolve_left (decDelim_over hdone)
    rw [frameMinSz] at hmin
    obtain ⟨k, hk⟩ : ∃ k, d.payload.length - csumOctets csum = k + 1 :=
      ⟨d.payload.length - csumOctets csum - 1, by omega⟩
    rw [List.mem_singleton, hpay, hk, ht, List.take_succ_cons] at hp
    rw [hp]
    rfl
  · cases hp

/-- The shortest packet of a link, of octets `x`. -/
def filled (w : Wire) (x : UInt8) : TxPacket := ⟨List.replicate w.pingSz x, []⟩

theorem filled_fits {w : Wire} (cfg : Cfg w) (csum : Option (Csum b)) (x : UInt8) :
    (filled w x).Fits cfg csum := by
  have h2 := two_le_pingSz w
  have hsz := w.sz_ok.2
  have hlen : (filled w x).octets.length = w.pingSz := by
    simp [filled, TxPacket.octets]
  constructor
  · rw [filled, List.length_replicate]
    exact h2
  · rw [hlen]
  · rw [hlen, connFrameSz]
    omega

theorem filled_head (w : Wire) (x : UInt8) : (filled w x).octets.head? = some x := by
  have h2 := two_le_pingSz w
  obtain ⟨k, hk⟩ : ∃ k, w.pingSz = k + 1 := ⟨w.pingSz - 1, by omega⟩
  rw [filled, TxPacket.octets, hk]
  rfl

theorem encode_filled_zero (w : Wire) (csum : Option (Csum b)) :
    ∃ l, encode delimiter (frameOf csum (filled w 0).octets) = 1 :: l := by
  have h2 := two_le_pingSz w
  obtain ⟨k, hk⟩ : ∃ k, w.pingSz = k + 1 := ⟨w.pingSz - 1, by omega⟩
  obtain ⟨t, ht⟩ : ∃ t, frameOf csum (filled w 0).octets = 0 :: t := by
    rw [filled, TxPacket.octets, hk, frameOf_eq csum _ 0]
    exact ⟨_, rfl⟩
  have hrun : run delimiter (0 :: t) = [] := rfl
  refine ⟨encode delimiter t, ?_⟩
  rw [ht, encode_of_delim (t := t) (c := 0)]
  · rfl
  · rfl
  · rw [hrun]
    decide

theorem decode_started (l : List UInt8) (h : l ≠ []) : (decode l).started = true := by
  induction l using List.reverseRec with
  | nil => exact absurd rfl h
  | append_singleton l c ih =>
    rw [decode_append_singleton, Unstuffed.octet]
    split
    · rename_i hleft
      apply ih
      rintro rfl
      exact hleft rfl
    · rfl

/-- What is read out of the frame of a packet that begins with another octet than what the decoder
has begun. -/
theorem run_begun {w : Wire} {csum : Option (Csum b)} {cap : Nat} {d : Dec b} {p : TxPacket}
    {c x : UInt8} {l : List UInt8} (henc : encode delimiter (frameOf csum p.octets) = c :: l)
    (hbegun : (decOctet csum d c).Begins x) (hp : p.octets.head? ≠ some x) :
    ((stepwise w csum cap).run d (wireOf csum p)).2 ≠ [p.octets] := by
  intro hrun
  have hclean := delimiter_notMem_encode (frameOf csum p.octets)
  rw [wireOf, run_frame_end w csum cap _ d hclean, henc, List.foldl_cons] at hrun
  apply hp
  apply report_begins w csum cap (foldl_begins csum l hbegun)
  rw [hrun]
  exact List.mem_singleton_self _

/-- A decoder whose buffer has run over reports nothing of the frame. -/
theorem run_over {w : Wire} {csum : Option (Csum b)} {cap : Nat} {d : Dec b} (p : TxPacket)
    (h : d.overF = true) : ((stepwise w csum cap).run d (wireOf csum p)).2 = [] := by
  have hclean := delimiter_notMem_encode (frameOf csum p.octets)
  have hstay : ∀ l : List UInt8, l.foldl (decOctet csum) d = d := by
    intro l
    induction l with
    | nil => rfl
    | cons c l ih =>
      have hc : decOctet csum d c = d := if_pos h
      rw [List.foldl_cons, hc, ih]
  rw [wireOf, run_frame_end w csum cap _ d hclean, hstay, step, if_neg (not_not.mpr rfl), decDelim,
    if_pos h]
  rfl

/-- What a decoder of a cut that is not clean makes of some frame. -/
theorem exists_lost {w : Wire} {cfg : Cfg w} {csum : Option (Csum b)} {cap : Nat}
    (hcap : connFrameSz cfg csum ≤ cap) {t : Dec b} (htcap : t.payloadCap = cap)
    {seg : List UInt8} (h : t.Reads csum seg) (hnot : ¬ CleanCut cfg csum cap seg) :
    ∃ p : TxPacket, p.Fits cfg csum ∧
      ((stepwise w csum cap).run (decInit t) (wireOf csum p)).2 ≠ [p.octets] := by
  rw [CleanCut, not_or] at hnot
  obtain ⟨hne, hnot⟩ := hnot
  have hpos : 0 < cap := by
    have := w.sz_ok.2
    rw [connFrameSz] at hcap
    omega
  cases hover : t.overF with
  | true =>
    refine ⟨filled w 0, filled_fits cfg csum 0, ?_⟩
    rw [run_over (d := decInit t) (filled w 0) hover]
    exact List.cons_ne_nil _ _ |>.symm
  | false =>
    have hleft := h.left hover
    have hcode := h.code hover
    have hstarted := (h.started hover).trans (decode_started seg hne)
    have hfits : (decode seg).out.length ≤ cap := by
      have := h.overF
      rw [hover, htcap] at this
      exact Nat.le_of_not_lt (of_decide_eq_false this.symm)
    by_cases hl : (decode seg).left = 0
    · by_cases hc : (decode seg).code = 0xff
      · -- the sum alone is left of the frame dropped
        have hsum : ∃ p : TxPacket, p.Fits cfg csum ∧ ¬ csumRxOk csum
            ((frameOf csum p.octets).foldl (csumRx csum)
              ((decode seg).out.foldl (csumRx csum) (csumRxInit csum 0))) = true := by
          by_contra hall
          push Not at hall
          exact hnot ⟨hl, hc, hfits, hall⟩
        obtain ⟨p, hp, hbad⟩ := hsum
        have hclear : (decInit t).Clear := by
          refine ⟨hover, hleft.trans hl, rfl, ?_⟩
          rintro ⟨_, hgap⟩
          exact hgap (hcode.trans hc)
        obtain ⟨r, hr⟩ := h.csum hover
        have hok : csumRxOk csum ((frameOf csum p.octets).foldl (csumRx csum) t.csum) =
            csumRxOk csum ((frameOf csum p.octets).foldl (csumRx csum)
              ((decode seg).out.foldl (csumRx csum) (csumRxInit csum 0))) := by
          rw [hr]
          exact (((sumAlike_rxInit csum r 0).foldl _).foldl _).rxOk
        refine ⟨p, hp, ?_⟩
        rw [run_wireOf hcap hp hclear htcap]
        change (if csumRxOk csum ((frameOf csum p.octets).foldl (csumRx csum) t.csum) = true
          then _ else _) ≠ _
        rw [hok, if_neg hbad]
        exact (List.cons_ne_nil _ _).symm
      · -- the group read before makes a delimiter part of the data
        obtain ⟨c, l, hcl⟩ : ∃ c l, encode delimiter (frameOf csum (filled w 1).octets) = c :: l := by
          rw [encode]
          exact ⟨_, _, rfl⟩
        refine ⟨filled w 1, filled_fits cfg csum 1, run_begun (x := 0) hcl ?_ ?_⟩
        · right
          refine ⟨[], ?_⟩
          have hgap : (decInit t).started = true ∧ (decInit t).code ≠ 0xff :=
            ⟨hstarted, fun h => hc (hcode.symm.trans h)⟩
          have hroom : (decInit t).payload.length < (decInit t).payloadCap := by
            change 0 < t.payloadCap
            omega
          rw [decOctet, if_neg (by simp [decInit, hover]), if_neg (by simp [decInit, hleft, hl])]
          simp only [hgap, and_self, if_true, ne_eq, not_false_eq_true]
          rw [storeByte, if_pos hroom]
          rfl
        · rw [filled_head]
          decide
    · -- what opens the next frame is taken for data
      obtain ⟨l, hl1⟩ := encode_filled_zero w csum
      refine ⟨filled w 0, filled_fits cfg csum 0, run_begun (x := 1) hl1 ?_ ?_⟩
      · right
        refine ⟨[], ?_⟩
        have hroom : (decInit t).payload.length < (decInit t).payloadCap := by
          change 0 < t.payloadCap
          omega
        rw [decOctet, if_neg (by simp [decInit, hover]),
          if_pos (by change t.left ≠ 0; rwa [hleft]), storeByte, if_pos hroom]
        rfl
      · rw [filled_head]
        decide

/-- What a decoder of a clean cut makes of the first frame, and what it leaves of itself. -/
theorem run_clean {w : Wire} {cfg : Cfg w} {csum : Option (Csum b)} {cap : Nat}
    (hres : ∀ a ∈ csum, a.Residual) (hcap : connFrameSz cfg csum ≤ cap) {t : Dec b}
    (htcap : t.payloadCap = cap) {seg : List UInt8} (h : t.Reads csum seg)
    (hclean : CleanCut cfg csum cap seg) {p : TxPacket} (hp : p.Fits cfg csum) :
    ((stepwise w csum cap).run (decInit t) (wireOf csum p)).2 = [p.octets] := by
  have hover : t.overF = false := by
    rw [h.overF, htcap]
    rcases hclean with rfl | ⟨_, _, hfits, _⟩
    · rfl
    · exact decide_eq_false (by omega)
  obtain ⟨r, hr⟩ := h.csum hover
  have hclear : (decInit t).Clear := by
    refine ⟨hover, ?_, rfl, ?_⟩
    · rcases hclean with rfl | ⟨hl, _⟩
      · exact h.left hover
      · exact (h.left hover).trans hl
    · rintro ⟨hstarted, hgap⟩
      rcases hclean with rfl | ⟨_, hc, _⟩
      · exact Bool.noConfusion (hstarted.symm.trans (h.started hover))
      · exact hgap ((h.code hover).trans hc)
  rw [run_wireOf hcap hp hclear htcap, if_pos]
  change csumRxOk csum ((frameOf csum p.octets).foldl (csumRx csum) t.csum) = true
  rw [hr]
  rcases hclean with rfl | ⟨_, _, _, hok⟩
  · exact foldl_csumRx_ok hres p.octets r
  · rw [(((sumAlike_rxInit csum r 0).foldl _).foldl _).rxOk]
    exact hok p hp

/-- `ludlc_cobs_dec_init` alone drops a frame half read where it was cut clean, and nowhere else. -/
theorem drops_iff {w : Wire} (cfg : Cfg w) {csum : Option (Csum b)} {cap : Nat}
    (hres : ∀ a ∈ csum, a.Residual) (hcap : connFrameSz cfg csum ≤ cap) (g : List UInt8)
    (d fresh : Dec b) :
    (reader w csum cap).Drops decInit (Frames cfg csum) g (decPrep csum cap d)
      (decPrep csum cap (decInit fresh)) ↔ CleanCut cfg csum cap (lastSeg g) := by
  have hreads := run_reads w csum cap d g
  have htcap : ((stepwise w csum cap).run (decPrep csum cap d) g).1.payloadCap = cap :=
    (stepwise w csum cap).run_inv (s := decPrep csum cap d) rfl g
  rw [(stepwise w csum cap).drops_iff decInit (decPrep csum cap d)
    (decPrep csum cap (decInit fresh)) rfl rfl fun t ht => ht]
  generalize ((stepwise w csum cap).run (decPrep csum cap d) g).1 = t at hreads htcap ⊢
  generalize lastSeg g = seg at hreads ⊢
  constructor
  · intro h
    by_contra hnot
    obtain ⟨p, hp, hlost⟩ := exists_lost hcap htcap hreads hnot
    apply hlost
    rw [h (wireOf csum p) ⟨[p], by simpa using hp, by rw [List.flatMap_singleton]⟩]
    exact run_fresh hres hcap hp _
  · rintro hclean l ⟨ps, hps, rfl⟩
    cases ps with
    | nil => rfl
    | cons p ps =>
      have hp := hps p (List.mem_cons_self ..)
      have hstale := run_clean hres hcap htcap hreads hclean hp
      have hfresh := run_fresh hres hcap hp (decInit fresh)
      have hopen := delimiter_notMem_encode (frameOf csum p.octets)
      rw [List.flatMap_cons, (stepwise w csum cap).run_append, (stepwise w csum cap).run_append,
        hstale, hfresh]
      apply congrArg ([p.octets] ++ ·)
      apply ((stepwise w csum cap).run_alike (step_alike w csum cap) _ _).2
      -- past the first delimiter the two are alike
      rw [wireOf, run_frame_end w csum cap _ _ hopen, run_frame_end w csum cap _ _ hopen]
      have hcap₁ := (stepwise w csum cap).run_inv (s := decInit t) htcap
        (encode delimiter (frameOf csum p.octets))
      have hcap₂ := (stepwise w csum cap).run_inv (s := decPrep csum cap (decInit fresh)) rfl
        (encode delimiter (frameOf csum p.octets))
      rw [run_octets w csum cap _ _ hopen] at hcap₁ hcap₂
      obtain ⟨t₁, ht₁, hcap₁⟩ := step_delimiter w csum hcap₁
      obtain ⟨t₂, ht₂, hcap₂⟩ := step_delimiter w csum hcap₂
      rw [ht₁, ht₂]
      exact decReset_alike (hcap₁.trans hcap₂.symm)

end Cobs

/-- `ludlc_dec_init` alone: the escaping always drops the frame half read, the stuffing exactly where
it was cut clean. -/
theorem dec_init_drops {w : Wire} (cfg : Cfg w) (csum : Option (Csum b)) (cap : Nat)
    (hres : ∀ a ∈ csum, a.Residual) (hcap : connFrameSz cfg csum ≤ cap) (g : List UInt8) :
    (∀ d fresh, (Hdlc.reader w csum cap).Drops Hdlc.decInit (Hdlc.Frames cfg csum) g
      (Hdlc.decPrep csum cap d) (Hdlc.decPrep csum cap (Hdlc.decInit fresh))) ∧
    ∀ d fresh, (Cobs.reader w csum cap).Drops Cobs.decInit (Cobs.Frames cfg csum) g
      (Cobs.decPrep csum cap d) (Cobs.decPrep csum cap (Cobs.decInit fresh)) ↔
        Cobs.CleanCut cfg csum cap (Cobs.lastSeg g) := by
  constructor
  · intro d fresh
    exact Hdlc.drops cfg csum cap g d fresh
  · intro d fresh
    exact Cobs.drops_iff cfg hres hcap g d fresh

/-- A frame cut after its first group. -/
theorem dec_init_drops_group :
    (∀ d fresh, (Hdlc.reader (.ofWindow 1 (by decide)) (some lrc) 68).Drops Hdlc.decInit
      (Hdlc.Frames (Cfg.ofBuild (.ofWindow 1 (by decide)) true 1 (by decide)) (some lrc)) [2, 7]
      (Hdlc.decPrep (some lrc) 68 d) (Hdlc.decPrep (some lrc) 68 (Hdlc.decInit fresh))) ∧
    ∀ d fresh, (Cobs.reader (.ofWindow 1 (by decide)) (some lrc) 68).Drops Cobs.decInit
      (Cobs.Frames (Cfg.ofBuild (.ofWindow 1 (by decide)) true 1 (by decide)) (some lrc)) [2, 7]
      (Cobs.decPrep (some lrc) 68 d) (Cobs.decPrep (some lrc) 68 (Cobs.decInit fresh)) ↔
        Cobs.CleanCut (Cfg.ofBuild (.ofWindow 1 (by decide)) true 1 (by decide)) (some lrc) 68
          (Cobs.lastSeg [2, 7]) :=
  dec_init_drops (Cfg.ofBuild (.ofWindow 1 (by decide)) true 1 (by decide)) (some lrc) 68
    (by rintro _ ⟨⟩; exact lrc_residual) (by decide) [2, 7]

/-- A link with no checksum delivers a PING that the first group of the frame dropped made longer. -/
theorem dec_init_keeps :
    ¬ (Cobs.reader (.ofWindow 1 (by decide)) (none : Option (Csum 8)) 67).Drops Cobs.decInit
      (Cobs.Frames (Cfg.ofBuild (.ofWindow 1 (by decide)) true 1 (by decide))
        (none : Option (Csum 8))) [2, 7]
      (Cobs.decPrep none 67 Cobs.unusedDec)
      (Cobs.decPrep none 67 (Cobs.decInit Cobs.unusedDec)) := by
  rw [(Cobs.stepwise (.ofWindow 1 (by decide)) (none : Option (Csum 8)) 67).drops_iff
    Cobs.decInit (Cobs.decPrep none 67 Cobs.unusedDec)
    (Cobs.decPrep none 67 (Cobs.decInit Cobs.unusedDec)) rfl rfl fun t ht => ht]
  intro h
  have hwire : Cobs.wireOf (none : Option (Csum 8)) ⟨[1, 0x80], []⟩ = [3, 1, 0x80, 0] := by
    rw [Cobs.wireOf, Stuffing.encode_of_end]
    · rfl
    · rfl
  have hframe := h (Cobs.wireOf (none : Option (Csum 8)) ⟨[1, 0x80], []⟩)
    ⟨[⟨[1, 0x80], []⟩], by
      intro p hp
      rw [List.mem_singleton] at hp
      subst hp
      exact ⟨by decide, by decide, by decide⟩, by rw [List.flatMap_singleton]⟩
  rw [hwire] at hframe
  revert hframe
  decide

end Ludlc
