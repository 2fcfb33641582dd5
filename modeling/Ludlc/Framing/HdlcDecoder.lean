import Ludlc.Framing.HdlcEncoder

/-! # The escaping: the decoder

The decoder of `ludlc_hdlc.c`. The start octet of a frame ends the one before it, so a packet is
complete on the first octet of what follows it.
-/

namespace Ludlc.Hdlc

open Escaping

variable {b : Nat}

inductive DecState
  | idle
  | waitSof
  | esc
  | payload
  deriving DecidableEq

/-- `struct ludlc_hdec_state`. The octets stored are as many as `size` says. -/
structure Dec (b : Nat) where
  payload : List UInt8
  payloadCap : Nat
  csum : BitVec b
  state : DecState
  stats : RxStats

/-- `ludlc_hdlc_dec_init`. -/
def decInit (d : Dec b) : Dec b := { d with state := .idle, payload := [] }

/-- `ludlc_hdlc_dec_prep`. -/
def decPrep (csum : Option (Csum b)) (cap : Nat) (d : Dec b) : Dec b :=
  { d with payload := [], payloadCap := cap, csum := csumRxInit csum d.csum }

/-- Stores an octet of the frame, or gives a frame up that is too long. -/
def storeByte (csum : Option (Csum b)) (d : Dec b) (c : UInt8) : Dec b :=
  if d.payload.length < d.payloadCap then
    { d with payload := d.payload ++ [c], csum := csumRx csum d.csum c }
  else
    { d with
      payload := [], state := .idle, stats := { d.stats with jabber := d.stats.jabber + 1 } }

/-- The frame a start octet opens. -/
def restart (csum : Option (Csum b)) (d : Dec b) : Dec b :=
  { d with payload := [], csum := csumRxInit csum d.csum }

/-- The start octet ends the frame before it: whether a packet is complete. -/
def decSof (w : Wire) (csum : Option (Csum b)) (d : Dec b) : Bool × Dec b :=
  if frameMinSz w csum ≤ d.payload.length then
    if csumRxOk csum d.csum then
      (true, { d with
        payload := d.payload.take (d.payload.length - csumOctets csum)
        stats := { d.stats with rxPacket := d.stats.rxPacket + 1 } })
    else
      (false, restart csum { d with stats := { d.stats with badCsum := d.stats.badCsum + 1 } })
  else if d.payload ≠ [] then
    (false, restart csum { d with stats := { d.stats with dropped := d.stats.dropped + 1 } })
  else
    (false, restart csum d)

/-- One octet of `ludlc_hdlc_dec_feed`. -/
def decOctet (w : Wire) (csum : Option (Csum b)) (d : Dec b) (c : UInt8) : Bool × Dec b :=
  match if c = code.flag then .waitSof else d.state with
  | .idle => (false, d)
  | .waitSof => decSof w csum { d with state := .payload }
  | .esc => (false, storeByte csum { d with state := .payload } (c ^^^ code.mask))
  | .payload =>
    if c = code.esc then (false, { d with state := .esc }) else (false, storeByte csum d c)

/-- `ludlc_hdlc_dec_feed`: the octets taken, whether a packet is complete, and the decoder. -/
def decFeed (w : Wire) (csum : Option (Csum b)) : Dec b → List UInt8 → Nat × Bool × Dec b
  | d, [] => (0, false, d)
  | d, c :: src =>
    match decOctet w csum d c with
    | (true, d) => (1, true, d)
    | (false, d) =>
      let r := decFeed w csum d src
      (r.1 + 1, r.2)

/-! ### What it has read -/

/-- The decoder after the octets `seg` of a frame, while they fit its buffer. -/
structure Dec.Reads (csum : Option (Csum b)) (d : Dec b) (seg : List UInt8) : Prop where
  state : d.state = if (code.unescape seg).escaped then .esc else .payload
  payload : d.payload = (code.unescape seg).out
  csum : ∃ r, d.csum = (code.unescape seg).out.foldl (csumRx csum) (csumRxInit csum r)

theorem storeByte_of_lt {csum : Option (Csum b)} {d : Dec b} {c : UInt8}
    (h : d.payload.length < d.payloadCap) :
    storeByte csum d c = { d with payload := d.payload ++ [c], csum := csumRx csum d.csum c } :=
  if_pos h

theorem decOctet_reads {w : Wire} {csum : Option (Csum b)} {d : Dec b} {seg : List UInt8}
    (h : d.Reads csum seg) {c : UInt8} (hc : c ≠ code.flag)
    (hfit : (code.unescape (seg ++ [c])).out.length ≤ d.payloadCap) :
    ∃ d', decOctet w csum d c = (false, d') ∧ d'.payloadCap = d.payloadCap ∧
      d'.Reads csum (seg ++ [c]) := by
  have hu := unescape_append_singleton code seg c
  obtain ⟨r, hr⟩ := h.csum
  have hst := h.state
  rw [hu] at hfit
  cases he : (code.unescape seg).escaped with
  | true =>
    rw [he, if_pos rfl] at hst
    rw [Unescaped.octet, if_pos he] at hu hfit
    have hlt : d.payload.length < d.payloadCap := by
      rw [h.payload]
      simpa using hfit
    refine ⟨{ d with
      payload := d.payload ++ [c ^^^ code.mask], csum := csumRx csum d.csum (c ^^^ code.mask)
      state := .payload }, ?_, rfl, ?_, ?_, r, ?_⟩
    · rw [decOctet, if_neg hc, hst]
      exact congrArg _ (storeByte_of_lt (d := { d with state := .payload }) hlt)
    · rw [hu]
      rfl
    · rw [hu]
      exact congrArg (· ++ _) h.payload
    · rw [hu]
      simp only [List.foldl_append, List.foldl_cons, List.foldl_nil]
      rw [hr]
  | false =>
    rw [he, if_neg (by decide)] at hst
    by_cases hesc : c = code.esc
    · rw [Unescaped.octet, if_neg (by simp [he]), if_pos hesc] at hu
      refine ⟨{ d with state := .esc }, ?_, rfl, ?_, ?_, r, ?_⟩
      · rw [decOctet, if_neg hc, hst]
        exact if_pos hesc
      · rw [hu]
        rfl
      · rw [hu]
        exact h.payload
      · rw [hu]
        exact hr
    · rw [Unescaped.octet, if_neg (by simp [he]), if_neg hesc] at hu hfit
      have hlt : d.payload.length < d.payloadCap := by
        rw [h.payload]
        simpa using hfit
      refine ⟨{ d with payload := d.payload ++ [c], csum := csumRx csum d.csum c },
        ?_, rfl, ?_, ?_, r, ?_⟩
      · rw [decOctet, if_neg hc, hst]
        simp only [hesc, if_false]
        rw [storeByte_of_lt hlt, hst]
      · rw [hu]
        exact hst
      · rw [hu]
        exact congrArg (· ++ _) h.payload
      · rw [hu]
        simp only [List.foldl_append, List.foldl_cons, List.foldl_nil]
        rw [hr]

theorem decOctet_opens {w : Wire} (csum : Option (Csum b)) {d : Dec b} (h : d.payload = []) :
    ∃ d', decOctet w csum d code.flag = (false, d') ∧ d'.payloadCap = d.payloadCap ∧
      d'.Reads csum [] := by
  have h2 := two_le_pingSz w
  refine ⟨restart csum { d with state := .payload }, ?_, rfl, rfl, rfl, d.csum, rfl⟩
  rw [decOctet, if_pos rfl]
  simp only
  rw [decSof, if_neg (by simp [frameMinSz, h]; omega), if_neg (by simp [h])]

/-- A start octet where a whole frame is stored completes the packet. -/
theorem decOctet_completes {w : Wire} {cfg : Cfg w} {csum : Option (Csum b)} {d : Dec b}
    {p : TxPacket} (hres : ∀ a ∈ csum, a.Residual) (hp : p.Fits cfg csum)
    (h : d.Reads csum (code.escape (frameOf csum p.octets))) :
    ∃ d', decOctet w csum d code.flag = (true, d') ∧ d'.payload = p.octets ∧
      d'.state = .payload := by
  have hu := unescape_escape code (frameOf csum p.octets)
  have hpay := h.payload
  obtain ⟨r, hr⟩ := h.csum
  rw [hu] at hpay hr
  have hping := hp.ping
  rw [decOctet, if_pos rfl]
  simp only
  rw [decSof, if_pos (by simp [frameMinSz, hpay]; omega), if_pos]
  · refine ⟨_, rfl, ?_, rfl⟩
    simp only [hpay, length_frameOf, Nat.add_sub_cancel]
    rw [frameOf_eq csum p.octets 0, List.take_left]
  · change csumRxOk csum d.csum = true
    rw [hr]
    exact foldl_csumRx_ok hres p.octets r

/-! ### A stream of frames -/

/-- The decoder of a link with a buffer of `cap` octets. -/
def reader (w : Wire) (csum : Option (Csum b)) (cap : Nat) :
    Stream.Reader (Dec b) (List UInt8) UInt8 where
  feed := decFeed w csum
  item d := d.payload
  prep := decPrep csum cap

/-- Packets to send, a start octet being asked for after the last. -/
structure Sendable (good : TxPacket → Prop) (ps : List (TxPacket × Bool)) : Prop where
  good : ∀ p ∈ ps, good p.1
  last : ∀ p ∈ ps.getLast?, p.2 = true

theorem Sendable.tail {good : TxPacket → Prop} {p : TxPacket × Bool} {ps : List (TxPacket × Bool)}
    (h : Sendable good (p :: ps)) : Sendable good ps where
  good q hq := h.good q (List.mem_cons_of_mem p hq)
  last q hq := by
    apply h.last
    cases ps with
    | nil => cases hq
    | cons r ps => exact hq

/-- The octets to come where the decoder has stored `seen`, the octets of a frame since its start,
or nothing at all. The items are the packets in them. -/
inductive Coming (csum : Option (Csum b)) (good : TxPacket → Prop) :
    Option (List UInt8) → List (List UInt8) → List UInt8 → Prop
  | start {ps : List (TxPacket × Bool)} : Sendable good ps →
      Coming csum good none (ps.map fun p => p.1.octets) (ps.flatMap (wireOf csum))
  | frame {p : TxPacket × Bool} {ps : List (TxPacket × Bool)} {seen t : List UInt8} :
      Sendable good (p :: ps) → seen ++ t = code.escape (frameOf csum p.1.octets) →
      Coming csum good (some seen) ((p :: ps).map fun p => p.1.octets)
        (t ++ ((if p.2 then [code.flag] else []) ++ ps.flatMap (wireOf csum)))

/-- What the decoder holds of what has been seen. -/
def Dec.Holds (csum : Option (Csum b)) (d : Dec b) : Option (List UInt8) → Prop
  | none => d.payload = []
  | some seen => d.Reads csum seen

/-- The step from octet to octet: a packet is complete where its frame is followed by a start
octet, and the frame goes on everywhere else. -/
theorem decOctet_coming {w : Wire} {cfg : Cfg w} {csum : Option (Csum b)} {cap : Nat}
    (hres : ∀ a ∈ csum, a.Residual) (hcap : connFrameSz cfg csum ≤ cap) {d : Dec b}
    {seen : Option (List UInt8)} {is : List (List UInt8)} {c : UInt8} {rest : List UInt8}
    (hd : d.payloadCap = cap) (hholds : d.Holds csum seen)
    (h : Coming csum (fun p => p.Fits cfg csum) seen is (c :: rest)) :
    (∃ d' seen', decOctet w csum d c = (false, d') ∧ d'.payloadCap = cap ∧
      d'.Holds csum seen' ∧ Coming csum (fun p => p.Fits cfg csum) seen' is rest) ∨
    ∃ d' is' seen', decOctet w csum d c = (true, d') ∧ is = d'.payload :: is' ∧
      (decPrep csum cap d').Holds csum seen' ∧
      Coming csum (fun p => p.Fits cfg csum) seen' is' rest := by
  generalize hw : c :: rest = w' at h
  cases h with
  | @start ps hs =>
    cases ps with
    | nil => cases hw
    | cons p ps =>
      obtain ⟨d', hd', hcap', hreads⟩ := decOctet_opens (w := w) csum (d := d) hholds
      rw [List.flatMap_cons, wireOf, List.cons_append, List.cons_append, List.append_assoc] at hw
      obtain ⟨rfl, rfl⟩ := List.cons.inj hw
      exact .inl ⟨d', some [], hd', hcap'.trans hd, hreads, .frame hs rfl⟩
  | @frame p ps seen t hs ht =>
    have hgood := hs.good p (List.mem_cons_self ..)
    cases t with
    | cons x t =>
      obtain ⟨rfl, rfl⟩ := List.cons.inj hw
      have hx : c ≠ code.flag := by
        rintro rfl
        refine flag_notMem_escape code (by decide) (frameOf csum p.1.octets) ?_
        rw [← ht]
        exact List.mem_append_right _ (List.mem_cons_self ..)
      have hsplit : (seen ++ [c]) ++ t = code.escape (frameOf csum p.1.octets) := by
        rw [← ht, List.append_assoc]
        rfl
      have hfit : (code.unescape (seen ++ [c])).out.length ≤ d.payloadCap := by
        have hle := (isPrefix_unescape_out code (seen ++ [c]) t).length_le
        have := hgood.frame
        rw [hsplit, unescape_escape, length_frameOf] at hle
        omega
      obtain ⟨d', hd', hcap', hreads⟩ := decOctet_reads (w := w) hholds hx hfit
      exact .inl ⟨d', some (seen ++ [c]), hd', hcap'.trans hd, hreads, .frame hs hsplit⟩
    | nil =>
      rw [List.append_nil] at ht
      subst ht
      obtain ⟨d', hd', hpay, hst⟩ := decOctet_completes hres hgood hholds
      cases hp : p.2 with
      | true =>
        rw [hp] at hw
        obtain ⟨rfl, rfl⟩ := List.cons.inj hw
        exact .inr ⟨d', _, none, hd', by rw [hpay]; rfl, rfl, .start hs.tail⟩
      | false =>
        cases ps with
        | nil =>
          -- the last packet asks for a start octet after it
          have := hs.last p rfl
          rw [hp] at this
          cases this
        | cons q ps =>
          rw [hp, List.flatMap_cons, wireOf, List.cons_append, List.cons_append,
            List.append_assoc] at hw
          obtain ⟨rfl, rfl⟩ := List.cons.inj hw
          exact .inr ⟨d', _, some [], hd', by rw [hpay]; rfl, ⟨hst, rfl, d'.csum, rfl⟩,
            .frame hs.tail rfl⟩

theorem decFeed_coming {w : Wire} {cfg : Cfg w} {csum : Option (Csum b)} {cap : Nat}
    (hres : ∀ a ∈ csum, a.Residual) (hcap : connFrameSz cfg csum ≤ cap) (src : List UInt8) :
    ∀ (d : Dec b) (seen : Option (List UInt8)) (rest : List UInt8) (is : List (List UInt8)),
      d.payloadCap = cap → d.Holds csum seen →
      Coming csum (fun p => p.Fits cfg csum) seen is (src ++ rest) →
      let r := decFeed w csum d src
      (r.2.1 = true → ∃ is' seen', is = r.2.2.payload :: is' ∧
        (decPrep csum cap r.2.2).Holds csum seen' ∧
        Coming csum (fun p => p.Fits cfg csum) seen' is' (src.drop r.1 ++ rest)) ∧
      (r.2.1 = false → r.1 = src.length ∧ r.2.2.payloadCap = cap ∧ ∃ seen',
        r.2.2.Holds csum seen' ∧ Coming csum (fun p => p.Fits cfg csum) seen' is rest) := by
  induction src with
  | nil =>
    intro d seen rest is hd hholds hcome
    exact ⟨by rintro ⟨⟩, fun _ => ⟨rfl, hd, seen, hholds, hcome⟩⟩
  | cons c src ih =>
    intro d seen rest is hd hholds hcome
    rw [List.cons_append] at hcome
    rw [decFeed]
    rcases decOctet_coming hres hcap hd hholds hcome with
      ⟨d', seen', hoct, hd', hholds', hcome'⟩ | ⟨d', is', seen', hoct, his, hholds', hcome'⟩
    · rw [hoct]
      obtain ⟨hdone, hmore⟩ := ih d' seen' rest is hd' hholds' hcome'
      refine ⟨hdone, fun h => ?_⟩
      obtain ⟨hn, hrest⟩ := hmore h
      exact ⟨by simp only [hn, List.length_cons], hrest⟩
    · rw [hoct]
      exact ⟨fun _ => ⟨is', seen', his, hholds', hcome'⟩, by rintro ⟨⟩⟩

def reader_lawful {w : Wire} (cfg : Cfg w) {csum : Option (Csum b)} {cap : Nat}
    (hres : ∀ a ∈ csum, a.Residual) (hcap : connFrameSz cfg csum ≤ cap) :
    (reader w csum cap).Lawful where
  Expects d is src := d.payloadCap = cap ∧ ∃ seen, d.Holds csum seen ∧
    Coming csum (fun p => p.Fits cfg csum) seen is src
  finished := by
    rintro d is ⟨_, seen, _, hcome⟩
    generalize hw : ([] : List UInt8) = w' at hcome
    cases hcome with
    | @start ps hs =>
      cases ps with
      | nil => rfl
      | cons p ps => cases hw
    | @frame p ps seen t hs ht =>
      obtain ⟨_, hclose⟩ := List.append_eq_nil_iff.mp hw.symm
      obtain ⟨heof, hrest⟩ := List.append_eq_nil_iff.mp hclose
      cases ps with
      | nil =>
        have := hs.last p rfl
        rw [this] at heof
        cases heof
      | cons q ps => cases hrest
  feed := by
    rintro d is src rest _ ⟨hd, seen, hholds, hcome⟩
    obtain ⟨hdone, hmore⟩ := decFeed_coming hres hcap src d seen rest is hd hholds hcome
    constructor
    · intro h
      obtain ⟨is', seen', his, hholds', hcome'⟩ := hdone h
      exact ⟨is', his, rfl, seen', hholds', hcome'⟩
    · intro h
      obtain ⟨hn, hcap', seen', hholds', hcome'⟩ := hmore h
      exact ⟨hn, hcap', seen', hholds', hcome'⟩

/-- Whatever the buffers the encoder fills and the pieces the octets arrive in, the decoder reports
the packets sent, one after the other and octet for octet, and nothing else, as long as a start
octet is asked for after the last. -/
theorem hdlc_stream_roundtrip {w : Wire} (cfg : Cfg w) (csum : Option (Csum b))
    (hres : ∀ a ∈ csum, a.Residual) (ps : List (TxPacket × Bool))
    (hps : ∀ p ∈ ps, p.1.Fits cfg csum) (hlast : ∀ p ∈ ps.getLast?, p.2 = true)
    (e : Enc b) (caps : Nat → Nat) (hcaps : ∀ k, 0 < caps k) (d : Dec b) (cap : Nat)
    (hcap : connFrameSz cfg csum ≤ cap) :
    ∃ fuel e' wire, (writer csum).send caps fuel 0 (encInit e) ps = some (e', wire) ∧
      ∀ pieces : List (List UInt8), pieces.flatten = wire → ∃ fuel' d',
        (reader w csum cap).readAll fuel' (decPrep csum cap d) pieces =
          some (d', ps.map fun p => p.1.octets) := by
  have hhdr : ∀ p ∈ ps, p.1.hdr ≠ [] := fun p hp => (hps p hp).hdr_ne
  obtain ⟨fuel, e', hsend⟩ :=
    (writer_lawful csum).send hcaps ps (encInit e) 0 trivial rfl hhdr
  refine ⟨fuel, e', _, hsend, ?_⟩
  intro pieces hpieces
  refine (reader_lawful cfg hres hcap).readAll pieces _ _ ⟨rfl, none, rfl, ?_⟩
  rw [hpieces]
  exact .start ⟨hps, hlast⟩

def unusedEnc : Enc 8 := ⟨[], [], [], 0, 0, .idle, .idle, 0, false⟩

def unusedDec : Dec 8 := ⟨[], 0, 0, .payload, ⟨0, 0, 0, 0⟩⟩

/-- Two packets that share a start octet, reserved octets in the second, an octet at a time. -/
theorem hdlc_stream_roundtrip_two :
    ∃ fuel e' wire, (writer (some lrc)).send (fun _ => 1) fuel 0 (encInit unusedEnc)
        [(⟨[1, 0x80], []⟩, false), (⟨[2, 1, 7], [0x55, 0xaa, 0x20]⟩, true)] = some (e', wire) ∧
      ∀ pieces : List (List UInt8), pieces.flatten = wire → ∃ fuel' d',
        (reader (.ofWindow 1 (by decide)) (some lrc) 68).readAll fuel'
          (decPrep (some lrc) 68 unusedDec) pieces = some (d', [[1, 0x80], [2, 1, 7, 0x55, 0xaa, 0x20]]) :=
  hdlc_stream_roundtrip (Cfg.ofBuild (.ofWindow 1 (by decide)) true 1 (by decide)) (some lrc)
    (by rintro _ ⟨⟩; exact lrc_residual) _
    (by
      intro p hp
      simp only [List.mem_cons, List.not_mem_nil, or_false] at hp
      rcases hp with rfl | rfl
      · exact ⟨by decide, by decide, by decide⟩
      · exact ⟨by decide, by decide, by decide⟩)
    (by rintro p ⟨⟩; rfl) unusedEnc _ (fun _ => by decide) unusedDec 68 (by decide)

end Ludlc.Hdlc
