import Ludlc.Framing.CobsEncoder

/-! # The stuffing: the decoder

The decoder of `ludlc_cobs.c` puts octets straight into the caller's buffer. What it holds part way
through a frame is told by the octets of that frame alone.
-/

namespace Ludlc.Cobs

open Stuffing

variable {b : Nat}

/-- `struct ludlc_cdec_state` and the decoder's flags. The octets stored are as many as `size`
says. -/
structure Dec (b : Nat) where
  payload : List UInt8
  payloadCap : Nat
  csum : BitVec b
  code : UInt8
  left : Nat
  started : Bool
  overF : Bool
  stats : RxStats

/-- `cobs_dec_reset`. -/
def decReset (csum : Option (Csum b)) (d : Dec b) : Dec b :=
  { d with
    payload := [], csum := csumRxInit csum d.csum, code := 0, left := 0
    started := false, overF := false }

/-- `cobs_store_byte`. -/
def storeByte (csum : Option (Csum b)) (d : Dec b) (c : UInt8) : Dec b :=
  if d.payload.length < d.payloadCap then
    { d with payload := d.payload ++ [c], csum := csumRx csum d.csum c }
  else
    { d with overF := true }

/-- `ludlc_cobs_dec_init`. -/
def decInit (d : Dec b) : Dec b := { d with payload := [] }

/-- `ludlc_cobs_dec_prep`. -/
def decPrep (csum : Option (Csum b)) (cap : Nat) (d : Dec b) : Dec b :=
  decReset csum { d with payloadCap := cap }

/-- An octet inside a frame. -/
def decOctet (csum : Option (Csum b)) (d : Dec b) (c : UInt8) : Dec b :=
  if d.overF then d
  else if d.left ≠ 0 then
    let d := storeByte csum d c
    { d with left := d.left - 1 }
  else
    let d := if d.started ∧ d.code ≠ 0xff then storeByte csum d delimiter else d
    { d with code := c, left := c.toNat - 1, started := true }

/-- The delimiter ends the frame, valid or not: whether a packet is complete. -/
def decDelim (w : Wire) (csum : Option (Csum b)) (d : Dec b) : Bool × Dec b :=
  if d.overF then
    (false, decReset csum { d with stats := { d.stats with jabber := d.stats.jabber + 1 } })
  else if d.left ≠ 0 then
    (false, decReset csum { d with stats := { d.stats with dropped := d.stats.dropped + 1 } })
  else if frameMinSz w csum ≤ d.payload.length then
    if csumRxOk csum d.csum then
      (true, { d with
        payload := d.payload.take (d.payload.length - csumOctets csum)
        stats := { d.stats with rxPacket := d.stats.rxPacket + 1 } })
    else
      (false, decReset csum { d with stats := { d.stats with badCsum := d.stats.badCsum + 1 } })
  else if d.payload ≠ [] then
    (false, decReset csum { d with stats := { d.stats with dropped := d.stats.dropped + 1 } })
  else
    (false, decReset csum d)

/-- `ludlc_cobs_dec_feed`: the octets taken, whether a packet is complete, and the decoder. The
delimiter that completes a packet is not taken. -/
def decFeed (w : Wire) (csum : Option (Csum b)) : Dec b → List UInt8 → Nat × Bool × Dec b
  | d, [] => (0, false, d)
  | d, c :: src =>
    if c ≠ delimiter then
      let r := decFeed w csum (decOctet csum d c) src
      (r.1 + 1, r.2)
    else
      match decDelim w csum d with
      | (true, d) => (0, true, d)
      | (false, d) =>
        let r := decFeed w csum d src
        (r.1 + 1, r.2)

/-! ### What it has read -/

/-- The packet in the octets between two delimiters, if they are a well-formed frame that fits a
buffer of `cap` octets. -/
def unframe (w : Wire) (csum : Option (Csum b)) (cap : Nat) (seg : List UInt8) :
    Option (List UInt8) :=
  let u := decode seg
  if u.out.length ≤ cap ∧ u.left = 0 ∧ frameMinSz w csum ≤ u.out.length ∧
      csumRxOk csum (u.out.foldl (csumRx csum) (csumRxInit csum 0)) then
    some (u.out.take (u.out.length - csumOctets csum))
  else none

/-- The decoder after the octets `seg` of a frame. -/
structure Dec.Reads (csum : Option (Csum b)) (d : Dec b) (seg : List UInt8) : Prop where
  overF : d.overF = decide (d.payloadCap < (decode seg).out.length)
  payload : d.overF = false → d.payload = (decode seg).out
  csum : d.overF = false →
    ∃ r, d.csum = (decode seg).out.foldl (csumRx csum) (csumRxInit csum r)
  code : d.overF = false → d.code = (decode seg).code
  left : d.overF = false → d.left = (decode seg).left
  started : d.overF = false → d.started = (decode seg).started

@[simp] theorem decReset_cap (csum : Option (Csum b)) (d : Dec b) :
    (decReset csum d).payloadCap = d.payloadCap := rfl

theorem decReset_reads (csum : Option (Csum b)) (d : Dec b) : (decReset csum d).Reads csum [] where
  overF := rfl
  payload _ := rfl
  csum _ := ⟨d.csum, rfl⟩
  code _ := rfl
  left _ := rfl
  started _ := rfl

@[simp] theorem storeByte_cap (csum : Option (Csum b)) (d : Dec b) (c : UInt8) :
    (storeByte csum d c).payloadCap = d.payloadCap := by
  rw [storeByte]
  split
  · rfl
  · rfl

@[simp] theorem decOctet_cap (csum : Option (Csum b)) (d : Dec b) (c : UInt8) :
    (decOctet csum d c).payloadCap = d.payloadCap := by
  rw [decOctet]
  split
  · rfl
  · split
    · exact storeByte_cap csum d c
    · simp only
      split
      · exact storeByte_cap csum d _
      · rfl

/-- What storing an octet leaves: it is kept if there is room for it. -/
structure Stored (csum : Option (Csum b)) (d d' : Dec b) (c : UInt8) : Prop where
  cap : d'.payloadCap = d.payloadCap
  overF : d'.overF = decide (d.payloadCap < d.payload.length + 1)
  payload : d'.overF = false → d'.payload = d.payload ++ [c]
  csum : d'.overF = false → d'.csum = csumRx csum d.csum c
  code : d'.code = d.code
  left : d'.left = d.left
  started : d'.started = d.started

theorem storeByte_spec (csum : Option (Csum b)) {d : Dec b} (h : d.overF = false) (c : UInt8) :
    Stored csum d (storeByte csum d c) c := by
  rw [storeByte]
  split
  · rename_i hlt
    refine ⟨rfl, ?_, fun _ => rfl, fun _ => rfl, rfl, rfl, rfl⟩
    rw [h]
    symm
    rw [decide_eq_false_iff_not]
    omega
  · rename_i hge
    refine ⟨rfl, ?_, by rintro ⟨⟩, by rintro ⟨⟩, rfl, rfl, rfl⟩
    symm
    rw [decide_eq_true_iff]
    omega

theorem decOctet_reads {csum : Option (Csum b)} {d : Dec b} {seg : List UInt8}
    (h : d.Reads csum seg) (c : UInt8) : (decOctet csum d c).Reads csum (seg ++ [c]) := by
  have hdec := decode_append_singleton seg c
  cases ho : d.overF with
  | true =>
    have hover := h.overF
    rw [ho] at hover
    have hlt : d.payloadCap < (decode (seg ++ [c])).out.length :=
      lt_of_lt_of_le (of_decide_eq_true hover.symm) (isPrefix_decode_out seg [c]).length_le
    rw [decOctet, if_pos ho]
    refine ⟨?_, ?_, ?_, ?_, ?_, ?_⟩
    · rw [ho]
      exact (decide_eq_true hlt).symm
    all_goals
      intro hf
      rw [ho] at hf
      cases hf
  | false =>
    obtain ⟨r, hr⟩ := h.csum ho
    have hpay := h.payload ho
    have hcode := h.code ho
    have hleft := h.left ho
    have hst := h.started ho
    have hlen : ¬ d.payloadCap < (decode seg).out.length := by
      have := h.overF
      rw [ho] at this
      exact of_decide_eq_false this.symm
    rw [decOctet, if_neg (by simp [ho])]
    by_cases hl : d.left ≠ 0
    · -- an octet of the group
      rw [if_pos hl]
      have hu : decode (seg ++ [c]) =
          { decode seg with out := (decode seg).out ++ [c], left := (decode seg).left - 1 } := by
        rw [hdec, Unstuffed.octet, if_pos (hleft ▸ hl)]
      have hsp := storeByte_spec csum ho c
      generalize storeByte csum d c = d' at hsp ⊢
      refine ⟨?_, ?_, ?_, ?_, ?_, ?_⟩
      · rw [hu]
        simp only [List.length_append, List.length_singleton]
        rw [hsp.overF, hsp.cap, hpay]
      · intro hf
        rw [hu]
        exact (hsp.payload hf).trans (by rw [hpay])
      · intro hf
        refine ⟨r, ?_⟩
        rw [hu]
        simp only [List.foldl_append, List.foldl_cons, List.foldl_nil]
        exact (hsp.csum hf).trans (by rw [hr])
      · intro _
        rw [hu]
        exact hsp.code.trans hcode
      · intro _
        rw [hu]
        simp only
        rw [hsp.left, hleft]
      · intro _
        rw [hu]
        exact hsp.started.trans hst
    · -- a code octet, which a group before it makes a delimiter part of the data
      rw [if_neg hl]
      have hu : decode (seg ++ [c]) =
          ⟨(decode seg).out ++ (decode seg).gap, c, c.toNat - 1, true⟩ := by
        rw [hdec, Unstuffed.octet, if_neg (hleft ▸ hl)]
      by_cases hg : d.started ∧ d.code ≠ 0xff
      · have hgap : (decode seg).gap = [0] := by
          rw [Unstuffed.gap, if_pos (by rw [← hst, ← hcode]; exact hg)]
        have hsp := storeByte_spec csum ho delimiter
        rw [if_pos hg]
        generalize storeByte csum d delimiter = d' at hsp ⊢
        rw [hgap] at hu
        refine ⟨?_, ?_, ?_, ?_, ?_, ?_⟩
        · rw [hu]
          simp only [List.length_append, List.length_singleton]
          rw [hsp.overF, hsp.cap, hpay]
        · intro hf
          rw [hu]
          exact (hsp.payload hf).trans (by rw [hpay]; rfl)
        · intro hf
          refine ⟨r, ?_⟩
          rw [hu]
          simp only [List.foldl_append, List.foldl_cons, List.foldl_nil]
          exact (hsp.csum hf).trans (by rw [hr]; rfl)
        · intro _
          rw [hu]
        · intro _
          rw [hu]
        · intro _
          rw [hu]
      · have hgap : (decode seg).gap = [] := by
          rw [Unstuffed.gap, if_neg (by rw [← hst, ← hcode]; exact hg)]
        rw [hgap, List.append_nil] at hu
        rw [if_neg hg]
        refine ⟨?_, ?_, ?_, ?_, ?_, ?_⟩
        · rw [hu]
          exact h.overF
        · intro _
          rw [hu]
          exact hpay
        · intro _
          rw [hu]
          exact ⟨r, hr⟩
        · intro _
          rw [hu]
        · intro _
          rw [hu]
        · intro _
          rw [hu]

theorem decDelim_spec {w : Wire} {csum : Option (Csum b)} {d : Dec b} {seg : List UInt8}
    (h : d.Reads csum seg) :
    (decDelim w csum d).2.payloadCap = d.payloadCap ∧
      match unframe w csum d.payloadCap seg with
      | some p => (decDelim w csum d).1 = true ∧ (decDelim w csum d).2.payload = p
      | none => (decDelim w csum d).1 = false ∧ (decDelim w csum d).2.Reads csum [] := by
  rw [unframe, decDelim]
  cases ho : d.overF with
  | true =>
    have hover := h.overF
    rw [ho] at hover
    have hlt := of_decide_eq_true hover.symm
    rw [if_pos rfl]
    simp only
    rw [if_neg (by omega)]
    exact ⟨rfl, trivial, decReset_reads ..⟩
  | false =>
    have hover := h.overF
    rw [ho] at hover
    have hle := of_decide_eq_false hover.symm
    obtain ⟨r, hr⟩ := h.csum ho
    have hok : csumRxOk csum d.csum =
        csumRxOk csum ((decode seg).out.foldl (csumRx csum) (csumRxInit csum 0)) := by
      rw [hr]
      cases csum with
      | none => rfl
      | some a => rfl
    rw [← h.left ho, ← h.payload ho] at *
    simp only [Bool.false_eq_true, if_false]
    by_cases hl : d.left ≠ 0
    · rw [if_pos hl, if_neg (fun hc => hl hc.2.1)]
      exact ⟨rfl, rfl, decReset_reads ..⟩
    · rw [if_neg hl]
      rw [not_not] at hl
      by_cases hmin : frameMinSz w csum ≤ d.payload.length
      · rw [if_pos hmin, hok]
        by_cases hsum : csumRxOk csum (d.payload.foldl (csumRx csum) (csumRxInit csum 0)) = true
        · rw [if_pos hsum, if_pos ⟨by omega, hl, hmin, hsum⟩]
          exact ⟨rfl, rfl, rfl⟩
        · rw [if_neg hsum, if_neg (fun hc => hsum hc.2.2.2)]
          exact ⟨rfl, rfl, decReset_reads ..⟩
      · rw [if_neg hmin]
        by_cases he : d.payload ≠ []
        · rw [if_pos he, if_neg (fun hc => hmin hc.2.2.1)]
          exact ⟨rfl, rfl, decReset_reads ..⟩
        · rw [if_neg he, if_neg (fun hc => hmin hc.2.2.1)]
          exact ⟨rfl, rfl, decReset_reads ..⟩

/-! ### A stream of frames -/

/-- The decoder of a link with a buffer of `cap` octets. -/
def reader (w : Wire) (csum : Option (Csum b)) (cap : Nat) :
    Stream.Reader (Dec b) (List UInt8) UInt8 where
  feed := decFeed w csum
  item d := d.payload
  prep := decPrep csum cap

/-- The octets still to come finish the frame that `seen` begins, if any, and hold whole frames
after its delimiter. The items are the packets in them. -/
inductive Coming (csum : Option (Csum b)) (good : TxPacket → Prop) (seen : List UInt8) :
    List (List UInt8) → List UInt8 → Prop
  | done : seen = [] → Coming csum good seen [] []
  | gap {ps : List TxPacket} : seen = [] → (∀ p ∈ ps, good p) →
      Coming csum good seen (ps.map TxPacket.octets) (delimiter :: ps.flatMap (wireOf csum))
  | frame {p : TxPacket} {ps : List TxPacket} {t : List UInt8} : (∀ q ∈ p :: ps, good q) →
      seen ++ t = encode delimiter (frameOf csum p.octets) →
      Coming csum good seen ((p :: ps).map TxPacket.octets)
        (t ++ delimiter :: ps.flatMap (wireOf csum))

theorem Coming.start {csum : Option (Csum b)} {good : TxPacket → Prop} {ps : List TxPacket}
    (h : ∀ p ∈ ps, good p) :
    Coming csum good [] (ps.map TxPacket.octets) (ps.flatMap (wireOf csum)) := by
  cases ps with
  | nil => exact .done rfl
  | cons p ps =>
    rw [List.flatMap_cons, wireOf, List.append_assoc]
    exact .frame h rfl

theorem delimiter_notMem_encode (l : List UInt8) : delimiter ∉ encode delimiter l :=
  zero_notMem_encode l

theorem decode_encode_delimiter (l : List UInt8) :
    (decode (encode delimiter l)).out = l ∧ (decode (encode delimiter l)).left = 0 :=
  decode_encode l

/-- What a frame of a packet that fits comes to between two delimiters. -/
theorem unframe_encode {w : Wire} {cfg : Cfg w} {csum : Option (Csum b)} {cap : Nat} {p : TxPacket}
    (hres : ∀ a ∈ csum, a.Residual) (hcap : connFrameSz cfg csum ≤ cap) (hp : p.Fits cfg csum) :
    unframe w csum cap (encode delimiter (frameOf csum p.octets)) = some p.octets := by
  obtain ⟨hout, hleft⟩ := decode_encode_delimiter (frameOf csum p.octets)
  have hframe := hp.frame
  have hping := hp.ping
  have hok := foldl_csumRx_ok hres p.octets 0
  rw [unframe]
  simp only [hout, hleft, length_frameOf, true_and]
  rw [if_pos ⟨by omega, by rw [frameMinSz]; omega, hok⟩, Nat.add_sub_cancel,
    frameOf_eq csum p.octets 0, List.take_left]

theorem unframe_nil (w : Wire) (csum : Option (Csum b)) (cap : Nat) :
    unframe w csum cap [] = none := by
  have h2 := two_le_pingSz w
  rw [unframe, if_neg]
  rintro ⟨_, _, hmin, _⟩
  change frameMinSz w csum ≤ 0 at hmin
  rw [frameMinSz] at hmin
  omega

theorem decOctet_coming {csum : Option (Csum b)} {good : TxPacket → Prop} {seen rest : List UInt8}
    {is : List (List UInt8)} {c : UInt8} (h : Coming csum good seen is (c :: rest))
    (hc : c ≠ delimiter) : Coming csum good (seen ++ [c]) is rest := by
  generalize hw : c :: rest = w at h
  cases h with
  | done _ => cases hw
  | gap _ _ =>
    cases hw
    exact absurd rfl hc
  | @frame p ps t hgood ht =>
    cases t with
    | nil =>
      cases hw
      exact absurd rfl hc
    | cons x t =>
      cases hw
      refine .frame hgood ?_
      rw [List.append_assoc]
      exact ht

/-- The delimiter comes where the frame is whole, or where there is none. -/
theorem delimiter_coming {csum : Option (Csum b)} {good : TxPacket → Prop} {seen rest : List UInt8}
    {is : List (List UInt8)} (h : Coming csum good seen is (delimiter :: rest)) :
    ∃ ps : List TxPacket, rest = ps.flatMap (wireOf csum) ∧ (∀ p ∈ ps, good p) ∧
      (seen = [] ∧ is = ps.map TxPacket.octets ∨
        ∃ p, good p ∧ seen = encode delimiter (frameOf csum p.octets) ∧
          is = p.octets :: ps.map TxPacket.octets) := by
  generalize hw : delimiter :: rest = w at h
  cases h with
  | done _ => cases hw
  | @gap ps hs hgood =>
    cases hw
    exact ⟨ps, rfl, hgood, .inl ⟨hs, rfl⟩⟩
  | @frame p ps t hgood ht =>
    cases t with
    | nil =>
      cases hw
      rw [List.append_nil] at ht
      exact ⟨ps, rfl, fun q hq => hgood q (List.mem_cons_of_mem p hq),
        .inr ⟨p, hgood p (List.mem_cons_self ..), ht, rfl⟩⟩
    | cons x t =>
      -- no octet of a frame is the delimiter
      obtain ⟨hx, _⟩ := List.cons.inj hw
      exfalso
      refine delimiter_notMem_encode (frameOf csum p.octets) ?_
      rw [← ht, ← hx]
      exact List.mem_append_right _ (List.mem_cons_self ..)

theorem decFeed_coming {w : Wire} {cfg : Cfg w} {csum : Option (Csum b)} {cap : Nat}
    (hres : ∀ a ∈ csum, a.Residual) (hcap : connFrameSz cfg csum ≤ cap) (src : List UInt8) :
    ∀ (d : Dec b) (seen rest : List UInt8) (is : List (List UInt8)),
      d.payloadCap = cap → d.Reads csum seen →
      Coming csum (fun p => p.Fits cfg csum) seen is (src ++ rest) →
      let r := decFeed w csum d src
      (r.2.1 = true → ∃ is', is = r.2.2.payload :: is' ∧
        Coming csum (fun p => p.Fits cfg csum) [] is' (src.drop r.1 ++ rest)) ∧
      (r.2.1 = false → r.1 = src.length ∧ r.2.2.payloadCap = cap ∧ ∃ seen',
        r.2.2.Reads csum seen' ∧ Coming csum (fun p => p.Fits cfg csum) seen' is rest) := by
  induction src with
  | nil =>
    intro d seen rest is hd hreads hcome
    exact ⟨by rintro ⟨⟩, fun _ => ⟨rfl, hd, seen, hreads, hcome⟩⟩
  | cons c src ih =>
    intro d seen rest is hd hreads hcome
    rw [List.cons_append] at hcome
    rw [decFeed]
    by_cases hc : c ≠ delimiter
    · rw [if_pos hc]
      obtain ⟨hdone, hmore⟩ := ih (decOctet csum d c) (seen ++ [c]) rest is
        ((decOctet_cap csum d c).trans hd) (decOctet_reads hreads c) (decOctet_coming hcome hc)
      refine ⟨hdone, fun h => ?_⟩
      obtain ⟨hn, hrest⟩ := hmore h
      exact ⟨by simp only [hn, List.length_cons], hrest⟩
    · rw [if_neg hc]
      rw [not_not] at hc
      subst hc
      obtain ⟨ps, hrest, hgood, hframe⟩ := delimiter_coming hcome
      obtain ⟨hcap', hspec⟩ := decDelim_spec (w := w) hreads
      rw [hd] at hspec hcap'
      rcases hframe with ⟨hseen, his⟩ | ⟨p, hp, hseen, his⟩
      · -- nothing between two delimiters: the next frame starts
        rw [hseen, unframe_nil] at hspec
        cases hr : decDelim w csum d with
        | mk fst d' =>
          rw [hr] at hspec hcap'
          obtain ⟨hfst, hreads'⟩ := hspec
          simp only at hfst
          subst hfst
          have hcome' : Coming csum (fun p => p.Fits cfg csum) [] is (src ++ rest) := by
            rw [hrest, his]
            exact .start hgood
          obtain ⟨hdone, hmore⟩ := ih d' [] rest is hcap' hreads' hcome'
          refine ⟨hdone, fun h => ?_⟩
          obtain ⟨hn, hlast⟩ := hmore h
          exact ⟨by simp only [hn, List.length_cons], hlast⟩
      · rw [hseen, unframe_encode hres hcap hp] at hspec
        cases hr : decDelim w csum d with
        | mk fst d' =>
          rw [hr] at hspec
          obtain ⟨hfst, hpay⟩ := hspec
          simp only at hfst
          subst hfst
          refine ⟨fun _ => ⟨ps.map TxPacket.octets, ?_, ?_⟩, by rintro ⟨⟩⟩
          · rw [his]
            exact congrArg (· :: _) hpay.symm
          · simp only [List.drop_zero]
            rw [List.cons_append, hrest]
            exact .gap rfl hgood

def reader_lawful {w : Wire} (cfg : Cfg w) {csum : Option (Csum b)} {cap : Nat}
    (hres : ∀ a ∈ csum, a.Residual) (hcap : connFrameSz cfg csum ≤ cap) :
    (reader w csum cap).Lawful where
  Expects d is src := d.payloadCap = cap ∧ ∃ seen, d.Reads csum seen ∧
    Coming csum (fun p => p.Fits cfg csum) seen is src
  finished := by
    rintro d is ⟨_, seen, _, hcome⟩
    generalize hw : ([] : List UInt8) = w at hcome
    cases hcome with
    | done _ => rfl
    | gap _ _ => cases hw
    | frame _ _ =>
      have := congrArg List.length hw
      simp at this
  feed := by
    rintro d is src rest _ ⟨hd, seen, hreads, hcome⟩
    obtain ⟨hdone, hmore⟩ := decFeed_coming hres hcap src d seen rest is hd hreads hcome
    constructor
    · intro h
      obtain ⟨is', his, hcome'⟩ := hdone h
      exact ⟨is', his, rfl, [], decReset_reads .., hcome'⟩
    · intro h
      obtain ⟨hn, hcap', seen', hreads', hcome'⟩ := hmore h
      exact ⟨hn, hcap', seen', hreads', hcome'⟩

/-- Whatever the buffers the encoder fills and the pieces the octets arrive in, the decoder reports
the packets sent, one after the other and octet for octet, and nothing else. -/
theorem cobs_stream_roundtrip {w : Wire} (cfg : Cfg w) (csum : Option (Csum b))
    (hres : ∀ a ∈ csum, a.Residual) (ps : List TxPacket) (hps : ∀ p ∈ ps, p.Fits cfg csum)
    (e : Enc b) (caps : Nat → Nat) (hcaps : ∀ k, 0 < caps k) (d : Dec b) (cap : Nat)
    (hcap : connFrameSz cfg csum ≤ cap) :
    ∃ fuel e' wire, (writer csum).send caps fuel 0 (encInit e) ps = some (e', wire) ∧
      ∀ pieces : List (List UInt8), pieces.flatten = wire → ∃ fuel' d',
        (reader w csum cap).readAll fuel' (decPrep csum cap d) pieces =
          some (d', ps.map TxPacket.octets) := by
  have hhdr : ∀ p ∈ ps, p.hdr ≠ [] := fun p hp => (hps p hp).hdr_ne
  obtain ⟨fuel, e', hsend⟩ :=
    (writer_lawful csum).send hcaps ps (encInit e) 0 (encInit_ok csum e) rfl hhdr
  refine ⟨fuel, e', _, hsend, ?_⟩
  intro pieces hpieces
  refine (reader_lawful cfg hres hcap).readAll pieces _ _ ⟨rfl, [], decReset_reads .., ?_⟩
  rw [hpieces]
  exact .start hps

def unusedEnc : Enc 8 := ⟨[], [], [], 0, 0, 0, .idle, false, false, false⟩

def unusedDec : Dec 8 := ⟨[], 0, 0, 0, 0, false, false, ⟨0, 0, 0, 0⟩⟩

/-- Two packets, the second with zeros in it, an octet at a time. -/
theorem cobs_stream_roundtrip_two :
    ∃ fuel e' wire, (writer (some lrc)).send (fun _ => 1) fuel 0 (encInit unusedEnc)
        [⟨[1, 0x80], []⟩, ⟨[2, 1, 7], [0, 5, 0]⟩] = some (e', wire) ∧
      ∀ pieces : List (List UInt8), pieces.flatten = wire → ∃ fuel' d',
        (reader (.ofWindow 1 (by decide)) (some lrc) 68).readAll fuel'
          (decPrep (some lrc) 68 unusedDec) pieces = some (d', [[1, 0x80], [2, 1, 7, 0, 5, 0]]) :=
  cobs_stream_roundtrip (Cfg.ofBuild (.ofWindow 1 (by decide)) true 1 (by decide)) (some lrc)
    (by rintro _ ⟨⟩; exact lrc_residual) _
    (by
      intro p hp
      simp only [List.mem_cons, List.not_mem_nil, or_false] at hp
      rcases hp with rfl | rfl
      · exact ⟨by decide, by decide, by decide⟩
      · exact ⟨by decide, by decide, by decide⟩)
    unusedEnc _ (fun _ => by decide) unusedDec 68 (by decide)

end Ludlc.Cobs
