import Ludlc.Spi.Exchange

/-! # What an exchange delivers

A frame with no delimiter ends where its length does, so an exchange passes it on once. A stuffed
frame ends at a delimiter that its decoder does not take, and is fed it again.
-/

namespace Ludlc

variable {b : Nat} {w : Wire}

/-! ## Frames with no delimiter -/

namespace Raw

/-- `ludlc_framing_raw`, on an SPI link. -/
def spiFraming (cfg : Cfg w) (csum : Option (Csum b)) : Spi.Framing (Dec b) where
  encodedMax := connFrameSz cfg csum
  decPrep := decPrep csum
  decFeed := decFeed w csum
  packet d := d.payload

/-- The decoder has read these octets of a frame announced as `n`, and passed on what is in them. -/
structure Heard (w : Wire) (csum : Option (Csum b)) (n : Nat) (d : Dec b) (fed : List UInt8)
    (ps : List (List UInt8)) : Prop where
  reads : d.Reads csum n fed
  packets : ps = (unframe w csum n fed).toList

theorem progress (cfg : Cfg w) (csum : Option (Csum b)) (n : Nat) :
    (spiFraming cfg csum).Progress n (Heard w csum n) (fun _ => False) where
  lost _ _ h := h
  feed := by
    intro d fed ps src h hfit
    left
    by_cases hne : src = []
    · subst hne
      refine ⟨d, [], Stream.Reader.reads_nil _ d, ?_⟩
      rw [List.append_nil, List.append_nil]
      exact h
    · have hlt : fed.length ≠ n := by
        have := List.length_pos_of_ne_nil hne
        rw [List.length_append] at hfit
        omega
      have hps : ps = [] := by
        rw [h.packets, unframe_short hlt]
        rfl
      obtain ⟨hall, hreads, hend⟩ := decFeed_spec (w := w) h.reads hne hfit
      have hrest : ∀ d' : Dec b, (spiFraming cfg csum).loop.Reads d'
          (src.drop (decFeed w csum d src).1) d' [] := by
        intro d'
        rw [hall, List.drop_length]
        exact Stream.Reader.reads_nil _ d'
      rw [hps]
      cases hu : unframe w csum n (fed ++ src) with
      | none =>
        rw [hu] at hend
        refine ⟨_, [], .of_more hne hend (hrest _), hreads, ?_⟩
        rw [hu]
        rfl
      | some p =>
        rw [hu] at hend
        obtain ⟨hdone, hpay⟩ := hend
        refine ⟨_, _, .of_done (hrest _) hne hdone, hreads, ?_⟩
        rw [hu, List.nil_append]
        exact congrArg (· :: []) hpay

end Raw

namespace Spi

theorem announced_le {δ : Type} (F : Framing δ) (hdr : Option Hdr) :
    announced F hdr ≤ F.encodedMax := by
  rw [announced]
  cases hdr with
  | none => exact Nat.zero_le _
  | some h =>
    rw [Option.bind_some, hdrGet]
    split
    · exact Nat.zero_le _
    · split
      · exact Nat.zero_le _
      · split
        · exact Nat.zero_le _
        · rename_i hle
          exact not_lt.mp hle

end Spi

theorem Raw.exchange_spec (cfg : Cfg w) (csum : Option (Csum b)) {chunkSz : Nat}
    (hchunk : 0 < chunkSz) (txLen : Nat) (d : Dec b) (hdr : Option Spi.Hdr) (line : List UInt8) :
    let F := spiFraming cfg csum
    ∃ fuel r, Spi.exchange F (connFrameSz cfg csum) chunkSz txLen fuel d hdr line = some r ∧
      r.packets =
        (unframe w csum (Spi.announced F hdr) (Spi.heard F chunkSz txLen hdr line)).toList := by
  intro F
  have hcap : min (connFrameSz cfg csum) (Spi.announced F hdr) = Spi.announced F hdr :=
    min_eq_right (Spi.announced_le F hdr)
  have hnil : unframe w csum (Spi.announced F hdr) [] = none := by
    rw [unframe, if_neg]
    rintro ⟨_, hmin, _⟩
    exact absurd (frameMinSz_pos w csum) (not_lt.mpr hmin)
  have hstart : Heard w csum (Spi.announced F hdr)
      (F.decPrep (min (connFrameSz cfg csum) (Spi.announced F hdr)) d) [] [] := by
    rw [hcap]
    exact ⟨decPrep_reads csum _ d, by rw [hnil]; rfl⟩
  rcases (progress cfg csum (Spi.announced F hdr)).exchange txLen hstart hchunk line with
    ⟨fuel, r, _, hr, hheard⟩ | ⟨_, hlost⟩
  · exact ⟨fuel, r, hr, hheard.packets⟩
  · exact hlost.elim

/-! ## Stuffed frames -/

namespace Cobs

/-- `ludlc_framing_cobs`, on an SPI link. -/
def spiFraming (cfg : Cfg w) (csum : Option (Csum b)) : Spi.Framing (Dec b) where
  encodedMax := encodedMax cfg csum
  decPrep := decPrep csum
  decFeed := decFeed w csum
  packet d := d.payload

/-- Octets cut at the delimiters, `seg` being those since the last: what lies before each delimiter,
and what is left over. -/
def cut : List UInt8 → List UInt8 → List (List UInt8) × List UInt8
  | seg, [] => ([], seg)
  | seg, c :: src =>
    if c ≠ delimiter then cut (seg ++ [c]) src
    else (seg :: (cut [] src).1, (cut [] src).2)

/-- The packets of the well-formed frames among octets, in a buffer of `cap`. -/
def frames (w : Wire) (csum : Option (Csum b)) (cap : Nat) (src : List UInt8) :
    List (List UInt8) :=
  (cut [] src).1.filterMap (unframe w csum cap)

theorem cut_append (src : List UInt8) :
    ∀ seg t, cut seg (src ++ t) =
      ((cut seg src).1 ++ (cut (cut seg src).2 t).1, (cut (cut seg src).2 t).2) := by
  induction src with
  | nil =>
    intro seg t
    rfl
  | cons c src ih =>
    intro seg t
    rw [List.cons_append, cut, cut]
    split
    · exact ih ..
    · rw [ih]
      rfl

/-- What the delimiter that ended a frame makes of the packet it left, fed again and again: with the
checksum's octets taken off once more each time, for as long as the rest would do for a frame. -/
def echoes (w : Wire) (csum : Option (Csum b)) : Nat → List UInt8 → List (List UInt8)
  | 0, _ => []
  | n + 1, p =>
    if frameMinSz w csum ≤ p.length then
      p.take (p.length - csumOctets csum) ::
        echoes w csum n (p.take (p.length - csumOctets csum))
    else []

/-- All that is passed on for one frame. -/
def passedOn (w : Wire) (csum : Option (Csum b)) (p : List UInt8) : List (List UInt8) :=
  p :: echoes w csum (p.length + 1) p

theorem echoes_eq_nil_iff (w : Wire) (csum : Option (Csum b)) (p : List UInt8) :
    echoes w csum (p.length + 1) p = [] ↔ p.length < frameMinSz w csum := by
  rw [echoes]
  split
  · rename_i h
    exact ⟨fun hc => (by cases hc), fun hc => absurd hc (not_lt.mpr h)⟩
  · rename_i h
    exact ⟨fun _ => not_le.mp h, fun _ => rfl⟩

/-- A decoder that holds a frame it would accept. -/
structure Dec.Whole (csum : Option (Csum b)) (d : Dec b) : Prop where
  overF : d.overF = false
  left : d.left = 0
  csum : csumRxOk csum d.csum = true

/-- A frame is accepted only where it is whole, and it still is after. -/
theorem decDelim_true {w : Wire} {csum : Option (Csum b)} {d : Dec b}
    (h : (decDelim w csum d).1 = true) :
    (decDelim w csum d).2.Whole csum ∧ (decDelim w csum d).2.payloadCap = d.payloadCap := by
  rw [decDelim] at h ⊢
  split at h
  · cases h
  · rename_i ho
    rw [if_neg ho]
    split at h
    · cases h
    · rename_i hl
      rw [if_neg hl]
      split at h
      · rename_i hmin
        rw [if_pos hmin]
        split at h
        · rename_i hok
          rw [if_pos hok]
          exact ⟨⟨Bool.eq_false_of_not_eq_true ho, not_not.mp hl, hok⟩, rfl⟩
        · cases h
      · split at h
        · cases h
        · cases h

/-- The delimiter again, after a frame accepted, where what is left would do for a frame. -/
theorem Dec.Whole.again {w : Wire} {csum : Option (Csum b)} {d : Dec b} (h : d.Whole csum)
    (hmin : frameMinSz w csum ≤ d.payload.length) :
    (decDelim w csum d).1 = true ∧
      (decDelim w csum d).2.payload = d.payload.take (d.payload.length - csumOctets csum) := by
  have ho : ¬ d.overF = true := by simp [h.overF]
  have hl : ¬ d.left ≠ 0 := not_not.mpr h.left
  rw [decDelim, if_neg ho, if_neg hl, if_pos hmin, if_pos h.csum]
  exact ⟨rfl, rfl⟩

theorem Dec.Whole.over {w : Wire} {csum : Option (Csum b)} {d : Dec b} (h : d.Whole csum)
    (hmin : ¬ frameMinSz w csum ≤ d.payload.length) :
    (decDelim w csum d).1 = false ∧ (decDelim w csum d).2.Reads csum [] ∧
      (decDelim w csum d).2.payloadCap = d.payloadCap := by
  have ho : ¬ d.overF = true := by simp [h.overF]
  have hl : ¬ d.left ≠ 0 := not_not.mpr h.left
  rw [decDelim, if_neg ho, if_neg hl, if_neg hmin]
  split
  · exact ⟨rfl, decReset_reads .., rfl⟩
  · exact ⟨rfl, decReset_reads .., rfl⟩

theorem decFeed_delimiter {w : Wire} {csum : Option (Csum b)} {d : Dec b}
    (h : (decDelim w csum d).1 = true) (src : List UInt8) :
    decFeed w csum d (delimiter :: src) = (0, true, (decDelim w csum d).2) := by
  rw [decFeed, if_neg (by simp)]
  split
  · rename_i d' hd
    rw [hd]
  · rename_i d' hd
    rw [hd] at h
    cases h

variable (cfg : Cfg w) (csum : Option (Csum b))

theorem takes_octet (d : Dec b) {c : UInt8} (hc : c ≠ delimiter) :
    (spiFraming cfg csum).loop.Takes d c (decOctet csum d c) where
  nil := rfl
  cons src := by
    change decFeed w csum d (c :: src) = _
    rw [decFeed, if_pos hc]
    rfl

theorem takes_delimiter {d : Dec b} (h : (decDelim w csum d).1 = false) :
    (spiFraming cfg csum).loop.Takes d delimiter (decDelim w csum d).2 where
  nil := rfl
  cons src := by
    change decFeed w csum d (delimiter :: src) = _
    rw [decFeed, if_neg (by simp)]
    split
    · rename_i d' hd
      rw [hd] at h
      cases h
    · rename_i d' hd
      rw [hd]
      rfl

theorem reads_delimiter {d t : Dec b} {src : List UInt8} {ps : List (List UInt8)}
    (h : (decDelim w csum d).1 = true)
    (hr : (spiFraming cfg csum).loop.Reads (decDelim w csum d).2 (delimiter :: src) t ps) :
    (spiFraming cfg csum).loop.Reads d (delimiter :: src) t
      ((decDelim w csum d).2.payload :: ps) := by
  have hfeed : (spiFraming cfg csum).loop.feed d (delimiter :: src) =
      (0, true, (decDelim w csum d).2) := decFeed_delimiter h src
  have hdone : ((spiFraming cfg csum).loop.feed d (delimiter :: src)).2.1 = true := by rw [hfeed]
  have hnext : (spiFraming cfg csum).loop.Reads
      ((spiFraming cfg csum).loop.prep ((spiFraming cfg csum).loop.feed d (delimiter :: src)).2.2)
      ((delimiter :: src).drop ((spiFraming cfg csum).loop.feed d (delimiter :: src)).1) t ps := by
    rw [hfeed]
    exact hr
  have hreads := hnext.of_done (List.cons_ne_nil _ _) hdone
  rw [hfeed] at hreads
  exact hreads

/-- With a checksum, each turn at the delimiter takes its octets off what is left, until that would
not do for a frame. -/
theorem reads_echoes {a : Csum b} (n : Nat) :
    ∀ d : Dec b, d.Whole (some a) → d.payload.length < n →
      ∃ d₀ : Dec b, d₀.Reads (some a) [] ∧ d₀.payloadCap = d.payloadCap ∧
        ∀ src t ps, (spiFraming cfg (some a)).loop.Reads d₀ src t ps →
          (spiFraming cfg (some a)).loop.Reads d (delimiter :: src) t
            (echoes w (some a) n d.payload ++ ps) := by
  induction n with
  | zero =>
    intro d _ hn
    omega
  | succ n ih =>
    intro d hd hn
    rw [echoes]
    by_cases hmin : frameMinSz w (some a) ≤ d.payload.length
    · rw [if_pos hmin]
      obtain ⟨hdone, hpay⟩ := hd.again hmin
      obtain ⟨hwhole, hcap⟩ := decDelim_true hdone
      have hpos : 0 < csumOctets (some a) := a.octets_pos
      have hless : (decDelim w (some a) d).2.payload.length < n := by
        have := Raw.frameMinSz_pos w (some a)
        rw [hpay, List.length_take]
        omega
      obtain ⟨d₀, hreads, hcap₀, hall⟩ := ih _ hwhole hless
      refine ⟨d₀, hreads, hcap₀.trans hcap, fun src t ps hr => ?_⟩
      have := reads_delimiter cfg (some a) hdone (hall src t ps hr)
      rw [hpay] at this
      exact this
    · rw [if_neg hmin]
      obtain ⟨hmore, hreads, hcap⟩ := hd.over hmin
      exact ⟨_, hreads, hcap, fun src t ps hr => (takes_delimiter cfg (some a) hmore).reads hr⟩

/-- With none, nothing changes from one turn at the delimiter to the next. -/
theorem stuck_delimiter (src : List UInt8) (fuel : Nat) :
    ∀ d : Dec b, d.Whole none → frameMinSz w (none : Option (Csum b)) ≤ d.payload.length →
      (spiFraming cfg (none : Option (Csum b))).loop.read fuel d (delimiter :: src) = none := by
  induction fuel with
  | zero =>
    intro d _ _
    rfl
  | succ fuel ih =>
    intro d hd hmin
    obtain ⟨hdone, hpay⟩ := hd.again hmin
    have hfeed : (spiFraming cfg (none : Option (Csum b))).loop.feed d (delimiter :: src) =
        (0, true, (decDelim w none d).2) := decFeed_delimiter hdone src
    rw [Stream.Reader.read_done (by simp) (by rw [hfeed]), hfeed]
    have hnone := ih (decDelim w none d).2 (decDelim_true hdone).1 (by
      rw [hpay, csumOctets, Nat.sub_zero, List.take_length]
      exact hmin)
    exact congrArg _ hnone

theorem le_of_unframe {w : Wire} {csum : Option (Csum b)} {cap : Nat} {seg p : List UInt8}
    (h : unframe w csum cap seg = some p) : frameMinSz w csum ≤ p.length + csumOctets csum := by
  rw [unframe] at h
  split at h
  · rename_i hc
    cases h
    rw [List.length_take]
    obtain ⟨_, _, hmin, _⟩ := hc
    rw [frameMinSz] at hmin ⊢
    omega
  · cases h

theorem reads_cut {cap : Nat} (src : List UInt8) :
    ∀ (d : Dec b) (seg : List UInt8), d.payloadCap = cap → d.Reads csum seg →
      (∃ d' : Dec b, (spiFraming cfg csum).loop.Reads d src d'
          (((cut seg src).1.filterMap (unframe w csum cap)).flatMap (passedOn w csum)) ∧
        d'.payloadCap = cap ∧ d'.Reads csum (cut seg src).2) ∨
      (spiFraming cfg csum).loop.Stuck d src ∧ csum = none ∧
        (cut seg src).1.filterMap (unframe w csum cap) ≠ [] := by
  induction src with
  | nil =>
    intro d seg hcap hreads
    exact .inl ⟨d, Stream.Reader.reads_nil _ d, hcap, hreads⟩
  | cons c src ih =>
    intro d seg hcap hreads
    rw [cut]
    by_cases hc : c ≠ delimiter
    · rw [if_pos hc]
      have htakes := takes_octet cfg csum d hc
      rcases ih (decOctet csum d c) (seg ++ [c]) ((decOctet_cap csum d c).trans hcap)
        (decOctet_reads hreads c) with ⟨d', hr, hlast⟩ | ⟨hstuck, hframes⟩
      · exact .inl ⟨d', htakes.reads hr, hlast⟩
      · exact .inr ⟨htakes.stuck hstuck, hframes⟩
    · rw [if_neg hc]
      rw [not_not] at hc
      subst hc
      obtain ⟨hcap', hspec⟩ := decDelim_spec (w := w) hreads
      rw [hcap] at hspec hcap'
      rw [List.filterMap_cons]
      cases hu : unframe w csum cap seg with
      | none =>
        rw [hu] at hspec
        obtain ⟨hmore, hreads'⟩ := hspec
        have htakes := takes_delimiter cfg csum hmore
        rcases ih _ [] hcap' hreads' with ⟨d', hr, hlast⟩ | ⟨hstuck, hframes⟩
        · exact .inl ⟨d', htakes.reads hr, hlast⟩
        · exact .inr ⟨htakes.stuck hstuck, hframes⟩
      | some p =>
        rw [hu] at hspec
        obtain ⟨hdone, hpay⟩ := hspec
        obtain ⟨hwhole, _⟩ := decDelim_true hdone
        have hmin := le_of_unframe hu
        cases csum with
        | none =>
          -- the delimiter is never taken
          right
          refine ⟨fun fuel => ?_, rfl, List.cons_ne_nil _ _⟩
          cases fuel with
          | zero => rfl
          | succ fuel =>
            have hfeed : (spiFraming cfg (none : Option (Csum b))).loop.feed d (delimiter :: src) =
                (0, true, (decDelim w none d).2) := decFeed_delimiter hdone src
            rw [Stream.Reader.read_done (by simp) (by rw [hfeed]), hfeed]
            exact congrArg _ (stuck_delimiter cfg src fuel _ hwhole (by rw [hpay]; exact hmin))
        | some a =>
          left
          obtain ⟨d₀, hreads₀, hcap₀, hall⟩ :=
            reads_echoes cfg (p.length + 1) _ hwhole (by rw [hpay]; exact Nat.lt_succ_self _)
          rcases ih d₀ [] (hcap₀.trans hcap') hreads₀ with ⟨d', hr, hlast⟩ | ⟨_, hnone, _⟩
          · have hall' := reads_delimiter cfg (some a) hdone (hall src d' _ hr)
            rw [hpay] at hall'
            exact ⟨d', hall', hlast⟩
          · cases hnone

/-- The decoder has read these octets, and all that comes of their frames has been passed on. -/
structure Heard (w : Wire) (csum : Option (Csum b)) (cap : Nat) (d : Dec b) (fed : List UInt8)
    (ps : List (List UInt8)) : Prop where
  room : d.payloadCap = cap
  reads : d.Reads csum (cut [] fed).2
  packets : ps = (frames w csum cap fed).flatMap (passedOn w csum)

theorem frames_append (w : Wire) (csum : Option (Csum b)) (cap : Nat) (fed src : List UInt8) :
    frames w csum cap (fed ++ src) =
      frames w csum cap fed ++ (cut (cut [] fed).2 src).1.filterMap (unframe w csum cap) := by
  rw [frames, frames, cut_append, List.filterMap_append]

theorem progress (cap n : Nat) :
    (spiFraming cfg csum).Progress n (Heard w csum cap)
      (fun fed => csum = none ∧ frames w csum cap fed ≠ []) where
  lost := by
    rintro fed src ⟨hnone, hne⟩
    refine ⟨hnone, fun h => hne ?_⟩
    rw [frames_append, List.append_eq_nil_iff] at h
    exact h.1
  feed := by
    intro d fed ps src h _
    rcases reads_cut cfg csum src d _ h.room h.reads with
      ⟨d', hr, hcap, hreads⟩ | ⟨hstuck, hnone, hne⟩
    · refine .inl ⟨d', _, hr, hcap, ?_, ?_⟩
      · rw [cut_append]
        exact hreads
      · rw [h.packets, frames_append, List.flatMap_append]
    · refine .inr ⟨hstuck, hnone, fun hc => hne ?_⟩
      rw [frames_append, List.append_eq_nil_iff] at hc
      exact hc.2

/-- An exchange of stuffed frames passes on what comes of each, and does not end at all where there
is no checksum and a frame. -/
theorem exchange_spec {chunkSz : Nat} (hchunk : 0 < chunkSz) (txLen : Nat) (d : Dec b)
    (hdr : Option Spi.Hdr) (line : List UInt8) :
    let F := spiFraming cfg csum
    let fs := frames w csum (min (connFrameSz cfg csum) (Spi.announced F hdr))
      (Spi.heard F chunkSz txLen hdr line)
    (∃ fuel r, Spi.exchange F (connFrameSz cfg csum) chunkSz txLen fuel d hdr line = some r ∧
        r.packets = fs.flatMap (passedOn w csum)) ∨
      (∀ fuel, Spi.exchange F (connFrameSz cfg csum) chunkSz txLen fuel d hdr line = none) ∧
        csum = none ∧ fs ≠ [] := by
  intro F fs
  rcases (progress cfg csum (min (connFrameSz cfg csum) (Spi.announced F hdr))
      (Spi.announced F hdr)).exchange txLen
      ⟨rfl, decReset_reads csum { d with payloadCap := _ }, rfl⟩ hchunk line with
    ⟨fuel, r, _, hr, hheard⟩ | hlost
  · exact .inl ⟨fuel, r, hr, hheard.packets⟩
  · exact .inr hlost

end Cobs

/-! ## What each owes -/

/-- The frame an exchange hears, where it is well formed. -/
def Raw.inside (cfg : Cfg w) (csum : Option (Csum b)) (hdr : Option Spi.Hdr)
    (heard : List UInt8) : List (List UInt8) :=
  (unframe w csum (Spi.announced (spiFraming cfg csum) hdr) heard).toList

/-- The well-formed frames an exchange hears. -/
def Cobs.inside (cfg : Cfg w) (csum : Option (Csum b)) (hdr : Option Spi.Hdr)
    (heard : List UInt8) : List (List UInt8) :=
  frames w csum (min (connFrameSz cfg csum) (Spi.announced (spiFraming cfg csum) hdr)) heard

theorem Raw.delivers (cfg : Cfg w) (csum : Option (Csum b)) {chunkSz : Nat} (hchunk : 0 < chunkSz)
    (txLen : Nat) (d : Dec b) (hdr : Option Spi.Hdr) (line : List UInt8) :
    Spi.Delivers (spiFraming cfg csum) (connFrameSz cfg csum) chunkSz txLen d hdr line
      (inside cfg csum hdr) := by
  obtain ⟨fuel, r, hr, hp⟩ := exchange_spec cfg csum hchunk txLen d hdr line
  rw [Spi.delivers_iff hr, hp, inside]
  cases unframe w csum (Spi.announced (spiFraming cfg csum) hdr)
      (Spi.heard (spiFraming cfg csum) chunkSz txLen hdr line) with
  | none => exact .inl rfl
  | some p => exact .inr ⟨p, rfl, rfl⟩

/-- A frame is passed on once where what is left of it would not do for another. -/
theorem Cobs.delivers_iff (cfg : Cfg w) (csum : Option (Csum b)) {chunkSz : Nat}
    (hchunk : 0 < chunkSz) (txLen : Nat) (d : Dec b) (hdr : Option Spi.Hdr) (line : List UInt8) :
    Spi.Delivers (spiFraming cfg csum) (connFrameSz cfg csum) chunkSz txLen d hdr line
        (inside cfg csum hdr) ↔
      inside cfg csum hdr (Spi.heard (spiFraming cfg csum) chunkSz txLen hdr line) = [] ∨
        ∃ p, inside cfg csum hdr (Spi.heard (spiFraming cfg csum) chunkSz txLen hdr line) = [p] ∧
          p.length < frameMinSz w csum := by
  rcases exchange_spec cfg csum hchunk txLen d hdr line with ⟨fuel, r, hr, hp⟩ | ⟨hnone, hcsum, hne⟩
  · rw [Spi.delivers_iff hr, hp, inside]
    generalize frames w csum _ _ = fs
    constructor
    · rintro (hnil | ⟨p, hone, hfs⟩)
      · left
        rw [List.flatMap_eq_nil_iff] at hnil
        apply List.eq_nil_iff_forall_not_mem.mpr
        intro p hmem
        cases hnil p hmem
      · right
        refine ⟨p, hfs, ?_⟩
        rw [hfs, List.flatMap_singleton, passedOn, List.cons.injEq] at hone
        exact (echoes_eq_nil_iff w csum p).mp hone.2
    · rintro (hnil | ⟨p, hfs, hshort⟩)
      · left
        rw [hnil]
        rfl
      · right
        refine ⟨p, ?_, hfs⟩
        rw [hfs, List.flatMap_singleton, passedOn, (echoes_eq_nil_iff w csum p).mpr hshort]
  · -- with no checksum no frame is so short
    constructor
    · rintro ⟨fuel, r, hr, _⟩
      rw [hnone fuel] at hr
      cases hr
    · rintro (hnil | ⟨p, hfs, hshort⟩)
      · exact absurd hnil hne
      · have hmem : p ∈ inside cfg csum hdr
            (Spi.heard (spiFraming cfg csum) chunkSz txLen hdr line) := by
          rw [hfs]
          exact List.mem_singleton.mpr rfl
        obtain ⟨seg, _, hu⟩ := List.mem_filterMap.mp hmem
        have hmin := le_of_unframe hu
        have h0 : csumOctets csum = 0 := by
          rw [hcsum]
          rfl
        omega

namespace Spi

/-- An exchange of frames with no delimiter always ends, with at most the one packet announced. One
of stuffed frames does only where it hears no frame at all, or a single one whose packet is shorter
than a frame may be. -/
theorem exchange_delivers (cfg : Cfg w) (csum : Option (Csum b)) (chunkSz : Nat)
    (hchunk : 0 < chunkSz) (txLen : Nat) (hdr : Option Hdr) (line : List UInt8) (raw : Raw.Dec b)
    (cobs : Cobs.Dec b) :
    Delivers (Raw.spiFraming cfg csum) (connFrameSz cfg csum) chunkSz txLen raw hdr line
        (Raw.inside cfg csum hdr) ∧
      (Delivers (Cobs.spiFraming cfg csum) (connFrameSz cfg csum) chunkSz txLen cobs hdr line
          (Cobs.inside cfg csum hdr) ↔
        let inside :=
          Cobs.inside cfg csum hdr (heard (Cobs.spiFraming cfg csum) chunkSz txLen hdr line)
        inside = [] ∨ ∃ p, inside = [p] ∧ p.length < frameMinSz w csum) := by
  constructor
  · exact Raw.delivers cfg csum hchunk txLen raw hdr line
  · exact Cobs.delivers_iff cfg csum hchunk txLen cobs hdr line

/-- A link with the header's defaults. -/
def plainLink : Cfg (.ofWindow 1 one_lt_idBits) :=
  Cfg.ofBuild (.ofWindow 1 one_lt_idBits) true 1 Nat.one_pos

def unusedRaw : Raw.Dec 8 := ⟨.idle, [], 0, 0, ⟨0, 0, 0, 0⟩⟩

/-- A PING, stuffed and with a checksum, is delivered. -/
theorem exchange_delivers_ping :
    Delivers (Cobs.spiFraming plainLink (some lrc)) (connFrameSz plainLink (some lrc)) 32 0
      Cobs.unusedDec (some (hdrPut 5)) [4, 1, 0x80, 0x81, 0]
      (Cobs.inside plainLink (some lrc) (some (hdrPut 5))) :=
  (exchange_delivers plainLink (some lrc) 32 (by decide) 0 (some (hdrPut 5))
    [4, 1, 0x80, 0x81, 0] unusedRaw Cobs.unusedDec).2.mpr (.inr ⟨[1, 0x80], by decide, by decide⟩)

/-- With no checksum the same PING is passed on for ever. -/
theorem exchange_never_ends :
    ¬ Delivers (Cobs.spiFraming plainLink (none : Option (Csum 8)))
      (connFrameSz plainLink (none : Option (Csum 8))) 32 0 Cobs.unusedDec (some (hdrPut 4))
      [3, 1, 0x80, 0] (Cobs.inside plainLink (none : Option (Csum 8)) (some (hdrPut 4))) := by
  intro h
  have hin : Cobs.inside plainLink (none : Option (Csum 8)) (some (hdrPut 4))
      (heard (Cobs.spiFraming plainLink (none : Option (Csum 8))) 32 0 (some (hdrPut 4))
        [3, 1, 0x80, 0]) = [[1, 0x80]] := by decide
  rcases (Cobs.delivers_iff plainLink none (by decide) 0 Cobs.unusedDec _ _).mp h with
    hnil | ⟨p, hone, hshort⟩
  · rw [hin] at hnil
    cases hnil
  · rw [hin] at hone
    cases hone
    exact absurd hshort (by decide)

end Spi

end Ludlc
