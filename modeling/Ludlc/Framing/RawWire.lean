import Ludlc.Framing.Cuts

/-! # Frames with no delimiter: the two ends together

The frame is its own wire form. There is nothing to recover on, so the encoder, the length that is
announced and the decoder have to agree on every octet, however the calls cut the stream.
-/

namespace Ludlc.Raw

variable {b : Nat}

/-- Calls of `ludlc_raw_enc_fill` with the capacities given, and all they put out. -/
def fills (csum : Option (Csum b)) : Enc b → List Nat → Option (Enc b × List UInt8)
  | e, [] => some (e, [])
  | e, cap :: caps =>
    (encFill csum e cap).bind fun r => (fills csum r.1 caps).map fun t => (t.1, r.2 ++ t.2)

/-- An encoder is busy as long as it has something to put out. -/
theorem busy_iff {csum : Option (Csum b)} {e : Enc b} (h : e.Ok) :
    encBusy e = true ↔ e.wire csum ≠ [] := by
  constructor
  · intro hb hwire
    rw [busy_of_wire h hwire] at hb
    cases hb
  · intro hwire
    by_contra hb
    exact hwire (wire_of_idle (Bool.eq_false_of_not_eq_true hb))

theorem fills_spec {csum : Option (Csum b)} (caps : List Nat) {e : Enc b} (h : e.Ok) :
    ∃ e', fills csum e caps = some (e', (e.wire csum).take caps.sum) ∧ e'.Ok ∧
      e'.wire csum = (e.wire csum).drop caps.sum := by
  induction caps generalizing e with
  | nil => exact ⟨e, by simp [fills], h, by simp⟩
  | cons cap caps ih =>
    obtain ⟨e₁, hfill, hok, hwire, -⟩ := encFill_spec csum h cap
    obtain ⟨e₂, hrest, hok₂, hwire₂⟩ := ih hok
    refine ⟨e₂, ?_, hok₂, ?_⟩
    · rw [fills, hfill, Option.bind_some, hrest, Option.map_some, hwire, List.sum_cons,
        List.take_add]
    · rw [hwire₂, hwire, List.drop_drop, List.sum_cons]

/-- A decoder that is not prepared again once it has reported a packet. -/
def listener (w : Wire) (csum : Option (Csum b)) : Stream.Reader (Dec b) (List UInt8) UInt8 where
  feed := decFeed w csum
  item d := d.payload
  prep := id

/-- What it reports of the octets `src` behind `seen`, told of a frame of `n` octets. -/
def reported (w : Wire) (csum : Option (Csum b)) (n : Nat) (seen src : List UInt8) :
    List (List UInt8) :=
  if seen.length < n ∧ n ≤ (seen ++ src).length then
    (unframe w csum n ((seen ++ src).take n)).toList
  else []

theorem reported_past {w : Wire} {csum : Option (Csum b)} {n : Nat} {seen src : List UInt8}
    (h : n ≤ seen.length) : reported w csum n seen src = [] :=
  if_neg fun hc => absurd hc.1 (by omega)

theorem reported_short {w : Wire} {csum : Option (Csum b)} {n : Nat} {seen src : List UInt8}
    (h : (seen ++ src).length < n) : reported w csum n seen src = [] :=
  if_neg fun hc => absurd hc.2 (by omega)

theorem reported_whole {w : Wire} {csum : Option (Csum b)} {n : Nat} {src : List UInt8}
    (h : n ≤ src.length) : reported w csum n [] src = (unframe w csum n (src.take n)).toList := by
  rcases Nat.eq_zero_or_pos n with rfl | hn
  · have hmin := frameMinSz_pos w csum
    have hnone : unframe w csum 0 (src.take 0) = none :=
      if_neg fun hc => absurd hc.2.1 (not_le_of_gt hmin)
    rw [reported_past (Nat.zero_le _), hnone]
    rfl
  · exact if_pos ⟨hn, h⟩

/-- Two pieces are reported on as one. -/
theorem reported_append (w : Wire) (csum : Option (Csum b)) (n : Nat) (seen src rest : List UInt8) :
    reported w csum n seen (src ++ rest) =
      reported w csum n seen src ++ reported w csum n (seen ++ src) rest := by
  have happ : (seen ++ src).length = seen.length + src.length := List.length_append
  rcases Nat.lt_or_ge (seen ++ src).length n with hlt | hge
  · rw [reported_short hlt, List.nil_append, reported, reported, List.append_assoc]
    simp only [show seen.length < n by omega, hlt, true_and]
  · rw [reported_past hge, List.append_nil, reported, reported, ← List.append_assoc,
      List.take_append_of_le_length hge]
    have hlen : n ≤ (seen ++ src ++ rest).length := by
      rw [List.length_append]
      omega
    simp only [hge, hlen, and_true]

theorem decFeed_take (w : Wire) (csum : Option (Csum b)) {d : Dec b} (h : d.state = .data)
    (src : List UInt8) : decFeed w csum d src = decFeed w csum d (src.take d.sz) := by
  have htake : min (src.take d.sz).length d.sz = min src.length d.sz := by
    rw [List.length_take]
    omega
  have hmin : (src.take d.sz).take (min src.length d.sz) = src.take (min src.length d.sz) := by
    rw [List.take_take]
    congr 1
    omega
  rw [decFeed, decFeed, h]
  simp only [htake, hmin]

theorem listener_idle (w : Wire) (csum : Option (Csum b)) {d : Dec b} (h : d.state = .idle)
    (src : List UInt8) : (listener w csum).read 2 d src = some (d, []) := by
  rw [Stream.Reader.read]
  split
  · rfl
  · change (if (decFeed w csum d src).2.1 = true then _ else _) = _
    rw [decFeed_idle w csum h]
    simp [Stream.Reader.read, listener, decFeed_idle w csum h]

/-- A piece of the stream, on whatever side of the announced length it ends. -/
theorem listener_read {w : Wire} {csum : Option (Csum b)} {n : Nat} {d : Dec b}
    {seen : List UInt8} (src : List UInt8) (h : d.Reads csum n seen) :
    ∃ d', (listener w csum).read 3 d src = some (d', reported w csum n seen src) ∧
      d'.Reads csum n (seen ++ src) := by
  have happ : (seen ++ src).length = seen.length + src.length := List.length_append
  rcases h with ⟨hlt, hstate, hpay, hsz, hsum⟩ | ⟨hle, hidle⟩
  · by_cases hnil : src = []
    · subst hnil
      rw [List.append_nil] at happ ⊢
      rw [reported_short (by rw [List.append_nil]; exact hlt)]
      exact ⟨d, rfl, .inl ⟨hlt, hstate, hpay, hsz, hsum⟩⟩
    -- the frame takes what it lacks, and the rest is let through
    have htake : src.take d.sz ≠ [] := by
      rw [ne_eq, List.take_eq_nil_iff, not_or]
      exact ⟨by omega, hnil⟩
    have hfit : (seen ++ src.take d.sz).length ≤ n := by
      rw [List.length_append, List.length_take]
      omega
    obtain ⟨htaken, hreads, hdone⟩ :=
      decFeed_spec (w := w) (.inl ⟨hlt, hstate, hpay, hsz, hsum⟩) htake hfit
    rw [← decFeed_take w csum hstate] at htaken hreads hdone
    rw [List.length_take] at htaken
    have hread : (listener w csum).read 3 d src =
        if (decFeed w csum d src).2.1 = true then
          ((listener w csum).read 2 (decFeed w csum d src).2.2 (src.drop (decFeed w csum d src).1)).map
            fun t => (t.1, (decFeed w csum d src).2.2.payload :: t.2)
        else (listener w csum).read 2 (decFeed w csum d src).2.2
          (src.drop (decFeed w csum d src).1) := by
      rw [Stream.Reader.read, if_neg (by simpa using hnil)]
      rfl
    rw [hread]
    rcases Nat.lt_or_ge src.length d.sz with hmore | hend
    · rw [List.take_of_length_le hmore.le] at hreads hdone
      rw [unframe_short (by omega)] at hdone
      have hdone : (decFeed w csum d src).2.1 = false := hdone
      refine ⟨(decFeed w csum d src).2.2, ?_, hreads⟩
      rw [hdone, htaken, List.drop_of_length_le (by omega), reported_short (by omega)]
      rfl
    · have hall : (seen ++ src).take n = seen ++ src.take d.sz := by
        rw [List.take_append, List.take_of_length_le hlt.le, hsz]
      have hidle : (decFeed w csum d src).2.2.state = .idle := by
        rcases hreads with ⟨hlt', -⟩ | ⟨-, hidle⟩
        · rw [List.length_append, List.length_take] at hlt'
          omega
        · exact hidle
      refine ⟨(decFeed w csum d src).2.2, ?_, .inr ⟨by omega, hidle⟩⟩
      have hrep : reported w csum n seen src = (unframe w csum n (seen ++ src.take d.sz)).toList := by
        rw [← hall]
        exact if_pos ⟨hlt, by omega⟩
      rw [listener_idle w csum hidle, hrep]
      cases hu : unframe w csum n (seen ++ src.take d.sz) with
      | none =>
        rw [hu] at hdone
        have hdone : (decFeed w csum d src).2.1 = false := hdone
        rw [hdone]
        rfl
      | some p =>
        rw [hu] at hdone
        rw [hdone.1, hdone.2]
        rfl
  · refine ⟨d, ?_, .inr ⟨by omega, hidle⟩⟩
    rw [reported_past hle]
    exact Stream.Reader.read_mono (listener_idle w csum hidle src) (by decide)

/-- Whatever pieces the stream comes in, the decoder reports what its announced length holds. -/
theorem listener_readAll {w : Wire} {csum : Option (Csum b)} {n : Nat} (pieces : List (List UInt8))
    {d : Dec b} {seen : List UInt8} (h : d.Reads csum n seen) :
    ∃ d', (listener w csum).readAll 3 d pieces =
        some (d', reported w csum n seen pieces.flatten) ∧
      d'.Reads csum n (seen ++ pieces.flatten) := by
  induction pieces generalizing d seen with
  | nil =>
    refine ⟨d, ?_, by simpa using h⟩
    have hnone : reported w csum n seen ([] : List (List UInt8)).flatten = [] :=
      if_neg fun hc => by
        rw [List.flatten_nil, List.append_nil] at hc
        omega
    rw [hnone]
    rfl
  | cons src pieces ih =>
    obtain ⟨d₁, hread, h₁⟩ := listener_read (w := w) src h
    obtain ⟨d₂, hrest, h₂⟩ := ih h₁
    refine ⟨d₂, ?_, by rw [List.flatten_cons, ← List.append_assoc]; exact h₂⟩
    rw [Stream.Reader.readAll, hread, Option.bind_some, hrest, Option.map_some, List.flatten_cons,
      reported_append]

theorem listener_announced (w : Wire) (csum : Option (Csum b)) (d : Dec b) {n : Nat}
    {pieces : List (List UInt8)} (hlen : n ≤ pieces.flatten.length) :
    ∃ d', (listener w csum).readAll 3 (decPrep csum n d) pieces =
        some (d', (unframe w csum n (pieces.flatten.take n)).toList) ∧ d'.state = .idle := by
  obtain ⟨d', hread, hreads⟩ := listener_readAll (w := w) pieces (decPrep_reads csum n d)
  rw [reported_whole hlen] at hread
  refine ⟨d', hread, ?_⟩
  rcases hreads with ⟨hlt, -⟩ | ⟨-, hidle⟩
  · rw [List.nil_append] at hlt
    omega
  · exact hidle

/-- The encoder puts out the frame, as long as announced, however it is asked for it; and the decoder
reports the packet of the octets its announced length holds if they are a frame, and nothing else. -/
theorem raw_carries_announced (w : Wire) (csum : Option (Csum b)) :
    (∀ (e : Enc b) (p : TxPacket), encBusy e = false → p.hdr ≠ [] →
      (frameOf csum p.octets).length = wireLen csum p ∧
        ∀ caps : List Nat, ∃ e', fills csum (encPrep e p) caps =
            some (e', (frameOf csum p.octets).take caps.sum) ∧
          (encBusy e' = true ↔ caps.sum < wireLen csum p)) ∧
      ∀ (d : Dec b) (n : Nat) (pieces : List (List UInt8)), n ≤ pieces.flatten.length →
        ∃ d', (listener w csum).readAll 3 (decPrep csum n d) pieces =
            some (d', (unframe w csum n (pieces.flatten.take n)).toList) ∧
          ∀ src, decFeed w csum d' src = (src.length, false, d') := by
  refine ⟨fun e p hb hp => ?_, fun d n pieces hlen => ?_⟩
  · have hwire : (frameOf csum p.octets).length = wireLen csum p := by
      rw [length_frameOf, TxPacket.octets, List.length_append, wireLen, Nat.add_comm]
    refine ⟨hwire, fun caps => ?_⟩
    obtain ⟨hok, hframe⟩ : (encPrep e p).Ok ∧ (encPrep e p).wire csum = frameOf csum p.octets :=
      encPrep_spec hb hp
    obtain ⟨e', hfills, hok', hleft⟩ := fills_spec caps hok
    rw [hframe] at hfills hleft
    refine ⟨e', hfills, ?_⟩
    rw [busy_iff hok', hleft, ne_eq, List.drop_eq_nil_iff, hwire, not_le]
  · obtain ⟨d', hread, hidle⟩ := listener_announced w csum d hlen
    exact ⟨d', hread, decFeed_idle w csum hidle⟩

def unusedDec : Dec b := ⟨.idle, [], 0, 0, ⟨0, 0, 0, 0⟩⟩

def unusedEnc : Enc 8 := ⟨[], [], [], 0, .idle, 0⟩

/-- A PING and its sum, asked for in two pieces, and read in two others with padding behind them. -/
theorem raw_carries_announced_ping :
    (∃ e', fills (some lrc) (encPrep unusedEnc ⟨[1, 0x80], []⟩) [1, 4] = some (e', [1, 0x80, 0x81]) ∧
        (encBusy e' = true ↔ [1, 4].sum < wireLen (some lrc) ⟨[1, 0x80], []⟩)) ∧
      ∃ d', (listener (.ofWindow 1 (by decide)) (some lrc)).readAll 3
          (decPrep (some lrc) 3 unusedDec) [[1, 0x80], [0x81, 0xff]] = some (d', [[1, 0x80]]) ∧
        ∀ src, decFeed (.ofWindow 1 (by decide)) (some lrc) d' src = (src.length, false, d') :=
  ⟨((raw_carries_announced (.ofWindow 1 (by decide)) (some lrc)).1 unusedEnc ⟨[1, 0x80], []⟩ rfl
      (by decide)).2 [1, 4],
    (raw_carries_announced (.ofWindow 1 (by decide)) (some lrc)).2 unusedDec 3
      [[1, 0x80], [0x81, 0xff]] (by decide)⟩

end Ludlc.Raw
