import Ludlc.Framing.Cuts

/-! # A boundary brings the decoders back in step

Decoders that differ in their counters, and in the running sum of a link with no checksum, read the
same. After a delimiter, or a start octet, nothing else is left of what came before it.
-/

namespace Ludlc

variable {b : Nat}

/-- Running sums that a link cannot tell apart: any two of them where it runs no checksum. -/
def SumAlike (csum : Option (Csum b)) (r r' : BitVec b) : Prop := csum.isSome → r = r'

theorem SumAlike.rx {csum : Option (Csum b)} {r r' : BitVec b} (h : SumAlike csum r r') (c : UInt8) :
    SumAlike csum (csumRx csum r c) (csumRx csum r' c) := by
  intro hs
  rw [h hs]

theorem sumAlike_rxInit (csum : Option (Csum b)) (r r' : BitVec b) :
    SumAlike csum (csumRxInit csum r) (csumRxInit csum r') := by
  intro hs
  cases csum with
  | none => cases hs
  | some a => rfl

theorem SumAlike.rxOk {csum : Option (Csum b)} {r r' : BitVec b} (h : SumAlike csum r r') :
    csumRxOk csum r = csumRxOk csum r' := by
  cases csum with
  | none => rfl
  | some a => rw [h rfl]

theorem SumAlike.foldl {csum : Option (Csum b)} (l : List UInt8) :
    ∀ {r r' : BitVec b}, SumAlike csum r r' →
      SumAlike csum (l.foldl (csumRx csum) r) (l.foldl (csumRx csum) r') := by
  induction l with
  | nil =>
    intro r r' h
    exact h
  | cons c l ih =>
    intro r r' h
    exact ih (h.rx c)

namespace Cobs

/-- Decoders that read the same. -/
structure Dec.Alike (csum : Option (Csum b)) (d d' : Dec b) : Prop where
  payload : d.payload = d'.payload
  cap : d.payloadCap = d'.payloadCap
  sum : SumAlike csum d.csum d'.csum
  code : d.code = d'.code
  left : d.left = d'.left
  started : d.started = d'.started
  overF : d.overF = d'.overF

theorem decReset_alike {csum : Option (Csum b)} {d d' : Dec b} (h : d.payloadCap = d'.payloadCap) :
    (decReset csum d).Alike csum (decReset csum d') where
  payload := rfl
  cap := h
  sum := sumAlike_rxInit csum _ _
  code := rfl
  left := rfl
  started := rfl
  overF := rfl

theorem storeByte_alike {csum : Option (Csum b)} {d d' : Dec b} (h : d.Alike csum d') (c : UInt8) :
    (storeByte csum d c).Alike csum (storeByte csum d' c) := by
  rw [storeByte, storeByte, h.payload, h.cap]
  split
  · exact { h with payload := rfl, cap := rfl, sum := h.sum.rx c }
  · exact { h with payload := rfl, cap := rfl, overF := rfl }

theorem decOctet_alike {csum : Option (Csum b)} {d d' : Dec b} (h : d.Alike csum d') (c : UInt8) :
    (decOctet csum d c).Alike csum (decOctet csum d' c) := by
  rw [decOctet, decOctet, h.overF, h.left, h.started, h.code]
  split
  · exact h
  · split
    · have hs := storeByte_alike h c
      exact { hs with left := congrArg (· - 1) hs.left }
    · simp only
      split
      · have hs := storeByte_alike h delimiter
        exact { hs with code := rfl, left := rfl, started := rfl }
      · exact { h with code := rfl, left := rfl, started := rfl }

theorem decDelim_alike {w : Wire} {csum : Option (Csum b)} {d d' : Dec b} (h : d.Alike csum d') :
    (decDelim w csum d).1 = (decDelim w csum d').1 ∧
      (decDelim w csum d).2.Alike csum (decDelim w csum d').2 := by
  rw [decDelim, decDelim, h.overF, h.left, h.payload, h.sum.rxOk]
  split
  · exact ⟨rfl, decReset_alike h.cap⟩
  · split
    · exact ⟨rfl, decReset_alike h.cap⟩
    · split
      · split
        · exact ⟨rfl, { h with payload := rfl, left := rfl, overF := rfl }⟩
        · exact ⟨rfl, decReset_alike h.cap⟩
      · split
        · exact ⟨rfl, decReset_alike h.cap⟩
        · exact ⟨rfl, decReset_alike h.cap⟩

theorem step_alike (w : Wire) (csum : Option (Csum b)) (cap : Nat) (d d' : Dec b) (c : UInt8)
    (h : d.Alike csum d') :
    (step w csum cap d c).1.Alike csum (step w csum cap d' c).1 ∧
      (step w csum cap d c).2 = (step w csum cap d' c).2 := by
  obtain ⟨hdone, hd⟩ := decDelim_alike (w := w) h
  rw [step, step, hdone]
  split
  · exact ⟨decOctet_alike h c, rfl⟩
  · split
    · exact ⟨decReset_alike rfl, by rw [hd.payload]⟩
    · exact ⟨hd, rfl⟩

theorem decDelim_resets {w : Wire} {csum : Option (Csum b)} {d : Dec b} :
    (decDelim w csum d).1 = false →
      ∃ d', (decDelim w csum d).2 = decReset csum d' ∧ d'.payloadCap = d.payloadCap := by
  rw [decDelim]
  split
  · exact fun _ => ⟨_, rfl, rfl⟩
  · split
    · exact fun _ => ⟨_, rfl, rfl⟩
    · split
      · split
        · rintro ⟨⟩
        · exact fun _ => ⟨_, rfl, rfl⟩
      · split
        · exact fun _ => ⟨_, rfl, rfl⟩
        · exact fun _ => ⟨_, rfl, rfl⟩

/-- A packet that a delimiter completes is a frame less its checksum. -/
theorem decDelim_completes {w : Wire} {csum : Option (Csum b)} {d : Dec b} :
    (decDelim w csum d).1 = true → frameMinSz w csum ≤ d.payload.length ∧
      (decDelim w csum d).2.payload = d.payload.take (d.payload.length - csumOctets csum) := by
  rw [decDelim]
  split
  · rintro ⟨⟩
  · split
    · rintro ⟨⟩
    · split
      · rename_i hmin
        split
        · exact fun _ => ⟨hmin, rfl⟩
        · rintro ⟨⟩
      · split
        · rintro ⟨⟩
        · rintro ⟨⟩

theorem step_delimiter (w : Wire) (csum : Option (Csum b)) {cap : Nat} {d : Dec b}
    (h : d.payloadCap = cap) :
    ∃ d', (step w csum cap d delimiter).1 = decReset csum d' ∧ d'.payloadCap = cap := by
  rw [step, if_neg (not_not.mpr rfl)]
  split
  · exact ⟨_, rfl, rfl⟩
  · rename_i hnot
    obtain ⟨d', hd', hcap⟩ := decDelim_resets (Bool.eq_false_iff.mpr hnot)
    exact ⟨d', hd', hcap.trans h⟩

theorem step_fresh (w : Wire) (csum : Option (Csum b)) (cap : Nat) (d : Dec b) :
    (step w csum cap (decPrep csum cap d) delimiter).2 = [] := by
  rw [step, if_neg (not_not.mpr rfl), decDelim_empty w csum rfl rfl rfl]
  rfl

theorem resyncs (w : Wire) (csum : Option (Csum b)) (cap : Nat) (d fresh : Dec b) :
    (reader w csum cap).Resyncs delimiter (decPrep csum cap d)
      (decPrep csum cap (decInit fresh)) := by
  apply (stepwise w csum cap).resyncs (step_alike w csum cap)
  · rfl
  · rfl
  · exact step_fresh w csum cap _
  · intro t ht
    obtain ⟨t', hstep, hcap⟩ := step_delimiter w csum ht
    have hprep : (decPrep csum cap (decInit fresh)).payloadCap = cap := rfl
    obtain ⟨f', hfresh, hcap'⟩ := step_delimiter w csum hprep
    change (step w csum cap t delimiter).1.Alike csum
      (step w csum cap (decPrep csum cap (decInit fresh)) delimiter).1
    rw [hstep, hfresh]
    exact decReset_alike (hcap.trans hcap'.symm)

end Cobs

namespace Hdlc

/-- Decoders that read the same. -/
structure Dec.Alike (csum : Option (Csum b)) (d d' : Dec b) : Prop where
  payload : d.payload = d'.payload
  cap : d.payloadCap = d'.payloadCap
  sum : SumAlike csum d.csum d'.csum
  state : d.state = d'.state

theorem restart_alike {csum : Option (Csum b)} {d d' : Dec b} (hcap : d.payloadCap = d'.payloadCap)
    (hstate : d.state = d'.state) : (restart csum d).Alike csum (restart csum d') where
  payload := rfl
  cap := hcap
  sum := sumAlike_rxInit csum _ _
  state := hstate

theorem storeByte_alike {csum : Option (Csum b)} {d d' : Dec b} (h : d.Alike csum d') (c : UInt8) :
    (storeByte csum d c).Alike csum (storeByte csum d' c) := by
  rw [storeByte, storeByte, h.payload, h.cap]
  split
  · exact { h with payload := rfl, cap := rfl, sum := h.sum.rx c }
  · exact { h with payload := rfl, cap := rfl, state := rfl }

theorem decSof_alike {w : Wire} {csum : Option (Csum b)} {d d' : Dec b} (h : d.Alike csum d') :
    (decSof w csum d).1 = (decSof w csum d').1 ∧
      (decSof w csum d).2.Alike csum (decSof w csum d').2 := by
  rw [decSof, decSof, h.payload, h.sum.rxOk]
  split
  · split
    · exact ⟨rfl, { h with payload := rfl }⟩
    · exact ⟨rfl, restart_alike h.cap h.state⟩
  · split
    · exact ⟨rfl, restart_alike h.cap h.state⟩
    · exact ⟨rfl, restart_alike h.cap h.state⟩

theorem decOctet_alike {w : Wire} {csum : Option (Csum b)} {d d' : Dec b} (h : d.Alike csum d')
    (c : UInt8) :
    (decOctet w csum d c).1 = (decOctet w csum d' c).1 ∧
      (decOctet w csum d c).2.Alike csum (decOctet w csum d' c).2 := by
  rw [decOctet, decOctet, h.state]
  split
  · exact ⟨rfl, h⟩
  · exact decSof_alike { h with state := rfl }
  · have hp : ({ d with state := .payload } : Dec b).Alike csum { d' with state := .payload } :=
      { h with state := rfl }
    exact ⟨rfl, storeByte_alike hp _⟩
  · split
    · exact ⟨rfl, { h with state := rfl }⟩
    · exact ⟨rfl, storeByte_alike h c⟩

theorem step_alike (w : Wire) (csum : Option (Csum b)) (cap : Nat) (d d' : Dec b) (c : UInt8)
    (h : d.Alike csum d') :
    (step w csum cap d c).1.Alike csum (step w csum cap d' c).1 ∧
      (step w csum cap d c).2 = (step w csum cap d' c).2 := by
  obtain ⟨hdone, hd⟩ := decOctet_alike (w := w) h c
  rw [step, step, hdone]
  split
  · constructor
    · exact ⟨rfl, rfl, sumAlike_rxInit csum _ _, hd.state⟩
    · rw [hd.payload]
  · exact ⟨hd, rfl⟩

/-- The decoder where a frame opens. -/
structure Dec.Opened (csum : Option (Csum b)) (cap : Nat) (d : Dec b) : Prop where
  payload : d.payload = []
  cap : d.payloadCap = cap
  sum : ∃ r, d.csum = csumRxInit csum r
  state : d.state = .payload

theorem Dec.Opened.alike {csum : Option (Csum b)} {cap : Nat} {d d' : Dec b}
    (h : d.Opened csum cap) (h' : d'.Opened csum cap) : d.Alike csum d' := by
  obtain ⟨r, hr⟩ := h.sum
  obtain ⟨r', hr'⟩ := h'.sum
  constructor
  · rw [h.payload, h'.payload]
  · rw [h.cap, h'.cap]
  · rw [hr, hr']
    exact sumAlike_rxInit csum r r'
  · rw [h.state, h'.state]

theorem step_flag (w : Wire) (csum : Option (Csum b)) {cap : Nat} {d : Dec b}
    (h : d.payloadCap = cap) : (step w csum cap d code.flag).1.Opened csum cap := by
  have hoct : decOctet w csum d code.flag = decSof w csum { d with state := .payload } := by
    rw [decOctet, if_pos rfl]
  rw [step, hoct, decSof]
  simp only
  split
  · split
    · exact ⟨rfl, rfl, ⟨_, rfl⟩, rfl⟩
    · exact ⟨rfl, h, ⟨_, rfl⟩, rfl⟩
  · split
    · exact ⟨rfl, h, ⟨_, rfl⟩, rfl⟩
    · exact ⟨rfl, h, ⟨_, rfl⟩, rfl⟩

/-- Nothing was read where a decoder that has stored nothing finds a start octet. -/
theorem step_opens (w : Wire) (csum : Option (Csum b)) (cap : Nat) {d : Dec b}
    (h : d.payload = []) : (step w csum cap d code.flag).2 = [] := by
  obtain ⟨d', hd', _⟩ := decOctet_opens (w := w) csum h
  rw [step, hd']
  rfl

theorem resyncs (w : Wire) (csum : Option (Csum b)) (cap : Nat) (d fresh : Dec b) :
    (reader w csum cap).Resyncs code.flag (decPrep csum cap d)
      (decPrep csum cap (decInit fresh)) := by
  apply (stepwise w csum cap).resyncs (step_alike w csum cap)
  · rfl
  · rfl
  · exact step_opens w csum cap rfl
  · intro t ht
    exact (step_flag w csum ht).alike (step_flag w csum rfl)

end Hdlc

/-- One boundary resynchronises: from any octets the decoders may have been fed, whatever the link's
checksum and buffer, what they report after the next delimiter or start octet is what a fresh decoder
reports after its first. -/
theorem boundary_resyncs (w : Wire) (csum : Option (Csum b)) (cap : Nat) :
    (∀ d fresh, (Cobs.reader w csum cap).Resyncs Cobs.delimiter (Cobs.decPrep csum cap d)
      (Cobs.decPrep csum cap (Cobs.decInit fresh))) ∧
    ∀ d fresh, (Hdlc.reader w csum cap).Resyncs Hdlc.code.flag (Hdlc.decPrep csum cap d)
      (Hdlc.decPrep csum cap (Hdlc.decInit fresh)) := by
  constructor
  · intro d fresh
    exact Cobs.resyncs w csum cap d fresh
  · intro d fresh
    exact Hdlc.resyncs w csum cap d fresh

end Ludlc
