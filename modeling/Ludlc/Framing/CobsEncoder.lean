import Ludlc.Lib.Stuffing
import Ludlc.Lib.Stream
import Ludlc.Framing.Csum

/-! # The stuffing: the encoder

The encoder of `ludlc_cobs.c` scans a group ahead across the header, the
payload and the checksum, then replays it from the cursor it scanned from; what it still has to
put out is computed from its state, and each turn of the machine puts out the front of that.
-/

namespace Ludlc.Cobs

open Stuffing

variable {b : Nat}

/-- `LUDLC_COBS_DELIMITER`, unless a build sets another. -/
def delimiter : UInt8 := 0

inductive EncState
  | idle
  | code
  | data
  deriving DecidableEq

/-- `struct ludlc_cenc_state` and the encoder's flags. A segment with a size of zero is empty. -/
structure Enc (b : Nat) where
  hdr : List UInt8
  /-- The payload still to switch to. -/
  payload : List UInt8
  /-- What is left of the segment being sent. -/
  ptr : List UInt8
  csum : BitVec b
  csumLeft : Nat
  run : Nat
  state : EncState
  full : Bool
  armed : Bool
  delim : Bool

/-- `ludlc_cobs_enc_init`. -/
def encInit (e : Enc b) : Enc b :=
  { e with
    state := .idle, hdr := [], payload := [], csumLeft := 0
    full := false, armed := false, delim := false }

/-- `ludlc_cobs_enc_prep`. -/
def encPrep (e : Enc b) (p : TxPacket) : Enc b := { e with hdr := p.hdr, payload := p.payload }

/-- `ludlc_cobs_enc_busy`. -/
def encBusy (e : Enc b) : Bool := e.state != .idle || !e.hdr.isEmpty

/-- The running sum becomes its wire value, once the body has been summed. -/
def arm (csum : Option (Csum b)) (e : Enc b) : Enc b :=
  { e with csum := csumTxFinal csum e.csum, csumLeft := csumOctets csum, armed := true }

/-- Opens a group from the cursor: `room` octets of it are left to find, in what is left of the
segment, then the payload, then the checksum. Gives the length of the group, whether a delimiter
ended it, and the checksum carried on. -/
def scan (d : UInt8) (csum : Option (Csum b)) :
    Nat → List UInt8 → List UInt8 → Nat → Enc b → Nat × Bool × Enc b
  | 0, _, _, _, e => (0, false, e)
  | room + 1, c :: ptr, pay, cleft, e =>
    let e := { e with csum := csumTx csum e.csum c }
    if c = d then (0, true, e)
    else
      let r := scan d csum room ptr pay cleft e
      (r.1 + 1, r.2)
  | room + 1, [], c :: pay, cleft, e =>
    let e := { e with csum := csumTx csum e.csum c }
    if c = d then (0, true, e)
    else
      let r := scan d csum room [] pay cleft e
      (r.1 + 1, r.2)
  | room + 1, [], [], cleft, e =>
    let cleft := if e.armed then cleft else csumOctets csum
    let e := if e.armed then e else arm csum e
    match cleft with
    | 0 => (0, false, e)
    | cleft + 1 =>
      let c := lowOctet (e.csum >>> (8 * (e.csumLeft - (cleft + 1))))
      if c = d then (0, true, e)
      else
        let r := scan d csum room [] [] cleft e
        (r.1 + 1, r.2)

/-- The start of a frame, `cenc_idle`. -/
def encStart (csum : Option (Csum b)) (e : Enc b) : Enc b :=
  { e with ptr := e.hdr, csumLeft := 0, csum := csumTxInit csum e.csum, state := .code }

/-- `cenc_code`: opens a group and puts out its code octet. -/
def encCode (d : UInt8) (csum : Option (Csum b)) (e : Enc b) : Enc b × UInt8 :=
  let r := scan d csum blockMax e.ptr e.payload e.csumLeft e
  ({ r.2.2 with delim := r.2.1, full := r.1 = blockMax, run := r.1, state := .data },
    UInt8.ofNat (r.1 + 1))

/-- The segment that follows one sent to its end. -/
def nextSegment (e : Enc b) : Enc b :=
  if e.ptr.isEmpty && !e.payload.isEmpty then { e with ptr := e.payload, payload := [] } else e

/-- Replays the group opened into the room there is, one octet after the other. -/
def replay (csum : Option (Csum b)) : Nat → Enc b → Enc b × List UInt8
  | 0, e => (e, [])
  | room + 1, e =>
    if e.run = 0 then (e, [])
    else
      let e := nextSegment e
      match e.ptr with
      | c :: ptr =>
        let r := replay csum room { e with ptr := ptr, run := e.run - 1 }
        (r.1, c :: r.2)
      | [] =>
        let e := if e.csumLeft = 0 && e.armed then { e with csumLeft := csumOctets csum } else e
        if e.csumLeft = 0 then (e, [])
        else
          let r := replay csum room
            { e with csum := e.csum >>> 8, csumLeft := e.csumLeft - 1, run := e.run - 1 }
          (r.1, lowOctet e.csum :: r.2)

/-- Passes the delimiter a group stopped on, which is not sent. -/
def skipDelim (e : Enc b) : Enc b :=
  let e := nextSegment e
  match e.ptr with
  | _ :: ptr => { e with ptr := ptr }
  | [] =>
    if e.csumLeft ≠ 0 then { e with csum := e.csum >>> 8, csumLeft := e.csumLeft - 1 } else e

/-- Whether anything follows the group sent. -/
def moreLeft (csum : Option (Csum b)) (e : Enc b) : Bool :=
  !e.ptr.isEmpty || !e.payload.isEmpty || e.csumLeft != 0 || (!e.armed && csumOctets csum != 0)

/-- `cenc_data`: replays the group and, with room left, ends it. -/
def encData (d : UInt8) (csum : Option (Csum b)) (room : Nat) (e : Enc b) : Enc b × List UInt8 :=
  let r := replay csum room e
  if r.1.run ≠ 0 ∨ room ≤ r.2.length then r
  else if r.1.delim then ({ skipDelim r.1 with state := .code }, r.2)
  else if r.1.full && moreLeft csum r.1 then ({ r.1 with state := .code }, r.2)
  else (encInit r.1, r.2 ++ [d])

/-- One turn of the loop of `ludlc_cobs_enc_fill`. -/
def encTurn (d : UInt8) (csum : Option (Csum b)) (room : Nat) (e : Enc b) : Enc b × List UInt8 :=
  match e.state with
  | .idle =>
    if e.hdr.isEmpty then (encInit e, [])
    else
      let r := encCode d csum (encStart csum e)
      (r.1, [r.2])
  | .code =>
    let r := encCode d csum e
    (r.1, [r.2])
  | .data => encData d csum room e

/-- `ludlc_cobs_enc_fill`. A turn that puts nothing out is followed by one that does. -/
def encFill (d : UInt8) (csum : Option (Csum b)) (e : Enc b) (cap : Nat) :
    Option (Enc b × List UInt8) :=
  Stream.fillLoop encBusy (encTurn d csum) (2 * cap + 2) e cap

/-! ## What an encoder still has to put out -/

/-- The octets of the packet the encoder has not passed. -/
def Enc.body (e : Enc b) : List UInt8 := e.ptr ++ e.payload

/-- The checksum octets it has not passed, `rest` being the body octets it has not summed. -/
def Enc.tail (csum : Option (Csum b)) (e : Enc b) (rest : List UInt8) : List UInt8 :=
  if e.armed then lowOctets e.csum e.csumLeft
  else csumWire csum (rest.foldl (csumTx csum) e.csum)

/-- Octets the scan of the open group passed, its delimiter included. -/
def Enc.scanned (e : Enc b) : Nat := e.run + e.delim.toNat

/-- What is left of the frame, from the cursor on. -/
def Enc.pending (csum : Option (Csum b)) (e : Enc b) : List UInt8 :=
  match e.state with
  | .idle => []
  | .code => e.body ++ e.tail csum e.body
  | .data => e.body ++ e.tail csum (e.body.drop e.scanned)

/-- What the end of the open group leaves to send. -/
def Enc.after (d : UInt8) (e : Enc b) (rest : List UInt8) : List UInt8 :=
  if e.delim then encode d (rest.drop 1) ++ [d]
  else if e.full ∧ rest ≠ [] then encode d rest ++ [d]
  else [d]

/-- The octets the encoder has still to put out. -/
def Enc.wire (d : UInt8) (csum : Option (Csum b)) (e : Enc b) : List UInt8 :=
  match e.state with
  | .idle => if e.hdr = [] then [] else encode d (frameOf csum (e.hdr ++ e.payload)) ++ [d]
  | .code => encode d (e.pending csum) ++ [d]
  | .data => (e.pending csum).take e.run ++ e.after d ((e.pending csum).drop e.run)

/-- The states the encoder passes through: the checksum is armed once no body octet is left to
scan, and the open group is a part of what is left of the frame. -/
structure Enc.Ok (csum : Option (Csum b)) (e : Enc b) : Prop where
  idle : e.state = .idle → e.armed = false
  code : e.state = .code → e.armed = true → e.body = []
  unarmed : e.state ≠ .idle → e.armed = false → e.csumLeft = 0
  data : e.state = .data → e.armed = true → e.body.length ≤ e.run
  scanned : e.state = .data → e.armed = false → e.scanned ≤ e.body.length
  pending : e.state = .data → e.scanned ≤ (e.pending csum).length

/-! ### The scan -/

theorem scan_segments (d : UInt8) (csum : Option (Csum b)) :
    ∀ (room : Nat) (ptr pay : List UInt8) (cleft : Nat) (e : Enc b),
      scan d csum room ptr pay cleft e = scan d csum room (ptr ++ pay) [] cleft e := by
  intro room
  induction room with
  | zero =>
    intro ptr pay cleft e
    rw [scan, scan]
  | succ room ih =>
    intro ptr pay cleft e
    cases ptr with
    | cons c ptr =>
      rw [List.cons_append, scan, scan, ih ptr pay]
    | nil =>
      cases pay with
      | nil => rfl
      | cons c pay =>
        rw [List.nil_append, scan, scan, ih [] pay]
        rfl

/-- What a scan of the list `p` finds and leaves of the encoder, `body` being the octets of it that
belong to the packet. -/
structure Scanned (d : UInt8) (csum : Option (Csum b)) (room : Nat) (body p : List UInt8) (e : Enc b)
    (r : Nat × Bool × Enc b) : Prop where
  run : r.1 = ((p.take room).takeWhile (· ≠ d)).length
  delim : r.2.1 = decide (r.1 < room ∧ r.1 < p.length)
  cursor : r.2.2 = { e with
    csum := r.2.2.csum, csumLeft := r.2.2.csumLeft, armed := r.2.2.armed }
  tail : r.2.2.tail csum (body.drop (r.1 + r.2.1.toNat)) = e.tail csum body
  armed : r.2.2.armed = true → body.length ≤ r.1
  unarmed : r.2.2.armed = false →
    e.armed = false ∧ r.1 + r.2.1.toNat ≤ body.length ∧ r.2.2.csumLeft = e.csumLeft

/-- One octet that is no delimiter, and the scan of what follows it. -/
theorem Scanned.cons {d : UInt8} {csum : Option (Csum b)} {room : Nat} {body p : List UInt8} {c : UInt8}
    {e e' : Enc b} {r : Nat × Bool × Enc b} (h : Scanned d csum room body p e' r) (hc : c ≠ d)
    (hcursor : e' = { e with csum := e'.csum, csumLeft := e'.csumLeft, armed := e'.armed }) :
    (r.1 + 1 = (((c :: p).take (room + 1)).takeWhile (· ≠ d)).length) ∧
      (r.2.1 = decide (r.1 + 1 < room + 1 ∧ r.1 + 1 < (c :: p).length)) ∧
      r.2.2 = { e with
        csum := r.2.2.csum, csumLeft := r.2.2.csumLeft, armed := r.2.2.armed } := by
  refine ⟨?_, ?_, ?_⟩
  · rw [List.take_succ_cons, List.takeWhile_cons_of_pos (by simpa using hc), List.length_cons, h.run]
  · rw [h.delim]
    simp
  · rw [h.cursor, hcursor]

theorem scan_csum (d : UInt8) (csum : Option (Csum b)) :
    ∀ (room cleft : Nat) (e : Enc b), e.armed = true → cleft ≤ e.csumLeft →
      Scanned d csum room [] ((lowOctets e.csum e.csumLeft).drop (e.csumLeft - cleft)) e
        (scan d csum room [] [] cleft e) := by
  intro room
  induction room with
  | zero =>
    intro cleft e ha _
    rw [scan]
    exact ⟨by simp, by simp, rfl, rfl, by simp, by simp [ha]⟩
  | succ room ih =>
    intro cleft e ha hle
    rw [scan, if_pos ha, if_pos ha, drop_lowOctets, Nat.sub_sub_self hle]
    cases cleft with
    | zero => exact ⟨by simp [lowOctets], by simp [lowOctets], rfl, by simp, by simp, by simp [ha]⟩
    | succ cleft =>
      simp only
      rw [lowOctets]
      split
      · rename_i hc
        rw [hc]
        exact ⟨by simp, by simp, rfl, by simp, by simp, by simp [ha]⟩
      · rename_i hc
        have hrec := ih cleft e ha (by omega)
        rw [drop_lowOctets, Nat.sub_sub_self (by omega : cleft ≤ e.csumLeft),
          show e.csumLeft - cleft = e.csumLeft - (cleft + 1) + 1 by omega, Nat.mul_add,
          BitVec.shiftRight_add] at hrec
        obtain ⟨hrun, hdelim, hcursor⟩ := hrec.cons (e := e) hc rfl
        refine ⟨hrun, hdelim, hcursor, by simpa using hrec.tail, by simp, ?_⟩
        intro h
        have := (hrec.unarmed h).1
        rw [ha] at this
        cases this

theorem scan_spec (d : UInt8) (csum : Option (Csum b)) :
    ∀ (room : Nat) (body : List UInt8) (e : Enc b), (e.armed = true → body = []) →
      Scanned d csum room body (body ++ e.tail csum body) e (scan d csum room body [] e.csumLeft e) := by
  intro room
  induction room with
  | zero =>
    intro body e ha
    rw [scan]
    refine ⟨by simp, by simp, rfl, rfl, ?_, fun h => ⟨h, by simp, rfl⟩⟩
    intro h
    simp [ha h]
  | succ room ih =>
    intro body e ha
    cases body with
    | nil =>
      cases harm : e.armed with
      | true =>
        have h := scan_csum d csum (room + 1) e.csumLeft e harm (le_refl _)
        rw [Nat.sub_self, List.drop_zero] at h
        rwa [List.nil_append, Enc.tail, if_pos harm]
      | false =>
        have h := scan_csum d csum (room + 1) (csumOctets csum) (arm csum e) rfl (le_refl _)
        have htail : e.tail csum [] = (arm csum e).tail csum [] := by
          rw [Enc.tail, if_neg (by simp [harm])]
          rfl
        have hscan : scan d csum (room + 1) [] [] e.csumLeft e =
            scan d csum (room + 1) [] [] (csumOctets csum) (arm csum e) := by
          rw [scan, scan, if_neg (by simp [harm]), if_neg (by simp [harm])]
          rfl
        have hp : (lowOctets (arm csum e).csum (arm csum e).csumLeft).drop
            ((arm csum e).csumLeft - csumOctets csum) = [] ++ e.tail csum [] := by
          rw [htail]
          simp [arm, Enc.tail]
        rw [hp] at h
        rw [hscan]
        refine ⟨h.run, h.delim, ?_, ?_, h.armed, ?_⟩
        · have := h.cursor
          rw [this]
          rfl
        · rw [h.tail, htail]
        · intro hn
          have := (h.unarmed hn).1
          cases this
    | cons c body =>
      have harm : e.armed = false := by
        cases h : e.armed with
        | false => rfl
        | true => cases ha h
      have htail : e.tail csum (c :: body) =
          ({ e with csum := csumTx csum e.csum c } : Enc b).tail csum body := by
        simp [Enc.tail, harm]
      rw [scan]
      simp only
      split
      · rename_i hc
        rw [hc]
        exact ⟨by simp, by simp, rfl, by rw [← hc, htail]; rfl,
          fun h => by simp [harm] at h, fun h => ⟨harm, by simp, rfl⟩⟩
      · rename_i hc
        have hrec : Scanned d csum room body _ _ (scan d csum room body [] e.csumLeft
            { e with csum := csumTx csum e.csum c }) :=
          ih body { e with csum := csumTx csum e.csum c } (by simp [harm])
        generalize scan d csum room body [] e.csumLeft { e with csum := csumTx csum e.csum c } = r
          at hrec ⊢
        rw [← htail] at hrec
        obtain ⟨hrun, hdelim, hcursor⟩ := hrec.cons (e := e) hc rfl
        refine ⟨hrun, hdelim, hcursor, ?_, ?_, ?_⟩
        · rw [htail, ← hrec.tail, show ∀ n m : Nat, n + 1 + m = n + m + 1 by omega,
            List.drop_succ_cons]
        · intro h
          have := hrec.armed h
          simp only [List.length_cons]
          omega
        · intro h
          obtain ⟨_, hle, hleft⟩ := hrec.unarmed h
          refine ⟨harm, ?_, hleft⟩
          simp only [List.length_cons]
          omega

/-! ### The turns of the loop -/

theorem encCode_spec {d : UInt8} {csum : Option (Csum b)} {e : Enc b} (h : e.Ok csum) (hs : e.state = .code) :
    (encCode d csum e).1.Ok csum ∧ (encCode d csum e).1.state = .data ∧
      e.wire d csum = (encCode d csum e).2 :: (encCode d csum e).1.wire d csum := by
  have hsc : Scanned d csum blockMax e.body (e.body ++ e.tail csum e.body) e
      (scan d csum blockMax e.ptr e.payload e.csumLeft e) := by
    rw [scan_segments]
    exact scan_spec d csum blockMax e.body e (h.code hs)
  have hp : e.pending csum = e.body ++ e.tail csum e.body := by rw [Enc.pending, hs]
  have hw : e.wire d csum = encode d (e.pending csum) ++ [d] := by rw [Enc.wire, hs]
  rw [← hp] at hsc
  rw [encCode]
  generalize scan d csum blockMax e.ptr e.payload e.csumLeft e = r at hsc ⊢
  have hrun : r.1 = (run d (e.pending csum)).length := hsc.run
  set e' : Enc b := { r.2.2 with delim := r.2.1, full := r.1 = blockMax, run := r.1, state := .data }
    with he'
  have hb' : e'.body = e.body := by
    rw [he', hsc.cursor]
    rfl
  have hp' : e'.pending csum = e.pending csum := by
    rw [Enc.pending, hb', hp]
    exact congrArg _ hsc.tail
  have hadd := length_run_add (d := d) (e.pending csum)
  refine ⟨⟨(by rintro ⟨⟩), (by rintro ⟨⟩), ?_, ?_, ?_, ?_⟩, rfl, ?_⟩
  · intro _ ha
    obtain ⟨hne, _, hleft⟩ := hsc.unarmed ha
    exact hleft.trans (h.unarmed (by simp [hs]) hne)
  · intro _ ha
    rw [hb']
    exact hsc.armed ha
  · intro _ ha
    rw [hb']
    exact (hsc.unarmed ha).2.1
  · intro _
    rw [hp']
    change r.1 + r.2.1.toNat ≤ _
    rw [hsc.delim]
    by_cases hd : r.1 < blockMax ∧ r.1 < (e.pending csum).length
    · simp only [hd, and_self, decide_true, Bool.toNat_true]
      omega
    · simp only [hd, decide_false, Bool.toNat_false]
      omega
  · have htake : (e.pending csum).take (run d (e.pending csum)).length = run d (e.pending csum) :=
      (List.prefix_iff_eq_take.mp (isPrefix_run _)).symm
    have hw' : e'.wire d csum = run d (e.pending csum) ++
        e'.after d ((e.pending csum).drop (run d (e.pending csum)).length) := by
      have hn : e'.run = (run d (e.pending csum)).length := hrun
      change (e'.pending csum).take e'.run ++ e'.after d ((e'.pending csum).drop e'.run) = _
      rw [hp', hn, htake]
    have hd : e'.delim = decide (r.1 < blockMax ∧ r.1 < (e.pending csum).length) := hsc.delim
    have hf : e'.full = decide (r.1 = blockMax) := rfl
    rw [hw, hw', ← List.cons_append, hrun]
    rw [hrun] at hd hf
    have hle := run_length_le (d := d) (e.pending csum)
    cases hdrop : (e.pending csum).drop (run d (e.pending csum)).length with
    | nil =>
      rw [hdrop, List.length_nil] at hadd
      have hdf : e'.delim = false := by
        rw [hd, decide_eq_false_iff_not]
        omega
      rw [encode_of_end hdrop, Enc.after, if_neg (by simp [hdf]), if_neg (by simp)]
    | cons c t =>
      rw [hdrop, List.length_cons] at hadd
      by_cases hfull : (run d (e.pending csum)).length = blockMax
      · have hdf : e'.delim = false := by
          rw [hd, decide_eq_false_iff_not]
          omega
        rw [encode_of_full hdrop hfull, Enc.after, if_neg (by simp [hdf]),
          if_pos ⟨by simp [hf, hfull], by simp⟩]
        simp
      · have hdt : e'.delim = true := by
          rw [hd, decide_eq_true_iff]
          omega
        rw [encode_of_delim hdrop hfull, Enc.after, if_pos hdt]
        simp

theorem encStart_spec (d : UInt8) (csum : Option (Csum b)) {e : Enc b} (h : e.Ok csum) (hs : e.state = .idle)
    (hh : e.hdr ≠ []) :
    (encStart csum e).Ok csum ∧ (encStart csum e).state = .code ∧
      (encStart csum e).wire d csum = e.wire d csum := by
  have ha : (encStart csum e).armed = false := h.idle hs
  refine ⟨⟨(by rintro ⟨⟩), ?_, fun _ _ => rfl, (by rintro ⟨⟩), (by rintro ⟨⟩), (by rintro ⟨⟩)⟩,
    rfl, ?_⟩
  · intro _ h'
    rw [ha] at h'
    cases h'
  · have hbody : (encStart csum e).body = e.hdr ++ e.payload := rfl
    rw [Enc.wire, Enc.wire, hs]
    simp only [hh, if_false, encStart]
    change encode d ((encStart csum e).body ++ (encStart csum e).tail csum (encStart csum e).body) ++ _ = _
    rw [Enc.tail, if_neg (by simp [ha]), hbody, frameOf_eq csum _ e.csum]
    rfl

@[simp] theorem nextSegment_body (e : Enc b) : (nextSegment e).body = e.body := by
  rw [nextSegment]
  split
  · rename_i h
    simp only [Bool.and_eq_true, List.isEmpty_iff] at h
    simp [Enc.body, h.1]
  · rfl

theorem nextSegment_cursor (e : Enc b) : nextSegment e =
    { e with ptr := (nextSegment e).ptr, payload := (nextSegment e).payload } := by
  rw [nextSegment]
  split
  · rfl
  · rfl

theorem nextSegment_ptr {e : Enc b} (h : (nextSegment e).ptr = []) : e.body = [] := by
  rw [nextSegment] at h
  split at h
  · rename_i hc
    simp only [Bool.and_eq_true, Bool.not_eq_true', List.isEmpty_eq_false_iff] at hc
    exact absurd h hc.2
  · rename_i hc
    rw [Enc.body, h, List.nil_append]
    by_contra hp
    exact hc (by simp [h, hp])

/-- What a stretch of the replay leaves: the group and the frame are shorter by what it put out. -/
structure Replayed (csum : Option (Csum b)) (n : Nat) (e e' : Enc b) : Prop where
  ok : e'.Ok csum
  state : e'.state = .data
  run : e'.run = e.run - n
  full : e'.full = e.full
  delim : e'.delim = e.delim
  pending : e'.pending csum = (e.pending csum).drop n

theorem replayed_body {csum : Option (Csum b)} {e : Enc b} (h : e.Ok csum) (hs : e.state = .data)
    (hr : e.run ≠ 0) {c : UInt8} {ptr pay : List UInt8} (hb : e.body = c :: (ptr ++ pay)) :
    (e.pending csum).head? = some c ∧
      Replayed csum 1 e { e with ptr := ptr, payload := pay, run := e.run - 1 } := by
  have hp : e.pending csum = c :: ((ptr ++ pay) ++
      e.tail csum ((ptr ++ pay).drop (e.run - 1 + e.delim.toNat))) := by
    rw [Enc.pending, hs, hb, Enc.scanned]
    simp only
    rw [show e.run + e.delim.toNat = e.run - 1 + e.delim.toNat + 1 by omega, List.drop_succ_cons]
    rfl
  have hp' : Enc.pending csum { e with ptr := ptr, payload := pay, run := e.run - 1 } =
      (e.pending csum).drop 1 := by
    rw [hp, Enc.pending, hs]
    rfl
  refine ⟨by rw [hp]; rfl, ⟨⟨?_, ?_, ?_, ?_, ?_, ?_⟩, hs, rfl, rfl, rfl, hp'⟩⟩
  · intro hi
    rw [show e.state = .idle from hi] at hs
    cases hs
  · intro hi
    rw [show e.state = .code from hi] at hs
    cases hs
  · exact h.unarmed
  · intro _ ha
    have := h.data hs ha
    rw [hb] at this
    change (ptr ++ pay).length ≤ e.run - 1
    simp only [List.length_cons] at this
    omega
  · intro _ ha
    have := h.scanned hs ha
    rw [hb] at this
    change e.run - 1 + e.delim.toNat ≤ (ptr ++ pay).length
    simp only [Enc.scanned, List.length_cons] at this
    omega
  · intro _
    have := h.pending hs
    rw [hp']
    change e.run - 1 + e.delim.toNat ≤ _
    simp only [Enc.scanned, List.length_drop] at this ⊢
    omega

theorem replayed_csum {csum : Option (Csum b)} {e : Enc b} (h : e.Ok csum) (hs : e.state = .data)
    (hr : e.run ≠ 0) (hb : e.body = []) :
    e.csumLeft ≠ 0 ∧ (e.pending csum).head? = some (lowOctet e.csum) ∧ Replayed csum 1 e
      { e with csum := e.csum >>> 8, csumLeft := e.csumLeft - 1, run := e.run - 1 } := by
  have ha : e.armed = true := by
    by_contra ha
    rw [Bool.not_eq_true] at ha
    have := h.scanned hs ha
    simp only [hb, Enc.scanned, List.length_nil] at this
    omega
  have hp : e.pending csum = lowOctets e.csum e.csumLeft := by
    rw [Enc.pending, hs]
    simp only
    rw [hb, Enc.tail, if_pos ha, List.nil_append]
  have hlen := h.pending hs
  rw [hp, length_lowOctets, Enc.scanned] at hlen
  obtain ⟨k, hk⟩ : ∃ k, e.csumLeft = k + 1 := ⟨e.csumLeft - 1, by omega⟩
  have hp' : Enc.pending csum
      { e with csum := e.csum >>> 8, csumLeft := e.csumLeft - 1, run := e.run - 1 } =
      (e.pending csum).drop 1 := by
    rw [hp, hk, lowOctets, Enc.pending, hs]
    simp only
    rw [Enc.tail, if_pos ha]
    change e.body ++ _ = _
    rw [hb]
    rfl
  refine ⟨by omega, by rw [hp, hk]; rfl, ⟨⟨?_, ?_, ?_, ?_, ?_, ?_⟩, hs, rfl, rfl, rfl, hp'⟩⟩
  · intro hi
    rw [show e.state = .idle from hi] at hs
    cases hs
  · intro _ _
    exact hb
  · intro _ hn
    rw [show e.armed = false from hn] at ha
    cases ha
  · intro _ _
    change e.body.length ≤ _
    rw [hb]
    exact Nat.zero_le _
  · intro _ hn
    rw [show e.armed = false from hn] at ha
    cases ha
  · intro _
    rw [hp', hp, hk]
    change e.run - 1 + e.delim.toNat ≤ _
    simp only [List.length_drop, length_lowOctets]
    omega

theorem Replayed.trans {csum : Option (Csum b)} {n m : Nat} {e e' e'' : Enc b}
    (h : Replayed csum n e e') (h' : Replayed csum m e' e'') : Replayed csum (n + m) e e'' where
  ok := h'.ok
  state := h'.state
  run := by rw [h'.run, h.run, Nat.sub_sub]
  full := h'.full.trans h.full
  delim := h'.delim.trans h.delim
  pending := by rw [h'.pending, h.pending, List.drop_drop]

theorem nextSegment_of_body {e : Enc b} (h : e.body = []) : nextSegment e = e := by
  obtain ⟨_, hpay⟩ := List.append_eq_nil_iff.mp h
  rw [nextSegment, if_neg (by simp [hpay])]

theorem replay_csum (csum : Option (Csum b)) (room : Nat) {e : Enc b} (hr : e.run ≠ 0)
    (hb : e.body = []) (hl : e.csumLeft ≠ 0) :
    replay csum (room + 1) e =
      let r := replay csum room
        { e with csum := e.csum >>> 8, csumLeft := e.csumLeft - 1, run := e.run - 1 }
      (r.1, lowOctet e.csum :: r.2) := by
  obtain ⟨hptr, _⟩ := List.append_eq_nil_iff.mp hb
  rw [replay, if_neg hr, nextSegment_of_body hb]
  cases e
  cases hptr
  simp only [hl, decide_false, Bool.false_and, Bool.false_eq_true, if_false]

theorem skipDelim_csum {e : Enc b} (hb : e.body = []) (hl : e.csumLeft ≠ 0) :
    skipDelim e = { e with csum := e.csum >>> 8, csumLeft := e.csumLeft - 1 } := by
  obtain ⟨hptr, _⟩ := List.append_eq_nil_iff.mp hb
  rw [skipDelim, nextSegment_of_body hb]
  cases e
  cases hptr
  exact if_pos hl

theorem replay_spec (csum : Option (Csum b)) (room : Nat) :
    ∀ {e : Enc b}, e.Ok csum → e.state = .data →
      (replay csum room e).2 = (e.pending csum).take (min room e.run) ∧
        Replayed csum (min room e.run) e (replay csum room e).1 := by
  induction room with
  | zero =>
    intro e h hs
    rw [replay, Nat.zero_min]
    exact ⟨rfl, h, hs, rfl, rfl, rfl, rfl⟩
  | succ room ih =>
    intro e h hs
    by_cases hr : e.run = 0
    · rw [replay, if_pos hr, hr, Nat.min_zero]
      exact ⟨rfl, h, hs, hr.trans (by omega), rfl, rfl, rfl⟩
    · have hmin : min (room + 1) e.run = 1 + min room (e.run - 1) := by omega
      have hbody := nextSegment_body e
      have hcursor := nextSegment_cursor e
      -- what one octet `c` leaves, the rest of the group follows
      have hstep : ∀ {c : UInt8} {e' : Enc b}, (e.pending csum).head? = some c →
          Replayed csum 1 e e' →
          c :: (replay csum room e').2 = (e.pending csum).take (min (room + 1) e.run) ∧
            Replayed csum (min (room + 1) e.run) e (replay csum room e').1 := by
        intro c e' hc hrep
        obtain ⟨hout, hrest⟩ := ih hrep.ok hrep.state
        rw [hrep.run] at hout hrest
        rw [hmin]
        refine ⟨?_, hrep.trans hrest⟩
        obtain ⟨t, ht⟩ := List.head?_eq_some_iff.mp hc
        rw [hout, hrep.pending, ht, Nat.add_comm 1, List.take_succ_cons]
        rfl
      cases hptr : (nextSegment e).ptr with
      | cons c ptr =>
        rw [replay, if_neg hr]
        simp only [hptr]
        have hb : e.body = c :: (ptr ++ (nextSegment e).payload) := by
          rw [← hbody, Enc.body, hptr]
          rfl
        obtain ⟨hc, hrep⟩ := replayed_body h hs hr hb
        have he : ({ nextSegment e with ptr := ptr, run := (nextSegment e).run - 1 } : Enc b) =
            { e with ptr := ptr, payload := (nextSegment e).payload, run := e.run - 1 } := by
          rw [hcursor]
        rw [he]
        exact hstep hc hrep
      | nil =>
        have hb := nextSegment_ptr hptr
        obtain ⟨hleft, hc, hrep⟩ := replayed_csum h hs hr hb
        rw [replay_csum csum room hr hb hleft]
        exact hstep hc hrep

theorem skipDelim_spec {csum : Option (Csum b)} {e : Enc b} (h : e.Ok csum) (hs : e.state = .data)
    (hr : e.run = 0) (hd : e.delim = true) :
    Enc.Ok csum { skipDelim e with state := .code } ∧
      Enc.pending csum { skipDelim e with state := .code } = (e.pending csum).drop 1 := by
  have hscan : e.scanned = 1 := by simp [Enc.scanned, hr, hd]
  have hbody := nextSegment_body e
  have hcursor := nextSegment_cursor e
  cases hptr : (nextSegment e).ptr with
  | cons c ptr =>
    rw [skipDelim]
    simp only [hptr]
    have hb : e.body = c :: (ptr ++ (nextSegment e).payload) := by
      rw [← hbody, Enc.body, hptr]
      rfl
    have ha : e.armed = false := by
      by_contra ha
      rw [Bool.not_eq_false] at ha
      have := h.data hs ha
      rw [hb, hr] at this
      simp at this
    have he : ({ nextSegment e with ptr := ptr, state := .code } : Enc b) =
        { e with ptr := ptr, payload := (nextSegment e).payload, state := .code } := by
      rw [hcursor]
    rw [he]
    refine ⟨⟨(by rintro ⟨⟩), ?_, fun _ => h.unarmed (by simp [hs]), (by rintro ⟨⟩), (by rintro ⟨⟩),
      (by rintro ⟨⟩)⟩, ?_⟩
    · intro _ h'
      rw [show e.armed = true from h'] at ha
      cases ha
    · rw [Enc.pending, Enc.pending, hs]
      simp only
      rw [hscan, hb, List.drop_succ_cons, List.drop_zero, List.cons_append, List.drop_succ_cons,
        List.drop_zero]
      rfl
  | nil =>
    have hb := nextSegment_ptr hptr
    have ha : e.armed = true := by
      by_contra ha
      rw [Bool.not_eq_true] at ha
      have := h.scanned hs ha
      rw [hb, hscan] at this
      simp at this
    have hp : e.pending csum = lowOctets e.csum e.csumLeft := by
      rw [Enc.pending, hs]
      simp only
      rw [hb, Enc.tail, if_pos ha, List.nil_append]
    have hlen := h.pending hs
    rw [hp, length_lowOctets, hscan] at hlen
    obtain ⟨k, hk⟩ : ∃ k, e.csumLeft = k + 1 := ⟨e.csumLeft - 1, by omega⟩
    rw [skipDelim_csum hb (by omega)]
    refine ⟨⟨(by rintro ⟨⟩), fun _ _ => hb, ?_, (by rintro ⟨⟩), (by rintro ⟨⟩), (by rintro ⟨⟩)⟩, ?_⟩
    · intro _ hn
      rw [show e.armed = false from hn] at ha
      cases ha
    · rw [hp, hk, lowOctets, Enc.pending]
      simp only
      rw [Enc.tail, if_pos ha]
      change e.body ++ _ = _
      rw [hb]
      rfl

theorem moreLeft_iff {csum : Option (Csum b)} {e : Enc b} (h : e.Ok csum) (hs : e.state = .data)
    (hr : e.run = 0) (hd : e.delim = false) : moreLeft csum e = true ↔ e.pending csum ≠ [] := by
  have hscan : e.scanned = 0 := by simp [Enc.scanned, hr, hd]
  have hp : e.pending csum = e.ptr ++ e.payload ++ e.tail csum e.body := by
    rw [Enc.pending, hs]
    simp only
    rw [hscan, List.drop_zero]
    rfl
  rw [hp, moreLeft, Ne, List.append_eq_nil_iff, List.append_eq_nil_iff]
  cases ha : e.armed with
  | true =>
    rw [Enc.tail, if_pos ha, ← List.length_eq_zero_iff (l := lowOctets ..), length_lowOctets]
    simp only [Bool.not_true, Bool.false_and, Bool.or_false, Bool.or_eq_true, Bool.not_eq_true',
      List.isEmpty_eq_false_iff, bne_iff_ne]
    tauto
  | false =>
    rw [Enc.tail, if_neg (by simp [ha]), ← List.length_eq_zero_iff (l := csumWire ..),
      length_csumWire, h.unarmed (by simp [hs]) ha]
    simp only [bne_self_eq_false, Bool.or_false, Bool.not_false, Bool.true_and, Bool.or_eq_true,
      Bool.not_eq_true', List.isEmpty_eq_false_iff, bne_iff_ne]
    tauto

theorem encInit_ok (csum : Option (Csum b)) (e : Enc b) : (encInit e).Ok csum where
  idle _ := rfl
  code := by rintro ⟨⟩
  unarmed := by
    intro h
    exact absurd rfl h
  data := by rintro ⟨⟩
  scanned := by rintro ⟨⟩
  pending := by rintro ⟨⟩

/-- Turns that a group opened may still take without putting an octet out. -/
def Enc.rank (e : Enc b) : Nat := if e.state = .data then 1 else 0

theorem encData_spec {d : UInt8} {csum : Option (Csum b)} {e : Enc b} {room : Nat} (h : e.Ok csum)
    (hs : e.state = .data) (hroom : 0 < room) :
    Stream.Turn (Enc.Ok csum) (Enc.wire d csum) Enc.rank room e (encData d csum room e) := by
  obtain ⟨hout, hrep⟩ := replay_spec csum room h hs
  have hle := h.pending hs
  have hlen : (replay csum room e).2.length = min room e.run := by
    rw [hout, List.length_take]
    simp only [Enc.scanned] at hle
    omega
  have hw : e.wire d csum =
      (e.pending csum).take e.run ++ e.after d ((e.pending csum).drop e.run) := by
    rw [Enc.wire, hs]
  rw [encData]
  generalize replay csum room e = r at hout hrep hlen ⊢
  have hrank : e.rank = 1 := if_pos hs
  have hleaves : ∀ (e' : Enc b) (n : Nat), e'.state ≠ .data → e'.rank < e.rank + 2 * n := by
    intro e' n hne
    rw [Enc.rank, if_neg hne]
    omega
  have hafter : ∀ rest, r.1.after d rest = e.after d rest := by
    intro rest
    rw [Enc.after, Enc.after, hrep.delim, hrep.full]
  simp only
  split
  · -- the buffer is full, or will be before the group is sent
    rename_i hc
    rw [hrep.run] at hc
    have hrank' : r.1.rank = 1 := if_pos hrep.state
    refine ⟨hrep.ok, ?_, by omega, by omega⟩
    have hw' : r.1.wire d csum = (r.1.pending csum).take r.1.run ++
        r.1.after d ((r.1.pending csum).drop r.1.run) := by
      rw [Enc.wire, hrep.state]
    rw [hw, hw', hafter, hrep.pending, hrep.run, hout, List.drop_drop,
      Nat.add_sub_cancel' (Nat.min_le_right ..), ← List.append_assoc]
    congr 1
    conv_lhs => rw [show e.run = min room e.run + (e.run - min room e.run) by omega]
    rw [List.take_add]
  · rename_i hc
    have hr : r.1.run = 0 := by omega
    have hn : min room e.run = e.run := by omega
    rw [hn] at hout hrep hlen
    have hfits : r.2.length ≤ room := by omega
    split
    · -- the octet the group stopped on is passed
      rename_i hd
      obtain ⟨hok, hp⟩ := skipDelim_spec hrep.ok hrep.state hr hd
      refine ⟨hok, ?_, hfits, hleaves _ _ (by rintro ⟨⟩)⟩
      change _ = _ ++ (encode d (Enc.pending csum { skipDelim r.1 with state := .code }) ++ _)
      rw [hp, hrep.pending, hout, hw, Enc.after, if_pos (hrep.delim ▸ hd)]
    · rename_i hd
      rw [Bool.not_eq_true] at hd
      have hmore := moreLeft_iff hrep.ok hrep.state hr hd
      split
      · -- a full group, and something follows
        rename_i hf
        rw [Bool.and_eq_true, hmore, hrep.pending, hrep.full] at hf
        have hscan : r.1.scanned = 0 := by simp [Enc.scanned, hr, hd]
        have hp : Enc.pending csum { r.1 with state := .code } = r.1.pending csum := by
          rw [Enc.pending, Enc.pending, hrep.state]
          simp only
          rw [hscan, List.drop_zero]
          rfl
        refine ⟨⟨(by rintro ⟨⟩), ?_, fun _ => hrep.ok.unarmed (by simp [hrep.state]),
          (by rintro ⟨⟩), (by rintro ⟨⟩), (by rintro ⟨⟩)⟩, ?_, hfits, hleaves _ _ (by rintro ⟨⟩)⟩
        · intro _ ha
          have := hrep.ok.data hrep.state ha
          rw [hr] at this
          exact List.length_eq_zero_iff.mp (Nat.le_zero.mp this)
        · change _ = _ ++ (encode d (Enc.pending csum { r.1 with state := .code }) ++ _)
          rw [hp, hrep.pending, hout, hw, Enc.after, if_neg (by simp [← hrep.delim, hd]), if_pos hf]
      · -- the frame ends
        rename_i hf
        rw [Bool.and_eq_true, hmore, hrep.pending, hrep.full] at hf
        refine ⟨encInit_ok csum r.1, ?_, ?_, hleaves _ _ (by rintro ⟨⟩)⟩
        · have hi : (encInit r.1).wire d csum = [] := rfl
          rw [hi, hout, hw, Enc.after, if_neg (by simp [← hrep.delim, hd]), if_neg hf,
            List.append_nil]
        · simp only [List.length_append, List.length_singleton]
          omega

theorem wire_of_idle {d : UInt8} {csum : Option (Csum b)} {e : Enc b} (h : encBusy e = false) :
    e.wire d csum = [] := by
  rw [encBusy, Bool.or_eq_false_iff] at h
  have hs : e.state = .idle := by simpa using h.1
  have hh : e.hdr = [] := by simpa using h.2
  rw [Enc.wire, hs]
  exact if_pos hh

theorem encTurn_spec {d : UInt8} {csum : Option (Csum b)} {e : Enc b} {room : Nat} (h : e.Ok csum)
    (hb : encBusy e = true) (hroom : 0 < room) :
    Stream.Turn (Enc.Ok csum) (Enc.wire d csum) Enc.rank room e (encTurn d csum room e) := by
  rw [encTurn]
  cases hs : e.state with
  | idle =>
    have hh : e.hdr ≠ [] := by
      intro hh
      rw [encBusy, hs, hh] at hb
      cases hb
    obtain ⟨hok, hst, hwire⟩ := encStart_spec d csum h hs hh
    obtain ⟨hok', hst', hwire'⟩ := encCode_spec hok hst
    simp only [List.isEmpty_iff, hh, if_false]
    refine ⟨hok', by rw [← hwire, hwire']; rfl, hroom, ?_⟩
    rw [Enc.rank, if_pos hst', List.length_singleton]
    omega
  | code =>
    obtain ⟨hok', hst', hwire'⟩ := encCode_spec h hs
    refine ⟨hok', hwire', hroom, ?_⟩
    rw [Enc.rank, if_pos hst', List.length_singleton]
    omega
  | data => exact encData_spec h hs hroom

/-- A call of `ludlc_cobs_enc_fill` fills the buffer with what comes next, as far as there is any. -/
theorem encFill_spec (d : UInt8) (csum : Option (Csum b)) {e : Enc b} (h : e.Ok csum) (cap : Nat) :
    ∃ e', encFill d csum e cap = some (e', (e.wire d csum).take cap) ∧ e'.Ok csum ∧
      e'.wire d csum = (e.wire d csum).drop cap ∧ (e.wire d csum = [] → 0 < cap → encBusy e' = false) := by
  refine Stream.fillLoop_spec (fun _ _ => wire_of_idle) (fun _ _ => encTurn_spec) _ e cap h ?_
  rw [Enc.rank]
  split
  · omega
  · omega

/-- What a packet comes to on the wire. -/
def wireWith (d : UInt8) (csum : Option (Csum b)) (p : TxPacket) : List UInt8 :=
  encode d (frameOf csum p.octets) ++ [d]

/-- The same with the default delimiter. -/
def wireOf (csum : Option (Csum b)) (p : TxPacket) : List UInt8 :=
  encode delimiter (frameOf csum p.octets) ++ [delimiter]

theorem encPrep_spec {d : UInt8} {csum : Option (Csum b)} {e : Enc b} {p : TxPacket} (h : e.Ok csum)
    (hb : encBusy e = false) (hp : p.hdr ≠ []) :
    (encPrep e p).Ok csum ∧ (encPrep e p).wire d csum = wireWith d csum p := by
  rw [encBusy, Bool.or_eq_false_iff] at hb
  have hidle : e.state = .idle := by simpa using hb.1
  have hs : (encPrep e p).state = .idle := hidle
  constructor
  · constructor
    · exact h.idle
    · intro hd
      rw [hs] at hd
      cases hd
    · exact h.unarmed
    · intro hd
      rw [hs] at hd
      cases hd
    · intro hd
      rw [hs] at hd
      cases hd
    · intro hd
      rw [hs] at hd
      cases hd
  · rw [Enc.wire, hs]
    exact if_neg hp

/-- The encoder of a link. -/
def writerWith (d : UInt8) (csum : Option (Csum b)) : Stream.Writer (Enc b) TxPacket UInt8 where
  load := encPrep
  busy := encBusy
  fill := encFill d csum

def writerWith_lawful (d : UInt8) (csum : Option (Csum b)) :
    (writerWith d csum).Lawful (fun p => p.hdr ≠ []) (wireWith d csum) where
  Inv e := e.Ok csum
  left e := e.wire d csum
  idle _ _ := wire_of_idle
  load _ _ h hb hp := encPrep_spec h hb hp
  fill e cap h _ hcap := by
    obtain ⟨e', hfill, hok, hwire, hlast⟩ := encFill_spec d csum h cap
    exact ⟨e', hfill, hok, hwire, fun hnil => hlast hnil hcap⟩

/-- The encoder of a link of a build with the default delimiter. -/
def writer (csum : Option (Csum b)) : Stream.Writer (Enc b) TxPacket UInt8 where
  load := encPrep
  busy := encBusy
  fill := encFill delimiter csum

def writer_lawful (csum : Option (Csum b)) :
    (writer csum).Lawful (fun p => p.hdr ≠ []) (wireOf csum) := writerWith_lawful delimiter csum

end Ludlc.Cobs
