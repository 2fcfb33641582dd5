import Ludlc.InOrder
import Ludlc.Framing.Decodes
import Ludlc.Sized

/-! # Two ends and lines of octets between them

The cores over their transports: a frame the core hands over goes through the encoder, the FIFO, the line
and the decoder of the peer, in pieces of any size and against everything else the two ends do. What the
cores see of it is the channel that keeps the order of the frames.
-/

namespace Ludlc

open SeqNum Runs

variable {w : Wire} {β : Type} {b : Nat}

/-- How a build lays out `struct ludlc_packet_hdr`, and reads it in a buffer. -/
structure Layout (w : Wire) where
  ids : WireId w.idBits → WireId w.idBits → List UInt8
  chan : Channel w → List UInt8
  read : List UInt8 → PacketHdr w
  length_ids : ∀ t a, (ids t a).length = w.pingSz
  length_chan : ∀ c, (chan c).length = w.hdrSz - w.pingSz
  read_ids : ∀ t a rest, (read (ids t a ++ rest)).txId = t ∧ (read (ids t a ++ rest)).ackId = a
  read_chan : ∀ t a c rest, (read (ids t a ++ (chan c ++ rest))).chan = c

namespace Layout

variable (Y : Layout w)

/-- The octets of a header. -/
def hdr (h : PacketHdr w) : List UInt8 := Y.ids h.txId h.ackId ++ Y.chan h.chan

/-- A receive buffer as `ludlc_packet_t`. -/
def packet (octets : List UInt8) (src : Option Nat) : Packet w :=
  ⟨Y.read octets, octets.drop w.hdrSz, src⟩

theorem pingSz_lt (w : Wire) : w.pingSz < w.hdrSz := w.sz_ok.2

theorem length_hdr (h : PacketHdr w) : (Y.hdr h).length = w.hdrSz := by
  have hlt := pingSz_lt w
  rw [hdr, List.length_append, Y.length_ids, Y.length_chan]
  omega

theorem read_hdr (h : PacketHdr w) (rest : List UInt8) : Y.read (Y.hdr h ++ rest) = h := by
  rw [hdr, List.append_assoc]
  obtain ⟨htx, hack⟩ := Y.read_ids h.txId h.ackId (Y.chan h.chan ++ rest)
  have hchan := Y.read_chan h.txId h.ackId h.chan rest
  generalize Y.read (Y.ids h.txId h.ackId ++ (Y.chan h.chan ++ rest)) = r at htx hack hchan
  cases r
  cases h
  simp_all

end Layout

/-- What `ludlc_enc_prep` is handed of a frame: so many octets of `tx_hdr` and of the payload. -/
def TxFrame.txPacket (Y : Layout w) {cfg : Cfg w} (f : TxFrame w β) (c : Conn cfg β) : TxPacket where
  hdr := (Y.hdr c.txHdr).take f.hdrSz
  payload := (f.octets c).take f.paySz

/-! ## A frame as octets -/

/-- The octets of a frame, a PING's those of its IDs alone. -/
def Frame.octets (Y : Layout w) (f : Frame w) : List UInt8 :=
  if f.size < w.hdrSz then Y.ids f.pkt.hdr.txId f.pkt.hdr.ackId else Y.hdr f.pkt.hdr ++ f.pkt.payload

/-- The size of a frame tells what is in it. -/
inductive Frame.Whole (f : Frame w) : Prop
  | ping : f.pkt.hdr.txId.flag = true → f.size = w.pingSz → f.pkt.payload = [] → f.Whole
  | full : f.size = w.hdrSz + f.pkt.payload.length → f.Whole

section Frames

variable {Y : Layout w} {cfg : Cfg w} {c : Conn cfg β}

theorem Frame.Whole.length {f : Frame w} (h : f.Whole) : (f.octets Y).length = f.size := by
  have hlt := Layout.pingSz_lt w
  cases h with
  | ping _ hsz _ => rw [Frame.octets, if_pos (by omega), Y.length_ids, hsz]
  | full hsz => rw [Frame.octets, if_neg (by omega), List.length_append, Y.length_hdr, hsz]

/-- The frame a call hands over, and the same as its transport is handed it. -/
theorem TxFrame.Whole.frame {f : TxFrame w β} (h : f.Whole c) :
    (⟨f.packet c, f.hdrSz + f.paySz⟩ : Frame w).Whole ∧
      (f.txPacket Y c).octets = (⟨f.packet c, f.hdrSz + f.paySz⟩ : Frame w).octets Y := by
  have hlt := Layout.pingSz_lt w
  cases h with
  | ping hflag hsz hzero =>
    have hpay : (f.packet c).payload = [] := by simp [TxFrame.packet, hzero]
    refine ⟨.ping hflag (by rw [hsz, hzero]; rfl) hpay, ?_⟩
    rw [Frame.octets, if_pos (by simp only [hsz, hzero]; omega)]
    simp only [TxPacket.octets, TxFrame.txPacket, Layout.hdr, hsz, hzero, List.take_zero,
      List.append_nil, TxFrame.packet]
    rw [List.take_append_of_le_length (Y.length_ids ..).ge, ← Y.length_ids, List.take_length]
  | full hsz hlen hlim =>
    have hpay : (f.packet c).payload = (f.octets c).take f.paySz := rfl
    refine ⟨.full ?_, ?_⟩
    · rw [hpay, List.length_take, Nat.min_eq_left hlen, hsz]
    · rw [Frame.octets, if_neg (by simp only [hsz]; omega), TxPacket.octets, TxFrame.txPacket, hsz,
        ← Y.length_hdr c.txHdr, List.take_length]
      rfl

/-- A peer that carries as much takes the frame. -/
theorem TxFrame.Whole.fits {f : TxFrame w β} (h : f.Whole c) {cfg' : Cfg w} {csum : Option (Csum b)}
    (hlim : cfg.payloadLim ≤ cfg'.payloadLim) : (f.txPacket Y c).Fits cfg' csum := by
  have hlt := Layout.pingSz_lt w
  have htwo := two_le_pingSz w
  have hhdr : (f.txPacket Y c).hdr.length = min f.hdrSz w.hdrSz := by
    rw [TxFrame.txPacket, List.length_take, Y.length_hdr]
  have hpay : (f.txPacket Y c).payload.length ≤ f.paySz := List.length_take_le ..
  have hlen : (f.txPacket Y c).octets.length =
      (f.txPacket Y c).hdr.length + (f.txPacket Y c).payload.length := List.length_append ..
  cases h with
  | ping _ hsz hzero =>
    refine ⟨by omega, by omega, ?_⟩
    rw [connFrameSz]
    omega
  | full hsz _ hle =>
    refine ⟨by omega, by omega, ?_⟩
    rw [connFrameSz]
    omega

/-- No end looks at the channel of a PING. -/
theorem receive_chan (c : Conn cfg β) {p : Packet w} {pktSz : Nat} (hflag : p.hdr.txId.flag = true)
    (hsz : pktSz ≤ w.hdrSz) (chan : Channel w) (tstamp : Nat) :
    receive c { p with hdr := { p.hdr with chan := chan } } pktSz tstamp =
      receive c p pktSz tstamp := by
  have hlt : ¬ w.hdrSz < pktSz := by omega
  have hout : rxHandlePacket c { p with hdr := { p.hdr with chan := chan } } pktSz =
      rxHandlePacket c p pktSz := by
    simp [rxHandlePacket, rxDropped, isUPacket, isHshake, rxConnected, rxHandleHandshake, rxSequence,
      hflag, hlt]
  have hacc : (rxHandlePacket c p pktSz).ret.accept = false := by
    have hstep := rxHandlePacket_step c p pktSz
    generalize rxHandlePacket c p pktSz = r at hstep ⊢
    cases hstep with
    | dropped => rfl
    | handshake _ _ _ hno => exact hno
    | lastStep => rfl
    | down _ _ _ hno => exact hno
    | data ret a s _ _ _ _ hs hret =>
      rw [hret, hs]
      simp [rxSequence, hflag, isUPacket, hlt]
  simp only [receive, hout, receiveTodo, hacc, callIf, Bool.false_eq_true, if_false]

/-- What the octets of a frame are read as does to an end what the frame does. -/
theorem Frame.Whole.received {f : Frame w} (h : f.Whole) (c : Conn cfg β) (tstamp : Nat) :
    receive c (Y.packet (f.octets Y) f.pkt.src) (f.octets Y).length tstamp =
      receive c f.pkt f.size tstamp := by
  have hlt := Layout.pingSz_lt w
  rw [h.length]
  cases h with
  | ping hflag hsz hnil =>
    obtain ⟨htx, hack⟩ := Y.read_ids f.pkt.hdr.txId f.pkt.hdr.ackId []
    have hoct : f.octets Y = Y.ids f.pkt.hdr.txId f.pkt.hdr.ackId ++ [] := by
      rw [Frame.octets, if_pos (by omega), List.append_nil]
    have hpkt : Y.packet (f.octets Y) f.pkt.src =
        { f.pkt with hdr := { f.pkt.hdr with chan := (Y.read (f.octets Y)).chan } } := by
      have hpay : (f.octets Y).drop w.hdrSz = f.pkt.payload := by
        rw [hnil, List.drop_eq_nil_iff, hoct, List.append_nil, Y.length_ids]
        exact hlt.le
      rw [Layout.packet, hpay]
      congr 1
      rw [← hoct] at htx hack
      generalize Y.read (f.octets Y) = r at htx hack ⊢
      cases r
      simp_all
    rw [hpkt]
    exact receive_chan c hflag (by omega) _ tstamp
  | full hsz =>
    have hoct : f.octets Y = Y.hdr f.pkt.hdr ++ f.pkt.payload := by
      rw [Frame.octets, if_neg (by omega)]
    have hpkt : Y.packet (f.octets Y) f.pkt.src = f.pkt := by
      rw [hoct, Layout.packet, Y.read_hdr, ← Y.length_hdr f.pkt.hdr, List.drop_left]
    rw [hpkt]

end Frames

/-! ## Two ends over two lines -/

variable {cfg : Side → Cfg w} {cfg' : Cfg w} {csum : Option (Csum b)}

/-- The pipe of an end leads from its encoder to the decoder of its peer. `frames` are a history: those
an end has handed over whose octets its peer has not read to their end. -/
structure Wired {w : Wire} {b : Nat} (cfg : Side → Cfg w) (β : Type) {csum : Option (Csum b)}
    (F : (e : Side) → StreamFraming (cfg e.peer) csum) where
  conn : (e : Side) → Conn (cfg e) β
  pipe : (e : Side) → Stream.Pipe (F e).Enc (F e).Dec (TxPacket × Bool) (List UInt8) UInt8
  frames : Side → List (Frame w)
  due : Side → Bool

namespace Wired

variable {F : (e : Side) → StreamFraming (cfg e.peer) csum}

def init (F : (e : Side) → StreamFraming (cfg e.peer) csum) (β : Type) : Wired cfg β F where
  conn e := Conn.init (cfg e) β
  pipe e := .start _ _ _ ((F e).encInit (F e).enc) (F e).dec
  frames _ := []
  due _ := false

/-- A call at an end that neither sends nor receives; an end whose encoder is idle takes a packet; the
encoder fills a span of the FIFO; the port puts octets of it on the line; and an end has its decoder look at
octets that have arrived, with what its clock gives for a packet they complete. -/
inductive Move (w : Wire) (β : Type)
  | call (e : Side) (a : Call w β)
  | tx (e : Side)
  | fill (e : Side) (cap : Nat)
  | ship (e : Side) (n : Nat)
  | feed (e : Side) (n : Nat) (clock : Option Nat)

/-- An end `e` has made a call. -/
def after (s : Wired cfg β F) (e : Side) (o : Out (cfg e) β) (due : Bool) : Wired cfg β F where
  conn := Function.update s.conn e o.settle
  pipe := s.pipe
  frames := Function.update s.frames e (s.frames e ++ o.sent)
  due := Function.update s.due e due

def setPipe (s : Wired cfg β F) (e : Side)
    (p : Stream.Pipe (F e).Enc (F e).Dec (TxPacket × Bool) (List UInt8) UInt8) : Wired cfg β F :=
  { s with pipe := Function.update s.pipe e p }

/-- The frame that a call hands over goes into the encoder, and the next one behind it without an end
octet if there is one. -/
def load (Y : Layout w) (s : Wired cfg β F) (e : Side) (o : Out (cfg e) β) : Wired cfg β F :=
  match o.frame with
  | none => s
  | some f => s.setPipe e ((s.pipe e).load (F e).writer (f.txPacket Y o.conn, o.ret ≠ .ok))

/-- The oldest frame of an end is no longer on its way. -/
def pop (s : Wired cfg β F) (e : Side) : Wired cfg β F :=
  { s with frames := Function.update s.frames e (s.frames e).tail }

/-- A packet that the decoder has completed is received, or dropped where there is no timestamp for it. -/
def receive (Y : Layout w) (s : Wired cfg β F) (e : Side) (octets : List UInt8) :
    Option Nat → Wired cfg β F
  | none => s.pop e.peer
  | some tstamp =>
    let src := (s.frames e.peer).head?.bind (·.pkt.src)
    let o := Ludlc.receive (s.conn e) (Y.packet octets src) octets.length tstamp
    (s.pop e.peer).after e o (s.due e || o.requestTx)

def step (Y : Layout w) (mem : Side → β → List UInt8) (s : Wired cfg β F) :
    Move w β → Option (Wired cfg β F)
  | .call e a =>
    let o := a.run (s.conn e)
    if a.isLocal then some (s.after e o (s.due e || o.requestTx)) else none
  | .tx e =>
    let o := getPacketToSend (mem e) (s.conn e)
    if (F e).writer.busy (s.pipe e).enc then none
    else some ((s.load Y e o).after e o (o.requestTx || o.ret = .ok))
  | .fill e cap =>
    if (F e).writer.busy (s.pipe e).enc ∧ 0 < cap then
      ((s.pipe e).fill (F e).writer cap).map (s.setPipe e)
    else none
  | .ship e n => some (s.setPipe e ((s.pipe e).ship n))
  | .feed e n clock =>
    let p := s.pipe e.peer
    if p.line.take n = [] then none
    else
      let s' := s.setPipe e.peer (p.feed (F e.peer).reader n)
      match ((F e.peer).reader.call p.dec (p.line.take n)).2.2 with
      | [] => some s'
      | octets :: _ => some (s'.receive Y e octets clock)

/-- Callers hand over buffers with the octets they name. -/
def backed (mem : Side → β → List UInt8) : Move w β → Prop
  | .call e a => a.backed (mem e)
  | _ => True

instance (mem : Side → β → List UInt8) (a : Move w β) : Decidable (backed mem a) :=
  match a with
  | .call e a => inferInstanceAs (Decidable (a.backed (mem e)))
  | .tx _ | .fill _ _ | .ship _ _ | .feed _ _ _ => inferInstanceAs (Decidable True)

abbrev Reaches (F : (e : Side) → StreamFraming (cfg e.peer) csum) (Y : Layout w)
    (mem : Side → β → List UInt8) (s : Wired cfg β F) : Prop :=
  Reachable (init F β) (step Y mem) (fun _ a => backed mem a) s

/-- What the cores see: the frames between them. -/
def pair (s : Wired cfg β F) : Pair cfg β := ⟨s.conn, s.frames, s.due⟩

/-! ## The octets carry the frames -/

/-- One direction: the packets in the encoder and behind it are the frames handed over. -/
structure Carries (Y : Layout w) (F : StreamFraming cfg' csum)
    (p : Stream.Pipe F.Enc F.Dec (TxPacket × Bool) (List UInt8) UInt8) (frames : List (Frame w)) : Prop where
  pipe : p.Sound F.lawful F.steps F.dec
  octets : p.taken.map (fun r => r.1.octets) = p.got ++ frames.map (·.octets Y)
  whole : ∀ f ∈ frames, f.Whole

section Carries

variable {Y : Layout w} {F : StreamFraming cfg' csum} {frames : List (Frame w)}
  {p : Stream.Pipe F.Enc F.Dec (TxPacket × Bool) (List UInt8) UInt8}

theorem carries_start (e : F.Enc) : Carries Y F (.start _ _ _ (F.encInit e) F.dec) [] where
  pipe := .start (F.enc_inv e) (F.enc_idle e) F.dec_inv
  octets := rfl
  whole := by simp

theorem Carries.load (h : Carries Y F p frames) (hidle : F.writer.busy p.enc = false)
    {cfg : Cfg w} {c : Conn cfg β} {f : TxFrame w β} (hf : f.Whole c)
    (hlim : cfg.payloadLim ≤ cfg'.payloadLim) (last : Bool) :
    Carries Y F (p.load F.writer (f.txPacket Y c, last))
      (frames ++ [⟨f.packet c, f.hdrSz + f.paySz⟩]) := by
  obtain ⟨hwhole, hoctets⟩ := hf.frame (Y := Y)
  have hfits : (f.txPacket Y c).Fits cfg' csum := hf.fits hlim
  refine ⟨h.pipe.load hidle hfits, ?_, ?_⟩
  · simp only [Stream.Pipe.load, Stream.Pump.load, List.map_append, List.map_singleton, hoctets,
      h.octets, List.append_assoc]
  · intro g hg
    rcases List.mem_append.mp hg with hg | hg
    · exact h.whole g hg
    · obtain rfl := List.mem_singleton.mp hg
      exact hwhole

theorem Carries.fill (h : Carries Y F p frames) (hbusy : F.writer.busy p.enc = true) {cap : Nat}
    (hcap : 0 < cap) : ∃ p', p.fill F.writer cap = some p' ∧ Carries Y F p' frames := by
  obtain ⟨p', hp', hsound, htaken, hgot⟩ := h.pipe.fill hbusy hcap
  exact ⟨p', hp', hsound, by rw [htaken, hgot, h.octets], h.whole⟩

theorem Carries.ship (h : Carries Y F p frames) (n : Nat) : Carries Y F (p.ship n) frames :=
  ⟨h.pipe.ship n, h.octets, h.whole⟩

/-- A packet that the decoder completes is the oldest frame on its way. -/
theorem Carries.feed (h : Carries Y F p frames) {n : Nat} (hne : p.line.take n ≠ []) :
    (F.reader.call p.dec (p.line.take n)).2.2 = [] ∧ Carries Y F (p.feed F.reader n) frames ∨
      ∃ f rest, frames = f :: rest ∧
        (F.reader.call p.dec (p.line.take n)).2.2 = [f.octets Y] ∧
        Carries Y F (p.feed F.reader n) rest := by
  have hsound := h.pipe.feed F.prep_inv hne
  have hpart := hsound.got_first F.decodes
  have hgot : (p.feed F.reader n).got = p.got ++ (F.reader.call p.dec (p.line.take n)).2.2 := rfl
  have htaken : (p.feed F.reader n).taken = p.taken := rfl
  rw [htaken, hgot, h.octets] at hpart
  replace hpart := (List.prefix_append_right_inj _).mp hpart
  rcases F.reader.call_items p.dec (p.line.take n) with hnone | ⟨x, hx⟩
  · left
    refine ⟨hnone, hsound, ?_, h.whole⟩
    rw [htaken, hgot, hnone, List.append_nil, h.octets]
  · right
    rw [hx] at hpart
    cases frames with
    | nil => simp at hpart
    | cons f rest =>
      have hfirst : x = f.octets Y := by simpa using hpart
      refine ⟨f, rest, rfl, by rw [hx, hfirst], hsound, ?_, ?_⟩
      · rw [htaken, hgot, hx, h.octets, hfirst, List.map_cons, List.append_assoc]
        rfl
      · exact fun g hg => h.whole g (List.mem_cons_of_mem f hg)

end Carries

/-! ## The cores see frames -/

structure Inv (Y : Layout w) (mem : Side → β → List UInt8) (s : Wired cfg β F) : Prop where
  sized : ∀ e, (s.conn e).Sized (mem e)
  carries : ∀ e, Carries Y (F e) (s.pipe e) (s.frames e)

variable {Y : Layout w} {mem : Side → β → List UInt8} {s s' : Wired cfg β F}

theorem inv_init : Inv Y mem (init F β) := ⟨fun _ => sized_init, fun _ => carries_start _⟩

/-- A step of the wires is one of the frames, or none. -/
def Matches (mem : Side → β → List UInt8) (s s' : Wired cfg β F) : Prop :=
  s'.pair = s.pair ∨ ∃ m, Pair.step mem s.pair m = some s'.pair

/-- What happens on the pipe of one end. -/
theorem Inv.change (h : Inv Y mem s) (e : Side) (hsized : ∀ x, (s'.conn x).Sized (mem x))
    (hother : ∀ x, x ≠ e → s'.pipe x = s.pipe x ∧ s'.frames x = s.frames x)
    (hat : Carries Y (F e) (s'.pipe e) (s'.frames e)) : Inv Y mem s' where
  sized := hsized
  carries x := by
    by_cases hx : x = e
    · subst hx
      exact hat
    · obtain ⟨hpipe, hframes⟩ := hother x hx
      rw [hpipe, hframes]
      exact h.carries x

theorem Inv.setPipe (h : Inv Y mem s) (e : Side)
    {p : Stream.Pipe (F e).Enc (F e).Dec (TxPacket × Bool) (List UInt8) UInt8}
    (hp : Carries Y (F e) p (s.frames e)) : Inv Y mem (s.setPipe e p) := by
  have hsized : ∀ x, ((s.setPipe e p).conn x).Sized (mem x) := h.sized
  apply h.change e hsized
  · intro x hx
    exact ⟨Function.update_of_ne hx .., rfl⟩
  · simpa only [Wired.setPipe, Function.update_self] using hp

theorem Inv.sized_after (h : Inv Y mem s) (e : Side) {o : Out (cfg e) β}
    (ho : o.conn.Sized (mem e)) (x : Side) : (Function.update s.conn e o.settle x).Sized (mem x) :=
  (Function.forall_update_iff s.conn fun x c => c.Sized (mem x)).mpr
    ⟨ho.settle, fun x _ => h.sized x⟩ x

/-- A call that sends nothing. -/
theorem Inv.after (h : Inv Y mem s) (e : Side) {o : Out (cfg e) β} (ho : o.conn.Sized (mem e))
    (hsent : o.sent = []) (due : Bool) : Inv Y mem (s.after e o due) where
  sized := h.sized_after e ho
  carries x := by
    simp only [Wired.after, hsent, List.append_nil, Function.update_eq_self]
    exact h.carries x

/-- An end takes a packet, and its transport the octets of the frame. -/
theorem Inv.tx (h : Inv Y mem s) (hlim : ∀ e, (cfg e).payloadLim ≤ (cfg e.peer).payloadLim) (e : Side)
    (hidle : (F e).writer.busy (s.pipe e).enc = false) (due : Bool) :
    Inv Y mem ((s.load Y e (getPacketToSend (mem e) (s.conn e))).after e
      (getPacketToSend (mem e) (s.conn e)) due) := by
  have hsized := (h.sized e).getPacketToSend (mem e)
  have hwhole : ∀ f, (getPacketToSend (mem e) (s.conn e)).frame = some f →
      f.Whole (getPacketToSend (mem e) (s.conn e)).conn :=
    fun f hf => getPacketToSend_whole (mem e) (h.sized e) hf
  generalize getPacketToSend (mem e) (s.conn e) = o at hsized hwhole ⊢
  cases hf : o.frame with
  | none =>
    have hsent : o.sent = [] := by simp [Out.sent, hf]
    rw [Wired.load, hf]
    exact h.after e hsized hsent due
  | some f =>
    have hsent : o.sent = [⟨f.packet o.conn, f.hdrSz + f.paySz⟩] := by simp [Out.sent, hf]
    rw [Wired.load, hf]
    apply h.change e (h.sized_after e hsized)
    · intro x hx
      exact ⟨Function.update_of_ne hx .., Function.update_of_ne hx ..⟩
    · simp only [Wired.after, Wired.setPipe, Function.update_self, hsent]
      exact (h.carries e).load hidle (hwhole f hf) (hlim e) _

theorem pair_after (s : Wired cfg β F) (e : Side) (o : Out (cfg e) β) (due : Bool) :
    (s.after e o due).pair = s.pair.after e o due := rfl

theorem pair_load (s : Wired cfg β F) (e : Side) (o : Out (cfg e) β) : (s.load Y e o).pair = s.pair := by
  unfold Wired.load
  split <;> rfl

/-- The end takes the frame that its decoder has completed, or loses it. -/
theorem Inv.received (h : Inv Y mem s) (e : Side) {f : Frame w} {rest : List (Frame w)}
    (hframes : s.frames e.peer = f :: rest) {n : Nat}
    (hp : Carries Y (F e.peer) ((s.pipe e.peer).feed (F e.peer).reader n) rest) (clock : Option Nat) :
    let s' := (s.setPipe e.peer ((s.pipe e.peer).feed (F e.peer).reader n)).receive Y e (f.octets Y) clock
    Inv Y mem s' ∧ ∃ m, Pair.step mem s.pair m = some s'.pair := by
  have hwhole : f.Whole := (h.carries e.peer).whole f (by rw [hframes]; exact List.mem_cons_self)
  have htaken : Inv Y mem ((s.setPipe e.peer ((s.pipe e.peer).feed (F e.peer).reader n)).pop e.peer) := by
    refine h.change e.peer h.sized ?_ ?_
    · intro x hx
      exact ⟨Function.update_of_ne hx .., Function.update_of_ne hx ..⟩
    · simpa only [pop, Wired.setPipe, Function.update_self, hframes, List.tail_cons] using hp
  cases clock with
  | none =>
    refine ⟨htaken, .drop e.peer 0, ?_⟩
    simp only [Pair.step, Wired.receive, pop, Wired.setPipe, pair, hframes, List.eraseIdx_zero]
  | some tstamp =>
    have hsrc : (s.frames e.peer).head?.bind (·.pkt.src) = f.pkt.src := by rw [hframes]; rfl
    have hrecv := hwhole.received (Y := Y) (s.conn e) tstamp
    have hsized := (h.sized e).receive f.pkt f.size tstamp
    have hsent : (Ludlc.receive (s.conn e) f.pkt f.size tstamp).sent = [] := by
      simp [Out.sent, Ludlc.receive]
    simp only [Wired.receive, Wired.setPipe, hsrc, hrecv]
    refine ⟨htaken.after e hsized hsent _, .rx e tstamp, ?_⟩
    simp only [Pair.step, pair, hframes, pop, List.tail_cons]
    rfl

theorem Inv.step (h : Inv Y mem s) (hlim : ∀ e, (cfg e).payloadLim ≤ (cfg e.peer).payloadLim)
    (hpos : ∀ e, 0 < (cfg e).payloadLim) {a : Move w β} (ha : backed mem a)
    (hs : Wired.step Y mem s a = some s') : Inv Y mem s' ∧ Matches mem s s' := by
  cases a with
  | call e a =>
    simp only [Wired.step] at hs
    split at hs
    next hlocal =>
      cases hs
      have hsent := Pair.sent_local (s.conn e) hlocal
      refine ⟨h.after e ((h.sized e).run (hpos e) ha) hsent _, .inr ⟨.call e a, ?_⟩⟩
      simp only [Pair.step, if_pos hlocal]
      rfl
    next => cases hs
  | tx e =>
    simp only [Wired.step] at hs
    split at hs
    next => cases hs
    next hidle =>
      cases hs
      refine ⟨h.tx hlim e (Bool.eq_false_iff.mpr hidle) _, .inr ⟨.tx e, ?_⟩⟩
      rw [pair_after, pair_load]
      rfl
  | fill e cap =>
    simp only [Wired.step] at hs
    split at hs
    next hfill =>
      obtain ⟨p, hp, hcarries⟩ := (h.carries e).fill hfill.1 hfill.2
      rw [hp, Option.map_some] at hs
      cases hs
      exact ⟨h.setPipe e hcarries, .inl rfl⟩
    next => cases hs
  | ship e n =>
    cases hs
    exact ⟨h.setPipe e ((h.carries e).ship n), .inl rfl⟩
  | feed e n clock =>
    simp only [Wired.step] at hs
    split at hs
    next => cases hs
    next hne =>
      rcases (h.carries e.peer).feed hne with ⟨hnone, hp⟩ | ⟨f, rest, hframes, hx, hp⟩
      · rw [hnone] at hs
        cases hs
        exact ⟨h.setPipe e.peer hp, .inl rfl⟩
      · rw [hx] at hs
        cases hs
        obtain ⟨hinv, hstep⟩ := h.received e hframes hp clock
        exact ⟨hinv, .inr hstep⟩

theorem inv_reaches (hlim : ∀ e, (cfg e).payloadLim ≤ (cfg e.peer).payloadLim)
    (hpos : ∀ e, 0 < (cfg e).payloadLim) (h : Reaches F Y mem s) : Inv Y mem s :=
  h.invariant inv_init fun hi ha hs => (hi.step hlim hpos ha hs).1

/-- Whatever the pieces the octets go in and whatever happens between them, two ends over lines of octets
do what two ends do over channels of frames. -/
theorem octets_refine_frames (hlim : ∀ e, (cfg e).payloadLim ≤ (cfg e.peer).payloadLim)
    (hpos : ∀ e, 0 < (cfg e).payloadLim) (h : Reaches F Y mem s) : Pair.Reaches mem s.pair := by
  suffices hboth : Inv Y mem s ∧ Pair.Reaches mem s.pair from hboth.2
  apply Reachable.invariant (I := fun s => Inv Y mem s ∧ Pair.Reaches mem s.pair) _ _ h
  · exact ⟨inv_init, Reachable.init⟩
  rintro t a t' ⟨hinv, hreach⟩ ha hs
  obtain ⟨hinv', hsame | ⟨m, hm⟩⟩ := hinv.step hlim hpos ha hs
  · exact ⟨hinv', hsame ▸ hreach⟩
  · exact ⟨hinv', .step hreach trivial hm⟩

/-- The octet of an ID field of eight bits. -/
def idOctet (t : WireId 7) : UInt8 := UInt8.ofNat (t.id.toNat + if t.flag then 128 else 0)

def ofIdOctet (c : UInt8) : WireId 7 := ⟨128 ≤ c.toNat, BitVec.ofNat 7 c.toNat⟩

theorem ofIdOctet_idOctet (t : WireId 7) : ofIdOctet (idOctet t) = t := by
  obtain ⟨flag, id⟩ := t
  have hlt := id.isLt
  have hval : (idOctet ⟨flag, id⟩).toNat = id.toNat + if flag then 128 else 0 := by
    rw [idOctet, UInt8.toNat_ofNat']
    apply Nat.mod_eq_of_lt
    split <;> omega
  rw [ofIdOctet, hval, WireId.mk.injEq]
  constructor
  · cases flag with
    | true => simp
    | false => simpa using hlt
  · apply BitVec.eq_of_toNat_eq
    rw [BitVec.toNat_ofNat]
    split
    · omega
    · omega

/-- The header of the defaults: two IDs and a channel of an octet each. -/
def octetLayout (k : Nat) (hk : k < 7) : Layout (.ofWindow k hk) where
  ids t a := [idOctet t, idOctet a]
  chan c := [UInt8.ofBitVec c]
  read l := ⟨ofIdOctet (l.getD 0 0), ofIdOctet (l.getD 1 0), (l.getD 2 0).toBitVec⟩
  length_ids _ _ := rfl
  length_chan _ := rfl
  read_ids t a _ := ⟨ofIdOctet_idOctet t, ofIdOctet_idOctet a⟩
  read_chan _ _ _ _ := rfl

/-- Two ends of a window of two packets, on the escaping without a checksum. -/
def shortCfg (_ : Side) : Cfg (.ofWindow 1 one_lt_idBits) :=
  Cfg.ofBuild (.ofWindow 1 one_lt_idBits) false 1 Nat.one_pos

theorem shortCfg_frame (e : Side) : connFrameSz (shortCfg e) (none : Option (Csum 8)) ≤ 68 := by
  change 67 ≤ 68
  decide

def hdlcLines (e : Side) : StreamFraming (shortCfg e.peer) (none : Option (Csum 8)) :=
  Hdlc.plainFraming (shortCfg e.peer) (shortCfg_frame e.peer) Hdlc.unusedEnc Hdlc.unusedDec

def oneOctet (_ : Side) (b : UInt8) : List UInt8 := [b]

/-- An end sends a frame, and its octets go to the peer in two pieces. -/
def across (e : Side) : List (Move (.ofWindow 1 one_lt_idBits) UInt8) :=
  [.tx e, .fill e 64, .ship e 2, .feed e.peer 2 none, .ship e 64, .feed e.peer 64 (some 0)]

/-- The handshake, as octets. -/
def shake : List (Move (.ofWindow 1 one_lt_idBits) UInt8) :=
  across .left ++ across .right ++ across .left ++ across .right ++ across .left ++ across .right

theorem octets_refine_frames_up :
    ∃ s : Wired shortCfg UInt8 hdlcLines, (s.conn .left).connState = .connected ∧
      (s.conn .right).connState = .connected ∧ Pair.Reaches oneOctet s.pair := by
  obtain ⟨s, hs, hup⟩ := Reachable.of_exec (init hdlcLines UInt8) (step (octetLayout 1 one_lt_idBits) oneOctet)
    (fun _ a => decide (backed oneOctet a)) shake
    (fun s => (s.conn .left).connState = .connected ∧ (s.conn .right).connState = .connected)
    (by decide +kernel) (by decide +kernel)
  have hrun : Reaches hdlcLines (octetLayout 1 one_lt_idBits) oneOctet s :=
    hs.mono fun _ _ ha => of_decide_eq_true ha
  obtain ⟨hleft, hright⟩ := of_decide_eq_true hup
  exact ⟨s, hleft, hright, octets_refine_frames (fun _ => le_refl _) (fun _ => Nat.succ_pos 63) hrun⟩

/-- With no octet on its way any more, the peer has been handed every frame, the last one apart if it was
told that another follows and the framing completes it by that only. -/
theorem quiet_delivered (hlim : ∀ e, (cfg e).payloadLim ≤ (cfg e.peer).payloadLim)
    (hpos : ∀ e, 0 < (cfg e).payloadLim) (h : Reaches F Y mem s) (e : Side)
    (hquiet : (s.pipe e).Quiet (F e).writer) :
    (s.frames e).length = if (s.pipe e).taken.getLast?.all (F e).whole then 0 else 1 := by
  have hcarries := (inv_reaches hlim hpos h).carries e
  have hgot := hcarries.pipe.got_eq hquiet
  have hlen := congrArg List.length hcarries.octets
  rw [hgot, (F e).completes _ hcarries.pipe.pump.taken, List.length_append, List.length_map, List.length_map,
    List.length_map] at hlen
  cases hlast : (s.pipe e).taken.getLast?.all (F e).whole with
  | true =>
    rw [completed, if_pos hlast] at hlen
    rw [if_pos rfl]
    omega
  | false =>
    rw [completed, if_neg (by simp [hlast]), List.length_dropLast] at hlen
    rw [if_neg (by simp)]
    have hne : (s.pipe e).taken ≠ [] := by
      intro hnil
      rw [hnil] at hlast
      cases hlast
    have := List.length_pos_of_ne_nil hne
    omega

/-- With a packet still queued the DISCONNECT goes out without an end octet, and the call that finds it sent
takes the link down: the frame stays open, and the peer up. -/
theorem quiet_delivered_disconnect :
    ∃ s : Wired shortCfg UInt8 hdlcLines, (s.conn .left).connState = .disconnected ∧
      s.due .left = false ∧ (s.conn .right).connState = .connected ∧ (s.frames .left).length = 1 := by
  obtain ⟨s, hs, hup⟩ := Reachable.of_exec (init hdlcLines UInt8) (step (octetLayout 1 one_lt_idBits) oneOctet)
    (fun _ a => decide (backed oneOctet a))
    (shake ++ [.call .left (.enqueueData 1 (some 7) 1 3), .call .left .sendDisconnect] ++ across .left ++
      [.tx .left])
    (fun s => ((s.conn .left).connState = .disconnected ∧ s.due .left = false ∧
        (s.conn .right).connState = .connected) ∧
      (Hdlc.encBusy (s.pipe .left).enc = false ∧ (s.pipe .left).buf = [] ∧ (s.pipe .left).line = []) ∧
      (s.pipe .left).taken.getLast?.all (fun p => p.2) = false)
    (by decide +kernel) (by decide +kernel)
  have hrun : Reaches hdlcLines (octetLayout 1 one_lt_idBits) oneOctet s :=
    hs.mono fun _ _ ha => of_decide_eq_true ha
  obtain ⟨⟨hleft, hdue, hright⟩, ⟨henc, hbuf, hline⟩, hopen⟩ := of_decide_eq_true hup
  have hlen := quiet_delivered (fun _ => le_refl _) (fun _ => Nat.succ_pos 63) hrun .left ⟨henc, hbuf, hline⟩
  have hwhole : (hdlcLines .left).whole = fun p => p.2 := rfl
  rw [hwhole, hopen] at hlen
  exact ⟨s, hleft, hdue, hright, hlen⟩

end Wired

end Ludlc
