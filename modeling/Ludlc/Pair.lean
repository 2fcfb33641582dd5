import Ludlc.Frames

/-! # Two ends and the channels between them

Each end reports inline and has one call in it at a time. A channel keeps the order of the frames put
on it, and may lose any of them.
-/

namespace Ludlc

open SeqNum Runs

variable {w : Wire} {β : Type}

theorem forall₂_eraseIdx {α γ : Type} {R : α → γ → Prop} {l : List α} {l' : List γ}
    (h : List.Forall₂ R l l') (i : Nat) : List.Forall₂ R (l.eraseIdx i) (l'.eraseIdx i) := by
  induction h generalizing i with
  | nil => exact .nil
  | cons hxy hrest ih =>
    cases i with
    | zero => exact hrest
    | succ i => exact .cons hxy (ih i)

theorem forall₂_mem_left {α γ : Type} {R : α → γ → Prop} {l : List α} {l' : List γ}
    (h : List.Forall₂ R l l') {x : α} (hx : x ∈ l) : ∃ y ∈ l', R x y := by
  induction h with
  | nil => cases hx
  | cons hxy hrest ih =>
    rcases List.mem_cons.mp hx with rfl | hx
    · exact ⟨_, List.mem_cons_self, hxy⟩
    · obtain ⟨y, hy, hR⟩ := ih hx
      exact ⟨y, List.mem_cons_of_mem _ hy, hR⟩

inductive Side
  | left
  | right
  deriving DecidableEq, Repr

def Side.peer : Side → Side
  | left => right
  | right => left

theorem Side.peer_eq {e f : Side} (h : e ≠ f) : f.peer = e := by
  cases e <;> cases f <;> first | rfl | exact absurd rfl h

theorem Side.eq_or_eq {e f : Side} (h : e ≠ f) (x : Side) : x = e ∨ x = f := by
  cases e <;> cases f <;> cases x <;> first | exact .inl rfl | exact .inr rfl | exact absurd rfl h

/-- Two ends. `due` tells that a TX round is pending: one has been requested since the last call of
`ludlc_get_packet_to_send`, or that call returned 0. -/
structure Pair {w : Wire} (cfg : Side → Cfg w) (β : Type) where
  conn : (e : Side) → Conn (cfg e) β
  /-- The frames an end has sent that are on their way, the oldest first. -/
  chan : Side → List (Frame w)
  due : Side → Bool

def Call.isLocal : Call w β → Bool
  | .getPacketToSend _ => false
  | .receive _ _ _ => false
  | _ => true

namespace Pair

/-- What can happen: a call at an end that neither sends nor receives, an end sending a frame or
receiving the next one, and the loss of one of the frames an end has sent. -/
inductive Move (w : Wire) (β : Type)
  | call (e : Side) (a : Call w β)
  | tx (e : Side)
  | rx (e : Side) (tstamp : Nat)
  | drop (e : Side) (i : Nat)

variable {cfg : Side → Cfg w}

def init {w : Wire} (cfg : Side → Cfg w) (β : Type) : Pair cfg β where
  conn e := Conn.init (cfg e) β
  chan _ := []
  due _ := false

/-- An end `e` has made a call. -/
def after (s : Pair cfg β) (e : Side) (o : Out (cfg e) β) (due : Bool) : Pair cfg β where
  conn := Function.update s.conn e o.settle
  chan := Function.update s.chan e (s.chan e ++ o.sent)
  due := Function.update s.due e due

/-- `mem` is what the callers' buffers hold at each end, which their owners leave alone until the
packet is confirmed. -/
def step (mem : Side → β → List UInt8) (s : Pair cfg β) : Move w β → Option (Pair cfg β)
  | .call e a =>
    let o := a.run (s.conn e)
    if a.isLocal then some (s.after e o (s.due e || o.requestTx)) else none
  | .tx e =>
    let o := getPacketToSend (mem e) (s.conn e)
    some (s.after e o (o.requestTx || o.ret = .ok))
  | .rx e tstamp =>
    match s.chan e.peer with
    | [] => none
    | f :: rest =>
      let o := receive (s.conn e) f.pkt f.size tstamp
      some (({ s with chan := Function.update s.chan e.peer rest } : Pair cfg β).after e o
        (s.due e || o.requestTx))
  | .drop e i => some { s with chan := Function.update s.chan e ((s.chan e).eraseIdx i) }

/-- The runs of two ends from `ludlc_connection_init` on. -/
abbrev Reaches (mem : Side → β → List UInt8) (s : Pair cfg β) : Prop :=
  Reachable (Pair.init cfg β) (step mem) (fun _ _ => True) s

end Pair

end Ludlc
