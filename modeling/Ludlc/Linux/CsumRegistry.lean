import Ludlc.Framing.Csum
import Ludlc.Lib.Runs

/-! # The registry of checksums

`ludlc_csum.c` of the Linux port. A node of the registry counts its registration and its holders in one
counter, and every operation finds its node by the descriptor. The lock of the registry is held over
each, so they follow one another.
-/

namespace Ludlc.Linux

open Runs

/-- `struct ludlc_csum` as it is registered; no pointer of it need be set. -/
structure CrcDesc (b : Nat) where
  name : Option (List Char)
  csum : Option (BitVec b → UInt8 → BitVec b)
  toWire : Option (BitVec b → BitVec b)
  init : BitVec b
  verify : BitVec b
  octets : Nat

/-- What the descriptors point to, and the built-in ones in `ludlc_crcs`. -/
structure Crcs (κ : Type) (b : Nat) where
  desc : κ → CrcDesc b
  builtIn : List κ

/-- The errors of `__ludlc_crc_register`. -/
inductive CrcErr
  | EINVAL
  | EOPNOTSUPP
  | ENOMEM
  | EEXIST
  deriving DecidableEq

/-- `struct ludlc_crc_node`. `id` says which of the nodes ever added it is. -/
structure CrcNode (κ μ : Type) where
  id : Nat
  crc : κ
  owner : μ
  refs : Nat
  registered : Bool

/-- `pins` is what `try_module_get` and `module_put` have made of each module. -/
structure Registry (κ μ : Type) where
  nodes : List (CrcNode κ μ)
  added : Nat
  pins : μ → Int

/-! ## Names and counters -/

/-- `sysfs_streq`: one trailing newline makes no difference. -/
def sysfsStreq : List Char → List Char → Bool
  | [], [] => true
  | [], [c] => c == '\n'
  | [c], [] => c == '\n'
  | c :: s₁, d :: s₂ => c == d && sysfsStreq s₁ s₂
  | _, _ => false

theorem sysfsStreq_refl (s : List Char) : sysfsStreq s s = true := by
  induction s with
  | nil => rfl
  | cons c s ih => simp [sysfsStreq, ih]

/-- The largest value of a `refcount_t`. -/
def refcountMax : Nat := 2 ^ 31 - 1

/-- Where a `refcount_t` that overflowed stays. -/
def refcountSaturated : Nat := 0xc0000000

def refcountInc (r : Nat) : Nat :=
  if r = 0 ∨ refcountMax ≤ r then refcountSaturated else r + 1

def refcountDecAndTest (r : Nat) : Bool × Nat :=
  if r = 1 then (true, 0)
  else if r = 0 ∨ refcountMax < r then (false, refcountSaturated)
  else (false, r - 1)

theorem refcountInc_of_lt {r : Nat} (hpos : 0 < r) (hlt : r < refcountMax) :
    refcountInc r = r + 1 := by
  rw [refcountInc, if_neg (by omega)]

theorem refcountDecAndTest_of_le {r : Nat} (hpos : 1 < r) (hle : r ≤ refcountMax) :
    refcountDecAndTest r = (false, r - 1) := by
  rw [refcountDecAndTest, if_neg (by omega), if_neg (by omega)]

/-- What an update of the elements keeps is found in them again. -/
theorem find?_filterMap_of_keeps {α : Type} {l : List α} {f : α → Option α} {p : α → Bool}
    (hkeep : ∀ a a', f a = some a' → p a' = p a) {a a' : α} (h : l.find? p = some a)
    (ha : f a = some a') : (l.filterMap f).find? p = some a' := by
  induction l with
  | nil => cases h
  | cons x l ih =>
    cases hx : p x with
    | true =>
      rw [List.find?_cons_of_pos hx] at h
      cases h
      rw [List.filterMap_cons_some ha, List.find?_cons_of_pos ((hkeep _ _ ha).trans hx)]
    | false =>
      rw [List.find?_cons_of_neg (by simp [hx])] at h
      cases hf : f x with
      | none =>
        rw [List.filterMap_cons_none hf]
        exact ih h
      | some x' =>
        rw [List.filterMap_cons_some hf, List.find?_cons_of_neg (by simp [hkeep _ _ hf, hx])]
        exact ih h

theorem map_filterMap_sublist {α ε : Type} {f : α → Option α} {g : α → ε}
    (hkeep : ∀ a a', f a = some a' → g a' = g a) (l : List α) :
    ((l.filterMap f).map g).Sublist (l.map g) := by
  induction l with
  | nil => exact .slnil
  | cons x l ih =>
    cases hf : f x with
    | none =>
      rw [List.filterMap_cons_none hf]
      exact ih.cons _
    | some x' =>
      rw [List.filterMap_cons_some hf, List.map_cons, List.map_cons, hkeep _ _ hf]
      exact ih.cons_cons _

/-! ## The operations -/

section Operations

variable {κ μ : Type} [DecidableEq κ] [DecidableEq μ] {b : Nat}

/-- `ludlc_csum_node_of`. -/
def csumNodeOf (s : Registry κ μ) (crc : κ) : Option (CrcNode κ μ) :=
  s.nodes.find? fun node => decide (node.crc = crc)

/-- The descriptor goes by the name. -/
def Crcs.named (P : Crcs κ b) (name : List Char) (crc : κ) : Bool :=
  (P.desc crc).name.any (sysfsStreq name)

/-- `ludlc_lookup_csum`. -/
def lookupCsum (P : Crcs κ b) (s : Registry κ μ) (name : List Char) : Option κ :=
  (P.builtIn.find? (P.named name)).or
    ((s.nodes.find? fun node => node.registered && P.named name node.crc).map CrcNode.crc)

/-- The node changes. -/
def Registry.onNode (s : Registry κ μ) (id : Nat) (f : CrcNode κ μ → CrcNode κ μ) : Registry κ μ :=
  { s with nodes := s.nodes.map fun node => if node.id = id then f node else node }

/-- `module_put`, the pin being dropped. -/
def Registry.modulePut (s : Registry κ μ) (owner : μ) : Registry κ μ :=
  { s with pins := Function.update s.pins owner (s.pins owner - 1) }

/-- A count of the node is dropped, and the node freed with the last. -/
def Registry.nodePut (s : Registry κ μ) (node : CrcNode κ μ) : Registry κ μ :=
  if (refcountDecAndTest node.refs).1 then
    { s with nodes := s.nodes.filter fun n => decide (n.id ≠ node.id) }
  else s.onNode node.id fun n => { n with refs := (refcountDecAndTest node.refs).2 }

/-- `ludlc_csum_hold`. `live` is whether `try_module_get` finds a module loaded. -/
def csumHold (s : Registry κ μ) (crc : κ) (live : μ → Bool) : Bool × Registry κ μ :=
  match csumNodeOf s crc with
  | none => (true, s)
  | some node =>
    if live node.owner then
      (true, { s.onNode node.id fun n => { n with refs := refcountInc n.refs } with
        pins := Function.update s.pins node.owner (s.pins node.owner + 1) })
    else (false, s)

/-- `ludlc_csum_get`. -/
def csumGet (s : Registry κ μ) (crc : Option κ) (live : μ → Bool) : Option κ × Registry κ μ :=
  match crc with
  | none => (none, s)
  | some crc => (if (csumHold s crc live).1 then some crc else none, (csumHold s crc live).2)

/-- `ludlc_csum_put`. -/
def csumPut (s : Registry κ μ) (crc : Option κ) : Registry κ μ :=
  match crc.bind (csumNodeOf s) with
  | none => s
  | some node => (s.nodePut node).modulePut node.owner

/-- `ludlc_crc_find`. -/
def crcFind (P : Crcs κ b) (s : Registry κ μ) (name : Option (List Char)) (live : μ → Bool) :
    Option κ × Registry κ μ :=
  match name.bind (lookupCsum P s) with
  | none => (none, s)
  | some crc => (if (csumHold s crc live).1 then some crc else none, (csumHold s crc live).2)

/-- The frames of `ludlc_csum_verifies`. -/
def verifyFrames : List (List UInt8) :=
  [[0x00, 0x01, 0x02, 0x03, 0x04, 0x05, 0x06], [0xa5, 0x5a, 0xff, 0x00, 0x81, 0x7e, 0x18]]

/-- `ludlc_csum_verifies`, on a descriptor with this function. -/
def csumVerifies (crc : CrcDesc b) (csum : BitVec b → UInt8 → BitVec b) : Bool :=
  verifyFrames.all fun frame =>
    let val := frame.foldl csum crc.init
    let wire := match crc.toWire with
      | some toWire => toWire val
      | none => val
    (lowOctets wire crc.octets).foldl csum val == crc.verify

/-- `__ludlc_crc_register`. `mem` is whether `kzalloc` finds memory. -/
def crcRegister (P : Crcs κ b) (s : Registry κ μ) (crc : Option κ) (owner : μ) (mem : Bool) :
    Except CrcErr (Registry κ μ) :=
  match crc with
  | none => .error .EINVAL
  | some crc =>
    match (P.desc crc).csum, (P.desc crc).name with
    | some csum, some (c :: name) =>
      if (P.desc crc).octets = 0 ∨ b / 8 < (P.desc crc).octets then .error .EOPNOTSUPP
      else if !csumVerifies (P.desc crc) csum then .error .EINVAL
      else if !mem then .error .ENOMEM
      else if (lookupCsum P s (c :: name)).isSome then .error .EEXIST
      else .ok { s with
        nodes := s.nodes ++ [⟨s.added, crc, owner, 1, true⟩], added := s.added + 1 }
    | _, _ => .error .EINVAL

/-- `ludlc_crc_unregister`. -/
def crcUnregister (s : Registry κ μ) (crc : Option κ) : Registry κ μ :=
  match crc.bind (csumNodeOf s) with
  | none => s
  | some node => (s.onNode node.id fun n => { n with registered := false }).nodePut node

/-! ## The runs -/

/-- What a successful find or get gave. `took` is the node whose counter it raised and the module it
pinned, if there was a node. -/
structure CrcRef (κ μ : Type) where
  crc : κ
  took : Option (Nat × μ)
  deriving DecidableEq

/-- The registry with a history: the references not put yet, and the registrations in force, each
with the node it added. -/
structure CrcRun (κ μ : Type) where
  reg : Registry κ μ
  held : List (CrcRef κ μ)
  regs : List (κ × Nat)

def CrcRun.init : CrcRun κ μ := ⟨⟨[], 0, fun _ => 0⟩, [], []⟩

inductive CrcAct (κ μ : Type)
  | register (crc : Option κ) (owner : μ) (mem : Bool)
  | unregister (crc : Option κ)
  | find (name : Option (List Char)) (live : μ → Bool)
  | get (crc : Option κ) (live : μ → Bool)
  | put (r : CrcRef κ μ)

/-- The reference that a find or get of the descriptor gives. -/
def Registry.ref (s : Registry κ μ) (crc : κ) : CrcRef κ μ :=
  ⟨crc, (csumNodeOf s crc).map fun node => (node.id, node.owner)⟩

/-- What a find or get returned goes to the references held. -/
def CrcRun.took (s : CrcRun κ μ) (r : Option κ × Registry κ μ) : CrcRun κ μ :=
  { s with reg := r.2, held := s.held ++ (r.1.map s.reg.ref).toList }

/-- A put is of a reference held, and an unregister of a registration in force or of a descriptor
that has no node. -/
def crcStep (P : Crcs κ b) (s : CrcRun κ μ) : CrcAct κ μ → Option (CrcRun κ μ)
  | .register crc owner mem =>
    match crc, crcRegister P s.reg crc owner mem with
    | some crc, .ok reg => some { s with reg := reg, regs := s.regs ++ [(crc, s.reg.added)] }
    | _, _ => some s
  | .unregister crc =>
    if crc.all fun crc => s.regs.any (fun reg => decide (reg.1 = crc)) ||
        (csumNodeOf s.reg crc).isNone then
      some { s with
        reg := crcUnregister s.reg crc
        regs := s.regs.eraseP fun reg => decide (some reg.1 = crc) }
    else none
  | .find name live => some (s.took (crcFind P s.reg name live))
  | .get crc live => some (s.took (csumGet s.reg crc live))
  | .put r =>
    if r ∈ s.held then
      some { s with reg := csumPut s.reg (some r.crc), held := s.held.erase r }
    else none

/-- The reference raised the counter of the node. -/
def CrcRef.tookNode (id : Nat) (r : CrcRef κ μ) : Bool := decide (r.took.map Prod.fst = some id)

/-- The reference pinned the module. -/
def CrcRef.pinned (m : μ) (r : CrcRef κ μ) : Bool := decide (r.took.map Prod.snd = some m)

/-- No counter of the descriptor's node would overflow. -/
def Registry.hasRoom (s : Registry κ μ) (crc : κ) (live : μ → Bool) : Prop :=
  ∀ node, csumNodeOf s crc = some node → live node.owner = true → node.refs < refcountMax

/-- The operation finds the node it is meant for: the descriptor unregistered has a registered node
first in the list, and that of a reference taken when it had no node has none now. -/
def crcKeeps (P : Crcs κ b) (s : CrcRun κ μ) : CrcAct κ μ → Prop
  | .unregister crc => ∀ node, crc.bind (csumNodeOf s.reg) = some node → node.registered = true
  | .put r => r.took = none → csumNodeOf s.reg r.crc = none
  | .find name live => ∀ crc, name.bind (lookupCsum P s.reg) = some crc → s.reg.hasRoom crc live
  | .get crc live => ∀ c, crc = some c → s.reg.hasRoom c live
  | .register .. => True

/-- The nodes in the registry are those with a registration in force or a reference held, each counts
them, each module is pinned as often as a reference pinned it, and the names found are those of the
built-in checksums and of the registrations in force. -/
structure CrcRun.Accounted (P : Crcs κ b) (s : CrcRun κ μ) : Prop where
  freed : ∀ id, (∃ node ∈ s.reg.nodes, node.id = id) ↔
    (∃ crc, (crc, id) ∈ s.regs) ∨ ∃ r ∈ s.held, r.tookNode id = true
  refs : ∀ node ∈ s.reg.nodes, node.refs =
    s.regs.countP (fun reg => decide (reg.2 = node.id)) + s.held.countP (CrcRef.tookNode node.id)
  pins : ∀ m, s.reg.pins m = s.held.countP (CrcRef.pinned m)
  found : ∀ name, (lookupCsum P s.reg name).isSome ↔
    ∃ crc, (crc ∈ P.builtIn ∨ ∃ id, (crc, id) ∈ s.regs) ∧ P.named name crc = true

/-! ## Nodes that change or go -/

/-- What the operations keep. A reference is counted by the first node of its descriptor. -/
structure CrcInv (P : Crcs κ b) (s : CrcRun κ μ) : Prop where
  ids : (s.reg.nodes.map CrcNode.id).Nodup
  fresh : ∀ node ∈ s.reg.nodes, node.id < s.reg.added
  named : ∀ node ∈ s.reg.nodes, (P.desc node.crc).name.isSome
  refs : ∀ node ∈ s.reg.nodes, node.refs =
    s.regs.countP (fun reg => decide (reg.2 = node.id)) + s.held.countP (CrcRef.tookNode node.id)
  live : ∀ node ∈ s.reg.nodes, 0 < node.refs ∧ node.refs ≤ refcountMax
  regs : ∀ crc id, (crc, id) ∈ s.regs ↔
    ∃ node ∈ s.reg.nodes, node.crc = crc ∧ node.id = id ∧ node.registered = true
  single : (s.regs.map Prod.fst).Nodup
  held : ∀ r ∈ s.held, ∀ t, r.took = some t →
    ∃ node, csumNodeOf s.reg r.crc = some node ∧ (node.id, node.owner) = t
  pins : ∀ m, s.reg.pins m = s.held.countP (CrcRef.pinned m)

omit [DecidableEq μ] in
theorem csumNodeOf_mem {s : Registry κ μ} {crc : κ} {node : CrcNode κ μ}
    (h : csumNodeOf s crc = some node) : node ∈ s.nodes ∧ node.crc = crc :=
  ⟨List.mem_of_find?_eq_some h, by simpa using List.find?_some h⟩

/-- A node of a list with distinct ids is known by its id. -/
theorem CrcInv.eq_of_id {P : Crcs κ b} {s : CrcRun κ μ} (h : CrcInv P s) {n m : CrcNode κ μ}
    (hn : n ∈ s.reg.nodes) (hm : m ∈ s.reg.nodes) (heq : n.id = m.id) : n = m :=
  List.inj_on_of_nodup_map h.ids hn hm heq

theorem CrcInv.mem_regs {P : Crcs κ b} {s : CrcRun κ μ} (h : CrcInv P s) {n : CrcNode κ μ}
    (hn : n ∈ s.reg.nodes) : (n.crc, n.id) ∈ s.regs ↔ n.registered = true := by
  rw [h.regs]
  constructor
  · rintro ⟨m, hm, -, hid, hreg⟩
    rw [← h.eq_of_id hm hn hid]
    exact hreg
  · exact fun hreg => ⟨n, hn, rfl, rfl, hreg⟩

omit [DecidableEq κ] [DecidableEq μ] in
theorem onNode_nodes (s : Registry κ μ) (id : Nat) (f : CrcNode κ μ → CrcNode κ μ) :
    (s.onNode id f).nodes = s.nodes.filterMap fun n => some (if n.id = id then f n else n) := by
  rw [List.filterMap_eq_map']
  rfl

/-- The nodes change or go, and stay in their order; the counters follow the history. -/
theorem CrcInv.update {P : Crcs κ b} {s s' : CrcRun κ μ} (h : CrcInv P s)
    (upd : CrcNode κ μ → Option (CrcNode κ μ))
    (hnodes : s'.reg.nodes = s.reg.nodes.filterMap upd) (hadded : s'.reg.added = s.reg.added)
    (hkeep : ∀ n n', upd n = some n' → n'.id = n.id ∧ n'.crc = n.crc ∧ n'.owner = n.owner)
    (hrefs : ∀ n ∈ s.reg.nodes, ∀ n', upd n = some n' → 0 < n'.refs ∧ n'.refs ≤ refcountMax ∧
      n'.refs = s'.regs.countP (fun reg => decide (reg.2 = n.id)) +
        s'.held.countP (CrcRef.tookNode n.id))
    (hregs : ∀ n ∈ s.reg.nodes, (n.crc, n.id) ∈ s'.regs ↔
      ∃ n', upd n = some n' ∧ n'.registered = true)
    (hsub : s'.regs.Sublist s.regs)
    (hheld : ∀ r ∈ s'.held, ∀ t, r.took = some t → ∃ node, csumNodeOf s.reg r.crc = some node ∧
      (node.id, node.owner) = t ∧ (upd node).isSome)
    (hpins : ∀ m, s'.reg.pins m = s'.held.countP (CrcRef.pinned m)) : CrcInv P s' := by
  have hmem : ∀ n' ∈ s'.reg.nodes, ∃ n ∈ s.reg.nodes, upd n = some n' := by
    intro n' hn'
    rw [hnodes] at hn'
    exact List.mem_filterMap.mp hn'
  refine ⟨?_, ?_, ?_, ?_, ?_, ?_, ?_, ?_, hpins⟩
  · rw [hnodes]
    exact (map_filterMap_sublist (fun n n' hu => (hkeep n n' hu).1) _).nodup h.ids
  · intro n' hn'
    obtain ⟨n, hn, hu⟩ := hmem n' hn'
    rw [(hkeep n n' hu).1, hadded]
    exact h.fresh n hn
  · intro n' hn'
    obtain ⟨n, hn, hu⟩ := hmem n' hn'
    rw [(hkeep n n' hu).2.1]
    exact h.named n hn
  · intro n' hn'
    obtain ⟨n, hn, hu⟩ := hmem n' hn'
    rw [(hkeep n n' hu).1]
    exact (hrefs n hn n' hu).2.2
  · intro n' hn'
    obtain ⟨n, hn, hu⟩ := hmem n' hn'
    exact ⟨(hrefs n hn n' hu).1, (hrefs n hn n' hu).2.1⟩
  · intro crc id
    constructor
    · intro hreg
      obtain ⟨n, hn, rfl, rfl, -⟩ := (h.regs crc id).mp (hsub.mem hreg)
      obtain ⟨n', hu, hr⟩ := (hregs n hn).mp hreg
      refine ⟨n', ?_, (hkeep n n' hu).2.1, (hkeep n n' hu).1, hr⟩
      rw [hnodes]
      exact List.mem_filterMap.mpr ⟨n, hn, hu⟩
    · rintro ⟨n', hn', rfl, rfl, hr⟩
      obtain ⟨n, hn, hu⟩ := hmem n' hn'
      rw [(hkeep n n' hu).1, (hkeep n n' hu).2.1]
      exact (hregs n hn).mpr ⟨n', hu, hr⟩
  · exact (hsub.map Prod.fst).nodup h.single
  · intro r hr t ht
    obtain ⟨node, hnode, rfl, hsome⟩ := hheld r hr t ht
    obtain ⟨n', hn'⟩ := Option.isSome_iff_exists.mp hsome
    refine ⟨n', ?_, ?_⟩
    · rw [csumNodeOf, hnodes]
      refine find?_filterMap_of_keeps (fun n n' hu => ?_) hnode hn'
      rw [(hkeep n n' hu).2.1]
    · rw [(hkeep _ _ hn').1, (hkeep _ _ hn').2.2]

/-! ## Register, find, get, put, unregister -/

theorem crcInv_init (P : Crcs κ b) : CrcInv P (CrcRun.init : CrcRun κ μ) := by
  refine ⟨.nil, ?_, ?_, ?_, ?_, ?_, .nil, ?_, fun _ => rfl⟩ <;> simp [CrcRun.init]

omit [DecidableEq κ] [DecidableEq μ] in
/-- What register adds, where it does. -/
theorem crcRegister_ok {P : Crcs κ b} {s s' : Registry κ μ} {crc : κ} {owner : μ} {mem : Bool}
    (h : crcRegister P s (some crc) owner mem = .ok s') :
    ∃ name, (P.desc crc).name = some name ∧ lookupCsum P s name = none ∧
      s' = { s with nodes := s.nodes ++ [⟨s.added, crc, owner, 1, true⟩], added := s.added + 1 } := by
  simp only [crcRegister] at h
  split at h
  next csum c name _ hname =>
    repeat' split at h
    all_goals cases h
    rename_i hlook
    exact ⟨_, hname, by simpa using hlook, rfl⟩
  next => cases h

/-- No registration in force is of the node added next. -/
theorem CrcInv.regs_fresh {P : Crcs κ b} {s : CrcRun κ μ} (h : CrcInv P s) {reg : κ × Nat}
    (hreg : reg ∈ s.regs) : reg.2 ≠ s.reg.added := by
  obtain ⟨crc, id⟩ := reg
  rintro rfl
  obtain ⟨node, hnode, -, hid, -⟩ := (h.regs crc _).mp hreg
  have := h.fresh node hnode
  omega

/-- No reference was taken on the node added next. -/
theorem CrcInv.held_fresh {P : Crcs κ b} {s : CrcRun κ μ} (h : CrcInv P s) {r : CrcRef κ μ}
    (hr : r ∈ s.held) : r.tookNode s.reg.added = false := by
  cases htook : r.took with
  | none => simp [CrcRef.tookNode, htook]
  | some t =>
    obtain ⟨node, hnode, rfl⟩ := h.held r hr t htook
    have := h.fresh node (csumNodeOf_mem hnode).1
    simp [CrcRef.tookNode, htook]
    omega

/-- A descriptor whose name is free has no registration in force. -/
theorem CrcInv.notMem_regs {P : Crcs κ b} {s : CrcRun κ μ} (h : CrcInv P s) {crc : κ}
    {name : List Char} (hname : (P.desc crc).name = some name)
    (hlook : lookupCsum P s.reg name = none) (id : Nat) : (crc, id) ∉ s.regs := by
  intro hreg
  obtain ⟨node, hnode, rfl, -, hreg⟩ := (h.regs crc id).mp hreg
  rw [lookupCsum, Option.or_eq_none_iff, Option.map_eq_none_iff] at hlook
  have := List.find?_eq_none.mp hlook.2 node hnode
  simp [hreg, Crcs.named, hname, sysfsStreq_refl] at this

theorem CrcInv.register {P : Crcs κ b} {s : CrcRun κ μ} {reg : Registry κ μ} {crc : κ} {owner : μ}
    {mem : Bool} (h : CrcInv P s) (hr : crcRegister P s.reg (some crc) owner mem = .ok reg) :
    CrcInv P { s with reg := reg, regs := s.regs ++ [(crc, s.reg.added)] } := by
  obtain ⟨name, hname, hlook, rfl⟩ := crcRegister_ok hr
  have hmem : ∀ n ∈ s.reg.nodes ++ [⟨s.reg.added, crc, owner, 1, true⟩],
      n ∈ s.reg.nodes ∨ n = ⟨s.reg.added, crc, owner, 1, true⟩ := by
    intro n hn
    simpa using hn
  refine ⟨?_, ?_, ?_, ?_, ?_, ?_, ?_, ?_, h.pins⟩
  · rw [List.map_append, List.nodup_append]
    refine ⟨h.ids, List.nodup_singleton _, ?_⟩
    rintro id hid id' hid' rfl
    obtain ⟨node, hnode, rfl⟩ := List.mem_map.mp hid
    have := h.fresh node hnode
    simp at hid'
    omega
  · intro n hn
    rcases hmem n hn with hn | rfl
    · exact Nat.lt_succ_of_lt (h.fresh n hn)
    · exact Nat.lt_succ_self _
  · intro n hn
    rcases hmem n hn with hn | rfl
    · exact h.named n hn
    · simp [hname]
  · intro n hn
    rw [List.countP_append]
    rcases hmem n hn with hn | rfl
    · have hne := (h.fresh n hn).ne'
      rw [h.refs n hn]
      simp [hne]
    · have hnone : s.regs.countP (fun reg => decide (reg.2 = s.reg.added)) = 0 :=
        List.countP_eq_zero.mpr fun reg hreg => by simpa using h.regs_fresh hreg
      have hnone' : s.held.countP (CrcRef.tookNode s.reg.added) = 0 :=
        List.countP_eq_zero.mpr fun r hr => by simp [h.held_fresh hr]
      simp [hnone, hnone']
  · intro n hn
    rcases hmem n hn with hn | rfl
    · exact h.live n hn
    · exact ⟨Nat.one_pos, by simp [refcountMax]⟩
  · intro c id
    rw [List.mem_append, h.regs]
    constructor
    · rintro (⟨node, hnode, hc⟩ | hreg)
      · exact ⟨node, List.mem_append_left _ hnode, hc⟩
      · obtain ⟨rfl, rfl⟩ := Prod.mk.inj (List.mem_singleton.mp hreg)
        exact ⟨_, List.mem_append_right _ (List.mem_singleton_self _), rfl, rfl, rfl⟩
    · rintro ⟨node, hnode, rfl, rfl, hreg⟩
      rcases hmem node hnode with hnode | rfl
      · exact .inl ⟨node, hnode, rfl, rfl, hreg⟩
      · exact .inr (List.mem_singleton_self _)
  · rw [List.map_append, List.nodup_append]
    refine ⟨h.single, List.nodup_singleton _, ?_⟩
    rintro c hc c' hc' rfl
    obtain ⟨⟨c, id⟩, hreg, rfl⟩ := List.mem_map.mp hc
    obtain rfl : c = crc := by simpa using hc'
    exact h.notMem_regs hname hlook id hreg
  · intro r hr t ht
    obtain ⟨node, hnode, rfl⟩ := h.held r hr t ht
    refine ⟨node, ?_, rfl⟩
    rw [csumNodeOf, List.find?_append, Option.or_eq_some_iff]
    exact .inl hnode

/-- A find or get that succeeds raises the counter of the first node of its descriptor. -/
theorem CrcInv.hold {P : Crcs κ b} {s : CrcRun κ μ} {crc : κ} {live : μ → Bool} (h : CrcInv P s)
    (hroom : s.reg.hasRoom crc live) :
    CrcInv P (s.took (if (csumHold s.reg crc live).1 then some crc else none,
      (csumHold s.reg crc live).2)) := by
  unfold csumHold CrcRun.took
  cases hnode : csumNodeOf s.reg crc with
  | none =>
    have href : s.reg.ref crc = ⟨crc, none⟩ := by rw [Registry.ref, hnode]; rfl
    simp only [if_true, Option.map_some, Option.toList_some, href]
    refine { h with refs := fun n hn => ?_, held := fun r hr t ht => ?_, pins := fun m => ?_ }
    · rw [h.refs n hn]
      simp [CrcRef.tookNode]
    · rcases List.mem_append.mp hr with hr | hr
      · exact h.held r hr t ht
      · rw [List.mem_singleton.mp hr] at ht
        cases ht
    · rw [h.pins m]
      simp [CrcRef.pinned]
  | some node =>
    simp only
    cases hlive : live node.owner with
    | false => simpa using h
    | true =>
      have href : s.reg.ref crc = ⟨crc, some (node.id, node.owner)⟩ := by
        rw [Registry.ref, hnode]
        rfl
      have hmem := (csumNodeOf_mem hnode).1
      simp only [if_true, Option.map_some, Option.toList_some, href]
      refine h.update
        (fun n => some (if n.id = node.id then { n with refs := refcountInc n.refs } else n))
        (onNode_nodes s.reg node.id _) rfl ?_ ?_ ?_ (List.Sublist.refl _) ?_ ?_
      · rintro n n' ⟨⟩
        split <;> exact ⟨rfl, rfl, rfl⟩
      · rintro n hn n' ⟨⟩
        have hlive' := h.live n hn
        rw [List.countP_append, ← Nat.add_assoc, ← h.refs n hn]
        by_cases hid : n.id = node.id
        · have hlt : n.refs < refcountMax := by
            rw [h.eq_of_id hn hmem hid]
            exact hroom node hnode hlive
          rw [if_pos hid, refcountInc_of_lt hlive'.1 hlt]
          simp [CrcRef.tookNode, hid]
          omega
        · rw [if_neg hid]
          have hid' : node.id ≠ n.id := fun heq => hid heq.symm
          simpa [CrcRef.tookNode, hid'] using hlive'
      · intro n hn
        rw [h.mem_regs hn]
        by_cases hid : n.id = node.id <;> simp [hid]
      · intro r hr t ht
        rcases List.mem_append.mp hr with hr | hr
        · obtain ⟨m, hm, heq⟩ := h.held r hr t ht
          exact ⟨m, hm, heq, rfl⟩
        · rw [List.mem_singleton.mp hr] at ht ⊢
          exact ⟨node, hnode, Option.some_inj.mp ht, rfl⟩
      · intro m
        rw [List.countP_append]
        change Function.update s.reg.pins node.owner (s.reg.pins node.owner + 1) m = _
        by_cases hm : m = node.owner
        · subst hm
          rw [Function.update_self, h.pins]
          simp [CrcRef.pinned]
        · have hm' : node.owner ≠ m := fun heq => hm heq.symm
          rw [Function.update_of_ne hm, h.pins]
          simp [CrcRef.pinned, hm']

/-- A node after a count of the one with this id is dropped, if it is still there. -/
def CrcNode.dropped (id : Nat) (n : CrcNode κ μ) : Option (CrcNode κ μ) :=
  if n.id = id then
    if n.refs = 1 then none else some { n with refs := n.refs - 1 }
  else some n

omit [DecidableEq κ] [DecidableEq μ] in
theorem nodePut_nodes {s : Registry κ μ} {node : CrcNode κ μ} (hpos : 0 < node.refs)
    (hle : node.refs ≤ refcountMax) (hrefs : ∀ n ∈ s.nodes, n.id = node.id → n.refs = node.refs) :
    (s.nodePut node).nodes = s.nodes.filterMap (CrcNode.dropped node.id) := by
  unfold Registry.nodePut
  by_cases hone : node.refs = 1
  · rw [if_pos (by simp [refcountDecAndTest, hone])]
    simp only
    rw [← List.filterMap_eq_filter]
    refine List.filterMap_congr fun n hn => ?_
    by_cases hid : n.id = node.id
    · have := hrefs n hn hid
      simp [CrcNode.dropped, Option.guard, hid, this, hone]
    · simp [CrcNode.dropped, Option.guard, hid]
  · rw [refcountDecAndTest_of_le (by omega) hle, if_neg (by simp), onNode_nodes]
    refine List.filterMap_congr fun n hn => ?_
    by_cases hid : n.id = node.id
    · have := hrefs n hn hid
      simp [CrcNode.dropped, hid, this, hone]
    · simp [CrcNode.dropped, hid]

omit [DecidableEq κ] [DecidableEq μ] in
theorem nodePut_added (s : Registry κ μ) (node : CrcNode κ μ) :
    (s.nodePut node).added = s.added := by
  unfold Registry.nodePut
  split <;> rfl

omit [DecidableEq κ] [DecidableEq μ] in
theorem nodePut_pins (s : Registry κ μ) (node : CrcNode κ μ) :
    (s.nodePut node).pins = s.pins := by
  unfold Registry.nodePut
  split <;> rfl

theorem countP_erase_of {ρ : Type} [DecidableEq ρ] {l : List ρ} {r : ρ} (hr : r ∈ l) (p : ρ → Bool) :
    l.countP p = (l.erase r).countP p + if p r then 1 else 0 := by
  rw [(List.perm_cons_erase hr).countP_eq, List.countP_cons]

omit [DecidableEq κ] [DecidableEq μ] in
/-- A node that keeps a count stays, and is the same but for its counter. -/
theorem CrcNode.dropped_keeps {id : Nat} {n n' : CrcNode κ μ} (h : n.dropped id = some n') :
    n'.id = n.id ∧ n'.crc = n.crc ∧ n'.owner = n.owner ∧ n'.registered = n.registered := by
  unfold CrcNode.dropped at h
  repeat' split at h
  all_goals cases h
  all_goals exact ⟨rfl, rfl, rfl, rfl⟩

omit [DecidableEq κ] [DecidableEq μ] in
theorem CrcNode.dropped_refs {id : Nat} {n n' : CrcNode κ μ} (h : n.dropped id = some n')
    (hpos : 0 < n.refs) :
    0 < n'.refs ∧ n.refs = n'.refs + if n.id = id then 1 else 0 := by
  unfold CrcNode.dropped at h
  by_cases hid : n.id = id
  · rw [if_pos hid] at h ⊢
    split at h
    · cases h
    · cases h
      constructor <;> simp only <;> omega
  · rw [if_neg hid] at h ⊢
    cases h
    exact ⟨hpos, rfl⟩

omit [DecidableEq κ] [DecidableEq μ] in
/-- A node goes with its last count. -/
theorem CrcNode.dropped_eq_none {id : Nat} {n : CrcNode κ μ} :
    n.dropped id = none ↔ n.id = id ∧ n.refs = 1 := by
  unfold CrcNode.dropped
  by_cases hid : n.id = id
  · rw [if_pos hid]
    split <;> simp_all
  · simp [hid]

/-- A put of a reference that raised no counter, its descriptor having no node, does nothing. -/
theorem csumPut_none {s : Registry κ μ} {crc : κ} (h : csumNodeOf s crc = none) :
    csumPut s (some crc) = s := by
  simp only [csumPut, Option.bind_some, h]

theorem CrcInv.put {P : Crcs κ b} {s : CrcRun κ μ} {r : CrcRef κ μ} (h : CrcInv P s)
    (hr : r ∈ s.held) (hok : r.took = none → csumNodeOf s.reg r.crc = none) :
    CrcInv P { s with reg := csumPut s.reg (some r.crc), held := s.held.erase r } := by
  cases htook : r.took with
  | none =>
    rw [csumPut_none (hok htook)]
    refine { h with refs := fun n hn => ?_, held := fun r' hr' => ?_, pins := fun m => ?_ }
    · rw [h.refs n hn, countP_erase_of hr]
      simp [CrcRef.tookNode, htook]
    · exact h.held r' (List.mem_of_mem_erase hr')
    · rw [h.pins m, countP_erase_of hr]
      simp [CrcRef.pinned, htook]
  | some t =>
    obtain ⟨node, hnode, rfl⟩ := h.held r hr t htook
    have hmem := (csumNodeOf_mem hnode).1
    have hput : csumPut s.reg (some r.crc) = (s.reg.nodePut node).modulePut node.owner := by
      simp only [csumPut, Option.bind_some, hnode]
    have hsame : ∀ n ∈ s.reg.nodes, n.id = node.id → n.refs = node.refs :=
      fun n hn hid => by rw [h.eq_of_id hn hmem hid]
    have htally : ∀ n : CrcNode κ μ, s.held.countP (CrcRef.tookNode n.id) =
        (s.held.erase r).countP (CrcRef.tookNode n.id) + if n.id = node.id then 1 else 0 := by
      intro n
      rw [countP_erase_of hr]
      simp [CrcRef.tookNode, htook, eq_comm]
    rw [hput]
    refine h.update (CrcNode.dropped node.id)
      (nodePut_nodes (h.live node hmem).1 (h.live node hmem).2 hsame) (nodePut_added ..)
      (fun n n' hu => ?_) (fun n hn n' hu => ?_) (fun n hn => ?_) (List.Sublist.refl _)
      (fun r' hr' t ht => ?_) fun m => ?_
    · obtain ⟨hid, hcrc, howner, -⟩ := CrcNode.dropped_keeps hu
      exact ⟨hid, hcrc, howner⟩
    · have hlive := h.live n hn
      have hrefs := h.refs n hn
      obtain ⟨hpos, hdrop⟩ := CrcNode.dropped_refs hu hlive.1
      rw [htally n] at hrefs
      simp only
      omega
    · rw [h.mem_regs hn]
      cases hu : n.dropped node.id with
      | none =>
        -- The last count is the one of the reference, so the registration is gone.
        obtain ⟨hid, hone⟩ := CrcNode.dropped_eq_none.mp hu
        have hrefs := h.refs n hn
        rw [htally n, if_pos hid] at hrefs
        have hnone : s.regs.countP (fun reg => decide (reg.2 = n.id)) = 0 := by omega
        rw [List.countP_eq_zero] at hnone
        simp only [reduceCtorEq, false_and, exists_false, iff_false, ← h.mem_regs hn]
        exact fun hreg => hnone _ hreg (by simp)
      | some n' => simp [(CrcNode.dropped_keeps hu).2.2.2]
    · obtain ⟨m, hm, rfl⟩ := h.held r' (List.mem_of_mem_erase hr') t ht
      refine ⟨m, hm, rfl, ?_⟩
      rw [Option.isSome_iff_ne_none]
      intro hnone
      obtain ⟨hid, hone⟩ := CrcNode.dropped_eq_none.mp hnone
      have hrefs := h.refs m (csumNodeOf_mem hm).1
      rw [htally m, if_pos hid] at hrefs
      have hcount : 0 < (s.held.erase r).countP (CrcRef.tookNode m.id) :=
        List.countP_pos_iff.mpr ⟨r', hr', by simp [CrcRef.tookNode, ht]⟩
      omega
    · have hpins := h.pins m
      rw [countP_erase_of hr] at hpins
      change Function.update (s.reg.nodePut node).pins node.owner
        ((s.reg.nodePut node).pins node.owner - 1) m = _
      rw [nodePut_pins]
      by_cases hm : m = node.owner
      · subst hm
        rw [Function.update_self, hpins]
        simp [CrcRef.pinned, htook]
      · have hm' : node.owner ≠ m := fun heq => hm heq.symm
        rw [Function.update_of_ne hm, hpins]
        simp [CrcRef.pinned, htook, hm']

/-- The registration that is unregistered, and the others. -/
theorem CrcInv.split_regs {P : Crcs κ b} {s : CrcRun κ μ} (h : CrcInv P s) {node : CrcNode κ μ}
    (hnode : node ∈ s.reg.nodes) (hreg : node.registered = true) :
    ∃ l₁ l₂, s.regs = l₁ ++ (node.crc, node.id) :: l₂ ∧
      s.regs.eraseP (fun reg => decide (some reg.1 = some node.crc)) = l₁ ++ l₂ := by
  have hmem := (h.mem_regs hnode).mpr hreg
  obtain ⟨⟨c, id⟩, l₁, l₂, -, hc, heq, herase⟩ :=
    List.exists_of_eraseP (p := fun reg => decide (some reg.1 = some node.crc)) hmem (by simp)
  obtain rfl : c = node.crc := by simpa using hc
  have hsame : (node.crc, id) = (node.crc, node.id) :=
    List.inj_on_of_nodup_map h.single (by simp [heq]) hmem rfl
  rw [hsame] at heq
  exact ⟨l₁, l₂, heq, herase⟩

/-- A node after the registration of the one with this id is taken back. -/
def CrcNode.unregistered (id : Nat) (n : CrcNode κ μ) : CrcNode κ μ :=
  if n.id = id then { n with registered := false } else n

section Unregistered

omit [DecidableEq κ] [DecidableEq μ]

variable (id : Nat) (n : CrcNode κ μ)

@[simp] theorem CrcNode.unregistered_id : (n.unregistered id).id = n.id := by
  unfold unregistered
  split <;> rfl

@[simp] theorem CrcNode.unregistered_crc : (n.unregistered id).crc = n.crc := by
  unfold unregistered
  split <;> rfl

@[simp] theorem CrcNode.unregistered_owner : (n.unregistered id).owner = n.owner := by
  unfold unregistered
  split <;> rfl

@[simp] theorem CrcNode.unregistered_refs : (n.unregistered id).refs = n.refs := by
  unfold unregistered
  split <;> rfl

end Unregistered

theorem CrcInv.unregister_nodes {P : Crcs κ b} {s : CrcRun κ μ} {node : CrcNode κ μ}
    (h : CrcInv P s) (hmem : node ∈ s.reg.nodes) :
    ((s.reg.onNode node.id fun n => { n with registered := false }).nodePut node).nodes =
      s.reg.nodes.filterMap fun n => (n.unregistered node.id).dropped node.id := by
  have hlive := h.live node hmem
  have hsame : ∀ n ∈ (s.reg.onNode node.id fun n => { n with registered := false }).nodes,
      n.id = node.id → n.refs = node.refs := by
    intro n hn hid
    obtain ⟨m, hm, rfl⟩ := List.mem_map.mp hn
    by_cases hid' : m.id = node.id
    · rw [if_pos hid', h.eq_of_id hm hmem hid']
    · rw [if_neg hid'] at hid
      exact absurd hid hid'
  rw [nodePut_nodes hlive.1 hlive.2 hsame]
  exact List.filterMap_map

theorem CrcInv.unregister {P : Crcs κ b} {s : CrcRun κ μ} {crc : Option κ} (h : CrcInv P s)
    (hok : ∀ node, crc.bind (csumNodeOf s.reg) = some node → node.registered = true) :
    CrcInv P { s with
      reg := crcUnregister s.reg crc
      regs := s.regs.eraseP fun reg => decide (some reg.1 = crc) } := by
  unfold crcUnregister
  cases hnode : crc.bind (csumNodeOf s.reg) with
  | none =>
    have hnot : ∀ reg ∈ s.regs, ¬ decide (some reg.1 = crc) = true := by
      rintro ⟨c, id⟩ hreg hc
      obtain ⟨n, hn, rfl, -⟩ := (h.regs c id).mp hreg
      rw [← of_decide_eq_true hc] at hnode
      have := List.find?_eq_none.mp hnode n hn
      simp at this
    rw [List.eraseP_of_forall_not hnot]
    exact h
  | some node =>
    obtain ⟨c, rfl, hfind⟩ := Option.bind_eq_some_iff.mp hnode
    obtain ⟨hmem, rfl⟩ := csumNodeOf_mem hfind
    obtain ⟨l₁, l₂, hregs, herase⟩ := h.split_regs hmem (hok node hnode)
    rw [herase]
    simp only
    have htally : ∀ n : CrcNode κ μ, s.regs.countP (fun reg => decide (reg.2 = n.id)) =
        (l₁ ++ l₂).countP (fun reg => decide (reg.2 = n.id)) +
          if n.id = node.id then 1 else 0 := by
      intro n
      rw [hregs, List.countP_append, List.countP_cons, List.countP_append]
      simp [eq_comm, Nat.add_assoc]
    have hrest : ∀ reg, reg ∈ s.regs ↔ reg = (node.crc, node.id) ∨ reg ∈ l₁ ++ l₂ := by
      intro reg
      rw [hregs]
      simp [or_left_comm]
    have hgone : (node.crc, node.id) ∉ l₁ ++ l₂ := by
      have hnodup := h.single
      rw [hregs, (List.perm_middle.map Prod.fst).nodup_iff, List.map_cons, List.nodup_cons] at hnodup
      exact fun hm => hnodup.1 (List.mem_map_of_mem hm)
    refine h.update (fun n => (n.unregistered node.id).dropped node.id) ?_ ?_
      (fun n n' hu => ?_) (fun n hn n' hu => ?_) (fun n hn => ?_) ?_ (fun r hr t ht => ?_) fun m => ?_
    · exact h.unregister_nodes hmem
    · rw [nodePut_added]
      rfl
    · obtain ⟨hid, hcrc, howner, -⟩ := CrcNode.dropped_keeps hu
      rw [hid, hcrc, howner]
      simp
    · have hpos := (h.live n hn).1
      have hle := (h.live n hn).2
      have hrefs := h.refs n hn
      obtain ⟨hpos', hdrop⟩ := CrcNode.dropped_refs hu (by simpa using hpos)
      rw [htally n] at hrefs
      simp only [CrcNode.unregistered_refs, CrcNode.unregistered_id] at hdrop
      simp only
      omega
    · by_cases hid : n.id = node.id
      · rw [h.eq_of_id hn hmem hid]
        refine iff_of_false hgone ?_
        rintro ⟨n', hu, hreg⟩
        rw [(CrcNode.dropped_keeps hu).2.2.2] at hreg
        simp [CrcNode.unregistered] at hreg
      · have hne : (n.crc, n.id) ≠ (node.crc, node.id) := fun heq => hid (Prod.mk.inj heq).2
        have hmine := (hrest (n.crc, n.id)).trans (or_iff_right hne)
        rw [← hmine, h.mem_regs hn]
        simp [CrcNode.unregistered, CrcNode.dropped, hid]
    · rw [hregs]
      exact (List.Sublist.refl _).append (List.sublist_cons_self ..)
    · -- A reference held keeps the node over the end of its registration.
      obtain ⟨m, hm, rfl⟩ := h.held r hr t ht
      refine ⟨m, hm, rfl, ?_⟩
      rw [Option.isSome_iff_ne_none]
      intro hnone
      obtain ⟨hid, hone⟩ := CrcNode.dropped_eq_none.mp hnone
      rw [CrcNode.unregistered_id] at hid
      rw [CrcNode.unregistered_refs] at hone
      have hrefs := h.refs m (csumNodeOf_mem hm).1
      rw [htally m, if_pos hid] at hrefs
      have hcount : 0 < s.held.countP (CrcRef.tookNode m.id) :=
        List.countP_pos_iff.mpr ⟨r, hr, by simp [CrcRef.tookNode, ht]⟩
      omega
    · rw [nodePut_pins]
      exact h.pins m

theorem CrcInv.step {P : Crcs κ b} {s s' : CrcRun κ μ} {a : CrcAct κ μ} (h : CrcInv P s)
    (hok : crcKeeps P s a) (hs : crcStep P s a = some s') : CrcInv P s' := by
  cases a with
  | register crc owner mem =>
    simp only [crcStep] at hs
    split at hs
    next hreg =>
      cases hs
      exact h.register hreg
    next =>
      cases hs
      exact h
  | unregister crc =>
    simp only [crcStep] at hs
    split at hs
    · cases hs
      exact h.unregister hok
    · cases hs
  | find name live =>
    cases hs
    unfold crcFind
    cases hlook : name.bind (lookupCsum P s.reg) with
    | none => simpa [CrcRun.took] using h
    | some crc => exact h.hold (hok crc hlook)
  | get crc live =>
    cases hs
    cases crc with
    | none => simpa [CrcRun.took, csumGet] using h
    | some crc => exact h.hold (hok crc rfl)
  | put r =>
    simp only [crcStep] at hs
    split at hs
    next hr =>
      cases hs
      exact h.put hr hok
    next => cases hs

/-! ## The accounting -/

theorem CrcInv.accounted {P : Crcs κ b} {s : CrcRun κ μ} (h : CrcInv P s) : s.Accounted P where
  freed id := by
    constructor
    · rintro ⟨node, hnode, rfl⟩
      have hrefs := h.refs node hnode
      have hlive := (h.live node hnode).1
      by_cases hheld : 0 < s.held.countP (CrcRef.tookNode node.id)
      · exact .inr (List.countP_pos_iff.mp hheld)
      · have hpos : 0 < s.regs.countP fun reg => decide (reg.2 = node.id) := by omega
        obtain ⟨⟨crc, id⟩, hreg, hid⟩ := List.countP_pos_iff.mp hpos
        rw [← of_decide_eq_true hid]
        exact .inl ⟨crc, hreg⟩
    · rintro (⟨crc, hreg⟩ | ⟨r, hr, htook⟩)
      · obtain ⟨node, hnode, -, hid, -⟩ := (h.regs crc id).mp hreg
        exact ⟨node, hnode, hid⟩
      · obtain ⟨t, ht, rfl⟩ := Option.map_eq_some_iff.mp (of_decide_eq_true htook)
        obtain ⟨node, hnode, rfl⟩ := h.held r hr t ht
        exact ⟨node, (csumNodeOf_mem hnode).1, rfl⟩
  refs := h.refs
  pins := h.pins
  found name := by
    rw [lookupCsum, Option.isSome_or, Bool.or_eq_true, Option.isSome_map, List.find?_isSome,
      List.find?_isSome]
    constructor
    · rintro (⟨crc, hcrc, hname⟩ | ⟨node, hnode, hname⟩)
      · exact ⟨crc, .inl hcrc, hname⟩
      · rw [Bool.and_eq_true] at hname
        exact ⟨node.crc, .inr ⟨node.id, (h.mem_regs hnode).mpr hname.1⟩, hname.2⟩
    · rintro ⟨crc, hcrc | ⟨id, hreg⟩, hname⟩
      · exact .inl ⟨crc, hcrc, hname⟩
      · obtain ⟨node, hnode, rfl, -, hr⟩ := (h.regs crc id).mp hreg
        exact .inr ⟨node, hnode, by rw [hr, hname]; rfl⟩

/-- With every module loaded, a find succeeds where the lookup does. -/
theorem crcFind_isSome (P : Crcs κ b) (s : Registry κ μ) (name : List Char) :
    (crcFind P s (some name) fun _ => true).1.isSome = (lookupCsum P s name).isSome := by
  unfold crcFind csumHold
  rw [Option.bind_some]
  cases lookupCsum P s name with
  | none => rfl
  | some crc =>
    simp only
    cases csumNodeOf s crc <;> rfl

/-- Where every operation finds the node it is meant for: the registry is accounted for, a name is
found if it is that of a built-in checksum or of a registration in force, and a put drops the count
and the pin that its reference took. -/
theorem registry_accounts {P : Crcs κ b} {s : CrcRun κ μ}
    (h : Reachable CrcRun.init (crcStep P) (crcKeeps P) s) :
    s.Accounted P ∧
      (∀ name, (crcFind P s.reg (some name) fun _ => true).1.isSome ↔
        ∃ crc, (crc ∈ P.builtIn ∨ ∃ id, (crc, id) ∈ s.regs) ∧ P.named name crc = true) ∧
      ∀ r ∈ s.held, crcKeeps P s (.put r) →
        match r.took with
        | none => csumPut s.reg (some r.crc) = s.reg
        | some (id, owner) => ∃ node ∈ s.reg.nodes, node.id = id ∧
          csumPut s.reg (some r.crc) = (s.reg.nodePut node).modulePut owner := by
  have hinv : CrcInv P s := h.invariant (crcInv_init P) fun hi hok hs => hi.step hok hs
  have hacc := hinv.accounted
  refine ⟨hacc, fun name => ?_, fun r hr hok => ?_⟩
  · rw [crcFind_isSome]
    exact hacc.found name
  · split
    next htook => exact csumPut_none (hok htook)
    next id owner htook =>
      obtain ⟨node, hnode, heq⟩ := hinv.held r hr _ htook
      obtain ⟨rfl, rfl⟩ := Prod.mk.inj heq
      refine ⟨node, (csumNodeOf_mem hnode).1, rfl, ?_⟩
      simp only [csumPut, Option.bind_some, hnode]

/-- A put that drops a count no reference took unpins a module that is in use. -/
theorem put_breaks {P : Crcs κ b} {s : CrcRun κ μ} {r : CrcRef κ μ} {node : CrcNode κ μ}
    (h : CrcInv P s) (hr : r ∈ s.held) (htook : r.took = none)
    (hnode : csumNodeOf s.reg r.crc = some node) :
    ¬ CrcRun.Accounted P { s with reg := csumPut s.reg (some r.crc), held := s.held.erase r } := by
  intro hacc
  have hput : csumPut s.reg (some r.crc) = (s.reg.nodePut node).modulePut node.owner := by
    simp only [csumPut, Option.bind_some, hnode]
  have hpins := hacc.pins node.owner
  have hbefore := h.pins node.owner
  rw [countP_erase_of hr] at hbefore
  rw [hput] at hpins
  change Function.update (s.reg.nodePut node).pins node.owner
    ((s.reg.nodePut node).pins node.owner - 1) node.owner = _ at hpins
  rw [Function.update_self, nodePut_pins, hbefore] at hpins
  simp [CrcRef.pinned, htook] at hpins

/-- An unregister that finds an older node drops a count of its holders. -/
theorem unregister_breaks {P : Crcs κ b} {s : CrcRun κ μ} {crc : κ} {node : CrcNode κ μ}
    (h : CrcInv P s) (hnode : csumNodeOf s.reg crc = some node) (hreg : node.registered = false) :
    ¬ CrcRun.Accounted P { s with
      reg := crcUnregister s.reg (some crc)
      regs := s.regs.eraseP fun reg => decide (some reg.1 = some crc) } := by
  intro hacc
  have hmem := (csumNodeOf_mem hnode).1
  have hlive := h.live node hmem
  have hrefs := h.refs node hmem
  have hnone : s.regs.countP (fun reg => decide (reg.2 = node.id)) = 0 := by
    rw [List.countP_eq_zero]
    rintro ⟨c, id⟩ hc hid
    obtain ⟨m, hm, -, hid', hr⟩ := (h.regs c id).mp hc
    rw [h.eq_of_id hm hmem (hid'.trans (of_decide_eq_true hid)), hreg] at hr
    cases hr
  have hnodes : (crcUnregister s.reg (some crc)).nodes =
      s.reg.nodes.filterMap fun n => (n.unregistered node.id).dropped node.id := by
    rw [← h.unregister_nodes hmem]
    simp only [crcUnregister, Option.bind_some, hnode]
  cases hu : (node.unregistered node.id).dropped node.id with
  | none =>
    have hone := (CrcNode.dropped_eq_none.mp hu).2
    rw [CrcNode.unregistered_refs] at hone
    have hheld : 0 < s.held.countP (CrcRef.tookNode node.id) := by omega
    obtain ⟨n', hn', hid⟩ := (hacc.freed node.id).mpr (.inr (List.countP_pos_iff.mp hheld))
    simp only [hnodes, List.mem_filterMap] at hn'
    obtain ⟨n, hn, hu'⟩ := hn'
    have hsame : n.id = node.id := by
      rw [← hid, (CrcNode.dropped_keeps hu').1, CrcNode.unregistered_id]
    rw [h.eq_of_id hn hmem hsame, hu] at hu'
    cases hu'
  | some n' =>
    have hmem' : n' ∈ (crcUnregister s.reg (some crc)).nodes := by
      rw [hnodes]
      exact List.mem_filterMap.mpr ⟨node, hmem, hu⟩
    have hrefs' := hacc.refs n' hmem'
    have hid : n'.id = node.id := by
      rw [(CrcNode.dropped_keeps hu).1, CrcNode.unregistered_id]
    have hdrop := (CrcNode.dropped_refs hu (by simpa using hlive.1)).2
    rw [CrcNode.unregistered_refs, CrcNode.unregistered_id, if_pos rfl] at hdrop
    have hle := (List.eraseP_sublist (p := fun reg => decide (some reg.1 = some crc))
      (l := s.regs)).countP_le (p := fun reg => decide (reg.2 = node.id))
    simp only [hid] at hrefs'
    omega

/-- A hold that overflows the counter leaves it behind the references. -/
theorem hold_breaks {P : Crcs κ b} {s : CrcRun κ μ} {crc : κ} {live : μ → Bool} (h : CrcInv P s)
    (hroom : ¬ s.reg.hasRoom crc live) :
    ¬ CrcRun.Accounted P (s.took (if (csumHold s.reg crc live).1 then some crc else none,
      (csumHold s.reg crc live).2)) := by
  intro hacc
  simp only [Registry.hasRoom, not_forall, Nat.not_lt] at hroom
  obtain ⟨node, hnode, hlive, hmax⟩ := hroom
  have hmem := (csumNodeOf_mem hnode).1
  have hrefs := h.refs node hmem
  have hfull : node.refs = refcountMax := le_antisymm (h.live node hmem).2 hmax
  have href : s.reg.ref crc = ⟨crc, some (node.id, node.owner)⟩ := by
    rw [Registry.ref, hnode]
    rfl
  have hinc : refcountInc node.refs = refcountSaturated := by
    rw [refcountInc, if_pos (.inr hmax)]
  simp only [csumHold, hnode, hlive, if_true, CrcRun.took, Option.map_some, Option.toList_some,
    href] at hacc
  have hrefs' := hacc.refs { node with refs := refcountInc node.refs }
    (List.mem_map.mpr ⟨node, hmem, by simp⟩)
  simp only [hinc, List.countP_append] at hrefs'
  have hnew : [CrcRef.mk crc (some (node.id, node.owner))].countP (CrcRef.tookNode node.id) = 1 := by
    simp [CrcRef.tookNode]
  rw [hnew, ← Nat.add_assoc, ← hrefs, hfull] at hrefs'
  simp [refcountSaturated, refcountMax] at hrefs'

/-- A step finds the nodes it is meant for, or the accounts are wrong right after it. -/
theorem crcStep_accounted_iff {P : Crcs κ b} {s s' : CrcRun κ μ} {a : CrcAct κ μ} (h : CrcInv P s)
    (hs : crcStep P s a = some s') : s'.Accounted P ↔ crcKeeps P s a := by
  refine ⟨fun hacc => ?_, fun hok => (h.step hok hs).accounted⟩
  by_contra hbad
  cases a with
  | register crc owner mem => exact hbad trivial
  | unregister crc =>
    simp only [crcKeeps, not_forall, Bool.not_eq_true] at hbad
    obtain ⟨node, hnode, hreg⟩ := hbad
    obtain ⟨crc, rfl, hfind⟩ := Option.bind_eq_some_iff.mp hnode
    simp only [crcStep] at hs
    split at hs
    · cases hs
      exact unregister_breaks h hfind hreg hacc
    · cases hs
  | find name live =>
    simp only [crcKeeps, not_forall] at hbad
    obtain ⟨crc, hlook, hroom⟩ := hbad
    cases hs
    simp only [crcFind, hlook] at hacc
    exact hold_breaks h hroom hacc
  | get crc live =>
    simp only [crcKeeps, not_forall] at hbad
    obtain ⟨c, rfl, hroom⟩ := hbad
    cases hs
    exact hold_breaks h hroom hacc
  | put r =>
    simp only [crcKeeps, Classical.not_imp] at hbad
    obtain ⟨htook, hsome⟩ := hbad
    obtain ⟨node, hnode⟩ := Option.ne_none_iff_exists'.mp hsome
    simp only [crcStep] at hs
    split at hs
    next hr =>
      cases hs
      exact put_breaks h hr htook hnode hacc
    next => cases hs

end Operations

/-- An exclusive or of the octets, registered as "xor". -/
def xorDesc : CrcDesc 8 := ⟨some ['x', 'o', 'r'], some lrc.rx, none, 0, 0, 1⟩

/-- A module with the one descriptor, and no built-in checksum. -/
def xorCrcs : Crcs Unit 8 := ⟨fun _ => xorDesc, []⟩

/-- Enough for `crcKeeps`, of the operations run below. -/
def crcKeepsB (s : CrcRun Unit Unit) : CrcAct Unit Unit → Bool
  | .unregister _ => s.reg.nodes.all CrcNode.registered
  | .find _ _ => s.reg.nodes.all fun node => decide (node.refs < refcountMax)
  | .register .. => true
  | _ => false

theorem crcKeeps_of {s : CrcRun Unit Unit} {a : CrcAct Unit Unit} (h : crcKeepsB s a = true) :
    crcKeeps xorCrcs s a := by
  cases a with
  | register crc owner mem => trivial
  | unregister crc =>
    intro node hnode
    obtain ⟨c, -, hfind⟩ := Option.bind_eq_some_iff.mp hnode
    exact List.all_eq_true.mp h node (csumNodeOf_mem hfind).1
  | find name live =>
    intro crc _ node hnode _
    exact of_decide_eq_true (List.all_eq_true.mp h node (csumNodeOf_mem hnode).1)
  | get crc live => cases h
  | put r => cases h

/-- A link holds the checksum when it is unregistered. -/
def registerHeld : List (CrcAct Unit Unit) :=
  [.register (some ()) () true, .find (some ['x', 'o', 'r', '\n']) fun _ => true,
    .unregister (some ())]

/-- Registered again and unregistered, the checksum is taken from the link that holds it, and stays
on offer. -/
theorem registry_crosses_counts :
    ¬ ∀ s : CrcRun Unit Unit, Reachable CrcRun.init (crcStep xorCrcs) (fun _ _ => True) s →
      s.Accounted xorCrcs := by
  obtain ⟨s, hs, hbad⟩ := Reachable.of_exec CrcRun.init (crcStep xorCrcs) (fun _ _ => true)
    (registerHeld ++ [.register (some ()) () true, .unregister (some ())])
    (fun s => s.held.any (CrcRef.tookNode 0) && s.reg.nodes.all fun node => node.id != 0)
    (by decide +kernel) (by decide +kernel)
  rw [Bool.and_eq_true, List.any_eq_true, List.all_eq_true] at hbad
  intro hall
  obtain ⟨node, hnode, hid⟩ := ((hall s (hs.mono fun _ _ _ => trivial)).freed 0).mpr (.inr hbad.1)
  simpa [hid] using hbad.2 node hnode

/-- The node outlives its registration for the link that holds it. -/
theorem registry_accounts_held :
    ∃ s : CrcRun Unit Unit, s.regs = [] ∧ s.held = [⟨(), some (0, ())⟩] ∧ s.Accounted xorCrcs := by
  obtain ⟨s, hs, hend⟩ := Reachable.of_exec CrcRun.init (crcStep xorCrcs) crcKeepsB registerHeld
    (fun s => decide (s.regs = []) && decide (s.held = [⟨(), some (0, ())⟩]))
    (by decide +kernel) (by decide +kernel)
  rw [Bool.and_eq_true, decide_eq_true_eq, decide_eq_true_eq] at hend
  exact ⟨s, hend.1, hend.2, (registry_accounts (hs.mono fun _ _ => crcKeeps_of)).1⟩

end Ludlc.Linux
