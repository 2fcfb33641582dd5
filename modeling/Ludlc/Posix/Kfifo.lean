import Ludlc.Lib.Runs

/-! # The FIFO between a producer and a consumer

`kfifo.h` of the POSIX port. The two indices are words that run freely and wrap, the storage wraps at its
size, which is a power of two, and each side acts on what it loaded of the other's index.
-/

namespace Ludlc.Posix

open Runs

variable {k : Nat} {α : Type}

/-- `struct kfifo`, with `2 ^ k` octets of storage. -/
structure Kfifo (α : Type) where
  data : Nat → α
  inIdx : BitVec 32
  outIdx : BitVec 32

/-- `fifo->size`. -/
def fifoSize (k : Nat) : BitVec 32 := BitVec.ofNat 32 (2 ^ k)

/-- Where an index points: `i & (fifo->size - 1)`. -/
def fifoOffset (k : Nat) (i : BitVec 32) : BitVec 32 := i &&& (fifoSize k - 1)

/-- Octets from there to the end of the storage. -/
def fifoToEnd (k : Nat) (i : BitVec 32) : Nat := (fifoSize k - fifoOffset k i).toNat

/-- Octets used: `in - out`. -/
def fifoUsed (i o : BitVec 32) : Nat := (i - o).toNat

/-- Octets free: `fifo->size - (in - out)`. -/
def fifoFree (k : Nat) (i o : BitVec 32) : Nat := (fifoSize k - (i - o)).toNat

/-- `kfifo_init`. -/
def Kfifo.init (data : Nat → α) : Kfifo α := ⟨data, 0, 0⟩

/-- `kfifo_is_empty`. -/
def Kfifo.isEmpty (f : Kfifo α) : Bool := f.inIdx == f.outIdx

/-- `kfifo_len`. -/
def Kfifo.len (f : Kfifo α) : BitVec 32 := f.inIdx - f.outIdx

/-- `kfifo_is_full`. -/
def Kfifo.isFull (k : Nat) (f : Kfifo α) : Bool := f.len == fifoSize k

/-- `kfifo_put_claim` from the indices it loads: where the region begins, and its octets. -/
def putClaim (k : Nat) (i o : BitVec 32) (n : Nat) : Nat × Nat :=
  ((fifoOffset k i).toNat, min (min n (fifoFree k i o)) (fifoToEnd k i))

/-- `kfifo_get_claim` from the indices it loads. -/
def getClaim (k : Nat) (i o : BitVec 32) (n : Nat) : Nat × Nat :=
  ((fifoOffset k o).toNat, min (min n (fifoUsed i o)) (fifoToEnd k o))

/-- The octet of the storage that the `j`th one copied goes to or comes from, where a copy of two parts
has `l` octets in the first. -/
def copyAt (k : Nat) (i : BitVec 32) (l j : Nat) : Nat :=
  if j < l then (fifoOffset k i).toNat + j else j - l

/-! ## The steps of the two sides -/

inductive PutOp (α : Type)
  | put (val : α)
  | «in» (src : List α)
  | claim (n : Nat)

/-- Where the producer is: between its two loads, copying `src` with `done` octets copied, with a region
that it fills in place, or about to store its index. -/
inductive PutPc (α : Type)
  | idle
  | loaded (op : PutOp α) (i : BitVec 32)
  | copy (i : BitVec 32) (l : Nat) (src : List α) (done : Nat)
  | claimed (head : Nat) (buf : List α)
  | store (i : BitVec 32) (src : List α)

inductive GetOp
  | get
  | out (sz : Nat)
  | claim (n : Nat)

/-- Where the consumer is. `dst` holds the octets copied so far, of `sz`. -/
inductive GetPc (α : Type)
  | idle
  | loaded (op : GetOp) (i : BitVec 32)
  | copy (o : BitVec 32) (l sz : Nat) (dst : List α)
  | claimed (tail n : Nat)
  | store (o : BitVec 32) (dst : List α)

/-- The FIFO and its two users. `produced` and `consumed` are the octets put and got so far, `peeked` the
octets read in place with their numbers. -/
structure Spsc (α : Type) where
  fifo : Kfifo α
  put : PutPc α
  get : GetPc α
  produced : List α
  consumed : List α
  peeked : List (Nat × α)

def Spsc.init (data : Nat → α) : Spsc α := ⟨Kfifo.init data, .idle, .idle, [], [], []⟩

/-- `begin` is the first load of a function, `load` its second. -/
inductive PutAct (α : Type)
  | begin (op : PutOp α)
  | load
  | copy
  | write (j : Nat) (val : α)
  | abandon
  | finish (count : Nat)
  | store

inductive GetAct
  | begin (op : GetOp)
  | load
  | copy
  | peek (j : Nat)
  | abandon
  | finish (count : Nat)
  | store

/-- The octets of the storage from `off` on. -/
def Kfifo.region (f : Kfifo α) (off n : Nat) : List α := (List.range n).map fun j => f.data (off + j)

/-- What the producer does once both indices are loaded. -/
def putLoaded (k : Nat) (f : Kfifo α) (i o : BitVec 32) : PutOp α → PutPc α
  | .put val => if (fifoSize k).toNat ≤ fifoUsed i o then .idle else .copy i 1 [val] 0
  | .in src =>
    let len := min src.length (fifoFree k i o)
    .copy i (min len (fifoToEnd k i)) (src.take len) 0
  | .claim n =>
    let r := putClaim k i o n
    .claimed r.1 (f.region r.1 r.2)

def putStep (k : Nat) (s : Spsc α) (a : PutAct α) : Option (Spsc α) :=
  match s.put, a with
  | .idle, .begin op => some { s with put := .loaded op s.fifo.inIdx }
  | .loaded op i, .load => some { s with put := putLoaded k s.fifo i s.fifo.outIdx op }
  | .copy i l src done, .copy =>
    match src[done]? with
    | some val =>
      some { s with
        fifo := { s.fifo with data := Function.update s.fifo.data (copyAt k i l done) val }
        put := .copy i l src (done + 1) }
    | none => some { s with put := .store i src }
  | .claimed head buf, .write j val =>
    if j < buf.length then
      some { s with
        fifo := { s.fifo with data := Function.update s.fifo.data (head + j) val }
        put := .claimed head (buf.set j val) }
    else none
  | .claimed _ _, .abandon => some { s with put := .idle }
  | .claimed _ buf, .finish count =>
    if count ≤ buf.length then some { s with put := .store s.fifo.inIdx (buf.take count) } else none
  | .store i src, .store =>
    some { s with
      fifo := { s.fifo with inIdx := i + BitVec.ofNat 32 src.length }, put := .idle
      produced := s.produced ++ src }
  | _, _ => none

/-- What the consumer does once both indices are loaded. -/
def getLoaded (k : Nat) (i o : BitVec 32) : GetOp → GetPc α
  | .get => if i = o then .idle else .copy o 1 1 []
  | .out sz =>
    let sz := min sz (fifoUsed i o)
    .copy o (min sz (fifoToEnd k o)) sz []
  | .claim n => .claimed (getClaim k i o n).1 (getClaim k i o n).2

def getStep (k : Nat) (s : Spsc α) (a : GetAct) : Option (Spsc α) :=
  match s.get, a with
  | .idle, .begin op => some { s with get := .loaded op s.fifo.inIdx }
  | .loaded op i, .load => some { s with get := getLoaded k i s.fifo.outIdx op }
  | .copy o l sz dst, .copy =>
    if dst.length < sz then
      some { s with get := .copy o l sz (dst ++ [s.fifo.data (copyAt k o l dst.length)]) }
    else some { s with get := .store o dst }
  | .claimed tail n, .peek j =>
    if j < n then
      some { s with peeked := s.peeked ++ [(s.consumed.length + j, s.fifo.data (tail + j))] }
    else none
  | .claimed _ _, .abandon => some { s with get := .idle }
  | .claimed tail n, .finish count =>
    if count ≤ n then some { s with get := .store s.fifo.outIdx (s.fifo.region tail count) } else none
  | .store o dst, .store =>
    some { s with
      fifo := { s.fifo with outIdx := o + BitVec.ofNat 32 dst.length }, get := .idle
      consumed := s.consumed ++ dst }
  | _, _ => none

def spscStep (k : Nat) (s : Spsc α) : PutAct α ⊕ GetAct → Option (Spsc α)
  | .inl a => putStep k s a
  | .inr a => getStep k s a

/-! ## The indices -/

section Indices

variable {p c : Nat}

theorem fifoSize_toNat (hk : k < 32) : (fifoSize k).toNat = 2 ^ k := by
  rw [fifoSize, BitVec.toNat_ofNat]
  exact Nat.mod_eq_of_lt (Nat.pow_lt_pow_right (by decide) hk)

theorem fifoSize_lt (hk : k < 32) : 2 ^ k < 2 ^ 32 := Nat.pow_lt_pow_right (by decide) hk

/-- An index points where the number of octets that went past it does. -/
theorem fifoOffset_toNat (hk : k < 32) (p : Nat) :
    (fifoOffset k (BitVec.ofNat 32 p)).toNat = p % 2 ^ k := by
  have hlt := fifoSize_lt hk
  have hpos : 0 < 2 ^ k := Nat.two_pow_pos k
  have hmask : (fifoSize k - 1).toNat = 2 ^ k - 1 := by
    have hone : (1 : BitVec 32).toNat = 1 := rfl
    rw [BitVec.toNat_sub, fifoSize_toNat hk, hone]
    omega
  rw [fifoOffset, BitVec.toNat_and, hmask, Nat.and_two_pow_sub_one_eq_mod, BitVec.toNat_ofNat]
  exact Nat.mod_mod_of_dvd p (Nat.pow_dvd_pow 2 hk.le)

theorem sub_ofNat {m n : Nat} (h : m ≤ n) :
    BitVec.ofNat 32 n - BitVec.ofNat 32 m = BitVec.ofNat 32 (n - m) := by
  rw [sub_eq_iff_eq_add, ← BitVec.ofNat_add, Nat.sub_add_cancel h]

theorem fifoUsed_eq (h : c ≤ p) (hlt : p - c < 2 ^ 32) :
    fifoUsed (BitVec.ofNat 32 p) (BitVec.ofNat 32 c) = p - c := by
  rw [fifoUsed, sub_ofNat h, BitVec.toNat_ofNat, Nat.mod_eq_of_lt hlt]

theorem fifoFree_eq (hk : k < 32) (h : c ≤ p) (hle : p ≤ c + 2 ^ k) :
    fifoFree k (BitVec.ofNat 32 p) (BitVec.ofNat 32 c) = 2 ^ k - (p - c) := by
  have hlt := fifoSize_lt hk
  rw [fifoFree, sub_ofNat h, fifoSize, sub_ofNat (by omega), BitVec.toNat_ofNat,
    Nat.mod_eq_of_lt (by omega)]

theorem fifoToEnd_eq (hk : k < 32) (p : Nat) : fifoToEnd k (BitVec.ofNat 32 p) = 2 ^ k - p % 2 ^ k := by
  have hlt := fifoSize_lt hk
  have hmod : p % 2 ^ k < 2 ^ k := Nat.mod_lt p (Nat.two_pow_pos k)
  rw [fifoToEnd, BitVec.toNat_sub, fifoOffset_toNat hk, fifoSize_toNat hk]
  omega

/-- An offset short of the end of the storage is that of the octet. -/
theorem offset_add {n j : Nat} (h : p % n + j < n) : p % n + j = (p + j) % n := by
  rw [← Nat.mod_add_mod, Nat.mod_eq_of_lt h]

/-- The two parts of a copy put each octet where its number points. -/
theorem copyAt_eq (hk : k < 32) {len j : Nat} (hj : j < len) (hlen : len ≤ 2 ^ k) :
    copyAt k (BitVec.ofNat 32 p) (min len (2 ^ k - p % 2 ^ k)) j = (p + j) % 2 ^ k := by
  have hmod : p % 2 ^ k < 2 ^ k := Nat.mod_lt p (Nat.two_pow_pos k)
  rw [copyAt, fifoOffset_toNat hk]
  split
  · exact offset_add (by omega)
  · have hwrap : p % 2 ^ k + j = j - min len (2 ^ k - p % 2 ^ k) + 2 ^ k := by omega
    have hlt : j - min len (2 ^ k - p % 2 ^ k) < 2 ^ k := by omega
    rw [← Nat.mod_add_mod, hwrap, Nat.add_mod_right, Nat.mod_eq_of_lt hlt]

/-- Octets less than a size apart do not share their place. -/
theorem mod_ne {n i j : Nat} (hlt : i < j) (h : j < i + n) : i % n ≠ j % n := by
  intro heq
  have hmod : i ≡ j [MOD n] := heq
  have hdvd := (Nat.modEq_iff_dvd' hlt.le).mp hmod
  have := Nat.le_of_dvd (by omega) hdvd
  omega

end Indices

/-! ## The invariant -/

/-- What the producer knows: what it takes fits behind the octets already put, `p` of which `c` are
consumed, and what it copied is in the storage. -/
def PutPc.Ok (k p c : Nat) (data : Nat → α) : PutPc α → Prop
  | .idle => True
  | .loaded _ i => i = BitVec.ofNat 32 p
  | .copy i l src done => i = BitVec.ofNat 32 p ∧ l = min src.length (2 ^ k - p % 2 ^ k) ∧
      p + src.length ≤ c + 2 ^ k ∧ done ≤ src.length ∧
      ∀ j < done, src[j]? = some (data ((p + j) % 2 ^ k))
  | .claimed head buf => head = p % 2 ^ k ∧ head + buf.length ≤ 2 ^ k ∧ p + buf.length ≤ c + 2 ^ k ∧
      ∀ j < buf.length, buf[j]? = some (data ((p + j) % 2 ^ k))
  | .store i src => i = BitVec.ofNat 32 p ∧ p + src.length ≤ c + 2 ^ k ∧
      ∀ j < src.length, src[j]? = some (data ((p + j) % 2 ^ k))

/-- What the consumer knows: what it takes was put before, and what it copied is what was put. -/
def GetPc.Ok (k c : Nat) (produced : List α) : GetPc α → Prop
  | .idle => True
  | .loaded _ i => ∃ p, i = BitVec.ofNat 32 p ∧ c ≤ p ∧ p ≤ produced.length
  | .copy o l sz dst => o = BitVec.ofNat 32 c ∧ l = min sz (2 ^ k - c % 2 ^ k) ∧
      c + sz ≤ produced.length ∧ dst.length ≤ sz ∧ dst <+: produced.drop c
  | .claimed tail n => tail = c % 2 ^ k ∧ tail + n ≤ 2 ^ k ∧ c + n ≤ produced.length
  | .store o dst => o = BitVec.ofNat 32 c ∧ dst <+: produced.drop c

structure Spsc.Inv (k : Nat) (s : Spsc α) : Prop where
  inIdx : s.fifo.inIdx = BitVec.ofNat 32 s.produced.length
  outIdx : s.fifo.outIdx = BitVec.ofNat 32 s.consumed.length
  consumed : s.consumed <+: s.produced
  bound : s.produced.length ≤ s.consumed.length + 2 ^ k
  held : ∀ j, s.consumed.length ≤ j → j < s.produced.length →
    s.produced[j]? = some (s.fifo.data (j % 2 ^ k))
  put : s.put.Ok k s.produced.length s.consumed.length s.fifo.data
  get : s.get.Ok k s.consumed.length s.produced
  peeked : ∀ e ∈ s.peeked, s.produced[e.1]? = some e.2

theorem Spsc.inv_init (k : Nat) (data : Nat → α) : (Spsc.init data).Inv k where
  inIdx := rfl
  outIdx := rfl
  consumed := List.prefix_rfl
  bound := Nat.zero_le _
  held j _ h := absurd h (Nat.not_lt_zero j)
  put := trivial
  get := trivial
  peeked _ he := absurd he List.not_mem_nil

/-- Octets consumed make room. -/
theorem PutPc.Ok.mono {p c c' : Nat} {data : Nat → α} {pc : PutPc α} (h : pc.Ok k p c data)
    (hle : c ≤ c') : pc.Ok k p c' data := by
  cases pc with
  | idle => trivial
  | loaded op i => exact h
  | copy i l src done =>
    obtain ⟨hi, hl, hfit, hdone, hcopied⟩ := h
    exact ⟨hi, hl, by omega, hdone, hcopied⟩
  | claimed head buf =>
    obtain ⟨hhead, hend, hfit, hbuf⟩ := h
    exact ⟨hhead, hend, by omega, hbuf⟩
  | store i src =>
    obtain ⟨hi, hfit, hsrc⟩ := h
    exact ⟨hi, by omega, hsrc⟩

/-- What was put stays put. -/
theorem GetPc.Ok.append {c : Nat} {produced : List α} {pc : GetPc α} (h : pc.Ok k c produced)
    (src : List α) : pc.Ok k c (produced ++ src) := by
  have hdrop : produced.drop c <+: (produced ++ src).drop c := by
    rw [List.drop_append]
    exact List.prefix_append _ _
  cases pc with
  | idle => trivial
  | loaded op i =>
    obtain ⟨p, hi, hc, hp⟩ := h
    exact ⟨p, hi, hc, hp.trans (by simp)⟩
  | copy o l sz dst =>
    obtain ⟨ho, hl, hsz, hlen, hdst⟩ := h
    exact ⟨ho, hl, hsz.trans (by simp), hlen, hdst.trans hdrop⟩
  | claimed tail n =>
    obtain ⟨htail, hend, hn⟩ := h
    exact ⟨htail, hend, hn.trans (by simp)⟩
  | store o dst => exact ⟨h.1, h.2.trans hdrop⟩

theorem length_region (f : Kfifo α) (off n : Nat) : (f.region off n).length = n := by
  simp [Kfifo.region]

theorem getElem_region (f : Kfifo α) (off : Nat) {n j : Nat} (hj : j < n) :
    (f.region off n)[j]? = some (f.data (off + j)) := by
  simp [Kfifo.region, hj]

/-- The octets of a region that the consumer may read are those put next. -/
theorem Spsc.Inv.region {s : Spsc α} (h : s.Inv k) {n : Nat} (hend : s.consumed.length % 2 ^ k + n ≤ 2 ^ k)
    (hn : s.consumed.length + n ≤ s.produced.length) :
    s.fifo.region (s.consumed.length % 2 ^ k) n <+: s.produced.drop s.consumed.length := by
  rw [List.prefix_iff_getElem?]
  intro j hj
  rw [length_region] at hj
  have helem := getElem_region s.fifo (s.consumed.length % 2 ^ k) hj
  rw [List.getElem?_eq_getElem (by rw [length_region]; exact hj)] at helem
  rw [List.getElem?_drop, h.held _ (by omega) (by omega), helem, offset_add (by omega)]

/-- The producer's loads decide what fits. -/
theorem putLoaded_ok (hk : k < 32) {f : Kfifo α} {p c : Nat} (hc : c ≤ p) (hbound : p ≤ c + 2 ^ k)
    (op : PutOp α) :
    (putLoaded k f (BitVec.ofNat 32 p) (BitVec.ofNat 32 c) op).Ok k p c f.data := by
  have hsize := fifoSize_lt hk
  have hpos : 0 < 2 ^ k := Nat.two_pow_pos k
  have hmod : p % 2 ^ k < 2 ^ k := Nat.mod_lt p hpos
  cases op with
  | put val =>
    rw [putLoaded, fifoSize_toNat hk, fifoUsed_eq hc (by omega)]
    split
    · trivial
    · refine ⟨rfl, ?_, ?_, Nat.zero_le _, fun j hj => absurd hj (Nat.not_lt_zero j)⟩
      · simp only [List.length_cons, List.length_nil]
        omega
      · simp only [List.length_cons, List.length_nil]
        omega
  | «in» src =>
    rw [putLoaded, fifoFree_eq hk hc hbound, fifoToEnd_eq hk]
    refine ⟨rfl, ?_, ?_, Nat.zero_le _, fun j hj => absurd hj (Nat.not_lt_zero j)⟩
    · rw [List.length_take]
      omega
    · rw [List.length_take]
      omega
  | claim n =>
    rw [putLoaded, putClaim, fifoFree_eq hk hc hbound, fifoToEnd_eq hk, fifoOffset_toNat hk]
    refine ⟨rfl, ?_, ?_, fun j hj => ?_⟩
    · rw [length_region]
      omega
    · rw [length_region]
      omega
    · rw [length_region] at hj
      rw [getElem_region f _ hj, offset_add (by omega)]

/-- The consumer's loads decide what is there. -/
theorem getLoaded_ok (hk : k < 32) {produced : List α} {p c : Nat} (hc : c ≤ p)
    (hp : p ≤ produced.length) (hbound : p ≤ c + 2 ^ k) (op : GetOp) :
    (getLoaded k (BitVec.ofNat 32 p) (BitVec.ofNat 32 c) op : GetPc α).Ok k c produced := by
  have hsize := fifoSize_lt hk
  have hmod : c % 2 ^ k < 2 ^ k := Nat.mod_lt c (Nat.two_pow_pos k)
  have hused := fifoUsed_eq hc (show p - c < 2 ^ 32 by omega)
  cases op with
  | get =>
    rw [getLoaded]
    split
    · trivial
    · rename_i hne
      have hlt : c ≠ p := fun heq => hne (by rw [heq])
      exact ⟨rfl, by omega, by omega, Nat.zero_le _, List.nil_prefix⟩
  | out sz =>
    rw [getLoaded, hused, fifoToEnd_eq hk]
    exact ⟨rfl, rfl, by omega, Nat.zero_le _, List.nil_prefix⟩
  | claim n =>
    rw [getLoaded, getClaim, hused, fifoToEnd_eq hk, fifoOffset_toNat hk]
    refine ⟨rfl, ?_, ?_⟩
    · simp only
      omega
    · simp only
      omega

/-! ## A step of either side -/

theorem update_other {data : Nat → α} {p n i j : Nat} (hij : i ≠ j) (hi : i < n) (hj : j < n) (val : α) :
    Function.update data ((p + i) % n) val ((p + j) % n) = data ((p + j) % n) := by
  apply Function.update_of_ne
  rcases Nat.lt_or_gt_of_ne hij with hlt | hlt
  · exact (mod_ne (by omega) (by omega)).symm
  · exact mod_ne (by omega) (by omega)

/-- The producer writes behind the octets put, in the room it found. -/
theorem Spsc.Inv.write {s : Spsc α} (h : s.Inv k) {j : Nat} {val : α} {pc : PutPc α}
    (hj : s.produced.length + j < s.consumed.length + 2 ^ k)
    (hpc : pc.Ok k s.produced.length s.consumed.length
      (Function.update s.fifo.data ((s.produced.length + j) % 2 ^ k) val)) :
    { s with
      fifo := { s.fifo with
        data := Function.update s.fifo.data ((s.produced.length + j) % 2 ^ k) val }
      put := pc }.Inv k where
  inIdx := h.inIdx
  outIdx := h.outIdx
  consumed := h.consumed
  bound := h.bound
  held i hc hp := by
    simp only at hc hp ⊢
    have hother : i % 2 ^ k ≠ (s.produced.length + j) % 2 ^ k := mod_ne (by omega) (by omega)
    rw [Function.update_of_ne hother]
    exact h.held i hc hp
  put := hpc
  get := h.get
  peeked := h.peeked

/-- The producer's place changes, and nothing else. -/
theorem Spsc.Inv.putPc {s : Spsc α} (h : s.Inv k) {pc : PutPc α}
    (hpc : pc.Ok k s.produced.length s.consumed.length s.fifo.data) : { s with put := pc }.Inv k :=
  { h with put := hpc }

/-- The consumer's place changes, and nothing else. -/
theorem Spsc.Inv.getPc {s : Spsc α} (h : s.Inv k) {pc : GetPc α}
    (hpc : pc.Ok k s.consumed.length s.produced) : { s with get := pc }.Inv k :=
  { h with get := hpc }

theorem Spsc.Inv.putStore {s : Spsc α} (h : s.Inv k) {i : BitVec 32} {src : List α}
    (hput : (PutPc.store i src).Ok k s.produced.length s.consumed.length s.fifo.data) :
    { s with
      fifo := { s.fifo with inIdx := i + BitVec.ofNat 32 src.length }, put := .idle
      produced := s.produced ++ src }.Inv k := by
  obtain ⟨rfl, hfit, hsrc⟩ := hput
  refine ⟨?_, h.outIdx, h.consumed.trans (List.prefix_append _ _), ?_, ?_, trivial, h.get.append src,
    ?_⟩
  · rw [← BitVec.ofNat_add, ← List.length_append]
  · rw [List.length_append]
    exact hfit
  · intro j hc hp
    simp only [List.length_append] at hp
    rcases Nat.lt_or_ge j s.produced.length with hlt | hge
    · rw [List.getElem?_append_left hlt]
      exact h.held j hc hlt
    · have := hsrc (j - s.produced.length) (by omega)
      rw [List.getElem?_append_right hge, this, Nat.add_sub_cancel' hge]
  · intro e he
    have := h.peeked e he
    rw [List.getElem?_append_left ((List.getElem?_eq_some_iff.mp this).1)]
    exact this

theorem Spsc.Inv.getStore {s : Spsc α} (h : s.Inv k) {o : BitVec 32} {dst : List α}
    (hget : (GetPc.store o dst).Ok k s.consumed.length s.produced) :
    { s with
      fifo := { s.fifo with outIdx := o + BitVec.ofNat 32 dst.length }, get := .idle
      consumed := s.consumed ++ dst }.Inv k := by
  obtain ⟨rfl, hdst⟩ := hget
  have hall : s.consumed ++ dst <+: s.produced := by
    obtain ⟨rest, hrest⟩ := hdst
    refine ⟨rest, ?_⟩
    rw [List.append_assoc, hrest]
    nth_rewrite 1 [List.prefix_iff_eq_take.mp h.consumed]
    exact List.take_append_drop _ _
  have hbound := h.bound
  refine ⟨h.inIdx, ?_, hall, ?_, ?_, ?_, trivial, h.peeked⟩
  · rw [← BitVec.ofNat_add, ← List.length_append]
  · simp only [List.length_append]
    omega
  · intro j hc hp
    rw [List.length_append] at hc
    exact h.held j (by omega) hp
  · rw [List.length_append]
    exact h.put.mono (Nat.le_add_right _ _)

theorem snoc_of_getElem? {l l' : List α} {x : α} (h : l <+: l') (hx : l'[l.length]? = some x) :
    l ++ [x] <+: l' := by
  obtain ⟨rest, rfl⟩ := h
  rw [List.getElem?_append_right le_rfl, Nat.sub_self] at hx
  cases rest with
  | nil => cases hx
  | cons y rest =>
    cases hx
    exact ⟨rest, by simp⟩

theorem Spsc.Inv.putStep (hk : k < 32) {s s' : Spsc α} {a : PutAct α} (h : s.Inv k)
    (hs : putStep k s a = some s') : s'.Inv k := by
  have hput := h.put
  have hle := h.consumed.length_le
  simp only [Posix.putStep] at hs
  split at hs
  next hpc =>
    cases hs
    exact h.putPc h.inIdx
  next op i hpc =>
    cases hs
    rw [hpc] at hput
    obtain rfl : i = _ := hput
    rw [h.outIdx]
    exact h.putPc (putLoaded_ok hk hle h.bound op)
  next i l src done hpc =>
    rw [hpc] at hput
    obtain ⟨rfl, rfl, hfit, hdone, hcopied⟩ := hput
    split at hs
    next val hval =>
      -- an octet more is copied
      cases hs
      have hlt : done < src.length := (List.getElem?_eq_some_iff.mp hval).1
      rw [copyAt_eq hk hlt (by omega)]
      refine h.write (by omega) ⟨rfl, rfl, hfit, hlt, fun j hj => ?_⟩
      rcases Nat.lt_or_ge j done with hlt' | hge
      · rw [update_other (by omega) (by omega) (by omega)]
        exact hcopied j hlt'
      · obtain rfl : j = done := by omega
        rw [Function.update_self]
        exact hval
    next hnone =>
      cases hs
      have hall : src.length ≤ done := List.getElem?_eq_none_iff.mp hnone
      exact h.putPc ⟨rfl, hfit, fun j hj => hcopied j (by omega)⟩
  next head buf j val hpc =>
    rw [hpc] at hput
    obtain ⟨rfl, hend, hfit, hbuf⟩ := hput
    split at hs
    next hj =>
      -- an octet of the region is filled in
      cases hs
      rw [offset_add (by omega)]
      refine h.write (by omega) ⟨rfl, by rw [List.length_set]; exact hend,
        by rw [List.length_set]; exact hfit, fun i hi => ?_⟩
      rw [List.length_set] at hi
      by_cases hij : j = i
      · subst hij
        rw [Function.update_self, List.getElem?_set_self hi]
      · rw [update_other hij (by omega) (by omega), List.getElem?_set_ne hij]
        exact hbuf i hi
    next => cases hs
  next =>
    cases hs
    exact h.putPc trivial
  next head buf count hpc =>
    rw [hpc] at hput
    obtain ⟨-, -, hfit, hbuf⟩ := hput
    split at hs
    next hcount =>
      cases hs
      refine h.putPc ⟨h.inIdx, ?_, fun j hj => ?_⟩
      · rw [List.length_take]
        omega
      · rw [List.length_take] at hj
        rw [List.getElem?_take_of_lt (by omega)]
        exact hbuf j (by omega)
    next => cases hs
  next i src hpc =>
    cases hs
    rw [hpc] at hput
    exact h.putStore hput
  next => cases hs

theorem Spsc.Inv.getStep (hk : k < 32) {s s' : Spsc α} {a : GetAct} (h : s.Inv k)
    (hs : getStep k s a = some s') : s'.Inv k := by
  have hget := h.get
  have hbound := h.bound
  simp only [Posix.getStep] at hs
  split at hs
  next hpc =>
    cases hs
    exact h.getPc ⟨_, h.inIdx, h.consumed.length_le, le_rfl⟩
  next op i hpc =>
    cases hs
    rw [hpc] at hget
    obtain ⟨p, rfl, hc, hp⟩ := hget
    rw [h.outIdx]
    exact h.getPc (getLoaded_ok hk hc hp (by omega) op)
  next o l sz dst hpc =>
    rw [hpc] at hget
    obtain ⟨rfl, rfl, hsz, hlen, hdst⟩ := hget
    split at hs
    next hlt =>
      -- an octet more is copied
      cases hs
      rw [copyAt_eq hk hlt (by omega)]
      refine h.getPc ⟨rfl, rfl, hsz, by rw [List.length_append]; exact hlt, ?_⟩
      have hheld := h.held (s.consumed.length + dst.length) (by omega) (by omega)
      rw [← List.getElem?_drop] at hheld
      exact snoc_of_getElem? hdst hheld
    next =>
      cases hs
      exact h.getPc ⟨rfl, hdst⟩
  next tail n j hpc =>
    rw [hpc] at hget
    obtain ⟨rfl, hend, hn⟩ := hget
    split at hs
    next hj =>
      cases hs
      refine { h with peeked := fun e he => ?_ }
      rcases List.mem_append.mp he with he | he
      · exact h.peeked e he
      · rw [List.mem_singleton.mp he, offset_add (by omega)]
        exact h.held _ (by omega) (by omega)
    next => cases hs
  next =>
    cases hs
    exact h.getPc trivial
  next tail n count hpc =>
    rw [hpc] at hget
    obtain ⟨rfl, hend, hn⟩ := hget
    split at hs
    next hcount =>
      cases hs
      exact h.getPc ⟨h.outIdx, h.region (by omega) (by omega)⟩
    next => cases hs
  next o dst hpc =>
    cases hs
    rw [hpc] at hget
    exact h.getStore hget
  next => cases hs

/-! ## Every run -/

/-- The octets held, from the index of the consumer on. -/
def Kfifo.contents (k : Nat) (f : Kfifo α) : List α :=
  (List.range f.len.toNat).map fun j => f.data (((fifoOffset k f.outIdx).toNat + j) % 2 ^ k)

theorem Spsc.Inv.contents (hk : k < 32) {s : Spsc α} (h : s.Inv k) :
    s.fifo.contents k = s.produced.drop s.consumed.length := by
  have hsize := fifoSize_lt hk
  have hbound := h.bound
  have hlen : s.fifo.len.toNat = s.produced.length - s.consumed.length := by
    rw [Kfifo.len, h.inIdx, h.outIdx]
    exact fifoUsed_eq h.consumed.length_le (by omega)
  apply List.ext_getElem?
  intro j
  rw [Kfifo.contents, hlen, h.outIdx, fifoOffset_toNat hk, List.getElem?_map, List.getElem?_drop]
  rcases Nat.lt_or_ge j (s.produced.length - s.consumed.length) with hlt | hge
  · rw [List.getElem?_range hlt, Option.map_some, h.held _ (by omega) (by omega), Nat.mod_add_mod]
  · rw [List.getElem?_eq_none (by rw [List.length_range]; exact hge),
      List.getElem?_eq_none (by omega), Option.map_none]

/-- What was put is what was got and, behind it, what is held: at most the size of the FIFO. Octets read
in place are those put. -/
theorem kfifo_bounded_queue (hk : k < 32) {data : Nat → α} {s : Spsc α}
    (h : Reachable (Spsc.init data) (spscStep k) (fun _ _ => True) s) :
    s.consumed ++ s.fifo.contents k = s.produced ∧ (s.fifo.contents k).length ≤ 2 ^ k ∧
      ∀ e ∈ s.peeked, s.produced[e.1]? = some e.2 := by
  have hinv : s.Inv k := by
    refine h.invariant (Spsc.inv_init k data) fun {s a s'} hi _ hs => ?_
    cases a with
    | inl a => exact hi.putStep hk hs
    | inr a => exact hi.getStep hk hs
  have hbound := hinv.bound
  rw [hinv.contents hk]
  refine ⟨?_, ?_, hinv.peeked⟩
  · nth_rewrite 1 [List.prefix_iff_eq_take.mp hinv.consumed]
    exact List.take_append_drop _ _
  · rw [List.length_drop]
    exact Nat.sub_le_iff_le_add'.mpr hbound

/-- Two octets of storage: two octets are put, one is got while a third waits for its room, and the
third goes in behind the end of the storage. -/
theorem kfifo_bounded_queue_wrap :
    ∃ s : Spsc UInt8, s.produced = [5, 6, 7] ∧ s.consumed = [5] ∧
      s.consumed ++ s.fifo.contents 1 = s.produced ∧ (s.fifo.contents 1).length ≤ 2 ^ 1 ∧
        ∀ e ∈ s.peeked, s.produced[e.1]? = some e.2 := by
  obtain ⟨s, hs, hend⟩ := Reachable.of_exec (Spsc.init fun _ => (0 : UInt8)) (spscStep 1)
    (fun _ _ => true)
    [.inl (.begin (.in [5, 6, 7])), .inl .load, .inl .copy, .inl .copy, .inl .copy, .inr (.begin .get),
      .inl .store, .inr .load, .inr (.begin .get), .inl (.begin (.put 7)), .inl .load, .inr .load,
      .inr .copy, .inr .copy, .inr .store, .inl (.begin (.claim 2)), .inl .load, .inl (.write 0 7),
      .inr (.begin (.claim 2)), .inl (.finish 1), .inr .load, .inr (.peek 0), .inl .store]
    (fun s => decide (s.produced = [5, 6, 7]) && decide (s.consumed = [5])) (by decide +kernel)
    (by decide +kernel)
  rw [Bool.and_eq_true, decide_eq_true_eq, decide_eq_true_eq] at hend
  exact ⟨s, hend.1, hend.2, kfifo_bounded_queue (by decide) (hs.mono fun _ _ _ => trivial)⟩

end Ludlc.Posix
