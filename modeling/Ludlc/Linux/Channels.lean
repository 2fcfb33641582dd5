import Ludlc.Conn
import Ludlc.Lib.Runs

/-! # The channels of a link

A device of the Linux bus owns channels of its link: `ludlc_device_alloc` checks the list,
`ludlc_device_add` claims them one after the other in the map of the link, and
`ludlc_device_unregister` gives them back.
-/

namespace Ludlc.Linux

open Runs

variable {w : Wire}

/-- What `ludlc_channels_ok` reports of a list. -/
inductive ChansErr (w : Wire)
  | count (n : Nat)
  | overlaps (chan : Channel w)
  | reserved (chan : Channel w)
  | twice (chan : Channel w)

/-- `ludlc_conn_chan_id_mask`. -/
def chanIdMask (w : Wire) : Channel w := BitVec.allOnes w.chanBits >>> w.chanTagBits

/-- The loop of `ludlc_channels_ok`, past the channels in `seen`. -/
def chansLoop (seen : List (Channel w)) : List (Channel w) → Option (ChansErr w)
  | [] => none
  | chan :: chans =>
    if (chanIdMask w).toNat < chan.toNat then some (.overlaps chan)
    else if chan = w.controlChannel then some (.reserved chan)
    else if chan ∈ seen then some (.twice chan)
    else chansLoop (seen ++ [chan]) chans

/-- `ludlc_channels_ok`, with what it reports instead of false. -/
def channelsOk (chans : List (Channel w)) : Option (ChansErr w) :=
  if chans.length = 0 ∨ (chanIdMask w).toNat < chans.length then some (.count chans.length)
  else chansLoop [] chans

/-- The errors of the calls. -/
inductive BusErr
  | EINVAL
  | ENOMEM
  | EBUSY
  | other (code : Nat)
  deriving DecidableEq

/-- `struct ludlc_device`. -/
structure LudlcDevice (w : Wire) where
  chans : List (Channel w)
  /-- LUDLC_DEV_REMOVED_F. -/
  removed : Bool

/-- The map of the channels of a link. -/
abbrev ChanMap (w : Wire) := Channel w → Option Nat

/-- The devices allocated for a link, by number, and its map. `added` is a history: the devices added
and not unregistered since. -/
structure LinkBus (w : Wire) where
  channels : ChanMap w
  devs : List (LudlcDevice w)
  added : List Nat

def LinkBus.init : LinkBus w := ⟨fun _ => none, [], []⟩

/-! ## The map -/

/-- `xa_insert`. `mem` is whether it finds the memory it needs. -/
def xaInsert (m : ChanMap w) (chan : Channel w) (ldev : Nat) (mem : Bool) :
    Except BusErr (ChanMap w) :=
  if (m chan).isSome then .error .EBUSY
  else if mem then .ok (Function.update m chan (some ldev))
  else .error .ENOMEM

/-- `xa_erase` on one channel after the other. -/
def eraseChans (m : ChanMap w) (chans : List (Channel w)) : ChanMap w :=
  chans.foldl (fun m chan => Function.update m chan none) m

/-- The loop of `ludlc_device_add` that claims the channels: where it stopped, with what, and the
map. -/
def claimChans (ldev : Nat) (mem : Nat → Bool) : Nat → ChanMap w → List (Channel w) →
    Nat × Option BusErr × ChanMap w
  | i, m, [] => (i, none, m)
  | i, m, chan :: chans =>
    match xaInsert m chan ldev (mem i) with
    | .error e => (i, some e, m)
    | .ok m => claimChans ldev mem (i + 1) m chans

/-! ## The calls -/

/-- `ludlc_device_alloc`, on a link. `mem` is whether `kzalloc` finds memory. -/
def deviceAlloc (s : LinkBus w) (chans : Option (List (Channel w))) (mem : Bool) :
    Except BusErr (LinkBus w) :=
  match chans with
  | none => .error .EINVAL
  | some chans =>
    if (channelsOk chans).isSome then .error .EINVAL
    else if !mem then .error .ENOMEM
    else .ok { s with devs := s.devs ++ [⟨chans, false⟩] }

/-- `ludlc_device_add`. `named` is what `dev_set_name` returns, `mem` what memory `xa_insert` finds
for each channel, and `visible` what `device_add` returns. -/
def deviceAdd (s : LinkBus w) (ldev : Nat) (named : Option BusErr) (mem : Nat → Bool)
    (visible : Option BusErr) : Option BusErr × LinkBus w :=
  match s.devs[ldev]? with
  | none => (some .EINVAL, s)
  | some dev =>
    if named.isSome then (named, s)
    else
      let r := claimChans ldev mem 0 s.channels dev.chans
      let ret := r.2.1.or visible
      if ret.isSome then
        -- Only what was claimed here is given back.
        (ret, { s with channels := eraseChans r.2.2 (dev.chans.take r.1).reverse })
      else (none, { s with channels := r.2.2 })

/-- `ludlc_device_unregister`. -/
def deviceUnregister (s : LinkBus w) (ldev : Nat) : LinkBus w :=
  match s.devs[ldev]? with
  | none => s
  | some dev =>
    if dev.removed then s
    else { s with
      channels := eraseChans s.channels dev.chans
      devs := s.devs.set ldev { dev with removed := true } }

inductive BusAct (w : Wire)
  | alloc (chans : Option (List (Channel w))) (mem : Bool)
  | add (ldev : Nat) (named : Option BusErr) (mem : Nat → Bool) (visible : Option BusErr)
  | unregister (ldev : Nat)

/-- A device is unregistered, any number of times, once an add of it has succeeded. The first time takes
the reference that its allocation returned, so that it is not added again. -/
def busStep (s : LinkBus w) : BusAct w → Option (LinkBus w)
  | .alloc chans mem =>
    match deviceAlloc s chans mem with
    | .ok s => some s
    | .error _ => some s
  | .add ldev named mem visible =>
    if s.devs[ldev]?.any fun dev => !dev.removed then
      match deviceAdd s ldev named mem visible with
      | (none, s') => some { s' with added := s'.added ++ [ldev] }
      | (some _, s') => some s'
    else none
  | .unregister ldev =>
    if ldev ∈ s.added ∨ s.devs[ldev]?.any LudlcDevice.removed then
      some { deviceUnregister s ldev with added := s.added.filter fun d => decide (d ≠ ldev) }
    else none

/-- What the devices added own, and nothing else, is in the map. -/
def LinkBus.Owned (s : LinkBus w) : Prop :=
  ∀ chan ldev, s.channels chan = some ldev ↔
    ldev ∈ s.added ∧ ∃ dev, s.devs[ldev]? = some dev ∧ chan ∈ dev.chans

/-! ## The lists accepted -/

theorem chansLoop_eq_none {seen chans : List (Channel w)} : chansLoop seen chans = none ↔
    (∀ chan ∈ chans, chan.toNat ≤ (chanIdMask w).toNat ∧ chan ≠ w.controlChannel ∧ chan ∉ seen) ∧
      chans.Nodup := by
  induction chans generalizing seen with
  | nil => simp [chansLoop]
  | cons chan chans ih =>
    rw [chansLoop]
    by_cases hover : (chanIdMask w).toNat < chan.toNat
    · rw [if_pos hover]
      simp
      omega
    rw [if_neg hover]
    by_cases hctrl : chan = w.controlChannel
    · simp [hctrl]
    rw [if_neg hctrl]
    by_cases hseen : chan ∈ seen
    · simp [hseen]
    rw [if_neg hseen, ih, List.forall_mem_cons, List.nodup_cons]
    constructor
    · rintro ⟨hall, hnodup⟩
      refine ⟨⟨⟨Nat.le_of_not_lt hover, hctrl, hseen⟩, fun c hc => ?_⟩, fun hc => ?_, hnodup⟩
      · obtain ⟨hle, hne, hnot⟩ := hall c hc
        exact ⟨hle, hne, fun hmem => hnot (List.mem_append_left _ hmem)⟩
      · exact (hall chan hc).2.2 (List.mem_append_right _ (List.mem_singleton_self _))
    · rintro ⟨⟨-, hall⟩, hnot, hnodup⟩
      refine ⟨fun c hc => ?_, hnodup⟩
      obtain ⟨hle, hne, hns⟩ := hall c hc
      refine ⟨hle, hne, fun hmem => ?_⟩
      rcases List.mem_append.mp hmem with hmem | hmem
      · exact hns hmem
      · rw [List.mem_singleton.mp hmem] at hc
        exact hnot hc

/-- What the check lets through: some channels, each once, that a device may own. -/
theorem channelsOk_eq_none {chans : List (Channel w)} : channelsOk chans = none ↔
    chans ≠ [] ∧ chans.length ≤ (chanIdMask w).toNat ∧ chans.Nodup ∧
      ∀ chan ∈ chans, chan.toNat ≤ (chanIdMask w).toNat ∧ chan ≠ w.controlChannel := by
  rw [channelsOk]
  by_cases hcount : chans.length = 0 ∨ (chanIdMask w).toNat < chans.length
  · rw [if_pos hcount]
    simp only [reduceCtorEq, false_iff]
    rintro ⟨hne, hle, -⟩
    rcases hcount with hcount | hcount
    · exact hne (List.length_eq_zero_iff.mp hcount)
    · omega
  · rw [if_neg hcount, chansLoop_eq_none]
    have hne : chans ≠ [] := fun h => hcount (.inl (List.length_eq_zero_iff.mpr h))
    constructor
    · rintro ⟨hall, hnodup⟩
      exact ⟨hne, by omega, hnodup, fun chan hchan => ⟨(hall chan hchan).1, (hall chan hchan).2.1⟩⟩
    · rintro ⟨-, -, hnodup, hall⟩
      exact ⟨fun chan hchan => ⟨(hall chan hchan).1, (hall chan hchan).2, List.not_mem_nil⟩, hnodup⟩

/-- A channel up to the mask has no bit of the tag. -/
theorem and_chanIdMask {chan : Channel w} (h : chan.toNat ≤ (chanIdMask w).toNat) :
    chan &&& chanIdMask w = chan := by
  have hmask : (chanIdMask w).toNat = 2 ^ (w.chanBits - w.chanTagBits) - 1 := by
    have hsplit : 2 ^ w.chanBits = 2 ^ w.chanTagBits * 2 ^ (w.chanBits - w.chanTagBits) := by
      rw [← pow_add, Nat.add_sub_cancel' w.tag_ok.1.le]
    have hpos : 0 < 2 ^ w.chanTagBits * 2 ^ (w.chanBits - w.chanTagBits) := by positivity
    have hdiv := Nat.mul_sub_div 0 (2 ^ w.chanTagBits) _ hpos
    rw [chanIdMask, BitVec.toNat_ushiftRight, BitVec.toNat_allOnes, Nat.shiftRight_eq_div_pow, hsplit]
    simpa using hdiv
  apply BitVec.eq_of_toNat_eq
  have hpos := Nat.two_pow_pos (w.chanBits - w.chanTagBits)
  rw [BitVec.toNat_and, hmask, Nat.and_two_pow_sub_one_eq_mod]
  exact Nat.mod_eq_of_lt (by omega)

/-! ## Claiming and giving back -/

/-- The map with the channels claimed for a device. -/
def insertChans (m : ChanMap w) (ldev : Nat) (chans : List (Channel w)) : ChanMap w :=
  fun chan => if chan ∈ chans then some ldev else m chan

theorem eraseChans_eq (m : ChanMap w) (chans : List (Channel w)) :
    eraseChans m chans = fun chan => if chan ∈ chans then none else m chan := by
  induction chans generalizing m with
  | nil => rfl
  | cons c chans ih =>
    change eraseChans (Function.update m c none) chans = _
    rw [ih]
    funext chan
    by_cases hc : chan = c
    · simp [hc]
    · simp [hc]

/-- What was free is free again. -/
theorem eraseChans_insertChans {m : ChanMap w} {ldev : Nat} {chans : List (Channel w)}
    (h : ∀ chan ∈ chans, m chan = none) : eraseChans (insertChans m ldev chans) chans.reverse = m := by
  rw [eraseChans_eq]
  funext chan
  by_cases hc : chan ∈ chans
  · simp [hc, h chan hc]
  · simp [insertChans, hc]

/-- The loop claims channels that are free, from the first on. -/
theorem claimChans_spec (ldev : Nat) (mem : Nat → Bool) (i : Nat) (m : ChanMap w)
    (chans : List (Channel w)) :
    ∃ k, (claimChans ldev mem i m chans).1 = i + k ∧
      (claimChans ldev mem i m chans).2.2 = insertChans m ldev (chans.take k) ∧
      (∀ chan ∈ chans.take k, m chan = none) ∧
      ((claimChans ldev mem i m chans).2.1 = none → k = chans.length) := by
  induction chans generalizing i m with
  | nil =>
    refine ⟨0, rfl, ?_, by simp, fun _ => rfl⟩
    funext chan
    simp [claimChans, insertChans]
  | cons c chans ih =>
    have hnone : insertChans m ldev [] = m := by
      funext chan
      simp [insertChans]
    rw [claimChans, xaInsert]
    cases hc : m c with
    | some owner => exact ⟨0, rfl, hnone.symm, by simp, fun h => by cases h⟩
    | none =>
      cases hmem : mem i with
      | false => exact ⟨0, rfl, hnone.symm, by simp, fun h => by cases h⟩
      | true =>
        obtain ⟨k, hk, hmap, hfree, hall⟩ := ih (i + 1) (Function.update m c (some ldev))
        simp only [Option.isSome_none, Bool.false_eq_true, if_false, if_true]
        refine ⟨k + 1, ?_, ?_, ?_, ?_⟩
        · rw [hk]
          omega
        · rw [hmap]
          funext chan
          by_cases hchan : chan = c
          · simp [insertChans, hchan]
          · simp [insertChans, hchan]
        · rw [List.take_succ_cons, List.forall_mem_cons]
          refine ⟨hc, fun chan hchan => ?_⟩
          have hfree' := hfree chan hchan
          by_cases heq : chan = c
          · rw [heq]
            exact hc
          · rwa [Function.update_of_ne heq] at hfree'
        · intro h
          rw [hall h, List.length_cons]

/-- An add that fails leaves everything as it was. -/
theorem deviceAdd_of_some {s : LinkBus w} {ldev : Nat} {named visible : Option BusErr}
    {mem : Nat → Bool} {e : BusErr} (h : (deviceAdd s ldev named mem visible).1 = some e) :
    (deviceAdd s ldev named mem visible).2 = s := by
  unfold deviceAdd at h ⊢
  cases hdev : s.devs[ldev]? with
  | none => rfl
  | some dev =>
    simp only [hdev] at h ⊢
    cases named with
    | some err => rfl
    | none =>
      obtain ⟨k, hk, hmap, hfree, -⟩ := claimChans_spec ldev mem 0 s.channels dev.chans
      rw [Nat.zero_add] at hk
      simp only [Option.isSome_none, Bool.false_eq_true, if_false] at h ⊢
      split at h
      next hret =>
        rw [if_pos hret, hk, hmap, eraseChans_insertChans hfree]
      next => cases h

/-- An add that succeeds claims the channels, which were free. -/
theorem deviceAdd_of_none {s : LinkBus w} {ldev : Nat} {named visible : Option BusErr}
    {mem : Nat → Bool} (h : (deviceAdd s ldev named mem visible).1 = none) :
    ∃ dev, s.devs[ldev]? = some dev ∧ (∀ chan ∈ dev.chans, s.channels chan = none) ∧
      (deviceAdd s ldev named mem visible).2 =
        { s with channels := insertChans s.channels ldev dev.chans } := by
  unfold deviceAdd at h ⊢
  cases hdev : s.devs[ldev]? with
  | none =>
    rw [hdev] at h
    cases h
  | some dev =>
    simp only [hdev] at h ⊢
    cases named with
    | some err => cases h
    | none =>
      obtain ⟨k, hk, hmap, hfree, hall⟩ := claimChans_spec ldev mem 0 s.channels dev.chans
      simp only [Option.isSome_none, Bool.false_eq_true, if_false] at h ⊢
      split at h
      next hret =>
        simp only at h
        rw [h] at hret
        cases hret
      next hret =>
        rw [if_neg hret]
        rw [Bool.not_eq_true, Option.isSome_eq_false_iff, Option.isNone_iff_eq_none,
          Option.or_eq_none_iff] at hret
        obtain rfl := hall hret.1
        rw [List.take_length] at hmap hfree
        exact ⟨dev, rfl, hfree, by rw [hmap]⟩

/-! ## Runs -/

structure BusInv (s : LinkBus w) : Prop where
  owned : s.Owned
  checked : ∀ dev ∈ s.devs, channelsOk dev.chans = none
  present : ∀ ldev ∈ s.added, ∃ dev, s.devs[ldev]? = some dev ∧ dev.removed = false

theorem busInv_init : BusInv (LinkBus.init : LinkBus w) := by
  refine ⟨fun chan ldev => ?_, ?_, ?_⟩ <;> simp [LinkBus.init]

theorem BusInv.alloc {s s' : LinkBus w} {chans : Option (List (Channel w))} {mem : Bool}
    (h : BusInv s) (hs : deviceAlloc s chans mem = .ok s') : BusInv s' := by
  unfold deviceAlloc at hs
  cases chans with
  | none => cases hs
  | some chans =>
    simp only at hs
    split at hs
    · cases hs
    next hok =>
      split at hs
      · cases hs
      · cases hs
        have hold : ∀ ldev ∈ s.added, (s.devs ++ [⟨chans, false⟩])[ldev]? = s.devs[ldev]? := by
          intro ldev hadded
          obtain ⟨dev, hdev, -⟩ := h.present ldev hadded
          exact List.getElem?_append_left (List.getElem?_eq_some_iff.mp hdev).1
        refine ⟨fun chan ldev => ?_, fun dev hdev => ?_, fun ldev hadded => ?_⟩
        · rw [h.owned chan ldev]
          refine and_congr_right fun hadded => ?_
          rw [hold ldev hadded]
        · rcases List.mem_append.mp hdev with hdev | hdev
          · exact h.checked dev hdev
          · rw [List.mem_singleton.mp hdev]
            simpa using hok
        · rw [hold ldev hadded]
          exact h.present ldev hadded

theorem BusInv.add {s : LinkBus w} {ldev : Nat} {dev : LudlcDevice w} (h : BusInv s)
    (hdev : s.devs[ldev]? = some dev) (hremoved : dev.removed = false)
    (hfree : ∀ chan ∈ dev.chans, s.channels chan = none) :
    BusInv { s with
      channels := insertChans s.channels ldev dev.chans, added := s.added ++ [ldev] } := by
  refine ⟨fun chan d => ?_, h.checked, fun d hd => ?_⟩
  · have howned := h.owned chan d
    simp only [insertChans, List.mem_append, List.mem_singleton]
    by_cases hchan : chan ∈ dev.chans
    · rw [hfree chan hchan] at howned
      rw [if_pos hchan, Option.some_inj]
      constructor
      · rintro rfl
        exact ⟨.inr rfl, dev, hdev, hchan⟩
      · rintro ⟨hadded | rfl, hd⟩
        · cases howned.mpr ⟨hadded, hd⟩
        · rfl
    · rw [if_neg hchan, howned]
      constructor
      · exact fun hd => ⟨.inl hd.1, hd.2⟩
      · rintro ⟨hadded | rfl, d', hd', hchan'⟩
        · exact ⟨hadded, d', hd', hchan'⟩
        · rw [hdev] at hd'
          cases hd'
          exact absurd hchan' hchan
  · rcases List.mem_append.mp hd with hd | hd
    · exact h.present d hd
    · rw [List.mem_singleton.mp hd]
      exact ⟨dev, hdev, hremoved⟩

/-- The first unregister gives the channels back, which nobody else has. -/
theorem BusInv.remove {s : LinkBus w} {ldev : Nat} {dev : LudlcDevice w} (h : BusInv s)
    (hadded : ldev ∈ s.added) (hdev : s.devs[ldev]? = some dev) :
    BusInv { s with
      channels := eraseChans s.channels dev.chans
      devs := s.devs.set ldev { dev with removed := true }
      added := s.added.filter fun d => decide (d ≠ ldev) } := by
  have hmine : ∀ chan ∈ dev.chans, s.channels chan = some ldev :=
    fun chan hchan => (h.owned chan ldev).mpr ⟨hadded, dev, hdev, hchan⟩
  refine ⟨fun chan d => ?_, fun dev' hdev' => ?_, fun d hd => ?_⟩
  · have howned := h.owned chan d
    simp only [eraseChans_eq, List.mem_filter, decide_eq_true_eq]
    by_cases hchan : chan ∈ dev.chans
    · -- Nobody else has the channel.
      rw [if_pos hchan]
      refine iff_of_false (by simp) ?_
      rintro ⟨⟨hd, hne⟩, d', hd', hchan'⟩
      rw [List.getElem?_set_ne (Ne.symm hne)] at hd'
      rw [hmine chan hchan] at howned
      exact hne (Option.some_inj.mp (howned.mpr ⟨hd, d', hd', hchan'⟩)).symm
    · rw [if_neg hchan, howned]
      constructor
      · rintro ⟨hd, d', hd', hchan'⟩
        have hne : d ≠ ldev := by
          rintro rfl
          rw [hdev] at hd'
          cases hd'
          exact hchan hchan'
        exact ⟨⟨hd, hne⟩, d', by rw [List.getElem?_set_ne (Ne.symm hne)]; exact hd', hchan'⟩
      · rintro ⟨⟨hd, hne⟩, d', hd', hchan'⟩
        rw [List.getElem?_set_ne (Ne.symm hne)] at hd'
        exact ⟨hd, d', hd', hchan'⟩
  · rcases List.mem_or_eq_of_mem_set hdev' with hdev' | rfl
    · exact h.checked dev' hdev'
    · exact h.checked dev (List.mem_of_getElem? hdev)
  · obtain ⟨hd, hne⟩ := List.mem_filter.mp hd
    obtain ⟨d', hd', hr'⟩ := h.present d hd
    refine ⟨d', ?_, hr'⟩
    rw [List.getElem?_set_ne (Ne.symm (of_decide_eq_true hne))]
    exact hd'

theorem BusInv.unregister {s : LinkBus w} {ldev : Nat} (h : BusInv s)
    (hcalled : ldev ∈ s.added ∨ s.devs[ldev]?.any LudlcDevice.removed = true) :
    BusInv { deviceUnregister s ldev with added := s.added.filter fun d => decide (d ≠ ldev) } := by
  have hremoved : ∀ dev, s.devs[ldev]? = some dev → dev.removed = true → ldev ∉ s.added := by
    intro dev hdev hr hadded
    obtain ⟨dev', hdev', hr'⟩ := h.present ldev hadded
    rw [hdev] at hdev'
    cases hdev'
    rw [hr] at hr'
    cases hr'
  have hsame : ldev ∉ s.added → s.added.filter (fun d => decide (d ≠ ldev)) = s.added := by
    intro hnot
    rw [List.filter_eq_self]
    intro d hd
    exact decide_eq_true fun heq => hnot (heq ▸ hd)
  unfold deviceUnregister
  cases hdev : s.devs[ldev]? with
  | none =>
    have hnot : ldev ∉ s.added := by
      intro hadded
      obtain ⟨dev, hdev', -⟩ := h.present ldev hadded
      rw [hdev] at hdev'
      cases hdev'
    rw [hsame hnot]
    exact h
  | some dev =>
    simp only
    cases hr : dev.removed with
    | true =>
      rw [hsame (hremoved dev hdev hr)]
      exact h
    | false =>
      have hadded : ldev ∈ s.added := by
        refine hcalled.resolve_right ?_
        rw [hdev, Option.any_some, hr]
        decide
      simp only [Bool.false_eq_true, if_false]
      exact h.remove hadded hdev

theorem BusInv.step {s s' : LinkBus w} {a : BusAct w} (h : BusInv s) (hs : busStep s a = some s') :
    BusInv s' := by
  cases a with
  | alloc chans mem =>
    simp only [busStep] at hs
    split at hs
    next hok =>
      cases hs
      exact h.alloc hok
    next =>
      cases hs
      exact h
  | add ldev named mem visible =>
    simp only [busStep] at hs
    split at hs
    next hheld =>
      split at hs
      next t hadd =>
        cases hs
        have hret : (deviceAdd s ldev named mem visible).1 = none := by rw [hadd]
        obtain ⟨dev, hdev, hfree, hstate⟩ := deviceAdd_of_none hret
        rw [hadd] at hstate
        simp only at hstate
        subst hstate
        rw [hdev, Option.any_some, Bool.not_eq_true'] at hheld
        exact h.add hdev hheld hfree
      next e t hadd =>
        cases hs
        have hret : (deviceAdd s ldev named mem visible).1 = some e := by rw [hadd]
        have hstate := deviceAdd_of_some hret
        rw [hadd] at hstate
        simp only at hstate
        rw [hstate]
        exact h
    next => cases hs
  | unregister ldev =>
    simp only [busStep] at hs
    split at hs
    next hcalled =>
      cases hs
      exact h.unregister hcalled
    next => cases hs

/-- The map of a link holds the channels of the devices added and not unregistered, each under its
owner; an add that fails leaves everything as it was; and no entry is the control channel or has a bit
of the tag. -/
theorem channels_owned {s : LinkBus w}
    (h : Reachable LinkBus.init busStep (fun _ _ => True) s) :
    s.Owned ∧
      (∀ ldev named mem visible e, (deviceAdd s ldev named mem visible).1 = some e →
        (deviceAdd s ldev named mem visible).2 = s) ∧
      ∀ chan, (s.channels chan).isSome →
        chan ≠ w.controlChannel ∧ chan &&& chanIdMask w = chan := by
  have hinv : BusInv s := h.invariant busInv_init fun hi _ hs => hi.step hs
  refine ⟨hinv.owned, fun ldev named mem visible e he => deviceAdd_of_some he, fun chan hchan => ?_⟩
  obtain ⟨ldev, hldev⟩ := Option.isSome_iff_exists.mp hchan
  obtain ⟨-, dev, hdev, hmem⟩ := (hinv.owned chan ldev).mp hldev
  have hok := channelsOk_eq_none.mp (hinv.checked dev (List.mem_of_getElem? hdev))
  obtain ⟨hle, hne⟩ := hok.2.2.2 chan hmem
  exact ⟨hne, and_chanIdMask hle⟩

/-- A second device fails on a channel of the first, and takes it once the first was unregistered;
that is asked for a second time. -/
theorem channels_owned_twice :
    ∃ s : LinkBus (.ofWindow 1 (by decide)), s.added = [1] ∧ s.channels 3 = some 1 ∧
      s.channels 2 = none ∧ s.Owned := by
  obtain ⟨s, hs, hend⟩ := Reachable.of_exec (LinkBus.init : LinkBus (.ofWindow 1 (by decide))) busStep
    (fun _ _ => true)
    [.alloc (some [2, 3]) true, .alloc (some [4, 3]) true, .add 0 none (fun _ => true) none,
      .add 1 none (fun _ => true) none, .unregister 0, .add 1 none (fun _ => true) none, .unregister 0]
    (fun s => decide (s.added = [1]) && decide (s.channels 3 = some 1) &&
      decide (s.channels 2 = none)) (by decide +kernel) (by decide +kernel)
  rw [Bool.and_eq_true, Bool.and_eq_true] at hend
  obtain ⟨⟨hadded, htaken⟩, hgone⟩ := hend
  exact ⟨s, of_decide_eq_true hadded, of_decide_eq_true htaken, of_decide_eq_true hgone,
    (channels_owned (hs.mono fun _ _ _ => trivial)).1⟩

end Ludlc.Linux
