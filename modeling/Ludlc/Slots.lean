import Ludlc.Bitset

/-! # What claiming promises

The calls and releases of `Bitset` as their callers see them. A call on its own has passed only bits that
were taken when it comes to an answer, and the answer is the bit it has claimed as long as an `int` holds
every bit number.
-/

namespace Ludlc

open Runs Words

variable {c : BitsetCfg} {T : Type}

theorem claimFrom_returned {w : Nat} {ret : Int} (h : claimFrom c w = .returned ret) : ret = -1 := by
  unfold claimFrom at h
  split at h
  · cases h
  · cases h
    rfl

theorem claimRead_returned {w : Fin c.words} {word : BitVec c.bitsPerWord} {ret : Int}
    (h : claimRead w word = .returned ret) : ret = -1 := by
  unfold claimRead at h
  dsimp only at h
  split at h
  · split at h
    · cases h
      rfl
    · cases h
  · exact claimFrom_returned h

/-- At most how many steps a call has left that loses no bit. -/
def ClaimCall.left : ClaimCall c → Nat
  | read w => c.words - w + 1
  | take _ _ => 1
  | _ => 0

theorem claimFrom_left (w : Nat) : (claimFrom c w).left ≤ c.words - w + 1 := by
  unfold claimFrom
  split
  · exact le_refl _
  · exact Nat.zero_le _

theorem claimRead_left (w : Fin c.words) (word : BitVec c.bitsPerWord) :
    (claimRead w word).left < (ClaimCall.read w).left := by
  have hw := w.isLt
  have hnext := claimFrom_left (c := c) (w + 1)
  change _ < c.words - w + 1
  unfold claimRead
  dsimp only
  split
  · split
    · exact Nat.succ_pos _
    · change 1 < _
      omega
  · omega

namespace Pool

variable [DecidableEq T] {s s' : Pool c T}

theorem step_call {t : T} (hidle : (s.calls t).busy = false) :
    Pool.step s (.call t) = some (s.moved t (claimFrom c 0)) :=
  if_neg (by simp [hidle])

theorem step_read {t : T} {w : Fin c.words} (hcall : s.calls t = .read w) :
    Pool.step s (.go t) = some (s.moved t (claimRead w (s.set w))) := by
  simp [Pool.step, hcall]

/-- A call takes the bit it has found if that is still free. -/
theorem Inv.step_take (h : Inv s) {t : T} {w : Fin c.words} {nr : BitVec 32}
    (hcall : s.calls t = .take w nr) (hfree : nr.toNat ∉ s.held) :
    ∃ set, Pool.step s (.go t) =
      some ({ s with set, held := nr.toNat :: s.held }.moved t (.returned nr.toInt)) := by
  obtain ⟨r, hr, hprev, -⟩ := h.take (h.taking t w nr hcall)
  have hclear : ¬ r.1 = true := fun hset => hfree (hprev.mp hset)
  refine ⟨r.2, ?_⟩
  simp only [Pool.step, hcall]
  rw [hr, Option.map_some, if_neg hclear]

theorem step_returned {t : T} {ret : Int} (hcall : s.calls t = .returned ret) :
    Pool.step s (.go t) = none := by
  simp [Pool.step, hcall]

theorem step_release {nr : Nat} (hs : Pool.step s (.release nr) = some s') :
    s'.calls = s.calls ∧ s'.held = s.held.erase nr := by
  simp only [Pool.step] at hs
  split at hs
  · obtain ⟨set, -, rfl⟩ := Option.map_eq_some_iff.mp hs
    exact ⟨rfl, rfl⟩
  · cases hs

/-- Where a call stands while the bits of `held` are taken. Everything that its search has passed was in
`taken`. -/
inductive Looking (held taken : List Nat) : ClaimCall c → Prop
  | read (w : Fin c.words) : (∀ nr < w * c.bitsPerWord, nr ∈ taken) → Looking held taken (.read w)
  | take (w : Fin c.words) (nr : BitVec 32) : nr.toNat < c.width → nr.toNat ∉ held →
      (∀ j < nr.toNat, j ∈ taken) → Looking held taken (.take w nr)
  | full : (∀ nr < c.width, nr ∈ taken) → Looking held taken (.returned (-1))

variable {held taken : List Nat}

theorem claimFrom_looking {w : Nat} (hlow : ∀ nr < w * c.bitsPerWord, nr ∈ taken) :
    Looking held taken (claimFrom c w) := by
  unfold claimFrom
  split
  next hw => exact .read _ hlow
  next hw =>
    have hall : c.words * c.bitsPerWord ≤ w * c.bitsPerWord :=
      Nat.mul_le_mul_right _ (Nat.not_lt.mp hw)
    exact .full fun nr hnr => hlow nr (hnr.trans_le (c.width_le.trans hall))

omit [DecidableEq T] in
/-- A word is read when everything before it has been passed. The bits before its first free one are
passed then as well. -/
theorem Inv.read (h : Inv s) (hheld : s.held ⊆ taken) {w : Fin c.words}
    (hlow : ∀ nr < w * c.bitsPerWord, nr ∈ taken) :
    Looking s.held taken (claimRead w (s.set w)) := by
  have hbefore : ∀ nr < w * c.bitsPerWord + firstClear (s.set w), nr ∈ taken := by
    intro nr hnr
    by_cases hlt : nr < w * c.bitsPerWord
    · exact hlow nr hlt
    · obtain ⟨j, rfl⟩ := Nat.exists_eq_add_of_le (Nat.not_lt.mp hlt)
      have hj : j < firstClear (s.set w) := by omega
      apply hheld
      rw [← h.bits, bit_word s.set w (hj.trans_le (firstClear_le _))]
      exact getLsbD_of_lt_firstClear hj
  unfold claimRead
  dsimp only
  rw [ffz_eq]
  split
  next hbit =>
    have hnr := Nat.mod_eq_of_lt (c.nr_lt w hbit)
    rw [← BitVec.toNat_ofNat] at hnr
    split
    next hpast =>
      rw [BitVec.le_def, hnr] at hpast
      exact .full fun nr hlt => hbefore nr (hlt.trans_le hpast)
    next hlt =>
      rw [BitVec.le_def, hnr] at hlt
      refine .take w _ (by rw [hnr]; exact Nat.not_le.mp hlt) ?_ (by rw [hnr]; exact hbefore)
      rw [hnr, ← h.bits, bit_word s.set w hbit, getLsbD_firstClear hbit]
      exact Bool.false_ne_true
  next hfull =>
    have hall : firstClear (s.set w) = c.bitsPerWord :=
      le_antisymm (firstClear_le _) (Nat.not_lt.mp hfull)
    refine claimFrom_looking fun nr hnr => hbefore nr ?_
    rwa [hall, ← Nat.succ_mul]

/-- How a call of `t` ends with which nothing interferes: with the lowest free bit, converted to an
`int`, or with -1. -/
inductive Ends (s : Pool c T) (t : T) (s' : Pool c T) : Prop
  | claimed (nr : BitVec 32) : IsLeast s.free nr.toNat →
      s'.calls = Function.update s.calls t (.returned nr.toInt) → s'.held = nr.toNat :: s.held →
      Ends s t s'
  | full : s.free = ∅ → s'.calls = Function.update s.calls t (.returned (-1)) → s'.held = s.held →
      Ends s t s'

theorem Ends.of_moved {t : T} {pc : ClaimCall c} (h : Ends (s.moved t pc) t s') : Ends s t s' := by
  cases h with
  | claimed nr hleast hcalls hheld =>
    exact .claimed nr hleast (hcalls.trans (Function.update_idem _ _ _)) hheld
  | full hfree hcalls hheld => exact .full hfree (hcalls.trans (Function.update_idem _ _ _)) hheld

omit [DecidableEq T] in
theorem free_eq_empty (hall : ∀ nr < c.width, nr ∈ s.held) : s.free = ∅ := by
  rw [Set.eq_empty_iff_forall_notMem]
  rintro nr ⟨hlt, hfree⟩
  exact hfree (hall nr hlt)

/-- A call that nothing interferes with comes to its end. -/
theorem Inv.ends (h : Inv s) {t : T} (hlook : Looking s.held s.held (s.calls t)) :
    ∃ n s', exec Pool.step s (List.replicate n (.go t)) = some s' ∧ Ends s t s' := by
  induction hk : (s.calls t).left using Nat.strong_induction_on generalizing s with
  | _ k ih =>
    cases hcall : s.calls t
    all_goals rw [hcall] at hlook hk
    case idle => cases hlook
    case read w =>
      cases hlook with
      | read _ hlow =>
        have hnext := h.read (List.Subset.refl _) hlow
        have hinv : Inv (s.moved t (claimRead w (s.set w))) :=
          h.moved t fun w' nr hpc => claimRead_take hpc
        have hleft : ((s.moved t (claimRead w (s.set w))).calls t).left < k := by
          rw [moved_calls, ← hk]
          exact claimRead_left w _
        obtain ⟨n, s', hrun, hends⟩ :=
          ih _ hleft hinv (by rw [moved_calls]; exact hnext) rfl
        refine ⟨n + 1, s', ?_, hends.of_moved⟩
        rw [List.replicate_succ, exec, step_read hcall, Option.bind_some, hrun]
    case take w nr =>
      cases hlook with
      | take _ _ hlt hfree hlow =>
        obtain ⟨set, hs⟩ := h.step_take hcall hfree
        refine ⟨1, { s with set, held := nr.toNat :: s.held }.moved t (.returned nr.toInt), ?_,
          .claimed nr ⟨⟨hlt, hfree⟩, ?_⟩ rfl rfl⟩
        · rw [List.replicate_one, exec, hs, Option.bind_some, exec]
        · intro j hj
          by_contra hjlt
          exact hj.2 (hlow j (Nat.not_le.mp hjlt))
    case returned ret =>
      cases hlook with
      | full hall =>
        refine ⟨0, s, rfl, .full (free_eq_empty hall) ?_ rfl⟩
        rw [← hcall, Function.update_eq_self]

/-- The call of a thread that is in none and is alone. -/
theorem Inv.solo (h : Inv s) {t : T} (hidle : (s.calls t).busy = false) :
    ∃ n s', exec Pool.step s (.call t :: List.replicate n (.go t)) = some s' ∧ Ends s t s' := by
  have hlook : Looking s.held s.held (claimFrom c 0) := claimFrom_looking (by simp)
  obtain ⟨n, s', hrun, hends⟩ := (h.called t).ends (t := t) (by rw [moved_calls]; exact hlook)
  refine ⟨n, s', ?_, hends.of_moved⟩
  rw [exec, step_call hidle, Option.bind_some, hrun]

theorem Ends.calls {t : T} (h : Ends s t s') :
    ∃ ret, s'.calls = Function.update s.calls t (.returned ret) := by
  cases h with
  | claimed nr _ hcalls _ => exact ⟨_, hcalls⟩
  | full _ hcalls _ => exact ⟨_, hcalls⟩

theorem Ends.stuck {t : T} (h : Ends s t s') : Pool.step s' (.go t) = none := by
  obtain ⟨ret, hcalls⟩ := h.calls
  exact step_returned (by rw [hcalls, Function.update_self])

/-- What `t` does in a call, and the releases of anybody. -/
def Act.Lone (t : T) (a : Act T) : Prop := a = .go t ∨ ∃ nr, a = .release nr

/-- A call of `t` without another call beside it. Everything before its answer was in `taken`. -/
inductive Passed (taken : List Nat) (t : T) (s : Pool c T) : Prop
  | looking : s.held ⊆ taken → Looking s.held taken (s.calls t) → Passed taken t s
  | claimed (nr : BitVec 32) : s.calls t = .returned nr.toInt → nr.toNat < c.width →
      (∀ j < nr.toNat, j ∈ taken) → Passed taken t s

theorem Looking.mono {held' : List Nat} {pc : ClaimCall c} (h : Looking held taken pc)
    (hsub : held' ⊆ held) : Looking held' taken pc := by
  cases h with
  | read w hlow => exact .read w hlow
  | take w nr hlt hfree hlow => exact .take w nr hlt (fun hmem => hfree (hsub hmem)) hlow
  | full hall => exact .full hall

theorem Passed.go (h : Inv s) {t : T} (hp : Passed taken t s)
    (hs : Pool.step s (.go t) = some s') : Passed taken t s' := by
  cases hp with
  | looking hheld hlook =>
    cases hcall : s.calls t
    all_goals rw [hcall] at hlook
    case idle => cases hlook
    case read w =>
      cases hlook with
      | read _ hlow =>
        rw [step_read hcall] at hs
        cases hs
        exact .looking hheld (by rw [moved_calls]; exact h.read hheld hlow)
    case take w nr =>
      cases hlook with
      | take _ _ hlt hfree hlow =>
        obtain ⟨set, htake⟩ := h.step_take hcall hfree
        rw [htake] at hs
        cases hs
        exact .claimed nr (moved_calls _ t _) hlt hlow
    case returned ret =>
      rw [step_returned hcall] at hs
      cases hs
  | claimed nr hcall =>
    rw [step_returned hcall] at hs
    cases hs

theorem Passed.release {t : T} {nr : Nat} (hp : Passed taken t s)
    (hs : Pool.step s (.release nr) = some s') : Passed taken t s' := by
  obtain ⟨hcalls, hheld⟩ := step_release hs
  have hsub : s'.held ⊆ s.held := hheld ▸ List.erase_subset
  cases hp with
  | looking htaken hlook =>
    exact .looking (List.Subset.trans hsub htaken) (hcalls ▸ hlook.mono hsub)
  | claimed nr hcall hlt hlow => exact .claimed nr (hcalls ▸ hcall) hlt hlow

theorem Passed.exec (h : Inv s) {t : T} (hp : Passed taken t s) {as : List (Act T)}
    (hlone : ∀ a ∈ as, a.Lone t) (hrun : Runs.exec Pool.step s as = some s') :
    Passed taken t s' := by
  induction as generalizing s with
  | nil =>
    cases hrun
    exact hp
  | cons a as ih =>
    obtain ⟨s₁, hs, hrun⟩ := Option.bind_eq_some_iff.mp hrun
    obtain ⟨ha, hlone⟩ := List.forall_mem_cons.mp hlone
    have hp₁ : Passed taken t s₁ := by
      rcases ha with rfl | ⟨nr, rfl⟩
      · exact hp.go h hs
      · exact hp.release hs
    exact ih (h.step hs) hp₁ hlone hrun

/-- A call of `t` begins when no call is in progress and other threads do no more than release bits. -/
theorem Inv.passed (h : Inv s) {t : T} (hidle : (s.calls t).busy = false) {as : List (Act T)}
    (hlone : ∀ a ∈ as, a.Lone t) (hrun : Runs.exec Pool.step s (.call t :: as) = some s') :
    Passed s.held t s' := by
  rw [Runs.exec, step_call hidle, Option.bind_some] at hrun
  refine Passed.exec (h.called t) (.looking (List.Subset.refl _) ?_) hlone hrun
  rw [moved_calls]
  exact claimFrom_looking (by simp)

/-- A step in which a call returns. -/
theorem Inv.told (h : Inv s) {t : T} {ret : Int} (hs : Pool.step s (.go t) = some s')
    (hret : s'.calls t = .returned ret) : (ret = -1 ∧ s'.held = s.held) ∨
      ∃ nr : BitVec 32, nr.toNat < c.width ∧ ret = nr.toInt ∧ s'.held = nr.toNat :: s.held := by
  simp only [Pool.step] at hs
  split at hs
  next w hcall =>
    cases hs
    rw [moved_calls] at hret
    exact .inl ⟨claimRead_returned hret, rfl⟩
  next w nr hcall =>
    obtain ⟨r, -, rfl⟩ := Option.map_eq_some_iff.mp hs
    split at hret
    · rw [moved_calls] at hret
      cases hret
    next hclear =>
      rw [moved_calls] at hret
      cases hret
      rw [if_neg hclear]
      exact .inr ⟨nr, h.taking t w nr hcall, rfl, rfl⟩
  next => cases hs

/-- No call is in progress. -/
def quiet (s : Pool c T) : Prop := ∀ t, (s.calls t).busy = false

theorem Ends.quiet {t : T} (h : Ends s t s') (hquiet : s.quiet) : s'.quiet := by
  obtain ⟨ret, hcalls⟩ := h.calls
  intro u
  rw [hcalls, Function.update_apply]
  split
  · rfl
  · exact hquiet u

omit [DecidableEq T] in
theorem isLeast_free {k : Nat} (hk : k < c.width) (hheld : ∀ nr, nr ∈ s.held ↔ nr < k) :
    IsLeast s.free k := by
  refine ⟨⟨hk, by simp [hheld]⟩, fun nr hnr => ?_⟩
  rw [← Nat.not_lt, ← hheld]
  exact hnr.2

omit [DecidableEq T] in
theorem not_isLeast_free (hfree : s.free = ∅) (nr : Nat) : ¬ IsLeast s.free nr := by
  rw [hfree]
  exact fun hleast => hleast.1

/-- Calls one after the other take the bits in order. -/
theorem exists_filled (t : T) {k : Nat} (hk : k ≤ c.width) :
    ∃ s : Pool c T, Reaches s ∧ s.quiet ∧ ∀ nr, nr ∈ s.held ↔ nr < k := by
  induction k with
  | zero => exact ⟨init c T, .init, fun _ => rfl, fun nr => by simp [init]⟩
  | succ k ih =>
    obtain ⟨s, hs, hquiet, hheld⟩ := ih (by omega)
    have hleast : IsLeast s.free k := isLeast_free hk hheld
    obtain ⟨n, s', hrun, hends⟩ := (inv_reaches hs).solo (hquiet t)
    refine ⟨s', hs.run hrun, hends.quiet hquiet, fun nr => ?_⟩
    cases hends with
    | claimed nr' hleast' _ hheld' =>
      rw [hheld', List.mem_cons, hheld, hleast'.unique hleast]
      omega
    | full hfree => exact absurd hleast (not_isLeast_free hfree k)

end Pool

open Pool

/-- What claiming promises of the bitset `c` to the threads of `T`. -/
structure SlotsClaimed (c : BitsetCfg) (T : Type) [DecidableEq T] : Prop where
  /-- No two claims hold one bit. -/
  apart : ∀ s : Pool c T, Reaches s → s.held.Nodup
  below : ∀ s : Pool c T, Reaches s → ∀ nr ∈ s.held, nr < c.width
  /-- A call returns the bit that it has claimed, and -1 if it has claimed none. -/
  told : ∀ (s s' : Pool c T) t ret, Reaches s → Pool.step s (.go t) = some s' →
    s'.calls t = .returned ret →
    (ret = -1 ∧ s'.held = s.held) ∨ ∃ nr : Nat, ret = nr ∧ s'.held = nr :: s.held
  /-- A call on its own claims the lowest free bit. -/
  alone : ∀ (s : Pool c T) t, Reaches s → s.quiet → ∃ n s' ret,
    exec Pool.step s (.call t :: List.replicate n (.go t)) = some s' ∧ s'.calls t = .returned ret ∧
    (∀ nr, IsLeast s.free nr → ret = nr ∧ s'.held = nr :: s.held) ∧ (ret = -1 ↔ s.free = ∅)
  /-- Bits may be released in the course of a call. It passes none that was free when it began. -/
  lowest : ∀ (s s' : Pool c T) t as ret, Reaches s → s.quiet → (∀ a ∈ as, Act.Lone t a) →
    exec Pool.step s (.call t :: as) = some s' → s'.calls t = .returned ret →
    (ret = -1 → s.free = ∅) ∧ ∀ nr ∈ s.free, ret ≤ nr

variable [DecidableEq T]

theorem toInt_of_narrow (hwidth : c.width ≤ 2 ^ 31) {nr : BitVec 32} (hnr : nr.toNat < c.width) :
    nr.toInt = nr.toNat :=
  BitVec.toInt_eq_toNat_of_lt (by omega)

theorem Pool.Ends.returns {s s' : Pool c T} {t : T} (h : Ends s t s') (hwidth : c.width ≤ 2 ^ 31) :
    ∃ ret, s'.calls t = .returned ret ∧
      (∀ nr, IsLeast s.free nr → ret = nr ∧ s'.held = nr :: s.held) ∧ (ret = -1 ↔ s.free = ∅) := by
  cases h with
  | claimed nr hleast hcalls hheld =>
    have hret := toInt_of_narrow hwidth hleast.1.1
    refine ⟨nr.toInt, by rw [hcalls, Function.update_self], fun nr' hleast' => ?_, ?_⟩
    · obtain rfl := hleast.unique hleast'
      exact ⟨hret, hheld⟩
    · constructor
      · intro hnone
        omega
      · intro hfree
        exact absurd hleast (not_isLeast_free hfree _)
  | full hfree hcalls hheld =>
    refine ⟨-1, by rw [hcalls, Function.update_self], fun nr hleast => ?_, by simp [hfree]⟩
    exact absurd hleast (not_isLeast_free hfree nr)

omit [DecidableEq T] in
theorem Pool.Passed.lowest {s s' : Pool c T} {t : T} {ret : Int} (h : Passed s.held t s')
    (hret : s'.calls t = .returned ret) (hwidth : c.width ≤ 2 ^ 31) :
    (ret = -1 → s.free = ∅) ∧ ∀ nr ∈ s.free, ret ≤ nr := by
  cases h with
  | looking _ hlook =>
    rw [hret] at hlook
    cases hlook with
    | full hall =>
      have hfree := free_eq_empty hall
      exact ⟨fun _ => hfree, by simp [hfree]⟩
  | claimed nr hcall hlt hlow =>
    rw [hret] at hcall
    cases hcall
    rw [toInt_of_narrow hwidth hlt]
    refine ⟨fun hnone => by omega, fun j hj => ?_⟩
    have hle : nr.toNat ≤ j := Nat.not_lt.mp fun hjlt => hj.2 (hlow j hjlt)
    exact_mod_cast hle

theorem slotsClaimed_of_narrow (hwidth : c.width ≤ 2 ^ 31) : SlotsClaimed c T where
  apart s hs := (inv_reaches hs).nodup
  below s hs := (inv_reaches hs).below
  told s s' t ret hs hstep hret := by
    rcases (inv_reaches hs).told hstep hret with hnone | ⟨nr, hlt, rfl, hheld⟩
    · exact .inl hnone
    · exact .inr ⟨nr.toNat, toInt_of_narrow hwidth hlt, hheld⟩
  alone s t hs hquiet := by
    obtain ⟨n, s', hrun, hends⟩ := (inv_reaches hs).solo (hquiet t)
    obtain ⟨ret, hret⟩ := hends.returns hwidth
    exact ⟨n, s', ret, hrun, hret⟩
  lowest s s' t as ret hs hquiet hlone hrun hret :=
    ((inv_reaches hs).passed (hquiet t) hlone hrun).lowest hret hwidth

/-- Bit `2 ^ 31` is negative as an `int`. -/
theorem not_slotsClaimed_of_wide (t : T) (hwidth : 2 ^ 31 < c.width) : ¬ SlotsClaimed c T := by
  intro h
  obtain ⟨s, hs, hquiet, hheld⟩ := exists_filled (c := c) t hwidth.le
  have hleast : IsLeast s.free (2 ^ 31) := isLeast_free hwidth hheld
  obtain ⟨n, s₁, ret, hrun₁, hret, hlowest, -⟩ := h.alone s t hs hquiet
  obtain ⟨m, s₂, hrun₂, hends⟩ := (inv_reaches hs).solo (hquiet t)
  rw [exec, step_call (hquiet t), Option.bind_some] at hrun₁ hrun₂
  obtain rfl := exec_replicate_unique hrun₁ hrun₂ (step_returned hret) hends.stuck
  cases hends with
  | claimed nr hleast' hcalls _ =>
    have hnr : nr = 2147483648#32 := BitVec.eq_of_toNat_eq (hleast'.unique hleast)
    rw [hcalls, Function.update_self, ClaimCall.returned.injEq, hnr] at hret
    have hpos := (hlowest _ hleast).1
    rw [← hret] at hpos
    exact absurd hpos (by decide)
  | full hfree => exact absurd hleast (not_isLeast_free hfree _)

/-- `ludlc_bitset_claim` returns an `int`, which holds the bits of a set of up to `2 ^ 31` of them. -/
theorem slots_claimed_iff (c : BitsetCfg) (T : Type) [DecidableEq T] [Inhabited T] :
    SlotsClaimed c T ↔ c.width ≤ 2 ^ 31 := by
  constructor
  · intro h
    by_contra hwide
    exact not_slotsClaimed_of_wide default (Nat.not_le.mp hwide) h
  · exact slotsClaimed_of_narrow

theorem slots_not_claimed :
    ¬ SlotsClaimed ⟨32, 2147483649#32, 5, by decide, rfl⟩ Unit :=
  not_slotsClaimed_of_wide () (by decide)

end Ludlc
