import Ludlc.Linux.Bus

/-! # A bus held for a power transition

`ludlc_conn_prepare` sets a bit that the work tests once, at its start. It waits for a run that may be
past that test only where the bit had been set already.
-/

namespace Ludlc.Linux

open Runs

variable {κ ι : Type}

/-- The run has found the bus not held. -/
def Stage.pastHold : Stage κ ι → Bool
  | .entry => false
  | .holdTest _ => false
  | _ => true

/-- The bus is not held over the head of a run, and held once at a time. -/
def HoldsAlone (s : Link κ ι) (a : Act) : Prop :=
  (a = .prepare → s.busHold = false → ∀ st ∈ s.run, st.pastHold = false) ∧
    (a = .complete → s.held = 1)

namespace Link

variable {s s' : Link κ ι}

/-- A run that has not tested BUS_HOLD yet does nothing to the bus, and is turned back there. -/
theorem linkWork_early [DecidableEq ι] (children : List κ) (ok : Bool) {st : Stage κ ι} (h : st.pastHold = false)
    (hhold : s.busHold = true) :
    (s.linkWork children ok st).ops = s.ops ∧
      ∀ st' ∈ (s.linkWork children ok st).run, st'.pastHold = false := by
  cases st with
  | entry =>
    refine ⟨rfl, ?_⟩
    rintro st' ⟨⟩
    rfl
  | holdTest seen =>
    rw [linkWork, hhold]
    refine ⟨rfl, ?_⟩
    rintro st' ⟨⟩
  | _ => cases h

/-- A bus that is held is held by the bit, with no run past the test of it. -/
structure Still (s : Link κ ι) : Prop where
  held : 0 < s.held ∨ s.pm = .canceling → s.busHold = true
  past : s.busHold = true → ∀ st ∈ s.run, st.pastHold = false
  resync : s.pm = .resyncing → s.busHold = false

theorem Still.sameBus (h : s.Still) (hsame : SameBus s s') : s'.Still where
  held := by
    rw [hsame.held, hsame.pm, hsame.busHold]
    exact h.held
  past := by
    rw [hsame.busHold, hsame.run]
    exact h.past
  resync := by
    rw [hsame.pm, hsame.busHold]
    exact h.resync

theorem step_still [DecidableEq ι] {children : List κ} {a : Act} (h : s.Still) (hok : HoldsAlone s a)
    (hstep : s.step children a = some s') : s'.Still := by
  cases ha : a.ofLink with
  | true => exact h.sameBus (step_ofLink ha hstep)
  | false =>
    cases a with
    | start =>
      rw [step] at hstep
      split at hstep
      · cases hstep
        refine ⟨h.held, fun _ => ?_, h.resync⟩
        rintro st ⟨⟩
        rfl
      · cases hstep
    | work ok =>
      obtain ⟨st, hst, rfl⟩ := Option.map_eq_some_iff.mp hstep
      have hsame := linkWork_sameHold children s ok st
      refine ⟨?_, ?_, ?_⟩
      · rw [hsame.held, hsame.pm, hsame.busHold]
        exact h.held
      · rw [hsame.busHold]
        intro hhold
        exact (linkWork_early children ok (h.past hhold st hst) hhold).2
      · rw [hsame.pm, hsame.busHold]
        exact h.resync
    | prepare =>
      rw [step] at hstep
      split at hstep
      · cases hstep
      · rename_i hpm
        rw [not_not] at hpm
        split at hstep
        · rename_i hhold
          cases hstep
          exact ⟨fun _ => hhold, h.past, by rintro ⟨⟩⟩
        · rename_i hhold
          rw [Bool.not_eq_true] at hhold
          cases hstep
          refine ⟨fun _ => rfl, fun _ => hok.1 rfl hhold, fun hr => ?_⟩
          rw [hpm] at hr
          cases hr
    | canceled =>
      rw [step] at hstep
      split at hstep
      · rename_i hc
        cases hstep
        exact ⟨fun _ => h.held (.inr hc.1), h.past, by rintro ⟨⟩⟩
      · cases hstep
    | complete =>
      have hone := hok.2 rfl
      rw [step] at hstep
      split at hstep
      · cases hstep
      · rw [if_pos (h.held (.inl (by omega)))] at hstep
        cases hstep
        refine ⟨?_, by rintro ⟨⟩, fun _ => rfl⟩
        rintro (hpos | ⟨⟨⟩⟩)
        simp [hone] at hpos
    | resync =>
      rw [step] at hstep
      split at hstep
      · cases hstep
        have hsame := h.sameBus (scheduleWork_sameBus s)
        refine ⟨?_, hsame.past, by rintro ⟨⟩⟩
        rintro (hpos | ⟨⟨⟩⟩)
        exact hsame.held (.inl hpos)
      · cases hstep
    | _ => cases ha

theorem init_still (own : List (Own ι)) : (init own : Link κ ι).Still where
  held := by
    rintro (hpos | ⟨⟨⟩⟩)
    exact absurd hpos (lt_irrefl 0)
  past := by rintro ⟨⟩
  resync := by rintro ⟨⟩

theorem Still.ops [DecidableEq ι] {children : List κ} {a : Act} (h : s.Still) (hhold : s.busHold = true)
    (hstep : s.step children a = some s') : s'.ops = s.ops := by
  cases ha : a.ofLink with
  | true => exact (step_ofLink ha hstep).ops
  | false =>
    cases a with
    | work ok =>
      obtain ⟨st, hst, rfl⟩ := Option.map_eq_some_iff.mp hstep
      exact (linkWork_early children ok (h.past hhold st hst) hhold).1
    | resync =>
      rw [step] at hstep
      split at hstep
      · cases hstep
        exact (scheduleWork_sameBus s).ops
      · cases hstep
    | start | prepare | canceled | complete =>
      rw [step] at hstep
      repeat' split at hstep
      all_goals cases hstep
      all_goals rfl
    | _ => cases ha

end Link

/-- Where the bus is held once at a time and never over the head of a run past the test, it stays as
it is until it is let go, and is then brought in line again. -/
theorem held_still [DecidableEq ι] (children : List κ) (own : List (Own ι)) {s : Link κ ι}
    (h : Reachable (Link.init own) (Link.step children) HoldsAlone s) :
    (0 < s.held → ∀ a s', s.step children a = some s' → s'.ops = s.ops) ∧
      (∀ s', HoldsAlone s .complete → s.step children .complete = some s' → s'.pm = .resyncing) ∧
        ∀ s', s.step children .resync = some s' → s'.busHold = false ∧ s'.queued = true := by
  have hstill : s.Still := h.invariant (Link.init_still own) Link.step_still
  refine ⟨fun hheld a s' => hstill.ops (hstill.held (.inl hheld)), ?_, ?_⟩
  · intro s' hok hstep
    have hone := hok.2 rfl
    rw [Link.step] at hstep
    split at hstep
    · cases hstep
    · rw [if_pos (hstill.held (.inl (by omega)))] at hstep
      cases hstep
      rfl
  · intro s' hstep
    rw [Link.step] at hstep
    split at hstep
    · rename_i hpm
      cases hstep
      have hq := Link.scheduleWork_queued (s := s) (by rw [hpm]; decide)
      exact ⟨(Link.scheduleWork_sameBus s).busHold.trans (hstill.resync hpm), hq⟩
    · cases hstep

/-- A link that went down is held, with the callbacks of its session still to come. -/
theorem held_still_down :
    let s : Link Nat Nat :=
      { Link.init [] with downs := [1], sess := 1, ups := 1, busHold := true, held := 1 }
    (0 < s.held → ∀ a s', s.step [5] a = some s' → s'.ops = s.ops) ∧
      (∀ s', HoldsAlone s .complete → s.step [5] .complete = some s' → s'.pm = .resyncing) ∧
        ∀ s', s.step [5] .resync = some s' → s'.busHold = false ∧ s'.queued = true :=
  held_still [5] [] (.step (.step (.step .init (a := .connect) ⟨by rintro ⟨⟩, by rintro ⟨⟩⟩ rfl)
    (a := .disconnect) ⟨by rintro ⟨⟩, by rintro ⟨⟩⟩ rfl)
    (a := .prepare) ⟨fun _ _ => by rintro st ⟨⟩, by rintro ⟨⟩⟩ rfl)

/-- A run past the test goes on to add a device to a bus that is held by then. -/
theorem held_populates :
    ∃ s : Link Nat Nat, Reachable (Link.init []) (Link.step [5]) (fun _ _ => True) s ∧
      0 < s.held ∧ ∃ a s', s.step [5] a = some s' ∧ s'.ops ≠ s.ops := by
  obtain ⟨s, hs, hP⟩ := Reachable.of_exec (Link.init [] : Link Nat Nat) (Link.step [5])
    (fun _ _ => true)
    [.connect, .onConnect, .schedule, .start, .work true, .work true, .prepare, .work true,
      .work true]
    (fun s : Link Nat Nat => decide (0 < s.held) &&
      (s.step [5] (.work true)).any fun s' : Link Nat Nat => decide (s'.ops ≠ s.ops))
    (by decide) (by decide)
  rw [Bool.and_eq_true, decide_eq_true_iff, Option.any_eq_true] at hP
  obtain ⟨hheld, s', hstep, hops⟩ := hP
  exact ⟨s, hs.mono fun _ _ _ => trivial, hheld, .work true, s', hstep, of_decide_eq_true hops⟩

end Ludlc.Linux
