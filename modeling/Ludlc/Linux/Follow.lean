import Ludlc.Linux.Bus

/-! # The devices of the current session

A run of the work reads the state of the link before it takes SESSION_LOST. A session that ends in
between, and is noted there in time, leaves nothing behind to tell that its devices are those of a
session that is over.
-/

namespace Ludlc.Linux

open Runs

variable {κ ι : Type}

/-- What the run read of the link, where it has yet to take SESSION_LOST. -/
def Stage.reading : Stage κ ι → Option Nat
  | .holdTest seen => seen
  | .lostTest seen => seen
  | _ => none

namespace Link

variable {children : List κ} {s s' : Link κ ι}

/-- Nothing is queued or running, and every callback has returned. -/
structure Settled (s : Link κ ι) : Prop where
  queued : s.queued = false
  run : s.run = none
  ups : s.ups = 0
  downs : s.downs = []
  kicks : s.kicks = 0

/-- The children are on the bus, each added in this session, but those left to come and those that
could not be registered in it. -/
def Current (children rest : List κ) (s : Link κ ι) : Prop :=
  s.connected = true ∧ (∀ d ∈ s.devices, d.since = s.sess) ∧
    ∀ c ∈ children, c ∈ rest ∨ (∃ d ∈ s.devices, d.child = c) ∨ (c, s.sess) ∈ s.skipped

/-- The bus carries the devices of the session there is, or none. -/
def InStep (children : List κ) (s : Link κ ι) : Prop :=
  if s.connected then s.Current children [] else s.devices = []

/-- The bus is not held, and no `on_disconnect` notes the end of a session that a run still takes to
be there. -/
def NotesInTime (s : Link κ ι) (a : Act) : Prop :=
  a ≠ .prepare ∧
    ∀ sess, a = .onDisconnect sess → ∀ st ∈ s.run, ∀ r ∈ st.reading, sess < r

/-! ## What is still to come -/

/-- The end of a session is noted, or will be. -/
def LostDue (s : Link κ ι) : Prop := s.sessionLost = true ∨ s.downs ≠ []

/-- The work is queued, or will be. -/
def RunDue (s : Link κ ι) : Prop :=
  s.queued = true ∨ 0 < s.kicks ∨ 0 < s.ups ∨ s.downs ≠ []

/-- The devices are those of the session, or known not to be. -/
def Known (children rest : List κ) (s : Link κ ι) : Prop := s.LostDue ∨ s.Current children rest

/-- The bus between two walks over it. -/
def AtRest (children : List κ) (s : Link κ ι) : Prop :=
  if s.populated then s.Known children [] else s.devices = []

theorem atRest_populated (hp : s.populated = true) :
    s.AtRest children ↔ s.Known children [] := by
  rw [AtRest, if_pos hp]

theorem atRest_empty (hp : s.populated = false) : s.AtRest children ↔ s.devices = [] := by
  rw [AtRest, if_neg (by simp [hp])]

/-- The session a run read is the one there is, or its end has yet to be noted. -/
def Reads (s : Link κ ι) (r : Nat) : Prop := s.connected = true ∧ s.sess = r ∨ r ∈ s.downs

/-- What a run past SESSION_LOST may go by. -/
def Past (s : Link κ ι) (seen : Option Nat) : Prop :=
  (s.sessionLost = true → s.RunDue) ∧ (seen = none → s.connected = true → s.RunDue) ∧
    (seen ≠ none → s.connected = true ∨ s.LostDue)

/-- What holds wherever a run is. -/
def Follows (children : List κ) (s : Link κ ι) : Option (Stage κ ι) → Prop
  | none => s.AtRest children ∧ (s.sessionLost = true → s.RunDue) ∧
      (s.connected = true → s.populated = false → s.RunDue)
  | some .entry => s.AtRest children
  | some (.holdTest seen) | some (.lostTest seen) =>
    s.AtRest children ∧ (seen = none → s.connected = true → s.RunDue) ∧ ∀ r ∈ seen, s.Reads r
  | some (.sweepLost seen) => s.populated = false ∧ s.Past seen
  | some (.compare seen) => s.AtRest children ∧ s.Past seen
  | some (.populate rest) =>
    s.populated = true ∧ s.Known children rest ∧ (s.sessionLost = true → s.RunDue)
  | some (.reprobe _ _) =>
    s.populated = true ∧ s.Known children [] ∧ (s.sessionLost = true → s.RunDue)
  | some .sweep => s.populated = false ∧ s.Past none

/-! ## The events of the link -/

/-- What an event does for a run under way. -/
structure Event (s s' : Link κ ι) : Prop where
  due : s'.RunDue
  lost : s.LostDue → s'.LostDue
  current : ∀ children rest, s.Current children rest → s'.Known children rest
  up : s.connected = true → s'.connected = true ∨ s'.LostDue

theorem step_event [DecidableEq ι] {a : Act} (ha : a.ofLink = true) (hpm : s.pm = .idle)
    (hstep : s.step children a = some s') : s.Event s' := by
  cases a with
  | connect =>
    rw [step] at hstep
    split at hstep
    · cases hstep
    · rename_i hdown
      cases hstep
      exact ⟨.inr (.inr (.inl (Nat.succ_pos _))), id, fun _ _ h => absurd h.1 hdown,
        fun h => absurd h hdown⟩
  | disconnect =>
    rw [step] at hstep
    split at hstep
    · cases hstep
      have hne : s.downs ++ [s.sess] ≠ [] := by simp
      exact ⟨.inr (.inr (.inr hne)), fun _ => .inr hne, fun _ _ _ => .inl (.inr hne),
        fun _ => .inr (.inr hne)⟩
    · cases hstep
  | breakOff =>
    rw [step] at hstep
    split at hstep
    · cases hstep
    · rename_i hdown
      cases hstep
      have hne : s.downs ++ [0] ≠ [] := by simp
      exact ⟨.inr (.inr (.inr hne)), fun _ => .inr hne, fun _ _ h => absurd h.1 hdown,
        fun h => absurd h hdown⟩
  | onConnect =>
    rw [step] at hstep
    split at hstep
    · cases hstep
    · cases hstep
      exact ⟨.inr (.inl (Nat.succ_pos _)), id, fun _ _ => .inr, .inl⟩
  | onDisconnect sess =>
    rw [step] at hstep
    split at hstep
    · cases hstep
      exact ⟨.inr (.inl (Nat.succ_pos _)), fun _ => .inl rfl, fun _ _ _ => .inl (.inl rfl), .inl⟩
    · cases hstep
  | schedule =>
    have hqueue : s.scheduleWork = { s with queued := true } :=
      if_neg (by rw [hpm]; decide)
    rw [step, hqueue] at hstep
    split at hstep
    · cases hstep
    · cases hstep
      exact ⟨.inl rfl, id, fun _ _ => .inr, .inl⟩
  | _ => cases ha

theorem step_reads [DecidableEq ι] {a : Act} {r : Nat} (ha : a.ofLink = true)
    (hnotes : ∀ sess, a = .onDisconnect sess → sess < r) (h : s.Reads r)
    (hstep : s.step children a = some s') : s'.Reads r := by
  cases a with
  | connect =>
    rw [step] at hstep
    split at hstep
    · cases hstep
    · rename_i hdown
      cases hstep
      rcases h with h | h
      · exact absurd h.1 hdown
      · exact .inr h
  | disconnect =>
    rw [step] at hstep
    split at hstep
    · cases hstep
      right
      rcases h with ⟨-, rfl⟩ | h
      · exact List.mem_append_right _ (List.mem_singleton.mpr rfl)
      · exact List.mem_append_left _ h
    · cases hstep
  | breakOff =>
    rw [step] at hstep
    split at hstep
    · cases hstep
    · cases hstep
      exact h.imp id (List.mem_append_left _)
  | onDisconnect sess =>
    have hlt := hnotes sess rfl
    rw [step] at hstep
    split at hstep
    · cases hstep
      exact h.imp id fun h => (List.mem_erase_of_ne (by omega)).mpr h
    · cases hstep
  | onConnect =>
    rw [step] at hstep
    split at hstep
    · cases hstep
    · cases hstep
      exact h
  | schedule =>
    rw [step, scheduleWork] at hstep
    split at hstep
    · cases hstep
    · split at hstep
      · cases hstep
        exact h
      · cases hstep
        exact h
  | _ => cases ha

theorem Event.known {rest : List κ} (h : s.Event s') (hk : s.Known children rest) :
    s'.Known children rest := by
  rcases hk with hk | hk
  · exact .inl (h.lost hk)
  · exact h.current _ _ hk

theorem Event.past {seen : Option Nat} (h : s.Event s') (hp : s.Past seen) : s'.Past seen := by
  refine ⟨fun _ => h.due, fun _ _ => h.due, fun hne => ?_⟩
  rcases hp.2.2 hne with hc | hl
  · exact h.up hc
  · exact .inr (h.lost hl)

theorem Event.atRest (h : s.Event s') (hsame : SameBus s s') (hr : s.AtRest children) :
    s'.AtRest children := by
  rw [AtRest] at hr ⊢
  rw [hsame.populated, hsame.devices]
  split
  · rename_i hp
    rw [if_pos hp] at hr
    exact h.known hr
  · rename_i hp
    rw [if_neg hp] at hr
    exact hr

theorem Event.follows {st : Option (Stage κ ι)} (h : s.Event s') (hsame : SameBus s s')
    (hreads : ∀ t ∈ st, ∀ r ∈ t.reading, s.Reads r → s'.Reads r) (hf : s.Follows children st) :
    s'.Follows children st := by
  cases st with
  | none => exact ⟨h.atRest hsame hf.1, fun _ => h.due, fun _ _ => h.due⟩
  | some t =>
    cases t with
    | entry => exact h.atRest hsame hf
    | holdTest seen =>
      exact ⟨h.atRest hsame hf.1, fun _ _ => h.due, fun r hr => hreads _ rfl r hr (hf.2.2 r hr)⟩
    | lostTest seen =>
      exact ⟨h.atRest hsame hf.1, fun _ _ => h.due, fun r hr => hreads _ rfl r hr (hf.2.2 r hr)⟩
    | sweepLost seen => exact ⟨hsame.populated.trans hf.1, h.past hf.2⟩
    | compare seen => exact ⟨h.atRest hsame hf.1, h.past hf.2⟩
    | populate rest => exact ⟨hsame.populated.trans hf.1, h.known hf.2.1, fun _ => h.due⟩
    | reprobe session rest => exact ⟨hsame.populated.trans hf.1, h.known hf.2.1, fun _ => h.due⟩
    | sweep => exact ⟨hsame.populated.trans hf.1, h.past hf.2⟩

/-! ## The work -/

theorem busSweep_follows {seen : Option Nat} {stage next : Option (Stage κ ι)}
    (hpop : s.populated = false) (hpast : s.Past seen)
    (hstage : ∀ t : Link κ ι, t.populated = false → t.Past seen → t.Follows children stage)
    (hnext : ∀ t : Link κ ι, t.populated = false → t.devices = [] → t.Past seen →
      t.Follows children next) :
    (s.busSweep stage next).Follows children (s.busSweep stage next).run := by
  rw [busSweep]
  split
  · rename_i hnil
    exact hnext _ hpop hnil hpast
  · exact hstage _ hpop hpast

theorem busPopulate_current {rest : List κ} {child : κ} (ok : Bool)
    (h : s.Current children (child :: rest)) :
    (s.busPopulate ok child).Current children rest := by
  obtain ⟨hconn, hsince, hall⟩ := h
  rw [busPopulate]
  split
  · refine ⟨hconn, ?_, ?_⟩
    · intro d hd
      rcases List.mem_append.mp hd with hd | hd
      · exact hsince d hd
      · rw [List.mem_singleton] at hd
        rw [hd]
    · intro c hc
      rcases hall c hc with hrest | ⟨d, hd, hdc⟩ | hskip
      · rcases List.mem_cons.mp hrest with rfl | hrest
        · exact .inr (.inl ⟨_, List.mem_append_right _ (List.mem_singleton.mpr rfl), rfl⟩)
        · exact .inl hrest
      · exact .inr (.inl ⟨d, List.mem_append_left _ hd, hdc⟩)
      · exact .inr (.inr hskip)
  · refine ⟨hconn, hsince, ?_⟩
    intro c hc
    rcases hall c hc with hrest | hdev | hskip
    · rcases List.mem_cons.mp hrest with rfl | hrest
      · exact .inr (.inr (List.mem_append_right _ (List.mem_singleton.mpr rfl)))
      · exact .inl hrest
    · exact .inr (.inl hdev)
    · exact .inr (.inr (List.mem_append_left _ hskip))

theorem past_of_reads {seen : Option Nat} (hlost : s.sessionLost = false)
    (hdown : seen = none → s.connected = true → s.RunDue) (hreads : ∀ r ∈ seen, s.Reads r) :
    s.Past seen := by
  refine ⟨fun h => ?_, hdown, fun hne => ?_⟩
  · rw [hlost] at h
    cases h
  · obtain ⟨r, rfl⟩ := Option.ne_none_iff_exists'.mp hne
    rcases hreads r rfl with ⟨hc, -⟩ | hr
    · exact .inl hc
    · exact .inr (.inr (List.ne_nil_of_mem hr))

theorem linkWork_follows [DecidableEq ι] {st : Stage κ ι} (ok : Bool) (hhold : s.busHold = false)
    (hf : s.Follows children (some st)) :
    (s.linkWork children ok st).Follows children (s.linkWork children ok st).run := by
  cases st with
  | entry =>
    refine ⟨hf, ?_, ?_⟩
    · intro hnone hconn
      have hup : s.connected = true := hconn
      rw [hup] at hnone
      cases hnone
    · intro r hr
      cases hconn : s.connected with
      | false =>
        rw [hconn] at hr
        cases hr
      | true =>
        rw [hconn] at hr
        cases hr
        exact .inl ⟨hconn, rfl⟩
  | holdTest seen =>
    rw [linkWork, hhold]
    exact hf
  | lostTest seen =>
    obtain ⟨hrest, hdown, hreads⟩ := hf
    rw [linkWork]
    split
    · exact ⟨rfl, past_of_reads rfl hdown hreads⟩
    · rename_i hboth
      refine ⟨?_, past_of_reads rfl hdown hreads⟩
      cases hp : s.populated with
      | true =>
        refine (atRest_populated rfl).mpr ?_
        rcases (atRest_populated hp).mp hrest with (hlost | hdowns) | hcur
        · exact absurd ⟨hlost, hp⟩ hboth
        · exact .inl (.inr hdowns)
        · exact .inr hcur
      | false => exact (atRest_empty rfl).mpr ((atRest_empty hp).mp hrest)
  | sweepLost seen =>
    exact busSweep_follows hf.1 hf.2 (fun t hp ht => ⟨hp, ht⟩)
      fun t hp hnil ht => ⟨(atRest_empty hp).mpr hnil, ht⟩
  | compare seen =>
    obtain ⟨hrest, hpast⟩ := hf
    rw [linkWork]
    split
    · rename_i heq
      refine ⟨hrest, hpast.1, ?_⟩
      intro hconn hp
      have hdown : s.populated = false := hp
      rw [hdown, Option.isSome_eq_false_iff, Option.isNone_iff_eq_none] at heq
      exact hpast.2.1 heq hconn
    · rename_i hne
      split
      · rename_i hup
        have hp : s.populated = false := by
          rw [← Bool.not_eq_true]
          exact fun h => hne (hup.trans h.symm)
        rw [atRest_empty hp] at hrest
        refine ⟨rfl, ?_, hpast.1⟩
        rcases hpast.2.2 (Option.isSome_iff_ne_none.mp hup) with hconn | hlost
        · right
          refine ⟨hconn, ?_, fun c hc => .inl hc⟩
          simp only [hrest]
          rintro d ⟨⟩
        · exact .inl hlost
      · rename_i hup
        rw [Option.not_isSome_iff_eq_none] at hup
        subst hup
        exact ⟨rfl, hpast⟩
  | populate rest =>
    obtain ⟨hp, hknown, hlost⟩ := hf
    cases rest with
    | nil => exact ⟨hp, hknown, hlost⟩
    | cons child rest =>
      have hrest := hknown.imp id (busPopulate_current ok)
      cases ok with
      | true => exact ⟨hp, hrest, hlost⟩
      | false => exact ⟨hp, hrest, hlost⟩
  | reprobe session rest =>
    obtain ⟨hp, hknown, hlost⟩ := hf
    cases rest with
    | nil =>
      refine ⟨(atRest_populated hp).mpr hknown, hlost, fun _ hp' => ?_⟩
      exact absurd (hp.symm.trans hp') (by decide)
    | cons id rest =>
      rw [linkWork, busReprobe]
      split
      · exact ⟨hp, hknown, hlost⟩
      · exact ⟨hp, hknown, hlost⟩
  | sweep =>
    exact busSweep_follows hf.1 hf.2 (fun t hp ht => ⟨hp, ht⟩)
      fun t hp hnil ht => ⟨(atRest_empty hp).mpr hnil, ht.1, fun hconn _ => ht.2.1 rfl hconn⟩

/-! ## Runs -/

/-- The bus is not held, and follows the link. -/
structure Following (children : List κ) (s : Link κ ι) : Prop where
  pm : s.pm = .idle
  busHold : s.busHold = false
  follows : s.Follows children s.run

theorem init_following (children : List κ) (own : List (Own ι)) :
    (init own : Link κ ι).Following children where
  pm := rfl
  busHold := rfl
  follows := ⟨rfl, by rintro ⟨⟩, by rintro ⟨⟩⟩

theorem step_following [DecidableEq ι] {a : Act} (h : s.Following children)
    (hok : NotesInTime s a) (hstep : s.step children a = some s') : s'.Following children := by
  cases ha : a.ofLink with
  | true =>
    have hsame := step_ofLink ha hstep
    refine ⟨hsame.pm.trans h.pm, hsame.busHold.trans h.busHold, ?_⟩
    rw [hsame.run]
    refine (step_event ha h.pm hstep).follows hsame ?_ h.follows
    intro st hst r hr hreads
    exact step_reads ha (fun sess hs => hok.2 sess hs st hst r hr) hreads hstep
  | false =>
    cases a with
    | start =>
      rw [step] at hstep
      split at hstep
      · rename_i hrun
        cases hstep
        have hf := h.follows
        rw [hrun.2] at hf
        exact ⟨h.pm, h.busHold, hf.1⟩
      · cases hstep
    | work ok =>
      obtain ⟨st, hst, rfl⟩ := Option.map_eq_some_iff.mp hstep
      have hsame := linkWork_sameHold children s ok st
      have hf := h.follows
      rw [hst] at hf
      exact ⟨hsame.pm.trans h.pm, hsame.busHold.trans h.busHold,
        linkWork_follows ok h.busHold hf⟩
    | prepare => exact absurd rfl hok.1
    | canceled =>
      rw [step, if_neg (by simp [h.pm])] at hstep
      cases hstep
    | complete =>
      rw [step, h.busHold] at hstep
      split at hstep
      · cases hstep
      · cases hstep
        exact ⟨h.pm, rfl, h.follows⟩
    | resync =>
      rw [step, if_neg (by simp [h.pm])] at hstep
      cases hstep
    | _ => cases ha

theorem Following.inStep (h : s.Following children) (hs : s.Settled) : s.InStep children := by
  have hdue : ¬ s.RunDue := by
    rintro (hq | hk | hu | hd)
    · rw [hs.queued] at hq
      cases hq
    · rw [hs.kicks] at hk
      exact absurd hk (lt_irrefl 0)
    · rw [hs.ups] at hu
      exact absurd hu (lt_irrefl 0)
    · exact hd hs.downs
  have hf := h.follows
  rw [hs.run] at hf
  obtain ⟨hrest, hlost, hconn⟩ := hf
  have hnot : ¬ s.LostDue := by
    rintro (hl | hd)
    · exact hdue (hlost hl)
    · exact hd hs.downs
  rw [InStep]
  cases hp : s.populated with
  | true =>
    have hcur := ((atRest_populated hp).mp hrest).resolve_left hnot
    rw [if_pos hcur.1]
    exact hcur
  | false =>
    rw [if_neg fun hc => hdue (hconn hc hp)]
    exact (atRest_empty hp).mp hrest

end Link

/-- Where no end of a session is noted behind the back of a run that has read the session and not
taken the note, the bus carries the devices of the session there is whenever all is quiet. -/
theorem bus_inStep [DecidableEq ι] (children : List κ) (own : List (Own ι)) {s : Link κ ι}
    (h : Reachable (Link.init own) (Link.step children) Link.NotesInTime s) (hs : s.Settled) :
    s.InStep children :=
  (h.invariant (Link.init_following children own) Link.step_following).inStep hs

/-- A link that has come up, with one child that registers and one that does not. -/
theorem bus_inStep_up :
    ∃ s : Link Nat Nat, s.devices = [⟨5, 1⟩] ∧ s.skipped = [(6, 1)] ∧ s.InStep [5, 6] := by
  obtain ⟨s, hs, hP⟩ := Reachable.of_exec (Link.init [] : Link Nat Nat) (Link.step [5, 6])
    (fun _ a => match a with
      | .prepare | .onDisconnect _ => false
      | _ => true)
    [.connect, .onConnect, .schedule, .start, .work true, .work true, .work true, .work true,
      .work true, .work false, .work true, .work true]
    (fun s : Link Nat Nat => decide (s.queued = false ∧ s.run = none ∧ s.ups = 0 ∧ s.downs = [] ∧
      s.kicks = 0 ∧ s.devices = [⟨5, 1⟩] ∧ s.skipped = [(6, 1)]))
    (by decide) (by decide)
  obtain ⟨hq, hr, hu, hd, hk, hdev, hskip⟩ := of_decide_eq_true hP
  refine ⟨s, hdev, hskip,
    bus_inStep [5, 6] [] (hs.mono fun _ a ha => ⟨?_, ?_⟩) ⟨hq, hr, hu, hd, hk⟩⟩
  · rintro rfl
    cases ha
  · rintro sess rfl
    cases ha

/-- A session that ends under a run that has read it, and another that begins before the next run:
its bus carries the devices of the one before. -/
theorem bus_outOfStep :
    ∃ s : Link Nat Nat,
      Reachable (Link.init []) (Link.step [5]) (fun _ a => a ≠ .prepare) s ∧ s.Settled ∧
        ¬ s.InStep [5] := by
  obtain ⟨s, hs, hP⟩ := Reachable.of_exec (Link.init [] : Link Nat Nat) (Link.step [5])
    (fun _ a => decide (a ≠ .prepare))
    [.connect, .onConnect, .schedule, .start, .work true, .disconnect, .onDisconnect 1,
      .work true, .work true, .work true, .work true, .work true, .work true,
      .schedule, .connect, .start, .work true, .work true, .work true, .work true,
      .onConnect, .schedule, .start, .work true, .work true, .work true, .work true]
    (fun s : Link Nat Nat => decide (s.queued = false ∧ s.run = none ∧ s.ups = 0 ∧ s.downs = [] ∧
      s.kicks = 0 ∧ s.connected = true ∧ s.devices = [⟨5, 1⟩] ∧ s.sess = 2))
    (by decide) (by decide)
  obtain ⟨hq, hr, hu, hd, hk, hconn, hdev, hsess⟩ := of_decide_eq_true hP
  refine ⟨s, hs.mono fun _ _ => of_decide_eq_true, ⟨hq, hr, hu, hd, hk⟩, fun h => ?_⟩
  rw [Link.InStep, if_pos hconn] at h
  have hold := h.2.1 ⟨5, 1⟩ (by rw [hdev]; exact List.mem_singleton.mpr rfl)
  rw [hsess] at hold
  cases hold

end Ludlc.Linux
