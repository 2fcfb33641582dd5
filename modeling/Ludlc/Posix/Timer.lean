import Ludlc.Lib.Runs

/-! # The timers of the POSIX port

`posix_timer_handler` and the two calls it shares its flags with, of `ludlc_posix_platform.c`. The system
starts a thread for each expiry, which may run late and beside others. `pending` stands for the arming in
force, `handler_running` for the handlers that run.
-/

namespace Ludlc.Posix

open Runs

/-- A call of `ludlc_platform_start_timer`, by number. -/
structure Arming where
  no : Nat
  periodic : Bool
  deriving DecidableEq

/-- Where a handler thread is: between its start and `handler_running`, before it loads `periodic`,
before it exchanges `pending` for what it loaded, in the callback, or before it clears
`handler_running`. -/
inductive HandlerAt
  | spawned
  | marked
  | loaded (periodic : Bool)
  | calling
  | leaving
  | done
  deriving DecidableEq

/-- The thread of an expiry of `arming`. -/
structure Handler where
  arming : Arming
  pc : HandlerAt
  deriving DecidableEq

/-- It has still to exchange `pending`. -/
def Handler.waiting (h : Handler) : Bool :=
  match h.pc with
  | .spawned | .marked | .loaded _ => true
  | _ => false

/-- It has set `handler_running`, and has still to exchange `pending`. -/
def Handler.marked (h : Handler) : Bool :=
  match h.pc with
  | .marked | .loaded _ => true
  | _ => false

def Handler.calling (h : Handler) : Bool := h.pc = .calling

/-- Where a call is: a start before it stores `pending` and before `timer_settime`, a stop before
`timer_settime` and before it finds no handler running. -/
inductive CtlAt
  | idle
  | startStore (periodic : Bool)
  | startSet (a : Arming)
  | stopSet
  | stopWait
  deriving DecidableEq

/-- What happens to a timer. `clear` is the store of `false` to `pending` by a stop, or by a start that
fails; `handled` the exchange of a handler, and whether it calls back; `stopped` the return of a stop,
and the callbacks that run then. -/
inductive TimerEv
  | start (a : Arming)
  | clear
  | expire (a : Arming)
  | handled (a : Arming) (called : Bool)
  | stopped (callbacks : Nat)
  deriving DecidableEq

/-- `struct ludlc_platform_timer`, what the system has armed, and the threads. -/
structure Timer where
  pending : Bool
  periodic : Bool
  handlerRunning : Bool
  armed : Option Arming
  ctl : CtlAt
  handlers : List Handler
  starts : Nat
  log : List TimerEv

def Timer.init : Timer := ⟨false, false, false, none, .idle, [], 0, []⟩

/-- `ok` tells whether `timer_settime` succeeds. -/
inductive TimerAct
  | start (periodic : Bool)
  | startStore
  | startSet (ok : Bool)
  | stop
  | stopSet (ok : Bool)
  | stopWait
  | expire
  | handler (i : Nat)

/-- A step of a handler, and where it goes. -/
def handlerStep (s : Timer) (h : Handler) : Option (Timer × HandlerAt) :=
  match h.pc with
  | .spawned => some ({ s with handlerRunning := true }, .marked)
  | .marked => some (s, .loaded s.periodic)
  | .loaded periodic =>
    some ({ s with pending := periodic, log := s.log ++ [.handled h.arming s.pending] },
      if s.pending then .calling else .leaving)
  | .calling => some (s, .leaving)
  | .leaving => some ({ s with handlerRunning := false }, .done)
  | .done => none

def timerStep (s : Timer) (a : TimerAct) : Option Timer :=
  match s.ctl, a with
  | .idle, .start periodic => some { s with periodic := periodic, ctl := .startStore periodic }
  | .startStore periodic, .startStore =>
    let a : Arming := ⟨s.starts + 1, periodic⟩
    some { s with
      pending := true, ctl := .startSet a, starts := s.starts + 1, log := s.log ++ [.start a] }
  | .startSet a, .startSet ok =>
    if ok then some { s with armed := some a, ctl := .idle }
    else some { s with pending := false, ctl := .idle, log := s.log ++ [.clear] }
  | .idle, .stop => some { s with pending := false, ctl := .stopSet, log := s.log ++ [.clear] }
  | .stopSet, .stopSet ok =>
    if ok then some { s with armed := none, ctl := .stopWait } else some { s with ctl := .idle }
  | .stopWait, .stopWait =>
    -- `sched_yield` as long as a handler is running.
    if s.handlerRunning then none
    else
      some { s with
        ctl := .idle, log := s.log ++ [.stopped (s.handlers.countP Handler.calling)] }
  | _, .expire =>
    s.armed.map fun a =>
      { s with
        armed := if a.periodic then some a else none
        handlers := s.handlers ++ [⟨a, .spawned⟩], log := s.log ++ [.expire a] }
  | _, .handler i =>
    s.handlers[i]?.bind fun h => (handlerStep s h).map fun r =>
      { r.1 with handlers := s.handlers.set i { h with pc := r.2 } }
  | _, _ => none

/-- The arming in force: that of the last start, unless it was superseded. -/
def latestOf (log : List TimerEv) : Option Arming :=
  log.foldl (fun r e => match e with
    | .start a => some a
    | .clear => none
    | _ => r) none

/-- What is asked of an entry of the log behind `log`: the callback is called for the arming in force
only, and for a one-shot in force always; no callback runs when a stop returns. -/
def FiresRight (log : List TimerEv) : TimerEv → Prop
  | .handled a called =>
    (called = true → latestOf log = some a) ∧
      (a.periodic = false → latestOf log = some a → called = true)
  | .stopped n => n = 0
  | _ => True

def handledOf (a : Arming) : TimerEv → Bool
  | .handled b _ => b = a
  | _ => false

/-- The timer fires for its latest arming. An expiry is that of a handler thread that is still to decide
whether it calls back, or of one that did, and a one-shot expires once. -/
structure FiresForLatest (handlers : List Handler) (log : List TimerEv) : Prop where
  each : Each FiresRight log
  expiries : ∀ a, log.count (.expire a) =
    handlers.countP (fun h => h.waiting && h.arming = a) + log.countP (handledOf a)
  once : ∀ a, a.periodic = false → log.count (.expire a) ≤ 1

/-- How many handlers have still to exchange `pending`. -/
def Timer.late (s : Timer) : Nat := s.handlers.countP Handler.waiting

/-- No start is made over a late handler and no stop over two; nothing expires while a start replaces the
arming, nor behind the back of a late handler of a stopped timer; and a handler leaves no other behind that
calls back, or still may. -/
def noneLate (s : Timer) : TimerAct → Bool
  | .startStore => s.late = 0
  | .stop => s.late ≤ 1
  | .expire => s.armed.all fun a =>
      latestOf s.log = some a || (latestOf s.log = none && !s.pending && s.late = 0)
  | .handler i => s.handlers[i]?.all fun h =>
      h.pc ≠ .leaving || (s.handlers.set i { h with pc := .done }).all fun g =>
        !g.calling && (latestOf s.log = none || !g.marked)
  | _ => true

structure TimerInv (s : Timer) : Prop where
  spec : FiresForLatest s.handlers s.log
  force : ∀ h ∈ s.handlers, h.waiting = true →
    latestOf s.log = some h.arming ∨ latestOf s.log = none
  stopped : latestOf s.log = none → s.late = 0 ∨ (s.pending = false ∧ s.late ≤ 1)
  fresh : ∀ a, s.armed = some a ∨ .expire a ∈ s.log ∨ latestOf s.log = some a → a.no ≤ s.starts
  ctl : ∀ a, s.ctl = .startSet a →
    latestOf s.log = some a ∧ s.armed ≠ some a ∧ .expire a ∉ s.log ∧ s.late = 0
  armed : ∀ a, s.armed = some a → a.periodic = false → .expire a ∉ s.log
  oneShot : ∀ a, latestOf s.log = some a → a.periodic = false → s.log.countP (handledOf a) = 0 →
    s.pending = true
  running : ∀ h ∈ s.handlers, h.calling = true → s.handlerRunning = true
  marked : latestOf s.log ≠ none → ∀ h ∈ s.handlers, h.marked = true → s.handlerRunning = true

theorem timerInv_init : TimerInv Timer.init where
  spec := ⟨each_nil _, fun _ => rfl, fun _ _ => Nat.zero_le _⟩
  force h hh := by cases hh
  stopped _ := .inl rfl
  fresh a h := by
    rcases h with h | h | h
    · cases h
    · cases h
    · cases h
  ctl a h := by cases h
  armed a h := by cases h
  oneShot a h := by cases h
  running h hh := by cases hh
  marked h := absurd rfl h

section Log

variable {log : List TimerEv} {a b : Arming}

@[simp] theorem latestOf_start : latestOf (log ++ [.start a]) = some a := by simp [latestOf]

@[simp] theorem latestOf_clear : latestOf (log ++ [.clear]) = none := by simp [latestOf]

@[simp] theorem latestOf_expire : latestOf (log ++ [.expire a]) = latestOf log := by simp [latestOf]

@[simp] theorem latestOf_handled {called : Bool} :
    latestOf (log ++ [.handled a called]) = latestOf log := by simp [latestOf]

@[simp] theorem latestOf_stopped {n : Nat} : latestOf (log ++ [.stopped n]) = latestOf log := by
  simp [latestOf]

end Log

theorem Handler.waiting_of_marked {h : Handler} (hm : h.marked = true) : h.waiting = true := by
  rw [Handler.marked] at hm
  rw [Handler.waiting]
  split at hm <;> simp_all

theorem Timer.not_waiting {s : Timer} (h : s.late = 0) : ∀ g ∈ s.handlers, ¬ g.waiting = true :=
  List.countP_eq_zero.mp h

/-- An entry that is no expiry and no exchange of a handler leaves the count of them. -/
theorem FiresForLatest.snoc {handlers : List Handler} {log : List TimerEv} {e : TimerEv}
    (h : FiresForLatest handlers log) (he : FiresRight log e) (hexp : ∀ a, e ≠ .expire a)
    (hhandled : ∀ a, handledOf a e = false) : FiresForLatest handlers (log ++ [e]) where
  each := each_snoc.mpr ⟨h.each, he⟩
  expiries a := by
    rw [List.count_append, List.count_singleton, List.countP_append, List.countP_singleton,
      hhandled a, h.expiries a]
    simp [hexp a]
  once a ha := by
    rw [List.count_append, List.count_singleton]
    simpa [hexp a] using h.once a ha

theorem TimerInv.startStore {s : Timer} {periodic : Bool} (h : TimerInv s) (hlate : s.late = 0) :
    TimerInv { s with
      pending := true, ctl := .startSet ⟨s.starts + 1, periodic⟩, starts := s.starts + 1
      log := s.log ++ [.start ⟨s.starts + 1, periodic⟩] } := by
  have hnew : ∀ b : Arming, b.no ≤ s.starts → b ≠ ⟨s.starts + 1, periodic⟩ := by
    rintro b hb rfl
    exact absurd hb (Nat.not_succ_le_self _)
  refine ⟨h.spec.snoc trivial (by simp) (by simp [handledOf]), ?_, ?_, ?_, ?_, ?_, ?_, h.running, ?_⟩
  · exact fun g hg hw => absurd hw (Timer.not_waiting hlate g hg)
  · simp
  · intro b hb
    simp only [latestOf_start, List.mem_append, List.mem_singleton, reduceCtorEq, or_false,
      Option.some.injEq] at hb
    rcases hb with hb | hb | rfl
    · exact Nat.le_succ_of_le (h.fresh b (.inl hb))
    · exact Nat.le_succ_of_le (h.fresh b (.inr (.inl hb)))
    · exact le_rfl
  · intro b hb
    cases hb
    refine ⟨by simp, fun heq => hnew _ (h.fresh _ (.inl heq)) rfl, fun hmem => ?_, hlate⟩
    simp only [List.mem_append, List.mem_singleton, reduceCtorEq, or_false] at hmem
    exact hnew _ (h.fresh _ (.inr (.inl hmem))) rfl
  · intro b hb hp hmem
    simp only [List.mem_append, List.mem_singleton, reduceCtorEq, or_false] at hmem
    exact h.armed b hb hp hmem
  · exact fun _ _ _ _ => rfl
  · exact fun _ g hg hm => absurd (Handler.waiting_of_marked hm) (Timer.not_waiting hlate g hg)

/-- A stop, or a start that fails, clears `pending`. -/
theorem TimerInv.clear {s : Timer} {ctl : CtlAt} (h : TimerInv s) (hlate : s.late ≤ 1)
    (hctl : ∀ a, ctl ≠ .startSet a) :
    TimerInv { s with pending := false, ctl := ctl, log := s.log ++ [.clear] } := by
  refine ⟨h.spec.snoc trivial (by simp) (by simp [handledOf]), ?_, ?_, ?_, ?_, ?_, ?_, h.running, ?_⟩
  · exact fun _ _ _ => .inr latestOf_clear
  · exact fun _ => .inr ⟨rfl, hlate⟩
  · intro b hb
    simp only [latestOf_clear, List.mem_append, List.mem_singleton, reduceCtorEq, or_false] at hb
    exact h.fresh b (hb.imp_right .inl)
  · exact fun a ha => absurd ha (hctl a)
  · intro b hb hp hmem
    simp only [List.mem_append, List.mem_singleton, reduceCtorEq, or_false] at hmem
    exact h.armed b hb hp hmem
  · simp
  · simp

theorem TimerInv.setArmed {s : Timer} {a : Arming} (h : TimerInv s) (hctl : s.ctl = .startSet a) :
    TimerInv { s with armed := some a, ctl := .idle } := by
  obtain ⟨hlatest, -, hexp, -⟩ := h.ctl a hctl
  refine { h with fresh := ?_, ctl := ?_, armed := ?_ }
  · rintro b (hb | hb | hb)
    · cases hb
      exact h.fresh a (.inr (.inr hlatest))
    · exact h.fresh b (.inr (.inl hb))
    · exact h.fresh b (.inr (.inr hb))
  · intro b hb
    cases hb
  · intro b hb _
    cases hb
    exact hexp

theorem TimerInv.disarm {s : Timer} (h : TimerInv s) :
    TimerInv { s with armed := none, ctl := .stopWait } := by
  refine { h with fresh := ?_, ctl := ?_, armed := ?_ }
  · rintro b (hb | hb)
    · cases hb
    · exact h.fresh b (.inr hb)
  · intro b hb
    cases hb
  · intro b hb
    cases hb

/-- A stop returns with no callback running. -/
theorem TimerInv.stopWait {s : Timer} (h : TimerInv s) (hrun : s.handlerRunning = false) :
    TimerInv { s with
      ctl := .idle, log := s.log ++ [.stopped (s.handlers.countP Handler.calling)] } := by
  have hnone : s.handlers.countP Handler.calling = 0 := by
    rw [List.countP_eq_zero]
    intro g hg hc
    have := h.running g hg hc
    rw [hrun] at this
    cases this
  refine ⟨h.spec.snoc hnone (by simp) (by simp [handledOf]), ?_, ?_, ?_, ?_, ?_, ?_, h.running, ?_⟩
  · simpa using h.force
  · rw [latestOf_stopped]
    exact h.stopped
  · simpa using h.fresh
  · intro b hb
    cases hb
  · simpa using h.armed
  · simpa [handledOf] using h.oneShot
  · simpa using h.marked

theorem TimerInv.expire {s : Timer} {a : Arming} (h : TimerInv s) (harmed : s.armed = some a)
    (hok : latestOf s.log = some a ∨
      latestOf s.log = none ∧ s.pending = false ∧ s.late = 0) :
    TimerInv { s with
      armed := if a.periodic then some a else none
      handlers := s.handlers ++ [⟨a, .spawned⟩], log := s.log ++ [.expire a] } := by
  have hlate : (s.handlers ++ [(⟨a, .spawned⟩ : Handler)]).countP Handler.waiting = s.late + 1 := by
    rw [List.countP_append]
    rfl
  refine ⟨⟨each_snoc.mpr ⟨h.spec.each, trivial⟩, fun b => ?_, fun b hb => ?_⟩, ?_, ?_, ?_, ?_, ?_, ?_,
    ?_, ?_⟩
  · have hexp := h.spec.expiries b
    have hnew : (⟨a, .spawned⟩ : Handler).waiting = true := rfl
    simp only [List.count_append, List.countP_append, List.count_singleton, List.countP_singleton,
      handledOf, hnew]
    by_cases hab : a = b
    · subst hab
      simp
      omega
    · simp [hab, hexp]
  · rw [List.count_append, List.count_singleton]
    by_cases hab : a = b
    · subst hab
      rw [List.count_eq_zero_of_not_mem (h.armed a harmed hb)]
      simp
    · simpa [hab] using h.spec.once b hb
  · intro g hg hw
    rw [latestOf_expire]
    rcases List.mem_append.mp hg with hg | hg
    · exact h.force g hg hw
    · rw [List.mem_singleton.mp hg]
      exact hok.imp_right And.left
  · intro hnone
    rw [latestOf_expire] at hnone
    rcases hok with hsome | ⟨-, hpend, hzero⟩
    · rw [hnone] at hsome
      cases hsome
    · refine .inr ⟨hpend, ?_⟩
      rw [Timer.late, hlate, hzero]
  · intro b hb
    simp only [latestOf_expire, List.mem_append, List.mem_singleton, TimerEv.expire.injEq] at hb
    apply h.fresh b
    rcases hb with hb | (hb | rfl) | hb
    · left
      split at hb
      · rw [harmed, ← hb]
      · cases hb
    · exact .inr (.inl hb)
    · exact .inl harmed
    · exact .inr (.inr hb)
  · intro b hb
    obtain ⟨hlatest, hne, -, -⟩ := h.ctl b hb
    rcases hok with hsome | ⟨hnone, -, -⟩
    · rw [hlatest] at hsome
      cases hsome
      exact absurd harmed hne
    · rw [hnone] at hlatest
      cases hlatest
  · intro b hb hp
    split at hb
    next hper =>
      cases hb
      rw [hp] at hper
      cases hper
    next => cases hb
  · simpa [handledOf] using h.oneShot
  · intro g hg hc
    rcases List.mem_append.mp hg with hg | hg
    · exact h.running g hg hc
    · rw [List.mem_singleton.mp hg] at hc
      cases hc
  · intro hne g hg hm
    rw [latestOf_expire] at hne
    rcases List.mem_append.mp hg with hg | hg
    · exact h.marked hne g hg hm
    · rw [List.mem_singleton.mp hg] at hm
      cases hm

/-! ### The handlers -/

section Handlers

variable {l : List Handler} {i : Nat} {h h' : Handler}

theorem countP_set_add (h' : Handler) (hi : l[i]? = some h) (p : Handler → Bool) :
    (l.set i h').countP p + (if p h then 1 else 0) = l.countP p + if p h' then 1 else 0 := by
  obtain ⟨hlt, rfl⟩ := List.getElem?_eq_some_iff.mp hi
  have hpos : p l[i] = true → 0 < l.countP p := fun hp =>
    List.countP_pos_iff.mpr ⟨_, List.getElem_mem hlt, hp⟩
  rw [List.countP_set hlt]
  by_cases hp : p l[i] = true
  · have := hpos hp
    simp only [hp, if_true]
    omega
  · simp [hp]

theorem forall_mem_set {P : Handler → Prop} (hall : ∀ g ∈ l, P g) (hnew : P h') :
    ∀ g ∈ l.set i h', P g := by
  intro g hg
  rcases List.mem_or_eq_of_mem_set hg with hg | rfl
  · exact hall g hg
  · exact hnew

end Handlers

/-- A handler goes on, but for its exchange. -/
theorem TimerInv.move {s : Timer} {i : Nat} {h : Handler} {pc : HandlerAt} {running : Bool}
    (hinv : TimerInv s) (hi : s.handlers[i]? = some h)
    (hw : Handler.waiting { h with pc := pc } = h.waiting)
    (hcall : ∀ g ∈ s.handlers.set i { h with pc := pc }, g.calling = true → running = true)
    (hmark : latestOf s.log ≠ none → ∀ g ∈ s.handlers.set i { h with pc := pc }, g.marked = true →
      running = true) :
    TimerInv { s with handlerRunning := running, handlers := s.handlers.set i { h with pc := pc } } := by
  have hmem : h ∈ s.handlers := List.mem_of_getElem? hi
  have hlate : (s.handlers.set i { h with pc := pc }).countP Handler.waiting = s.late := by
    have := countP_set_add { h with pc := pc } hi Handler.waiting
    rw [hw] at this
    exact Nat.add_right_cancel this
  have hof : ∀ a : Arming, (s.handlers.set i { h with pc := pc }).countP
      (fun g => g.waiting && g.arming = a) = s.handlers.countP fun g => g.waiting && g.arming = a := by
    intro a
    have := countP_set_add { h with pc := pc } hi fun g => g.waiting && g.arming = a
    rw [hw] at this
    exact Nat.add_right_cancel this
  refine ⟨⟨hinv.spec.each, fun a => ?_, hinv.spec.once⟩, ?_, ?_, hinv.fresh, ?_, hinv.armed,
    hinv.oneShot, hcall, hmark⟩
  · rw [hof a]
    exact hinv.spec.expiries a
  · exact forall_mem_set hinv.force fun hw' => hinv.force h hmem (hw ▸ hw')
  · rw [Timer.late, hlate]
    exact hinv.stopped
  · rw [Timer.late, hlate]
    exact hinv.ctl

/-- A handler that may call back is one of the arming in force. -/
theorem TimerInv.in_force {s : Timer} (hinv : TimerInv s) (hpend : s.pending = true) {h : Handler}
    (hmem : h ∈ s.handlers) (hw : h.waiting = true) : latestOf s.log = some h.arming := by
  refine (hinv.force h hmem hw).resolve_right fun hnone => ?_
  rcases hinv.stopped hnone with hzero | ⟨hfalse, -⟩
  · exact Timer.not_waiting hzero h hmem hw
  · rw [hpend] at hfalse
    cases hfalse

/-- A one-shot in force finds `pending` set. -/
theorem TimerInv.pending_of_oneShot {s : Timer} (hinv : TimerInv s) {h : Handler}
    (hmem : h ∈ s.handlers) (hw : h.waiting = true) (hper : h.arming.periodic = false)
    (hlatest : latestOf s.log = some h.arming) : s.pending = true := by
  apply hinv.oneShot h.arming hlatest hper
  have hpos : 0 < s.handlers.countP fun g => g.waiting && g.arming = h.arming :=
    List.countP_pos_iff.mpr ⟨h, hmem, by simp [hw]⟩
  have hexp := hinv.spec.expiries h.arming
  have honce := hinv.spec.once h.arming hper
  omega

/-- The exchange of `pending`, of which the arming in force may be sure. -/
theorem TimerInv.exchange {s : Timer} {i : Nat} {h : Handler} {periodic : Bool} (hinv : TimerInv s)
    (hi : s.handlers[i]? = some h) (hpc : h.pc = .loaded periodic) :
    TimerInv { s with
      pending := periodic, log := s.log ++ [.handled h.arming s.pending]
      handlers := s.handlers.set i { h with pc := if s.pending then .calling else .leaving } } := by
  have hmem : h ∈ s.handlers := List.mem_of_getElem? hi
  have hw : h.waiting = true := by rw [Handler.waiting, hpc]
  have hm : h.marked = true := by rw [Handler.marked, hpc]
  generalize hnew : ({ h with pc := if s.pending then .calling else .leaving } : Handler) = h'
  have hw' : h'.waiting = false := by
    rw [← hnew, Handler.waiting]
    cases s.pending <;> rfl
  have hm' : h'.marked = false := by
    rw [← hnew, Handler.marked]
    cases s.pending <;> rfl
  have hlate : (s.handlers.set i h').countP Handler.waiting + 1 = s.late := by
    have := countP_set_add h' hi Handler.waiting
    rw [hw, hw'] at this
    exact this
  refine ⟨⟨each_snoc.mpr ⟨hinv.spec.each, fun hcall => hinv.in_force hcall hmem hw,
    fun hper => hinv.pending_of_oneShot hmem hw hper⟩, fun b => ?_, fun b hb => ?_⟩,
    ?_, ?_, ?_, ?_, ?_, ?_, ?_, ?_⟩
  · have hexp := hinv.spec.expiries b
    have hset := countP_set_add h' hi fun g => g.waiting && g.arming = b
    simp only [hw, hw', Bool.true_and, Bool.false_and, decide_eq_true_eq, Bool.false_eq_true,
      if_false] at hset
    simp only [List.count_append, List.countP_append, List.count_singleton, List.countP_singleton,
      handledOf, decide_eq_true_eq]
    rw [if_neg (by simp)]
    omega
  · rw [List.count_append, List.count_singleton, if_neg (by simp)]
    exact hinv.spec.once b hb
  · rw [latestOf_handled]
    exact forall_mem_set hinv.force fun hc => absurd hc (by simp [hw'])
  · intro hnone
    rw [latestOf_handled] at hnone
    left
    change (s.handlers.set i h').countP Handler.waiting = 0
    rcases hinv.stopped hnone with hzero | ⟨-, hone⟩
    · omega
    · omega
  · simpa using hinv.fresh
  · intro b hb
    have := (hinv.ctl b hb).2.2.2
    omega
  · simpa using hinv.armed
  · intro b hb hper hzero
    rw [latestOf_handled] at hb
    rw [List.countP_append, List.countP_singleton] at hzero
    rcases hinv.force h hmem hw with hsome | hnone
    · rw [hb] at hsome
      cases hsome
      simp [handledOf] at hzero
    · rw [hb] at hnone
      cases hnone
  · refine forall_mem_set hinv.running fun hc => ?_
    have hpend : s.pending = true := by
      rw [← hnew, Handler.calling] at hc
      by_contra hne
      rw [Bool.not_eq_true] at hne
      simp [hne] at hc
    refine hinv.marked ?_ h hmem hm
    rw [hinv.in_force hpend hmem hw]
    exact Option.some_ne_none _
  · intro hne
    rw [latestOf_handled] at hne
    exact forall_mem_set (hinv.marked hne) fun hc => absurd hc (by simp [hm'])

theorem TimerInv.handler {s : Timer} {i : Nat} {h : Handler} {r : Timer × HandlerAt}
    (hinv : TimerInv s) (hi : s.handlers[i]? = some h) (hs : handlerStep s h = some r)
    (hok : noneLate s (.handler i) = true) :
    TimerInv { r.1 with handlers := s.handlers.set i { h with pc := r.2 } } := by
  have hmem : h ∈ s.handlers := List.mem_of_getElem? hi
  simp only [handlerStep] at hs
  split at hs
  next hpc =>
    cases hs
    refine hinv.move hi (by simp [Handler.waiting, hpc]) (fun _ _ _ => rfl) fun _ _ _ _ => rfl
  next hpc =>
    cases hs
    refine hinv.move hi (by simp [Handler.waiting, hpc]) ?_ fun hne => ?_
    · exact forall_mem_set hinv.running fun hc => by cases hc
    · exact forall_mem_set (hinv.marked hne) fun _ =>
        hinv.marked hne h hmem (by simp [Handler.marked, hpc])
  next hpc =>
    cases hs
    exact hinv.exchange hi hpc
  next hpc =>
    cases hs
    refine hinv.move hi (by simp [Handler.waiting, hpc]) ?_ fun hne => ?_
    · exact forall_mem_set hinv.running fun hc => by cases hc
    · exact forall_mem_set (hinv.marked hne) fun hc => by cases hc
  next hpc =>
    -- the flag is cleared under any other handler that has set it
    cases hs
    simp only [noneLate, hi, Option.all_some, Bool.or_eq_true, decide_eq_true_eq, hpc,
      ne_eq, not_true_eq_false, decide_false, Bool.false_eq_true, false_or, List.all_eq_true,
      Bool.and_eq_true, Bool.not_eq_true'] at hok
    refine hinv.move hi (by simp [Handler.waiting, hpc]) (fun g hg hc => ?_) fun hne g hg hm => ?_
    · rw [(hok g hg).1] at hc
      cases hc
    · rw [(hok g hg).2.resolve_left hne] at hm
      cases hm
  next => cases hs

theorem timerInv_step {s s' : Timer} {a : TimerAct} (h : TimerInv s) (hok : noneLate s a = true)
    (hs : timerStep s a = some s') : TimerInv s' := by
  simp only [timerStep] at hs
  split at hs
  next =>
    cases hs
    exact { h with ctl := fun a ha => by cases ha }
  next =>
    cases hs
    exact h.startStore (by simpa [noneLate] using hok)
  next a ok hctl =>
    split at hs
    · cases hs
      exact h.setArmed hctl
    · cases hs
      refine h.clear ?_ (by simp)
      have := (h.ctl a hctl).2.2.2
      omega
  next =>
    cases hs
    exact h.clear (by simpa [noneLate] using hok) (by simp)
  next =>
    split at hs
    · cases hs
      exact h.disarm
    · cases hs
      exact { h with ctl := fun a ha => by cases ha }
  next =>
    split at hs
    · cases hs
    next hrun =>
      cases hs
      exact h.stopWait (by simpa using hrun)
  next =>
    obtain ⟨a, ha, rfl⟩ := Option.map_eq_some_iff.mp hs
    refine h.expire ha ?_
    simpa [noneLate, ha, and_assoc] using hok
  next i =>
    obtain ⟨g, hg, hs⟩ := Option.bind_eq_some_iff.mp hs
    obtain ⟨r, hr, rfl⟩ := Option.map_eq_some_iff.mp hs
    exact h.handler hg hr hok
  next => cases hs

/-- A timer whose handlers are never late fires for its latest arming. -/
theorem timer_fires_for_latest {s : Timer}
    (h : Reachable Timer.init timerStep (fun s a => noneLate s a = true) s) :
    FiresForLatest s.handlers s.log :=
  (h.invariant timerInv_init fun hi hok hs => timerInv_step hi hok hs).spec

/-- The expiry of a one-shot, whose handler has not run when the timer is started again. -/
def lateHandler : List TimerAct :=
  [.start false, .startStore, .startSet true, .expire, .start false, .startStore, .startSet true,
    .handler 0, .handler 0, .handler 0]

/-- The late handler calls back for the arming that is over. -/
theorem timer_fires_for_superseded :
    ¬ ∀ s, Reachable Timer.init timerStep (fun _ _ => True) s → FiresForLatest s.handlers s.log := by
  intro hall
  obtain ⟨s, hs, hlog⟩ := Reachable.of_exec Timer.init timerStep (fun _ _ => true) lateHandler
    (fun s => s.log = [.start ⟨1, false⟩, .expire ⟨1, false⟩, .start ⟨2, false⟩,
      .handled ⟨1, false⟩ true]) (by decide +kernel) (by decide +kernel)
  rw [decide_eq_true_eq] at hlog
  have heach := (hall s (hs.mono fun _ _ _ => trivial)).each
  have hlatest := (heach [.start ⟨1, false⟩, .expire ⟨1, false⟩, .start ⟨2, false⟩] _ [] hlog).1 rfl
  exact absurd hlatest (by decide)

/-- A watchdog is started, stopped and started again, and expires. -/
theorem timer_fires_for_latest_twice :
    ∃ s : Timer, s.log = [.start ⟨1, false⟩, .clear, .stopped 0, .start ⟨2, false⟩, .expire ⟨2, false⟩,
        .handled ⟨2, false⟩ true] ∧ FiresForLatest s.handlers s.log := by
  obtain ⟨s, hs, hlog⟩ := Reachable.of_exec Timer.init timerStep noneLate
    [.start false, .startStore, .startSet true, .stop, .stopSet true, .stopWait, .start false,
      .startStore, .startSet true, .expire, .handler 0, .handler 0, .handler 0]
    (fun s => s.log = [.start ⟨1, false⟩, .clear, .stopped 0, .start ⟨2, false⟩, .expire ⟨2, false⟩,
      .handled ⟨2, false⟩ true]) (by decide +kernel) (by decide +kernel)
  exact ⟨s, of_decide_eq_true hlog, timer_fires_for_latest hs⟩

end Ludlc.Posix
