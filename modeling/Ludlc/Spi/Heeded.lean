import Ludlc.Spi.Ready

/-! # No request for an exchange is lost

What each end keeps of a request until it is heeded, then what the line adds to it: with an edge only while
the transfers of the two meet, since one that meets nothing ends the exchange the edge was for.
-/

namespace Ludlc.Spi

open Runs

/-! ## What the master keeps -/

/-- A context here leads to an exchange. -/
def RunnerAt.leads : RunnerAt → Bool
  | .top | .lock | .after true => true
  | .off | .held | .after false => false

/-- From here the drain looks at the request bit again, or has more to do. -/
def DrainAt.looks : DrainAt → Bool
  | .took | .loaded none => false
  | .xfer (.header n) => n ≠ 0
  | _ => true

theorem Phase.txLen_clocked {p p' : Phase} {rxLen : Nat} (h : p.clocked rxLen = some p') :
    p'.txLen = p.txLen := by
  cases p with
  | header n =>
    rw [Phase.clocked] at h
    split at h
    next => cases h
    next =>
      cases h
      rfl
  | frame x | feed x | fed x =>
    cases h
    rfl

/-- Behind a transfer there is a frame to go on with, or octets to look at. -/
theorem Phase.clocked_moves {p p' : Phase} {rxLen : Nat} (hready : p.ready = true)
    (h : p.clocked rxLen = some p') : (∃ x, p' = .frame x) ∨ ∃ x, p' = .feed x := by
  cases p with
  | header n =>
    rw [Phase.clocked] at h
    split at h
    next => cases h
    next =>
      cases h
      exact .inl ⟨_, rfl⟩
  | frame x =>
    cases h
    exact .inr ⟨x, rfl⟩
  | feed x => cases hready
  | fed x => cases hready

namespace Master

/-- Something goes on that leads to another run of the drain. -/
def ahead (m : Master) : Prop :=
  m.pending = true ∨ 0 < m.calling ∨ m.work.leads = true ∨ m.isr.leads = true ∨ m.pm = .resuming

def looks (m : Master) : Prop := ∃ d, m.drain = some d ∧ d.pc.looks = true

/-- An exchange is on its way, or forbidden. -/
def goes (m : Master) : Prop := m.ahead ∨ m.drain.isSome = true ∨ m.quiesced = true

structure Ok (B : Bus) (m : Master) : Prop where
  held : ∀ d, m.drain = some d → m.place d.runner = .held
  asked : m.forceTx = true → m.ahead ∨ m.looks ∨ m.quiesced = true ∨ m.gaveUp = true
  asleep : m.pm ≠ .awake → m.pm ≠ .resuming → m.suspended = true
  polls : B.asking = .poll → m.work ≠ .off ∨ m.pending = true ∨ m.pm = .resuming ∨ m.quiesced = true

variable {B : Bus} {m m' : Master} {d d' : Drain}

@[simp] theorem put_forceTx (m : Master) (r : Runner) (a : RunnerAt) : (m.put r a).forceTx = m.forceTx := by
  cases r <;> rfl

@[simp] theorem put_suspended (m : Master) (r : Runner) (a : RunnerAt) :
    (m.put r a).suspended = m.suspended := by
  cases r <;> rfl

@[simp] theorem put_pm (m : Master) (r : Runner) (a : RunnerAt) : (m.put r a).pm = m.pm := by
  cases r <;> rfl

@[simp] theorem put_terminated (m : Master) (r : Runner) (a : RunnerAt) :
    (m.put r a).terminated = m.terminated := by
  cases r <;> rfl

@[simp] theorem put_gaveUp (m : Master) (r : Runner) (a : RunnerAt) : (m.put r a).gaveUp = m.gaveUp := by
  cases r <;> rfl

/-- Nothing of what leads to a run of the drain is lost. -/
structure Keeps (m m' : Master) : Prop where
  work : m'.work = m.work
  isr : m'.isr = m.isr
  pending : m.pending = true → m'.pending = true
  calling : m'.calling = m.calling
  suspended : m'.suspended = m.suspended
  pm : m'.pm = m.pm
  terminated : m'.terminated = m.terminated

theorem Keeps.ahead (h : Keeps m m') (ha : m.ahead) : m'.ahead := by
  rw [Master.ahead, h.work, h.isr, h.calling, h.pm]
  exact ha.imp h.pending id

theorem Keeps.quiesced (h : Keeps m m') : m'.quiesced = m.quiesced := by
  rw [Master.quiesced, Master.quiesced, h.suspended, h.terminated]

theorem Keeps.place (h : Keeps m m') (r : Runner) : m'.place r = m.place r := by
  cases r with
  | work => exact h.work
  | isr => exact h.isr

/-- A master that sleeps makes no exchange. -/
theorem Ok.quiesced_asleep (h : m.Ok B) (hawake : m.pm ≠ .awake) (hresuming : m.pm ≠ .resuming) :
    m.quiesced = true := by
  rw [Master.quiesced, h.asleep hawake hresuming, Bool.true_or]

/-- A context that is not inside the drain may move. -/
theorem held_put {r : Runner} (hne : m.place r ≠ .held) (a : RunnerAt) (r' : Runner)
    (hheld : m.place r' = .held) : (m.put r a).place r' = .held := by
  cases r with
  | work => cases r' with
    | work => exact absurd hheld hne
    | isr => exact hheld
  | isr => cases r' with
    | work => exact hheld
    | isr => exact absurd hheld hne

/-- The drain moves, and the request bit. -/
theorem keeps_drain (m : Master) (e : Option Drain) (forceTx gaveUp : Bool) :
    Keeps m { m with drain := e, forceTx := forceTx, gaveUp := gaveUp } :=
  ⟨rfl, rfl, id, rfl, rfl, rfl, rfl⟩

theorem Keeps.requestInside (h : Keeps m m') (d : Drain) : Keeps m (m'.requestInside d) :=
  ⟨h.work, h.isr, fun hp => by simp [Master.requestInside, h.pending hp], h.calling, h.suspended, h.pm,
    h.terminated⟩

/-- The drain goes on. A request is looked at later, or was there before and is seen to otherwise. -/
theorem Ok.goesOn (h : m.Ok B) (hd : m.drain = some d) (hd' : m'.drain = some d')
    (hrunner : d'.runner = d.runner) (hk : Keeps m m')
    (hasked : m'.forceTx = true → d'.pc.looks = true ∨ m'.gaveUp = true ∨ m'.ahead ∨
      m.forceTx = true ∧ d.pc.looks = false ∧ m'.gaveUp = m.gaveUp) : m'.Ok B where
  held := by
    intro e he
    obtain rfl : d' = e := Option.some_inj.mp (hd'.symm.trans he)
    rw [hk.place, hrunner]
    exact h.held d hd
  asked := by
    intro hforce
    rcases hasked hforce with hlooks | hgave | hahead | ⟨hbefore, hlooks, hgave⟩
    · exact .inr (.inl ⟨d', hd', hlooks⟩)
    · exact .inr (.inr (.inr hgave))
    · exact .inl hahead
    · rcases h.asked hbefore with hahead | ⟨e, he, hl⟩ | hq | hg
      · exact .inl (hk.ahead hahead)
      · obtain rfl : d = e := Option.some_inj.mp (hd.symm.trans he)
        rw [hlooks] at hl
        cases hl
      · exact .inr (.inr (.inl (hk.quiesced.trans hq)))
      · exact .inr (.inr (.inr (hgave.trans hg)))
  asleep := by
    rw [hk.pm, hk.suspended]
    exact h.asleep
  polls := by
    intro hpoll
    rw [hk.work, hk.pm, hk.quiesced]
    exact (h.polls hpoll).imp_right fun hor => hor.imp_left hk.pending

/-- A context that ran the drain leads to nothing else, so that none is lost where it returns. -/
theorem Ok.ahead_put (h : m.Ok B) (hd : m.drain = some d) (ha : m.ahead) (a : RunnerAt) :
    (m.put d.runner a).ahead := by
  have hheld := h.held d hd
  rcases ha with ha | ha | ha | ha | ha
  · left
    cases hr : d.runner <;> exact ha
  · right
    left
    cases hr : d.runner <;> exact ha
  · cases hr : d.runner with
    | work =>
      rw [hr] at hheld
      rw [show m.work = .held from hheld] at ha
      cases ha
    | isr => exact .inr (.inr (.inl ha))
  · cases hr : d.runner with
    | work => exact .inr (.inr (.inr (.inl ha)))
    | isr =>
      rw [hr] at hheld
      rw [show m.isr = .held from hheld] at ha
      cases ha
  · cases hr : d.runner <;> exact .inr (.inr (.inr (.inr ha)))

theorem ahead_after (m : Master) (d : Drain) : (m.finish d true).ahead := by
  cases hr : d.runner with
  | work => exact .inr (.inr (.inl (by simp [finish, hr, put, RunnerAt.leads])))
  | isr => exact .inr (.inr (.inr (.inl (by simp [finish, hr, put, RunnerAt.leads]))))

theorem quiesced_finish (m : Master) (d : Drain) (more : Bool) : (m.finish d more).quiesced = m.quiesced := by
  simp [finish, quiesced]

/-- The drain returns: with more to do, where it is forbidden, or from where it would not look again. -/
theorem Ok.finish (h : m.Ok B) (hd : m.drain = some d) {more : Bool}
    (hwhy : more = true ∨ m.quiesced = true ∨ d.pc.looks = false ∨ m.gaveUp = true) :
    (m.finish d more).Ok B where
  held := by
    intro e he
    cases he
  asked := by
    intro hforce
    have hbefore : m.forceTx = true := by simpa [Master.finish] using hforce
    have hgave : (m.finish d more).gaveUp = m.gaveUp := by simp [Master.finish]
    rw [quiesced_finish, hgave]
    rcases hwhy with rfl | hq | hlooks | hg
    · exact .inl (ahead_after m d)
    · exact .inr (.inr (.inl hq))
    · rcases h.asked hbefore with hahead | ⟨e, he, hl⟩ | hq | hg
      · exact .inl (h.ahead_put hd hahead _)
      · obtain rfl : d = e := Option.some_inj.mp (hd.symm.trans he)
        rw [hlooks] at hl
        cases hl
      · exact .inr (.inr (.inl hq))
      · exact .inr (.inr (.inr hg))
    · exact .inr (.inr (.inr hg))
  asleep := by
    simpa [Master.finish] using h.asleep
  polls := by
    intro hpoll
    rw [quiesced_finish]
    cases hr : d.runner with
    | work => exact .inl (by simp [Master.finish, hr, put])
    | isr => simpa [Master.finish, hr, put] using h.polls hpoll

theorem looks_or_gaveUp {r : Option Loaded} (m : Master) (hd : d.pc = .loaded r) :
    d.pc.looks = true ∨ (m.requestInside d).gaveUp = true := by
  rw [hd]
  cases r with
  | none => exact .inr (by simp [requestInside, hd])
  | some _ => exact .inl rfl

theorem Ok.run (h : m.Ok B) (hd : m.drain = some d)
    (hs : m.run B d = some m') : m'.Ok B := by
  rw [Master.run] at hs
  split at hs
  next hpc =>
    split at hs
    next =>
      cases hs
      exact h.finish hd (.inl rfl)
    next k hk =>
      cases hs
      cases hq : m.quiesced with
      | true => exact h.finish hd (.inr (.inl hq))
      | false =>
        refine h.goesOn hd rfl ?_ (keeps_drain m _ _ _) fun _ => .inl rfl
        rfl
  next hpc =>
    cases hs
    split
    next => exact h.goesOn hd rfl rfl (keeps_drain m _ _ _) fun hf => by cases hf
    next => exact h.goesOn hd rfl rfl (keeps_drain m _ _ _) fun hf => by cases hf
  next hpc =>
    cases hs
    exact h.goesOn hd rfl rfl (keeps_drain m _ _ _) fun hf => .inr (.inr (.inr ⟨hf, by rw [hpc]; rfl, rfl⟩))
  next r hpc =>
    split at hs
    next =>
      cases hs
      exact h.goesOn hd rfl rfl (keeps_drain m _ _ _) fun _ => .inr (.inl rfl)
    next =>
      have hlooks : (DrainAt.xfer (.header r.len)).looks = true := by
        simpa only [DrainAt.looks, ne_eq, decide_eq_true_eq] using r.len_pos.ne'
      cases hs
      split
      next => exact h.goesOn hd rfl rfl (keeps_drain m _ _ _) fun _ => .inl hlooks
      next => exact h.goesOn hd rfl rfl ((keeps_drain m _ _ _).requestInside d) fun _ => .inl hlooks
  next x hpc =>
    cases hs
    refine h.goesOn hd rfl rfl (keeps_drain m _ _ _) fun _ => .inl ?_
    simp only
    split <;> rfl
  next => cases hs

/-- The call of the core, and what its callbacks ask for behind it. -/
theorem Ok.getPacket (h : m.Ok B) (hd : m.drain = some d) (hpc : d.pc = .took) (asked : Bool)
    (r : Option Loaded) : (m.getPacket d asked r).Ok B := by
  rw [Master.getPacket]
  cases asked with
  | false =>
    exact h.goesOn hd rfl rfl (keeps_drain m _ _ _) fun hf =>
      .inr (.inr (.inr ⟨hf, by rw [hpc]; rfl, rfl⟩))
  | true =>
    refine h.goesOn hd rfl rfl ((keeps_drain m _ _ _).requestInside _) ?_
    intro _
    cases r with
    | none => exact .inr (.inl (by simp [requestInside]))
    | some _ => exact .inl rfl

theorem Ok.callback (h : m.Ok B) (hd : m.drain = some d)
    (hpc : (∃ r, d.pc = .loaded r) ∨ ∃ x, d.pc = .xfer (.fed x)) : (m.requestInside d).Ok B := by
  refine h.goesOn hd hd rfl ((keeps_drain m _ _ _).requestInside d) fun _ => ?_
  rcases hpc with ⟨r, hpc⟩ | ⟨x, hpc⟩
  · exact (looks_or_gaveUp m hpc).imp_right .inl
  · exact .inl (by rw [hpc]; rfl)

theorem Ok.feed (h : m.Ok B) (hd : m.drain = some d) (x : Moving) (asked : Bool) :
    (m.feed B d x asked).Ok B := by
  rw [Master.feed]
  cases asked with
  | false => exact h.goesOn hd rfl rfl (keeps_drain m _ _ _) fun _ => .inl rfl
  | true => exact h.goesOn hd rfl rfl ((keeps_drain m _ _ _).requestInside d) fun _ => .inl rfl

/-- A failure gives up first and then returns. -/
theorem fails_eq (m : Master) (d : Drain) (asked : Bool) :
    m.fails d asked = finish { (if asked then m.requestInside d else m) with gaveUp := true } d false := by
  cases hr : d.runner <;> simp only [Master.fails, Master.finish, put, hr]

theorem Ok.fails (h : m.Ok B) (hd : m.drain = some d) (asked : Bool) : (m.fails d asked).Ok B := by
  rw [fails_eq]
  cases asked with
  | false =>
    have hgave : Ok B { m with gaveUp := true } :=
      h.goesOn hd hd rfl (keeps_drain m _ _ _) fun _ => .inr (.inl rfl)
    exact hgave.finish hd (.inr (.inr (.inr rfl)))
  | true =>
    have hk : Keeps m { m.requestInside d with gaveUp := true } :=
      (keeps_drain m m.drain m.forceTx true).requestInside d
    have hgave : Ok B { m.requestInside d with gaveUp := true } :=
      h.goesOn hd hd rfl hk fun _ => .inr (.inl rfl)
    exact hgave.finish hd (.inr (.inr (.inr rfl)))

/-- A transfer goes through: an end without anything to send stops, the other goes on. -/
theorem Ok.clocked (h : m.Ok B) (hd : m.drain = some d) {p : Phase} (hpc : d.pc = .xfer p)
    (hready : p.ready = true) (rxLen : Nat) : (m.clocked d p rxLen).Ok B := by
  rw [Master.clocked]
  split
  next hend =>
    refine h.finish hd (.inr (.inr (.inl ?_)))
    rw [hpc]
    cases p with
    | header n =>
      rw [Phase.clocked] at hend
      split at hend
      next hzero => simp [DrainAt.looks, hzero.1]
      next => cases hend
    | frame x => cases hend
    | feed x => cases hready
    | fed x => cases hready
  next p' hgo =>
    refine h.goesOn hd rfl rfl (keeps_drain m _ _ _) fun _ => .inl ?_
    obtain ⟨x, rfl⟩ | ⟨x, rfl⟩ := p.clocked_moves hready hgo <;> rfl

/-- A context that ends queues the work where it led to more. -/
theorem ahead_done {r : Runner} {more : Bool} (hat : m.place r = .after more) (hq : m.quiesced = false)
    (ha : m.ahead) : (m.done B r more).ahead := by
  rcases ha with ha | ha | ha | ha | ha
  · exact .inl (by simp [Master.done, ha])
  · exact .inr (.inl (by cases r <;> exact ha))
  · cases r with
    | work =>
      rw [show m.work = .after more from hat] at ha
      cases more with
      | true => exact .inl (by simp [Master.done, hq])
      | false => cases ha
    | isr => exact .inr (.inr (.inl ha))
  · cases r with
    | work => exact .inr (.inr (.inr (.inl ha)))
    | isr =>
      rw [show m.isr = .after more from hat] at ha
      cases more with
      | true => exact .inl (by simp [Master.done, hq])
      | false => cases ha
  · exact .inr (.inr (.inr (.inr (by cases r <;> exact ha))))

theorem Ok.done (h : m.Ok B) {r : Runner} {more : Bool} (hat : m.place r = .after more) :
    (m.done B r more).Ok B where
  held := by
    intro d hd
    have hheld := h.held d (by cases r <;> exact hd)
    have hne : m.place r ≠ .held := by simp [hat]
    have hput := held_put hne .off d.runner hheld
    cases r <;> exact hput
  asked := by
    intro hforce
    have hbefore : m.forceTx = true := by cases r <;> exact hforce
    cases hq : m.quiesced with
    | true => exact .inr (.inr (.inl (by cases r <;> exact hq)))
    | false =>
      rcases h.asked hbefore with ha | ⟨d, hd, hl⟩ | hq' | hg
      · exact .inl (ahead_done hat hq ha)
      · exact .inr (.inl ⟨d, by cases r <;> exact hd, hl⟩)
      · rw [hq] at hq'
        cases hq'
      · exact .inr (.inr (.inr (by cases r <;> exact hg)))
  asleep := by cases r <;> exact h.asleep
  polls := by
    intro hpoll
    cases hq : m.quiesced with
    | true => exact .inr (.inr (.inr (by cases r <;> exact hq)))
    | false =>
      cases r with
      | work => exact .inr (.inl (by simp [Master.done, hq, hpoll]))
      | isr =>
        rcases h.polls hpoll with hw | hp | hp | hp
        · exact .inl hw
        · exact .inr (.inl (by simp [Master.done, hp]))
        · exact .inr (.inr (.inl hp))
        · rw [hq] at hp
          cases hp

/-- A step of the contexts that leaves the drain alone. -/
theorem Ok.outside (h : m.Ok B) (hdrain : m'.drain = m.drain)
    (hheld : ∀ r, m.place r = .held → m'.place r = .held) (hq : m.quiesced = true → m'.quiesced = true)
    (hgave : m.gaveUp = true → m'.gaveUp = true)
    (hasked : m'.forceTx = true → m'.ahead ∨ m'.quiesced = true ∨ m.forceTx = true ∧ (m.ahead → m'.ahead))
    (hasleep : m'.pm ≠ .awake → m'.pm ≠ .resuming → m'.suspended = true)
    (hpolls : B.asking = .poll → m'.work ≠ .off ∨ m'.pending = true ∨ m'.pm = .resuming ∨ m'.quiesced = true) :
    m'.Ok B where
  held := by
    intro d hd
    exact hheld _ (h.held d (hdrain ▸ hd))
  asked := by
    intro hforce
    rcases hasked hforce with ha | hquiet | ⟨hbefore, hahead⟩
    · exact .inl ha
    · exact .inr (.inr (.inl hquiet))
    · rcases h.asked hbefore with ha | ⟨d, hd, hl⟩ | hquiet | hg
      · exact .inl (hahead ha)
      · exact .inr (.inl ⟨d, hdrain ▸ hd, hl⟩)
      · exact .inr (.inr (.inl (hq hquiet)))
      · exact .inr (.inr (.inr (hgave hg)))
  asleep := hasleep
  polls := hpolls

theorem Ok.step (h : m.Ok B) {a : Act} (hs : m.step B a = some m') : m'.Ok B := by
  cases a with
  | requestTx =>
    cases hs
    exact h.outside rfl (fun _ => id) id id
      (fun _ => .inl (.inr (.inl (Nat.succ_pos _)))) h.asleep h.polls
  | schedule =>
    simp only [Master.step] at hs
    split at hs
    next => cases hs
    next =>
      cases hs
      exact h.outside rfl (fun _ => id) id id (fun _ => .inl (.inl rfl)) h.asleep
        fun _ => .inr (.inl rfl)
  | start =>
    simp only [Master.step] at hs
    split at hs
    next hat =>
      cases hs
      have hne : m.place .work ≠ .held := by simp [place, hat.2]
      exact h.outside rfl (held_put hne .lock) id id (fun _ => .inl (.inr (.inr (.inl rfl)))) h.asleep
        fun _ => .inl (by simp)
    next => cases hs
  | top =>
    simp only [Master.step] at hs
    split at hs
    next hat =>
      cases hs
      have hne : m.place .isr ≠ .held := by simp [place, hat]
      refine h.outside rfl (held_put hne _) id id ?_ h.asleep h.polls
      intro _
      cases hq : m.quiesced with
      | true => exact .inr (.inl hq)
      | false => exact .inl (.inr (.inr (.inr (.inl rfl))))
    next => cases hs
  | acquire r =>
    simp only [Master.step] at hs
    split at hs
    next hat =>
      cases hs
      refine ⟨?_, fun _ => .inr (.inl ⟨_, rfl, rfl⟩), ?_, ?_⟩
      · intro d hd
        cases hd
        cases r <;> rfl
      · cases r <;> exact h.asleep
      · intro hpoll
        cases r with
        | work => exact .inl (by simp [put])
        | isr => exact h.polls hpoll
    next => cases hs
  | run =>
    obtain ⟨d, hd, hs⟩ := Option.bind_eq_some_iff.mp hs
    exact h.run hd hs
  | getPacket asked r =>
    obtain ⟨d, hd, hs⟩ := Option.bind_eq_some_iff.mp hs
    split at hs
    next hpc =>
      cases hs
      exact h.getPacket hd hpc asked r
    next => cases hs
  | callback =>
    obtain ⟨d, hd, hs⟩ := Option.bind_eq_some_iff.mp hs
    split at hs
    next r hpc =>
      cases hs
      exact h.callback hd (.inl ⟨r, hpc⟩)
    next x hpc =>
      cases hs
      exact h.callback hd (.inr ⟨x, hpc⟩)
    next => cases hs
  | feed asked =>
    obtain ⟨d, hd, hs⟩ := Option.bind_eq_some_iff.mp hs
    split at hs
    next x hpc =>
      cases hs
      exact h.feed hd x asked
    next => cases hs
  | fails asked =>
    obtain ⟨d, hd, hs⟩ := Option.bind_eq_some_iff.mp hs
    split at hs
    next p hpc =>
      split at hs
      next =>
        cases hs
        exact h.fails hd asked
      next => cases hs
    next => cases hs
  | done r =>
    simp only [Master.step] at hs
    split at hs
    next more hat =>
      cases hs
      exact h.done hat
    next => cases hs
  | suspend =>
    simp only [Master.step] at hs
    split at hs
    next =>
      cases hs
      exact h.outside rfl (fun _ => id) (fun _ => rfl) id (fun _ => .inr (.inl rfl))
        (fun _ _ => rfl) fun _ => .inr (.inr (.inr rfl))
    next => cases hs
  | lock | cancel =>
    simp only [Master.step] at hs
    split at hs
    next hat =>
      cases hs
      have hq : m.quiesced = true := h.quiesced_asleep (by simp [hat.1]) (by simp [hat.1])
      exact h.outside rfl (fun _ => id) id id (fun _ => .inr (.inl hq))
        (fun _ _ => h.asleep (by simp [hat.1]) (by simp [hat.1])) fun _ => .inr (.inr (.inr hq))
    next => cases hs
  | resume =>
    simp only [Master.step] at hs
    split at hs
    next hat =>
      cases hs
      refine ⟨?_, fun _ => .inl (.inr (.inr (.inr (.inr rfl)))), ?_, fun _ => .inr (.inr (.inl rfl))⟩
      · exact h.held
      · exact fun _ hpm => absurd rfl hpm
    next => cases hs
  | restart =>
    simp only [Master.step] at hs
    split at hs
    next hat =>
      cases hs
      exact h.outside rfl (fun _ => id) id id (fun _ => .inl (.inl rfl))
        (fun hpm => absurd rfl hpm) fun _ => .inr (.inl rfl)
    next => cases hs
  | terminate =>
    cases hs
    have hq : ({ m with terminated := true } : Master).quiesced = true := by simp [Master.quiesced]
    exact h.outside rfl (fun _ => id) (fun _ => hq) id (fun _ => .inr (.inl hq))
      h.asleep fun _ => .inr (.inr (.inr hq))

/-- An exchange that is on its way stays so until it is made or fails. -/
theorem Ok.goes_step (hok : m.Ok B) (h : m.goes) {a : Act} (hs : m.step B a = some m')
    (hfails : ∀ asked, a ≠ .fails asked) : m'.goes := by
  cases a with
  | requestTx =>
    cases hs
    exact .inl (.inr (.inl (Nat.succ_pos _)))
  | schedule =>
    simp only [Master.step] at hs
    split at hs
    next => cases hs
    next =>
      cases hs
      exact .inl (.inl rfl)
  | start =>
    simp only [Master.step] at hs
    split at hs
    next =>
      cases hs
      exact .inl (.inr (.inr (.inl rfl)))
    next => cases hs
  | top =>
    simp only [Master.step] at hs
    split at hs
    next =>
      cases hs
      cases hq : m.quiesced with
      | true => exact .inr (.inr hq)
      | false => exact .inl (.inr (.inr (.inr (.inl rfl))))
    next => cases hs
  | acquire r =>
    simp only [Master.step] at hs
    split at hs
    next =>
      cases hs
      exact .inr (.inl rfl)
    next => cases hs
  | run =>
    obtain ⟨d, hd, hs⟩ := Option.bind_eq_some_iff.mp hs
    rw [Master.run] at hs
    split at hs
    next =>
      split at hs
      next =>
        cases hs
        exact .inl (ahead_after m d)
      next =>
        cases hs
        split
        next hq => exact .inr (.inr ((quiesced_finish m _ false).trans hq))
        next => exact .inr (.inl rfl)
    next =>
      cases hs
      split <;> exact .inr (.inl rfl)
    next =>
      cases hs
      exact .inr (.inl rfl)
    next =>
      split at hs
      next =>
        cases hs
        exact .inr (.inl rfl)
      next =>
        cases hs
        split <;> exact .inr (.inl rfl)
    next =>
      cases hs
      exact .inr (.inl rfl)
    next => cases hs
  | getPacket asked r =>
    obtain ⟨d, hd, hs⟩ := Option.bind_eq_some_iff.mp hs
    split at hs
    next =>
      cases hs
      cases asked <;> exact .inr (.inl rfl)
    next => cases hs
  | callback =>
    obtain ⟨d, hd, hs⟩ := Option.bind_eq_some_iff.mp hs
    have hdrain : (m.requestInside d).drain.isSome = true := by simp [requestInside, hd]
    split at hs
    next =>
      cases hs
      exact .inr (.inl hdrain)
    next =>
      cases hs
      exact .inr (.inl hdrain)
    next => cases hs
  | feed asked =>
    obtain ⟨d, hd, hs⟩ := Option.bind_eq_some_iff.mp hs
    split at hs
    next =>
      cases hs
      cases asked <;> exact .inr (.inl rfl)
    next => cases hs
  | fails asked => exact absurd rfl (hfails asked)
  | done r =>
    simp only [Master.step] at hs
    split at hs
    next more hat =>
      cases hs
      cases hq : m.quiesced with
      | true => exact .inr (.inr (by cases r <;> exact hq))
      | false =>
        rcases h with ha | hd | hq'
        · exact .inl (ahead_done hat hq ha)
        · exact .inr (.inl (by cases r <;> exact hd))
        · rw [hq] at hq'
          cases hq'
    next => cases hs
  | suspend =>
    simp only [Master.step] at hs
    split at hs
    next =>
      cases hs
      exact .inr (.inr rfl)
    next => cases hs
  | lock | cancel =>
    simp only [Master.step] at hs
    split at hs
    next hat =>
      cases hs
      exact .inr (.inr (hok.quiesced_asleep (by simp [hat.1]) (by simp [hat.1])))
    next => cases hs
  | resume =>
    simp only [Master.step] at hs
    split at hs
    next =>
      cases hs
      exact .inl (.inr (.inr (.inr (.inr rfl))))
    next => cases hs
  | restart =>
    simp only [Master.step] at hs
    split at hs
    next =>
      cases hs
      exact .inl (.inl rfl)
    next => cases hs
  | terminate =>
    cases hs
    exact .inr (.inr (by simp [Master.quiesced]))

end Master

/-! ## What the peripheral keeps -/

namespace Slave

/-- The thread has lowered the line and not made the transfer of its header yet. -/
def out (s : Slave) : Bool :=
  match s.pc with
  | .check | .took | .loaded _ | .xfer (.header _) => true
  | _ => false

/-- The line is up wherever there is something the master does not know of. -/
structure Ok (s : Slave) : Prop where
  asked : s.pc ≠ .off → s.txEvent = true → s.line = true ∨ 0 < s.raising ∨ s.pc = .check
  announced : ∀ p, s.pc = .xfer p → p.txLen ≠ 0 → s.line = true

variable {B : Bus} {s s' : Slave}

/-- Away from the look at the event, the line tells of it or is about to. -/
theorem Ok.kept (h : s.Ok) (hoff : s.pc ≠ .off) (hcheck : s.pc ≠ .check) (hev : s.txEvent = true) :
    s.line = true ∨ 0 < s.raising := by
  rcases h.asked hoff hev with hl | hr | hc
  · exact .inl hl
  · exact .inr hr
  · exact absurd hc hcheck

/-- The thread goes on with nothing to announce. -/
theorem Ok.quiet (h : s.Ok) (hoff : s.pc ≠ .off) (hcheck : s.pc ≠ .check) {pc : SlaveAt}
    (hpc : ∀ p, pc = .xfer p → p.txLen ≠ 0 → s.line = true) : Ok { s with pc := pc } where
  asked := fun _ hev => (h.kept hoff hcheck hev).imp_right .inl
  announced := hpc

theorem Ok.run (h : s.Ok) (hs : s.run B = some s') : s'.Ok := by
  have hnone : ∀ p, SlaveAt.xfer (.header 0) = .xfer p → p.txLen ≠ 0 → s.line = true := by
    rintro p hp hne
    cases hp
    exact absurd rfl hne
  rw [Slave.run] at hs
  split at hs
  next =>
    cases hs
    exact ⟨fun _ _ => .inr (.inr rfl), by simp⟩
  next hpc =>
    cases hs
    split
    next => exact ⟨by simp, by simp⟩
    next hev => exact ⟨fun _ hev' => absurd hev' hev, hnone⟩
  next hpc =>
    cases hs
    exact h.quiet (by simp [hpc]) (by simp [hpc]) hnone
  next r hpc =>
    cases hs
    split
    next => exact h.quiet (by simp [hpc]) (by simp [hpc]) hnone
    next => exact ⟨fun _ _ => .inl rfl, fun _ _ _ => rfl⟩
  next x hpc =>
    cases hs
    apply h.quiet (by simp [hpc]) (by simp [hpc])
    intro p hp hne
    split at hp
    next =>
      cases hp
      exact h.announced _ hpc hne
    next => cases hp
  next hpc =>
    cases hs
    exact h.quiet (by simp [hpc]) (by simp [hpc]) (by simp)
  next => cases hs

theorem ok_requestByThread (s : Slave) : s.requestByThread.Ok := ⟨fun _ _ => .inl rfl, fun _ _ _ => rfl⟩

theorem Ok.clocked (h : s.Ok) {p : Phase} (hpc : s.pc = .xfer p) (rxLen : Nat) : (s.clocked p rxLen).Ok := by
  rw [Slave.clocked]
  split
  next => exact h.quiet (by simp [hpc]) (by simp [hpc]) (by simp)
  next p' hp' =>
    apply h.quiet (by simp [hpc]) (by simp [hpc])
    intro q hq hne
    cases hq
    rw [Phase.txLen_clocked hp'] at hne
    exact h.announced p hpc hne

theorem Ok.step (h : s.Ok) {a : Act} (hs : s.step B a = some s') : s'.Ok := by
  cases a with
  | run => exact h.run hs
  | getPacket asked r =>
    simp only [Slave.step] at hs
    split at hs
    next hpc =>
      cases hs
      have hok : Ok { s with pc := .loaded r } := h.quiet (by simp [hpc]) (by simp [hpc]) (by simp)
      split
      next => exact ok_requestByThread _
      next => exact hok
    next => cases hs
  | feed asked =>
    simp only [Slave.step] at hs
    split at hs
    next x hpc =>
      cases hs
      have hok : Ok { s with pc := .xfer (.fed (x.next B.chunkSz)) } := by
        apply h.quiet (by simp [hpc]) (by simp [hpc])
        rintro p hp hne
        cases hp
        exact h.announced _ hpc hne
      split
      next => exact ok_requestByThread _
      next => exact hok
    next => cases hs
  | request =>
    cases hs
    exact ⟨fun _ _ => .inr (.inl (Nat.succ_pos _)), h.announced⟩
  | raise =>
    simp only [Slave.step] at hs
    split at hs
    next => cases hs
    next =>
      cases hs
      exact ⟨fun _ _ => .inl rfl, fun _ _ _ => rfl⟩
  | fails =>
    simp only [Slave.step] at hs
    split at hs
    next p hpc =>
      split at hs
      next =>
        cases hs
        exact ⟨fun hoff => absurd rfl hoff, by simp⟩
      next => cases hs
    next => cases hs
  | ends =>
    simp only [Slave.step] at hs
    split at hs
    next =>
      cases hs
      exact ⟨fun hoff => absurd rfl hoff, by simp⟩
    next => cases hs

end Slave

/-! ## The two in step -/

/-- The frame an end has still to clock to its end: the two lengths, and the octets clocked. -/
def Phase.openAt (chunkSz : Nat) : Phase → Option (Nat × Nat × Nat)
  | .header _ => none
  | .frame x => some (x.txLen, x.rxLen, x.sent)
  | .feed x =>
    if (x.next chunkSz).sent < x.len then some (x.txLen, x.rxLen, (x.next chunkSz).sent) else none
  | .fed x => if x.sent < x.len then some (x.txLen, x.rxLen, x.sent) else none

/-- The same frame, seen from the other end. -/
def swap (f : Nat × Nat × Nat) : Nat × Nat × Nat := (f.2.1, f.1, f.2.2)

/-- A transfer the two make together keeps them in step. -/
theorem Phase.openAt_clocked {chunkSz rxLen rxLen' : Nat} {p q : Phase} (hp : p.ready = true)
    (hstep : p.openAt chunkSz = (q.openAt chunkSz).map swap) (hin : p.inStep rxLen rxLen' q = true) :
    (p.clocked rxLen).bind (Phase.openAt chunkSz) =
      ((q.clocked rxLen').bind (Phase.openAt chunkSz)).map swap := by
  cases p with
  | header n =>
    cases q with
    | header k =>
      obtain ⟨rfl, rfl⟩ : rxLen = k ∧ rxLen' = n := of_decide_eq_true hin
      rw [Phase.clocked, Phase.clocked]
      by_cases hzero : rxLen' = 0 ∧ rxLen = 0
      · rw [if_pos hzero, if_pos hzero.symm]
        rfl
      · rw [if_neg hzero, if_neg fun h => hzero h.symm]
        rfl
    | frame _ | feed _ | fed _ => cases hin
  | frame x =>
    cases q with
    | frame y =>
      simp only [Phase.openAt, Option.map_some, swap, Option.some.injEq, Prod.mk.injEq] at hstep
      obtain ⟨htx, hrx, hsent⟩ := hstep
      have hlen : x.len = y.len := by rw [Moving.len, Moving.len, htx, hrx, max_comm]
      have hnext : (x.next chunkSz).sent = (y.next chunkSz).sent := by
        simp only [Moving.next, Moving.chunk, hlen, hsent]
      simp only [Phase.clocked, Option.bind_some, Phase.openAt, hnext, hlen, htx, hrx]
      by_cases hmore : (y.next chunkSz).sent < y.len
      · rw [if_pos hmore, if_pos hmore]
        rfl
      · rw [if_neg hmore, if_neg hmore]
        rfl
    | header _ | feed _ | fed _ => cases hin
  | feed x => cases hp
  | fed x => cases hp

def DrainAt.openAt (chunkSz : Nat) : DrainAt → Option (Nat × Nat × Nat)
  | .xfer p => p.openAt chunkSz
  | _ => none

def Master.openAt (B : Bus) (m : Master) : Option (Nat × Nat × Nat) :=
  m.drain.bind fun d => d.pc.openAt B.chunkSz

def SlaveAt.openAt (chunkSz : Nat) : SlaveAt → Option (Nat × Nat × Nat)
  | .xfer p => p.openAt chunkSz
  | _ => none

def Slave.openAt (B : Bus) (s : Slave) : Option (Nat × Nat × Nat) := s.pc.openAt B.chunkSz

namespace Master

variable {B : Bus} {m m' : Master} {d : Drain}

theorem openAt_drain (hd : m.drain = some d) : m.openAt B = d.pc.openAt B.chunkSz := by
  rw [openAt, hd, Option.bind_some]

theorem openAt_run (hd : m.drain = some d) (hs : m.run B d = some m') : m'.openAt B = m.openAt B := by
  rw [openAt_drain hd]
  rw [Master.run] at hs
  split at hs
  next hpc =>
    rw [hpc]
    split at hs
    next =>
      cases hs
      rfl
    next =>
      cases hs
      split <;> rfl
  next hpc =>
    rw [hpc]
    cases hs
    split <;> rfl
  next hpc =>
    rw [hpc]
    cases hs
    rfl
  next r hpc =>
    rw [hpc]
    split at hs
    next =>
      cases hs
      rfl
    next =>
      cases hs
      split <;> rfl
  next x hpc =>
    rw [hpc]
    cases hs
    simp only [DrainAt.openAt, Phase.openAt]
    split <;> rfl
  next => cases hs

/-- By itself the master clocks nothing. -/
theorem openAt_step {a : Act} (hs : m.step B a = some m') (hfails : ∀ asked, a ≠ .fails asked) :
    m'.openAt B = m.openAt B := by
  cases a with
  | requestTx | terminate =>
    cases hs
    rfl
  | schedule =>
    simp only [Master.step] at hs
    split at hs
    next => cases hs
    next =>
      cases hs
      rfl
  | start | top | suspend | lock | cancel | resume | restart =>
    simp only [Master.step] at hs
    split at hs
    next =>
      cases hs
      rfl
    next => cases hs
  | acquire r =>
    simp only [Master.step] at hs
    split at hs
    next hat =>
      cases hs
      rw [openAt, openAt, hat.2]
      rfl
    next => cases hs
  | run =>
    obtain ⟨d, hd, hs⟩ := Option.bind_eq_some_iff.mp hs
    exact openAt_run hd hs
  | getPacket asked r =>
    obtain ⟨d, hd, hs⟩ := Option.bind_eq_some_iff.mp hs
    split at hs
    next hpc =>
      cases hs
      rw [openAt_drain hd, hpc]
      cases asked <;> rfl
    next => cases hs
  | callback =>
    obtain ⟨d, hd, hs⟩ := Option.bind_eq_some_iff.mp hs
    split at hs
    next =>
      cases hs
      rfl
    next =>
      cases hs
      rfl
    next => cases hs
  | feed asked =>
    obtain ⟨d, hd, hs⟩ := Option.bind_eq_some_iff.mp hs
    split at hs
    next x hpc =>
      cases hs
      rw [openAt_drain hd, hpc]
      cases asked <;> rfl
    next => cases hs
  | fails asked => exact absurd rfl (hfails asked)
  | done r =>
    simp only [Master.step] at hs
    split at hs
    next =>
      cases hs
      cases r <;> rfl
    next => cases hs

theorem openAt_clocked (m : Master) (d : Drain) (p : Phase) (rxLen : Nat) :
    (m.clocked d p rxLen).openAt B = (p.clocked rxLen).bind (Phase.openAt B.chunkSz) := by
  rw [Master.clocked]
  cases p.clocked rxLen with
  | none => rfl
  | some _ => rfl

end Master

namespace Slave

variable {B : Bus} {s s' : Slave}

theorem openAt_step {a : Act} (hs : s.step B a = some s') (hfails : a ≠ .fails) :
    s'.openAt B = s.openAt B := by
  cases a with
  | run =>
    rw [Slave.step, Slave.run] at hs
    split at hs
    next hpc =>
      cases hs
      rw [openAt, openAt, hpc]
      rfl
    next hpc =>
      cases hs
      rw [openAt, openAt, hpc]
      split <;> rfl
    next hpc =>
      cases hs
      rw [openAt, openAt, hpc]
      rfl
    next r hpc =>
      cases hs
      rw [openAt, openAt, hpc]
      split <;> rfl
    next x hpc =>
      cases hs
      simp only [openAt, hpc]
      split
      next hmore => simp only [SlaveAt.openAt, Phase.openAt, if_pos hmore]
      next hmore => simp only [SlaveAt.openAt, Phase.openAt, if_neg hmore]
    next hpc =>
      cases hs
      rw [openAt, openAt, hpc]
      rfl
    next => cases hs
  | getPacket asked r =>
    simp only [Slave.step] at hs
    split at hs
    next hpc =>
      cases hs
      rw [openAt, openAt, hpc]
      split <;> rfl
    next => cases hs
  | feed asked =>
    simp only [Slave.step] at hs
    split at hs
    next x hpc =>
      cases hs
      rw [openAt, openAt, hpc]
      split <;> rfl
    next => cases hs
  | request =>
    cases hs
    rfl
  | raise =>
    simp only [Slave.step] at hs
    split at hs
    next => cases hs
    next =>
      cases hs
      rfl
  | fails => exact absurd rfl hfails
  | ends =>
    simp only [Slave.step] at hs
    split at hs
    next hpc =>
      cases hs
      rw [openAt, openAt, hpc]
      rfl
    next => cases hs

theorem openAt_clocked (s : Slave) (p : Phase) (rxLen : Nat) :
    (s.clocked p rxLen).openAt B = (p.clocked rxLen).bind (Phase.openAt B.chunkSz) := by
  rw [Slave.clocked]
  cases p.clocked rxLen with
  | none => rfl
  | some _ => rfl

/-- The thread gets where it waits for the master by lowering the line. -/
theorem out_step {a : Act} (hs : s.step B a = some s') (hout : s'.out = true) (hline : s'.line = true) :
    s.out = true := by
  cases a with
  | run =>
    rw [Slave.step, Slave.run] at hs
    split at hs
    next =>
      cases hs
      cases hline
    next hpc => simp [out, hpc]
    next hpc => simp [out, hpc]
    next hpc => simp [out, hpc]
    next x hpc =>
      cases hs
      by_cases hmore : x.sent < x.len
      · rw [if_pos hmore] at hout
        cases hout
      · rw [if_neg hmore] at hout
        cases hout
    next =>
      cases hs
      cases hout
    next => cases hs
  | getPacket asked r =>
    simp only [Slave.step] at hs
    split at hs
    next hpc => simp [out, hpc]
    next => cases hs
  | feed asked =>
    simp only [Slave.step] at hs
    split at hs
    next x hpc =>
      cases hs
      cases asked <;> cases hout
    next => cases hs
  | request =>
    cases hs
    exact hout
  | raise =>
    simp only [Slave.step] at hs
    split at hs
    next => cases hs
    next =>
      cases hs
      exact hout
  | fails =>
    simp only [Slave.step] at hs
    split at hs
    next =>
      split at hs
      next =>
        cases hs
        cases hout
      next => cases hs
    next => cases hs
  | ends =>
    simp only [Slave.step] at hs
    split at hs
    next =>
      cases hs
      cases hout
    next => cases hs

/-- Once its header is clocked it no longer does. -/
theorem out_clocked {p : Phase} (hready : p.ready = true) (rxLen : Nat) : (s.clocked p rxLen).out = false := by
  rw [Slave.clocked]
  split
  next => rfl
  next p' hp' => obtain ⟨x, rfl⟩ | ⟨x, rfl⟩ := p.clocked_moves hready hp' <;> rfl

end Slave

namespace Ends

variable {B : Bus} {s s' : Ends}

structure Inv (B : Bus) (s : Ends) : Prop where
  master : s.master.Ok B
  slave : s.slave.Ok
  /-- An edge the peripheral waits for the answer to has the master make an exchange. -/
  risen : B.asking = .edge → s.strayed = false → s.slave.line = true → s.slave.out = true →
    s.latched = true ∨ s.master.goes
  inStep : s.strayed = false → s.master.openAt B = (s.slave.openAt B).map swap

theorem inv_init : Inv B init where
  master := by
    refine ⟨?_, fun _ => .inl (.inl rfl), ?_, fun _ => .inr (.inl rfl)⟩
    · rintro d ⟨⟩
    · exact fun hpm => absurd rfl hpm
  slave := ⟨by rintro _ ⟨⟩, by rintro p ⟨⟩⟩
  risen := by rintro _ _ ⟨⟩
  inStep _ := rfl

theorem Inv.masterStep (h : Inv B s) {a : Master.Act} {m : Master} (hm : s.master.step B a = some m) :
    Inv B { s with master := m, strayed := s.strayed || a.isFails } := by
  have hcalm : ∀ {b : Bool}, (s.strayed || b) = false → s.strayed = false ∧ b = false := by
    intro b hb
    simpa using hb
  have hfails : a.isFails = false → ∀ asked, a ≠ .fails asked := by
    rintro ha asked rfl
    cases ha
  refine ⟨h.master.step hm, h.slave, ?_, ?_⟩
  · intro hedge hstray hline hout
    obtain ⟨hbefore, ha⟩ := hcalm hstray
    exact (h.risen hedge hbefore hline hout).imp_right fun hgoes => h.master.goes_step hgoes hm (hfails ha)
  · intro hstray
    obtain ⟨hbefore, ha⟩ := hcalm hstray
    exact (Master.openAt_step hm (hfails ha)).trans (h.inStep hbefore)

theorem Inv.slaveStep (h : Inv B s) {a : Slave.Act} {t : Slave} (ht : s.slave.step B a = some t) :
    Inv B { s.setSlave B t with strayed := s.strayed || a = .fails } := by
  refine ⟨h.master, h.slave.step ht, ?_, ?_⟩
  · intro hedge hstray hline hout
    have hbefore : s.strayed = false := (Bool.or_eq_false_iff.mp hstray).1
    cases hup : s.slave.line with
    | false =>
      left
      have hrises : t.line = true := hline
      simp [setSlave, hedge, hup, hrises]
    | true =>
      rcases h.risen hedge hbefore hup (Slave.out_step ht hout hline) with hlatched | hgoes
      · exact .inl (by simp [setSlave, hlatched])
      · exact .inr hgoes
  · intro hstray
    obtain ⟨hbefore, ha⟩ := Bool.or_eq_false_iff.mp hstray
    have hopen : t.openAt B = s.slave.openAt B := Slave.openAt_step ht (of_decide_eq_false ha)
    exact (h.inStep hbefore).trans (congrArg (Option.map swap) hopen.symm)

theorem Inv.step (h : Inv B s) {a : Act} (hs : Ends.step B s a = some s') : Inv B s' := by
  cases a with
  | master a =>
    obtain ⟨m, hm, rfl⟩ := Option.map_eq_some_iff.mp hs
    exact h.masterStep hm
  | slave a =>
    obtain ⟨t, ht, rfl⟩ := Option.map_eq_some_iff.mp hs
    exact h.slaveStep ht
  | interrupt =>
    simp only [Ends.step] at hs
    split at hs
    next hat =>
      cases hs
      have htop : ({ s.master with isr := .top } : Master).ahead := .inr (.inr (.inr (.inl rfl)))
      have hne : s.master.place .isr ≠ .held := by simp [Master.place, hat.1]
      exact ⟨h.master.outside rfl (Master.held_put hne .top) id id (fun _ => .inl htop) h.master.asleep
        h.master.polls, h.slave, fun _ _ _ _ => .inr (.inl htop), h.inStep⟩
    next => cases hs
  | meet rxLen rxLen' =>
    obtain ⟨d, hd, hs⟩ := Option.bind_eq_some_iff.mp hs
    split at hs
    next p q hp hq =>
      split at hs
      next hready =>
        cases hs
        refine ⟨h.master.clocked hd hp hready.1 rxLen, h.slave.clocked hq rxLen', ?_, ?_⟩
        · intro _ _ _ hout
          rw [Slave.out_clocked hready.2] at hout
          cases hout
        · intro hstray
          obtain ⟨hbefore, hin⟩ := Bool.or_eq_false_iff.mp hstray
          have hstep := h.inStep hbefore
          rw [Master.openAt_drain hd, hp, Slave.openAt, hq] at hstep
          rw [Master.openAt_clocked, Slave.openAt_clocked]
          exact Phase.openAt_clocked hready.1 hstep (by simpa using hin)
      next => cases hs
    next => cases hs
  | alone rxLen =>
    obtain ⟨d, hd, hs⟩ := Option.bind_eq_some_iff.mp hs
    split at hs
    next p hp =>
      split at hs
      next hready =>
        cases hs
        refine ⟨h.master.clocked hd hp hready rxLen, h.slave, ?_, ?_⟩
        · rintro _ ⟨⟩
        · rintro ⟨⟩
      next => cases hs
    next => cases hs

theorem inv_reaches (h : Reaches B s) : Inv B s :=
  h.invariant inv_init fun hi _ hs => hi.step hs

/-- The master waits for somebody to ask. -/
structure Waits (B : Bus) (s : Ends) : Prop where
  work : s.master.work = .off
  isr : s.master.isr = .off
  drain : s.master.drain = none
  pending : s.master.pending = false
  calling : s.master.calling = 0
  pm : s.master.pm ≠ .resuming
  quiesced : s.master.quiesced = false
  quiet : ¬ s.interrupts B

/-- No request is lost between the two. Where the master waits to be asked and the peripheral for a transfer,
neither has a TX round to make or a frame to announce: with a level at the line whatever became of the
transfers, with an edge as long as each met its like, and then the peripheral is not in the middle of a frame
either. A master that polls never waits. -/
theorem requests_heeded (h : Reaches B s) (hwaits : s.Waits B) {p : Phase} (hp : s.slave.pc = .xfer p)
    (hready : p.ready = true) (hraising : s.slave.raising = 0) (hgave : s.master.gaveUp = false)
    (hedge : B.asking = .edge → s.strayed = false) :
    B.asking ≠ .poll ∧ s.master.forceTx = false ∧ s.slave.txEvent = false ∧ p.txLen = 0 ∧
      (s.strayed = false → p = .header 0) := by
  have hinv := inv_reaches h
  have hahead : ¬ s.master.ahead := by
    simp [Master.ahead, hwaits.pending, hwaits.calling, hwaits.work, hwaits.isr, hwaits.pm, RunnerAt.leads]
  have hopen : s.strayed = false → s.slave.openAt B = none := by
    intro hstray
    have hstep := hinv.inStep hstray
    rw [Master.openAt, hwaits.drain] at hstep
    exact Option.map_eq_none_iff.mp hstep.symm
  have hheader : s.strayed = false → ∃ n, p = .header n := by
    intro hstray
    have hnone := hopen hstray
    rw [Slave.openAt, hp] at hnone
    cases p with
    | header n => exact ⟨n, rfl⟩
    | frame x => cases hnone
    | feed x => cases hready
    | fed x => cases hready
  have hpoll : B.asking ≠ .poll := by
    intro hpoll
    rcases hinv.master.polls hpoll with hw | hpend | hpm | hq
    · exact hw hwaits.work
    · rw [hwaits.pending] at hpend
      cases hpend
    · exact hwaits.pm hpm
    · rw [hwaits.quiesced] at hq
      cases hq
  have hline : s.slave.line = false := by
    rw [← Bool.not_eq_true]
    intro hline
    cases hask : B.asking with
    | poll => exact hpoll hask
    | level => exact hwaits.quiet (.inr ⟨hask, hline⟩)
    | edge =>
      have hstray := hedge hask
      obtain ⟨n, rfl⟩ := hheader hstray
      rcases hinv.risen hask hstray hline (by rw [Slave.out, hp]) with hlatched | ha | hd | hq
      · exact hwaits.quiet (.inl ⟨hask, hlatched⟩)
      · exact hahead ha
      · rw [hwaits.drain] at hd
        cases hd
      · rw [hwaits.quiesced] at hq
        cases hq
  have hannounced : p.txLen = 0 := by
    by_contra hne
    rw [hinv.slave.announced p hp hne] at hline
    cases hline
  refine ⟨hpoll, ?_, ?_, hannounced, ?_⟩
  · rw [← Bool.not_eq_true]
    intro hforce
    rcases hinv.master.asked hforce with ha | ⟨d, hd, -⟩ | hq | hg
    · exact hahead ha
    · rw [hwaits.drain] at hd
      cases hd
    · rw [hwaits.quiesced] at hq
      cases hq
    · rw [hgave] at hg
      cases hg
  · rw [← Bool.not_eq_true]
    intro hev
    rcases hinv.slave.kept (by simp [hp]) (by simp [hp]) hev with hl | hr
    · rw [hline] at hl
      cases hl
    · omega
  · intro hstray
    obtain ⟨n, rfl⟩ := hheader hstray
    rw [show n = 0 from hannounced]

/-- A line that interrupts by its edge. -/
def edgeBus : Bus := ⟨.edge, 64, 64, 32⟩

def shortFrame : Loaded := ⟨3, true, Nat.succ_pos 2⟩

/-- The peripheral is asked to send, and prepares a frame. -/
def slaveLoads : List Act :=
  [.slave .request, .slave .run, .slave .run, .slave .raise, .slave (.getPacket false (some shortFrame)),
    .slave .run]

/-- The master's work does. -/
def masterLoads : List Act :=
  [.master .start, .master (.acquire .work), .master .run, .master .run,
    .master (.getPacket false (some shortFrame)), .master .run]

/-- The frame goes over and both look for another. -/
def bothMove : List Act :=
  [.meet 3 3, .meet 0 0, .master (.feed false), .slave (.feed false), .slave .run, .slave .run, .slave .run,
    .slave .run, .master .run, .master .run, .master .run, .meet 0 0, .master (.done .work)]

/-- The handler of the edge finds nothing. -/
def handlerRuns : List Act :=
  [.slave .run, .slave .run, .slave .run, .interrupt, .master .top, .master (.acquire .isr), .master .run,
    .master .run, .meet 0 0, .master (.done .isr), .slave .run, .slave .run, .slave .run]

theorem requests_heeded_edge :
    ∃ s, Reaches edgeBus s ∧ s.strayed = false ∧ s.slave.pc = .xfer (.header 0) ∧ s.slave.txEvent = false ∧
      s.master.forceTx = false := by
  obtain ⟨s, hs, hP⟩ := Reachable.of_exec init (step edgeBus) (fun _ _ => true)
    (slaveLoads ++ masterLoads ++ bothMove ++ handlerRuns)
    (fun s => (s.master.work = .off ∧ s.master.isr = .off ∧ s.master.drain = none ∧ s.master.pending = false ∧
        s.master.calling = 0 ∧ s.master.pm = .awake ∧ s.master.quiesced = false ∧ ¬ s.interrupts edgeBus) ∧
      s.slave.pc = .xfer (.header 0) ∧ s.slave.raising = 0 ∧ s.master.gaveUp = false ∧ s.strayed = false)
    (by decide +kernel) (by decide +kernel)
  obtain ⟨⟨hwork, hisr, hdrain, hpending, hcalling, hpm, hq, hquiet⟩, hpc, hraising, hgave, hstray⟩ :=
    of_decide_eq_true hP
  have hrun : Reaches edgeBus s := hs.mono fun _ _ _ => trivial
  have hwaits : s.Waits edgeBus := ⟨hwork, hisr, hdrain, hpending, hcalling, by simp [hpm], hq, hquiet⟩
  obtain ⟨-, hforce, hev, -⟩ := requests_heeded hrun hwaits hpc rfl hraising hgave fun _ => hstray
  exact ⟨s, hrun, hstray, hpc, hev, hforce⟩

/-- With an edge a transfer that the peripheral is not ready for is one too many: the handler has run, the
line stays up, and the frame waits for the next request of either end. -/
example : (exec (step edgeBus) init
    ([.master .start, .master (.acquire .work), .master .run, .master .run, .master (.getPacket false none),
      .master .run, .alone 0, .master (.done .work)] ++
      slaveLoads.take 4 ++
      [.interrupt, .master .top, .master (.acquire .isr), .master .run, .master .run, .alone 0,
        .master (.done .isr)] ++
      slaveLoads.drop 4)).any (fun s =>
        s.slave.pc = .xfer (.header 3) ∧ s.slave.line = true ∧ s.latched = false ∧ s.master.isr = .off ∧
          s.master.work = .off ∧ s.master.pending = false ∧ s.master.forceTx = false) = true := by
  decide +kernel

end Ends

end Ludlc.Spi
