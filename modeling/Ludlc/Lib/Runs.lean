import Mathlib

/-! # Runs of a labelled transition system

A system is an initial state and a partial step function: an action either is not enabled or
leads to one next state. A run may be restricted to steps that meet a condition on the state
before the step and the action taken.
-/

namespace Ludlc.Runs

variable {σ α : Type}

/-- The states that runs reach, every step of which meets `ok`. -/
inductive Reachable (init : σ) (step : σ → α → Option σ) (ok : σ → α → Prop) : σ → Prop
  | init : Reachable init step ok init
  | step {s s' : σ} {a : α} : Reachable init step ok s → ok s a → step s a = some s' →
      Reachable init step ok s'

/-- What holds initially, and what a step that meets `ok` preserves, holds along every run. -/
theorem Reachable.invariant {init s : σ} {step : σ → α → Option σ} {ok : σ → α → Prop}
    {I : σ → Prop} (hinit : I init)
    (hstep : ∀ {s a s'}, I s → ok s a → step s a = some s' → I s')
    (h : Reachable init step ok s) : I s := by
  induction h with
  | init => exact hinit
  | step _ hok hs ih => exact hstep ih hok hs

/-- A run under a condition is a run under any weaker one. -/
theorem Reachable.mono {init s : σ} {step : σ → α → Option σ} {ok ok' : σ → α → Prop}
    (hok : ∀ s a, ok s a → ok' s a) (h : Reachable init step ok s) :
    Reachable init step ok' s := by
  induction h with
  | init => exact .init
  | step _ ha hs ih => exact .step ih (hok _ _ ha) hs

/-- Takes the actions in order, as long as each is enabled. -/
def exec (step : σ → α → Option σ) : σ → List α → Option σ
  | s, [] => some s
  | s, a :: as => (step s a).bind fun s' => exec step s' as

theorem exec_append (step : σ → α → Option σ) (s : σ) (as bs : List α) :
    exec step s (as ++ bs) = (exec step s as).bind fun s' => exec step s' bs := by
  induction as generalizing s with
  | nil => rfl
  | cons a as ih =>
    rw [List.cons_append, exec, exec, Option.bind_assoc]
    congr 1
    funext s'
    exact ih s'

/-- Whether each action meets the condition where it is taken. -/
def execOk (step : σ → α → Option σ) (ok : σ → α → Bool) : σ → List α → Bool
  | _, [] => true
  | s, a :: as => ok s a && (step s a).all fun s' => execOk step ok s' as

theorem Reachable.exec {init s s' : σ} {step : σ → α → Option σ} {ok : σ → α → Prop}
    (h : Reachable init step ok s) (okb : σ → α → Bool) (hokb : ∀ s a, okb s a = true → ok s a)
    {as : List α} (hok : execOk step okb s as = true)
    (he : Runs.exec step s as = some s') : Reachable init step ok s' := by
  induction as generalizing s with
  | nil =>
    cases he
    exact h
  | cons a as ih =>
    obtain ⟨t, ht, he⟩ := Option.bind_eq_some_iff.mp he
    rw [execOk, ht, Bool.and_eq_true, Option.all_some] at hok
    exact ih (.step h (hokb _ _ hok.1) ht) hok.2 he

/-- What a run that nothing restricts reaches, its continuations do. -/
theorem Reachable.run {init s s' : σ} {step : σ → α → Option σ}
    (h : Reachable init step (fun _ _ => True) s) {as : List α}
    (he : Runs.exec step s as = some s') : Reachable init step (fun _ _ => True) s' := by
  induction as generalizing s with
  | nil =>
    cases he
    exact h
  | cons a as ih =>
    obtain ⟨t, ht, he⟩ := Option.bind_eq_some_iff.mp he
    exact ih (.step h trivial ht) he

/-- An action repeated until it is no longer enabled ends in one state only. -/
theorem exec_replicate_unique {step : σ → α → Option σ} {a : α} {n m : Nat} {s s₁ s₂ : σ}
    (h₁ : exec step s (List.replicate n a) = some s₁)
    (h₂ : exec step s (List.replicate m a) = some s₂) (hlast₁ : step s₁ a = none)
    (hlast₂ : step s₂ a = none) : s₁ = s₂ := by
  induction n generalizing m s with
  | zero =>
    cases h₁
    cases m with
    | zero => exact Option.some_inj.mp h₂
    | succ m =>
      rw [List.replicate_succ, exec, hlast₁] at h₂
      cases h₂
  | succ n ih =>
    obtain ⟨t, ht, h₁⟩ := Option.bind_eq_some_iff.mp h₁
    cases m with
    | zero =>
      cases h₂
      rw [hlast₂] at ht
      cases ht
    | succ m =>
      rw [List.replicate_succ, exec, ht, Option.bind_some] at h₂
      exact ih h₁ h₂

/-- A run given by its actions shows that a state with a property is reached. -/
theorem Reachable.of_exec (init : σ) (step : σ → α → Option σ) (okb : σ → α → Bool) (as : List α)
    (P : σ → Bool) (hok : execOk step okb init as = true)
    (h : (Runs.exec step init as).any P = true) :
    ∃ s, Reachable init step (fun s a => okb s a = true) s ∧ P s = true := by
  obtain ⟨s, hs, hP⟩ := (Option.any_eq_true _ _).mp h
  exact ⟨s, Reachable.init.exec okb (fun _ _ => id) hok hs, hP⟩

/-- In the history, `P` holds of each entry and those before it. -/
def Each {ε : Type} (P : List ε → ε → Prop) (log : List ε) : Prop :=
  ∀ l₁ e l₂, log = l₁ ++ e :: l₂ → P l₁ e

theorem each_nil {ε : Type} (P : List ε → ε → Prop) : Each P [] := by
  intro l₁ e l₂ h
  simp at h

theorem each_snoc {ε : Type} {P : List ε → ε → Prop} {log : List ε} {e : ε} :
    Each P (log ++ [e]) ↔ Each P log ∧ P log e := by
  constructor
  · intro h
    refine ⟨fun l₁ e' l₂ heq => h l₁ e' (l₂ ++ [e]) (by rw [heq]; simp), h log e [] rfl⟩
  · rintro ⟨h, he⟩ l₁ e' l₂ heq
    rcases List.eq_nil_or_concat l₂ with rfl | ⟨l₂, e'', rfl⟩
    · obtain ⟨rfl, hlast⟩ := List.append_inj' heq rfl
      rw [← (List.cons.inj hlast).1]
      exact he
    · rw [List.concat_eq_append, ← List.cons_append, ← List.append_assoc] at heq
      exact h l₁ e' l₂ (List.append_inj' heq rfl).1

/-- `P` holds where a run starts and after each of its actions. -/
def Along (step : σ → α → Option σ) (P : σ → Prop) : σ → List α → Prop
  | s, [] => P s
  | s, a :: as => P s ∧ ∀ s', step s a = some s' → Along step P s' as

/-- A property that an action keeps or ends by itself holds along the runs of the actions that keep
it. -/
theorem along_iff {step : σ → α → Option σ} {P : σ → Prop} {keeps : α → Prop}
    (hstep : ∀ {s a s'}, P s → step s a = some s' → (P s' ↔ keeps a)) {s s' : σ} {as : List α}
    (h : P s) (he : exec step s as = some s') : Along step P s as ↔ ∀ a ∈ as, keeps a := by
  induction as generalizing s with
  | nil => simpa [Along] using h
  | cons a as ih =>
    obtain ⟨t, ht, he⟩ := Option.bind_eq_some_iff.mp he
    rw [Along, List.forall_mem_cons]
    constructor
    · rintro ⟨-, hall⟩
      have hrest := hall t ht
      have hP : P t := by
        cases as with
        | nil => exact hrest
        | cons b as => exact hrest.1
      exact ⟨(hstep h ht).mp hP, (ih hP he).mp hrest⟩
    · rintro ⟨ha, hall⟩
      refine ⟨h, fun t' ht' => ?_⟩
      obtain rfl : t = t' := Option.some_inj.mp (ht.symm.trans ht')
      exact (ih ((hstep h ht).mpr ha) he).mpr hall

end Ludlc.Runs
