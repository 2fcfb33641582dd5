import Mathlib

/-! # Attempts and what they are charged

A history of attempts, each for one of many keys, and of charges against the keys. A charge is paid
for by an attempt made since the last charge against the same key; a history all of whose charges
are paid for has at least as many attempts as charges, for every key.
-/

namespace Ludlc.Attempts

variable {κ : Type} [DecidableEq κ]

inductive Mark (κ : Type)
  | copy (k : κ)
  | charge (k : κ)
  deriving DecidableEq

def Mark.key : Mark κ → κ
  | copy k => k
  | charge k => k

def copies (k : κ) (tr : List (Mark κ)) : Nat := tr.count (.copy k)

def charges (k : κ) (tr : List (Mark κ)) : Nat := tr.count (.charge k)

/-- Whether an attempt was made since the last charge. -/
def fresh (k : κ) (tr : List (Mark κ)) : Bool :=
  tr.foldl (fun b m => match m with
    | .copy u => b || u = k
    | .charge u => b && u ≠ k) false

theorem fresh_copy (k u : κ) (tr : List (Mark κ)) :
    fresh k (tr ++ [.copy u]) = (fresh k tr || decide (u = k)) := by
  rw [fresh, List.foldl_append]
  rfl

theorem fresh_charge (k u : κ) (tr : List (Mark κ)) :
    fresh k (tr ++ [.charge u]) = (fresh k tr && decide (u ≠ k)) := by
  rw [fresh, List.foldl_append]
  rfl

@[simp] theorem copies_copy (k u : κ) (tr : List (Mark κ)) :
    copies k (tr ++ [.copy u]) = copies k tr + (decide (u = k)).toNat := by
  rw [copies, copies, List.count_append, List.count_singleton]
  by_cases h : u = k
  · simp [h]
  · simp [h]

@[simp] theorem charges_copy (k u : κ) (tr : List (Mark κ)) :
    charges k (tr ++ [.copy u]) = charges k tr := by
  rw [charges, charges, List.count_append, List.count_singleton]
  simp

@[simp] theorem copies_charge (k u : κ) (tr : List (Mark κ)) :
    copies k (tr ++ [.charge u]) = copies k tr := by
  rw [copies, copies, List.count_append, List.count_singleton]
  simp

@[simp] theorem charges_charge (k u : κ) (tr : List (Mark κ)) :
    charges k (tr ++ [.charge u]) = charges k tr + (decide (u = k)).toNat := by
  rw [charges, charges, List.count_append, List.count_singleton]
  by_cases h : u = k
  · simp [h]
  · simp [h]

theorem charges_of_unmarked {k : κ} {tr : List (Mark κ)} (h : ∀ m ∈ tr, m.key ≠ k) :
    charges k tr = 0 := by
  apply List.count_eq_zero.mpr
  intro hm
  exact h _ hm rfl

theorem copy_of_fresh {k : κ} (pre mid : List (Mark κ))
    (h : fresh k (pre ++ .charge k :: mid) = true) : .copy k ∈ mid := by
  induction mid using List.reverseRecOn with
  | nil =>
    rw [fresh_charge] at h
    simp at h
  | append_singleton mid m ih =>
    rw [← List.cons_append, ← List.append_assoc] at h
    apply List.mem_append.mpr
    cases m with
    | copy u =>
      rw [fresh_copy, Bool.or_eq_true, decide_eq_true_iff] at h
      rcases h with h | rfl
      · exact .inl (ih h)
      · exact .inr (List.mem_singleton_self _)
    | charge u =>
      rw [fresh_charge, Bool.and_eq_true] at h
      exact .inl (ih h.1)

/-- Every charge is paid for. -/
def Paid (tr : List (Mark κ)) : Prop :=
  ∀ pre k post, tr = pre ++ .charge k :: post → fresh k pre = true

namespace Paid

variable {tr : List (Mark κ)} {k : κ}

theorem nil : Paid ([] : List (Mark κ)) := by
  intro pre k post h
  simp at h

theorem append {m : Mark κ} (h : Paid tr) (hm : ∀ k, m = .charge k → fresh k tr = true) :
    Paid (tr ++ [m]) := by
  intro pre k post heq
  rcases List.eq_nil_or_concat post with rfl | ⟨post, m', rfl⟩
  · obtain ⟨rfl, hlast⟩ := List.append_inj' heq rfl
    exact hm k (List.singleton_inj.mp hlast)
  · rw [List.concat_eq_append, ← List.cons_append, ← List.append_assoc] at heq
    exact h pre k post (List.append_inj' heq rfl).1

theorem copy (h : Paid tr) (k : κ) : Paid (tr ++ [.copy k]) := by
  apply h.append
  rintro u ⟨⟩

theorem charge (h : Paid tr) (hk : fresh k tr = true) : Paid (tr ++ [.charge k]) := by
  apply h.append
  rintro u ⟨⟩
  exact hk

theorem of_append {post : List (Mark κ)} (h : Paid (tr ++ post)) : Paid tr := by
  intro pre k rest heq
  apply h pre k (rest ++ post)
  rw [heq, List.append_assoc, List.cons_append]

/-- There are as many attempts as charges, and one more where the last was not charged. -/
theorem charges_add_le (h : Paid tr) (k : κ) :
    charges k tr + (fresh k tr).toNat ≤ copies k tr := by
  induction tr using List.reverseRecOn with
  | nil => exact le_refl _
  | append_singleton tr m ih =>
    have hih := ih h.of_append
    cases m with
    | copy u =>
      rw [charges_copy, copies_copy, fresh_copy]
      cases hf : fresh k tr with
      | true =>
        rw [hf] at hih
        simp only [Bool.true_or]
        omega
      | false =>
        simp only [Bool.false_or]
        omega
    | charge u =>
      rw [charges_charge, copies_charge, fresh_charge]
      by_cases hu : u = k
      · subst hu
        have hf := h tr u [] rfl
        rw [hf] at hih
        simpa using hih
      · simpa [hu] using hih

theorem charges_le (h : Paid tr) (k : κ) : charges k tr ≤ copies k tr :=
  le_trans (Nat.le_add_right _ _) (h.charges_add_le k)

theorem copy_between (h : Paid tr) {pre mid post : List (Mark κ)}
    (htr : tr = pre ++ .charge k :: (mid ++ .charge k :: post)) : .copy k ∈ mid := by
  apply copy_of_fresh pre
  apply h _ k post
  rw [htr, List.append_assoc, List.cons_append]

end Paid

end Ludlc.Attempts
