import Mathlib

/-! # Consistent overhead byte stuffing

A list of octets is cut into groups of octets other than a delimiter, each opened by an octet that
counts itself and the octets of its group, so that no delimiter is left of the data. A group ends
where a delimiter stood, where it is full, or with the list.
-/

namespace Ludlc.Stuffing

/-- The most octets a code octet can count beside itself. -/
def blockMax : Nat := 254

/-- The group that opens at the front of a list. -/
def run (d : UInt8) (l : List UInt8) : List UInt8 := (l.take blockMax).takeWhile (· ≠ d)

section

variable {d : UInt8}

theorem run_length_le (l : List UInt8) : (run d l).length ≤ blockMax :=
  (List.takeWhile_prefix _).length_le.trans (List.length_take_le ..)

theorem isPrefix_run (l : List UInt8) : run d l <+: l :=
  (List.takeWhile_prefix ..).trans (List.take_prefix ..)

theorem run_append_drop (l : List UInt8) : run d l ++ l.drop (run d l).length = l :=
  List.prefix_iff_eq_append.mp (isPrefix_run l)

theorem length_run_add (l : List UInt8) :
    (run d l).length + (l.drop (run d l).length).length = l.length := by
  have := congrArg List.length (run_append_drop (d := d) l)
  rwa [List.length_append] at this

theorem ne_of_mem_run {l : List UInt8} {c : UInt8} (h : c ∈ run d l) : c ≠ d := by
  have := List.mem_takeWhile_imp h
  simpa using this

/-- Where a group stops short of its limit and of the list, a delimiter stands. -/
theorem drop_run {l : List UInt8} {c : UInt8} {t : List UInt8}
    (hd : l.drop (run d l).length = c :: t) (hr : (run d l).length ≠ blockMax) : c = d := by
  have hlt : (run d l).length < blockMax := lt_of_le_of_ne (run_length_le l) hr
  by_contra hc
  have hl : l = run d l ++ c :: t := by rw [← hd, run_append_drop]
  have htake : l.take blockMax = run d l ++ c :: t.take (blockMax - (run d l).length - 1) := by
    conv_lhs => rw [hl]
    rw [List.take_append, List.take_of_length_le hlt.le,
      show blockMax - (run d l).length = (blockMax - (run d l).length - 1) + 1 by omega,
      List.take_succ_cons, Nat.add_sub_cancel]
  have hrun : run d l =
      run d l ++ c :: (t.take (blockMax - (run d l).length - 1)).takeWhile (· ≠ d) := by
    conv_lhs => rw [run, htake]
    rw [List.takeWhile_append_of_pos, List.takeWhile_cons_of_pos (by simpa using hc)]
    intro a ha
    simpa using ne_of_mem_run ha
  have := congrArg List.length hrun
  simp at this

/-- The list stuffed, without the delimiter after it on a wire. -/
def encode (d : UInt8) (l : List UInt8) : List UInt8 :=
  UInt8.ofNat ((run d l).length + 1) :: (run d l ++
    match _h : l.drop (run d l).length with
    | [] => []
    | c :: t => if (run d l).length = blockMax then encode d (c :: t) else encode d t)
termination_by l.length
decreasing_by
  · have := congrArg List.length _h
    simp only [List.length_drop, List.length_cons] at this ⊢
    simp only [blockMax] at *
    omega
  · have := congrArg List.length _h
    simp only [List.length_drop, List.length_cons] at this
    omega

theorem encode_of_end {l : List UInt8} (h : l.drop (run d l).length = []) :
    encode d l = UInt8.ofNat ((run d l).length + 1) :: run d l := by
  rw [encode]
  split
  · rw [List.append_nil]
  · rename_i he
    rw [h] at he
    cases he

theorem encode_of_full {l t : List UInt8} {c : UInt8} (h : l.drop (run d l).length = c :: t)
    (hr : (run d l).length = blockMax) :
    encode d l = UInt8.ofNat ((run d l).length + 1) :: (run d l ++ encode d (c :: t)) := by
  rw [encode]
  split
  · rename_i he
    rw [h] at he
    cases he
  · rename_i he
    rw [h] at he
    cases he
    rw [if_pos hr]

theorem encode_of_delim {l t : List UInt8} {c : UInt8} (h : l.drop (run d l).length = c :: t)
    (hr : (run d l).length ≠ blockMax) :
    encode d l = UInt8.ofNat ((run d l).length + 1) :: (run d l ++ encode d t) := by
  rw [encode]
  split
  · rename_i he
    rw [h] at he
    cases he
  · rename_i he
    rw [h] at he
    cases he
    rw [if_neg hr]

theorem group_induction {P : List UInt8 → Prop}
    (last : ∀ l, l.drop (run d l).length = [] → P l)
    (full : ∀ l c t, l.drop (run d l).length = c :: t → (run d l).length = blockMax →
      P (c :: t) → P l)
    (delim : ∀ l t, l.drop (run d l).length = d :: t → (run d l).length ≠ blockMax → P t → P l)
    (l : List UInt8) : P l := by
  induction hn : l.length using Nat.strong_induction_on generalizing l with
  | _ n ih =>
    cases hd : l.drop (run d l).length with
    | nil => exact last l hd
    | cons c t =>
      have hlen := congrArg List.length hd
      simp only [List.length_drop, List.length_cons] at hlen
      by_cases hr : (run d l).length = blockMax
      · refine full l c t hd hr (ih _ ?_ _ rfl)
        simp only [List.length_cons, blockMax] at *
        omega
      · have hc := drop_run hd hr
        subst hc
        exact delim l t hd hr (ih _ (by omega) _ rfl)

theorem toNat_run (l : List UInt8) :
    (UInt8.ofNat ((run d l).length + 1)).toNat = (run d l).length + 1 := by
  have hle := run_length_le (d := d) l
  simp only [blockMax] at hle
  simp [UInt8.toNat_ofNat']
  omega

/-- The groups a list is cut into. -/
def groups (d : UInt8) (l : List UInt8) : List (List UInt8) :=
  run d l ::
    match _h : l.drop (run d l).length with
    | [] => []
    | c :: t => if (run d l).length = blockMax then groups d (c :: t) else groups d t
termination_by l.length
decreasing_by
  · have := congrArg List.length _h
    simp only [List.length_drop, List.length_cons] at this ⊢
    simp only [blockMax] at *
    omega
  · have := congrArg List.length _h
    simp only [List.length_drop, List.length_cons] at this
    omega

theorem groups_of_end {l : List UInt8} (h : l.drop (run d l).length = []) :
    groups d l = [run d l] := by
  rw [groups]
  split
  · rfl
  · rename_i he
    rw [h] at he
    cases he

theorem groups_of_full {l t : List UInt8} {c : UInt8} (h : l.drop (run d l).length = c :: t)
    (hr : (run d l).length = blockMax) : groups d l = run d l :: groups d (c :: t) := by
  rw [groups]
  split
  · rename_i he
    rw [h] at he
    cases he
  · rename_i he
    rw [h] at he
    cases he
    rw [if_pos hr]

theorem groups_of_delim {l t : List UInt8} {c : UInt8} (h : l.drop (run d l).length = c :: t)
    (hr : (run d l).length ≠ blockMax) : groups d l = run d l :: groups d t := by
  rw [groups]
  split
  · rename_i he
    rw [h] at he
    cases he
  · rename_i he
    rw [h] at he
    cases he
    rw [if_neg hr]

theorem encode_eq_groups (l : List UInt8) :
    encode d l = (groups d l).flatMap fun g => UInt8.ofNat (g.length + 1) :: g := by
  induction l using group_induction (d := d) with
  | last l h => rw [encode_of_end h, groups_of_end h, List.flatMap_singleton]
  | full l c t h hr ih =>
    rw [encode_of_full h hr, groups_of_full h hr, List.flatMap_cons, ih]
    rfl
  | delim l t h hr ih =>
    rw [encode_of_delim h hr, groups_of_delim h hr, List.flatMap_cons, ih]
    rfl

theorem exists_run_of_mem_groups (l : List UInt8) : ∀ g ∈ groups d l, ∃ t, g = run d t := by
  induction l using group_induction (d := d) with
  | last l h =>
    rw [groups_of_end h]
    intro g hg
    exact ⟨l, List.mem_singleton.mp hg⟩
  | full l c t h hr ih =>
    rw [groups_of_full h hr]
    rintro g hg
    rcases List.mem_cons.mp hg with rfl | hg
    · exact ⟨l, rfl⟩
    · exact ih g hg
  | delim l t h hr ih =>
    rw [groups_of_delim h hr]
    rintro g hg
    rcases List.mem_cons.mp hg with rfl | hg
    · exact ⟨l, rfl⟩
    · exact ih g hg

/-- The delimiter is left in a stuffed list where it is what opens a group. -/
theorem mem_encode_iff (l : List UInt8) :
    d ∈ encode d l ↔ ∃ g ∈ groups d l, g.length + 1 = d.toNat := by
  rw [encode_eq_groups, List.mem_flatMap]
  constructor
  · rintro ⟨g, hg, hmem⟩
    obtain ⟨t, rfl⟩ := exists_run_of_mem_groups l g hg
    rcases List.mem_cons.mp hmem with h | h
    · exact ⟨_, hg, (toNat_run t).symm.trans (congrArg UInt8.toNat h.symm)⟩
    · exact absurd rfl (ne_of_mem_run h)
  · rintro ⟨g, hg, hlen⟩
    obtain ⟨t, rfl⟩ := exists_run_of_mem_groups l g hg
    refine ⟨_, hg, List.mem_cons.mpr (.inl ?_)⟩
    apply UInt8.toNat_inj.mp
    rw [toNat_run, hlen]

theorem zero_notMem_encode (l : List UInt8) : (0 : UInt8) ∉ encode 0 l := by
  rw [mem_encode_iff]
  rintro ⟨g, _, hlen⟩
  cases hlen

/-- One octet opens the list and one more follows each full group the list goes on after. -/
theorem length_encode_le (l : List UInt8) :
    (encode d l).length ≤ l.length + 1 + (l.length - 1) / blockMax := by
  induction l using group_induction (d := d) with
  | last l h =>
    have := length_run_add (d := d) l
    rw [encode_of_end h]
    rw [h, List.length_nil] at this
    rw [List.length_cons]
    have hq := Nat.zero_le ((l.length - 1) / blockMax)
    generalize (l.length - 1) / blockMax = q at *
    omega
  | full l c t h hr ih =>
    have := length_run_add (d := d) l
    rw [encode_of_full h hr]
    rw [h] at this
    simp only [hr, List.length_cons, List.length_append, Nat.add_sub_cancel] at this ih ⊢
    have hq : (l.length - 1) / blockMax = t.length / blockMax + 1 := by
      rw [← Nat.add_div_right _ (by decide : 0 < blockMax)]
      congr 1
      omega
    omega
  | delim l t h hr ih =>
    have := length_run_add (d := d) l
    rw [encode_of_delim h hr]
    rw [h] at this
    simp only [List.length_cons, List.length_append] at this ⊢
    have hq : (t.length - 1) / blockMax ≤ (l.length - 1) / blockMax :=
      Nat.div_le_div_right (by omega)
    omega

end

/-! ## Back again, an octet at a time, where the delimiter is zero -/

/-- What is known of a stuffed list part way through it. -/
structure Unstuffed where
  /-- The octets recovered. -/
  out : List UInt8
  /-- The code octet of the group being read. -/
  code : UInt8
  /-- Octets that group still has to come. -/
  left : Nat
  /-- Whether a group has been read at all. -/
  started : Bool
  deriving DecidableEq

/-- Nothing read yet. -/
def Unstuffed.empty : Unstuffed := ⟨[], 0, 0, false⟩

/-- The zero that a group after this one stands for. -/
def Unstuffed.gap (u : Unstuffed) : List UInt8 :=
  if u.started ∧ u.code ≠ 0xff then [0] else []

/-- One octet more. -/
def Unstuffed.octet (u : Unstuffed) (c : UInt8) : Unstuffed :=
  if u.left ≠ 0 then
    { u with out := u.out ++ [c], left := u.left - 1 }
  else
    { out := u.out ++ u.gap, code := c, left := c.toNat - 1, started := true }

/-- What a list of octets that holds no delimiter comes to. -/
def decode (l : List UInt8) : Unstuffed := l.foldl Unstuffed.octet .empty

theorem decode_append_singleton (l : List UInt8) (c : UInt8) :
    decode (l ++ [c]) = (decode l).octet c := by
  rw [decode, List.foldl_append]
  rfl

theorem foldl_octet_data (l : List UInt8) :
    ∀ u : Unstuffed, l.length ≤ u.left →
      l.foldl Unstuffed.octet u = { u with out := u.out ++ l, left := u.left - l.length } := by
  induction l with
  | nil =>
    intro u _
    simp
  | cons c l ih =>
    intro u hu
    simp only [List.length_cons] at hu
    have hne : u.left ≠ 0 := by omega
    have hc : u.octet c = { u with out := u.out ++ [c], left := u.left - 1 } := by
      rw [Unstuffed.octet, if_pos hne]
    rw [List.foldl_cons, hc, ih _ (by simp only; omega)]
    simp only [List.append_assoc, List.singleton_append, List.length_cons,
      Unstuffed.mk.injEq, true_and, and_true]
    omega

theorem foldl_octet_group (l : List UInt8) (u : Unstuffed) (hu : u.left = 0) :
    (UInt8.ofNat ((run 0 l).length + 1) :: run 0 l).foldl Unstuffed.octet u =
      ⟨u.out ++ u.gap ++ run 0 l, UInt8.ofNat ((run 0 l).length + 1), 0, true⟩ := by
  have hc : u.octet (UInt8.ofNat ((run 0 l).length + 1)) =
      ⟨u.out ++ u.gap, UInt8.ofNat ((run 0 l).length + 1), (run 0 l).length, true⟩ := by
    rw [Unstuffed.octet, if_neg (by simp [hu]), toNat_run, Nat.add_sub_cancel]
  rw [List.foldl_cons, hc, foldl_octet_data _ _ (le_refl _)]
  simp

theorem foldl_octet_encode (l : List UInt8) :
    ∀ u : Unstuffed, u.left = 0 → ∃ code,
      (encode 0 l).foldl Unstuffed.octet u = ⟨u.out ++ u.gap ++ l, code, 0, true⟩ := by
  induction l using group_induction (d := 0) with
  | last l h =>
    intro u hu
    have hl : run 0 l = l := by
      have := run_append_drop (d := 0) l
      rwa [h, List.append_nil] at this
    exact ⟨_, by rw [encode_of_end h, foldl_octet_group l u hu, hl]⟩
  | full l c t h hr ih =>
    intro u hu
    obtain ⟨code, hcode⟩ := ih ⟨u.out ++ u.gap ++ run 0 l, UInt8.ofNat ((run 0 l).length + 1), 0, true⟩ rfl
    have hgap : Unstuffed.gap
        ⟨u.out ++ u.gap ++ run 0 l, UInt8.ofNat ((run 0 l).length + 1), 0, true⟩ = [] := by
      rw [Unstuffed.gap, if_neg]
      simp [hr, blockMax]
    refine ⟨code, ?_⟩
    rw [encode_of_full h hr, ← List.cons_append, List.foldl_append, foldl_octet_group l u hu, hcode,
      hgap, List.append_nil, List.append_assoc (u.out ++ u.gap), ← h, run_append_drop]
  | delim l t h hr ih =>
    intro u hu
    obtain ⟨code, hcode⟩ := ih ⟨u.out ++ u.gap ++ run 0 l, UInt8.ofNat ((run 0 l).length + 1), 0, true⟩ rfl
    have hne : UInt8.ofNat ((run 0 l).length + 1) ≠ 0xff := by
      intro he
      have := congrArg UInt8.toNat he
      rw [toNat_run] at this
      have : (run 0 l).length = blockMax := by
        simp only [blockMax]
        have h255 : (0xff : UInt8).toNat = 255 := rfl
        omega
      exact hr this
    have hgap : Unstuffed.gap
        ⟨u.out ++ u.gap ++ run 0 l, UInt8.ofNat ((run 0 l).length + 1), 0, true⟩ = [0] := by
      rw [Unstuffed.gap, if_pos ⟨rfl, hne⟩]
    refine ⟨code, ?_⟩
    rw [encode_of_delim h hr, ← List.cons_append, List.foldl_append, foldl_octet_group l u hu, hcode,
      hgap]
    congr 1
    rw [List.append_assoc, List.append_assoc (u.out ++ u.gap), List.singleton_append, ← h,
      run_append_drop]

/-- Unstuffing what was stuffed gives it back, with no octet missing. -/
theorem decode_encode (l : List UInt8) : (decode (encode 0 l)).out = l ∧ (decode (encode 0 l)).left = 0 := by
  obtain ⟨code, h⟩ := foldl_octet_encode l .empty rfl
  have hgap : Unstuffed.empty.gap = [] := by decide
  rw [decode, h, hgap]
  exact ⟨rfl, rfl⟩

theorem out_prefix_foldl (l : List UInt8) :
    ∀ u : Unstuffed, u.out <+: (l.foldl Unstuffed.octet u).out := by
  induction l with
  | nil =>
    intro u
    exact List.prefix_refl _
  | cons c l ih =>
    intro u
    refine List.IsPrefix.trans ?_ (ih (u.octet c))
    rw [Unstuffed.octet]
    split
    · exact List.prefix_append ..
    · exact List.prefix_append ..

theorem isPrefix_decode_out (l t : List UInt8) : (decode l).out <+: (decode (l ++ t)).out := by
  rw [decode, decode, List.foldl_append]
  exact out_prefix_foldl t _

end Ludlc.Stuffing
