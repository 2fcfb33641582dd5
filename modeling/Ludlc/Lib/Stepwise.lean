import Ludlc.Lib.Stream

/-! # Readers that go octet by octet

Where what a reader does with an octet is settled by the octet and its state alone, what it reads
out of a stream is a fold over the octets, and no cut of the stream shows in it.
-/

namespace Ludlc.Stream

variable {σ ι α : Type}

/-- What becomes of the octet in front of a reader, whatever follows it: the state it leads to and
the items taken. An octet that completes an item may be left in place, if the reader prepared for
the next item takes it along. -/
inductive Reader.Octet (R : Reader σ ι α) (s : σ) (c : α) : σ → List ι → Prop
  | takes {s' : σ} : R.Takes s c s' → R.Octet s c s' []
  | ends {s' : σ} : (∀ src, R.feed s (c :: src) = (1, false, s')) → R.Octet s c s' []
  | completes {s' : σ} : (∀ src, R.feed s (c :: src) = (1, true, s')) →
      R.Octet s c (R.prep s') [R.item s']
  | leaves {s' t : σ} : (∀ src, R.feed s (c :: src) = (0, true, s')) → R.Takes (R.prep s') c t →
      R.Octet s c t [R.item s']

theorem Reader.Octet.reads {R : Reader σ ι α} {s s' t : σ} {c : α} {src : List α}
    {out out' : List ι} (h : R.Octet s c s' out) (hr : R.Reads s' src t out') :
    R.Reads s (c :: src) t (out ++ out') := by
  cases h with
  | takes h => exact h.reads hr
  | ends h =>
    have hf := h src
    apply Reader.Reads.of_more (List.cons_ne_nil c src)
    · rw [hf]
    · rw [hf]
      exact hr
  | @completes s₁ h =>
    have hf := h src
    have hdone : (R.feed s (c :: src)).2.1 = true := by rw [hf]
    have hnext : R.Reads (R.prep (R.feed s (c :: src)).2.2)
        ((c :: src).drop (R.feed s (c :: src)).1) t out' := by
      rw [hf]
      exact hr
    have := hnext.of_done (List.cons_ne_nil c src) hdone
    rw [hf] at this
    exact this
  | @leaves s₁ _ h ht =>
    have hf := h src
    have hdone : (R.feed s (c :: src)).2.1 = true := by rw [hf]
    have hnext : R.Reads (R.prep (R.feed s (c :: src)).2.2)
        ((c :: src).drop (R.feed s (c :: src)).1) t out' := by
      rw [hf]
      exact ht.reads hr
    have := hnext.of_done (List.cons_ne_nil c src) hdone
    rw [hf] at this
    exact this

/-- A reader that goes octet by octet, and the step it takes on each. -/
structure Reader.Stepwise (R : Reader σ ι α) where
  /-- The states the step is right in. -/
  Inv : σ → Prop
  step : σ → α → σ × List ι
  inv : ∀ s c, Inv s → Inv (step s c).1
  octet : ∀ s c, Inv s → R.Octet s c (step s c).1 (step s c).2

namespace Reader.Stepwise

variable {R : Reader σ ι α} (S : R.Stepwise)

/-- One octet after the other, and the items taken on the way. -/
def run : σ → List α → σ × List ι
  | s, [] => (s, [])
  | s, c :: src => ((run (S.step s c).1 src).1, (S.step s c).2 ++ (run (S.step s c).1 src).2)

theorem run_append (s : σ) (l₁ l₂ : List α) :
    S.run s (l₁ ++ l₂) = ((S.run (S.run s l₁).1 l₂).1, (S.run s l₁).2 ++ (S.run (S.run s l₁).1 l₂).2) := by
  induction l₁ generalizing s with
  | nil => rfl
  | cons c l₁ ih =>
    rw [List.cons_append, run, run, ih]
    simp only [List.append_assoc]

theorem run_inv {s : σ} (h : S.Inv s) (src : List α) : S.Inv (S.run s src).1 := by
  induction src generalizing s with
  | nil => exact h
  | cons c src ih => exact ih (S.inv s c h)

theorem run_reads {s : σ} (h : S.Inv s) (src : List α) :
    R.Reads s src (S.run s src).1 (S.run s src).2 := by
  induction src generalizing s with
  | nil => exact R.reads_nil s
  | cons c src ih => exact (S.octet s c h).reads (ih (S.inv s c h))

/-- However the stream is cut, the reader ends in the state the fold does, with its items. -/
theorem readAll_run (pieces : List (List α)) :
    ∀ {s : σ}, S.Inv s → ∃ fuel, R.readAll fuel s pieces = some (S.run s pieces.flatten) := by
  induction pieces with
  | nil =>
    intro s _
    exact ⟨0, rfl⟩
  | cons l pieces ih =>
    intro s h
    obtain ⟨fuel, hread⟩ := S.run_reads h l
    obtain ⟨fuel', hall⟩ := ih (S.run_inv h l)
    refine ⟨max fuel fuel', ?_⟩
    rw [Reader.readAll, Reader.read_mono hread (le_max_left ..), Option.bind_some,
      Reader.readAll_mono (le_max_right ..) hall, Option.map_some, List.flatten_cons, run_append]

theorem run_alike {Alike : σ → σ → Prop}
    (hstep : ∀ s s' c, Alike s s' →
      Alike (S.step s c).1 (S.step s' c).1 ∧ (S.step s c).2 = (S.step s' c).2)
    (src : List α) : ∀ {s s' : σ}, Alike s s' →
      Alike (S.run s src).1 (S.run s' src).1 ∧ (S.run s src).2 = (S.run s' src).2 := by
  induction src with
  | nil =>
    intro s s' h
    exact ⟨h, rfl⟩
  | cons c src ih =>
    intro s s' h
    obtain ⟨hs, hout⟩ := hstep s s' c h
    obtain ⟨hrun, hrest⟩ := ih hs
    constructor
    · exact hrun
    · rw [run, run, hout, hrest]

end Reader.Stepwise

/-! ## Readers in step -/

/-- From two states the same items are read out of the streams that are `good`, however they are cut
for each. -/
def Reader.SameOn (R : Reader σ ι α) (good : List α → Prop) (s s' : σ) : Prop :=
  ∀ pieces pieces' : List (List α), pieces.flatten = pieces'.flatten → good pieces.flatten →
    ∃ fuel t fuel' t' out, R.readAll fuel s pieces = some (t, out) ∧
      R.readAll fuel' s' pieces' = some (t', out)

/-- From two states the same items are read out of any stream. -/
def Reader.Same (R : Reader σ ι α) (s s' : σ) : Prop := R.SameOn (fun _ => True) s s'

/-- Whatever was read, one boundary brings a reader to where a fresh one is after its first. -/
def Reader.Resyncs (R : Reader σ ι α) (boundary : α) (s fresh : σ) : Prop :=
  ∀ (g : List α) (pieces : List (List α)), pieces.flatten = g ++ [boundary] →
    ∃ fuel t out fuel' t', R.readAll fuel s pieces = some (t, out) ∧
      R.readAll fuel' fresh [[boundary]] = some (t', []) ∧ R.Same t t'

/-- Once `g` was read, `drop` leaves a reader that reads the streams that are `good` as a fresh one
does. -/
def Reader.Drops (R : Reader σ ι α) (drop : σ → σ) (good : List α → Prop) (g : List α)
    (s fresh : σ) : Prop :=
  ∀ pieces : List (List α), pieces.flatten = g →
    ∃ fuel t out, R.readAll fuel s pieces = some (t, out) ∧ R.SameOn good (drop t) fresh

theorem Reader.readAll_unique {R : Reader σ ι α} {fuel fuel' : Nat} {s : σ}
    {pieces : List (List α)} {r r' : σ × List ι} (h : R.readAll fuel s pieces = some r)
    (h' : R.readAll fuel' s pieces = some r') : r = r' := by
  have hmax := Reader.readAll_mono (le_max_left fuel fuel') h
  rw [Reader.readAll_mono (le_max_right fuel fuel') h', Option.some.injEq] at hmax
  exact hmax.symm

namespace Reader.Stepwise

variable {R : Reader σ ι α} (S : R.Stepwise) {Alike : σ → σ → Prop}
  (hstep : ∀ s s' c, Alike s s' →
    Alike (S.step s c).1 (S.step s' c).1 ∧ (S.step s c).2 = (S.step s' c).2)

theorem sameOn_iff {good : List α → Prop} {s s' : σ} (hs : S.Inv s) (hs' : S.Inv s') :
    R.SameOn good s s' ↔ ∀ l, good l → (S.run s l).2 = (S.run s' l).2 := by
  constructor
  · intro h l hl
    have hcut : [l].flatten = l := List.flatten_singleton
    obtain ⟨fuel, t, fuel', t', out, hread, hread'⟩ := h [l] [l] rfl (hcut.symm ▸ hl)
    obtain ⟨n, hrun⟩ := S.readAll_run [l] hs
    obtain ⟨n', hrun'⟩ := S.readAll_run [l] hs'
    rw [hcut] at hrun hrun'
    rw [← Reader.readAll_unique hread hrun, ← Reader.readAll_unique hread' hrun']
  · intro h pieces pieces' hcut hgood
    obtain ⟨fuel, hread⟩ := S.readAll_run pieces hs
    obtain ⟨fuel', hread'⟩ := S.readAll_run pieces' hs'
    refine ⟨fuel, _, fuel', (S.run s' pieces'.flatten).1, (S.run s pieces.flatten).2, hread, ?_⟩
    rw [hread', h _ hgood, hcut]

theorem drops_iff (drop : σ → σ) (s fresh : σ) {good : List α → Prop} {g : List α}
    (hs : S.Inv s) (hfresh : S.Inv fresh) (hdrop : ∀ t, S.Inv t → S.Inv (drop t)) :
    R.Drops drop good g s fresh ↔
      ∀ l, good l → (S.run (drop (S.run s g).1) l).2 = (S.run fresh l).2 := by
  rw [← S.sameOn_iff (hdrop _ (S.run_inv hs g)) hfresh]
  constructor
  · intro h
    have hcut : [g].flatten = g := List.flatten_singleton
    obtain ⟨fuel, t, out, hread, hsame⟩ := h [g] hcut
    obtain ⟨n, hrun⟩ := S.readAll_run [g] hs
    rw [hcut] at hrun
    rwa [← Reader.readAll_unique hread hrun]
  · rintro h pieces rfl
    obtain ⟨fuel, hread⟩ := S.readAll_run pieces hs
    exact ⟨fuel, _, _, hread, h⟩

include hstep in
theorem same {s s' : σ} (hs : S.Inv s) (hs' : S.Inv s') (h : Alike s s') : R.Same s s' := by
  apply (S.sameOn_iff hs hs').mpr
  intro l _
  exact (S.run_alike hstep l h).2

include hstep in
theorem resyncs {boundary : α} {s fresh : σ} (hs : S.Inv s) (hfresh : S.Inv fresh)
    (hsilent : (S.step fresh boundary).2 = [])
    (hbound : ∀ t, S.Inv t → Alike (S.step t boundary).1 (S.step fresh boundary).1) :
    R.Resyncs boundary s fresh := by
  intro g pieces hcut
  obtain ⟨fuel, hread⟩ := S.readAll_run pieces hs
  obtain ⟨fuel', hread'⟩ := S.readAll_run [[boundary]] hfresh
  have hrun : S.run fresh [[boundary]].flatten = ((S.step fresh boundary).1, []) := by
    change (_, (S.step fresh boundary).2 ++ []) = _
    rw [hsilent]
    rfl
  have hend : (S.run s pieces.flatten).1 = (S.step (S.run s g).1 boundary).1 := by
    rw [hcut, run_append]
    rfl
  rw [hrun] at hread'
  refine ⟨fuel, _, _, fuel', _, hread, hread', ?_⟩
  have hg := S.run_inv hs g
  apply S.same hstep
  · exact S.run_inv hs _
  · exact S.inv _ _ hfresh
  · rw [hend]
    exact hbound _ hg

end Reader.Stepwise

/-! ## Nothing depends on the cuts -/

/-- The octets put out for an item are the same for any sizes of the buffers filled, and the writer
is idle after finitely many of them. -/
def Writer.CutFree (W : Writer σ ι α) (s : σ) : Prop :=
  ∀ i : ι, ∃ wire : List α, ∀ caps : Nat → Nat, (∀ k, 0 < caps k) →
    ∃ fuel s' k, W.flush caps fuel 0 (W.load s i) = some (s', k, wire) ∧ W.busy s' = false

/-- The items read out of a stream, and the state after it, are the same for any cut of it. -/
def Reader.CutFree (R : Reader σ ι α) (s : σ) : Prop :=
  ∀ src : List α, ∃ s' out, ∀ pieces : List (List α), pieces.flatten = src →
    ∃ fuel, R.readAll fuel s pieces = some (s', out)

theorem Writer.Lawful.cutFree {W : Writer σ ι α} {good : ι → Prop} {wire : ι → List α}
    (L : W.Lawful good wire) {s : σ} (hs : L.Inv s) (hidle : W.busy s = false)
    (hbad : ∀ i, ¬ good i → W.busy (W.load s i) = false) : W.CutFree s := by
  intro i
  rcases Classical.em (good i) with hgood | hnot
  · obtain ⟨hinv, hwire⟩ := L.load s i hs hidle hgood
    refine ⟨wire i, fun caps hcaps => ?_⟩
    obtain ⟨fuel, s', k, hflush, _, hb⟩ := L.flush hcaps (W.load s i) hinv 0
    rw [hwire] at hflush
    exact ⟨fuel, s', k, hflush, hb⟩
  · -- nothing was loaded
    have hb := hbad i hnot
    refine ⟨[], fun caps _ => ⟨1, W.load s i, 0, ?_, hb⟩⟩
    rw [Writer.flush, if_neg (by simp [hb])]

theorem Reader.Stepwise.cutFree {R : Reader σ ι α} (S : R.Stepwise) {s : σ} (h : S.Inv s) :
    R.CutFree s := by
  intro src
  refine ⟨(S.run s src).1, (S.run s src).2, ?_⟩
  rintro pieces rfl
  exact S.readAll_run pieces h

end Ludlc.Stream
