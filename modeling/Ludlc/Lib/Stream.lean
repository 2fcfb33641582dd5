import Mathlib

/-! # Items carried over a stream of octets

A writer puts out what encodes an item in buffers of any size, a reader takes octets as they come
and stops where an item is complete. The laws below say what a step of each does to the octets
still to come; what follows is that nothing depends on how the stream is cut.
-/

namespace Ludlc.Stream

variable {σ ι α : Type}

/-- An encoder with one item loaded at a time. -/
structure Writer (σ ι α : Type) where
  load : σ → ι → σ
  busy : σ → Bool
  /-- Fills a buffer of the size given; `none` where that never ends. -/
  fill : σ → Nat → Option (σ × List α)

/-- Fills buffers of the sizes `caps`, from the `k`th on, until the writer is idle. -/
def Writer.flush (W : Writer σ ι α) (caps : Nat → Nat) : Nat → Nat → σ → Option (σ × Nat × List α)
  | 0, _, _ => none
  | fuel + 1, k, s =>
    if W.busy s then
      (W.fill s (caps k)).bind fun r =>
        (W.flush caps fuel (k + 1) r.1).map fun t => (t.1, t.2.1, r.2 ++ t.2.2)
    else
      some (s, k, [])

/-- Sends one item after another. -/
def Writer.send (W : Writer σ ι α) (caps : Nat → Nat) (fuel : Nat) :
    Nat → σ → List ι → Option (σ × List α)
  | _, s, [] => some (s, [])
  | k, s, i :: is =>
    (W.flush caps fuel k (W.load s i)).bind fun r =>
      (W.send caps fuel r.2.1 r.1 is).map fun t => (t.1, r.2.2 ++ t.2)

theorem Writer.flush_mono {W : Writer σ ι α} {caps : Nat → Nat} {fuel fuel' k : Nat} {s : σ}
    {r : σ × Nat × List α} (h : W.flush caps fuel k s = some r) (hle : fuel ≤ fuel') :
    W.flush caps fuel' k s = some r := by
  induction fuel generalizing fuel' k s r with
  | zero => cases h
  | succ fuel ih =>
    obtain ⟨fuel', rfl⟩ : ∃ n, fuel' = n + 1 := ⟨fuel' - 1, by omega⟩
    rw [Writer.flush] at h ⊢
    split at h
    · rename_i hb
      rw [if_pos hb]
      obtain ⟨t, ht, h⟩ := Option.bind_eq_some_iff.mp h
      obtain ⟨u, hu, rfl⟩ := Option.map_eq_some_iff.mp h
      rw [ht, Option.bind_some, ih hu (by omega), Option.map_some]
    · rename_i hb
      rw [if_neg hb]
      exact h

theorem Writer.flush_unique {W : Writer σ ι α} {caps : Nat → Nat} {fuel fuel' k k₁ k₂ : Nat}
    {s s₁ s₂ : σ} {l₁ l₂ : List α} (h₁ : W.flush caps fuel k s = some (s₁, k₁, l₁))
    (h₂ : W.flush caps fuel' k s = some (s₂, k₂, l₂)) : s₁ = s₂ ∧ k₁ = k₂ ∧ l₁ = l₂ := by
  have hmax := Writer.flush_mono h₁ (le_max_left fuel fuel')
  rw [Writer.flush_mono h₂ (le_max_right fuel fuel'), Option.some.injEq, Prod.mk.injEq,
    Prod.mk.injEq] at hmax
  exact ⟨hmax.1.symm, hmax.2.1.symm, hmax.2.2.symm⟩

theorem Writer.send_mono {W : Writer σ ι α} {caps : Nat → Nat} {fuel fuel' : Nat} {is : List ι}
    (hle : fuel ≤ fuel') : ∀ {k : Nat} {s : σ} {r : σ × List α},
      W.send caps fuel k s is = some r → W.send caps fuel' k s is = some r := by
  induction is with
  | nil =>
    intro k s r h
    exact h
  | cons i is ih =>
    intro k s r h
    rw [Writer.send] at h ⊢
    obtain ⟨t, ht, h⟩ := Option.bind_eq_some_iff.mp h
    obtain ⟨u, hu, rfl⟩ := Option.map_eq_some_iff.mp h
    rw [Writer.flush_mono ht hle, Option.bind_some, ih hu, Option.map_some]

/-- What a writer does, told by what it still has to put out. -/
structure Writer.Lawful (W : Writer σ ι α) (good : ι → Prop) (wire : ι → List α) where
  /-- The states reached while an item is written. -/
  Inv : σ → Prop
  left : σ → List α
  idle : ∀ s, Inv s → W.busy s = false → left s = []
  load : ∀ s i, Inv s → W.busy s = false → good i → Inv (W.load s i) ∧ left (W.load s i) = wire i
  fill : ∀ s cap, Inv s → W.busy s = true → 0 < cap →
    ∃ s', W.fill s cap = some (s', (left s).take cap) ∧ Inv s' ∧ left s' = (left s).drop cap ∧
      (left s = [] → W.busy s' = false)

/-- A writer that is lawful for some items is for fewer. -/
def Writer.Lawful.restrict {W : Writer σ ι α} {good good' : ι → Prop} {wire : ι → List α}
    (L : W.Lawful good wire) (hgood : ∀ i, good' i → good i) : W.Lawful good' wire :=
  { L with load := fun s i hs hb hi => L.load s i hs hb (hgood i hi) }

theorem Writer.Lawful.flush {W : Writer σ ι α} {good : ι → Prop} {wire : ι → List α}
    (L : W.Lawful good wire) {caps : Nat → Nat} (hcaps : ∀ k, 0 < caps k) (s : σ) (hs : L.Inv s)
    (k : Nat) : ∃ fuel s' k', W.flush caps fuel k s = some (s', k', L.left s) ∧ L.Inv s' ∧
      W.busy s' = false := by
  induction hn : (L.left s).length using Nat.strong_induction_on generalizing s k with
  | _ n ih =>
    cases hb : W.busy s with
    | false =>
      refine ⟨1, s, k, ?_, hs, hb⟩
      rw [Writer.flush, hb, L.idle s hs hb]
      rfl
    | true =>
      obtain ⟨s', hfill, hs', hleft, hlast⟩ := L.fill s (caps k) hs hb (hcaps k)
      cases hl : L.left s with
      | nil =>
        refine ⟨2, s', k + 1, ?_, hs', hlast hl⟩
        rw [Writer.flush, if_pos hb, hfill, Option.bind_some, Writer.flush,
          if_neg (by simp [hlast hl]), hl, List.take_nil]
        rfl
      | cons c t =>
        have hcap := hcaps k
        have hlen : (L.left s').length < n := by
          rw [hleft, List.length_drop, ← hn, hl, List.length_cons]
          omega
        obtain ⟨fuel, s'', k', hrec, hs'', hb''⟩ := ih _ hlen s' hs' (k + 1) rfl
        refine ⟨fuel + 1, s'', k', ?_, hs'', hb''⟩
        rw [Writer.flush, if_pos hb, hfill, Option.bind_some, hrec, Option.map_some, hleft,
          List.take_append_drop, hl]

/-- However the buffers are sized, a lawful writer puts out the encodings of its items. -/
theorem Writer.Lawful.send {W : Writer σ ι α} {good : ι → Prop} {wire : ι → List α}
    (L : W.Lawful good wire) {caps : Nat → Nat} (hcaps : ∀ k, 0 < caps k) (is : List ι) :
    ∀ (s : σ) (k : Nat), L.Inv s → W.busy s = false → (∀ i ∈ is, good i) →
      ∃ fuel s', W.send caps fuel k s is = some (s', is.flatMap wire) := by
  induction is with
  | nil =>
    intro s k _ _ _
    exact ⟨0, s, rfl⟩
  | cons i is ih =>
    intro s k hs hb hgood
    obtain ⟨hinv, hwire⟩ := L.load s i hs hb (hgood i (List.mem_cons_self ..))
    obtain ⟨fuel, s', k', hflush, hs', hb'⟩ := L.flush hcaps (W.load s i) hinv k
    obtain ⟨fuel', s'', hsend⟩ := ih s' k' hs' hb' fun j hj => hgood j (List.mem_cons_of_mem i hj)
    refine ⟨max fuel fuel', s'', ?_⟩
    rw [Writer.send, Writer.flush_mono hflush (le_max_left ..), Option.bind_some,
      Writer.send_mono (le_max_right ..) hsend, Option.map_some, hwire, List.flatMap_cons]

/-! ## Filling a buffer turn by turn -/

/-- The loop of an encoder: turns are taken while there is room and the encoder is busy, at most
`fuel` of them; `none` where that is not enough. A turn is told the room there is. -/
def fillLoop (busy : σ → Bool) (turn : Nat → σ → σ × List α) :
    Nat → σ → Nat → Option (σ × List α)
  | 0, _, _ => none
  | fuel + 1, s, room =>
    if room = 0 ∨ busy s = false then some (s, [])
    else
      (fillLoop busy turn fuel (turn room s).1 (room - (turn room s).2.length)).map fun t =>
        (t.1, (turn room s).2 ++ t.2)

/-- What a turn of a loop does to what is left to put out. Turns that put nothing out use up
`rank`, of which an octet gives back at most one. -/
structure Turn (Inv : σ → Prop) (left : σ → List α) (rank : σ → Nat) (room : Nat) (s : σ)
    (r : σ × List α) : Prop where
  inv : Inv r.1
  left : left s = r.2 ++ left r.1
  fits : r.2.length ≤ room
  rank : rank r.1 < rank s + 2 * r.2.length

theorem fillLoop_spec {busy : σ → Bool} {turn : Nat → σ → σ × List α} {Inv : σ → Prop}
    {left : σ → List α} {rank : σ → Nat} (hidle : ∀ s, Inv s → busy s = false → left s = [])
    (hturn : ∀ s room, Inv s → busy s = true → 0 < room →
      Turn Inv left rank room s (turn room s)) (fuel : Nat) :
    ∀ (s : σ) (room : Nat), Inv s → 2 * room + rank s < fuel →
      ∃ s', fillLoop busy turn fuel s room = some (s', (left s).take room) ∧ Inv s' ∧
        left s' = (left s).drop room ∧ (left s = [] → 0 < room → busy s' = false) := by
  induction fuel with
  | zero =>
    intro s room _ hf
    omega
  | succ fuel ih =>
    intro s room hs hf
    rw [fillLoop]
    by_cases hstop : room = 0 ∨ busy s = false
    · rw [if_pos hstop]
      rcases hstop with h0 | hb
      · subst h0
        exact ⟨s, rfl, hs, rfl, fun _ h => absurd h (lt_irrefl 0)⟩
      · rw [hidle s hs hb]
        exact ⟨s, by rw [List.take_nil], hs, by rw [hidle s hs hb, List.drop_nil], fun _ _ => hb⟩
    · rw [if_neg hstop]
      rw [not_or, Bool.not_eq_false] at hstop
      obtain ⟨h0, hb⟩ := hstop
      have ht := hturn s room hs hb (Nat.pos_of_ne_zero h0)
      generalize turn room s = r at ht ⊢
      have hfits := ht.fits
      have hrank := ht.rank
      obtain ⟨s', hloop, hs', hleft, hlast⟩ := ih r.1 (room - r.2.length) ht.inv (by omega)
      refine ⟨s', ?_, hs', ?_, ?_⟩
      · rw [hloop, Option.map_some, ht.left, List.take_append, List.take_of_length_le hfits]
      · rw [hleft, ht.left, List.drop_append, List.drop_of_length_le hfits, List.nil_append]
      · intro hnil hroom
        rw [ht.left, List.append_eq_nil_iff] at hnil
        refine hlast hnil.2 ?_
        rw [hnil.1]
        exact hroom

/-- A decoder: it takes octets up to where an item is complete. -/
structure Reader (σ ι α : Type) where
  /-- How many octets it took, whether an item is complete, and the state. -/
  feed : σ → List α → Nat × Bool × σ
  item : σ → ι
  prep : σ → σ

/-- Feeds a buffer to its end, taking each item and preparing for the next. -/
def Reader.read (R : Reader σ ι α) : Nat → σ → List α → Option (σ × List ι)
  | 0, _, _ => none
  | fuel + 1, s, src =>
    if src.isEmpty then
      some (s, [])
    else if (R.feed s src).2.1 then
      (R.read fuel (R.prep (R.feed s src).2.2) (src.drop (R.feed s src).1)).map fun t =>
        (t.1, R.item (R.feed s src).2.2 :: t.2)
    else
      R.read fuel (R.feed s src).2.2 (src.drop (R.feed s src).1)

/-- Feeds one buffer after another. -/
def Reader.readAll (R : Reader σ ι α) (fuel : Nat) : σ → List (List α) → Option (σ × List ι)
  | s, [] => some (s, [])
  | s, c :: cs =>
    (R.read fuel s c).bind fun r => (R.readAll fuel r.1 cs).map fun t => (t.1, r.2 ++ t.2)

theorem Reader.read_mono {R : Reader σ ι α} {fuel fuel' : Nat} {s : σ} {src : List α}
    {r : σ × List ι} (h : R.read fuel s src = some r) (hle : fuel ≤ fuel') :
    R.read fuel' s src = some r := by
  induction fuel generalizing fuel' s src r with
  | zero => cases h
  | succ fuel ih =>
    obtain ⟨fuel', rfl⟩ : ∃ n, fuel' = n + 1 := ⟨fuel' - 1, by omega⟩
    rw [Reader.read] at h ⊢
    split at h
    · rename_i he
      rw [if_pos he]
      exact h
    · rename_i he
      rw [if_neg he]
      split at h
      · rename_i hd
        obtain ⟨t, ht, rfl⟩ := Option.map_eq_some_iff.mp h
        rw [if_pos hd, ih ht (by omega), Option.map_some]
      · rename_i hd
        rw [if_neg hd]
        exact ih h (by omega)

theorem Reader.readAll_mono {R : Reader σ ι α} {fuel fuel' : Nat} {cs : List (List α)}
    (hle : fuel ≤ fuel') : ∀ {s : σ} {r : σ × List ι},
      R.readAll fuel s cs = some r → R.readAll fuel' s cs = some r := by
  induction cs with
  | nil =>
    intro s r h
    exact h
  | cons c cs ih =>
    intro s r h
    rw [Reader.readAll] at h ⊢
    obtain ⟨t, ht, h⟩ := Option.bind_eq_some_iff.mp h
    obtain ⟨u, hu, rfl⟩ := Option.map_eq_some_iff.mp h
    rw [Reader.read_mono ht hle, Option.bind_some, ih hu, Option.map_some]

/-- A buffer is fed to its end, and these are the items taken. -/
def Reader.Reads (R : Reader σ ι α) (s : σ) (src : List α) (s' : σ) (out : List ι) : Prop :=
  ∃ fuel, R.read fuel s src = some (s', out)

/-- The end of the buffer is never reached. -/
def Reader.Stuck (R : Reader σ ι α) (s : σ) (src : List α) : Prop :=
  ∀ fuel, R.read fuel s src = none

theorem Reader.reads_nil (R : Reader σ ι α) (s : σ) : R.Reads s [] s [] := ⟨1, rfl⟩

theorem Reader.Reads.eq_of_nil {R : Reader σ ι α} {s s' : σ} {out : List ι}
    (h : R.Reads s [] s' out) : s' = s ∧ out = [] := by
  obtain ⟨fuel, hread⟩ := h
  cases fuel with
  | zero => cases hread
  | succ fuel =>
    cases hread
    exact ⟨rfl, rfl⟩

theorem Reader.Reads.not_stuck {R : Reader σ ι α} {s s' : σ} {src : List α} {out : List ι}
    (h : R.Reads s src s' out) : ¬ R.Stuck s src := by
  obtain ⟨fuel, hread⟩ := h
  intro hstuck
  rw [hstuck fuel] at hread
  cases hread

/-- An octet that completes nothing is taken along with the ones after it. -/
structure Reader.Takes (R : Reader σ ι α) (s : σ) (c : α) (s' : σ) : Prop where
  nil : R.feed s' [] = (0, false, s')
  cons : ∀ src, R.feed s (c :: src) = ((R.feed s' src).1 + 1, (R.feed s' src).2)

theorem Reader.Takes.read {R : Reader σ ι α} {s s' : σ} {c d : α} (h : R.Takes s c s')
    (fuel : Nat) (src : List α) : R.read fuel s (c :: d :: src) = R.read fuel s' (d :: src) := by
  cases fuel with
  | zero => rfl
  | succ fuel =>
    rw [Reader.read, Reader.read, h.cons]
    rfl

theorem Reader.Takes.reads {R : Reader σ ι α} {s s' t : σ} {c : α} {src : List α} {out : List ι}
    (h : R.Takes s c s') (hr : R.Reads s' src t out) : R.Reads s (c :: src) t out := by
  cases src with
  | nil =>
    obtain ⟨rfl, rfl⟩ := hr.eq_of_nil
    refine ⟨2, ?_⟩
    rw [Reader.read, h.cons, h.nil]
    rfl
  | cons d src =>
    obtain ⟨fuel, hread⟩ := hr
    exact ⟨fuel, (h.read fuel src).trans hread⟩

theorem Reader.Takes.stuck {R : Reader σ ι α} {s s' : σ} {c : α} {src : List α}
    (h : R.Takes s c s') (hs : R.Stuck s' src) : R.Stuck s (c :: src) := by
  cases src with
  | nil => exact absurd hs (R.reads_nil s').not_stuck
  | cons d src =>
    intro fuel
    exact (h.read fuel src).trans (hs fuel)

/-- A completed item is taken, and the rest of the buffer fed to the reader prepared again. -/
theorem Reader.read_done {R : Reader σ ι α} {s : σ} {src : List α} (hne : src ≠ [])
    (hd : (R.feed s src).2.1 = true) (fuel : Nat) :
    R.read (fuel + 1) s src =
      (R.read fuel (R.prep (R.feed s src).2.2) (src.drop (R.feed s src).1)).map fun t =>
        (t.1, R.item (R.feed s src).2.2 :: t.2) := by
  rw [Reader.read, if_neg (by simpa using hne), if_pos hd]

theorem Reader.Reads.of_done {R : Reader σ ι α} {s t : σ} {src : List α} {out : List ι}
    (h : R.Reads (R.prep (R.feed s src).2.2) (src.drop (R.feed s src).1) t out)
    (hne : src ≠ []) (hd : (R.feed s src).2.1 = true) :
    R.Reads s src t (R.item (R.feed s src).2.2 :: out) := by
  obtain ⟨fuel, hread⟩ := h
  refine ⟨fuel + 1, ?_⟩
  rw [Reader.read_done hne hd, hread]
  rfl

theorem Reader.Reads.of_more {R : Reader σ ι α} {s t : σ} {src : List α} {out : List ι}
    (hne : src ≠ []) (hd : (R.feed s src).2.1 = false)
    (h : R.Reads (R.feed s src).2.2 (src.drop (R.feed s src).1) t out) : R.Reads s src t out := by
  obtain ⟨fuel, hread⟩ := h
  refine ⟨fuel + 1, ?_⟩
  rw [Reader.read, if_neg (by simpa using hne), if_neg (by simp [hd])]
  exact hread

/-- What a reader does, told by the items that the octets still to come hold. -/
structure Reader.Lawful (R : Reader σ ι α) where
  /-- In this state these items are read out of these octets. -/
  Expects : σ → List ι → List α → Prop
  finished : ∀ s is, Expects s is [] → is = []
  feed : ∀ s is src rest, src ≠ [] → Expects s is (src ++ rest) →
    ((R.feed s src).2.1 = true → ∃ is', is = R.item (R.feed s src).2.2 :: is' ∧
      Expects (R.prep (R.feed s src).2.2) is' (src.drop (R.feed s src).1 ++ rest)) ∧
    ((R.feed s src).2.1 = false → (R.feed s src).1 = src.length ∧
      Expects (R.feed s src).2.2 is rest)

theorem Reader.Lawful.read {R : Reader σ ι α} (L : R.Lawful) (is : List ι) :
    ∀ (s : σ) (src rest : List α), L.Expects s is (src ++ rest) →
      ∃ fuel s' out is', R.read fuel s src = some (s', out) ∧ is = out ++ is' ∧
        L.Expects s' is' rest := by
  induction is with
  | nil =>
    intro s src rest h
    cases hs : src with
    | nil =>
      rw [hs] at h
      exact ⟨1, s, [], [], rfl, rfl, h⟩
    | cons c t =>
      rw [hs] at h
      obtain ⟨hdone, hmore⟩ := L.feed s [] (c :: t) rest (by simp) h
      cases hd : (R.feed s (c :: t)).2.1 with
      | true =>
        obtain ⟨is', his, _⟩ := hdone hd
        cases his
      | false =>
        obtain ⟨hn, hexp⟩ := hmore hd
        refine ⟨2, (R.feed s (c :: t)).2.2, [], [], ?_, rfl, hexp⟩
        rw [Reader.read, if_neg (by simp), if_neg (by simp [hd]), hn, List.drop_length]
        rfl
  | cons i is ih =>
    intro s src rest h
    cases hs : src with
    | nil =>
      rw [hs] at h
      exact ⟨1, s, [], i :: is, rfl, rfl, h⟩
    | cons c t =>
      rw [hs] at h
      obtain ⟨hdone, hmore⟩ := L.feed s (i :: is) (c :: t) rest (by simp) h
      cases hd : (R.feed s (c :: t)).2.1 with
      | true =>
        obtain ⟨is', his, hexp⟩ := hdone hd
        cases his
        obtain ⟨fuel, s', out, is', hread, rfl, hexp'⟩ := ih _ _ rest hexp
        refine ⟨fuel + 1, s', R.item (R.feed s (c :: t)).2.2 :: out, is', ?_, rfl, hexp'⟩
        rw [Reader.read, if_neg (by simp), if_pos hd, hread]
        rfl
      | false =>
        obtain ⟨hn, hexp⟩ := hmore hd
        refine ⟨2, (R.feed s (c :: t)).2.2, [], i :: is, ?_, rfl, hexp⟩
        rw [Reader.read, if_neg (by simp), if_neg (by simp [hd]), hn, List.drop_length]
        rfl

/-- However the stream is cut, a lawful reader takes the items it holds out of it. -/
theorem Reader.Lawful.readAll {R : Reader σ ι α} (L : R.Lawful) (cs : List (List α)) :
    ∀ (s : σ) (is : List ι), L.Expects s is cs.flatten →
      ∃ fuel s', R.readAll fuel s cs = some (s', is) := by
  induction cs with
  | nil =>
    intro s is h
    have := L.finished s is h
    subst this
    exact ⟨0, s, rfl⟩
  | cons c cs ih =>
    intro s is h
    obtain ⟨fuel, s', out, is', hread, rfl, hexp⟩ := L.read is s c cs.flatten h
    obtain ⟨fuel', s'', hall⟩ := ih s' is' hexp
    refine ⟨max fuel fuel', s'', ?_⟩
    rw [Reader.readAll, Reader.read_mono hread (le_max_left ..), Option.bind_some,
      Reader.readAll_mono (le_max_right ..) hall, Option.map_some]

end Ludlc.Stream
