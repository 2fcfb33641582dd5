import Ludlc.Lib.Stepwise

/-! # A stream from a writer to a reader

The sending half loads items into a writer, lets it fill a buffer and ships octets from the front of
that; the receiving half feeds a reader what has arrived. Whatever the order of these, no octet is
lost or made up on the way, and the items taken are the first of those loaded.
-/

namespace Ludlc.Stream

variable {σ τ ι κ α : Type}

/-- A writer that is handed more than it puts out. -/
def Writer.comap {ι' : Type} (W : Writer σ ι α) (f : ι' → ι) : Writer σ ι' α where
  load s i := W.load s (f i)
  busy := W.busy
  fill := W.fill

def Writer.Lawful.comap {ι' : Type} {W : Writer σ ι α} {good : ι → Prop} {wire : ι → List α}
    (L : W.Lawful good wire) (f : ι' → ι) :
    (W.comap f).Lawful (fun i => good (f i)) (fun i => wire (f i)) where
  Inv := L.Inv
  left := L.left
  idle := L.idle
  load s i := L.load s (f i)
  fill := L.fill

/-! ## The sending half -/

/-- `taken` are the items loaded so far, `sent` the octets shipped. -/
structure Pump (σ ι α : Type) where
  enc : σ
  buf : List α
  taken : List ι
  sent : List α

namespace Pump

variable {W : Writer σ ι α} {good : ι → Prop} {wire : ι → List α} {p p' : Pump σ ι α}

def start (ι α : Type) (e : σ) : Pump σ ι α := ⟨e, [], [], []⟩

def load (W : Writer σ ι α) (p : Pump σ ι α) (i : ι) : Pump σ ι α :=
  { p with enc := W.load p.enc i, taken := p.taken ++ [i] }

/-- The writer fills a span of `cap` octets behind those in the buffer. -/
def fill (W : Writer σ ι α) (p : Pump σ ι α) (cap : Nat) : Option (Pump σ ι α) :=
  (W.fill p.enc cap).map fun r => { p with enc := r.1, buf := p.buf ++ r.2 }

def ship (p : Pump σ ι α) (n : Nat) : Pump σ ι α :=
  { p with buf := p.buf.drop n, sent := p.sent ++ p.buf.take n }

/-- The octets shipped, those in the buffer and those still to be put out are the encodings of the
items loaded. -/
structure Sound (L : W.Lawful good wire) (p : Pump σ ι α) : Prop where
  inv : L.Inv p.enc
  taken : ∀ i ∈ p.taken, good i
  octets : p.sent ++ p.buf ++ L.left p.enc = p.taken.flatMap wire

variable {L : W.Lawful good wire}

theorem Sound.start {e : σ} (he : L.Inv e) (hidle : W.busy e = false) :
    Sound L (Pump.start ι α e) where
  inv := he
  taken := by simp [Pump.start]
  octets := by simp [Pump.start, L.idle e he hidle]

theorem Sound.load (h : Sound L p) (hidle : W.busy p.enc = false) {i : ι} (hi : good i) :
    Sound L (p.load W i) where
  inv := (L.load p.enc i h.inv hidle hi).1
  taken j hj := by
    rcases List.mem_append.mp hj with hj | hj
    · exact h.taken j hj
    · obtain rfl := List.mem_singleton.mp hj
      exact hi
  octets := by
    have hall := h.octets
    rw [L.idle p.enc h.inv hidle, List.append_nil] at hall
    simp only [Pump.load, (L.load p.enc i h.inv hidle hi).2, hall, List.flatMap_append,
      List.flatMap_singleton]

/-- The writer fills a span, and more than nothing of it unless it is idle after that. -/
theorem Sound.fill (h : Sound L p) (hbusy : W.busy p.enc = true) {cap : Nat} (hcap : 0 < cap) :
    ∃ p' l, p.fill W cap = some p' ∧ Sound L p' ∧ p'.buf = p.buf ++ l ∧ l.length ≤ cap ∧
      (l = [] → W.busy p'.enc = false) := by
  obtain ⟨e, hfill, hinv, hleft, hlast⟩ := L.fill p.enc cap h.inv hbusy hcap
  refine ⟨{ p with enc := e, buf := p.buf ++ (L.left p.enc).take cap }, (L.left p.enc).take cap, ?_,
    ⟨hinv, h.taken, ?_⟩, rfl, List.length_take_le .., ?_⟩
  · rw [Pump.fill, hfill, Option.map_some]
  · simp only [hleft]
    rw [← h.octets]
    simp only [List.append_assoc, List.take_append_drop]
  · intro hnil
    apply hlast
    cases hl : L.left p.enc with
    | nil => rfl
    | cons c t =>
      obtain ⟨k, rfl⟩ : ∃ k, cap = k + 1 := ⟨cap - 1, by omega⟩
      rw [hl, List.take_succ_cons] at hnil
      cases hnil

theorem Sound.ship (h : Sound L p) (n : Nat) : Sound L (p.ship n) where
  inv := h.inv
  taken := h.taken
  octets := by
    simp only [Pump.ship]
    rw [List.append_assoc p.sent, List.take_append_drop]
    exact h.octets

/-- What is shipped is the front of the encodings. -/
theorem Sound.sent_first (h : Sound L p) : p.sent <+: p.taken.flatMap wire := by
  rw [← h.octets, List.append_assoc]
  exact List.prefix_append ..

/-- With nothing left to do, all of them have been shipped. -/
theorem Sound.sent_eq (h : Sound L p) (hidle : W.busy p.enc = false) (hbuf : p.buf = []) :
    p.sent = p.taken.flatMap wire := by
  have hall := h.octets
  rw [L.idle p.enc h.inv hidle, hbuf, List.append_nil, List.append_nil] at hall
  exact hall

end Pump

/-! ## The receiving half -/

/-- A call of the reader, with `prep` where it completes an item. -/
def Reader.call (R : Reader τ κ α) (s : τ) (src : List α) : Nat × τ × List κ :=
  let r := R.feed s src
  if r.2.1 then (r.1, R.prep r.2.2, [R.item r.2.2]) else (r.1, r.2.2, [])

theorem Reader.call_items (R : Reader τ κ α) (s : τ) (src : List α) :
    (R.call s src).2.2 = [] ∨ ∃ x, (R.call s src).2.2 = [x] := by
  simp only [Reader.call]
  split
  · exact .inr ⟨_, rfl⟩
  · exact .inl rfl

theorem Reader.Takes.call {R : Reader τ κ α} {s s' : τ} {c : α} (h : R.Takes s c s') (src : List α) :
    R.call s (c :: src) = ((R.call s' src).1 + 1, (R.call s' src).2) := by
  simp only [Reader.call, h.cons]
  split <;> rfl

namespace Reader.Stepwise

variable {R : Reader τ κ α} (S : R.Stepwise)

/-- A reader that takes an octet along steps to where that leaves it. -/
theorem step_takes {s s' : τ} {c : α} (hs : S.Inv s) (h : R.Takes s c s') : S.step s c = (s', []) := by
  have hfeed : R.feed s [c] = (1, false, s') := by rw [h.cons, h.nil]
  have hoct := S.octet s c hs
  generalize hr : S.step s c = r at hoct ⊢
  obtain ⟨t, out⟩ := r
  cases hoct with
  | takes h' =>
    have hfeed' : R.feed s [c] = (1, false, t) := by rw [h'.cons, h'.nil]
    rw [hfeed] at hfeed'
    cases hfeed'
    rfl
  | ends h' =>
    have hfeed' := h' []
    rw [hfeed] at hfeed'
    cases hfeed'
    rfl
  | completes h' =>
    have hfeed' := h' []
    rw [hfeed] at hfeed'
    cases hfeed'
  | leaves h' =>
    have hfeed' := h' []
    rw [hfeed] at hfeed'
    cases hfeed'

/-- What a call takes of the octets, and that it reads out of them what the fold does. -/
structure Fed (s : τ) (src rest : List α) (n : Nat) (s' : τ) (out : List κ) : Prop where
  le : n ≤ src.length
  inv : S.Inv s'
  run : S.run s (src ++ rest) =
    ((S.run s' (src.drop n ++ rest)).1, out ++ (S.run s' (src.drop n ++ rest)).2)

theorem fed (hprep : ∀ s, S.Inv (R.prep s)) (rest : List α) {src : List α} (hne : src ≠ []) :
    ∀ {s : τ}, S.Inv s →
      S.Fed s src rest (R.call s src).1 (R.call s src).2.1 (R.call s src).2.2 := by
  induction src with
  | nil => exact absurd rfl hne
  | cons c src ih =>
    intro s hs
    have hoct := S.octet s c hs
    have hinv := S.inv s c hs
    have hrun : S.run s (c :: src ++ rest) = ((S.run (S.step s c).1 (src ++ rest)).1,
        (S.step s c).2 ++ (S.run (S.step s c).1 (src ++ rest)).2) := rfl
    generalize hr : S.step s c = r at hoct hinv hrun
    obtain ⟨t, out⟩ := r
    cases hoct with
    | takes h =>
      rw [h.call]
      cases src with
      | nil =>
        have hnil : R.call t [] = (0, t, []) := by simp [Reader.call, h.nil]
        rw [hnil]
        exact ⟨le_refl 1, hinv, by simpa using hrun⟩
      | cons d src =>
        obtain ⟨hle, hinv', hrun'⟩ := ih (List.cons_ne_nil d src) hinv
        refine ⟨by simpa using hle, hinv', ?_⟩
        rw [hrun, hrun']
        rfl
    | ends h =>
      have hcall : R.call s (c :: src) = (1, t, []) := by simp [Reader.call, h]
      rw [hcall]
      exact ⟨by simp, hinv, by simpa using hrun⟩
    | @completes s₁ h =>
      have hcall : R.call s (c :: src) = (1, R.prep s₁, [R.item s₁]) := by simp [Reader.call, h]
      rw [hcall]
      exact ⟨by simp, hinv, by simpa using hrun⟩
    | @leaves s₁ _ h ht =>
      have hcall : R.call s (c :: src) = (0, R.prep s₁, [R.item s₁]) := by simp [Reader.call, h]
      rw [hcall]
      have hagain : S.run (R.prep s₁) (c :: src ++ rest) = S.run t (src ++ rest) := by
        rw [List.cons_append, run, S.step_takes (hprep s₁) ht]
        simp
      refine ⟨Nat.zero_le _, hprep s₁, ?_⟩
      rw [List.drop_zero, hagain]
      exact hrun

/-- Out of a front of the encodings of items the reader takes the first of them. -/
def Decodes (start : τ) (good : ι → Prop) (wire : ι → List α) (item : ι → κ) : Prop :=
  ∀ is : List ι, (∀ i ∈ is, good i) → ∀ src, src <+: is.flatMap wire →
    (S.run start src).2 <+: is.map item

/-- What a lawful reader expects of a stream it takes out of it, of a front of the stream the first. -/
theorem run_lawful (L : R.Lawful) {s : τ} (hs : S.Inv s) {is : List κ} {src rest : List α}
    (h : L.Expects s is (src ++ rest)) :
    ∃ is', is = (S.run s src).2 ++ is' ∧ L.Expects (S.run s src).1 is' rest := by
  obtain ⟨fuel, s', out, is', hread, his, hexp⟩ := L.read is s src rest h
  obtain ⟨fuel', hread'⟩ := S.run_reads hs src
  have hmax := Reader.read_mono hread (le_max_left fuel fuel')
  rw [Reader.read_mono hread' (le_max_right fuel fuel'), Option.some.injEq] at hmax
  have hstate : (S.run s src).1 = s' := congrArg Prod.fst hmax
  have hout : (S.run s src).2 = out := congrArg Prod.snd hmax
  rw [hstate, hout]
  exact ⟨is', his, hexp⟩

theorem run_part (L : R.Lawful) {s : τ} (hs : S.Inv s) {is : List κ} {src rest : List α}
    (h : L.Expects s is (src ++ rest)) : (S.run s src).2 <+: is := by
  obtain ⟨is', his, -⟩ := S.run_lawful L hs h
  exact ⟨is', his.symm⟩

theorem run_all (L : R.Lawful) {s : τ} (hs : S.Inv s) {is : List κ} {src : List α}
    (h : L.Expects s is src) : (S.run s src).2 = is := by
  have hend : L.Expects s is (src ++ []) := by rwa [List.append_nil]
  obtain ⟨is', his, hexp⟩ := S.run_lawful L hs hend
  rw [his, L.finished _ is' hexp, List.append_nil]

end Reader.Stepwise

/-! ## Both halves -/

/-- `line` are the octets on their way, `got` the items taken so far. -/
structure Pipe (σ τ ι κ α : Type) extends Pump σ ι α where
  line : List α
  dec : τ
  got : List κ

namespace Pipe

variable {W : Writer σ ι α} {R : Reader τ κ α} {good : ι → Prop} {wire : ι → List α} {item : ι → κ}
  {p p' : Pipe σ τ ι κ α}

def start (ι κ α : Type) (e : σ) (d : τ) : Pipe σ τ ι κ α := ⟨.start ι α e, [], d, []⟩

def load (W : Writer σ ι α) (p : Pipe σ τ ι κ α) (i : ι) : Pipe σ τ ι κ α :=
  { p with toPump := p.toPump.load W i }

def fill (W : Writer σ ι α) (p : Pipe σ τ ι κ α) (cap : Nat) : Option (Pipe σ τ ι κ α) :=
  (p.toPump.fill W cap).map fun q => { p with toPump := q }

def ship (p : Pipe σ τ ι κ α) (n : Nat) : Pipe σ τ ι κ α :=
  { p with toPump := p.toPump.ship n, line := p.line ++ p.buf.take n }

/-- A call of the reader on the first `n` octets that have arrived. -/
def feed (R : Reader τ κ α) (p : Pipe σ τ ι κ α) (n : Nat) : Pipe σ τ ι κ α :=
  let r := R.call p.dec (p.line.take n)
  { p with line := p.line.drop r.1, dec := r.2.1, got := p.got ++ r.2.2 }

/-- The octets the reader has not taken yet. -/
def ahead (L : W.Lawful good wire) (p : Pipe σ τ ι κ α) : List α := p.line ++ p.buf ++ L.left p.enc

/-- The reader is as far as the octets it has taken bring it. -/
structure Sound (L : W.Lawful good wire) (S : R.Stepwise) (d : τ) (p : Pipe σ τ ι κ α) : Prop where
  pump : p.toPump.Sound L
  inv : S.Inv p.dec
  line : ∃ past, past ++ p.line = p.sent
  run : S.run d (p.taken.flatMap wire) =
    ((S.run p.dec (p.ahead L)).1, p.got ++ (S.run p.dec (p.ahead L)).2)

variable {L : W.Lawful good wire} {S : R.Stepwise} {d : τ}

theorem Sound.start {e : σ} (he : L.Inv e) (hidle : W.busy e = false) (hd : S.Inv d) :
    Sound L S d (Pipe.start ι κ α e d) where
  pump := .start he hidle
  inv := hd
  line := ⟨[], rfl⟩
  run := by simp [Pipe.start, Pump.start, Pipe.ahead, L.idle e he hidle, Reader.Stepwise.run]

/-- More octets come behind those the reader has not taken. -/
theorem Sound.more (h : Sound L S d p) (l : List α) :
    S.run d (p.taken.flatMap wire ++ l) = ((S.run p.dec (p.ahead L ++ l)).1,
      p.got ++ (S.run p.dec (p.ahead L ++ l)).2) := by
  rw [S.run_append, S.run_append, h.run, List.append_assoc]

theorem Sound.load (h : Sound L S d p) (hidle : W.busy p.enc = false) {i : ι} (hi : good i) :
    Sound L S d (p.load W i) where
  pump := h.pump.load hidle hi
  inv := h.inv
  line := h.line
  run := by
    have hmore := h.more (wire i)
    simp only [Pipe.ahead, L.idle p.enc h.pump.inv hidle, List.append_nil] at hmore
    simp only [Pipe.ahead, Pipe.load, Pump.load, (L.load p.enc i h.pump.inv hidle hi).2,
      List.flatMap_append, List.flatMap_singleton]
    exact hmore

theorem Sound.fill (h : Sound L S d p) (hbusy : W.busy p.enc = true) {cap : Nat} (hcap : 0 < cap) :
    ∃ p', p.fill W cap = some p' ∧ Sound L S d p' ∧ p'.taken = p.taken ∧ p'.got = p.got := by
  obtain ⟨e, hfill, hinv, hleft, -⟩ := L.fill p.enc cap h.pump.inv hbusy hcap
  obtain ⟨q, l, hq, hpump, -⟩ := h.pump.fill hbusy hcap
  have hfilled : p.toPump.fill W cap =
      some { p.toPump with enc := e, buf := p.buf ++ (L.left p.enc).take cap } := by
    rw [Pump.fill, hfill, Option.map_some]
  rw [hfilled, Option.some.injEq] at hq
  subst hq
  refine ⟨{ p with enc := e, buf := p.buf ++ (L.left p.enc).take cap }, ?_, ⟨hpump, h.inv, h.line, ?_⟩,
    rfl, rfl⟩
  · rw [Pipe.fill, hfilled, Option.map_some]
  · have hrun := h.run
    simp only [Pipe.ahead, hleft, List.append_assoc, List.take_append_drop] at hrun ⊢
    exact hrun

theorem Sound.ship (h : Sound L S d p) (n : Nat) : Sound L S d (p.ship n) where
  pump := h.pump.ship n
  inv := h.inv
  line := by
    obtain ⟨past, hpast⟩ := h.line
    exact ⟨past, by simp only [Pipe.ship, Pump.ship]; rw [← List.append_assoc, hpast]⟩
  run := by
    have hrun := h.run
    simp only [Pipe.ahead] at hrun
    simp only [Pipe.ahead, Pipe.ship, Pump.ship]
    rw [List.append_assoc p.line, List.take_append_drop]
    exact hrun

theorem Sound.feed (h : Sound L S d p) (hprep : ∀ s, S.Inv (R.prep s)) {n : Nat}
    (hne : p.line.take n ≠ []) : Sound L S d (p.feed R n) := by
  obtain ⟨hle, hinv, hrun⟩ := S.fed hprep (p.line.drop n ++ p.buf ++ L.left p.enc) hne h.inv
  have hdrop : (p.line.take n).drop (R.call p.dec (p.line.take n)).1 ++ p.line.drop n =
      p.line.drop (R.call p.dec (p.line.take n)).1 := by
    rw [← List.drop_append_of_le_length hle, List.take_append_drop]
  refine ⟨h.pump, hinv, ?_, ?_⟩
  · obtain ⟨past, hpast⟩ := h.line
    refine ⟨past ++ p.line.take (R.call p.dec (p.line.take n)).1, ?_⟩
    simp only [Pipe.feed]
    rw [List.append_assoc, List.take_append_drop, hpast]
  · have hall := h.run
    have hahead : p.ahead L = p.line.take n ++ (p.line.drop n ++ p.buf ++ L.left p.enc) := by
      simp only [Pipe.ahead, ← List.append_assoc, List.take_append_drop]
    rw [hahead, hrun] at hall
    simp only [Pipe.ahead, Pipe.feed]
    simp only [← List.append_assoc, hdrop] at hall ⊢
    exact hall

/-- The items taken are the first of those loaded. -/
theorem Sound.got_first (h : Sound L S d p) (hdec : S.Decodes d good wire item) :
    p.got <+: p.taken.map item := by
  have hall := hdec p.taken h.pump.taken _ (List.prefix_refl _)
  rw [h.run] at hall
  exact (List.prefix_append ..).trans hall

/-- Nothing is on its way any more. -/
structure Quiet (W : Writer σ ι α) (p : Pipe σ τ ι κ α) : Prop where
  enc : W.busy p.enc = false
  buf : p.buf = []
  line : p.line = []

/-- What the reader has then taken is all it takes out of the encodings. -/
theorem Sound.got_eq (h : Sound L S d p) (hq : p.Quiet W) :
    p.got = (S.run d (p.taken.flatMap wire)).2 := by
  have hahead : p.ahead L = [] := by
    rw [ahead, hq.line, hq.buf, L.idle p.enc h.pump.inv hq.enc]
    rfl
  rw [h.run, hahead]
  exact (List.append_nil _).symm

end Pipe

end Ludlc.Stream
