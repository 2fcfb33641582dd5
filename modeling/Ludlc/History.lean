import Ludlc.Steps

/-! # What the history says

The packets a connection has accepted, decided and given back, as its log has them, and what each
step of the core adds to those lists.
-/

namespace Ludlc

variable {w : Wire} {cfg : Cfg w} {β : Type}

/-- The numbered packet that a callback gives back. -/
def Callback.gives : Callback w β → Option (PacketQueueItem w β)
  | .onConfirm .numbered it => some it
  | .onConfirm .expired it => some it
  | _ => none

/-- The unnumbered packet that a callback gives back. -/
def Callback.givesUnnumbered : Callback w β → Option (PacketQueueItem w β)
  | .onConfirm .unnumbered it => some it
  | _ => none

/-- The numbered packets accepted, as their callers handed them over. -/
def acceptedKeys (log : List (Ev w β)) : List (Key w β) :=
  log.filterMap fun
    | .accepted .numbered it => some it.key
    | _ => none

/-- The numbered packets whose result has been decided. -/
def resolvedItems (log : List (Ev w β)) : List (PacketQueueItem w β) :=
  log.filterMap fun
    | .resolved it => some it
    | _ => none

/-- The numbered packets for which `on_confirm` has been called. -/
def confirmedItems (log : List (Ev w β)) : List (PacketQueueItem w β) :=
  log.filterMap fun
    | .call cb => cb.gives
    | _ => none

/-- Those for which it has returned. -/
def returnedItems (log : List (Ev w β)) : List (PacketQueueItem w β) :=
  log.filterMap fun
    | .ret cb => cb.gives
    | _ => none

/-- The unnumbered packets accepted. -/
def acceptedUnnumbered (log : List (Ev w β)) : List (Key w β) :=
  log.filterMap fun
    | .accepted .unnumbered it => some it.key
    | _ => none

/-- The unnumbered packets for which `on_confirm` has been called. -/
def confirmedUnnumbered (log : List (Ev w β)) : List (PacketQueueItem w β) :=
  log.filterMap fun
    | .call cb => cb.givesUnnumbered
    | _ => none

def confirmedKeys (log : List (Ev w β)) : List (Key w β) := (confirmedItems log).map (·.key)

@[simp] theorem acceptedKeys_append (l l' : List (Ev w β)) :
    acceptedKeys (l ++ l') = acceptedKeys l ++ acceptedKeys l' := List.filterMap_append

@[simp] theorem resolvedItems_append (l l' : List (Ev w β)) :
    resolvedItems (l ++ l') = resolvedItems l ++ resolvedItems l' := List.filterMap_append

@[simp] theorem confirmedItems_append (l l' : List (Ev w β)) :
    confirmedItems (l ++ l') = confirmedItems l ++ confirmedItems l' := List.filterMap_append

@[simp] theorem returnedItems_append (l l' : List (Ev w β)) :
    returnedItems (l ++ l') = returnedItems l ++ returnedItems l' := List.filterMap_append

@[simp] theorem acceptedUnnumbered_append (l l' : List (Ev w β)) :
    acceptedUnnumbered (l ++ l') = acceptedUnnumbered l ++ acceptedUnnumbered l' :=
  List.filterMap_append

@[simp] theorem confirmedUnnumbered_append (l l' : List (Ev w β)) :
    confirmedUnnumbered (l ++ l') = confirmedUnnumbered l ++ confirmedUnnumbered l' :=
  List.filterMap_append

@[simp] theorem confirmedKeys_append (l l' : List (Ev w β)) :
    confirmedKeys (l ++ l') = confirmedKeys l ++ confirmedKeys l' := by simp [confirmedKeys]

@[simp] theorem acceptedKeys_nil : acceptedKeys ([] : List (Ev w β)) = [] := rfl

@[simp] theorem confirmedKeys_nil : confirmedKeys ([] : List (Ev w β)) = [] := rfl

@[simp] theorem acceptedKeys_swept : acceptedKeys [(.swept : Ev w β)] = [] := rfl

@[simp] theorem resolvedItems_swept : resolvedItems [(.swept : Ev w β)] = [] := rfl

@[simp] theorem confirmedItems_swept : confirmedItems [(.swept : Ev w β)] = [] := rfl

@[simp] theorem returnedItems_swept : returnedItems [(.swept : Ev w β)] = [] := rfl

/-- An event that says nothing of the numbered packets. -/
def Ev.minor : Ev w β → Bool
  | .accepted kind _ => kind = .unnumbered
  | .resolved _ => false
  | .call cb => cb.gives.isNone
  | .ret cb => cb.gives.isNone
  | .swept => false
  | _ => true

def Quiet (evs : List (Ev w β)) : Prop := ∀ e ∈ evs, e.minor = true

section Quiet

variable {evs : List (Ev w β)}

theorem Quiet.accepted (h : Quiet evs) : acceptedKeys evs = [] := by
  rw [acceptedKeys, List.filterMap_eq_nil_iff]
  intro e he
  have hminor := h e he
  cases e with
  | accepted kind it =>
    obtain rfl : kind = .unnumbered := of_decide_eq_true hminor
    rfl
  | _ => rfl

theorem Quiet.resolved (h : Quiet evs) : resolvedItems evs = [] := by
  rw [resolvedItems, List.filterMap_eq_nil_iff]
  intro e he
  have hminor := h e he
  cases e with
  | resolved it => cases hminor
  | _ => rfl

theorem Quiet.confirmed (h : Quiet evs) : confirmedItems evs = [] := by
  rw [confirmedItems, List.filterMap_eq_nil_iff]
  intro e he
  have hminor := h e he
  cases e with
  | call cb => exact Option.isNone_iff_eq_none.mp hminor
  | _ => rfl

theorem Quiet.returned (h : Quiet evs) : returnedItems evs = [] := by
  rw [returnedItems, List.filterMap_eq_nil_iff]
  intro e he
  have hminor := h e he
  cases e with
  | ret cb => exact Option.isNone_iff_eq_none.mp hminor
  | _ => rfl

theorem Quiet.swept (h : Quiet evs) : .swept ∉ evs := by
  intro hs
  cases h _ hs

theorem quiet_nil : Quiet ([] : List (Ev w β)) := by simp [Quiet]

theorem quiet_cons {e : Ev w β} (he : e.minor = true) (h : Quiet evs) : Quiet (e :: evs) :=
  List.forall_mem_cons.mpr ⟨he, h⟩

theorem quiet_seqReset : Quiet [(.seqReset : Ev w β)] := quiet_cons rfl quiet_nil

theorem quiet_down (c : Conn cfg β) : Quiet (downLog c) := by
  unfold downLog unnumberedLog
  split
  · exact quiet_cons rfl (quiet_cons rfl (quiet_cons rfl quiet_nil))
  · exact quiet_cons rfl quiet_nil

theorem quiet_up (c : Conn cfg β) (p : Packet w) : Quiet (upLog c p) := by
  unfold upLog
  split
  · exact quiet_cons rfl quiet_nil
  · exact quiet_nil

theorem quiet_copy (it : Option (Kind × PacketQueueItem w β)) : Quiet (copyLog it) := by
  unfold copyLog
  split
  · exact quiet_nil
  · split
    · exact quiet_cons rfl quiet_nil
    · exact quiet_nil

theorem quiet_call {cb : Callback w β} (h : cb.gives = none) :
    Quiet [(.call cb : Ev w β), .ret cb] := by
  have hminor : cb.gives.isNone = true := by rw [h]; rfl
  exact quiet_cons hminor (quiet_cons hminor quiet_nil)

end Quiet

theorem resolved_only (items : List (PacketQueueItem w β)) :
    acceptedKeys (items.map .resolved) = [] ∧ resolvedItems (items.map .resolved) = items ∧
      confirmedItems (items.map .resolved) = [] ∧ returnedItems (items.map .resolved) = [] ∧
      (.swept : Ev w β) ∉ items.map .resolved := by
  induction items with
  | nil => simp [acceptedKeys, resolvedItems, confirmedItems, returnedItems]
  | cons it items ih => simp [acceptedKeys, resolvedItems, confirmedItems, returnedItems]

/-- What resolving the packets one after the other adds, in the build that reports inline. -/
theorem resolveLog_inline (hmt : cfg.mt = false) (e : Errno) (items : List (PacketQueueItem w β)) :
    acceptedKeys (items.flatMap fun it => resolveLog cfg (it.resolve e)) = [] ∧
      confirmedKeys (items.flatMap fun it => resolveLog cfg (it.resolve e)) =
        items.map (·.key) ∧
      (.swept : Ev w β) ∉ items.flatMap fun it => resolveLog cfg (it.resolve e) := by
  induction items with
  | nil => simp
  | cons it items ih =>
    obtain ⟨hacc, hconf, hs⟩ := ih
    rw [List.flatMap_cons]
    refine ⟨?_, ?_, ?_⟩
    · rw [acceptedKeys_append, hacc]
      simp [resolveLog, hmt, acceptedKeys]
    · rw [confirmedKeys_append, hconf]
      simp [resolveLog, hmt, confirmedKeys, confirmedItems, Callback.gives]
    · simp only [List.mem_append, not_or]
      exact ⟨by simp [resolveLog, hmt], hs⟩

@[simp] theorem acceptedKeys_accepted (it : PacketQueueItem w β) :
    acceptedKeys [.accepted .numbered it] = [it.key] := rfl

@[simp] theorem confirmedKeys_accepted (it : PacketQueueItem w β) :
    confirmedKeys [.accepted .numbered it] = [] := rfl

/-- Every packet accepted before a sweep returned has been confirmed before. -/
def SweptClean (log : List (Ev w β)) : Prop :=
  ∀ pre, pre ++ [.swept] <+: log → acceptedKeys pre = confirmedKeys pre

theorem SweptClean.append {log evs : List (Ev w β)} (h : SweptClean log) (hs : .swept ∉ evs) :
    SweptClean (log ++ evs) := by
  induction evs generalizing log with
  | nil => simpa using h
  | cons e evs ih =>
    simp only [List.mem_cons, not_or] at hs
    rw [List.append_cons]
    refine ih (fun pre hpre => ?_) hs.2
    rcases List.prefix_concat_iff.mp hpre with heq | hpre
    · exact absurd (List.append_inj_right' heq rfl) (by simpa using hs.1)
    · exact h pre hpre

theorem SweptClean.sweep {log : List (Ev w β)} (h : SweptClean log)
    (hkeys : acceptedKeys log = confirmedKeys log) : SweptClean (log ++ [.swept]) := by
  intro pre hpre
  rcases List.prefix_concat_iff.mp hpre with heq | hpre
  · rw [List.append_cancel_right heq, hkeys]
  · exact h pre hpre

/-- Every packet has a tag of its own, the position in the history at which it was accepted. -/
structure Tagged (keys : List (Key w β)) (n : Nat) : Prop where
  tags : keys.Pairwise fun a b => a.tag < b.tag
  fresh : ∀ k ∈ keys, k.tag < n

theorem tagged_nil : Tagged ([] : List (Key w β)) 0 := ⟨.nil, by simp⟩

/-- At most one packet more is accepted, under a tag not used before. -/
theorem Tagged.append {keys keys' new : List (Key w β)} {n o : Nat} (h : Tagged keys n)
    (hacc : keys' = keys ++ new) (hlen : n + new.length ≤ o) (hone : new.length ≤ 1)
    (htag : ∀ k ∈ new, k.tag = n) : Tagged keys' o where
  tags := by
    rw [hacc, List.pairwise_append]
    refine ⟨h.tags, ?_, fun a ha b hb => htag b hb ▸ h.fresh a ha⟩
    match new, hone with
    | [], _ => exact .nil
    | [k], _ => simp
  fresh := by
    intro k hk
    rw [hacc, List.mem_append] at hk
    rcases hk with hk | hk
    · have := h.fresh k hk
      omega
    · have := htag k hk
      have := List.length_pos_of_mem hk
      omega

theorem Tagged.later {keys keys' : List (Key w β)} {n o : Nat} (h : Tagged keys n)
    (hacc : keys' = keys) (hlen : n ≤ o) : Tagged keys' o :=
  ⟨hacc ▸ h.tags, fun k hk => (h.fresh k (hacc ▸ hk)).trans_le hlen⟩

theorem Tagged.nodup {keys : List (Key w β)} {n : Nat} (h : Tagged keys n) : keys.Nodup :=
  h.tags.imp fun hlt heq => by simp [heq] at hlt

/-- The history accounts for every packet: those accepted are those confirmed and, behind them,
`held`, and a sweep has left none. -/
structure Ledger (log : List (Ev w β)) (held : List (Key w β)) : Prop extends
    Tagged (acceptedKeys log) log.length where
  keys : acceptedKeys log = confirmedKeys log ++ held
  swept : SweptClean log

namespace Ledger

variable {log evs : List (Ev w β)} {held : List (Key w β)}

theorem init : Ledger ([] : List (Ev w β)) [] := by
  refine ⟨tagged_nil, rfl, fun pre h => ?_⟩
  have := h.length_le
  simp at this

theorem confirm (given : List (Key w β)) (h : Ledger log (given ++ held)) (hacc : acceptedKeys evs = [])
    (hconf : confirmedKeys evs = given) (hs : .swept ∉ evs) : Ledger (log ++ evs) held where
  toTagged := h.toTagged.later (by simp [hacc]) (by simp)
  keys := by rw [acceptedKeys_append, confirmedKeys_append, h.keys, hacc, hconf]; simp
  swept := h.swept.append hs

theorem confirmAll (h : Ledger log held) (hacc : acceptedKeys evs = [])
    (hconf : confirmedKeys evs = held) (hs : .swept ∉ evs) : Ledger (log ++ evs) [] :=
  confirm held (by rwa [List.append_nil]) hacc hconf hs

theorem quiet (h : Ledger log held) (hq : Quiet evs) : Ledger (log ++ evs) held :=
  confirm [] h hq.accepted (by simp [confirmedKeys, hq.confirmed]) hq.swept

theorem accept {it : PacketQueueItem w β} (h : Ledger log held) (htag : it.tag = log.length) :
    Ledger (log ++ [.accepted .numbered it]) (held ++ [it.key]) where
  toTagged := h.toTagged.append (show _ = _ ++ [it.key] by simp) (by simp) (by simp) fun k hk => by
    rw [List.mem_singleton.mp hk, PacketQueueItem.key, htag]
  keys := by simp [h.keys]
  swept := h.swept.append (by simp)

theorem sweep (h : Ledger log []) : Ledger (log ++ [.swept]) [] where
  toTagged := h.toTagged.later (by simp) (by simp)
  keys := by simpa [confirmedKeys] using h.keys
  swept := h.swept.sweep (by simpa using h.keys)

end Ledger

end Ludlc
