import DistributedKV.Cache.LRUCache

/-!
# What the cache is for

An abstract cache (`Recency`): a bounded recency list and three counters, without pointers or map.
What callers rely on is said by the history of the calls alone, newest first (`age`, `current`,
`getsSinceClear`). `Recalls r history` says that the abstract cache agrees with its history, and
`Recalls.call` that every call keeps it so, as long as the clock does not go back.
-/

namespace DistributedKV.Cache

open Entry List RecencyList

/-! ## The abstract cache -/

/-- A bounded recency list with the counters of the cache. -/
structure Recency where
  list : RecencyList Key Bytes Time
  hits : Int64
  misses : Int64
  evictions : Int64

namespace Recency

/-- A new cache, of the default capacity where the one asked for is not positive. -/
def new (capacity : Int) : Recency where
  list := RecencyList.empty (if capacity ≤ 0 then 1000 else capacity).toNat (by split <;> omega)
  hits := 0
  misses := 0
  evictions := 0

/-- The key is not held and there is no room for it. -/
def Overflows (r : Recency) (key : Key) : Prop :=
  key ∉ r.list.keys ∧ r.list.entries.length = r.list.capacity

instance (r : Recency) (key : Key) : Decidable (r.Overflows key) :=
  inferInstanceAs (Decidable (_ ∧ _))

def get (r : Recency) (now : Time) (key : Key) : Recency × Option Bytes :=
  match r.list.find key with
  | none => ({ r with misses := r.misses + 1 }, none)
  | some e =>
    if Stale now e.expiresAt then
      ({ r with list := r.list.remove key, misses := r.misses + 1 }, none)
    else ({ r with list := r.list.record e, hits := r.hits + 1 }, some e.value)

def put (r : Recency) (now : Time) (key : Key) (value : Bytes) (ttl : Duration) : Recency :=
  { r with
    list := r.list.record ⟨key, value, expiry now ttl⟩
    evictions := if r.Overflows key then r.evictions + 1 else r.evictions }

def call (r : Recency) (now : Time) : Call → Recency × Result
  | .get key => ((r.get now key).1, .value (r.get now key).2)
  | .put key value ttl => (r.put now key value ttl, .flag true)
  | .delete key => ({ r with list := r.list.remove key }, .flag (r.list.find key).isSome)
  | .clear => ({ list := r.list.clear, hits := 0, misses := 0, evictions := 0 }, .done)
  | .cleanupExpired _ =>
    ({ r with list := r.list.expire now },
      .count (r.list.entries.countP fun e => Stale now e.expiresAt))

section

variable {r : Recency} {now : Time} {key : Key} {e : Item}

theorem get_of_none (h : r.list.find key = none) :
    r.get now key = ({ r with misses := r.misses + 1 }, none) := by
  simp [get, h]

theorem get_of_stale (h : r.list.find key = some e) (hstale : Stale now e.expiresAt) :
    r.get now key = ({ r with list := r.list.remove key, misses := r.misses + 1 }, none) := by
  simp [get, h, hstale]

theorem get_of_live (h : r.list.find key = some e) (hlive : ¬ Stale now e.expiresAt) :
    r.get now key = ({ r with list := r.list.record e, hits := r.hits + 1 }, some e.value) := by
  simp [get, h, hlive]

end

/-- A run of calls and their results. -/
def run (r : Recency) : List (Time × Call) → Recency × List Result
  | [] => (r, [])
  | (now, c) :: calls =>
    let rest := (r.call now c).1.run calls
    (rest.1, (r.call now c).2 :: rest.2)

theorem capacity_call (r : Recency) (now : Time) (c : Call) :
    (r.call now c).1.list.capacity = r.list.capacity := by
  cases c with
  | get key =>
    show (r.get now key).1.list.capacity = r.list.capacity
    unfold get
    split
    · rfl
    · split <;> rfl
  | put | delete | clear | cleanupExpired => rfl

theorem capacity_run (r : Recency) (calls : List (Time × Call)) :
    (r.run calls).1.list.capacity = r.list.capacity := by
  induction calls generalizing r with
  | nil => rfl
  | cons t calls ih => exact (ih _).trans (capacity_call r t.1 t.2)

end Recency

/-! ## Histories -/

/-- A call that was made: its clock, its result, and the keys that it removed from the cache. -/
structure Event where
  now : Time
  call : Call
  result : Result
  dropped : List Key

/-- The call used the key: it put it, or it looked it up and found it. -/
def Event.uses (ev : Event) (k : Key) : Bool :=
  match ev.call, ev.result with
  | .put key _ _, _ => key = k
  | .get key, .value (some _) => key = k
  | _, _ => false

/-- The number of calls since the key was last used. -/
def age (history : List Event) (k : Key) : Nat :=
  history.findIdx fun ev => ev.uses k

/-- The value of the last `Put` of the key and its expiry, unless it was deleted, cleared or
dropped since. -/
def bound (k : Key) : List Event → Option (Bytes × Option Time)
  | [] => none
  | ev :: history =>
    match ev.call with
    | .put key value ttl =>
      if key = k then some (value, expiry ev.now ttl)
      else if k ∈ ev.dropped then none
      else bound k history
    | .delete key => if key = k then none else bound k history
    | .clear => none
    | .get _ | .cleanupExpired _ => bound k history

/-- The value a lookup at `now` should find. -/
def current (now : Time) (history : List Event) (k : Key) : Option Bytes :=
  (bound k history).bind fun b => if Stale now b.2 then none else some b.1

/-- The number of `Get` calls since the last `Clear`. -/
def getsSinceClear : List Event → Nat
  | [] => 0
  | ev :: history =>
    match ev.call with
    | .get _ => getsSinceClear history + 1
    | .clear => 0
    | .put _ _ _ | .delete _ | .cleanupExpired _ => getsSinceClear history

variable {history : List Event} {ev : Event} {k : Key}

theorem age_cons_of_uses (h : ev.uses k = true) : age (ev :: history) k = 0 := by
  simp [age, findIdx_cons, h]

theorem age_cons (h : ev.uses k = false) : age (ev :: history) k = age history k + 1 := by
  simp [age, findIdx_cons, h]

/-- The abstract cache agrees with its history. -/
structure Recalls (r : Recency) (history : List Event) : Prop where
  /-- The entries stand in the order in which they were last used. -/
  ordered : r.list.entries.Pairwise fun a b => age history a.key < age history b.key
  /-- An entry holds what was last put for its key. -/
  held : ∀ e ∈ r.list.entries, bound e.key history = some (e.value, e.expiresAt)
  /-- What the cache no longer holds has expired. -/
  lost : ∀ k b, bound k history = some b → k ∈ r.list.keys ∨ ∃ ev ∈ history, Stale ev.now b.2
  counted : r.hits + r.misses = Int64.ofNat (getsSinceClear history)

open Recency

theorem recalls_new (capacity : Int) : Recalls (new capacity) [] where
  ordered := .nil
  held := by simp [new, RecencyList.empty]
  lost := by simp [bound]
  counted := rfl

namespace Recalls

variable {r : Recency} {now : Time}

/-! ## Lookups -/

/-- A lookup returns the current value of the key. -/
theorem get_eq (h : Recalls r history) (hnow : ∀ ev ∈ history, ev.now ≤ now) (k : Key) :
    (r.get now k).2 = current now history k := by
  unfold current
  cases hfind : r.list.find k with
  | none =>
    rw [get_of_none hfind]
    -- Not held: whatever was put last has expired before `now`.
    cases hbound : bound k history with
    | none => rfl
    | some b =>
      obtain hmem | ⟨ev, hev, hstale⟩ := h.lost k b hbound
      · exact absurd hmem (find_eq_none.1 hfind)
      · simp [hstale.mono (hnow ev hev)]
  | some e =>
    obtain ⟨he, rfl⟩ := find_eq_some.1 hfind
    rw [h.held e he]
    by_cases hstale : Stale now e.expiresAt
    · simp [get_of_stale hfind hstale, hstale]
    · simp [get_of_live hfind hstale, hstale]

/-! ## What a call does to the order -/

/-- A call that uses no key and only takes entries away. -/
theorem ordered_of_sublist (h : Recalls r history) {es : List Item}
    (huses : ∀ k, ev.uses k = false) (hsub : es.Sublist r.list.entries) :
    es.Pairwise fun a b => age (ev :: history) a.key < age (ev :: history) b.key := by
  refine (h.ordered.sublist hsub).imp fun {a b} hab => ?_
  rw [age_cons (huses _), age_cons (huses _)]
  exact Nat.succ_lt_succ hab

/-- A call that uses the key of the entry it brings to the front. -/
theorem ordered_record (h : Recalls r history) {e : Item} (hself : ev.uses e.key = true)
    (hother : ∀ k, k ≠ e.key → ev.uses k = false) : (r.list.record e).entries.Pairwise
      fun a b => age (ev :: history) a.key < age (ev :: history) b.key := by
  obtain ⟨es, hes, hsub⟩ := r.list.record_eq_cons (e := e)
  have hne : ∀ a ∈ es, ev.uses a.key = false := fun a ha =>
    hother _ (mem_others.1 (hsub.subset ha)).2
  rw [hes, pairwise_cons]
  constructor
  · intro a ha
    rw [age_cons_of_uses hself, age_cons (hne a ha)]
    exact Nat.succ_pos _
  refine (h.ordered.sublist (hsub.trans filter_sublist)).imp_of_mem fun {a b} ha hb hab => ?_
  rw [age_cons (hne a ha), age_cons (hne b hb)]
  exact Nat.succ_lt_succ hab

/-! ## What a call does to the values -/

/-- A call that binds nothing, and that keeps every entry that is not stale. -/
theorem lost_of_stale (h : Recalls r history) {es : List Item}
    (hbound : ∀ k, bound k (ev :: history) = bound k history)
    (hkeep : ∀ e ∈ r.list.entries, e ∈ es ∨ Stale ev.now e.expiresAt) (k : Key)
    (b : Bytes × Option Time) (hb : bound k (ev :: history) = some b) :
    k ∈ es.map Entry.key ∨ ∃ ev' ∈ ev :: history, Stale ev'.now b.2 := by
  rw [hbound] at hb
  obtain hmem | ⟨ev', hev', hstale⟩ := h.lost k b hb
  · obtain ⟨e, he, rfl⟩ := mem_map.1 hmem
    obtain hes | hstale := hkeep e he
    · exact .inl (mem_map_of_mem hes)
    · have heq : (e.value, e.expiresAt) = b := Option.some.inj ((h.held e he).symm.trans hb)
      exact .inr ⟨ev, mem_cons_self, heq ▸ hstale⟩
  · exact .inr ⟨ev', mem_cons_of_mem _ hev', hstale⟩

theorem mem_record_of_mem {e a : Item} (he : e ∈ r.list.entries) :
    a ∈ (r.list.record e).entries ↔ a ∈ r.list.entries := by
  rw [entries_record_of_mem (mem_map_of_mem he), mem_cons, mem_others]
  constructor
  · rintro (rfl | ⟨ha, -⟩)
    · exact he
    · exact ha
  intro ha
  by_cases hkey : a.key = e.key
  · exact .inl (inj_on_of_nodup_map r.list.nodup ha he hkey)
  · exact .inr ⟨ha, hkey⟩

section

variable (h : Recalls r history)
include h

theorem counted_miss : r.hits + (r.misses + 1) = Int64.ofNat (getsSinceClear history + 1) := by
  rw [Int64.ofNat_add, ← h.counted, Int64.add_assoc]
  rfl

/-! ## The calls -/

theorem get (key : Key) (dropped : List Key) :
    Recalls (r.get now key).1 (⟨now, .get key, .value (r.get now key).2, dropped⟩ :: history) := by
  cases hfind : r.list.find key with
  | none =>
    rw [get_of_none hfind]
    exact
      { ordered := h.ordered_of_sublist (fun k => rfl) (.refl _)
        held := h.held
        lost := h.lost_of_stale (fun k => rfl) fun e he => .inl he
        counted := h.counted_miss }
  | some e =>
    obtain ⟨he, rfl⟩ := find_eq_some.1 hfind
    by_cases hstale : Stale now e.expiresAt
    · rw [get_of_stale hfind hstale]
      refine
        { ordered := h.ordered_of_sublist (fun k => rfl) filter_sublist
          held := fun a ha => h.held a (mem_of_mem_filter ha)
          lost := h.lost_of_stale (fun k => rfl) fun a ha => ?_
          counted := h.counted_miss }
      -- The one entry that goes is `e` itself, which is stale.
      by_cases hkey : a.key = e.key
      · rw [inj_on_of_nodup_map r.list.nodup ha he hkey]
        exact .inr hstale
      · exact .inl (mem_others.2 ⟨ha, hkey⟩)
    · rw [get_of_live hfind hstale]
      exact
        { ordered := h.ordered_record (by simp [Event.uses]) fun k hk => by
            simp [Event.uses, Ne.symm hk]
          held := fun a ha => h.held a ((mem_record_of_mem he).1 ha)
          lost := h.lost_of_stale (fun k => rfl) fun a ha => .inl ((mem_record_of_mem he).2 ha)
          counted := by
            rw [Int64.add_assoc, Int64.add_comm 1]
            exact h.counted_miss }

theorem put (key : Key) (value : Bytes) (ttl : Duration)
    {dropped : List Key}
    (hdropped : ∀ k, k ∈ dropped ↔ k ∈ r.list.keys ∧ k ∉ (r.put now key value ttl).list.keys) :
    Recalls (r.put now key value ttl)
      (⟨now, .put key value ttl, .flag true, dropped⟩ :: history) where
  ordered := h.ordered_record (by simp [Event.uses]) fun k hk => by simp [Event.uses, Ne.symm hk]
  held := by
    intro a ha
    obtain ⟨es, hes, hsub⟩ := r.list.record_eq_cons (e := ⟨key, value, expiry now ttl⟩)
    have hmem : a ∈ (⟨key, value, expiry now ttl⟩ : Item) :: es := hes ▸ ha
    obtain rfl | ha' := mem_cons.1 hmem
    · simp only [bound, if_true]
    obtain ⟨hold, hne⟩ := mem_others.1 (hsub.subset ha')
    have hin : a.key ∉ dropped := fun hd => ((hdropped _).1 hd).2 (mem_map_of_mem ha)
    simp only [bound, if_neg (Ne.symm hne), if_neg hin]
    exact h.held a hold
  lost := by
    intro k b hb
    obtain ⟨es, hes, -⟩ := r.list.record_eq_cons (e := ⟨key, value, expiry now ttl⟩)
    have hkey : key ∈ (r.put now key value ttl).list.keys := by
      show key ∈ (r.list.record ⟨key, value, expiry now ttl⟩).entries.map Entry.key
      simp [hes]
    simp only [bound] at hb
    split at hb
    case isTrue heq => exact .inl (heq ▸ hkey)
    case isFalse =>
      split at hb
      case isTrue => cases hb
      case isFalse hd =>
        obtain hmem | ⟨ev, hev, hstale⟩ := h.lost k b hb
        · by_contra hnot
          exact hd ((hdropped k).2 ⟨hmem, fun hin => hnot (.inl hin)⟩)
        · exact .inr ⟨ev, mem_cons_of_mem _ hev, hstale⟩
  counted := h.counted

theorem delete (key : Key) (b : Bool) (dropped : List Key) :
    Recalls { r with list := r.list.remove key }
      (⟨now, .delete key, .flag b, dropped⟩ :: history) where
  ordered := h.ordered_of_sublist (fun k => rfl) filter_sublist
  held := by
    intro a ha
    obtain ⟨hold, hne⟩ := mem_others.1 ha
    simp only [bound, if_neg (Ne.symm hne)]
    exact h.held a hold
  lost := by
    intro k b hb
    simp only [bound] at hb
    split at hb
    case isTrue => cases hb
    case isFalse hne =>
      obtain hmem | ⟨ev, hev, hstale⟩ := h.lost k b hb
      · obtain ⟨a, ha, rfl⟩ := mem_map.1 hmem
        exact .inl (mem_map_of_mem (mem_others.2 ⟨ha, Ne.symm hne⟩))
      · exact .inr ⟨ev, mem_cons_of_mem _ hev, hstale⟩
  counted := h.counted

/-- Every call keeps the cache in agreement with its history. -/
theorem call (c : Call) {dropped : List Key}
    (hdropped : ∀ k, k ∈ dropped ↔ k ∈ r.list.keys ∧ k ∉ (r.call now c).1.list.keys) :
    Recalls (r.call now c).1 (⟨now, c, (r.call now c).2, dropped⟩ :: history) := by
  cases c with
  | get key => exact h.get key dropped
  | put key value ttl => exact h.put key value ttl hdropped
  | delete key => exact h.delete key _ dropped
  | clear =>
    exact
      { ordered := .nil
        held := fun a ha => absurd ha not_mem_nil
        lost := fun k b hb => by simp [bound] at hb
        counted := rfl }
  | cleanupExpired order =>
    refine
      { ordered := h.ordered_of_sublist (fun k => rfl) filter_sublist
        held := fun a ha => h.held a (mem_of_mem_filter ha)
        lost := h.lost_of_stale (fun k => rfl) fun a ha => ?_
        counted := h.counted }
    by_cases hstale : Stale now a.expiresAt
    · exact .inr hstale
    · exact .inl (mem_filter.2 ⟨ha, by simpa using hstale⟩)

/-! ## Evictions -/

/-- A `Put` drops a key exactly if it makes room for a new one and the key was used longest ago.
-/
theorem dropped_iff {key j : Key} (value : Bytes) (ttl : Duration)
    (hj : j ∈ r.list.keys) : j ∉ (r.put now key value ttl).list.keys ↔
      r.Overflows key ∧ ∀ i ∈ r.list.keys, age history i ≤ age history j := by
  let e : Item := ⟨key, value, expiry now ttl⟩
  show j ∉ (r.list.record e).entries.map Entry.key ↔ _
  by_cases hkey : key ∈ r.list.keys
  · -- The key is there: nothing is dropped.
    rw [entries_record_of_mem (e := e) hkey]
    obtain ⟨a, ha, rfl⟩ := mem_map.1 hj
    have hin : a.key = key ∨ a ∈ Entry.others r.list.entries key := by
      rw [mem_others]
      tauto
    constructor
    · intro hnot
      refine absurd ?_ hnot
      rw [map_cons, mem_cons]
      exact hin.imp_right mem_map_of_mem
    · rintro ⟨hover, -⟩
      exact absurd hkey hover.1
  by_cases hfull : r.list.entries.length = r.list.capacity
  · -- The list is full: its last entry is dropped, and it is the oldest.
    rw [entries_record_of_full hkey hfull]
    have hjkey : j ≠ key := fun heq => hkey (heq ▸ hj)
    rw [map_cons, mem_cons, not_or, notMem_dropLast_iff h.ordered hj]
    exact and_congr (iff_of_true hjkey ⟨hkey, hfull⟩) Iff.rfl
  have hlt : r.list.entries.length < r.list.capacity := by
    have hle := r.list.bounded
    omega
  rw [entries_record_of_lt hkey hlt]
  constructor
  · intro hnot
    exact absurd (mem_cons_of_mem _ hj) hnot
  · rintro ⟨hover, -⟩
    exact absurd hover.2 hfull

end

end Recalls

end DistributedKV.Cache
