import DistributedKV.Lib.Lts
import DistributedKV.Performance.Caches

/-!
# The size of the write cache

`Put` evicts entries until there is room for the new one or the cache is empty. The empty key
stands for "none" in the loop that looks for the oldest entry: when that loop ends at the entry of
the empty key nothing is evicted, and `Put` tries again without end. In a cache where some entry is
not later than that one an entry is evicted in any order; in any other, an order with the empty key
last evicts nothing.
-/

namespace DistributedKV.Performance.WriteCache

variable (wc : WriteCache)

open AList GoMap List

/-- A call of `Put`, with the orders in which its loops visit the map and their number. -/
structure PutCall where
  orders : Nat → IterationOrder ((_ : Key) × WriteCacheEntry)
  rounds : Nat
  now : Int
  key : Key
  value : Value

/-- A call that ends. -/
def putStep (call : PutCall) : Option WriteCache :=
  (wc.put call.orders call.rounds call.now call.key call.value).toOption

/-- The current size is the sum of the sizes of the entries, which are those of their values. -/
structure Accounted (wc : WriteCache) : Prop where
  currentSize : wc.currentSize = wc.entries.total fun _ entry => entry.size
  sizes : ∀ key entry, wc.entries.lookup key = some entry → entry.size = entry.value.length

/-- After some number of rounds the call has ended, whatever the orders; and then the sizes are
right, and within the maximum unless the cache holds the new entry only. -/
def Bounded (call : PutCall) : Prop :=
  (∃ rounds, ∀ orders, ∃ wc', wc.put orders rounds call.now call.key call.value = .ok wc') ∧
    ∀ orders rounds wc', wc.put orders rounds call.now call.key call.value = .ok wc' →
      wc'.Accounted ∧ (wc'.currentSize ≤ wc.maxSize ∨ wc'.entries.keys = [call.key])

/-- The sizes of the entries that may stay: the empty key's, and those of all later entries. -/
def staying (emptyEntry : WriteCacheEntry) (key : Key) (entry : WriteCacheEntry) : Int :=
  if key = [] ∨ emptyEntry.timestamp < entry.timestamp then entry.size else 0

/-- If the empty key has an entry, what may stay beside it leaves room for the value. -/
def LeavesRoom (call : PutCall) : Prop :=
  ∀ emptyEntry, wc.entries.lookup [] = some emptyEntry →
    wc.entries.total (staying emptyEntry) + call.value.length ≤ wc.maxSize

/-! ## The entry that is evicted -/

theorem foldl_older_mem (l : List ((_ : Key) × WriteCacheEntry)) (oldest : Key × Int) :
    l.foldl older oldest = oldest ∨ ∃ e ∈ l, l.foldl older oldest = (e.1, e.2.timestamp) := by
  induction l generalizing oldest with
  | nil => exact .inl rfl
  | cons e l ih =>
    rw [foldl_cons]
    rcases ih (older oldest e) with hsame | ⟨e', he', hmet⟩
    · rw [hsame, older]
      split
      · exact .inr ⟨e, mem_cons_self, rfl⟩
      · exact .inl rfl
    · exact .inr ⟨e', mem_cons_of_mem e he', hmet⟩

variable {l : List ((_ : Key) × WriteCacheEntry)} {key gone : Key} {entry : WriteCacheEntry}

/-- A candidate not later than the entry of the empty key is only left for another such. -/
theorem foldl_older_keeps {oldest : Key × Int} {time : Int}
    (hempty : ∀ e ∈ l, e.1 = [] → time ≤ e.2.timestamp) (hkey : oldest.1 ≠ [])
    (htime : oldest.2 ≤ time) :
    (l.foldl older oldest).1 ≠ [] ∧ (l.foldl older oldest).2 ≤ time := by
  induction l generalizing oldest with
  | nil => exact ⟨hkey, htime⟩
  | cons e l ih =>
    have hlater := fun e' he' => hempty e' (mem_cons_of_mem e he')
    rw [foldl_cons]
    by_cases hlt : e.2.timestamp < oldest.2
    · have hne : e.1 ≠ [] := by
        intro hnil
        have hle := hempty e mem_cons_self hnil
        omega
      rw [older, if_pos (.inr hlt)]
      exact ih hlater hne (by dsimp only; omega)
    · rw [older, if_neg (not_or.mpr ⟨hkey, hlt⟩)]
      exact ih hlater hkey htime

/-- A loop that meets such a candidate ends with one. -/
theorem foldl_older_of_candidate (oldest : Key × Int) {e : (_ : Key) × WriteCacheEntry}
    (he : e ∈ l) (hkey : e.1 ≠ []) (hempty : ∀ e' ∈ l, e'.1 = [] → e.2.timestamp ≤ e'.2.timestamp) :
    (l.foldl older oldest).1 ≠ [] ∧ (l.foldl older oldest).2 ≤ e.2.timestamp := by
  obtain ⟨before, after, rfl⟩ := append_of_mem he
  rw [foldl_append, foldl_cons]
  have hafter : ∀ e' ∈ after, e'.1 = [] → e.2.timestamp ≤ e'.2.timestamp := fun e' he' =>
    hempty e' (mem_append_right before (mem_cons_of_mem e he'))
  generalize before.foldl older oldest = met
  by_cases hnew : met.1 = [] ∨ e.2.timestamp < met.2
  · rw [older, if_pos hnew]
    exact foldl_older_keeps hafter hkey le_rfl
  rw [older, if_neg hnew]
  obtain ⟨hmet, hnot⟩ := not_or.mp hnew
  exact foldl_older_keeps hafter hmet (not_lt.mp hnot)

variable {wc : WriteCache} {call : PutCall} {emptyEntry : WriteCacheEntry}

/-- `evictOldest` drops the entry at which its loop ends, unless that is at the empty key. -/
theorem evictOldest_cases (wc : WriteCache) (order : IterationOrder ((_ : Key) × WriteCacheEntry)) :
    (((order.pick wc.entries.entries).foldl older ([], 0)).1 = [] ∧ wc.evictOldest order = wc) ∨
    ∃ gone entry, gone ≠ [] ∧ wc.entries.lookup gone = some entry ∧
      (order.pick wc.entries.entries).foldl older ([], 0) = (gone, entry.timestamp) ∧
      wc.evictOldest order = { wc with
        entries := wc.entries.erase gone
        currentSize := wc.currentSize - entry.size } := by
  by_cases hnone : ((order.pick wc.entries.entries).foldl older ([], 0)).1 = []
  · exact .inl ⟨hnone, if_pos hnone⟩
  rcases foldl_older_mem (order.pick wc.entries.entries) ([], 0) with hsame | ⟨e, he, hmet⟩
  · exact absurd (congrArg Prod.fst hsame) hnone
  have hlookup : wc.entries.lookup e.1 = some e.2 := mem_lookup_iff.mpr ((order.mem_pick _).mp he)
  rw [hmet] at hnone
  refine .inr ⟨e.1, e.2, hnone, hlookup, hmet, ?_⟩
  rw [evictOldest, hmet]
  rw [if_neg hnone, hlookup]

/-- Whatever the order: if some entry is not later than that of the empty key, one is evicted.
-/
theorem evictOldest_of_candidate (hentry : wc.entries.lookup key = some entry) (hkey : key ≠ [])
    (hempty : ∀ emptyEntry, wc.entries.lookup [] = some emptyEntry →
      entry.timestamp ≤ emptyEntry.timestamp)
    (order : IterationOrder ((_ : Key) × WriteCacheEntry)) :
    ∃ gone old, gone ≠ [] ∧ wc.entries.lookup gone = some old ∧
      (∀ emptyEntry, wc.entries.lookup [] = some emptyEntry →
        old.timestamp ≤ emptyEntry.timestamp) ∧
      wc.evictOldest order = { wc with
        entries := wc.entries.erase gone
        currentSize := wc.currentSize - old.size } := by
  have hmem : (⟨key, entry⟩ : (_ : Key) × WriteCacheEntry) ∈ order.pick wc.entries.entries :=
    (order.mem_pick _).mpr (mem_lookup_iff.mp hentry)
  have hbound := foldl_older_of_candidate ([], 0) hmem hkey fun e he hnil =>
    hempty e.2 (hnil ▸ mem_lookup_iff.mpr ((order.mem_pick _).mp he))
  rcases evictOldest_cases wc order with ⟨hnone, -⟩ | ⟨gone, old, hgone, hold, hmet, heq⟩
  · exact absurd hnone hbound.1
  refine ⟨gone, old, hgone, hold, fun emptyEntry hemptyEntry => ?_, heq⟩
  rw [hmet] at hbound
  exact hbound.2.trans (hempty emptyEntry hemptyEntry)

/-- The order in which the empty key comes last. -/
def emptyLast : IterationOrder ((_ : Key) × WriteCacheEntry) where
  pick l := l.filter (fun e => e.1 ≠ []) ++ l.filter (fun e => !decide (e.1 ≠ []))
  perm l := List.filter_append_perm _ l

theorem pick_emptyLast (hempty : wc.entries.lookup [] = some emptyEntry) :
    ∃ l, emptyLast.pick wc.entries.entries = l ++ [⟨[], emptyEntry⟩] := by
  have hmem : (⟨[], emptyEntry⟩ : (_ : Key) × WriteCacheEntry) ∈ wc.entries.entries :=
    mem_lookup_iff.mp hempty
  have hnodup := wc.entries.nodupKeys
  obtain ⟨before, after, hentries⟩ := append_of_mem hmem
  rw [hentries, nodupKeys_middle, nodupKeys_cons] at hnodup
  have hother : ∀ e ∈ before ++ after, e.1 ≠ [] := by
    intro e he hnil
    have hkey := mem_keys_of_mem he
    rw [hnil] at hkey
    exact hnodup.1 hkey
  have hlast : (before ++ ⟨[], emptyEntry⟩ :: after).filter (fun e => !decide (e.1 ≠ [])) =
      [⟨[], emptyEntry⟩] := by
    have hnot : ∀ l : List ((_ : Key) × WriteCacheEntry), (∀ e ∈ l, e.1 ≠ []) →
        l.filter (fun e => !decide (e.1 ≠ [])) = [] := by
      intro l hl
      simpa using hl
    rw [filter_append, filter_cons_of_pos (by simp),
      hnot before fun e he => hother e (mem_append_left after he),
      hnot after fun e he => hother e (mem_append_right before he), nil_append]
  rw [hentries]
  refine ⟨(before ++ ⟨[], emptyEntry⟩ :: after).filter (fun e => e.1 ≠ []), ?_⟩
  rw [← hlast]
  rfl

/-! ## The sizes -/

theorem Accounted.nonneg (h : wc.Accounted) (hentry : wc.entries.lookup key = some entry) :
    0 ≤ entry.size := by
  rw [h.sizes key entry hentry]
  exact Int.natCast_nonneg _

theorem Accounted.erase (h : wc.Accounted) (hentry : wc.entries.lookup gone = some entry) :
    Accounted { wc with
      entries := wc.entries.erase gone
      currentSize := wc.currentSize - entry.size } where
  currentSize := by
    have htotal := total_erase (fun _ entry => entry.size) hentry
    have hsize := h.currentSize
    dsimp only
    omega
  sizes key old hold := h.sizes key old (lookup_erase_eq_some.mp hold).2

variable {orders : Nat → IterationOrder ((_ : Key) × WriteCacheEntry)} {rounds : Nat} {size : Int}

theorem Accounted.makeRoom (h : wc.Accounted) {wc' : WriteCache}
    (hroom : wc.makeRoom orders size rounds = .ok wc') : wc'.Accounted ∧ wc'.maxSize = wc.maxSize ∧
      (wc'.currentSize + size ≤ wc.maxSize ∨ wc'.entries.len = 0) := by
  induction rounds generalizing wc with
  | zero =>
    rw [WriteCache.makeRoom] at hroom
    split at hroom
    · cases hroom
    next hend =>
      cases hroom
      exact ⟨h, rfl, by omega⟩
  | succ rounds ih =>
    rw [WriteCache.makeRoom] at hroom
    split at hroom
    · rcases evictOldest_cases wc (orders rounds) with
        ⟨-, heq⟩ | ⟨gone, entry, -, hentry, -, heq⟩ <;> rw [heq] at hroom
      · exact ih h hroom
      · have hrest := ih (h.erase hentry) hroom
        exact hrest
    next hend =>
      cases hroom
      exact ⟨h, rfl, by omega⟩

theorem Accounted.store (h : wc.Accounted) (key : Key) (value : Value) (now : Int) :
    Accounted { wc with
      entries := wc.entries.insert key ⟨value, now, value.length, true⟩
      currentSize := (match wc.entries.lookup key with
        | some existing => wc.currentSize - existing.size
        | none => wc.currentSize) + value.length } where
  currentSize := by
    have hsize := h.currentSize
    rw [total_insert]
    cases hlookup : wc.entries.lookup key with
    | none =>
      rw [total_erase_of_notMem hlookup]
      dsimp only
      omega
    | some existing =>
      have htotal := total_erase (fun _ entry => entry.size) hlookup
      show wc.currentSize - existing.size + (value.length : Int) = value.length + _
      omega
  sizes other entry hentry := by
    rcases lookup_insert_eq_some.mp hentry with ⟨rfl, rfl⟩ | ⟨-, hentry⟩
    · rfl
    · exact h.sizes other entry hentry

/-- When a call ends the sizes are right, within the maximum unless only the new entry is there.
-/
theorem Accounted.put (h : wc.Accounted) {value : Value} {now : Int} {wc' : WriteCache}
    (hput : wc.put orders rounds now key value = .ok wc') :
    wc'.Accounted ∧ (wc'.currentSize ≤ wc.maxSize ∨ wc'.entries.keys = [key]) := by
  rw [WriteCache.put] at hput
  cases hmade : wc.makeRoom orders value.length rounds with
  | error fault =>
    rw [hmade] at hput
    cases hput
  | ok made =>
    obtain ⟨hacc, -, hend⟩ := h.makeRoom hmade
    rw [hmade] at hput
    cases hput
    refine ⟨hacc.store key value now, ?_⟩
    rcases hend with hfits | hlen
    · left
      dsimp only
      cases hlookup : made.entries.lookup key with
      | none => exact hfits
      | some existing =>
        have hnonneg := hacc.nonneg hlookup
        show made.currentSize - existing.size + (value.length : Int) ≤ wc.maxSize
        omega
    · right
      have hkeys : made.entries.keys = [] := length_eq_zero_iff.mp hlen
      rw [keys_insert, hkeys]
      rfl

/-! ## Whether a call ends -/

/-- As long as there is no room, one of the entries that do not stay is still there. -/
theorem exists_candidate (h : wc.Accounted) (hroom : wc.LeavesRoom call)
    (hfull : wc.currentSize + call.value.length > wc.maxSize) (hlen : wc.entries.len > 0) :
    ∃ key entry, wc.entries.lookup key = some entry ∧ key ≠ [] ∧
      ∀ emptyEntry, wc.entries.lookup [] = some emptyEntry →
        entry.timestamp ≤ emptyEntry.timestamp := by
  cases hempty : wc.entries.lookup [] with
  | none =>
    obtain ⟨key, hkey⟩ := exists_mem_of_length_pos hlen
    obtain ⟨entry, hentry⟩ := exists_lookup (mem_keys.mpr hkey)
    refine ⟨key, entry, hentry, ?_, fun _ hsome => by cases hsome⟩
    rintro rfl
    rw [hempty] at hentry
    cases hentry
  | some emptyEntry =>
    by_contra hnone
    -- then every entry stays, and all of them together are not larger than the maximum
    have hall : wc.entries.total (staying emptyEntry) =
        wc.entries.total fun _ entry => entry.size := by
      refine total_congr fun key entry hentry => if_pos ?_
      by_contra hstays
      obtain ⟨hkey, hlater⟩ := not_or.mp hstays
      refine hnone ⟨key, entry, hentry, hkey, fun other hother => ?_⟩
      rw [← Option.some.inj hother]
      exact not_lt.mp hlater
    have hle := hroom emptyEntry hempty
    rw [hall, ← h.currentSize] at hle
    omega

/-- Every round evicts an entry, so that there are not more rounds than entries. -/
theorem makeRoom_ends (orders : Nat → IterationOrder ((_ : Key) × WriteCacheEntry))
    (h : wc.Accounted) (hroom : wc.LeavesRoom call) (hrounds : wc.entries.len ≤ rounds) :
    ∃ wc', wc.makeRoom orders call.value.length rounds = .ok wc' := by
  induction rounds generalizing wc with
  | zero =>
    refine ⟨wc, ?_⟩
    rw [makeRoom, if_neg]
    omega
  | succ rounds ih =>
    rw [makeRoom]
    split
    · next hfull =>
      obtain ⟨key, entry, hentry, hkey, hearly⟩ := exists_candidate h hroom hfull.1 hfull.2
      obtain ⟨gone, old, hgone, hold, holdEarly, heq⟩ :=
        evictOldest_of_candidate hentry hkey hearly (orders rounds)
      rw [heq]
      have hless := len_erase_of_mem (mem_of_lookup hold)
      refine ih (h.erase hold) ?_ (by dsimp only; omega)
      -- what stays is untouched when an entry that does not is dropped
      intro emptyEntry hempty
      have hbefore : wc.entries.lookup [] = some emptyEntry := by
        rwa [lookup_erase_ne hgone.symm] at hempty
      have hzero : staying emptyEntry gone old = 0 :=
        if_neg (not_or.mpr ⟨hgone, not_lt.mpr (holdEarly emptyEntry hbefore)⟩)
      have htotal := total_erase (staying emptyEntry) hold
      have hle := hroom emptyEntry hbefore
      dsimp only
      omega
    · exact ⟨wc, rfl⟩

theorem Accounted.staying_le (h : wc.Accounted) (emptyEntry : WriteCacheEntry) :
    wc.entries.total (staying emptyEntry) ≤ wc.currentSize := by
  rw [h.currentSize]
  refine total_mono fun key entry hentry => ?_
  rw [staying]
  split
  · exact le_rfl
  · exact h.nonneg hentry

/-- If what may stay leaves no room, the loop that visits the empty key last never ends. -/
theorem makeRoom_unfinished (h : wc.Accounted) (hempty : wc.entries.lookup [] = some emptyEntry)
    (hlarge : wc.entries.total (staying emptyEntry) + size > wc.maxSize) (rounds : Nat) :
    wc.makeRoom (fun _ => emptyLast) size rounds = .error .unfinished := by
  have hfull : wc.currentSize + size > wc.maxSize ∧ wc.entries.len > 0 := by
    have hle := h.staying_le emptyEntry
    have hmem : [] ∈ wc.entries.keys := mem_keys.mp (mem_of_lookup hempty)
    exact ⟨by omega, length_pos_of_mem hmem⟩
  induction rounds generalizing wc with
  | zero => rw [makeRoom, if_pos hfull]
  | succ rounds ih =>
    rw [makeRoom, if_pos hfull]
    rcases evictOldest_cases wc emptyLast with ⟨-, heq⟩ | ⟨gone, entry, hgone, hentry, hmet, heq⟩
    · rw [heq]
      exact ih h hempty hlarge hfull
    -- the loop ends at the empty key, which is the last, or at an entry that is not later
    have hearly : entry.timestamp ≤ emptyEntry.timestamp := by
      obtain ⟨l, hpick⟩ := pick_emptyLast hempty
      rw [hpick, foldl_append, foldl_cons, foldl_nil, older] at hmet
      split at hmet
      · exact absurd (congrArg Prod.fst hmet).symm hgone
      · next hnew =>
        rw [hmet] at hnew
        exact not_lt.mp (not_or.mp hnew).2
    have hkept : staying emptyEntry gone entry = 0 := if_neg (not_or.mpr ⟨hgone, not_lt.mpr hearly⟩)
    have htotal := total_erase (staying emptyEntry) hentry
    have herased := h.erase hentry
    have hstill : (wc.entries.erase gone).lookup [] = some emptyEntry := by
      rwa [lookup_erase_ne hgone.symm]
    have hle := herased.staying_le emptyEntry
    have hmem : [] ∈ (wc.entries.erase gone).keys := mem_keys.mp (mem_of_lookup hstill)
    rw [heq]
    dsimp only at hle
    exact ih herased hstill (by dsimp only; omega) ⟨by dsimp only; omega, length_pos_of_mem hmem⟩

/-- A call is as asked for exactly if what may stay leaves room for it. -/
theorem bounded_iff (h : wc.Accounted) : wc.Bounded call ↔ wc.LeavesRoom call := by
  constructor
  · rintro ⟨⟨rounds, hends⟩, -⟩ emptyEntry hempty
    by_contra hlarge
    obtain ⟨wc', hput⟩ := hends fun _ => emptyLast
    rw [put] at hput
    rw [makeRoom_unfinished h hempty (not_le.mp hlarge)] at hput
    cases hput
  intro hroom
  refine ⟨⟨wc.entries.len, fun orders => ?_⟩, fun orders rounds wc' hput => h.put hput⟩
  obtain ⟨made, hmade⟩ := makeRoom_ends orders h hroom le_rfl
  rw [put]
  rw [hmade]
  exact ⟨_, rfl⟩

theorem accounted_new (maxSize : Int) : (new maxSize).Accounted where
  currentSize := rfl
  sizes key entry hentry := by
    cases hentry

/-- **The bound of the write cache.** For every sequence of calls of `Put`: every call ends,
with the current size the sum of the sizes and within the maximum unless the cache holds the new
entry only, exactly if at every call what may stay leaves room for the value. -/
theorem puts_iff (maxSize : Int) (calls : List PutCall) :
    Lts.Along putStep Bounded (new maxSize) calls ↔
      Lts.Along putStep LeavesRoom (new maxSize) calls := by
  have hkeeps : ∀ (wc : WriteCache) (call : PutCall), wc.Accounted →
      ∀ wc' ∈ wc.putStep call, wc'.Accounted := by
    intro wc call hacc wc' hstep
    have hput : wc.put call.orders call.rounds call.now call.key call.value = .ok wc' := by
      rw [putStep] at hstep
      cases hput : wc.put call.orders call.rounds call.now call.key call.value with
      | error fault =>
        rw [hput] at hstep
        cases hstep
      | ok after =>
        rw [hput] at hstep
        rw [Option.some.inj hstep]
    exact (hacc.put hput).1
  constructor
  · refine Lts.Along.mono_of_inv Accounted (fun wc call hacc hbounded => ?_) (accounted_new maxSize)
    exact ⟨(bounded_iff hacc).mp hbounded, hkeeps wc call hacc⟩
  · refine Lts.Along.mono_of_inv Accounted (fun wc call hacc hroom => ?_) (accounted_new maxSize)
    exact ⟨(bounded_iff hacc).mpr hroom, hkeeps wc call hacc⟩

/-- A cache for two bytes that holds two bytes under the empty key. -/
def full : WriteCache := ⟨AList.singleton [] ⟨[1, 1], 0, 2, true⟩, 2, 2⟩

theorem full_evictOldest (order : IterationOrder ((_ : Key) × WriteCacheEntry)) :
    full.evictOldest order = full := by
  have hpick : order.pick full.entries.entries = full.entries.entries :=
    perm_singleton.mp (order.perm _)
  rw [evictOldest, hpick]
  rfl

/-- Two bytes are under the empty key in a cache for two bytes. A call that puts one more byte
under another key never ends, whatever the orders. -/
theorem put_counterexample :
    Lts.exec putStep (new 2) [⟨fun _ => .asGiven, 0, 0, [], [1, 1]⟩] = some full ∧
      (∀ orders rounds now, full.put orders rounds now [97] [1] = .error .unfinished) ∧
      ¬ Lts.Along putStep Bounded (new 2)
        [⟨fun _ => .asGiven, 0, 0, [], [1, 1]⟩, ⟨fun _ => .asGiven, 0, 1, [97], [1]⟩] := by
  have hstuck : ∀ orders rounds now,
      full.put orders rounds now [97] [1] = .error .unfinished := by
    intro orders rounds now
    have hroom : full.makeRoom orders 1 rounds = .error .unfinished := by
      induction rounds with
      | zero => rfl
      | succ rounds ih =>
        rw [makeRoom, if_pos (by decide)]
        rw [full_evictOldest, ih]
    show (full.makeRoom orders 1 rounds).map _ = _
    rw [hroom]
    rfl
  refine ⟨rfl, hstuck, ?_⟩
  rintro ⟨-, hsecond⟩
  obtain ⟨⟨⟨rounds, hends⟩, -⟩, -⟩ := hsecond full rfl
  obtain ⟨wc', hput⟩ := hends fun _ => .asGiven
  rw [hstuck] at hput
  cases hput

end DistributedKV.Performance.WriteCache
