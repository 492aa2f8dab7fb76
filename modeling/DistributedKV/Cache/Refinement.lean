import DistributedKV.Cache.Recency
import DistributedKV.Lib.Lts

/-!
# The pointer cache refines the abstract one

`Represents`: the items of the map are the cells of the linked list between the two dummy cells,
one for each key. Each helper of the cache has one lemma that says what it does to the list of
cells, and `Sim.call` is the simulation.
-/

namespace DistributedKV.Cache

variable (c : LRUCache)

open AList LRUCache List Option RecencyList

/-! ## The representation -/

/-- The map holds the cells at `ps`, which are strung between the dummy cells. -/
structure Represents (items : GoMap Key Addr) (heap : Heap Addr Item) (head tail fresh : Addr)
    (ps : List Addr) : Prop where
  strung : heap.Strung head tail ps
  mapped : ∀ k a, items.lookup k = some a ↔ a ∈ ps ∧ (heap a).data.key = k
  allocated : ∀ a ∈ head :: (ps ++ [tail]), a < fresh

/-- The cells of the cache are those at `ps`. -/
abbrev LRUCache.Holds (ps : List Addr) : Prop :=
  Represents c.items c.heap c.head c.tail c.fresh ps

/-- What the cells at `ps` hold. -/
def LRUCache.read (ps : List Addr) : List Item :=
  ps.map fun a => (c.heap a).data

namespace Represents

variable {items : GoMap Key Addr} {heap : Heap Addr Item} {head tail fresh : Addr}
  {ps as bs : List Addr} {p : Addr}

theorem nodup (h : Represents items heap head tail fresh ps) : ps.Nodup := by
  have hnd := h.strung.nodup
  rw [nodup_cons] at hnd
  exact hnd.2.of_append_left

theorem notMem (h : Represents items heap head tail fresh (as ++ p :: bs)) :
    p ∉ head :: ((as ++ bs) ++ [tail]) := by
  have hnd := h.strung.nodup
  grind

theorem lookup (h : Represents items heap head tail fresh ps) (hp : p ∈ ps) :
    items.lookup (heap p).data.key = some p :=
  (h.mapped _ p).2 ⟨hp, rfl⟩

theorem key_ne (h : Represents items heap head tail fresh (as ++ p :: bs)) {a : Addr}
    (ha : a ∈ as ++ bs) : (heap a).data.key ≠ (heap p).data.key := by
  intro hkey
  have hla := h.lookup (p := a) (by grind)
  rw [hkey, h.lookup (p := p) (by simp)] at hla
  have hnot := h.notMem
  grind

theorem keys_perm (h : Represents items heap head tail fresh ps) :
    items.keys.Perm (ps.map fun a => (heap a).data.key) := by
  have hinj : ∀ a ∈ ps, ∀ b ∈ ps, (heap a).data.key = (heap b).data.key → a = b := by
    intro a ha b hb hkey
    have hla := h.lookup ha
    rw [hkey, h.lookup hb] at hla
    exact (some.inj hla).symm
  refine (perm_ext_iff_of_nodup items.keys_nodup (h.nodup.map_on hinj)).2 fun k => ?_
  rw [← AList.mem_keys, ← AList.lookup_isSome, Option.isSome_iff_exists, List.mem_map]
  exact exists_congr fun a => h.mapped k a

theorem len_eq (h : Represents items heap head tail fresh ps) : items.len = ps.length :=
  h.keys_perm.length_eq.trans (length_map _)

/-- Unlinking a cell takes its item out. -/
theorem removeItem (h : Represents items heap head tail fresh (as ++ p :: bs)) :
    ∃ heap', heap.unlink p = some heap' ∧ (∀ q, (heap' q).data = (heap q).data) ∧
      Represents (items.erase (heap p).data.key) heap' head tail fresh (as ++ bs) := by
  obtain ⟨heap', hunlink, hstrung, hdata⟩ := h.strung.unlink
  refine ⟨heap', hunlink, hdata, hstrung, fun k a => ?_, fun a ha => h.allocated a (by grind)⟩
  by_cases hk : k = (heap p).data.key
  · subst hk
    rw [lookup_erase]
    constructor
    · rintro ⟨⟩
    · rintro ⟨ha, hkey⟩
      exact absurd (hdata a ▸ hkey) (h.key_ne ha)
  · rw [lookup_erase_ne hk, h.mapped k a, hdata a]
    grind

/-- A cell is unlinked and pushed behind the first dummy cell. -/
theorem moveToFront (h : Represents items heap head tail fresh (as ++ p :: bs)) :
    ∃ heap₁ heap₂, heap.unlink p = some heap₁ ∧ heap₁.pushAfter head p = some heap₂ ∧
      (∀ q, (heap₂ q).data = (heap q).data) ∧
      Represents items heap₂ head tail fresh (p :: (as ++ bs)) := by
  obtain ⟨heap₁, hunlink, hstrung₁, hdata₁⟩ := h.strung.unlink
  obtain ⟨heap₂, hpush, hstrung₂, hdata₂⟩ := hstrung₁.pushAfter h.notMem
  refine ⟨heap₁, heap₂, hunlink, hpush, fun q => (hdata₂ q).trans (hdata₁ q), hstrung₂, ?_, ?_⟩
  · intro k a
    rw [h.mapped k a, hdata₂, hdata₁]
    grind
  · intro a ha
    exact h.allocated a (by grind)

section

variable (h : Represents items heap head tail fresh ps)
include h

theorem setData {d : Item} (hkey : d.key = (heap p).data.key) :
    Represents items (heap.setData p d) head tail fresh ps := by
  refine ⟨h.strung.setData, fun k a => ?_, h.allocated⟩
  rw [h.mapped k a, Heap.data_setData]
  split
  case isTrue heq => rw [heq, hkey]
  case isFalse => rfl

/-- A fresh cell becomes the first one. -/
theorem insertNew {d : Item} (hkey : items.lookup d.key = none) :
    ∃ heap', (heap.setCell fresh ⟨d, none, none⟩).pushAfter head fresh = some heap' ∧
      (heap' fresh).data = d ∧ (∀ q ∈ ps, (heap' q).data = (heap q).data) ∧
      Represents (items.insert d.key fresh) heap' head tail (fresh + 1) (fresh :: ps) := by
  have hnew : fresh ∉ head :: (ps ++ [tail]) := fun hmem =>
    Nat.lt_irrefl _ (h.allocated fresh hmem)
  obtain ⟨heap', hpush, hstrung, hdata⟩ :=
    (h.strung.setCell hnew (c := ⟨d, none, none⟩)).pushAfter hnew
  have hself : (heap' fresh).data = d := by rw [hdata, Heap.setCell_self]
  have hother : ∀ q, q ≠ fresh → (heap' q).data = (heap q).data := fun q hq => by
    rw [hdata, Heap.setCell_of_ne _ _ hq]
  have hps : ∀ q ∈ ps, q ≠ fresh := by grind
  refine ⟨heap', hpush, hself, fun q hq => hother q (hps q hq), hstrung, fun k a => ?_, ?_⟩
  · by_cases hk : k = d.key
    · subst hk
      -- No older cell has the new key.
      have hnone : ∀ q ∈ ps, (heap q).data.key ≠ d.key := by
        intro q hq heq
        have hq' := h.lookup hq
        rw [heq, hkey] at hq'
        cases hq'
      rw [lookup_insert, some.injEq, mem_cons]
      grind
    · rw [lookup_insert_ne hk, h.mapped k a, mem_cons]
      grind
  · intro a ha
    have hold := h.allocated a
    grind

theorem clear :
    Represents ∅ ((heap.setNext head (some tail)).setPrev tail (some head)) head tail fresh [] := by
  have hnd := h.strung.nodup
  refine ⟨.nil (by grind), fun k a => by simp, fun a ha => h.allocated a (by grind)⟩

end

end Represents

/-! ## The helpers -/

namespace LRUCache

variable {c : LRUCache} {ps as bs : List Addr} {p : Addr}

open LRUCache

theorem removeItem_spec (h : c.Holds (as ++ p :: bs)) : ∃ heap, c.removeItem p =
        some { c with items := c.items.erase (c.heap p).data.key, heap := heap } ∧
      (∀ q, (heap q).data = (c.heap q).data) ∧
      LRUCache.Holds { c with items := c.items.erase (c.heap p).data.key, heap := heap }
        (as ++ bs) := by
  obtain ⟨heap, hunlink, hdata, hrep⟩ := h.removeItem
  exact ⟨heap, by simp [removeItem, removeFromList, hunlink], hdata, hrep⟩

theorem moveToFront_spec (h : c.Holds (as ++ p :: bs)) :
    ∃ heap, c.moveToFront p = some { c with heap := heap } ∧
      (∀ q, (heap q).data = (c.heap q).data) ∧
      LRUCache.Holds { c with heap := heap } (p :: (as ++ bs)) := by
  obtain ⟨heap₁, heap, hunlink, hpush, hdata, hrep⟩ := h.moveToFront
  exact ⟨heap, by simp [moveToFront, removeFromList, addToFront, hunlink, hpush],
    hdata, hrep⟩

theorem evictLRU_spec (h : c.Holds (ps ++ [p])) : ∃ items heap, c.evictLRU =
        some { c with items := items, heap := heap, evictions := c.evictions + 1 } ∧
      (∀ q, (heap q).data = (c.heap q).data) ∧
      LRUCache.Holds { c with items := items, heap := heap } ps := by
  have hprev : (c.heap c.tail).prev = some p := h.strung.prev_tail
  have hne : p ≠ c.head := by
    have hnd := h.strung.nodup
    grind
  have hlast : c.Holds (ps ++ p :: []) := h
  obtain ⟨heap, hremove, hdata, hrep⟩ := removeItem_spec hlast
  rw [append_nil] at hrep
  exact ⟨_, heap, by simp [evictLRU, hprev, hne, hremove], hdata, hrep⟩

/-- The loop removes the cells of the given keys. -/
theorem removeKeys_spec (keys : List Key) (h : c.Holds ps) :
    ∃ items heap, c.removeKeys keys = some { c with items := items, heap := heap } ∧
      (∀ q, (heap q).data = (c.heap q).data) ∧
      LRUCache.Holds { c with items := items, heap := heap }
        (ps.filter fun a => (c.heap a).data.key ∉ keys) := by
  induction keys generalizing c ps with
  | nil => exact ⟨c.items, c.heap, rfl, fun q => rfl, by simpa using h⟩
  | cons key keys ih =>
    cases hlookup : c.items.lookup key with
    | none =>
      obtain ⟨items, heap, hrun, hdata, hrep⟩ := ih h
      refine ⟨items, heap, by simpa [removeKeys, hlookup] using hrun, hdata, ?_⟩
      have hsame : (ps.filter fun a => (c.heap a).data.key ∉ key :: keys) =
          ps.filter fun a => (c.heap a).data.key ∉ keys := by
        refine filter_congr fun a ha => ?_
        have hkey : (c.heap a).data.key ≠ key := by
          intro heq
          have hla := h.lookup ha
          rw [heq, hlookup] at hla
          cases hla
        simp [hkey]
      rw [hsame]
      exact hrep
    | some item =>
      obtain ⟨hmem, rfl⟩ := (h.mapped key item).1 hlookup
      obtain ⟨as, bs, rfl⟩ := append_of_mem hmem
      obtain ⟨heap₁, hremove, hdata₁, hrep₁⟩ := removeItem_spec h
      obtain ⟨items, heap, hrun, hdata, hrep⟩ := ih hrep₁
      refine ⟨items, heap, by simpa [removeKeys, hlookup, hremove] using hrun,
        fun q => (hdata q).trans (hdata₁ q), ?_⟩
      have hsame : ((as ++ item :: bs).filter
            fun a => (c.heap a).data.key ∉ (c.heap item).data.key :: keys) =
          (as ++ bs).filter fun a => (heap₁ a).data.key ∉ keys := by
        have hdrop : ((as ++ item :: bs).filter
              fun a => (c.heap a).data.key ∉ (c.heap item).data.key :: keys) =
            (as ++ bs).filter fun a => (c.heap a).data.key ∉ (c.heap item).data.key :: keys := by
          simp
        rw [hdrop]
        refine filter_congr fun a ha => ?_
        simp [hdata₁, h.key_ne ha]
      rw [hsame]
      exact hrep

theorem read_congr {heap : Heap Addr Item} (hdata : ∀ q ∈ ps, (heap q).data = (c.heap q).data) :
    read { c with heap := heap } ps = c.read ps :=
  map_congr_left hdata

end LRUCache

/-! ## The simulation -/

/-- The pointer cache stands for the abstract one. -/
structure Sim (c : LRUCache) (r : Recency) : Prop where
  cells : ∃ ps, c.Holds ps ∧ c.read ps = r.list.entries
  capacity : c.capacity = r.list.capacity
  hits : c.hits = r.hits
  misses : c.misses = r.misses
  evictions : c.evictions = r.evictions

namespace Sim

variable {c : LRUCache} {r : Recency} {now : Time}

theorem keys_eq {ps : List Addr} (hread : c.read ps = r.list.entries) :
    r.list.keys = ps.map fun a => (c.heap a).data.key := by
  rw [RecencyList.keys, ← hread]
  exact map_map

theorem find_eq {ps : List Addr} (h : c.Holds ps) (hread : c.read ps = r.list.entries) (k : Key) :
    r.list.find k = (c.items.lookup k).map fun a => (c.heap a).data := by
  cases hlookup : c.items.lookup k with
  | none =>
    rw [map_none, find_eq_none, keys_eq hread, ← h.keys_perm.mem_iff,
      ← AList.mem_keys, ← AList.lookup_eq_none]
    exact hlookup
  | some a =>
    obtain ⟨ha, hkey⟩ := (h.mapped k a).1 hlookup
    rw [map_some, find_eq_some, ← hread]
    exact ⟨mem_map_of_mem ha, hkey⟩

theorem others_eq {as bs : List Addr} {p : Addr} (hread : c.read (as ++ p :: bs) = r.list.entries) :
    Entry.others r.list.entries (c.heap p).data.key = c.read (as ++ bs) := by
  have hsplit : r.list.entries = c.read as ++ (c.heap p).data :: c.read bs := by
    rw [← hread]
    simp [LRUCache.read]
  have hnd := r.list.nodup
  rw [hsplit] at hnd ⊢
  rw [Entry.others, filter_key_split Entry.key hnd]
  simp [LRUCache.read]

/-- `Get`: a miss, an expired item that is dropped, or a hit that moves to the front. -/
theorem get (h : Sim c r) (now : Time) (key : Key) :
    ∃ c', c.get now key = some (c', (r.get now key).2) ∧ Sim c' (r.get now key).1 := by
  obtain ⟨ps, hps, hread⟩ := h.cells
  have hfind := find_eq hps hread key
  unfold LRUCache.get
  cases hlookup : c.items.lookup key with
  | none =>
    rw [hlookup, map_none] at hfind
    rw [Recency.get_of_none hfind]
    exact ⟨_, rfl, { h with cells := ⟨ps, hps, hread⟩, misses := congrArg (· + 1) h.misses }⟩
  | some item =>
    rw [hlookup, map_some] at hfind
    obtain ⟨hmem, rfl⟩ := (hps.mapped key item).1 hlookup
    obtain ⟨as, bs, rfl⟩ := append_of_mem hmem
    by_cases hstale : Stale now (c.heap item).data.expiresAt
    · obtain ⟨heap, hremove, hdata, hrep⟩ := removeItem_spec hps
      simp only [if_pos hstale, hremove, Recency.get_of_stale hfind hstale]
      refine ⟨_, rfl, { h with
        cells := ⟨as ++ bs, hrep, ?_⟩
        misses := congrArg (· + 1) h.misses }⟩
      exact (read_congr fun q _ => hdata q).trans (others_eq hread).symm
    obtain ⟨heap, hmove, hdata, hrep⟩ := moveToFront_spec hps
    simp only [if_neg hstale, hmove, Recency.get_of_live hfind hstale]
    refine ⟨{ c with heap := heap, hits := c.hits + 1 }, by simp [hdata], { h with
      cells := ⟨item :: (as ++ bs), hrep, ?_⟩
      hits := congrArg (· + 1) h.hits }⟩
    rw [entries_record_of_mem, others_eq hread]
    · exact read_congr fun q _ => hdata q
    · exact mem_map_of_mem (find_eq_some.1 hfind).1

/-- `Put` of a key that is there: new data, moved to the front. -/
theorem put_existing (h : Sim c r) {key : Key} {item : Addr}
    (hlookup : c.items.lookup key = some item) (value : Bytes) (ttl : Duration) :
    ∃ c', c.put now key value ttl = some (c', true) ∧ Sim c' (r.put now key value ttl) := by
  obtain ⟨ps, hps, hread⟩ := h.cells
  have hfind := find_eq hps hread key
  rw [hlookup, map_some] at hfind
  obtain ⟨hmem, rfl⟩ := (hps.mapped key item).1 hlookup
  have hkeys : (c.heap item).data.key ∈ r.list.keys :=
    mem_map_of_mem (find_eq_some.1 hfind).1
  obtain ⟨as, bs, rfl⟩ := append_of_mem hmem
  -- The item is written in place and then moved.
  let updated : Item := { (c.heap item).data with value := value, expiresAt := expiry now ttl }
  let c₁ : LRUCache := { c with heap := c.heap.setData item updated }
  have hps₁ : c₁.Holds (as ++ item :: bs) := hps.setData rfl
  obtain ⟨heap, hmove, hdata, hrep⟩ := moveToFront_spec hps₁
  have hput : c.put now (c.heap item).data.key value ttl =
      some ({ c with heap := heap }, true) := by
    unfold put
    rw [hlookup]
    show (c₁.moveToFront item).bind _ = _
    rw [hmove]
    rfl
  refine ⟨_, hput, { h with cells := ⟨item :: (as ++ bs), hrep, ?_⟩, evictions := ?_ }⟩
  · show read { c₁ with heap := heap } (item :: (as ++ bs)) = (r.list.record updated).entries
    rw [read_congr fun q _ => hdata q, entries_record_of_mem (e := updated) hkeys,
      others_eq hread]
    have hitem : (c₁.heap item).data = updated := by simp [c₁, Heap.data_setData]
    have hrest : c₁.read (as ++ bs) = c.read (as ++ bs) := by
      refine read_congr fun q hq => ?_
      rw [Heap.data_setData, if_neg]
      rintro rfl
      exact hps.key_ne hq rfl
    show (c₁.heap item).data :: c₁.read (as ++ bs) = _
    rw [hitem, hrest]
  · show c.evictions = if r.Overflows (c.heap item).data.key then r.evictions + 1 else r.evictions
    rw [if_neg fun hover => hover.1 hkeys, h.evictions]

/-- A `Put` of a new key: the last item goes if the cache was full. -/
theorem put_new (h : Sim c r) {key : Key} (hlookup : c.items.lookup key = none) (value : Bytes)
    (ttl : Duration) :
    ∃ c', c.put now key value ttl = some (c', true) ∧ Sim c' (r.put now key value ttl) := by
  obtain ⟨ps, hps, hread⟩ := h.cells
  have hfind := find_eq hps hread key
  rw [hlookup, map_none] at hfind
  have hkeys : key ∉ r.list.keys := find_eq_none.1 hfind
  let item : Item := ⟨key, value, expiry now ttl⟩
  obtain ⟨heap, hpush, hself, hdata, hrep⟩ := hps.insertNew (d := item) hlookup
  let c₁ : LRUCache :=
    { c with items := c.items.insert key c.fresh, heap := heap, fresh := c.fresh + 1 }
  have hps₁ : c₁.Holds (c.fresh :: ps) := hrep
  have hread₁ : c₁.read ps = r.list.entries := (read_congr hdata).trans hread
  have hlen : ps.length = r.list.entries.length := by rw [← hread, LRUCache.read, length_map]
  have hadd : (c.alloc item).addToFront c.fresh =
      some { c with heap := heap, fresh := c.fresh + 1 } := by
    unfold addToFront alloc
    rw [hpush]
    rfl
  have hput : c.put now key value ttl =
      (if (c₁.items.len : Int) > c₁.capacity then c₁.evictLRU else some c₁).map (·, true) := by
    unfold put
    rw [hlookup]
    show ((c.alloc item).addToFront c.fresh).bind _ = _
    rw [hadd]
    rfl
  have hlen₁ : c₁.items.len = ps.length + 1 := hps₁.len_eq
  have hcap : c₁.capacity = r.list.capacity := h.capacity
  have hle := r.list.bounded
  by_cases hfull : r.list.entries.length = r.list.capacity
  · -- The cells before the new one are not empty, and the last of them is evicted.
    obtain ⟨qs, q, rfl⟩ := eq_nil_or_concat' ps |>.resolve_left fun hnil => by
      have hpos := r.list.positive
      rw [hnil, length_nil] at hlen
      omega
    have hps₁' : c₁.Holds ((c.fresh :: qs) ++ [q]) := hps₁
    obtain ⟨items, heap₂, hevict, hdata₂, hrep₂⟩ := evictLRU_spec hps₁'
    rw [if_pos (by rw [hlen₁, hcap]; omega), hevict] at hput
    refine ⟨_, hput, { h with cells := ⟨c.fresh :: qs, hrep₂, ?_⟩, evictions := ?_ }⟩
    · show LRUCache.read { c₁ with heap := heap₂ } (c.fresh :: qs) = (r.list.record item).entries
      rw [read_congr fun q _ => hdata₂ q, entries_record_of_full hkeys hfull,
        ← hread₁]
      simp [LRUCache.read, c₁, hself]
    · show c.evictions + 1 = if r.Overflows key then r.evictions + 1 else r.evictions
      rw [if_pos ⟨hkeys, hfull⟩, h.evictions]
  · rw [if_neg (by rw [hlen₁, hcap]; omega)] at hput
    refine ⟨_, hput, { h with cells := ⟨c.fresh :: ps, hrep, ?_⟩, evictions := ?_ }⟩
    · show (heap c.fresh).data :: c₁.read ps = (r.list.record item).entries
      rw [hself, hread₁, entries_record_of_lt hkeys (by omega)]
    · show c.evictions = if r.Overflows key then r.evictions + 1 else r.evictions
      rw [if_neg fun hover => hfull hover.2, h.evictions]

theorem put (h : Sim c r) (now : Time) (key : Key) (value : Bytes) (ttl : Duration) :
    ∃ c', c.put now key value ttl = some (c', true) ∧ Sim c' (r.put now key value ttl) := by
  cases hlookup : c.items.lookup key with
  | none => exact h.put_new hlookup value ttl
  | some item => exact h.put_existing hlookup value ttl

theorem delete (h : Sim c r) (key : Key) :
    ∃ c', c.delete key = some (c', (r.list.find key).isSome) ∧
      Sim c' { r with list := r.list.remove key } := by
  obtain ⟨ps, hps, hread⟩ := h.cells
  have hfind := find_eq hps hread key
  unfold LRUCache.delete
  cases hlookup : c.items.lookup key with
  | none =>
    rw [hlookup, map_none] at hfind
    refine ⟨c, by rw [hfind]; rfl, { h with cells := ⟨ps, hps, hread.trans ?_⟩ }⟩
    exact (Entry.others_of_notMem (find_eq_none.1 hfind)).symm
  | some item =>
    rw [hlookup, map_some] at hfind
    obtain ⟨hmem, rfl⟩ := (hps.mapped key item).1 hlookup
    obtain ⟨as, bs, rfl⟩ := append_of_mem hmem
    obtain ⟨heap, hremove, hdata, hrep⟩ := removeItem_spec hps
    refine ⟨_, by rw [hfind]; simp only [hremove]; rfl, { h with cells := ⟨as ++ bs, hrep, ?_⟩ }⟩
    exact (read_congr fun q _ => hdata q).trans (others_eq hread).symm

theorem clear (h : Sim c r) :
    Sim c.clear { list := r.list.clear, hits := 0, misses := 0, evictions := 0 } := by
  obtain ⟨ps, hps, -⟩ := h.cells
  exact { cells := ⟨[], hps.clear, rfl⟩, capacity := h.capacity, hits := rfl, misses := rfl,
          evictions := rfl }

theorem expiredKey_eq {ps : List Addr} (h : c.Holds ps) {a : Addr} (ha : a ∈ ps) :
    c.expiredKey now (c.heap a).data.key = decide (Stale now (c.heap a).data.expiresAt) := by
  unfold expiredKey
  rw [h.lookup ha]

/-- `CleanupExpired`, whatever the order of its loop. -/
theorem cleanupExpired (h : Sim c r) (now : Time) (order : IterationOrder Key) :
    ∃ c', c.cleanupExpired now order =
        some (c', r.list.entries.countP fun e => Stale now e.expiresAt) ∧
      Sim c' { r with list := r.list.expire now } := by
  obtain ⟨ps, hps, hread⟩ := h.cells
  let expired : List Key := (order.pick c.items.keys).filter (c.expiredKey now)
  have hmem : ∀ a ∈ ps, (c.heap a).data.key ∈ expired ↔ Stale now (c.heap a).data.expiresAt := by
    intro a ha
    have hkey : (c.heap a).data.key ∈ c.items.keys :=
      hps.keys_perm.mem_iff.2 (mem_map_of_mem (f := fun a => (c.heap a).data.key) ha)
    simp [expired, expiredKey_eq hps ha, hkey]
  have hcount : expired.length = r.list.entries.countP fun e => Stale now e.expiresAt := by
    calc expired.length = c.items.keys.countP (c.expiredKey now) := by
          rw [← countP_eq_length_filter]
          exact (order.perm _).countP_eq _
      _ = ps.countP fun a => c.expiredKey now (c.heap a).data.key := by
          rw [hps.keys_perm.countP_eq, countP_map]
          rfl
      _ = ps.countP fun a => Stale now (c.heap a).data.expiresAt :=
          countP_congr fun a ha => by rw [expiredKey_eq hps ha]
      _ = r.list.entries.countP fun e => Stale now e.expiresAt := by
          rw [← hread, LRUCache.read, countP_map]
          rfl
  obtain ⟨items, heap, hremove, hdata, hrep⟩ := removeKeys_spec expired hps
  refine ⟨{ c with items := items, heap := heap }, ?_, { h with cells := ⟨_, hrep, ?_⟩ }⟩
  · show (c.removeKeys expired).bind _ = _
    rw [hremove, ← hcount]
    rfl
  show _ = r.list.entries.filter fun e => ¬ Stale now e.expiresAt
  rw [← hread, LRUCache.read, LRUCache.read, List.filter_map]
  simp only [hdata]
  congr 1
  refine filter_congr fun a ha => ?_
  simp [hmem a ha]

/-- Every call of the pointer cache is a call of the abstract one. -/
theorem call (h : Sim c r) (now : Time) (x : Call) :
    ∃ c', c.call now x = some (c', (r.call now x).2) ∧ Sim c' (r.call now x).1 := by
  cases x with
  | get key =>
    obtain ⟨c', hget, hsim⟩ := h.get now key
    exact ⟨c', by simp [LRUCache.call, hget, Recency.call], hsim⟩
  | put key value ttl =>
    obtain ⟨c', hput, hsim⟩ := h.put now key value ttl
    exact ⟨c', by simp [LRUCache.call, hput, Recency.call], hsim⟩
  | delete key =>
    obtain ⟨c', hdelete, hsim⟩ := h.delete key
    exact ⟨c', by simp [LRUCache.call, hdelete, Recency.call], hsim⟩
  | clear => exact ⟨c.clear, rfl, h.clear⟩
  | cleanupExpired order =>
    obtain ⟨c', hcleanup, hsim⟩ := h.cleanupExpired now order
    exact ⟨c', by simp [LRUCache.call, hcleanup, Recency.call], hsim⟩

end Sim

theorem sim_new (capacity : Int) : Sim (newLRUCache capacity) (Recency.new capacity) where
  cells := by
    refine ⟨[], ⟨.nil (by decide), fun k a => by simp [newLRUCache], fun a ha => ?_⟩, rfl⟩
    show a < 2
    obtain rfl | rfl : a = 0 ∨ a = 1 := by simpa [newLRUCache] using ha
    · decide
    · decide
  capacity := by
    show (if capacity ≤ 0 then 1000 else capacity) =
      ((if capacity ≤ 0 then 1000 else capacity).toNat : Int)
    split <;> omega
  hits := rfl
  misses := rfl
  evictions := rfl

/-! ## Runs -/

/-- The cache and the calls made so far, newest first. -/
structure Observed where
  cache : LRUCache
  history : List Event

/-- A call and the clock it reads. -/
def Observed.step (s : Observed) (t : Time × Call) : Option Observed :=
  (s.cache.call t.1 t.2).map fun r =>
    { cache := r.1
      history := ⟨t.1, t.2, r.2, s.cache.items.keys.filter (· ∉ r.1.items.keys)⟩ :: s.history }

/-- A run of calls on a new cache. -/
def runCalls (capacity : Int) (calls : List (Time × Call)) : Option Observed :=
  Lts.exec Observed.step ⟨newLRUCache capacity, []⟩ calls

/-- The linked list read from `head` to `tail`. -/
def LRUCache.forwards : Option (List Item) :=
  (Heap.follow (fun a => (c.heap a).next) c.tail (c.items.len + 1) c.head).map c.read

/-- The linked list read from `tail` to `head`. -/
def LRUCache.backwards : Option (List Item) :=
  (Heap.follow (fun a => (c.heap a).prev) c.head (c.items.len + 1) c.tail).map c.read

/-- The item of a key. -/
def LRUCache.item (key : Key) : Option Item :=
  (c.items.lookup key).map fun a => (c.heap a).data

/-- The cache is full, and the key is not in it. -/
def LRUCache.Full (key : Key) : Prop :=
  key ∉ c.items ∧ (c.items.len : Int) = c.capacity

/-- What the cache is, and what the next calls do, after a run. -/
structure Faithful (s : Observed) (r : Recency) : Prop where
  /-- The list, read either way, is the recency list. -/
  forwards : s.cache.forwards = some r.list.entries
  backwards : s.cache.backwards = some r.list.entries.reverse
  /-- The map has exactly the items of the list. -/
  mapped : ∀ k, s.cache.item k = r.list.find k
  nodup : (r.list.entries.map Entry.key).Nodup
  size : s.cache.stats.size = r.list.entries.length
  /-- The items stand in the order of their last use. -/
  ordered : r.list.entries.Pairwise fun a b => age s.history a.key < age s.history b.key
  bounded : (s.cache.stats.size : Int) ≤ s.cache.capacity
  /-- The key that a `Put` drops is the one used longest ago. -/
  evicts : ∀ now key value ttl, ∃ c', s.cache.put now key value ttl = some (c', true) ∧
    ∀ j ∈ s.cache.items, j ∉ c'.items ↔
      s.cache.Full key ∧ ∀ i ∈ s.cache.items, age s.history i ≤ age s.history j
  /-- A `Get` returns what the history says. -/
  gets : ∀ now key, (∀ ev ∈ s.history, ev.now ≤ now) →
    ∃ c', s.cache.get now key = some (c', current now s.history key)
  /-- Every `Get` since the last `Clear` was counted, in 64 bits. -/
  counted : s.cache.stats.hits + s.cache.stats.misses = Int64.ofNat (getsSinceClear s.history)
  exact_count : getsSinceClear s.history < 2 ^ 63 →
    (s.cache.stats.hits + s.cache.stats.misses).toInt = getsSinceClear s.history

section

variable {c c' : LRUCache} {r r' : Recency} {s : Observed}

theorem Sim.mem_items (h : Sim c r) {k : Key} : k ∈ c.items ↔ k ∈ r.list.keys := by
  obtain ⟨ps, hps, hread⟩ := h.cells
  rw [Sim.keys_eq hread, ← hps.keys_perm.mem_iff]
  exact mem_keys

theorem Sim.len_eq (h : Sim c r) : c.items.len = r.list.entries.length := by
  obtain ⟨ps, hps, hread⟩ := h.cells
  rw [hps.len_eq, ← hread]
  exact (length_map _).symm

theorem Sim.full_iff (h : Sim c r) {key : Key} : c.Full key ↔ r.Overflows key := by
  unfold LRUCache.Full Recency.Overflows
  rw [h.mem_items, h.len_eq, h.capacity, Int.ofNat_inj]

/-- What the simulation and the history say of one state. -/
theorem faithful (hsim : Sim s.cache r) (hrec : Recalls r s.history) : Faithful s r := by
  obtain ⟨ps, hps, hread⟩ := hsim.cells
  have hlen : ps.length < s.cache.items.len + 1 := by
    rw [hps.len_eq]
    omega
  have hcount : s.cache.stats.hits + s.cache.stats.misses =
      Int64.ofNat (getsSinceClear s.history) := by
    rw [← hrec.counted, ← hsim.hits, ← hsim.misses]
    rfl
  refine
    { forwards := ?_, backwards := ?_
      mapped := fun k => (Sim.find_eq hps hread k).symm
      nodup := r.list.nodup
      size := hsim.len_eq
      ordered := hrec.ordered
      bounded := ?_, evicts := ?_, gets := ?_
      counted := hcount
      exact_count := fun hlt => by rw [hcount, Int64.toInt_ofNat_of_lt hlt] }
  · rw [forwards, hps.strung.follow_next hlen, map_some, hread]
  · rw [LRUCache.backwards, hps.strung.follow_prev hlen, map_some, ← hread]
    simp [LRUCache.read]
  · show (s.cache.items.len : Int) ≤ s.cache.capacity
    rw [hsim.len_eq, hsim.capacity]
    exact Int.ofNat_le.2 r.list.bounded
  · intro now key value ttl
    obtain ⟨c', hput, hsim'⟩ := hsim.put now key value ttl
    refine ⟨c', hput, fun j hj => ?_⟩
    rw [hsim'.mem_items, hrec.dropped_iff value ttl (hsim.mem_items.1 hj), hsim.full_iff]
    simp only [hsim.mem_items]
  · intro now key hnow
    obtain ⟨c', hget, -⟩ := hsim.get now key
    exact ⟨c', hrec.get_eq hnow key ▸ hget⟩

/-- The simulation along a run, with the same results. -/
theorem run_sim (hsim : Sim s.cache r) (hrec : Recalls r s.history) (calls : List (Time × Call)) :
    ∃ s', Lts.exec Observed.step s calls = some s' ∧ Sim s'.cache (r.run calls).1 ∧
      Recalls (r.run calls).1 s'.history ∧
      s'.history.map Event.result = (r.run calls).2.reverse ++ s.history.map Event.result := by
  induction calls generalizing s r with
  | nil => exact ⟨s, rfl, hsim, hrec, rfl⟩
  | cons t calls ih =>
    obtain ⟨c', hcall, hsim'⟩ := hsim.call t.1 t.2
    let dropped : List Key := s.cache.items.keys.filter (· ∉ c'.items.keys)
    let s₁ : Observed := ⟨c', ⟨t.1, t.2, (r.call t.1 t.2).2, dropped⟩ :: s.history⟩
    have hstep : s.step t = some s₁ := by
      unfold Observed.step
      rw [hcall]
      rfl
    have hdropped : ∀ k, k ∈ dropped ↔ k ∈ r.list.keys ∧ k ∉ (r.call t.1 t.2).1.list.keys := by
      intro k
      rw [← hsim.mem_items, ← hsim'.mem_items]
      simp [dropped, AList.mem_keys]
    obtain ⟨s', hrun, hsim'', hrec', hresults⟩ := ih (s := s₁) hsim' (hrec.call t.2 hdropped)
    refine ⟨s', ?_, hsim'', hrec', ?_⟩
    · show (s.step t).bind _ = _
      rw [hstep]
      exact hrun
    · rw [hresults]
      simp [s₁, Recency.run]

end

/-- **The cache is a bounded recency list with expiry**: after any calls, for any capacity,
clock readings and map orders, the pointer cache has not panicked, has returned what the
abstract cache returns, and is `Faithful` to it. -/
theorem lru_refines_recency (capacity : Int) (calls : List (Time × Call)) :
    ∃ s, runCalls capacity calls = some s ∧
      s.history.map Event.result = ((Recency.new capacity).run calls).2.reverse ∧
      s.cache.capacity = (if capacity ≤ 0 then 1000 else capacity) ∧
      Faithful s ((Recency.new capacity).run calls).1 := by
  obtain ⟨s, hrun, hsim, hrec, hresults⟩ :=
    run_sim (s := ⟨newLRUCache capacity, []⟩) (sim_new capacity) (recalls_new capacity) calls
  refine ⟨s, hrun, by simpa using hresults, ?_, faithful hsim hrec⟩
  rw [hsim.capacity, Recency.capacity_run]
  exact (sim_new capacity).capacity.symm

-- Two places: reading `a` saves it from the eviction that `c` causes.
example :
    (runCalls 2
      [(0, .put [97] [1] 0), (1, .put [98] [2] 5), (2, .get [97]), (3, .put [99] [3] 0)]).map
      (fun s => (s.cache.forwards.map (List.map Entry.key), s.history.head?.map Event.dropped)) =
    some (some [[99], [97]], some [[98]]) := by
  decide +kernel

end DistributedKV.Cache
