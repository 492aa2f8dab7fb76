import Mathlib.Algebra.Order.BigOperators.Group.List
import Mathlib.Algebra.Order.Ring.Int
import Mathlib.Data.List.AList

/-!
# Maps with an unspecified iteration order

A loop over a map visits its entries in an order that the program does not choose and that may
differ from one loop to the next: an `IterationOrder` is such a choice, a permutation of whatever
there is to visit. A loop may also stop early.
-/

namespace DistributedKV

open AList List

universe u

/-- A map from `K` to `V`. -/
abbrev GoMap (K V : Type u) := AList fun _ : K => V

/-- The number of keys of a map. -/
def GoMap.len {K V : Type u} (m : GoMap K V) : Nat := m.keys.length

/-- Change one value of a map, if its key is there. -/
def GoMap.modify {K V : Type u} [DecidableEq K] (m : GoMap K V) (k : K) (f : V → V) : GoMap K V :=
  match m.lookup k with
  | some v => m.insert k (f v)
  | none => m

/-- Change every value of a map, each on its own: the order of the loop does not matter. -/
def GoMap.mapValues {K V : Type u} (m : GoMap K V) (f : V → V) : GoMap K V where
  entries := m.entries.map fun e => ⟨e.1, f e.2⟩
  nodupKeys := by
    have hkeys : (m.entries.map fun e => (⟨e.1, f e.2⟩ : (_ : K) × V)).keys = m.entries.keys := by
      simp [List.keys]
    rw [List.NodupKeys, hkeys]
    exact m.nodupKeys

/-- Delete the entries that fail a test, each on its own. -/
def GoMap.keep {K V : Type u} (m : GoMap K V) (test : V → Bool) : GoMap K V where
  entries := m.entries.filter fun e => test e.2
  nodupKeys := m.nodupKeys.sublist List.filter_sublist

/-- Store a list of entries one after the other. -/
def GoMap.putAll {K V : Type u} [DecidableEq K] (m : GoMap K V) (pairs : List (K × V)) :
    GoMap K V :=
  pairs.foldl (fun m e => m.insert e.1 e.2) m

section Values

variable {K V : Type u} [DecidableEq K] {m : GoMap K V} {k k' : K} {f : V → V}

variable {v : V} {pairs : List (K × V)}

theorem GoMap.mem_of_lookup (h : m.lookup k = some v) : k ∈ m :=
  lookup_isSome.mp (by rw [h]; rfl)

theorem GoMap.exists_lookup (h : k ∈ m) : ∃ v, m.lookup k = some v :=
  Option.isSome_iff_exists.mp (lookup_isSome.mpr h)

theorem GoMap.lookup_insert_ite :
    (m.insert k v).lookup k' = if k' = k then some v else m.lookup k' := by
  split_ifs with h
  · rw [h, lookup_insert]
  · exact lookup_insert_ne h

theorem GoMap.lookup_erase_ite : (m.erase k).lookup k' = if k' = k then none else m.lookup k' := by
  split_ifs with h
  · rw [h, lookup_erase]
  · exact lookup_erase_ne h

theorem GoMap.lookup_insert_eq_some {v' : V} :
    (m.insert k v).lookup k' = some v' ↔ k' = k ∧ v = v' ∨ k' ≠ k ∧ m.lookup k' = some v' := by
  rw [lookup_insert_ite]
  split_ifs with h <;> simp [h]

theorem GoMap.lookup_erase_eq_some :
    (m.erase k).lookup k' = some v ↔ k' ≠ k ∧ m.lookup k' = some v := by
  rw [lookup_erase_ite]
  split_ifs with h <;> simp [h]

@[simp] theorem GoMap.lookup_mapValues : (m.mapValues f).lookup k = (m.lookup k).map f := by
  show List.dlookup k (m.entries.map fun e => (⟨e.1, f e.2⟩ : (_ : K) × V)) =
    (List.dlookup k m.entries).map f
  induction m.entries with
  | nil => rfl
  | cons e es ih =>
    obtain ⟨k', v⟩ := e
    by_cases h : k = k'
    · subst h
      simp
    · rw [map_cons, dlookup_cons_ne _ _ h, dlookup_cons_ne _ _ h, ih]

@[simp] theorem GoMap.mem_mapValues : k ∈ m.mapValues f ↔ k ∈ m := by
  rw [← lookup_isSome, lookup_mapValues, Option.isSome_map, lookup_isSome]

open GoMap

theorem GoMap.lookup_modify :
    (m.modify k' f).lookup k = if k = k' then (m.lookup k).map f else m.lookup k := by
  unfold modify
  by_cases h : k = k'
  · subst h
    cases hv : m.lookup k with
    | none => simp [hv]
    | some v => simp
  · cases hv : m.lookup k' with
    | none => simp [h]
    | some v => simp [h, lookup_insert_ne h]

@[simp] theorem GoMap.mem_modify : k ∈ m.modify k' f ↔ k ∈ m := by
  rw [← lookup_isSome, lookup_modify, ← lookup_isSome]
  split <;> simp

theorem GoMap.lookup_keep {test : V → Bool} :
    (m.keep test).lookup k = (m.lookup k).filter test := by
  have hmem : ∀ v, v ∈ (m.keep test).lookup k ↔ v ∈ (m.lookup k).filter test := by
    intro v
    rw [mem_lookup_iff, Option.mem_filter_iff, mem_lookup_iff]
    exact mem_filter
  exact Option.ext fun v => hmem v

theorem GoMap.lookup_putAll_of_notMem (h : k ∉ pairs.map Prod.fst) :
    (m.putAll pairs).lookup k = m.lookup k := by
  induction pairs generalizing m with
  | nil => rfl
  | cons e pairs ih =>
    rw [map_cons, mem_cons, not_or] at h
    show (putAll (m.insert e.1 e.2) pairs).lookup k = m.lookup k
    rw [ih h.2, lookup_insert_ne h.1]

theorem GoMap.lookup_putAll (hnodup : (pairs.map Prod.fst).Nodup) (h : (k, v) ∈ pairs) :
    (m.putAll pairs).lookup k = some v := by
  induction pairs generalizing m with
  | nil => cases h
  | cons e pairs ih =>
    rw [map_cons, nodup_cons] at hnodup
    show (putAll (m.insert e.1 e.2) pairs).lookup k = some v
    rcases mem_cons.mp h with rfl | h
    · rw [lookup_putAll_of_notMem hnodup.1, lookup_insert]
    · exact ih hnodup.2 h

/-! ### Sizes -/

theorem GoMap.len_insert : len (m.insert k v) = len (m.erase k) + 1 := by
  show (m.insert k v).keys.length = (m.erase k).keys.length + 1
  rw [keys_insert, keys_erase, length_cons]

theorem GoMap.len_erase_of_mem (h : k ∈ m) : len (m.erase k) + 1 = m.len := by
  have hmem : k ∈ m.keys := mem_keys.mp h
  have hpos := length_pos_of_mem hmem
  show (m.erase k).keys.length + 1 = m.keys.length
  rw [keys_erase, length_erase_of_mem hmem]
  omega

theorem GoMap.len_erase_le : len (m.erase k) ≤ m.len := by
  show (m.erase k).keys.length ≤ m.keys.length
  rw [keys_erase]
  exact length_erase_le

theorem GoMap.len_insert_of_mem (h : k ∈ m) : len (m.insert k v) = m.len := by
  rw [len_insert, len_erase_of_mem h]

theorem GoMap.len_insert_le : len (m.insert k v) ≤ m.len + 1 := by
  exact Nat.add_le_add_right len_erase_le 1

/-- What is erased before a key is set does not matter. -/
theorem GoMap.insert_erase : (m.erase k).insert k v = m.insert k v := by
  apply AList.ext
  rw [entries_insert, entries_insert]
  show _ :: List.kerase k (List.kerase k m.entries) = _
  rw [kerase_of_notMem_keys (notMem_keys_kerase k m.nodupKeys)]

/-! ### Totals -/

/-- The sum of a measure over the entries of a map. -/
def GoMap.total (m : GoMap K V) (weight : K → V → Int) : Int :=
  (m.entries.map fun e => weight e.1 e.2).sum

variable {weight weight' : K → V → Int}

theorem GoMap.total_erase (weight : K → V → Int) (h : m.lookup k = some v) :
    m.total weight = weight k v + total (m.erase k) weight := by
  obtain ⟨w, before, after, hbefore, hentries, herase⟩ :=
    exists_of_kerase (mem_keys.mp (mem_of_lookup h))
  have hsame : (⟨k, w⟩ : (_ : K) × V) ∈ m.entries := by
    rw [hentries]
    exact mem_append_right before mem_cons_self
  obtain rfl : w = v := by
    have hlookup : m.lookup k = some w := mem_lookup_iff.mpr hsame
    exact Option.some.inj (hlookup.symm.trans h)
  have hpart : (m.erase k).entries = before ++ after := herase
  rw [total, total, hentries, hpart]
  simp only [map_append, map_cons, sum_append, sum_cons]
  omega

theorem GoMap.total_erase_of_notMem (h : m.lookup k = none) :
    total (m.erase k) weight = m.total weight := by
  have hpart : (m.erase k).entries = m.entries :=
    kerase_of_notMem_keys (mt mem_keys.mpr (lookup_eq_none.mp h))
  rw [total, total, hpart]

theorem GoMap.total_insert :
    total (m.insert k v) weight = weight k v + total (m.erase k) weight := by
  rfl

theorem GoMap.total_congr (h : ∀ k v, m.lookup k = some v → weight k v = weight' k v) :
    m.total weight = m.total weight' := by
  rw [total, total]
  congr 1
  exact map_congr_left fun e he => h e.1 e.2 (mem_lookup_iff.mpr he)

theorem GoMap.total_eq_sum {l : List (K × V)} (hnodup : (l.map Prod.fst).Nodup)
    (hlookup : ∀ k v, m.lookup k = some v ↔ (k, v) ∈ l) :
    m.total weight = (l.map fun kv => weight kv.1 kv.2).sum := by
  have hinj : Function.Injective fun kv : K × V => (⟨kv.1, kv.2⟩ : (_ : K) × V) := by
    rintro ⟨k, v⟩ ⟨k', v'⟩ heq
    cases heq
    rfl
  have hperm : m.entries.Perm (l.map fun kv => ⟨kv.1, kv.2⟩) := by
    refine (perm_ext_iff_of_nodup m.nodupKeys.nodup (hnodup.of_map.map hinj)).mpr fun e => ?_
    rw [mem_map]
    constructor
    · intro he
      exact ⟨(e.1, e.2), (hlookup e.1 e.2).mp (mem_lookup_iff.mpr he), rfl⟩
    · rintro ⟨kv, hkv, rfl⟩
      exact mem_lookup_iff.mp ((hlookup kv.1 kv.2).mpr hkv)
  rw [total, (hperm.map _).sum_eq, map_map]
  rfl

theorem GoMap.total_mono (h : ∀ k v, m.lookup k = some v → weight k v ≤ weight' k v) :
    m.total weight ≤ m.total weight' :=
  sum_le_sum fun e he => h e.1 e.2 (mem_lookup_iff.mpr he)

end Values

/-- An order in which a loop may visit the elements of a map. -/
structure IterationOrder (α : Type u) where
  pick : List α → List α
  perm : ∀ l, (pick l).Perm l

namespace IterationOrder

variable {α : Type u}

@[simp] theorem mem_pick (order : IterationOrder α) (l : List α) {a : α} :
    a ∈ order.pick l ↔ a ∈ l :=
  (order.perm l).mem_iff

/-- The elements in the order in which they are given. -/
def asGiven : IterationOrder α := ⟨id, fun _ => .rfl⟩

/-- A loop may visit the elements of a map in any order. -/
theorem exists_pick_eq {l l' : List α} (h : l'.Perm l) :
    ∃ order : IterationOrder α, order.pick l = l' := by
  classical
  refine ⟨⟨fun given => if given = l then l' else given, fun given => ?_⟩, if_pos rfl⟩
  split
  · next heq => exact heq ▸ h
  · exact .rfl

end IterationOrder

/-- What a loop visits that counts its rounds and breaks off at a limit, if that is positive. -/
def untilLimit {α : Type u} (limit : Int) (count : Nat) : List α → List α
  | [] => []
  | a :: l => if 0 < limit ∧ limit ≤ count then [] else a :: untilLimit limit (count + 1) l

theorem untilLimit_eq_self {α : Type u} {limit : Int} {count : Nat} {l : List α}
    (h : limit ≤ 0 ∨ (count + l.length : Int) ≤ limit) : untilLimit limit count l = l := by
  induction l generalizing count with
  | nil => rfl
  | cons a l ih =>
    rw [length_cons] at h
    rw [untilLimit, if_neg (by omega), ih (by omega)]

/-- The entries that such a loop over a map visits. -/
def GoMap.rangeUntil {K V : Type u} (m : GoMap K V) (order : IterationOrder ((_ : K) × V))
    (limit : Int) : List ((_ : K) × V) :=
  untilLimit limit 0 (order.pick m.entries)

/-- A loop that the limit does not stop visits every key once. -/
theorem GoMap.rangeUntil_perm {K V : Type u} (m : GoMap K V) (order : IterationOrder ((_ : K) × V))
    {limit : Int} (h : limit ≤ 0 ∨ (m.len : Int) ≤ limit) :
    ((m.rangeUntil order limit).map Sigma.fst).Perm m.keys := by
  have hlen : (order.pick m.entries).length = m.len := by
    rw [(order.perm m.entries).length_eq, len, AList.keys, List.keys, length_map]
  rw [rangeUntil, untilLimit_eq_self (by omega)]
  exact (order.perm m.entries).map Sigma.fst

end DistributedKV
