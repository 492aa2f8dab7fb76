import DistributedKV.Cache.Refinement

/-!
# What the cached items satisfy

A client of the cache usually cares about one thing: that every item it holds,
expired or not, is one it may return. `LRUCache.All c P` says that `c` is a sound
cache whose items all satisfy `P`; the lemmas say how each method changes `P`.
Which items are dropped, and when, does not matter here.
-/

namespace DistributedKV.Cache

open Recency RecencyList

/-- A sound cache whose items all satisfy `P`. -/
def LRUCache.All (c : LRUCache) (P : Item → Prop) : Prop :=
  ∃ r, Sim c r ∧ ∀ e ∈ r.list.entries, P e

variable {c : LRUCache} {P Q : Item → Prop}

theorem all_new (capacity : Int) : (newLRUCache capacity).All P :=
  ⟨Recency.new capacity, sim_new capacity, fun _ he => absurd he List.not_mem_nil⟩

namespace LRUCache.All

section

variable (h : c.All P)
include h

theorem mono (hpq : ∀ e, P e → Q e) : c.All Q := by
  obtain ⟨r, hsim, hall⟩ := h
  exact ⟨r, hsim, fun e he => hpq e (hall e he)⟩

theorem item {key : Key} {e : Item} (he : c.item key = some e) : P e ∧ e.key = key := by
  obtain ⟨r, hsim, hall⟩ := h
  obtain ⟨ps, hps, hread⟩ := hsim.cells
  have hfind : r.list.find key = some e := (Sim.find_eq hps hread key).trans he
  exact ⟨hall e (find_eq_some.1 hfind).1, (find_eq_some.1 hfind).2⟩

/-- A get moves or drops an item, and finds only what was there. -/
theorem get (now : Time) (key : Key) : ∃ c' found, c.get now key = some (c', found) ∧ c'.All P ∧
      ∀ value ∈ found, ∃ e, P e ∧ e.key = key ∧ e.value = value := by
  obtain ⟨r, hsim, hall⟩ := h
  obtain ⟨c', hget, hsim'⟩ := hsim.get now key
  refine ⟨c', _, hget, ⟨_, hsim', ?_⟩, ?_⟩
  · cases hfind : r.list.find key with
    | none => simpa [get_of_none hfind] using hall
    | some e =>
      by_cases hstale : Stale now e.expiresAt
      · rw [get_of_stale hfind hstale]
        exact fun a ha => hall a (List.mem_of_mem_filter ha)
      · rw [get_of_live hfind hstale]
        exact fun a ha => hall a ((Recalls.mem_record_of_mem (find_eq_some.1 hfind).1).1 ha)
  intro value hvalue
  cases hfind : r.list.find key with
  | none => simp [get_of_none hfind] at hvalue
  | some e =>
    by_cases hstale : Stale now e.expiresAt
    · simp [get_of_stale hfind hstale] at hvalue
    · obtain ⟨he, hkey⟩ := find_eq_some.1 hfind
      exact ⟨e, hall e he, hkey, by simpa [get_of_live hfind hstale] using hvalue⟩

/-- A put leaves one item of its key, and some or all of the others. -/
theorem put (now : Time) (key : Key) (value : Bytes) (ttl : Duration)
    (hother : ∀ e, P e → e.key ≠ key → Q e) (hself : Q ⟨key, value, expiry now ttl⟩) :
    ∃ c', c.put now key value ttl = some (c', true) ∧ c'.All Q := by
  obtain ⟨r, hsim, hall⟩ := h
  obtain ⟨c', hput, hsim'⟩ := hsim.put now key value ttl
  refine ⟨c', hput, _, hsim', fun e he => ?_⟩
  obtain ⟨es, hes, hsub⟩ := r.list.record_eq_cons (e := ⟨key, value, expiry now ttl⟩)
  have hmem : e ∈ (⟨key, value, expiry now ttl⟩ : Item) :: es := hes ▸ he
  obtain rfl | he' := List.mem_cons.1 hmem
  · exact hself
  · obtain ⟨hold, hne⟩ := Entry.mem_others.1 (hsub.subset he')
    exact hother e (hall e hold) hne

theorem delete (key : Key) (hother : ∀ e, P e → e.key ≠ key → Q e) :
    ∃ c' b, c.delete key = some (c', b) ∧ c'.All Q := by
  obtain ⟨r, hsim, hall⟩ := h
  obtain ⟨c', hdelete, hsim'⟩ := hsim.delete key
  refine ⟨c', _, hdelete, _, hsim', fun e he => ?_⟩
  obtain ⟨hold, hne⟩ := Entry.mem_others.1 he
  exact hother e (hall e hold) hne

theorem clear : c.clear.All Q := by
  obtain ⟨r, hsim, -⟩ := h
  exact ⟨_, hsim.clear, fun e he => absurd he List.not_mem_nil⟩

theorem cleanupExpired (now : Time) (order : IterationOrder Key) :
    ∃ c' n, c.cleanupExpired now order = some (c', n) ∧ c'.All P := by
  obtain ⟨r, hsim, hall⟩ := h
  obtain ⟨c', hcleanup, hsim'⟩ := hsim.cleanupExpired now order
  exact ⟨c', _, hcleanup, _, hsim', fun e he => hall e (List.mem_of_mem_filter he)⟩

end

end LRUCache.All

end DistributedKV.Cache
