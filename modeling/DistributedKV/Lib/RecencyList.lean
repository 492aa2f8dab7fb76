import Mathlib.Data.List.Nodup
import Mathlib.Order.Lattice

/-!
# Bounded recency lists

A list of entries, at most `capacity` of them and at most one for each key, the most recently used
one first. An entry may carry an instant after which it is stale; nothing happens to it by itself.

`record e` puts `e` to the front, in the place of the entry of its key; if the list is then too
long, its last entry goes. That a list holds each key once and at most `capacity` entries is part
of the type.
-/

namespace DistributedKV

open List

universe u

/-- A key, its value, and the instant after which the value is stale. -/
structure Entry (K V T : Type u) where
  key : K
  value : V
  expiresAt : Option T

/-- The instant `t` of expiry, if there is one, lies strictly before `now`. -/
def Stale {T : Type u} [LT T] (now : T) (t : Option T) : Prop :=
  ∃ x ∈ t, x < now

instance {T : Type u} [LT T] [DecidableLT T] (now : T) (t : Option T) : Decidable (Stale now t) :=
  match t with
  | none => .isFalse (by simp [Stale])
  | some x => decidable_of_iff (x < now) (by simp [Stale])

theorem Stale.mono {T : Type u} [Preorder T] {now later : T} {t : Option T} (h : Stale now t)
    (hle : now ≤ later) : Stale later t := by
  obtain ⟨x, hx, hlt⟩ := h
  exact ⟨x, hx, hlt.trans_le hle⟩

/-- A bounded list of entries, most recently used first. -/
structure RecencyList (K V T : Type u) where
  capacity : Nat
  entries : List (Entry K V T)
  positive : 0 < capacity
  nodup : (entries.map Entry.key).Nodup
  bounded : entries.length ≤ capacity

/-- In a list with one element for each key, all but that of a key are those before and behind
it. -/
theorem filter_key_split {α K : Type u} [DecidableEq K] (key : α → K) {as bs : List α} {a : α}
    (h : ((as ++ a :: bs).map key).Nodup) :
    (as ++ a :: bs).filter (fun b => key b ≠ key a) = as ++ bs := by
  rw [map_append, map_cons, nodup_middle, nodup_cons, ← map_append] at h
  have hother : ∀ b ∈ as ++ bs, key b ≠ key a := fun b hb heq =>
    h.1 (heq ▸ mem_map_of_mem hb)
  rw [filter_append, filter_cons_of_neg (by simp), ← filter_append]
  exact filter_eq_self.mpr fun b hb => decide_eq_true (hother b hb)

section Entries

variable {K V T : Type u} [DecidableEq K] {es as bs : List (Entry K V T)} {e : Entry K V T} {k : K}

/-- The entries of all other keys. -/
def Entry.others (es : List (Entry K V T)) (k : K) : List (Entry K V T) :=
  es.filter fun e => e.key ≠ k

@[simp] theorem Entry.mem_others : e ∈ others es k ↔ e ∈ es ∧ e.key ≠ k := by
  simp [others]

theorem Entry.others_of_notMem (h : k ∉ es.map key) : others es k = es := by
  refine filter_eq_self.2 fun e he => ?_
  simpa using fun heq : e.key = k => h (heq ▸ mem_map_of_mem he)

theorem Entry.nodup_others (h : (es.map key).Nodup) : ((others es k).map key).Nodup :=
  h.sublist (filter_sublist.map _)

theorem Entry.length_others_lt (h : k ∈ es.map key) : (others es k).length < es.length := by
  obtain ⟨e, he, rfl⟩ := mem_map.1 h
  exact length_filter_lt_length_iff_exists.2 ⟨e, he, by simp⟩

omit [DecidableEq K] in
/-- In a list ordered by rank, dropping the last entry loses the key of the highest rank. -/
theorem Entry.notMem_dropLast_iff {rank : K → Nat}
    (hord : es.Pairwise fun a b => rank a.key < rank b.key) (hk : k ∈ es.map key) :
    k ∉ es.dropLast.map key ↔ ∀ j ∈ es.map key, rank j ≤ rank k := by
  obtain ⟨e, he, rfl⟩ := mem_map.1 hk
  obtain ⟨as, z, rfl⟩ := eq_nil_or_concat' es |>.resolve_left (ne_nil_of_mem he)
  rw [pairwise_append] at hord
  have hlast : ∀ a ∈ as, rank a.key < rank z.key := fun a ha =>
    hord.2.2 a ha z (mem_singleton_self z)
  rw [dropLast_concat]
  constructor
  · intro hnot j hj
    have hez : e = z := by
      refine (mem_append.1 he).elim (fun h => absurd (mem_map_of_mem h) hnot) ?_
      exact mem_singleton.1
    obtain ⟨a, ha, rfl⟩ := mem_map.1 hj
    obtain ha | ha := mem_append.1 ha
    · exact hez ▸ (hlast a ha).le
    · rw [hez, mem_singleton.1 ha]
  · intro hmax hmem
    obtain ⟨a, ha, hkey⟩ := mem_map.1 hmem
    have hle := hmax z.key (by simp)
    have hlt := hlast a ha
    rw [hkey] at hlt
    omega

end Entries

namespace RecencyList

variable {K V T : Type u} [DecidableEq K]

/-- The empty list. -/
def empty (capacity : Nat) (positive : 0 < capacity) : RecencyList K V T where
  capacity := capacity
  entries := []
  positive := positive
  nodup := List.nodup_nil
  bounded := Nat.zero_le _

/-- The keys held, most recently used first. -/
def keys (r : RecencyList K V T) : List K := r.entries.map Entry.key

/-- The entry of a key. -/
def find (r : RecencyList K V T) (k : K) : Option (Entry K V T) :=
  r.entries.find? fun e => e.key = k

/-- Keep the entries that satisfy `p`. -/
def keep (r : RecencyList K V T) (p : Entry K V T → Bool) : RecencyList K V T where
  capacity := r.capacity
  entries := r.entries.filter p
  positive := r.positive
  nodup := r.nodup.sublist (List.filter_sublist.map _)
  bounded := (List.length_filter_le _ _).trans r.bounded

/-- Drop the entry of a key. -/
def remove (r : RecencyList K V T) (k : K) : RecencyList K V T :=
  r.keep fun e => e.key ≠ k

/-- Drop the stale entries. -/
def expire [LT T] [DecidableLT T] (r : RecencyList K V T) (now : T) : RecencyList K V T :=
  r.keep fun e => ¬ Stale now e.expiresAt

/-- Drop all entries. -/
def clear (r : RecencyList K V T) : RecencyList K V T := empty r.capacity r.positive

/-- `e` has just been used. -/
def record (r : RecencyList K V T) (e : Entry K V T) : RecencyList K V T where
  capacity := r.capacity
  entries := (e :: Entry.others r.entries e.key).take r.capacity
  positive := r.positive
  nodup := by
    refine List.Nodup.sublist ((List.take_sublist _ _).map _) ?_
    rw [List.map_cons, List.nodup_cons]
    exact ⟨by simp, Entry.nodup_others r.nodup⟩
  bounded := List.length_take_le _ _

variable {r : RecencyList K V T} {e : Entry K V T} {k : K}

theorem find_eq_some : r.find k = some e ↔ e ∈ r.entries ∧ e.key = k := by
  constructor
  · intro h
    exact ⟨mem_of_find?_eq_some h, by simpa using find?_some h⟩
  rintro ⟨he, rfl⟩
  -- The entry found has the key of `e`, and there is only one such entry.
  obtain ⟨e', he'⟩ : ∃ e', r.find e.key = some e' :=
    Option.isSome_iff_exists.1 (find?_isSome.2 ⟨e, he, by simp⟩)
  have hkey : e'.key = e.key := by simpa using find?_some he'
  rw [he', inj_on_of_nodup_map r.nodup (mem_of_find?_eq_some he') he hkey]

theorem find_eq_none : r.find k = none ↔ k ∉ r.keys := by
  simp [find, keys]

theorem entries_record_of_mem (h : e.key ∈ r.keys) :
    (r.record e).entries = e :: Entry.others r.entries e.key := by
  refine take_of_length_le ?_
  have hlt := Entry.length_others_lt h
  have hle := r.bounded
  simp only [length_cons]
  omega

theorem entries_record_of_lt (h : e.key ∉ r.keys) (hlt : r.entries.length < r.capacity) :
    (r.record e).entries = e :: r.entries := by
  show (e :: Entry.others r.entries e.key).take r.capacity = _
  rw [Entry.others_of_notMem h]
  exact take_of_length_le hlt

theorem entries_record_of_full (h : e.key ∉ r.keys) (hfull : r.entries.length = r.capacity) :
    (r.record e).entries = e :: r.entries.dropLast := by
  show (e :: Entry.others r.entries e.key).take r.capacity = _
  have hpos := r.positive
  rw [Entry.others_of_notMem h, ← hfull]
  obtain ⟨n, hn⟩ := Nat.exists_eq_succ_of_ne_zero (Nat.ne_of_gt (hfull ▸ hpos))
  rw [hn, take_succ_cons, dropLast_eq_take, hn, Nat.succ_sub_one]

/-- The entry just used is at the front, followed by others in their old order. -/
theorem record_eq_cons : ∃ es, (r.record e).entries = e :: es ∧
    es.Sublist (Entry.others r.entries e.key) := by
  obtain ⟨n, hn⟩ := Nat.exists_eq_succ_of_ne_zero (Nat.ne_of_gt r.positive)
  refine ⟨(Entry.others r.entries e.key).take n, ?_, take_sublist _ _⟩
  show (e :: Entry.others r.entries e.key).take r.capacity = _
  rw [hn, take_succ_cons]

end RecencyList

end DistributedKV
