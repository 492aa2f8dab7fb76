import DistributedKV.Lib.Lts
import DistributedKV.Lib.RecencyList
import DistributedKV.Performance.Caches
import Mathlib.Data.Nat.Find

/-!
# The order of the read cache

The abstract cache is the list of its keys and values, the most recently used one first: `Get`
brings an entry to the front, and `Put` keeps the longest part of the list beside which the new
value fits, and puts that at the front.

The entries hang on a doubly linked list. The node that `MoveToFront` has taken out still has its
old link back, which `AddToFront` does not clear. So a `Get` of any entry but the first leaves a
first node with a node before it, and the list read backwards never ends.
-/

namespace DistributedKV.Performance

open Heap List Option ReadCache

/-! ## Least recently used -/

namespace ReadCache

/-- The longest part of the most recently used entries beside which a value of the size fits. -/
def fitting (maxSize size : Int) (recent : List (Key × Value)) : List (Key × Value) :=
  recent.take
    (Nat.findGreatest (fun n => totalSize (recent.take n) + size ≤ maxSize) recent.length)

/-- The entries of all other keys. -/
def others (recent : List (Key × Value)) (key : Key) : List (Key × Value) :=
  recent.filter fun kv => kv.1 ≠ key

/-- After a `Get`: the entry is the most recently used one. -/
def afterGet (recent : List (Key × Value)) (key : Key) : List (Key × Value) :=
  match firstOf recent key with
  | none => recent
  | some value => (key, value) :: others recent key

/-- After a `Put`: the least recently used entries have made room. -/
def afterPut (maxSize : Int) (recent : List (Key × Value)) (key : Key) (value : Value) :
    List (Key × Value) :=
  (key, value) :: others (fitting maxSize value.length recent) key

/-- The cache holds the entries of the list. Its own list, read forwards and backwards, has
their keys in this order. -/
structure IsLRU (rc : ReadCache) (recent : List (Key × Value)) : Prop where
  walks : ∃ nodes,
    Heap.walk (fun n => (rc.lruList.heap n).next) nodes.length rc.lruList.head = some nodes ∧
    Heap.walk (fun n => (rc.lruList.heap n).prev) nodes.length rc.lruList.tail =
      some nodes.reverse ∧
    nodes.map (fun n => (rc.lruList.heap n).data) = recent.map Prod.fst
  nodup : (recent.map Prod.fst).Nodup
  cached : ∀ key, (rc.entries.lookup key).map ReadCacheEntry.value = firstOf recent key
  currentSize : rc.currentSize = rc.entries.total fun _ entry => entry.size

end ReadCache

/-- The calls on the cache. -/
inductive ReadCall where
  | get (key : Key)
  | put (key : Key) (value : Value)

/-- The cache, unless a call has failed, beside the abstract one. -/
structure Usage where
  cache : Except Fault ReadCache
  recent : List (Key × Value)

namespace Usage

def start (maxSize : Int) : Usage := ⟨.ok (.new maxSize), []⟩

def step (maxSize : Int) (u : Usage) : ReadCall → Option Usage
  | .get key => some ⟨u.cache.map fun rc => (rc.get key).1, ReadCache.afterGet u.recent key⟩
  | .put key value =>
    some ⟨u.cache.bind fun rc => rc.put key value, ReadCache.afterPut maxSize u.recent key value⟩

/-- No call has failed, and the cache is the abstract one. -/
def Correct (u : Usage) : Prop := ∃ rc, u.cache = .ok rc ∧ rc.IsLRU u.recent

/-- A `Get` that finds its key finds it at the front. -/
def AtFront (u : Usage) : ReadCall → Prop
  | .get key => key ∈ u.recent.map Prod.fst → (u.recent.map Prod.fst).head? = some key
  | .put _ _ => True

end Usage

/-! ## The list -/

/-- An entry of the cache, with its node. -/
structure ReadCache.Item where
  node : Nat
  key : Key
  value : Value

namespace LRUList

open ReadCache (Item)

variable {lru : LRUList} {node : Nat} {before after nodes : List Nat}

/-- The nodes of a list, in order. -/
def Links (lru : LRUList) (nodes : List Nat) : Prop :=
  lru.heap.Linked lru.head lru.tail nodes

/-- `Remove` takes a node out wherever it stands. The node keeps its links. -/
theorem remove_spec (h : lru.Links (before ++ node :: after)) :
    (lru.remove node).Links (before ++ after) ∧ (lru.remove node).heap node = lru.heap node ∧
      (∀ n, ((lru.remove node).heap n).data = (lru.heap n).data) ∧
      (lru.remove node).size = lru.size - 1 ∧ (lru.remove node).allocated = lru.allocated := by
  obtain ⟨hprev, hnext⟩ := h.links
  have hnodup := h.nodup
  -- the position of the node decides which assignments are made
  rcases eq_nil_or_concat' before with rfl | ⟨before, x, rfl⟩
  · rw [getLast?_nil] at hprev
    cases after with
    | nil =>
      have heq : lru.remove node =
          { lru with head := none, tail := none, size := lru.size - 1 } := by
        rw [head?_nil] at hnext
        simp only [remove, hprev, hnext]
      rw [heq]
      exact ⟨.nil, rfl, fun _ => rfl, rfl, rfl⟩
    | cons y after =>
      have heq : lru.remove node = { lru with
          heap := lru.heap.setPrev y none
          head := some y
          size := lru.size - 1 } := by
        rw [head?_cons] at hnext
        simp only [remove, hprev, hnext]
      rw [heq]
      refine ⟨h.remove_first, setCell_of_ne _ _ ?_, fun n => by simp, rfl, rfl⟩
      grind
  rw [getLast?_concat] at hprev
  have hne : node ≠ x := by grind
  cases after with
  | nil =>
    have heq : lru.remove node = { lru with
        heap := lru.heap.setNext x none
        tail := some x
        size := lru.size - 1 } := by
      rw [head?_nil] at hnext
      simp only [remove, hprev, hnext, next_setNext, if_neg hne, prev_setNext]
    rw [heq, append_nil]
    exact ⟨h.remove_last, setCell_of_ne _ _ hne, fun n => by simp, rfl, rfl⟩
  | cons y after =>
    have heq : lru.remove node = { lru with
        heap := (lru.heap.setNext x (some y)).setPrev y (some x)
        size := lru.size - 1 } := by
      rw [head?_cons] at hnext
      simp only [remove, hprev, hnext, next_setNext, if_neg hne, prev_setNext]
    have hne' : node ≠ y := by grind
    rw [Links, append_assoc, singleton_append] at h
    rw [heq, append_assoc, singleton_append]
    refine ⟨h.remove_between, ?_, fun n => by simp, rfl, rfl⟩
    show (lru.heap.setNext x (some y)).setCell y _ node = _
    rw [setCell_of_ne _ _ hne']
    exact setCell_of_ne _ _ hne

/-- `AddToFront` adds a node that has no link back. -/
theorem addToFront_spec (h : lru.Links nodes) (hnew : node ∉ nodes)
    (hprev : (lru.heap node).prev = none) (hnext : nodes = [] → (lru.heap node).next = none) :
    (lru.addToFront node).Links (node :: nodes) ∧
      (∀ n, ((lru.addToFront node).heap n).data = (lru.heap n).data) ∧
      (lru.addToFront node).size = lru.size + 1 ∧
      (lru.addToFront node).allocated = lru.allocated := by
  have hhead := h.head_eq
  cases nodes with
  | nil =>
    rw [head?_nil] at hhead
    have heq : lru.addToFront node =
        { lru with head := some node, tail := some node, size := lru.size + 1 } := by
      rw [addToFront, hhead]
    rw [heq]
    exact ⟨.single hprev (hnext rfl), fun _ => rfl, rfl, rfl⟩
  | cons y nodes =>
    rw [head?_cons] at hhead
    have heq : lru.addToFront node = { lru with
        heap := (lru.heap.setNext node (some y)).setPrev y (some node)
        head := some node
        size := lru.size + 1 } := by
      rw [addToFront, hhead]
    rw [heq]
    exact ⟨h.push hnew hprev, fun n => by simp, rfl, rfl⟩

theorem alloc_spec (h : lru.Links nodes) (hold : ∀ n ∈ nodes, n < lru.allocated) (key : Key) :
    (lru.alloc key).1.Links nodes ∧ lru.allocated ∉ nodes ∧
      (lru.alloc key).1.heap lru.allocated = ⟨key, none, none⟩ ∧
      ∀ n ∈ nodes, (lru.alloc key).1.heap n = lru.heap n := by
  have hnew : lru.allocated ∉ nodes := fun hmem => Nat.lt_irrefl _ (hold _ hmem)
  refine ⟨h.setCell hnew, hnew, setCell_self _ _ _, fun n hn => ?_⟩
  exact setCell_of_ne _ _ (Nat.ne_of_lt (hold n hn))

theorem moveToFront_first (h : lru.Links (node :: nodes)) :
    (lru.moveToFront node).Links (node :: nodes) ∧
      (∀ n, ((lru.moveToFront node).heap n).data = (lru.heap n).data) ∧
      (lru.moveToFront node).size = lru.size ∧
      (lru.moveToFront node).allocated = lru.allocated := by
  have hremove : lru.Links ([] ++ node :: nodes) := h
  obtain ⟨hprev, hnext⟩ := hremove.links
  obtain ⟨hlinks, hcell, hdata, hsize, halloc⟩ := remove_spec hremove
  have hnew : node ∉ nodes := (nodup_cons.mp h.nodup).1
  obtain ⟨hlinks', hdata', hsize', halloc'⟩ := addToFront_spec hlinks hnew
    (by rw [hcell, hprev]; rfl) (by rintro rfl; rw [hcell, hnext]; rfl)
  refine ⟨hlinks', fun n => (hdata' n).trans (hdata n), ?_, halloc'.trans halloc⟩
  show ((lru.remove node).addToFront node).size = lru.size
  omega

/-- Any other node then is the first, and has a link back. -/
theorem moveToFront_other (h : lru.Links (before ++ node :: after)) (hne : before ≠ []) :
    (lru.moveToFront node).head = some node ∧ ((lru.moveToFront node).heap node).prev ≠ none := by
  obtain ⟨hprev, -⟩ := h.links
  obtain ⟨hlinks, hcell, -, -, -⟩ := remove_spec h
  obtain ⟨first, rest, rfl⟩ := exists_cons_of_ne_nil hne
  have hhead : (lru.remove node).head = some first := hlinks.head_eq
  have hother : node ≠ first := by
    have hnodup := h.nodup
    grind
  rw [moveToFront, addToFront, hhead]
  refine ⟨rfl, ?_⟩
  rw [prev_setPrev, if_neg hother, prev_setNext, hcell, hprev]
  simp

/-- The list has the items, in their order. -/
structure Lists (lru : LRUList) (items : List Item) : Prop where
  links : lru.Links (items.map Item.node)
  data : ∀ it ∈ items, (lru.heap it.node).data = it.key
  allocated : ∀ it ∈ items, it.node < lru.allocated
  size : lru.size = items.length

theorem Lists.remove {front back : List Item} {it : Item} (h : lru.Lists (front ++ it :: back)) :
    (lru.remove it.node).Lists (front ++ back) := by
  have hlinks := h.links
  rw [map_append, map_cons] at hlinks
  obtain ⟨hlinks', -, hdata, hsize, halloc⟩ := remove_spec hlinks
  have hkept : ∀ other ∈ front ++ back, other ∈ front ++ it :: back := by
    simp only [mem_append, mem_cons]
    tauto
  refine ⟨?_, fun other hother => ?_, fun other hother => ?_, ?_⟩
  · rw [map_append]
    exact hlinks'
  · exact (hdata other.node).trans (h.data other (hkept other hother))
  · rw [halloc]
    exact h.allocated other (hkept other hother)
  have hbefore := h.size
  rw [length_append, length_cons] at hbefore
  rw [hsize, length_append]
  omega

theorem Lists.push {items : List Item} (h : lru.Lists items) (key : Key) (value : Value) :
    ((lru.alloc key).1.addToFront lru.allocated).Lists (⟨lru.allocated, key, value⟩ :: items) := by
  have hold : ∀ n ∈ items.map Item.node, n < lru.allocated := by
    intro n hn
    obtain ⟨it, hit, rfl⟩ := mem_map.mp hn
    exact h.allocated it hit
  obtain ⟨hlinks, hfresh, hcell, hcells⟩ := alloc_spec h.links hold key
  obtain ⟨hlinks', hdata, hsize, halloc⟩ := addToFront_spec hlinks hfresh
    (by rw [hcell]) (fun _ => by rw [hcell])
  refine ⟨hlinks', fun it hit => ?_, fun it hit => ?_, ?_⟩
  · refine (hdata it.node).trans ?_
    rcases mem_cons.mp hit with rfl | hit
    · rw [hcell]
    · rw [hcells it.node (mem_map_of_mem hit)]
      exact h.data it hit
  · rw [halloc]
    rcases mem_cons.mp hit with rfl | hit
    · exact Nat.lt_succ_self _
    · exact Nat.lt_succ_of_lt (h.allocated it hit)
  · rw [hsize]
    show lru.size + 1 = _
    rw [h.size, length_cons]
    rfl

theorem Lists.moveToFront {items : List Item} {it : Item} (h : lru.Lists (it :: items)) :
    (lru.moveToFront it.node).Lists (it :: items) := by
  obtain ⟨hlinks, hdata, hsize, halloc⟩ := moveToFront_first h.links
  refine ⟨hlinks, fun other hother => ?_, fun other hother => ?_, hsize.trans h.size⟩
  · exact (hdata other.node).trans (h.data other hother)
  · exact (h.allocated other hother).trans_eq halloc.symm

end LRUList

/-! ## The cache and its list -/

namespace ReadCache

def pairs (items : List Item) : List (Key × Value) := items.map fun it => (it.key, it.value)

/-- The cache holds the items, in the order of its list. -/
structure Holding (rc : ReadCache) (items : List Item) : Prop where
  lists : rc.lruList.Lists items
  nodup : (items.map Item.key).Nodup
  lookup : ∀ key entry, rc.entries.lookup key = some entry ↔
    ⟨entry.lruNode, key, entry.value⟩ ∈ items ∧ entry.size = entry.value.length
  currentSize : rc.currentSize = totalSize (pairs items)

variable {rc : ReadCache} {items before after : List Item} {it : Item} {key : Key} {value : Value}

theorem map_fst_pairs (items : List Item) : (pairs items).map Prod.fst = items.map Item.key := by
  rw [pairs, List.map_map]
  rfl

theorem pairs_others (items : List Item) (key : Key) :
    pairs (items.filter fun it => it.key ≠ key) = others (pairs items) key := by
  rw [pairs, others, pairs, List.filter_map]
  rfl

theorem Holding.lookup_of_mem (h : Holding rc items) (hit : it ∈ items) :
    rc.entries.lookup it.key = some ⟨it.value, it.value.length, it.node⟩ :=
  (h.lookup it.key _).mpr ⟨hit, rfl⟩

theorem firstOf_pairs (hnodup : (items.map Item.key).Nodup) (hit : it ∈ items) :
    firstOf (pairs items) it.key = some it.value := by
  induction items with
  | nil => cases hit
  | cons first items ih =>
    rw [map_cons, nodup_cons] at hnodup
    rcases mem_cons.mp hit with rfl | hit
    · simp [firstOf, pairs]
    have hne : first.key ≠ it.key := fun heq => hnodup.1 (heq ▸ mem_map_of_mem hit)
    have hrest := ih hnodup.2 hit
    rw [firstOf] at hrest ⊢
    rw [pairs, map_cons, find?_cons_of_neg (by simpa using hne)]
    exact hrest

theorem firstOf_pairs_none (hkey : key ∉ items.map Item.key) :
    firstOf (pairs items) key = none := by
  rw [firstOf, map_eq_none_iff, find?_eq_none]
  intro kv hkv
  rw [pairs, List.mem_map] at hkv
  obtain ⟨it, hit, rfl⟩ := hkv
  rw [decide_eq_true_eq]
  exact fun heq => hkey (heq ▸ mem_map_of_mem hit)

theorem Holding.isLRU (h : Holding rc items) : rc.IsLRU (pairs items) where
  walks := by
    refine ⟨items.map Item.node, h.lists.links.walk_next, h.lists.links.walk_prev, ?_⟩
    rw [map_fst_pairs, List.map_map]
    exact map_congr_left h.lists.data
  nodup := by
    rw [map_fst_pairs]
    exact h.nodup
  cached key := by
    by_cases hkey : key ∈ items.map Item.key
    · obtain ⟨it, hit, rfl⟩ := mem_map.mp hkey
      rw [h.lookup_of_mem hit, firstOf_pairs h.nodup hit]
      rfl
    rw [firstOf_pairs_none hkey, map_eq_none_iff, eq_none_iff_forall_not_mem]
    intro entry hentry
    exact hkey (mem_map_of_mem ((h.lookup key entry).mp hentry).1)
  currentSize := by
    have hnodup : ((items.map fun it => (it.key, (⟨it.value, it.value.length, it.node⟩ :
        ReadCacheEntry))).map Prod.fst).Nodup := by
      rw [List.map_map]
      exact h.nodup
    rw [h.currentSize, GoMap.total_eq_sum hnodup, totalSize, pairs, List.map_map, List.map_map]
    · rfl
    intro key entry
    rw [h.lookup, List.mem_map]
    constructor
    · rintro ⟨hit, hsize⟩
      refine ⟨_, hit, ?_⟩
      rw [← hsize]
    rintro ⟨it, hit, heq⟩
    cases heq
    exact ⟨hit, rfl⟩

theorem holding_new (maxSize : Int) : Holding (new maxSize) [] where
  lists := ⟨.nil, nofun, nofun, rfl⟩
  nodup := .nil
  lookup key entry := by
    rw [new, AList.lookup_empty]
    simp
  currentSize := rfl

/-! ## The calls -/

/-- What `Put` and `evictLRU` do to the entry of a key. -/
def drop (rc : ReadCache) (key : Key) : ReadCache :=
  match rc.entries.lookup key with
  | none => rc
  | some entry =>
    { rc with
      lruList := rc.lruList.remove entry.lruNode
      entries := rc.entries.erase key
      currentSize := rc.currentSize - entry.size }

/-- What `Put` does at its end. -/
def push (rc : ReadCache) (key : Key) (value : Value) : ReadCache :=
  { rc with
    entries := rc.entries.insert key ⟨value, value.length, rc.lruList.allocated⟩
    lruList := (rc.lruList.alloc key).1.addToFront rc.lruList.allocated
    currentSize := rc.currentSize + value.length }

theorem put_eq (rc : ReadCache) (key : Key) (value : Value) : rc.put key value =
      (rc.makeRoom value.length rc.lruList.size.toNat).map fun rc =>
        (rc.drop key).push key value := by
  rw [put]
  congr 1
  funext rc
  rw [drop]
  cases rc.entries.lookup key with
  | none => rfl
  | some entry =>
    rw [push]
    rw [GoMap.insert_erase]
    rfl

theorem Holding.drop (h : Holding rc items) (key : Key) :
    Holding (rc.drop key) (items.filter fun it => it.key ≠ key) := by
  rw [ReadCache.drop]
  cases hlookup : rc.entries.lookup key with
  | none =>
    have hall : ∀ it ∈ items, it.key ≠ key := by
      rintro it hit rfl
      rw [h.lookup_of_mem hit] at hlookup
      cases hlookup
    rw [filter_eq_self.mpr fun it hit => decide_eq_true (hall it hit)]
    exact h
  | some entry =>
    obtain ⟨hit, hsize⟩ := (h.lookup key entry).mp hlookup
    obtain ⟨before, after, rfl⟩ := append_of_mem hit
    have hsplit := filter_key_split Item.key h.nodup
    rw [hsplit]
    have hnodup := h.nodup
    rw [map_append, map_cons, nodup_middle, ← map_append, nodup_cons] at hnodup
    refine ⟨h.lists.remove, hnodup.2, fun other entry' => ?_, ?_⟩
    · by_cases hother : other = key
      · subst hother
        refine iff_of_false (by simp) ?_
        rintro ⟨hmem, -⟩
        have hkey := mem_map_of_mem (f := Item.key) hmem
        exact hnodup.1 hkey
      · rw [AList.lookup_erase_ne hother, h.lookup]
        simp [hother]
    · have hbefore := h.currentSize
      rw [pairs, map_append, map_cons, totalSize, map_append, map_cons,
        sum_append, sum_cons] at hbefore
      rw [pairs, map_append, totalSize, map_append, sum_append]
      dsimp only at hbefore ⊢
      omega

theorem Holding.push (h : Holding rc items) (hnew : key ∉ items.map Item.key) (value : Value) :
    Holding (rc.push key value) (⟨rc.lruList.allocated, key, value⟩ :: items) := by
  refine ⟨h.lists.push key value, nodup_cons.mpr ⟨hnew, h.nodup⟩, fun other entry => ?_, ?_⟩
  · show (rc.entries.insert key _).lookup other = some entry ↔ _
    rw [mem_cons, Item.mk.injEq]
    by_cases hother : other = key
    · subst hother
      rw [AList.lookup_insert]
      constructor
      · rintro heq
        cases heq
        exact ⟨.inl ⟨rfl, rfl, rfl⟩, rfl⟩
      rintro ⟨⟨hnode, -, hvalue⟩ | hmem, hentry⟩
      · obtain ⟨entryValue, entrySize, entryNode⟩ := entry
        subst hnode hvalue
        dsimp only at hentry
        rw [hentry]
      · exact absurd (mem_map_of_mem hmem) hnew
    · rw [AList.lookup_insert_ne hother, h.lookup]
      simp [hother]
  · show rc.currentSize + (value.length : Int) = totalSize (pairs (_ :: items))
    rw [h.currentSize, pairs, pairs, map_cons, totalSize, totalSize, map_cons, sum_cons]
    dsimp only
    omega

/-- An eviction drops the last item. -/
theorem Holding.evictLRU (h : Holding rc (items ++ [it])) :
    rc.evictLRU = .ok (rc.drop it.key) ∧ Holding (rc.drop it.key) items := by
  have hit : it ∈ items ++ [it] := mem_append_right items (mem_singleton_self it)
  constructor
  · have htail : rc.lruList.tail = some it.node := by
      rw [h.lists.links.tail_eq, map_append, map_singleton, getLast?_concat]
    rw [ReadCache.evictLRU, htail]
    dsimp only
    rw [h.lists.data it hit, ReadCache.drop, h.lookup_of_mem hit]
  · have hdrop := h.drop it.key
    rw [filter_key_split Item.key h.nodup, append_nil] at hdrop
    exact hdrop

/-- The last entry is kept if all fits, and otherwise it makes no difference. -/
theorem fitting_concat (maxSize size : Int) (recent : List (Key × Value)) (kv : Key × Value) :
    fitting maxSize size (recent ++ [kv]) =
      if totalSize (recent ++ [kv]) + size ≤ maxSize then recent ++ [kv]
      else fitting maxSize size recent := by
  rw [fitting, length_append, length_singleton, Nat.findGreatest_succ]
  have hall : (recent ++ [kv]).take (recent.length + 1) = recent ++ [kv] :=
    take_of_length_le (by simp)
  rw [hall]
  split
  · exact hall
  have hsame : ∀ n ≤ recent.length, (recent ++ [kv]).take n = recent.take n := fun n hn =>
    take_append_of_le_length hn
  have hgreatest : Nat.findGreatest
        (fun n => totalSize ((recent ++ [kv]).take n) + size ≤ maxSize) recent.length =
      Nat.findGreatest (fun n => totalSize (recent.take n) + size ≤ maxSize) recent.length := by
    obtain ⟨hle, hspec, hmax⟩ := Nat.findGreatest_eq_iff.mp (Eq.refl
      (Nat.findGreatest (fun n => totalSize (recent.take n) + size ≤ maxSize) recent.length))
    refine Nat.findGreatest_eq_iff.mpr ⟨hle, fun hne => ?_, fun n hlt hn => ?_⟩
    · rw [hsame _ hle]
      exact hspec hne
    · rw [hsame n hn]
      exact hmax hlt hn
  rw [hgreatest, hsame _ (Nat.findGreatest_le _)]
  rfl

theorem Holding.makeRoom_nil (h : Holding rc []) (size : Int) (rounds : Nat) :
    rc.makeRoom size rounds = .ok rc := by
  refine makeRoom_of_fits ?_ rounds
  rw [h.lists.size]
  simp

/-- The loop of `Put` ends, and keeps what fits. -/
theorem Holding.makeRoom (h : Holding rc items) {rounds : Nat} (hrounds : items.length ≤ rounds)
    (size : Int) : ∃ rc' items', rc.makeRoom size rounds = .ok rc' ∧ Holding rc' items' ∧
      pairs items' = fitting rc.maxSize size (pairs items) ∧ rc'.maxSize = rc.maxSize := by
  induction rounds generalizing rc items with
  | zero =>
    obtain rfl : items = [] := length_eq_zero_iff.mp (Nat.le_zero.mp hrounds)
    exact ⟨rc, [], h.makeRoom_nil size 0, h, rfl, rfl⟩
  | succ rounds ih =>
    rcases eq_nil_or_concat' items with rfl | ⟨items, it, rfl⟩
    · exact ⟨rc, [], h.makeRoom_nil size (rounds + 1), h, rfl, rfl⟩
    have hpairs : pairs (items ++ [it]) = pairs items ++ [(it.key, it.value)] := by
      rw [pairs, map_append]
      rfl
    have hcurrent := h.currentSize
    rw [hpairs] at hcurrent ⊢
    rw [fitting_concat, ← hcurrent]
    by_cases hfits : rc.currentSize + size ≤ rc.maxSize
    · have hend : ¬(rc.currentSize + size > rc.maxSize ∧ rc.lruList.size > 0) := by omega
      exact ⟨rc, items ++ [it], makeRoom_of_fits hend _, h, by rw [if_pos hfits, hpairs], rfl⟩
    have hfull : rc.currentSize + size > rc.maxSize ∧ rc.lruList.size > 0 := by
      have hsize := h.lists.size
      rw [length_append, length_singleton] at hsize
      omega
    obtain ⟨hevict, hholding⟩ := h.evictLRU
    have hmax : (rc.drop it.key).maxSize = rc.maxSize := by
      rw [ReadCache.drop]
      split <;> rfl
    rw [length_append, length_singleton] at hrounds
    obtain ⟨rc', items', hmake, hholding', hpairs', hmax'⟩ := ih hholding (by omega)
    refine ⟨rc', items', ?_, hholding', ?_, hmax'.trans hmax⟩
    · rw [ReadCache.makeRoom, if_pos hfull, hevict]
      exact hmake
    · rw [if_neg hfits, hpairs', hmax]

theorem Holding.put (h : Holding rc items) (key : Key) (value : Value) :
    ∃ rc' items', rc.put key value = .ok rc' ∧ Holding rc' items' ∧
      pairs items' = afterPut rc.maxSize (pairs items) key value ∧ rc'.maxSize = rc.maxSize := by
  have hrounds : items.length ≤ rc.lruList.size.toNat := by
    rw [h.lists.size]
    exact le_rfl
  obtain ⟨room, items', hmake, hroom, hpairs, hmax⟩ := h.makeRoom hrounds value.length
  have hdropped := hroom.drop key
  have hnew : key ∉ (items'.filter fun it => it.key ≠ key).map Item.key := by
    rw [List.mem_map]
    rintro ⟨it, hit, heq⟩
    simp [heq] at hit
  refine ⟨_, _, ?_, hdropped.push hnew value, ?_, ?_⟩
  · rw [put_eq, hmake]
    rfl
  · rw [afterPut, ← hpairs, ← pairs_others]
    rfl
  · rw [← hmax, ReadCache.push, ReadCache.drop]
    split <;> rfl

theorem Holding.get_first (h : Holding rc (it :: items)) :
    Holding (rc.get it.key).1 (it :: items) := by
  rw [get, h.lookup_of_mem mem_cons_self]
  exact ⟨h.lists.moveToFront, h.nodup, h.lookup, h.currentSize⟩

/-- A `Get` of any other key damages the list. -/
theorem Holding.get_other (h : Holding rc (before ++ it :: after)) (hne : before ≠ [])
    (recent : List (Key × Value)) : ¬(rc.get it.key).1.IsLRU recent := by
  have hit : it ∈ before ++ it :: after := mem_append_right before mem_cons_self
  have hlinks := h.lists.links
  rw [map_append, map_cons] at hlinks
  obtain ⟨hhead, hprev⟩ := LRUList.moveToFront_other hlinks (by simpa using hne)
  rw [get, h.lookup_of_mem hit]
  rintro ⟨⟨nodes, hnext, hback, -⟩, -, -, -⟩
  -- what is read backwards ends at the first node, which has a link
  rw [hhead] at hnext
  obtain ⟨rest, rfl⟩ := head_of_walk hnext
  rw [reverse_cons] at hback
  exact hprev (link_of_walk hback)

end ReadCache

/-! ## Runs -/

namespace Usage

open ReadCache (Holding Item pairs)

/-- The invariant of runs. -/
def Mirrors (maxSize : Int) (u : Usage) : Prop :=
  ∃ rc items, u.cache = .ok rc ∧ rc.maxSize = maxSize ∧ Holding rc items ∧ pairs items = u.recent

variable {maxSize : Int} {u : Usage}

theorem Mirrors.correct (h : u.Mirrors maxSize) : u.Correct := by
  obtain ⟨rc, items, hcache, -, hholding, hrecent⟩ := h
  exact ⟨rc, hcache, hrecent ▸ hholding.isLRU⟩

theorem mirrors_start (maxSize : Int) : (start maxSize).Mirrors maxSize :=
  ⟨.new maxSize, [], rfl, rfl, holding_new maxSize, rfl⟩

theorem Mirrors.step (h : u.Mirrors maxSize) {call : ReadCall} (hfront : u.AtFront call)
    {u' : Usage} (hstep : u.step maxSize call = some u') : u'.Mirrors maxSize := by
  obtain ⟨rc, items, hcache, rfl, hholding, hrecent⟩ := h
  cases call with
  | put key value =>
    cases hstep
    obtain ⟨rc', items', hput, hholding', hpairs, hmax⟩ := hholding.put key value
    refine ⟨rc', items', ?_, hmax, hholding', ?_⟩
    · rw [hcache]
      exact hput
    · rw [hpairs, hrecent]
  | get key =>
    cases hstep
    by_cases hkey : key ∈ items.map Item.key
    · have hhead : (items.map Item.key).head? = some key := by
        rw [← map_fst_pairs, hrecent] at hkey ⊢
        exact hfront hkey
      cases items with
      | nil => cases hhead
      | cons it items =>
        cases hhead
        refine ⟨_, it :: items, by rw [hcache]; rfl, ?_, hholding.get_first, ?_⟩
        · rw [ReadCache.get, hholding.lookup_of_mem mem_cons_self]
        have hnodup : (([] ++ it :: items).map Item.key).Nodup := hholding.nodup
        have hothers : (it :: items).filter (fun other => other.key ≠ it.key) = items :=
          filter_key_split Item.key hnodup
        rw [ReadCache.afterGet, ← hrecent, firstOf_pairs hholding.nodup mem_cons_self]
        rw [← pairs_others, hothers]
        rfl
    · have hmiss : firstOf u.recent key = none := by
        rw [← hrecent]
        exact firstOf_pairs_none hkey
      have hlookup : rc.entries.lookup key = none := by
        have hcached := hholding.isLRU.cached key
        rw [hrecent, hmiss] at hcached
        exact map_eq_none_iff.mp hcached
      refine ⟨rc, items, ?_, rfl, hholding, ?_⟩
      · rw [hcache]
        show Except.ok (rc.get key).1 = _
        rw [ReadCache.get, hlookup]
      · rw [ReadCache.afterGet, hmiss, hrecent]

theorem Mirrors.breaks (h : u.Mirrors maxSize) {call : ReadCall} (hfront : ¬u.AtFront call) :
    ∃ u', u.step maxSize call = some u' ∧ ¬u'.Correct := by
  obtain ⟨rc, items, hcache, rfl, hholding, hrecent⟩ := h
  cases call with
  | put key value => exact absurd trivial hfront
  | get key =>
    obtain ⟨hkey, hhead⟩ := Classical.not_imp.mp hfront
    rw [← hrecent, map_fst_pairs] at hkey hhead
    obtain ⟨it, hit, rfl⟩ := mem_map.mp hkey
    obtain ⟨before, after, rfl⟩ := append_of_mem hit
    have hne : before ≠ [] := by
      rintro rfl
      exact hhead rfl
    refine ⟨_, rfl, ?_⟩
    rintro ⟨rc', hcache', hlru⟩
    rw [hcache] at hcache'
    cases hcache'
    exact hholding.get_other hne _ hlru

/-- **The order of the read cache.** In all states of a run no call has failed, the list is a
doubly linked list of the cached keys in the order of their last use, which the least recently
used ones leave first, and the current size is the sum of the sizes, exactly if every `Get` that
finds its key finds it at the front. -/
theorem lru_iff (maxSize : Int) (calls : List ReadCall) :
    (∀ u ∈ Lts.trace (step maxSize) (start maxSize) calls, u.Correct) ↔
      Lts.Along (step maxSize) AtFront (start maxSize) calls :=
  Lts.forall_trace_seen_iff_along (fun _ h => Mirrors.correct h)
    (fun _ _ _ h hfront hstep => Mirrors.step h hfront hstep)
    (fun _ _ h hfront => Mirrors.breaks h hfront) calls (start maxSize) (mirrors_start maxSize)

/-- The older one of two entries is read. After the next call has evicted both, the list still
ends at one of them; and the call after that fails. -/
theorem lru_counterexample :
    (∃ u ∈ Lts.trace (step 2) (start 2) [.put [97] [1], .put [98] [1], .get [97]], ¬u.Correct) ∧
      ∃ u, Lts.exec (step 2) (start 2) [.put [97] [1], .put [98] [1], .get [97],
          .put [99] [1, 1], .put [100] [1]] = some u ∧ u.cache = .error .nilDereference := by
  refine ⟨?_, _, rfl, rfl⟩
  have hput : ∀ (u : Usage) key value, u.AtFront (.put key value) := fun _ _ _ => trivial
  have hfirst : Mirrors 2 _ := (mirrors_start 2).step (hput _ [97] [1]) rfl
  have hsecond : Mirrors 2 _ := hfirst.step (hput _ [98] [1]) rfl
  obtain ⟨u, hstep, hbad⟩ := hsecond.breaks fun hfront : AtFront _ (.get [97]) =>
    absurd (hfront (by decide)) (by decide)
  refine ⟨u, Lts.exec_mem_trace ?_, hbad⟩
  show (step 2 _ (.get [97])).bind some = some u
  rw [hstep]
  rfl

end Usage

end DistributedKV.Performance
