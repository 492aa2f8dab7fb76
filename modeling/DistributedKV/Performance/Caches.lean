import DistributedKV.Lib.LinkedList
import DistributedKV.Performance.DataFile

/-!
# The three caches (`WriteCache`, `ReadCache` and `IndexCache` of `storage.go`)

The write cache is read by nobody. It makes room by evicting the oldest entry; the loop has a
bound on its rounds here, because an entry with the empty key is never evicted.

The read cache keeps its entries in the order of their use in a doubly linked list. A node that
is moved to the front keeps its link to the node before it, which damages the list; an eviction
may then meet a node whose entry is gone, or no node at all.

The index cache evicts an arbitrary entry when it is full.
-/

namespace DistributedKV.Performance

/-! ## The write cache -/

/-- `WriteCacheEntry`. -/
structure WriteCacheEntry where
  value : Value
  timestamp : Int
  size : Int
  dirty : Bool

/-- `WriteCache`. -/
structure WriteCache where
  entries : GoMap Key WriteCacheEntry
  maxSize : Int
  currentSize : Int

namespace WriteCache

/-- `NewWriteCache`. -/
def new (maxSize : Int) : WriteCache := ⟨∅, maxSize, 0⟩

/-- One round of the loop of `evictOldest`. The empty key stands for none. -/
def older (oldest : Key × Int) (entry : (_ : Key) × WriteCacheEntry) : Key × Int :=
  if oldest.1 = [] ∨ entry.2.timestamp < oldest.2 then (entry.1, entry.2.timestamp) else oldest

/-- `evictOldest`. -/
def evictOldest (order : IterationOrder ((_ : Key) × WriteCacheEntry)) (wc : WriteCache) :
    WriteCache :=
  let oldestKey := ((order.pick wc.entries.entries).foldl older ([], 0)).1
  if oldestKey = [] then wc
  else match wc.entries.lookup oldestKey with
    | none => wc
    | some entry =>
      { wc with
        entries := wc.entries.erase oldestKey
        currentSize := wc.currentSize - entry.size }

/-- The loop of `Put` that makes room, for so many rounds, each with its order. -/
def makeRoom (orders : Nat → IterationOrder ((_ : Key) × WriteCacheEntry)) (size : Int) :
    Nat → WriteCache → Except Fault WriteCache
  | rounds, wc =>
    if wc.currentSize + size > wc.maxSize ∧ wc.entries.len > 0 then
      match rounds with
      | 0 => .error .unfinished
      | rounds + 1 => makeRoom orders size rounds (wc.evictOldest (orders rounds))
    else .ok wc

/-- `Put`. -/
def put (orders : Nat → IterationOrder ((_ : Key) × WriteCacheEntry)) (rounds : Nat) (now : Int)
    (wc : WriteCache) (key : Key) (value : Value) : Except Fault WriteCache :=
  let size : Int := value.length
  (wc.makeRoom orders size rounds).map fun wc =>
    let currentSize :=
      match wc.entries.lookup key with
      | some existing => wc.currentSize - existing.size
      | none => wc.currentSize
    { wc with
      entries := wc.entries.insert key ⟨value, now, size, true⟩
      currentSize := currentSize + size }

end WriteCache

/-! ## The read cache -/

/-- `LRUList`. The nodes are cells of a heap, which has `allocated` of them. -/
structure LRUList where
  heap : Heap Nat Key
  allocated : Nat
  head : Option Nat
  tail : Option Nat
  size : Int

namespace LRUList

variable (lru : LRUList)

/-- `NewLRUList`. -/
def new : LRUList := ⟨fun _ => ⟨[], none, none⟩, 0, none, none, 0⟩

/-- `&LRUNode{key: key}`. -/
def alloc (key : Key) : LRUList × Nat :=
  ({ lru with
      heap := lru.heap.setCell lru.allocated ⟨key, none, none⟩
      allocated := lru.allocated + 1 },
    lru.allocated)

/-- `AddToFront`. -/
def addToFront (node : Nat) : LRUList :=
  match lru.head with
  | none => { lru with head := some node, tail := some node, size := lru.size + 1 }
  | some head =>
    { lru with
      heap := (lru.heap.setNext node (some head)).setPrev head (some node)
      head := some node
      size := lru.size + 1 }

/-- `Remove`. The node keeps its own links. -/
def remove (node : Nat) : LRUList :=
  let lru :=
    match (lru.heap node).prev with
    | some prev => { lru with heap := lru.heap.setNext prev (lru.heap node).next }
    | none => { lru with head := (lru.heap node).next }
  let lru :=
    match (lru.heap node).next with
    | some next => { lru with heap := lru.heap.setPrev next (lru.heap node).prev }
    | none => { lru with tail := (lru.heap node).prev }
  { lru with size := lru.size - 1 }

/-- `MoveToFront`. -/
def moveToFront (node : Nat) : LRUList := (lru.remove node).addToFront node

end LRUList

/-- `ReadCacheEntry`, without the time stamp and the counter, which nobody reads. -/
structure ReadCacheEntry where
  value : Value
  size : Int
  lruNode : Nat

/-- `ReadCache`. -/
structure ReadCache where
  entries : GoMap Key ReadCacheEntry
  lruList : LRUList
  maxSize : Int
  currentSize : Int

namespace ReadCache

/-- `NewReadCache`. -/
def new (maxSize : Int) : ReadCache := ⟨∅, .new, maxSize, 0⟩

/-- `Get`. -/
def get (rc : ReadCache) (key : Key) : ReadCache × Option Value :=
  match rc.entries.lookup key with
  | none => (rc, none)
  | some entry => ({ rc with lruList := rc.lruList.moveToFront entry.lruNode }, some entry.value)

/-- `evictLRU`. -/
def evictLRU (rc : ReadCache) : Except Fault ReadCache :=
  match rc.lruList.tail with
  | none => .ok rc
  | some tail =>
    let key := (rc.lruList.heap tail).data
    match rc.entries.lookup key with
    | none => .error .nilDereference
    | some entry =>
      .ok { rc with
        lruList := rc.lruList.remove entry.lruNode
        entries := rc.entries.erase key
        currentSize := rc.currentSize - entry.size }

/-- The loop of `Put` that makes room, for so many rounds. -/
def makeRoom (size : Int) : Nat → ReadCache → Except Fault ReadCache
  | rounds, rc =>
    if rc.currentSize + size > rc.maxSize ∧ rc.lruList.size > 0 then
      match rounds with
      | 0 => .error .unfinished
      | rounds + 1 => rc.evictLRU.bind (makeRoom size rounds)
    else .ok rc

/-- `Put`. An eviction makes the list shorter by one; a round without one repeats for ever. -/
def put (rc : ReadCache) (key : Key) (value : Value) : Except Fault ReadCache :=
  let size : Int := value.length
  (rc.makeRoom size rc.lruList.size.toNat).map fun rc =>
    let (lruList, currentSize) :=
      match rc.entries.lookup key with
      | some existing => (rc.lruList.remove existing.lruNode, rc.currentSize - existing.size)
      | none => (rc.lruList, rc.currentSize)
    let (lruList, node) := lruList.alloc key
    { rc with
      entries := rc.entries.insert key ⟨value, size, node⟩
      lruList := lruList.addToFront node
      currentSize := currentSize + size }

/-- The loop ends at once if there is room, or nothing to evict. -/
theorem makeRoom_of_fits {rc : ReadCache} {size : Int}
    (h : ¬(rc.currentSize + size > rc.maxSize ∧ rc.lruList.size > 0)) (rounds : Nat) :
    rc.makeRoom size rounds = .ok rc := by
  cases rounds <;> exact if_neg h

end ReadCache

/-! ## The index cache -/

/-- `IndexCache`. -/
structure IndexCache where
  entries : GoMap Key IndexEntry
  maxSize : Nat

namespace IndexCache

/-- `NewIndexCache`. -/
def new (maxSize : Nat) : IndexCache := ⟨∅, maxSize⟩

/-- `Get`. -/
def get (ic : IndexCache) (key : Key) : Option IndexEntry := ic.entries.lookup key

/-- `Put`; a full cache first drops what a loop over it visits first. -/
def put (order : IterationOrder ((_ : Key) × IndexEntry)) (ic : IndexCache) (key : Key)
    (entry : IndexEntry) : IndexCache :=
  let entries :=
    if ic.entries.len ≥ ic.maxSize then
      match order.pick ic.entries.entries with
      | [] => ic.entries
      | first :: _ => ic.entries.erase first.1
    else ic.entries
  { ic with entries := entries.insert key entry }

end IndexCache

end DistributedKV.Performance
