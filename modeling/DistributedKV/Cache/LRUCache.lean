import DistributedKV.Lib.GoMap
import DistributedKV.Lib.LinkedList
import DistributedKV.Lib.RecencyList

/-!
# The LRU cache

`internal/cache/cache.go`. The cache is a map from keys to items, and the items are the cells of a
doubly linked list between two dummy cells, the most recently used item behind `head`.

Pointers are addresses in a heap of cells; `&cacheItem{…}` takes the next unused one. A method that
follows a nil pointer panics, and its model returns `none`. Each method holds the lock from
beginning to end, so a call is one step, and the clock it reads is an argument.
-/

namespace DistributedKV.Cache

/-- A byte slice, or the bytes of a string. -/
abbrev Bytes := List UInt8

/-- A key of the cache. -/
abbrev Key := Bytes

instance : LawfulBEq Key := inferInstance

/-- `time.Time`, in nanoseconds. -/
abbrev Time := Int

/-- `time.Duration`, in nanoseconds. -/
abbrev Duration := Int

/-- A pointer to a `cacheItem`. -/
abbrev Addr := Nat

/-- What a `cacheItem` holds besides its two links. -/
abbrev Item := Entry Key Bytes Time

/-- `LRUCache`, and the heap its items live in. -/
structure LRUCache where
  capacity : Int
  items : GoMap Key Addr
  head : Addr
  tail : Addr
  hits : Int64
  misses : Int64
  evictions : Int64
  heap : Heap Addr Item
  /-- The first address not yet allocated. -/
  fresh : Addr

/-- `CacheStats`. -/
structure CacheStats where
  hits : Int64
  misses : Int64
  evictions : Int64
  size : Nat
  capacity : Int
  hitRatio : Float

/-- `time.Now().Add(ttl)` for a positive `ttl`, no expiry otherwise. -/
def expiry (now : Time) (ttl : Duration) : Option Time :=
  if ttl > 0 then some (now + ttl) else none

/-- A heap of zero cells. -/
def zeroHeap : Heap Addr Item := fun _ => ⟨⟨[], [], none⟩, none, none⟩

/-- `NewLRUCache`. -/
def newLRUCache (capacity : Int) : LRUCache where
  capacity := if capacity ≤ 0 then 1000 else capacity
  items := ∅
  head := 0
  tail := 1
  hits := 0
  misses := 0
  evictions := 0
  heap := (zeroHeap.setNext 0 (some 1)).setPrev 1 (some 0)
  fresh := 2

namespace LRUCache

variable (c : LRUCache)

/-! ## The list -/

/-- `&cacheItem{key: …, value: …, expiresAt: …}`: the item is at `c.fresh`. -/
def alloc (item : Item) : LRUCache :=
  { c with heap := c.heap.setCell c.fresh ⟨item, none, none⟩, fresh := c.fresh + 1 }

def addToFront (item : Addr) : Option LRUCache :=
  (c.heap.pushAfter c.head item).map fun h => { c with heap := h }

def removeFromList (item : Addr) : Option LRUCache :=
  (c.heap.unlink item).map fun h => { c with heap := h }

def moveToFront (item : Addr) : Option LRUCache := do
  let c ← c.removeFromList item
  c.addToFront item

def removeItem (item : Addr) : Option LRUCache :=
  { c with items := c.items.erase (c.heap item).data.key }.removeFromList item

def evictLRU : Option LRUCache :=
  if (c.heap c.tail).prev = some c.head then some c  -- Empty cache
  else do
    let lru ← (c.heap c.tail).prev
    let c ← c.removeItem lru
    return { c with evictions := c.evictions + 1 }

/-! ## The methods -/

/-- `Get`: the value found. -/
def get (now : Time) (key : Key) : Option (LRUCache × Option Bytes) :=
  match c.items.lookup key with
  | none => some ({ c with misses := c.misses + 1 }, none)
  | some item =>
    if Stale now (c.heap item).data.expiresAt then do
      let c ← c.removeItem item
      return ({ c with misses := c.misses + 1 }, none)
    else do
      let c ← c.moveToFront item
      return ({ c with hits := c.hits + 1 }, some (c.heap item).data.value)

/-- `Put`. -/
def put (now : Time) (key : Key) (value : Bytes) (ttl : Duration) :
    Option (LRUCache × Bool) :=
  match c.items.lookup key with
  | some existingItem => do
    let updated : Item :=
      { (c.heap existingItem).data with value := value, expiresAt := expiry now ttl }
    let c := { c with heap := c.heap.setData existingItem updated }
    let c ← c.moveToFront existingItem
    return (c, true)
  | none => do
    let item := c.fresh
    let c := c.alloc ⟨key, value, expiry now ttl⟩
    let c ← c.addToFront item
    let c := { c with items := c.items.insert key item }
    (if (c.items.len : Int) > c.capacity then c.evictLRU else some c).map fun c => (c, true)

/-- `Delete`: whether there was an item. -/
def delete (key : Key) : Option (LRUCache × Bool) :=
  match c.items.lookup key with
  | none => some (c, false)
  | some item => (c.removeItem item).map fun c => (c, true)

/-- `Clear`. -/
def clear : LRUCache :=
  { c with
    items := ∅
    heap := (c.heap.setNext c.head (some c.tail)).setPrev c.tail (some c.head)
    hits := 0
    misses := 0
    evictions := 0 }

/-- `Stats`. -/
def stats : CacheStats where
  hits := c.hits
  misses := c.misses
  evictions := c.evictions
  size := c.items.len
  capacity := c.capacity
  hitRatio :=
    let totalAccess := c.hits + c.misses
    if totalAccess > 0 then c.hits.toFloat / totalAccess.toFloat else 0.0

/-- The item of a key is expired, as `CleanupExpired` tests it. -/
def expiredKey (now : Time) (key : Key) : Bool :=
  match c.items.lookup key with
  | none => false
  | some item => Stale now (c.heap item).data.expiresAt

/-- The second loop of `CleanupExpired`. -/
def removeKeys (c : LRUCache) : List Key → Option LRUCache
  | [] => some c
  | key :: keys =>
    match c.items.lookup key with
    | none => c.removeKeys keys
    | some item => (c.removeItem item).bind fun c => c.removeKeys keys

/-- `CleanupExpired`: the number of items removed. The first loop visits the map in order
`order`. -/
def cleanupExpired (now : Time) (order : IterationOrder Key) :
    Option (LRUCache × Nat) := do
  let expiredKeys := (order.pick c.items.keys).filter (c.expiredKey now)
  let c ← c.removeKeys expiredKeys
  return (c, expiredKeys.length)

end LRUCache

/-! ## Calls -/

/-- A call of one of the cache's methods. -/
inductive Call where
  | get (key : Key)
  | put (key : Key) (value : Bytes) (ttl : Duration)
  | delete (key : Key)
  | clear
  | cleanupExpired (order : IterationOrder Key)

/-- What a call returns. -/
inductive Result where
  | value (found : Option Bytes)
  | flag (b : Bool)
  | count (n : Nat)
  | done

/-- A call, made when the clock reads `now`. -/
def LRUCache.call (c : LRUCache) (now : Time) : Call → Option (LRUCache × Result)
  | .get key => (c.get now key).map fun r => (r.1, .value r.2)
  | .put key value ttl => (c.put now key value ttl).map fun r => (r.1, .flag r.2)
  | .delete key => (c.delete key).map fun r => (r.1, .flag r.2)
  | .clear => some (c.clear, .done)
  | .cleanupExpired order => (c.cleanupExpired now order).map fun r => (r.1, .count r.2)

end DistributedKV.Cache
