import DistributedKV.Lib.Prog
import DistributedKV.Storage.Engine

/-!
# The cached storage engine

`internal/storage/cached_storage.go`. A method is a program of calls on the base engine and the
cache. Both have their own lock and the wrapper has none, so each such call is one atomic step and
nothing holds between two of them.
-/

namespace DistributedKV.Storage

open Cache (Bytes Key Time Duration LRUCache newLRUCache Item)

/-! ## The two components -/

/-- A call on the base engine or on the cache. -/
inductive Atom where
  | put (key : Key) (value : Bytes)
  | get (key : Key)
  | delete (key : Key)
  | has (key : Key)
  | batchPut (items : List KeyValue)
  | batchGet (keys : List Key)
  | batchDelete (keys : List Key)
  | restore
  | cacheGet (key : Key)
  | cachePut (key : Key) (value : Bytes) (ttl : Duration)
  | cacheDelete (key : Key)
  | cacheClear
  | cacheCleanup (order : IterationOrder Key)

/-- What a call returns to the wrapper; it ignores what `Put` and `Delete` of the cache
return. -/
abbrev Atom.Answer : Atom → Type
  | .put _ _ | .delete _ | .batchPut _ | .batchDelete _ | .restore => Option StorageError
  | .get _ => Option Bytes × Option StorageError
  | .has _ => Bool × Option StorageError
  | .batchGet _ => List KeyValue × Option StorageError
  | .cacheGet _ => Option Bytes
  | .cachePut _ _ _ | .cacheDelete _ | .cacheClear | .cacheCleanup _ => Unit

/-- What the environment decides: whether a write fails, and what a backup file holds. -/
structure Outcome where
  fault : Option BadgerError
  backup : Except StorageError Content

/-- The base engine and the cache. -/
structure Machine where
  storage : Engine
  cache : LRUCache

/-- A call when the clock reads `now`. -/
def Machine.handle (now : Time) (o : Outcome) (s : Machine) :
    (a : Atom) → Option (Machine × a.Answer)
  | .put key value =>
    let r := s.storage.put o.fault key value
    some ({ s with storage := r.1 }, r.2)
  | .get key => some (s, s.storage.get key)
  | .delete key =>
    let r := s.storage.delete o.fault key
    some ({ s with storage := r.1 }, r.2)
  | .has key => some (s, s.storage.has key)
  | .batchPut items =>
    let r := s.storage.batchPut o.fault items
    some ({ s with storage := r.1 }, r.2)
  | .batchGet keys => some (s, s.storage.batchGet keys)
  | .batchDelete keys =>
    let r := s.storage.batchDelete o.fault keys
    some ({ s with storage := r.1 }, r.2)
  | .restore =>
    let r := s.storage.restore o.backup
    some ({ s with storage := r.1 }, r.2)
  | .cacheGet key => (s.cache.get now key).map fun r => ({ s with cache := r.1 }, r.2)
  | .cachePut key value ttl =>
    (s.cache.put now key value ttl).map fun r => ({ s with cache := r.1 }, ())
  | .cacheDelete key => (s.cache.delete key).map fun r => ({ s with cache := r.1 }, ())
  | .cacheClear => some ({ s with cache := s.cache.clear }, ())
  | .cacheCleanup order =>
    (s.cache.cleanupExpired now order).map fun r => ({ s with cache := r.1 }, ())

/-! ## The methods -/

/-- `CachedStorageConfig`; the cleanup interval only says when cleanups happen. -/
structure CachedStorageConfig where
  cacheEnabled : Bool
  cacheSize : Int
  defaultTTL : Duration

/-- A method of the wrapper. -/
abbrev Program := Prog Atom Atom.Answer

namespace CachedStorage

/-- One call on a component. -/
def call (a : Atom) : Program a.Answer := Prog.perform a

variable (config : CachedStorageConfig)

/-- A step made if there is a cache. -/
def ifCached (p : Program Unit) : Program Unit :=
  if config.cacheEnabled then p else return ()

/-- The cache is asked first, if there is one. -/
def lookup (key : Key) : Program (Option Bytes) :=
  if config.cacheEnabled then call (.cacheGet key) else return none

/-- The value is cached, if there is a cache. -/
def store (key : Key) (value : Bytes) : Program Unit :=
  ifCached config (call (.cachePut key value config.defaultTTL))

/-- The methods that write: the base engine first, and if that succeeds an update of the cache.
-/
def writeThrough (base : Program (Option StorageError)) (update : Program Unit) :
    Program (Option StorageError) := do
  match ← base with
  | some err => return some err
  | none =>
    update
    return none

def put (key : Key) (value : Bytes) : Program (Option StorageError) :=
  writeThrough (call (.put key value)) (store config key value)

def get (key : Key) : Program (Option Bytes × Option StorageError) := do
  match ← lookup config key with
  | some value => return (some value, none)
  | none =>
    match ← call (.get key) with
    | (_, some err) => return (none, some err)
    | (none, none) => return (none, none)
    | (some value, none) =>
      store config key value
      return (some value, none)

def delete (key : Key) : Program (Option StorageError) :=
  writeThrough (call (.delete key)) (ifCached config (call (.cacheDelete key)))

/-- `Exists`. -/
def has (key : Key) : Program (Bool × Option StorageError) := do
  match ← lookup config key with
  | some _ => return (true, none)
  | none => call (.has key)

def restore : Program (Option StorageError) :=
  writeThrough (call .restore) (ifCached config (call .cacheClear))

/-- The loop of `WarmCache` for one key. -/
def warm (key : Key) : Program Unit := do
  match ← call (.get key) with
  | (_, some _) => return ()
  | (value, none) => store config key (value.getD [])

def warmCache (keys : List Key) : Program (Option StorageError) := do
  ifCached config (.each (warm config) keys)
  return none

def batchPut (items : List KeyValue) : Program (Option StorageError) :=
  writeThrough (call (.batchPut items))
    (ifCached config
      (.each (fun item => call (.cachePut item.key item.value config.defaultTTL)) items))

/-- The first loop of `BatchGet`, from index `i`: the results, zero for a key that is not
cached, and the indexes and keys of those. -/
def batchLookup : Nat → List Key → Program (List KeyValue × List (Nat × Key))
  | _, [] => return ([], [])
  | i, key :: keys => do
    let found ← lookup config key
    let rest ← batchLookup (i + 1) keys
    match found with
    | some value => return (⟨key, value, true⟩ :: rest.1, rest.2)
    | none => return (.zero :: rest.1, (i, key) :: rest.2)

/-- A result of the base engine is cached if the key was found. -/
def storeFound (r : KeyValue) : Program Unit :=
  if r.found then store config r.key r.value else return ()

/-- The second loop of `BatchGet`: a result of the base engine goes to its index. -/
def batchFill : List (Nat × KeyValue) → List KeyValue → Program (List KeyValue)
  | [], results => return results
  | (i, r) :: rest, results => do
    storeFound config r
    batchFill rest (results.set i r)

def batchGet (keys : List Key) : Program (List KeyValue × Option StorageError) := do
  let looked ← batchLookup config 0 keys
  if looked.2 = [] then return (looked.1, none)
  else
    match ← call (.batchGet (looked.2.map Prod.snd)) with
    | (_, some err) => return ([], some err)
    | (storageResults, none) => do
      let results ← batchFill config ((looked.2.map Prod.fst).zip storageResults) looked.1
      return (results, none)

def batchDelete (keys : List Key) : Program (Option StorageError) :=
  writeThrough (call (.batchDelete keys))
    (ifCached config (.each (fun key => call (.cacheDelete key)) keys))

/-- One tick of `cleanupLoop`. -/
def cleanup (order : IterationOrder Key) : Program Unit :=
  ifCached config (call (.cacheCleanup order))

end CachedStorage

/-! ## Requests -/

/-- A call of a method. -/
inductive Request where
  | put (key : Key) (value : Bytes)
  | get (key : Key)
  | delete (key : Key)
  | has (key : Key)
  | batchPut (items : List KeyValue)
  | batchGet (keys : List Key)
  | batchDelete (keys : List Key)
  | warmCache (keys : List Key)
  | restore
  | cleanup (order : IterationOrder Key)

/-- What a method returns. -/
inductive Reply where
  | status (err : Option StorageError)
  | value (value : Option Bytes) (err : Option StorageError)
  | flag (b : Bool) (err : Option StorageError)
  | values (results : List KeyValue) (err : Option StorageError)
  | nothing

/-- What the caller learns: the error, or the result, a slice as the bytes it holds. -/
inductive Seen where
  | failed (err : StorageError)
  | ok
  | value (value : Bytes)
  | flag (b : Bool)
  | values (results : List KeyValue)

def Reply.seen : Reply → Seen
  | .status (some err) | .value _ (some err) | .flag _ (some err) | .values _ (some err) =>
    .failed err
  | .status none | .nothing => .ok
  | .value v none => .value (v.getD [])
  | .flag b none => .flag b
  | .values rs none => .values rs

/-- The program of a request on the cached engine. -/
def Request.code (config : CachedStorageConfig) : Request → Program Reply
  | .put key value => do return .status (← CachedStorage.put config key value)
  | .get key => do
    let r ← CachedStorage.get config key
    return .value r.1 r.2
  | .delete key => do return .status (← CachedStorage.delete config key)
  | .has key => do
    let r ← CachedStorage.has config key
    return .flag r.1 r.2
  | .batchPut items => do return .status (← CachedStorage.batchPut config items)
  | .batchGet keys => do
    let r ← CachedStorage.batchGet config keys
    return .values r.1 r.2
  | .batchDelete keys => do return .status (← CachedStorage.batchDelete config keys)
  | .warmCache keys => do return .status (← CachedStorage.warmCache config keys)
  | .restore => do return .status (← CachedStorage.restore config)
  | .cleanup order => do
    CachedStorage.cleanup config order
    return .nothing

/-- The same request on the base engine alone: there is no cache to warm or to clean. -/
def Engine.serve (e : Engine) (o : Outcome) : Request → Engine × Reply
  | .put key value => ((e.put o.fault key value).1, .status (e.put o.fault key value).2)
  | .get key => (e, .value (e.get key).1 (e.get key).2)
  | .delete key => ((e.delete o.fault key).1, .status (e.delete o.fault key).2)
  | .has key => (e, .flag (e.has key).1 (e.has key).2)
  | .batchPut items => ((e.batchPut o.fault items).1, .status (e.batchPut o.fault items).2)
  | .batchGet keys => (e, .values (e.batchGet keys).1 (e.batchGet keys).2)
  | .batchDelete keys =>
    ((e.batchDelete o.fault keys).1, .status (e.batchDelete o.fault keys).2)
  | .warmCache _ => (e, .status none)
  | .restore => ((e.restore o.backup).1, .status (e.restore o.backup).2)
  | .cleanup _ => (e, .nothing)

/-! ## One client -/

/-- The components, and the number of calls made on them so far. -/
structure Alone where
  machine : Machine
  calls : Nat

/-- The calls of one client: the `n`-th one reads the clock at `clock n`. -/
def Alone.handle (clock : Nat → Time) (o : Outcome) (s : Alone) (a : Atom) :
    Option (Alone × a.Answer) :=
  (s.machine.handle (clock s.calls) o a).map fun r => (⟨r.1, s.calls + 1⟩, r.2)

/-- Requests one after the other on the cached engine. -/
def serveCached (config : CachedStorageConfig) (clock : Nat → Time) (s : Alone) :
    List (Request × Outcome) → Option (Alone × List Reply)
  | [] => some (s, [])
  | (q, o) :: rest => do
    let (s, reply) ← (q.code config).run (Alone.handle clock o) s
    let (s, replies) ← serveCached config clock s rest
    return (s, reply :: replies)

/-- The same requests on the base engine. -/
def Engine.serveAll (e : Engine) : List (Request × Outcome) → Engine × List Reply
  | [] => (e, [])
  | (q, o) :: rest =>
    let r := e.serve o q
    let rs := r.1.serveAll rest
    (rs.1, r.2 :: rs.2)

/-- `NewCachedStorageEngine`. -/
def newCachedStorageEngine (storage : Engine) (config : CachedStorageConfig) : Machine where
  storage := storage
  cache := newLRUCache config.cacheSize

end DistributedKV.Storage
