import DistributedKV.Lib.Lts
import DistributedKV.Performance.BloomFilter
import DistributedKV.Performance.Caches

/-!
# The storage optimizer (`storage.go`)

`OptimizedWrite` appends a record to the data file of the key, adds the key to the filter of that
file, and puts an entry into the index cache. `OptimizedRead` asks the read cache, the Bloom
filters, the index cache and last the data files themselves.

Input and output succeed and calls do not overlap. The clock, the orders of loops over maps and
the rounds of the write cache are inputs (`WriteEnv`, `ReadEnv`); the first four bytes of a SHA-256
sum are a parameter. A call that panics or does not end is a `Fault`. The directory is a map from
names to bytes, and all that remains when it is closed and opened again (`reopen`). Its own path
has none of the characters `*?[\` that `filepath.Glob` reads as a pattern.
-/

namespace DistributedKV.Performance

/-- The fields of `StorageConfig` that are read by what follows. -/
structure StorageConfig where
  enableWriteCache : Bool
  enableReadCache : Bool
  enableBloomFilters : Bool
  writeCacheSize : Int64
  readCacheSize : Int64
  bloomFilterSize : Int64
  bloomFilterHashes : Int64
  enableChecksum : Bool

/-- The default values that `NewStorageOptimizer` sets. -/
def StorageConfig.withDefaults (config : StorageConfig) : StorageConfig :=
  { config with
    writeCacheSize := if config.writeCacheSize = 0 then 64 else config.writeCacheSize
    readCacheSize := if config.readCacheSize = 0 then 128 else config.readCacheSize
    bloomFilterSize := if config.bloomFilterSize = 0 then 1000000 else config.bloomFilterSize
    bloomFilterHashes := if config.bloomFilterHashes = 0 then 3 else config.bloomFilterHashes }

/-- `StorageOptimizer`, and the files of its directory. -/
structure StorageOptimizer where
  config : StorageConfig
  writeCache : Option WriteCache
  readCache : Option ReadCache
  bloomFilters : GoMap String BloomFilter
  indexCache : IndexCache
  dataFiles : GoMap String DataFile
  disk : GoMap String (List UInt8)

/-- What a write depends on besides its arguments. -/
structure WriteEnv where
  now : Int
  rounds : Nat
  evictOrders : Nat → IterationOrder ((_ : Key) × WriteCacheEntry)
  indexOrder : IterationOrder ((_ : Key) × IndexEntry)

/-- What a read depends on besides its argument. -/
structure ReadEnv where
  filterOrder : IterationOrder ((_ : String) × BloomFilter)
  fileOrder : IterationOrder ((_ : String) × DataFile)

/-- The errors of `OptimizedRead`. -/
inductive ReadError where
  | keyNotFound (key : Key)
  | checksumMismatch (key : Key)
  | io (err : ReadEnd)
deriving DecidableEq, Repr

/-- Megabytes as bytes, in 64 bits. -/
def megabytes (n : Int64) : Int := (n * 1024 * 1024).toInt

/-- `NewStorageOptimizer`. -/
def newStorageOptimizer (config : StorageConfig) (disk : GoMap String (List UInt8)) :
    StorageOptimizer :=
  let config := config.withDefaults
  { config := config
    writeCache :=
      if config.enableWriteCache then some (.new (megabytes config.writeCacheSize)) else none
    readCache :=
      if config.enableReadCache then some (.new (megabytes config.readCacheSize)) else none
    bloomFilters := ∅
    indexCache := .new 10000
    dataFiles := ∅
    disk := disk }

/-- `getDataFilePath`, without the directory: one of 16 files. -/
def getDataFilePath (key : Key) : String :=
  let hash := simpleHash key
  let hash := if hash < 0 then -hash else hash
  let shardID := hash % 16
  "data_" ++ (if 0 ≤ shardID ∧ shardID < 10 then "0" else "") ++ toString shardID ++ ".dat"

namespace StorageOptimizer

variable (so : StorageOptimizer)

variable (sha : Value → UInt32)

/-- `calculateChecksum`. -/
def calculateChecksum (config : StorageConfig) (data : Value) : UInt32 :=
  if config.enableChecksum then sha data else 0

/-- The bytes of a file, which is created if it is not there. -/
def fileAt (path : String) : List UInt8 := (so.disk.lookup path).getD []

/-- Open a data file and make a filter for it. -/
def openDataFile (path : String) : Except Fault StorageOptimizer :=
  let so := { so with
    disk := so.disk.insert path (so.fileAt path)
    dataFiles := so.dataFiles.insert path (.opened (so.fileAt path)) }
  if so.config.enableBloomFilters then
    (newBloomFilter so.config.bloomFilterSize so.config.bloomFilterHashes).map fun bloomFilter =>
      { so with bloomFilters := so.bloomFilters.insert path bloomFilter }
  else .ok so

/-- `loadDataFiles`, for the files with these names. -/
def loadDataFiles (so : StorageOptimizer) : List String → Except Fault StorageOptimizer
  | [] => .ok so
  | path :: paths => (so.openDataFile path).bind fun so => so.loadDataFiles paths

/-- `getOrCreateDataFile`, for a path. -/
def getOrCreateDataFile (path : String) : Except Fault StorageOptimizer :=
  if path ∈ so.dataFiles then .ok so else so.openDataFile path

/-! ## Writing -/

/-- What `OptimizedWrite` does to the write cache. -/
def putWriteCache (env : WriteEnv) (so : StorageOptimizer) (key : Key) (value : Value) :
    Except Fault StorageOptimizer :=
  match so.writeCache with
  | none => .ok so
  | some writeCache =>
    (writeCache.put env.evictOrders env.rounds env.now key value).map fun writeCache =>
      { so with writeCache := some writeCache }

/-- What `OptimizedWrite` does to the data file, and the index entry. -/
def appendRecord (path : String) (dataFile : DataFile) (key : Key)
    (value : Value) : StorageOptimizer × IndexEntry :=
  let entry : IndexEntry := ⟨dataFile.size, value.length, calculateChecksum sha so.config value⟩
  let (dataFile, file) := dataFile.write (so.fileAt path) key value entry
  ({ so with
      dataFiles := so.dataFiles.insert path dataFile
      disk := so.disk.insert path file },
    entry)

/-- What `OptimizedWrite` does to the filter of the file. -/
def addToFilter (path : String) (key : Key) :
    Except Fault StorageOptimizer :=
  if so.config.enableBloomFilters then
    match so.bloomFilters.lookup path with
    | none => .ok so
    | some bloomFilter =>
      (bloomFilter.add key).map fun bloomFilter =>
        { so with bloomFilters := so.bloomFilters.insert path bloomFilter }
  else .ok so

/-- `OptimizedWrite`. -/
def optimizedWrite (env : WriteEnv) (so : StorageOptimizer) (key : Key) (value : Value) :
    Except Fault StorageOptimizer := do
  let path := getDataFilePath key
  let so ← so.putWriteCache env key value
  let so ← so.getOrCreateDataFile path
  match so.dataFiles.lookup path with
  | none => .error .nilDereference
  | some dataFile =>
    let (so, entry) := so.appendRecord sha path dataFile key value
    let so ← so.addToFilter path key
    return { so with indexCache := so.indexCache.put env.indexOrder key entry }

/-! ## Reading -/

/-- The loop over the filters. -/
def mayContain (key : Key) : List ((_ : String) × BloomFilter) → Except Fault Bool
  | [] => .ok false
  | entry :: entries =>
    (entry.2.contains key).bind fun found => if found then .ok true else mayContain key entries

/-- A value that is returned is put into the read cache. -/
def cacheRead (key : Key) (value : Value) :
    Except Fault (StorageOptimizer × Except ReadError Value) :=
  match so.readCache with
  | none => .ok (so, .ok value)
  | some readCache =>
    (readCache.put key value).map fun readCache =>
      ({ so with readCache := some readCache }, .ok value)

/-- `scanDataFiles`. -/
def scanDataFiles (env : ReadEnv) (so : StorageOptimizer) (key : Key) :
    Except Fault (StorageOptimizer × Except ReadError Value) :=
  let found := (env.fileOrder.pick so.dataFiles.entries).findSome? fun entry =>
    (entry.2.scan (so.fileAt entry.1) key).toOption
  match found with
  | some value => so.cacheRead key value
  | none => .ok (so, .error (.keyNotFound key))

/-- What `OptimizedRead` does after the filters. -/
def readFiles (env : ReadEnv) (so : StorageOptimizer) (key : Key) :
    Except Fault (StorageOptimizer × Except ReadError Value) :=
  let path := getDataFilePath key
  match so.indexCache.get key with
  | none => so.scanDataFiles env key
  | some entry =>
    if path ∈ so.dataFiles then
      match DataFile.readAt (so.fileAt path) entry.offset entry.size with
      | .error err => .ok (so, .error (.io err))
      | .ok value =>
        if so.config.enableChecksum ∧ calculateChecksum sha so.config value ≠ entry.checksum then
          .ok (so, .error (.checksumMismatch key))
        else so.cacheRead key value
    else so.scanDataFiles env key

/-- What `OptimizedRead` finds in the read cache. -/
def getReadCache (key : Key) : StorageOptimizer × Option Value :=
  match so.readCache with
  | none => (so, none)
  | some readCache =>
    let (readCache, value) := readCache.get key
    ({ so with readCache := some readCache }, value)

/-- `OptimizedRead`. -/
def optimizedRead (env : ReadEnv) (so : StorageOptimizer) (key : Key) :
    Except Fault (StorageOptimizer × Except ReadError Value) :=
  match so.getReadCache key with
  | (so, some value) => .ok (so, .ok value)
  | (so, none) =>
    if so.config.enableBloomFilters then
      (mayContain key (env.filterOrder.pick so.bloomFilters.entries)).bind fun found =>
        if found then so.readFiles sha env key else .ok (so, .error (.keyNotFound key))
    else so.readFiles sha env key

/-! ## Opening -/

/-- `Stop`, and then a new optimizer on the same directory with the same configuration. -/
def reopen : Except Fault StorageOptimizer :=
  (newStorageOptimizer so.config so.disk).loadDataFiles so.disk.keys

end StorageOptimizer

end DistributedKV.Performance
