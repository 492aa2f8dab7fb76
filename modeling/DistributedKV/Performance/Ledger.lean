import Mathlib.Data.List.Dedup
import Mathlib.Data.List.Perm.Subperm
import DistributedKV.Performance.StorageOptimizer

/-!
# What has been written and read

A `Ledger` is kept beside the optimizer: the writes before and since the directory was opened, and
the values that were read since then with the read cache on. `Consistent` says how every layer
follows from it: the files are the records of all writes, the indexes and the filters know the
writes since the directory was opened, and the read cache has what was read.
-/

namespace DistributedKV.Performance

open AList GoMap List

/-! ## The ledger -/

/-- The writes before the directory was opened, and those since then. -/
structure Writes where
  older : List (Key × Value)
  newer : List (Key × Value)

/-- The writes, and the values that were read since the directory was opened. -/
structure Ledger extends Writes where
  fetched : List (Key × Value)

/-- The keys of records. -/
def keysOf (records : List (Key × Value)) : List Key := records.map Prod.fst

/-- The records that are in a file. -/
def recordsAt (path : String) (records : List (Key × Value)) : List (Key × Value) :=
  records.filter fun kv => getDataFilePath kv.1 = path

namespace Writes

def all (l : Writes) : List (Key × Value) := l.older ++ l.newer

/-- The last write of a key. -/
def last (l : Writes) (key : Key) : Option Value := lastOf l.all key

/-- One more write. -/
def add (l : Writes) (key : Key) (value : Value) : Writes :=
  { l with newer := l.newer ++ [(key, value)] }

end Writes

namespace Ledger

variable (l : Ledger)

def write (key : Key) (value : Value) : Ledger :=
  { l with toWrites := l.add key value }

@[simp] theorem toWrites_write (key : Key) (value : Value) :
    (l.write key value).toWrites = l.add key value :=
  rfl

/-- With the read cache on, a read keeps the value of a key that was written. -/
def read (caching : Bool) (key : Key) : Ledger :=
  match l.last key with
  | some value =>
    if caching = true ∧ firstOf l.fetched key = none then
      { l with fetched := l.fetched ++ [(key, value)] }
    else l
  | none => l

def reopen : Ledger := ⟨⟨l.all, []⟩, []⟩

end Ledger

section Records

variable {records later : List (Key × Value)} {key key' : Key} {value : Value} {path : String}

theorem firstOf_eq_none : firstOf records key = none ↔ key ∉ keysOf records := by
  rw [firstOf, Option.map_eq_none_iff, find?_eq_none, keysOf]
  simp only [mem_map, decide_eq_true_eq, not_exists, not_and]

theorem firstOf_append :
    firstOf (records ++ later) key = (firstOf records key).or (firstOf later key) := by
  rw [firstOf, firstOf, firstOf, find?_append]
  cases records.find? fun kv => kv.1 = key <;> rfl

theorem firstOf_singleton :
    firstOf [(key, value)] key' = if key = key' then some value else none := by
  rw [firstOf, find?_singleton]
  by_cases h : key = key' <;> simp [h]

theorem lastOf_eq_none : lastOf records key = none ↔ key ∉ keysOf records := by
  rw [lastOf, firstOf_eq_none, keysOf, keysOf, map_reverse, mem_reverse]

theorem lastOf_append :
    lastOf (records ++ later) key = (lastOf later key).or (lastOf records key) := by
  rw [lastOf, reverse_append, firstOf_append]
  rfl

@[simp] theorem recordsAt_append :
    recordsAt path (records ++ later) = recordsAt path records ++ recordsAt path later :=
  filter_append ..

theorem recordsAt_singleton : recordsAt path [(key, value)] =
    if getDataFilePath key = path then [(key, value)] else [] := by
  rw [recordsAt, filter_singleton]
  by_cases h : getDataFilePath key = path <;> simp [h]

/-- In the file of a key there are all of its records. -/
theorem firstOf_recordsAt : firstOf (recordsAt path records) key =
    if getDataFilePath key = path then firstOf records key else none := by
  split_ifs with h
  · rw [firstOf, firstOf, recordsAt, find?_filter]
    congr 2
    funext kv
    by_cases hkey : kv.1 = key <;> simp [hkey, h]
  rw [firstOf_eq_none, keysOf]
  rintro hmem
  obtain ⟨kv, hkv, rfl⟩ := mem_map.mp hmem
  exact h (by simpa [recordsAt] using (mem_filter.mp hkv).2)

end Records

/-! ## Index entries -/

open StorageOptimizer (calculateChecksum)

section Entries

variable (checksum : Value → UInt32)

/-- The entry of the last write of the key since the directory was opened, with the start of the
record and the size of the value. -/
def Located (l : Writes) (key : Key) (entry : IndexEntry) : Prop :=
  ∃ before value after, l.newer = before ++ (key, value) :: after ∧ key ∉ keysOf after ∧
    entry = ⟨(fileOf checksum (recordsAt (getDataFilePath key) (l.older ++ before))).length,
      value.length, checksum value⟩

variable {checksum} {l : Writes} {key key' : Key} {value : Value} {entry : IndexEntry}

theorem Located.mem (h : Located checksum l key entry) : key ∈ keysOf l.newer := by
  obtain ⟨before, value, after, hnewer, -, -⟩ := h
  rw [keysOf, hnewer]
  simp

theorem located_add : Located checksum (l.add key value) key
    ⟨(fileOf checksum (recordsAt (getDataFilePath key) l.all)).length, value.length,
      checksum value⟩ :=
  ⟨l.newer, value, [], rfl, not_mem_nil, rfl⟩

theorem Located.add (h : Located checksum l key entry) (hne : key' ≠ key) :
    Located checksum (l.add key' value) key entry := by
  obtain ⟨before, v, after, hnewer, hafter, hentry⟩ := h
  refine ⟨before, v, after ++ [(key', value)], ?_, ?_, hentry⟩
  · rw [Writes.add, hnewer, append_assoc, cons_append]
  · simpa [keysOf, hne.symm] using hafter

/-- What is read at an entry: the first bytes of the record of the last write. -/
theorem Located.readAt (h : Located checksum l key entry) : ∃ value,
    lastOf l.newer key = some value ∧ entry.checksum = checksum value ∧
    DataFile.readAt (fileOf checksum (recordsAt (getDataFilePath key) l.all)) entry.offset
      entry.size = .ok ((record (checksum value) key value).take value.length) := by
  obtain ⟨before, value, after, hnewer, hafter, rfl⟩ := h
  refine ⟨value, ?_, rfl, ?_⟩
  · rw [hnewer, ← singleton_append, ← append_assoc, lastOf_append, lastOf_append,
      lastOf_eq_none.mpr hafter]
    simp [lastOf, firstOf_singleton]
  have hall : l.all = (l.older ++ before) ++ ([(key, value)] ++ after) := by
    rw [Writes.all, hnewer]
    simp
  have hle : value.length ≤ (record (checksum value) key value).length := by
    rw [length_record]
    omega
  generalize l.older ++ before = earlier at hall ⊢
  rw [hall, recordsAt_append, recordsAt_append, recordsAt_singleton, if_pos rfl, fileOf_append,
    fileOf_append, fileOf_cons, DataFile.readAt]
  rw [drop_left' rfl, append_assoc, take_append_of_le_length hle,
    if_pos (by rw [length_take, Nat.min_eq_left hle])]

end Entries

/-! ## One layer at a time -/

section Layers

variable (checksum : Value → UInt32) (l : Writes)

/-- A data file knows its size and the writes since it was opened. -/
structure Indexed (path : String) (df : DataFile) : Prop where
  size_eq : df.size = (fileOf checksum (recordsAt path l.all)).length
  located : ∀ key entry, df.index.lookup key = some entry →
    getDataFilePath key = path ∧ Located checksum l key entry
  complete : ∀ key ∈ keysOf l.newer, getDataFilePath key = path → key ∈ df.index

/-- The filter of a file contains the keys that were written since it was opened. -/
structure Filtered (path : String) (bf : BloomFilter) : Prop where
  valid : bf.Valid
  complete : ∀ key ∈ keysOf l.newer, getDataFilePath key = path → bf.contains key = .ok true

/-- The index cache knows the writes since the directory was opened, all if there is room for
them. -/
structure Known (ic : IndexCache) : Prop where
  maxSize_eq : ic.maxSize = 10000
  located : ∀ key entry, ic.entries.lookup key = some entry → Located checksum l key entry
  complete : (keysOf l.newer).dedup.length < 10000 → ∀ key ∈ keysOf l.newer, key ∈ ic.entries

/-- The read cache holds what was read. -/
structure Holds (config : StorageConfig) (fetched : List (Key × Value)) (rc : ReadCache) :
    Prop where
  maxSize_eq : rc.maxSize = megabytes config.readCacheSize
  currentSize_eq : rc.currentSize = totalSize fetched
  lookup_eq : ∀ key, (rc.entries.lookup key).map ReadCacheEntry.value = firstOf fetched key

variable {checksum l} {path : String} {key : Key} {value : Value}

theorem mem_keysOf_add {key' : Key} :
    key' ∈ keysOf (l.add key value).newer ↔ key' ∈ keysOf l.newer ∨ key' = key := by
  rw [Writes.add, keysOf, keysOf, map_append, mem_append]
  simp

theorem all_add : (l.add key value).all = l.all ++ [(key, value)] := by
  rw [Writes.add, Writes.all, Writes.all, append_assoc]

theorem mem_keysOf_all {l : Writes} {key : Key} (h : key ∈ keysOf l.newer) :
    key ∈ keysOf l.all := by
  rw [Writes.all, keysOf, map_append]
  exact mem_append_right _ h

theorem mem_keysOf_all_add {key' : Key} :
    key' ∈ keysOf (l.add key value).all ↔ key' ∈ keysOf l.all ∨ key' = key := by
  rw [all_add, keysOf, keysOf, map_append, mem_append]
  simp

theorem Indexed.write_ne {df : DataFile} (h : Indexed checksum l path df)
    (hne : getDataFilePath key ≠ path) : Indexed checksum (l.add key value) path df where
  size_eq := by
    rw [h.size_eq, all_add, recordsAt_append, recordsAt_singleton, if_neg hne, append_nil]
  located key' entry hlook := by
    obtain ⟨hpath, hlocated⟩ := h.located key' entry hlook
    refine ⟨hpath, hlocated.add ?_⟩
    rintro rfl
    exact hne hpath
  complete key' hmem hpath := by
    rcases mem_keysOf_add.mp hmem with hmem | rfl
    · exact h.complete key' hmem hpath
    · exact absurd hpath hne

theorem Indexed.write {df : DataFile} (file : List UInt8)
    (h : Indexed checksum l (getDataFilePath key) df) :
    Indexed checksum (l.add key value) (getDataFilePath key)
      (df.write file key value ⟨df.size, value.length, checksum value⟩).1 where
  size_eq := by
    rw [all_add, recordsAt_append, recordsAt_singleton, if_pos rfl, fileOf_append,
      length_append, ← h.size_eq, fileOf_cons, length_append, length_record]
    rfl
  located key' entry hlook := by
    rcases lookup_insert_eq_some.mp hlook with ⟨rfl, rfl⟩ | ⟨hkey, hlook⟩
    · rw [h.size_eq]
      exact ⟨rfl, located_add⟩
    · obtain ⟨hpath, hlocated⟩ := h.located key' entry hlook
      exact ⟨hpath, hlocated.add (Ne.symm hkey)⟩
  complete key' hmem hpath := by
    refine (mem_insert _).mpr ?_
    rcases mem_keysOf_add.mp hmem with hmem | heq
    · exact .inr (h.complete key' hmem hpath)
    · exact .inl heq

theorem Filtered.write_ne {bf : BloomFilter} (h : Filtered l path bf)
    (hne : getDataFilePath key ≠ path) : Filtered (l.add key value) path bf where
  valid := h.valid
  complete key' hmem hpath := by
    rcases mem_keysOf_add.mp hmem with hmem | rfl
    · exact h.complete key' hmem hpath
    · exact absurd hpath hne

theorem Filtered.add {bf bf' : BloomFilter} (h : Filtered l path bf) (hadd : bf.add key = .ok bf') :
    Filtered (l.add key value) path bf' where
  valid := (h.valid.add hadd).1
  complete key' hmem hpath := by
    refine h.valid.contains_add hadd ?_
    rcases mem_keysOf_add.mp hmem with hmem | heq
    · exact .inr (h.complete key' hmem hpath)
    · exact .inl heq

theorem length_le_dedup {keys keys' : List Key} (hnodup : keys.Nodup)
    (hsub : ∀ key ∈ keys, key ∈ keys') : keys.length ≤ keys'.dedup.length :=
  (hnodup.subperm fun key hmem => mem_dedup.mpr (hsub key hmem)).length_le

/-- What a write does to the index cache. It evicts only if it is full. -/
theorem Known.put {ic : IndexCache} (h : Known checksum l ic)
    (order : IterationOrder ((_ : Key) × IndexEntry)) :
    Known checksum (l.add key value) (ic.put order key
      ⟨(fileOf checksum (recordsAt (getDataFilePath key) l.all)).length, value.length,
        checksum value⟩) where
  maxSize_eq := h.maxSize_eq
  located key' entry hlook := by
    rcases lookup_insert_eq_some.mp hlook with ⟨rfl, rfl⟩ | ⟨hkey, hlook⟩
    · exact located_add
    refine (h.located key' entry ?_).add (Ne.symm hkey)
    split at hlook
    · split at hlook
      · exact hlook
      · next first rest _ =>
        exact (lookup_erase_eq_some.mp hlook).2
    · exact hlook
  complete hdistinct key' hmem := by
    have hle : (keysOf l.newer).dedup.length ≤ (keysOf (l.add key value).newer).dedup.length :=
      length_le_dedup (nodup_dedup _) fun key'' hmem'' =>
        mem_keysOf_add.mpr (.inl (mem_dedup.mp hmem''))
    have hlen : ic.entries.len ≤ (keysOf l.newer).dedup.length := by
      refine length_le_dedup ic.entries.keys_nodup fun key'' hmem'' => ?_
      obtain ⟨entry, hlook⟩ := exists_lookup (m := ic.entries) hmem''
      exact (h.located key'' entry hlook).mem
    have hroom : ¬ic.entries.len ≥ ic.maxSize := by
      rw [h.maxSize_eq]
      omega
    rw [IndexCache.put]
    rw [if_neg hroom]
    refine (mem_insert _).mpr ?_
    rcases mem_keysOf_add.mp hmem with hmem | heq
    · exact .inr (h.complete (by omega) key' hmem)
    · exact .inl heq

end Layers

/-! ## All layers -/

section Consistency

variable (sha : Value → UInt32)

/-- Every layer is what the ledger says. -/
structure Agrees (so : StorageOptimizer) (l : Ledger) : Prop where
  files : ∀ path, so.fileAt path = fileOf (calculateChecksum sha so.config) (recordsAt path l.all)
  indexed : ∀ path df, so.dataFiles.lookup path = some df →
    Indexed (calculateChecksum sha so.config) l.toWrites path df
  filtered : so.config.enableBloomFilters = true → 0 < so.config.bloomFilterSize.toInt →
    0 ≤ so.config.bloomFilterHashes.toInt →
    ∀ path bf, so.bloomFilters.lookup path = some bf → Filtered l.toWrites path bf
  filters : so.config.enableBloomFilters = true → ∀ path ∈ so.dataFiles, path ∈ so.bloomFilters
  known : Known (calculateChecksum sha so.config) l.toWrites so.indexCache
  uncached : so.readCache = none → so.config.enableReadCache = false ∧ l.fetched = []
  cached : ∀ rc, so.readCache = some rc →
    so.config.enableReadCache = true ∧ Holds so.config l.fetched rc

/-- And the file of every key that was written is open. -/
structure Consistent (so : StorageOptimizer) (l : Ledger) : Prop extends Agrees sha so l where
  opened : ∀ key ∈ keysOf l.all, getDataFilePath key ∈ so.dataFiles
  stored : ∀ key ∈ keysOf l.all, getDataFilePath key ∈ so.disk

variable {sha} {so so' : StorageOptimizer} {l : Ledger} {path : String} {key : Key} {value : Value}

open StorageOptimizer

theorem openDataFile_cases (h : so.openDataFile path = .ok so') : ∃ filters, so' = { so with
      disk := so.disk.insert path (so.fileAt path)
      dataFiles := so.dataFiles.insert path (.opened (so.fileAt path))
      bloomFilters := filters } ∧
    (so.config.enableBloomFilters = true → ∃ bf, filters = so.bloomFilters.insert path bf ∧
      newBloomFilter so.config.bloomFilterSize so.config.bloomFilterHashes = .ok bf) := by
  unfold openDataFile at h
  dsimp only at h
  split at h
  · cases hnew : newBloomFilter so.config.bloomFilterSize so.config.bloomFilterHashes with
    | error fault => rw [hnew] at h; cases h
    | ok bf =>
      rw [hnew] at h
      exact ⟨_, (Except.ok.inj h).symm, fun _ => ⟨bf, rfl, rfl⟩⟩
  · next hoff => exact ⟨so.bloomFilters, (Except.ok.inj h).symm, fun hon => absurd hon hoff⟩

variable {disk : GoMap String (List UInt8)} {other : String} {env : WriteEnv}

theorem fileAt_insert {file : List UInt8} :
    (so.disk = disk.insert path file) → so.fileAt other =
      if other = path then file else (disk.lookup other).getD [] := by
  intro hdisk
  rw [fileAt, hdisk]
  split_ifs with h
  · rw [h, lookup_insert, Option.getD_some]
  · rw [lookup_insert_ne h]

/-- Opening a file in which nothing was written since the directory was opened. -/
theorem Agrees.openDataFile (h : Agrees sha so l)
    (hnone : ∀ key ∈ keysOf l.newer, getDataFilePath key ≠ path)
    (hopen : so.openDataFile path = .ok so') : Agrees sha so' l := by
  obtain ⟨filters, rfl, hfilters⟩ := openDataFile_cases hopen
  refine ⟨?_, ?_, ?_, ?_, h.known, h.uncached, h.cached⟩
  · intro other
    rw [fileAt_insert rfl]
    split
    · next heq => rw [heq, h.files]
    · exact h.files other
  · intro other df hlook
    rcases lookup_insert_eq_some.mp hlook with ⟨rfl, rfl⟩ | ⟨-, hlook⟩
    · rw [h.files]
      exact ⟨rfl, fun _ _ hlook => (by cases hlook),
        fun key hmem hpath => absurd hpath (hnone key hmem)⟩
    · exact h.indexed other df hlook
  · intro hon hsize hhashes other bf hlook
    obtain ⟨bf', rfl, hnew⟩ := hfilters hon
    rcases lookup_insert_eq_some.mp hlook with ⟨rfl, rfl⟩ | ⟨-, hlook⟩
    · exact ⟨(valid_newBloomFilter hsize hhashes hnew).1,
        fun key hmem hpath => absurd hpath (hnone key hmem)⟩
    · exact h.filtered hon hsize hhashes other bf hlook
  intro hon other hother
  obtain ⟨bf', rfl, -⟩ := hfilters hon
  refine (mem_insert _).mpr ?_
  rcases (mem_insert _).mp hother with heq | hother
  · exact .inl heq
  · exact .inr (h.filters hon other hother)

theorem mem_dataFiles_openDataFile (hopen : so.openDataFile path = .ok so') :
    (other ∈ so'.dataFiles ↔ other = path ∨ other ∈ so.dataFiles) ∧
      (other ∈ so'.disk ↔ other = path ∨ other ∈ so.disk) := by
  obtain ⟨filters, rfl, -⟩ := openDataFile_cases hopen
  exact ⟨mem_insert _, mem_insert _⟩

/-! ### Opening the directory -/

theorem Agrees.loadDataFiles (h : Agrees sha so l) (hnewer : l.newer = []) {paths : List String}
    (hload : so.loadDataFiles paths = .ok so') :
    Agrees sha so' l ∧ (∀ path ∈ paths, path ∈ so'.dataFiles) ∧
      (∀ path, path ∈ so.dataFiles → path ∈ so'.dataFiles) ∧
      ∀ path, path ∈ so.disk → path ∈ so'.disk := by
  induction paths generalizing so with
  | nil =>
    cases hload
    exact ⟨h, nofun, fun _ => id, fun _ => id⟩
  | cons path paths ih =>
    rw [loadDataFiles] at hload
    cases hopen : so.openDataFile path with
    | error fault => rw [hopen] at hload; cases hload
    | ok so₁ =>
      rw [hopen] at hload
      have hagrees : Agrees sha so₁ l := h.openDataFile (by rw [hnewer]; nofun) hopen
      obtain ⟨hagrees', hloaded, hfiles, hdisk⟩ := ih hagrees hload
      refine ⟨hagrees', ?_, ?_, ?_⟩ <;> intro other hother
      · rcases mem_cons.mp hother with rfl | hother
        · exact hfiles other ((mem_dataFiles_openDataFile hopen).1.mpr (.inl rfl))
        · exact hloaded other hother
      · exact hfiles other ((mem_dataFiles_openDataFile hopen).1.mpr (.inr hother))
      · exact hdisk other ((mem_dataFiles_openDataFile hopen).2.mpr (.inr hother))

theorem agrees_new {config : StorageConfig} {records : List (Key × Value)}
    (hfiles : ∀ path, (disk.lookup path).getD [] =
      fileOf (calculateChecksum sha config) (recordsAt path records)) :
    Agrees sha (newStorageOptimizer config disk) ⟨⟨records, []⟩, []⟩ where
  files path := by
    rw [Writes.all, append_nil]
    exact hfiles path
  indexed path df hlook := by cases hlook
  filtered _ _ _ path bf hlook := by cases hlook
  filters _ path hmem := absurd hmem (notMem_empty path)
  known := ⟨rfl, fun key entry hlook => (by cases hlook), fun _ key hmem => (by cases hmem)⟩
  uncached h := by
    rw [newStorageOptimizer] at h ⊢
    dsimp only at h ⊢
    split at h
    · cases h
    · next hoff => exact ⟨Bool.eq_false_iff.mpr hoff, rfl⟩
  cached rc h := by
    rw [newStorageOptimizer] at h ⊢
    dsimp only at h ⊢
    split at h
    · next hon =>
      cases h
      exact ⟨hon, rfl, rfl, fun key => rfl⟩
    · cases h

/-- **Closing and opening** the directory keeps the files, and forgets the rest. -/
theorem Consistent.reopen (h : Consistent sha so l) (hopen : so.reopen = .ok so') :
    Consistent sha so' l.reopen := by
  have hnew : Agrees sha (newStorageOptimizer so.config so.disk) l.reopen := agrees_new h.files
  obtain ⟨hagrees, hloaded, -, hdisk⟩ := hnew.loadDataFiles rfl hopen
  have hall : l.reopen.all = l.all := append_nil _
  refine ⟨hagrees, fun key hmem => hloaded _ ?_, fun key hmem => hdisk _ ?_⟩ <;>
    exact h.stored key (hall ▸ hmem)

/-! ### Writing -/

theorem bind_eq_ok {α β : Type} {x : Except Fault α} {f : α → Except Fault β} {b : β} :
    x >>= f = .ok b ↔ ∃ a, x = .ok a ∧ f a = .ok b := by
  cases x with
  | error fault => exact ⟨nofun, nofun⟩
  | ok a => exact ⟨fun h => ⟨a, rfl, h⟩, fun ⟨_, ha, h⟩ => Except.ok.inj ha ▸ h⟩

theorem putWriteCache_cases (h : so.putWriteCache env key value = .ok so') :
    ∃ writeCache, so' = { so with writeCache := writeCache } := by
  unfold putWriteCache at h
  split at h
  · exact ⟨so.writeCache, (Except.ok.inj h).symm⟩
  next wc _ =>
    cases hput : wc.put env.evictOrders env.rounds env.now key value with
    | error fault => rw [hput] at h; cases h
    | ok wc' => rw [hput] at h; exact ⟨some wc', (Except.ok.inj h).symm⟩

theorem addToFilter_cases (h : so.addToFilter path key = .ok so') : ∃ filters,
    so' = { so with bloomFilters := filters } ∧
    (so.config.enableBloomFilters = true → ∀ bf, so.bloomFilters.lookup path = some bf →
      ∃ bf', bf.add key = .ok bf' ∧ filters = so.bloomFilters.insert path bf') := by
  unfold addToFilter at h
  split at h
  · split at h
    · next hnone =>
      refine ⟨so.bloomFilters, (Except.ok.inj h).symm, fun _ bf hlook => ?_⟩
      rw [hnone] at hlook
      cases hlook
    next bf hlook =>
      cases hadd : bf.add key with
      | error fault => rw [hadd] at h; cases h
      | ok bf' =>
        rw [hadd] at h
        refine ⟨_, (Except.ok.inj h).symm, fun _ bf₁ hlook₁ => ?_⟩
        obtain rfl := Option.some.inj (hlook.symm.trans hlook₁)
        exact ⟨bf', hadd, rfl⟩
  · next hoff => exact ⟨so.bloomFilters, (Except.ok.inj h).symm, fun hon => absurd hon hoff⟩

/-- The state in which a write appends its record, and the state that it leaves. -/
theorem optimizedWrite_cases (h : so.optimizedWrite sha env key value = .ok so') :
    ∃ writeCache so₁ df filters,
      { so with writeCache := writeCache }.getOrCreateDataFile (getDataFilePath key) = .ok so₁ ∧
      so₁.dataFiles.lookup (getDataFilePath key) = some df ∧ (so₁.config.enableBloomFilters = true →
        ∀ bf, so₁.bloomFilters.lookup (getDataFilePath key) = some bf →
        ∃ bf', bf.add key = .ok bf' ∧ filters = so₁.bloomFilters.insert (getDataFilePath key) bf') ∧
      let entry : IndexEntry := ⟨df.size, value.length, calculateChecksum sha so₁.config value⟩
      let written := df.write (so₁.fileAt (getDataFilePath key)) key value entry
      so' = { so₁ with
        dataFiles := so₁.dataFiles.insert (getDataFilePath key) written.1
        disk := so₁.disk.insert (getDataFilePath key) written.2
        bloomFilters := filters
        indexCache := so₁.indexCache.put env.indexOrder key entry } := by
  obtain ⟨so₀, hput, h⟩ := bind_eq_ok.mp h
  obtain ⟨writeCache, rfl⟩ := putWriteCache_cases hput
  obtain ⟨so₁, hopen, h⟩ := bind_eq_ok.mp h
  cases hlook : so₁.dataFiles.lookup (getDataFilePath key) with
  | none => rw [hlook] at h; cases h
  | some df =>
    rw [hlook] at h
    obtain ⟨so₂, hadd, h⟩ := bind_eq_ok.mp h
    obtain ⟨filters, rfl, hfilters⟩ := addToFilter_cases hadd
    exact ⟨writeCache, so₁, df, filters, hopen, hlook, hfilters, (Except.ok.inj h).symm⟩

/-- A file that is not open has no records, so it may be opened at any time. -/
theorem Consistent.getOrCreateDataFile (h : Consistent sha so l)
    (hopen : so.getOrCreateDataFile path = .ok so') : Consistent sha so' l := by
  unfold StorageOptimizer.getOrCreateDataFile at hopen
  split at hopen
  · cases hopen
    exact h
  · next hclosed =>
    have hnone : ∀ key ∈ keysOf l.newer, getDataFilePath key ≠ path := by
      rintro key hmem rfl
      exact hclosed (h.opened key (mem_keysOf_all hmem))
    exact ⟨h.openDataFile hnone hopen,
      fun key hmem => (mem_dataFiles_openDataFile hopen).1.mpr (.inr (h.opened key hmem)),
      fun key hmem => (mem_dataFiles_openDataFile hopen).2.mpr (.inr (h.stored key hmem))⟩

theorem forall_mem_insert_write {V : Type} {m : GoMap String V} {v : V}
    (h : ∀ key ∈ keysOf l.all, getDataFilePath key ∈ m) : ∀ key' ∈ keysOf (l.write key value).all,
      getDataFilePath key' ∈ m.insert (getDataFilePath key) v := by
  intro key' hmem
  refine (mem_insert _).mpr ?_
  rcases mem_keysOf_all_add.mp hmem with hmem | rfl
  · exact .inr (h key' hmem)
  · exact .inl rfl

/-- **A write** is one more record in the ledger. -/
theorem Consistent.write (h : Consistent sha so l)
    (hwrite : so.optimizedWrite sha env key value = .ok so') :
    Consistent sha so' (l.write key value) := by
  obtain ⟨writeCache, so₁, df, filters, hopen, hlook, hfilters, rfl⟩ := optimizedWrite_cases hwrite
  have h₀ : Consistent sha { so with writeCache := writeCache } l :=
    ⟨⟨h.files, h.indexed, h.filtered, h.filters, h.known, h.uncached, h.cached⟩, h.opened, h.stored⟩
  have h₁ : Consistent sha so₁ l := h₀.getOrCreateDataFile hopen
  have hdf := h₁.indexed _ df hlook
  refine ⟨⟨?_, ?_, ?_, ?_, ?_, h₁.uncached, h₁.cached⟩, ?_, ?_⟩
  · -- the record is at the end of its file
    intro other
    rw [fileAt_insert rfl, Ledger.toWrites_write, all_add, recordsAt_append, recordsAt_singleton]
    by_cases heq : other = getDataFilePath key
    · rw [if_pos heq, if_pos heq.symm, fileOf_append, heq, ← h₁.files]
      exact congrArg _ (append_nil _).symm
    · rw [if_neg heq, if_neg (Ne.symm heq), append_nil]
      exact h₁.files other
  · intro other df' hlook'
    rcases lookup_insert_eq_some.mp hlook' with ⟨rfl, rfl⟩ | ⟨heq, hlook'⟩
    · exact hdf.write _
    · exact (h₁.indexed other df' hlook').write_ne (Ne.symm heq)
  · intro hon hsize hhashes other bf hbf
    obtain ⟨bf₁, hbf₁⟩ := exists_lookup (h₁.filters hon _ (mem_of_lookup hlook))
    obtain ⟨bf', hadd, rfl⟩ := hfilters hon bf₁ hbf₁
    rcases lookup_insert_eq_some.mp hbf with ⟨rfl, rfl⟩ | ⟨heq, hbf⟩
    · exact (h₁.filtered hon hsize hhashes _ bf₁ hbf₁).add hadd
    · exact (h₁.filtered hon hsize hhashes other bf hbf).write_ne (Ne.symm heq)
  · intro hon other hother
    obtain ⟨bf₁, hbf₁⟩ := exists_lookup (h₁.filters hon _ (mem_of_lookup hlook))
    obtain ⟨bf', -, rfl⟩ := hfilters hon bf₁ hbf₁
    refine (mem_insert _).mpr ?_
    rcases (mem_insert _).mp hother with heq | hother
    · exact .inl heq
    · exact .inr (h₁.filters hon other hother)
  · rw [hdf.size_eq]
    exact h₁.known.put env.indexOrder
  · exact forall_mem_insert_write h₁.opened
  · exact forall_mem_insert_write h₁.stored

end Consistency

end DistributedKV.Performance
