import DistributedKV.Performance.Ledger

/-!
# Reading the last write

A run is a sequence of writes, reads, and closing and opening the directory. `last_write_iff`: as
long as the reader of data files is not interrupted by the end of its buffer and the read cache
need not evict (`Within`), every read returns the last write exactly if every read is `Fresh`:

- a value in the read cache is still the last one (a write does not change the cache);
- a value that was written since the directory was opened is a prefix of its own record, because
  the index points to the start of the record;
- for a key that was written only before, the first write has the value of the last one, because
  the scan stops there, and the filters, empty when the directory is opened, happen to contain it.
-/

namespace DistributedKV.Performance

open AList List Option

open StorageOptimizer (calculateChecksum)

/-! ## Runs -/

/-- An optimizer, and what has been written and read. -/
structure Session where
  so : StorageOptimizer
  ledger : Ledger

inductive Call where
  | write (env : WriteEnv) (key : Key) (value : Value)
  | read (env : ReadEnv) (key : Key)
  | reopen

namespace Session

variable (sha : Value → UInt32)

/-- An optimizer on an empty directory. -/
def start (config : StorageConfig) : Session := ⟨newStorageOptimizer config ∅, ⟨⟨[], []⟩, []⟩⟩

/-- A call; one that does not return leads nowhere. -/
def step (s : Session) : Call → Option Session
  | .write env key value =>
    (s.so.optimizedWrite sha env key value).toOption.map fun so => ⟨so, s.ledger.write key value⟩
  | .read env key =>
    (s.so.optimizedRead sha env key).toOption.map fun result =>
      ⟨result.1, s.ledger.read s.so.config.enableReadCache key⟩
  | .reopen => s.so.reopen.toOption.map fun so => ⟨so, s.ledger.reopen⟩

/-- A read returns the value of the last write of the key, and an error if there is none. -/
def Correct (s : Session) : Call → Prop
  | .read env key => ∃ so answer, s.so.optimizedRead sha env key = .ok (so, answer) ∧
    match s.ledger.last key with
    | some value => answer = .ok value
    | none => ∃ err, answer = .error err
  | _ => True

/-- No filter contains the key. -/
def Denied (s : Session) (key : Key) : Prop :=
  s.so.config.enableBloomFilters = true ∧
    ∀ path bf, s.so.bloomFilters.lookup path = some bf → bf.contains key = .ok false

/-- No key and no value of a data file extends beyond the buffer of a reader. -/
def AllAligned (s : Session) : Prop :=
  ∀ path, Aligned ⟨0, (fileOf (calculateChecksum sha s.so.config)
    (recordsAt path s.ledger.all)).length⟩ (recordsAt path s.ledger.all)

/-- Filters work, the read cache need not evict, and a scan reads whole keys and values. -/
def Within (s : Session) : Call → Prop
  | .read _ key =>
    (s.so.config.enableBloomFilters = true →
      0 < s.so.config.bloomFilterSize.toInt ∧ 0 ≤ s.so.config.bloomFilterHashes.toInt) ∧
    (s.so.config.enableReadCache = true → firstOf s.ledger.fetched key = none →
      ∀ value, s.ledger.last key = some value →
        totalSize s.ledger.fetched + value.length ≤ megabytes s.so.config.readCacheSize) ∧
    (key ∈ keysOf s.ledger.newer ∧ (keysOf s.ledger.newer).dedup.length < 10000 ∨
      s.Denied key ∨ s.AllAligned sha)
  | _ => True

/-- The files and the filters are up to date for a key. -/
def UpToDate (s : Session) (key : Key) : Prop :=
  (∀ value ∈ lastOf s.ledger.newer key,
    value <+: record (calculateChecksum sha s.so.config value) key value) ∧
  (key ∉ keysOf s.ledger.newer → key ∈ keysOf s.ledger.older →
    firstOf s.ledger.older key = lastOf s.ledger.older key ∧ ¬s.Denied key)

/-- What a read depends on is up to date. -/
def Fresh (s : Session) : Call → Prop
  | .read _ key =>
    match firstOf s.ledger.fetched key with
    | some value => s.ledger.last key = some value
    | none => s.UpToDate sha key
  | _ => True

end Session

/-! ## The read cache -/

section ReadCache

variable {config : StorageConfig} {fetched : List (Key × Value)} {rc : ReadCache} {key : Key}
  {value : Value}

theorem Holds.get (h : Holds config fetched rc) (key : Key) :
    (rc.get key).2 = firstOf fetched key ∧ Holds config fetched (rc.get key).1 := by
  rw [← h.lookup_eq, ReadCache.get]
  cases rc.entries.lookup key with
  | none => exact ⟨rfl, h⟩
  | some entry => exact ⟨rfl, h.maxSize_eq, h.currentSize_eq, h.lookup_eq⟩

theorem Holds.put (h : Holds config fetched rc) (hnew : firstOf fetched key = none)
    (hroom : totalSize fetched + value.length ≤ megabytes config.readCacheSize) :
    ∃ rc', rc.put key value = .ok rc' ∧ Holds config (fetched ++ [(key, value)]) rc' := by
  have hfits : ¬(rc.currentSize + (value.length : Int) > rc.maxSize ∧ rc.lruList.size > 0) := by
    rw [h.currentSize_eq, h.maxSize_eq]
    exact fun hfull => absurd hfull.1 (Int.not_lt.mpr hroom)
  have hlook : rc.entries.lookup key = none := by
    rw [← h.lookup_eq] at hnew
    exact map_eq_none_iff.mp hnew
  apply Exists.intro
  constructor
  · rw [ReadCache.put, ReadCache.makeRoom_of_fits hfits]
    show Except.ok _ = _
    simp only [hlook]
    rfl
  refine ⟨h.maxSize_eq, ?_, ?_⟩
  · rw [h.currentSize_eq, totalSize, totalSize, map_append, sum_append]
    simp
  intro key'
  rw [firstOf_append, firstOf_singleton, ← h.lookup_eq]
  by_cases hkey : key' = key
  · subst hkey
    rw [lookup_insert, hlook, if_pos rfl]
    rfl
  · rw [lookup_insert_ne hkey, if_neg (Ne.symm hkey), or_none]

end ReadCache

/-! ## The filters -/

open StorageOptimizer

/-- The loop over filters finds one that contains the key, if there is one. -/
theorem mayContain_cases (key : Key) {entries : List ((_ : String) × BloomFilter)}
    (hvalid : ∀ e ∈ entries, e.2.Valid) :
    (mayContain key entries = .ok true ∧ ∃ e ∈ entries, e.2.contains key = .ok true) ∨
    (mayContain key entries = .ok false ∧ ∀ e ∈ entries, e.2.contains key = .ok false) := by
  induction entries with
  | nil => exact .inr ⟨rfl, nofun⟩
  | cons e entries ih =>
    have hcontains := (hvalid e mem_cons_self).contains_eq key
    rw [mayContain, hcontains]
    cases hfound : (e.2.positions key).all e.2.bitArray.get with
    | true => exact .inl ⟨rfl, e, mem_cons_self, by rw [hcontains, hfound]⟩
    | false =>
      rw [hfound] at hcontains
      rcases ih fun e' he' => hvalid e' (mem_cons_of_mem _ he') with ⟨hmay, e', he', h⟩ | ⟨hmay, h⟩
      · exact .inl ⟨hmay, e', mem_cons_of_mem _ he', h⟩
      exact .inr ⟨hmay, forall_mem_cons.mpr ⟨hcontains, h⟩⟩

/-! ## The files -/

/-- What the files give for a key: the start of the record of its last write since the directory
was opened, or else the first value. -/
def delivered (checksum : Value → UInt32) (l : Writes) (key : Key) : Option Value :=
  match lastOf l.newer key with
  | some value => some ((record (checksum value) key value).take value.length)
  | none => firstOf l.all key

section Files

variable {sha : Value → UInt32} {so : StorageOptimizer} {l : Ledger} {key : Key} {value : Value}

theorem Agrees.scan (h : Agrees sha so l) {path : String} {df : DataFile}
    (hlook : so.dataFiles.lookup path = some df)
    (haligned : Aligned ⟨0, (fileOf (calculateChecksum sha so.config)
      (recordsAt path l.all)).length⟩ (recordsAt path l.all)) :
    (df.scan (so.fileAt path) key).toOption =
      if getDataFilePath key = path then delivered (calculateChecksum sha so.config) l.toWrites key
      else none := by
  have hdf := h.indexed path df hlook
  rw [DataFile.scan, h.files]
  cases hentry : df.index.lookup key with
  | some entry =>
    -- the file has been written: its index has the key
    obtain ⟨rfl, hlocated⟩ := hdf.located key entry hentry
    obtain ⟨value, hlast, -, hread⟩ := hlocated.readAt
    dsimp only
    rw [if_pos rfl, hread, delivered, hlast]
    rfl
  | none =>
    rw [scanFrom_aligned (BufReader.pending_ofFile _) haligned
      (Nat.lt_succ_of_le length_le_fileOf), firstOf_recordsAt]
    by_cases hpath : getDataFilePath key = path
    · have hnewer : key ∉ keysOf l.newer := by
        intro hmem
        obtain ⟨entry, hsome⟩ := GoMap.exists_lookup (hdf.complete key hmem hpath)
        rw [hentry] at hsome
        cases hsome
      rw [if_pos hpath, if_pos hpath, delivered, lastOf_eq_none.mpr hnewer]
      cases firstOf l.all key <;> rfl
    · rw [if_neg hpath, if_neg hpath]
      rfl

theorem findSome?_eq {α β : Type} {f : α → Option β} {l : List α} {d : Option β}
    (hall : ∀ a ∈ l, f a = none ∨ f a = d) (hsome : d ≠ none → ∃ a ∈ l, f a = d) :
    l.findSome? f = d := by
  cases hfound : l.findSome? f with
  | none =>
    rw [findSome?_eq_none_iff] at hfound
    by_contra hne
    obtain ⟨a, ha, hd⟩ := hsome (Ne.symm hne)
    exact hne ((hfound a ha).symm.trans hd)
  | some b =>
    obtain ⟨a, ha, hb⟩ := exists_of_findSome?_eq_some hfound
    rcases hall a ha with hnone | hd
    · rw [hnone] at hb
      cases hb
    · rw [← hd, hb]

theorem delivered_of_not_mem (checksum : Value → UInt32) (h : key ∉ keysOf l.all) :
    delivered checksum l.toWrites key = none := by
  have hnewer : key ∉ keysOf l.newer := fun hmem => h (mem_keysOf_all hmem)
  rw [delivered, lastOf_eq_none.mpr hnewer]
  exact firstOf_eq_none.mpr h

theorem Consistent.scanDataFiles (h : Consistent sha so l) (env : ReadEnv)
    (haligned : ∀ path, Aligned ⟨0, (fileOf (calculateChecksum sha so.config)
      (recordsAt path l.all)).length⟩ (recordsAt path l.all)) : so.scanDataFiles env key =
      match delivered (calculateChecksum sha so.config) l.toWrites key with
      | some value => so.cacheRead key value
      | none => .ok (so, .error (.keyNotFound key)) := by
  have hscan : ∀ e ∈ so.dataFiles.entries, (e.2.scan (so.fileAt e.1) key).toOption =
      if getDataFilePath key = e.1 then delivered (calculateChecksum sha so.config) l.toWrites key
      else none := by
    rintro ⟨path, df⟩ he
    exact h.scan (mem_lookup_iff.mpr he) (haligned path)
  have hfound : ((env.fileOrder.pick so.dataFiles.entries).findSome? fun entry =>
      (entry.2.scan (so.fileAt entry.1) key).toOption) =
        delivered (calculateChecksum sha so.config) l.toWrites key := by
    refine findSome?_eq (fun e he => ?_) fun hne => ?_
    · rw [hscan e ((env.fileOrder.mem_pick _).mp he)]
      split
      · exact .inr rfl
      · exact .inl rfl
    -- the key has been written, so its file is open
    have hmem : key ∈ keysOf l.all := by
      by_contra hmem
      exact hne (delivered_of_not_mem _ hmem)
    obtain ⟨df, hdf⟩ := GoMap.exists_lookup (h.opened key hmem)
    have he := mem_lookup_iff.mp hdf
    refine ⟨_, (env.fileOrder.mem_pick _).mpr he, ?_⟩
    rw [hscan _ he, if_pos rfl]
  unfold StorageOptimizer.scanDataFiles
  cases hdelivered : delivered (calculateChecksum sha so.config) l.toWrites key with
  | none => simp only [hfound, hdelivered]
  | some value => simp only [hfound, hdelivered]

theorem all_eq_none (h : key ∉ keysOf l.newer) : l.last key = lastOf l.older key := by
  rw [Writes.last, Writes.all, lastOf_append, lastOf_eq_none.mpr h, none_or]

theorem last_of_newer (h : lastOf l.newer key = some value) : l.last key = some value := by
  rw [Writes.last, Writes.all, lastOf_append, h, some_or]

/-- What the files give is returned, or refused because its checksum is not that of the last
write. -/
theorem Consistent.readFiles (h : Consistent sha so l) (env : ReadEnv) (key : Key)
    (hscan : key ∈ keysOf l.newer ∧ (keysOf l.newer).dedup.length < 10000 ∨
      ∀ path, Aligned ⟨0, (fileOf (calculateChecksum sha so.config)
        (recordsAt path l.all)).length⟩ (recordsAt path l.all)) :
    match delivered (calculateChecksum sha so.config) l.toWrites key with
    | some value => so.readFiles sha env key = so.cacheRead key value ∨
      (l.last key ≠ some value ∧ ∃ err, so.readFiles sha env key = .ok (so, .error err))
    | none => ∃ err, so.readFiles sha env key = .ok (so, .error err) := by
  rw [StorageOptimizer.readFiles]
  cases hentry : so.indexCache.get key with
  | none =>
    have haligned : ∀ path, Aligned ⟨0, (fileOf (calculateChecksum sha so.config)
        (recordsAt path l.all)).length⟩ (recordsAt path l.all) := by
      refine hscan.resolve_left fun ⟨hmem, hfew⟩ => ?_
      obtain ⟨entry, hsome⟩ := GoMap.exists_lookup (h.known.complete hfew key hmem)
      rw [IndexCache.get, hsome] at hentry
      cases hentry
    rw [h.scanDataFiles env haligned]
    cases delivered (calculateChecksum sha so.config) l.toWrites key with
    | none => exact ⟨_, rfl⟩
    | some value => exact .inl rfl
  | some entry =>
    dsimp only
    have hlocated := h.known.located key entry hentry
    have hopen : getDataFilePath key ∈ so.dataFiles := h.opened key (mem_keysOf_all hlocated.mem)
    obtain ⟨value, hlast, hchecksum, hread⟩ := hlocated.readAt
    rw [if_pos hopen, h.files, hread, delivered, hlast]
    dsimp only
    split_ifs with hmismatch
    · refine .inr ⟨?_, _, rfl⟩
      rw [last_of_newer hlast]
      intro heq
      rw [← some.inj heq, hchecksum] at hmismatch
      exact hmismatch.2 rfl
    · exact .inl rfl

end Files

/-! ## One read -/

section Reads

variable {sha : Value → UInt32} {so so' : StorageOptimizer} {l : Ledger} {key : Key} {value : Value}

theorem cacheRead_answer {answer : Except ReadError Value}
    (h : so.cacheRead key value = .ok (so', answer)) : answer = .ok value := by
  unfold cacheRead at h
  split at h
  · exact (Prod.mk.inj (Except.ok.inj h)).2.symm
  next rc _ =>
    cases hput : rc.put key value with
    | error fault => rw [hput] at h; cases h
    | ok rc' => rw [hput] at h; exact (Prod.mk.inj (Except.ok.inj h)).2.symm

theorem Consistent.cacheRead (h : Consistent sha so l) (hlast : l.last key = some value)
    (hnew : firstOf l.fetched key = none) (hroom : so.config.enableReadCache = true →
      totalSize l.fetched + value.length ≤ megabytes so.config.readCacheSize) :
    ∃ so', so.cacheRead key value = .ok (so', .ok value) ∧
      Consistent sha so' (l.read so.config.enableReadCache key) := by
  rw [StorageOptimizer.cacheRead, Ledger.read, hlast]
  dsimp only
  cases hrc : so.readCache with
  | none =>
    obtain ⟨hoff, -⟩ := h.uncached hrc
    rw [if_neg fun hon => absurd hon.1 (by rw [hoff]; nofun)]
    exact ⟨so, rfl, h⟩
  | some rc =>
    obtain ⟨hon, hholds⟩ := h.cached rc hrc
    obtain ⟨rc', hput, hholds'⟩ := hholds.put hnew (hroom hon)
    rw [if_pos ⟨hon, hnew⟩]
    dsimp only
    rw [hput]
    refine ⟨_, rfl, ⟨h.files, h.indexed, h.filtered, h.filters, h.known, nofun, ?_⟩, h.opened,
      h.stored⟩
    intro rc₁ hrc₁
    cases hrc₁
    exact ⟨hon, hholds'⟩

theorem Consistent.getReadCache (h : Consistent sha so l) (key : Key) :
    (so.getReadCache key).2 = firstOf l.fetched key ∧ Consistent sha (so.getReadCache key).1 l ∧
      (firstOf l.fetched key = none → (so.getReadCache key).1 = so) := by
  rw [StorageOptimizer.getReadCache]
  cases hrc : so.readCache with
  | none =>
    obtain ⟨-, hempty⟩ := h.uncached hrc
    rw [hempty]
    exact ⟨rfl, h, fun _ => rfl⟩
  | some rc =>
    obtain ⟨hon, hholds⟩ := h.cached rc hrc
    obtain ⟨hvalue, hholds'⟩ := hholds.get key
    refine ⟨hvalue, ⟨⟨h.files, h.indexed, h.filtered, h.filters, h.known, nofun, ?_⟩, h.opened,
      h.stored⟩, fun hnone => ?_⟩
    · intro rc₁ hrc₁
      cases hrc₁
      exact ⟨hon, hholds'⟩
    have hmiss : rc.entries.lookup key = none := by
      rw [← hholds.lookup_eq] at hnone
      exact map_eq_none_iff.mp hnone
    have hsame : (rc.get key).1 = rc := by rw [ReadCache.get, hmiss]
    dsimp only
    rw [hsame, ← hrc]

/-- What the files give is the last value exactly if they are up to date. -/
theorem delivered_eq_last_iff (checksum : Value → UInt32) :
    delivered checksum l.toWrites key = l.last key ↔
      (∀ value ∈ lastOf l.newer key, value <+: record (checksum value) key value) ∧
      (key ∉ keysOf l.newer → key ∈ keysOf l.older → firstOf l.older key = lastOf l.older key) := by
  by_cases hmem : key ∈ keysOf l.newer
  · obtain ⟨value, hvalue⟩ : ∃ value, lastOf l.newer key = some value := by
      rw [← ne_none_iff_exists']
      exact fun hnone => lastOf_eq_none.mp hnone hmem
    rw [delivered, hvalue, last_of_newer hvalue]
    rw [some_inj, eq_comm, ← prefix_iff_eq_take]
    constructor
    · intro hprefix
      refine ⟨fun value' hvalue' => ?_, fun hnot => absurd hmem hnot⟩
      cases hvalue'
      exact hprefix
    · exact fun h => h.1 value rfl
  have hnone : lastOf l.newer key = none := lastOf_eq_none.mpr hmem
  rw [delivered, hnone, all_eq_none hmem, Writes.all, firstOf_append, firstOf_eq_none.mpr hmem,
    or_none]
  constructor
  · intro h
    refine ⟨fun value hvalue => ?_, fun _ _ => h⟩
    exact absurd hvalue (not_mem_none value)
  rintro ⟨-, h⟩
  by_cases holder : key ∈ keysOf l.older
  · exact h hmem holder
  · rw [firstOf_eq_none.mpr holder, lastOf_eq_none.mpr holder]

end Reads

/-! ## Runs -/

namespace Session

variable {sha : Value → UInt32} {s : Session} {env : ReadEnv} {key : Key}

/-- A read that misses the read cache is denied by the filters, or goes to the files. -/
theorem optimizedRead_miss (h : Consistent sha s.so s.ledger)
    (hwithin : s.Within sha (.read env key)) (hmiss : firstOf s.ledger.fetched key = none) :
    (s.Denied key ∧ s.so.optimizedRead sha env key = .ok (s.so, .error (.keyNotFound key))) ∨
    (¬s.Denied key ∧ s.so.optimizedRead sha env key = s.so.readFiles sha env key) := by
  obtain ⟨hvalue, -, hsame⟩ := h.getReadCache key
  have hget : s.so.getReadCache key = (s.so, none) := Prod.ext (hsame hmiss) (hvalue.trans hmiss)
  rw [optimizedRead, hget]
  dsimp only
  split_ifs with hon
  · obtain ⟨hsize, hhashes⟩ := hwithin.1 hon
    have hvalid : ∀ e ∈ env.filterOrder.pick s.so.bloomFilters.entries, e.2.Valid := by
      rintro ⟨path, bf⟩ he
      have hlook := mem_lookup_iff.mpr ((env.filterOrder.mem_pick _).mp he)
      exact (h.filtered hon hsize hhashes path bf hlook).valid
    rcases mayContain_cases key hvalid with ⟨hmay, ⟨path, bf⟩, he, hcontains⟩ | ⟨hmay, hdeny⟩
    · refine .inr ⟨fun hdenied => ?_, by rw [hmay]; rfl⟩
      have hlook := mem_lookup_iff.mpr ((env.filterOrder.mem_pick _).mp he)
      rw [hdenied.2 path bf hlook] at hcontains
      cases hcontains
    · refine .inl ⟨⟨hon, fun path bf hlook => ?_⟩, by rw [hmay]; rfl⟩
      exact hdeny ⟨path, bf⟩ ((env.filterOrder.mem_pick _).mpr (mem_lookup_iff.mp hlook))
  · exact .inr ⟨fun hdenied => hon hdenied.1, rfl⟩

/-- A call is correct exactly if it is fresh, and then it leaves a consistent state. -/
def Settled (sha : Value → UInt32) (s : Session) (call : Call) : Prop :=
  (s.Correct sha call ↔ s.Fresh sha call) ∧
    (s.Correct sha call → ∀ t ∈ s.step sha call, Consistent sha t.so t.ledger)

variable {so : StorageOptimizer} {answer : Except ReadError Value} {call : Call}

theorem correct_iff (hread : s.so.optimizedRead sha env key = .ok (so, answer)) :
    s.Correct sha (.read env key) ↔
      match s.ledger.last key with
      | some value => answer = .ok value
      | none => ∃ err, answer = .error err := by
  constructor
  · rintro ⟨so₁, answer₁, hread₁, hanswer⟩
    obtain ⟨rfl, rfl⟩ := Prod.mk.inj (Except.ok.inj (hread.symm.trans hread₁))
    exact hanswer
  · exact fun hanswer => ⟨so, answer, hread, hanswer⟩

/-- The answer of a read settles it, if the state that it leaves is consistent. -/
theorem settled_of_answer (hread : s.so.optimizedRead sha env key = .ok (so, answer))
    (hiff : (match s.ledger.last key with
      | some value => answer = .ok value
      | none => ∃ err, answer = .error err) ↔ s.Fresh sha (.read env key))
    (hconsistent : s.Fresh sha (.read env key) →
      Consistent sha so (s.ledger.read s.so.config.enableReadCache key)) :
    s.Settled sha (.read env key) := by
  have hcorrect : s.Correct sha (.read env key) ↔ s.Fresh sha (.read env key) :=
    (correct_iff hread).trans hiff
  refine ⟨hcorrect, fun hc t ht => ?_⟩
  rw [step, hread] at ht
  cases ht
  exact hconsistent (hcorrect.mp hc)

theorem settled_hit (h : Consistent sha s.so s.ledger) {value : Value}
    (hhit : firstOf s.ledger.fetched key = some value) : s.Settled sha (.read env key) := by
  obtain ⟨hvalue, hconsistent, -⟩ := h.getReadCache key
  have hread : s.so.optimizedRead sha env key = .ok ((s.so.getReadCache key).1, .ok value) := by
    rw [optimizedRead]
    split
    · next so' value' hget =>
      rw [hget, hhit] at hvalue
      rw [hget, some.inj hvalue]
    next so' hget =>
      rw [hget, hhit] at hvalue
      cases hvalue
  have hfresh : s.Fresh sha (.read env key) ↔ s.ledger.last key = some value := by
    rw [Fresh, hhit]
  refine settled_of_answer hread ?_ fun _ => ?_
  · rw [hfresh]
    cases s.ledger.last key with
    | none => simp
    | some value' => simp [eq_comm]
  have hsame : s.ledger.read s.so.config.enableReadCache key = s.ledger := by
    rw [Ledger.read]
    split
    · rw [if_neg fun hmiss => absurd hmiss.2 (by rw [hhit]; nofun)]
    · rfl
  rwa [hsame]

theorem settled_error (h : Consistent sha s.so s.ledger) {err : ReadError}
    (hread : s.so.optimizedRead sha env key = .ok (s.so, .error err))
    (hfresh : s.Fresh sha (.read env key) ↔ s.ledger.last key = none) :
    s.Settled sha (.read env key) := by
  refine settled_of_answer hread ?_ fun hf => ?_
  · rw [hfresh]
    cases s.ledger.last key <;> simp
  · rwa [Ledger.read, hfresh.mp hf]

theorem last_eq_none : s.ledger.last key = none ↔ key ∉ keysOf s.ledger.all := lastOf_eq_none

section

variable (h : Consistent sha s.so s.ledger)
include h

theorem settled_denied (hwithin : s.Within sha (.read env key))
    (hmiss : firstOf s.ledger.fetched key = none) (hdenied : s.Denied key)
    (hread : s.so.optimizedRead sha env key = .ok (s.so, .error (.keyNotFound key))) :
    s.Settled sha (.read env key) := by
  obtain ⟨hsize, hhashes⟩ := hwithin.1 hdenied.1
  have hnewer : key ∉ keysOf s.ledger.newer := by
    intro hmem
    have hopen : getDataFilePath key ∈ s.so.dataFiles := h.opened key (mem_keysOf_all hmem)
    obtain ⟨bf, hbf⟩ := GoMap.exists_lookup (h.filters hdenied.1 _ hopen)
    have hcontains := (h.filtered hdenied.1 hsize hhashes _ bf hbf).complete key hmem rfl
    rw [hdenied.2 _ bf hbf] at hcontains
    cases hcontains
  refine settled_error h hread ?_
  rw [Fresh, hmiss, all_eq_none hnewer, lastOf_eq_none]
  constructor
  · exact fun hf holder => (hf.2 hnewer holder).2 hdenied
  refine fun holder => ⟨fun value hvalue => ?_, fun _ hmem => absurd hmem holder⟩
  rw [lastOf_eq_none.mpr hnewer] at hvalue
  cases hvalue

theorem settled_files (hwithin : s.Within sha (.read env key))
    (hmiss : firstOf s.ledger.fetched key = none) (hdenied : ¬s.Denied key)
    (hread : s.so.optimizedRead sha env key = s.so.readFiles sha env key) :
    s.Settled sha (.read env key) := by
  obtain ⟨-, hroom, hscan⟩ := hwithin
  have hfresh : s.Fresh sha (.read env key) ↔
      delivered (calculateChecksum sha s.so.config) s.ledger.toWrites key = s.ledger.last key := by
    rw [delivered_eq_last_iff, Fresh, hmiss]
    simp only [UpToDate, hdenied, not_false_eq_true, and_true]
  have hfiles := h.readFiles env key (hscan.imp_right fun hscan => hscan.resolve_left hdenied)
  rw [← hread] at hfiles
  cases hdelivered : delivered (calculateChecksum sha s.so.config) s.ledger.toWrites key with
  | none =>
    rw [hdelivered] at hfiles hfresh
    obtain ⟨err, herr⟩ := hfiles
    exact settled_error h herr (hfresh.trans eq_comm)
  | some value =>
    rw [hdelivered] at hfiles hfresh
    have hwritten : s.ledger.last key ≠ none := by
      intro hnone
      rw [delivered_of_not_mem _ (last_eq_none.mp hnone)] at hdelivered
      cases hdelivered
    rcases hfiles with hcache | ⟨hother, err, herr⟩
    · by_cases hlast : s.ledger.last key = some value
      · obtain ⟨so', hok, hconsistent⟩ :=
          h.cacheRead hlast hmiss fun hon => hroom hon hmiss value hlast
        refine settled_of_answer (hcache.trans hok) ?_ fun _ => hconsistent
        rw [hfresh, hlast]
        simp
      -- a wrong value is returned, or there is no room for it
      have hwrong : ¬s.Correct sha (.read env key) := by
        rintro ⟨so', answer, hok, hanswer⟩
        rw [hcache] at hok
        rw [cacheRead_answer hok] at hanswer
        cases hl : s.ledger.last key with
        | none => exact hwritten hl
        | some value' =>
          rw [hl] at hanswer
          exact hlast (hl.trans (congrArg some (Except.ok.inj hanswer).symm))
      exact ⟨iff_of_false hwrong fun hf => hlast (hfresh.mp hf).symm, fun hc => absurd hc hwrong⟩
    · refine settled_error h herr (hfresh.trans ?_)
      exact iff_of_false (fun heq => hother heq.symm) hwritten

theorem settled_read (hwithin : s.Within sha (.read env key)) : s.Settled sha (.read env key) := by
  cases hfetched : firstOf s.ledger.fetched key with
  | some value => exact settled_hit h hfetched
  | none =>
    rcases optimizedRead_miss h hwithin hfetched with ⟨hdenied, hread⟩ | ⟨hdenied, hread⟩
    · exact settled_denied h hwithin hfetched hdenied hread
    · exact settled_files h hwithin hfetched hdenied hread

theorem settled (hwithin : s.Within sha call) : s.Settled sha call := by
  cases call with
  | read env key => exact settled_read h hwithin
  | write env key value =>
    refine ⟨Iff.rfl, fun _ t ht => ?_⟩
    rw [step] at ht
    cases hwrite : s.so.optimizedWrite sha env key value with
    | error fault => rw [hwrite] at ht; cases ht
    | ok so =>
      rw [hwrite] at ht
      cases ht
      exact h.write hwrite
  | reopen =>
    refine ⟨Iff.rfl, fun _ t ht => ?_⟩
    rw [step] at ht
    cases hopen : s.so.reopen with
    | error fault => rw [hopen] at ht; cases ht
    | ok so =>
      rw [hopen] at ht
      cases ht
      exact h.reopen hopen

end

/-- **Reading the last write.** In a run within the sizes every read returns the value of
the last write exactly if every read is fresh. -/
theorem last_write_iff (config : StorageConfig) (calls : List Call)
    (hwithin : Lts.Along (step sha) (Within sha) (start config) calls) :
    Lts.Along (step sha) (Correct sha) (start config) calls ↔
      Lts.Along (step sha) (Fresh sha) (start config) calls := by
  constructor <;> intro h <;>
    refine Lts.Along.mono_of_inv (fun s => Consistent sha s.so s.ledger) ?_
      ⟨agrees_new fun _ => rfl, nofun, nofun⟩ (hwithin.and h) <;>
    rintro s call hs ⟨hw, hcall⟩ <;> obtain ⟨hiff, hnext⟩ := settled hs hw
  · exact ⟨hiff.mp hcall, hnext hcall⟩
  · exact ⟨hiff.mpr hcall, hnext (hiff.mpr hcall)⟩

/-! ## Small runs -/

/-- All that was written fits into one buffer, and there is room in the read cache. -/
def Small (sha : Value → UInt32) (s : Session) : Call → Prop
  | .read _ key =>
    (s.so.config.enableBloomFilters = true →
      0 < s.so.config.bloomFilterSize.toInt ∧ 0 ≤ s.so.config.bloomFilterHashes.toInt) ∧
    (∀ value ∈ s.ledger.last key,
      totalSize s.ledger.fetched + value.length ≤ megabytes s.so.config.readCacheSize) ∧
    (fileOf (calculateChecksum sha s.so.config) s.ledger.all).length ≤ BufReader.bufferSize
  | _ => True

theorem length_recordsAt_le {checksum : Value → UInt32} {path : String}
    {records : List (Key × Value)} :
    (fileOf checksum (recordsAt path records)).length ≤ (fileOf checksum records).length := by
  induction records with
  | nil => exact Nat.le_refl _
  | cons kv records ih =>
    rw [recordsAt, filter_cons]
    split
    · rw [fileOf_cons, fileOf_cons, length_append, length_append]
      exact Nat.add_le_add_left ih _
    · rw [fileOf_cons, length_append]
      exact Nat.le_trans ih (Nat.le_add_left _ _)

theorem Small.within (h : s.Small sha call) : s.Within sha call := by
  cases call with
  | read env key =>
    obtain ⟨hfilters, hroom, hsize⟩ := h
    refine ⟨hfilters, fun _ _ value hvalue => hroom value hvalue, .inr (.inr fun path => ?_)⟩
    exact aligned_of_le (Nat.le_trans length_recordsAt_le hsize)
  | write env key value => trivial
  | reopen => trivial

/-! ## Examples of runs -/

instance (s : Session) : DecidablePred (s.Small sha) := fun call => by
  cases call <;> dsimp only [Small] <;> infer_instance

instance (s : Session) (key : Key) : Decidable (s.Denied key) :=
  decidable_of_iff' (s.so.config.enableBloomFilters = true ∧
      ∀ e ∈ s.so.bloomFilters.entries, e.2.contains key = .ok false)
    (and_congr_right fun _ => ⟨fun h e he => h e.1 e.2 (mem_lookup_iff.mpr he),
      fun h path bf hlook => h ⟨path, bf⟩ (mem_lookup_iff.mp hlook)⟩)

instance (s : Session) (key : Key) : Decidable (s.UpToDate sha key) :=
  inferInstanceAs (Decidable (_ ∧ _))

instance (s : Session) : DecidablePred (s.Fresh sha)
  | .read _ key =>
    match h : firstOf s.ledger.fetched key with
    | some value => decidable_of_iff (s.ledger.last key = some value) (by rw [Fresh, h])
    | none => decidable_of_iff (s.UpToDate sha key) (by rw [Fresh, h])
  | .write _ _ _ => .isTrue trivial
  | .reopen => .isTrue trivial

instance (s : Session) : DecidablePred (s.Correct sha)
  | .read env key =>
    match hread : s.so.optimizedRead sha env key with
    | .error _ => .isFalse (by rintro ⟨_, _, hok, -⟩; rw [hread] at hok; cases hok)
    | .ok (so, answer) =>
      match hlast : s.ledger.last key, answer with
      | some value, answer =>
        decidable_of_iff' (answer = .ok value) (by rw [correct_iff hread, hlast])
      | none, .error err => .isTrue (by rw [correct_iff hread, hlast]; exact ⟨err, rfl⟩)
      | none, .ok value => .isFalse (by rw [correct_iff hread, hlast]; nofun)
  | .write _ _ _ => .isTrue trivial
  | .reopen => .isTrue trivial

/-- The answers of the reads of a run, up to the first call that does not return. -/
def answers (sha : Value → UInt32) (s : Session) :
    List Call → List (Except Fault (Except ReadError Value))
  | [] => []
  | call :: calls =>
    let later := ((s.step sha call).map fun t => answers sha t calls).getD []
    match call with
    | .read env key => (s.so.optimizedRead sha env key).map Prod.snd :: later
    | _ => later

/-- A checksum of the first byte. -/
def firstByte (value : Value) : UInt32 := (value.headD 0).toUInt32

/-- A configuration with nothing enabled. -/
def plain : StorageConfig := ⟨false, false, false, 0, 0, 0, 0, false⟩

/-- A configuration with everything enabled. -/
def full : StorageConfig := ⟨true, true, true, 0, 0, 64, 3, true⟩

/-- A write of the key `k`. -/
def put (value : Value) : Call := .write ⟨0, 10, fun _ => .asGiven, .asGiven⟩ [0x6B] value

/-- A read of a key. -/
def get (key : Key) : Call := .read ⟨.asGiven, .asGiven⟩ key

/-- Values that are prefixes of their records are read back, again after the directory was
closed. -/
theorem last_write_full :
    answers firstByte (start full) [put [1, 0, 0, 0], get [0x6B], get [0x6C], .reopen, put [1, 0],
        get [0x6B]] =
      [.ok (.ok [1, 0, 0, 0]), .ok (.error (.keyNotFound [0x6C])), .ok (.ok [1, 0])] ∧
    Lts.Along (step firstByte) (Correct firstByte) (start full) [put [1, 0, 0, 0], get [0x6B],
      get [0x6C], .reopen, put [1, 0], get [0x6B]] := by
  refine ⟨by decide +kernel, (last_write_iff full _ ?_).mpr (by decide +kernel)⟩
  have hsmall : Lts.Along (step firstByte) (Small firstByte) (start full) [put [1, 0, 0, 0],
      get [0x6B], get [0x6C], .reopen, put [1, 0], get [0x6B]] := by decide +kernel
  exact hsmall.mono fun _ _ h => h.within

/-- Reads that do not return the last write: the value is read from the start of its record, and
a checksum notices; the read cache keeps what was overwritten; the filters forget what was
written before; and a scan finds the first value. -/
theorem stale_read_counterexample :
    answers firstByte (start plain) [put [7], get [0x6B]] = [.ok (.ok [1])] ∧
    ¬Lts.Along (step firstByte) (Correct firstByte) (start plain) [put [7], get [0x6B]] ∧
    answers firstByte (start full) [put [7], get [0x6B]] =
      [.ok (.error (.checksumMismatch [0x6B]))] ∧
    answers firstByte (start full) [put [], get [0x6B], put [1], get [0x6B]] =
      [.ok (.ok []), .ok (.ok [])] ∧ answers firstByte (start full) [put [], .reopen, get [0x6B]] =
      [.ok (.error (.keyNotFound [0x6B]))] ∧
    answers firstByte (start plain) [put [7], put [8], .reopen, get [0x6B]] = [.ok (.ok [7])] := by
  decide +kernel

end Session

end DistributedKV.Performance
