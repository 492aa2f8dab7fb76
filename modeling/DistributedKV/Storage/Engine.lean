import DistributedKV.Cache.LRUCache
import DistributedKV.Lib.PrefixScan

/-!
# The storage engine

`internal/storage/engine.go`, a thin layer over Badger, of which the engine uses this: the
committed content is a map, a transaction sees it and its own writes, the empty key is refused by
`Set`, `Get` and `Delete`, and `Update` commits everything or nothing.

An update can also fail for reasons of Badger's own (`fault`). `Restore` reads a backup file that
may hold anything: its outcome is an argument as well.
-/

namespace DistributedKV.Storage

variable (db : Content)

open List

open Cache (Bytes Key Time Duration)

/-- Errors of Badger: the two the engine or its callers tell apart, and the others. -/
inductive BadgerError where
  | keyNotFound
  | emptyKey
  | other (message : String)
deriving DecidableEq, Repr

/-- Errors of the engine. -/
inductive StorageError where
  /-- `ErrKeyNotFound` -/
  | keyNotFound
  | badger (e : BadgerError)
  /-- `failed to open backup file` -/
  | openBackup (message : String)

/-- `err.Error()`. -/
def StorageError.text : StorageError → String
  | keyNotFound => "key not found"
  | badger .keyNotFound => "Key not found"
  | badger .emptyKey => "Key cannot be empty"
  | badger (.other message) => message
  | openBackup message => "failed to open backup file: " ++ message

/-- `KeyValue`. -/
structure KeyValue where
  key : Key
  value : Bytes
  found : Bool

/-- The zero `KeyValue`. -/
def KeyValue.zero : KeyValue := ⟨[], [], false⟩

/-! ## Badger -/

/-- What is committed. -/
abbrev Content := GoMap Key Bytes

/-- `txn.Get` and the value of the item. -/
def Content.txnGet (key : Key) : Except BadgerError Bytes :=
  if key = [] then .error .emptyKey
  else match db.lookup key with
    | none => .error .keyNotFound
    | some value => .ok value

/-- `txn.Set`. -/
def Content.txnSet (key : Key) (value : Bytes) : Except BadgerError Content :=
  if key = [] then .error .emptyKey else .ok (db.insert key value)

/-- `txn.Delete`. -/
def Content.txnDelete (key : Key) : Except BadgerError Content :=
  if key = [] then .error .emptyKey else .ok (db.erase key)

/-- `db.Update`: the content afterwards, and the error. -/
def Content.update (fault : Option BadgerError)
    (fn : Content → Except BadgerError Content) : Content × Option BadgerError :=
  match fault with
  | some e => (db, some e)
  | none =>
    match fn db with
    | .error e => (db, some e)
    | .ok db' => (db', none)

/-! ## The engine -/

/-- `Engine`: the database, and whether `ValueCopy(nil)` gives a nil slice for an empty value,
which Badger leaves open. -/
structure Engine where
  content : Content
  emptyIsNil : Bool

namespace Engine

variable (e : Engine)

/-- A method that writes runs one update. -/
def write (fault : Option BadgerError) (fn : Content → Except BadgerError Content) :
    Engine × Option StorageError :=
  let r := e.content.update fault fn
  ({ e with content := r.1 }, r.2.map .badger)

/-- `item.ValueCopy(nil)`: a slice, `none` if it is nil. -/
def valueCopy (value : Bytes) : Option Bytes :=
  if e.emptyIsNil && value.isEmpty then none else some value

def put (fault : Option BadgerError) (key : Key) (value : Bytes) :
    Engine × Option StorageError :=
  e.write fault fun txn => txn.txnSet key value

def get (key : Key) : Option Bytes × Option StorageError :=
  match e.content.txnGet key with
  | .ok value => (e.valueCopy value, none)
  | .error .keyNotFound => (none, some .keyNotFound)
  | .error err => (none, some (.badger err))

def delete (fault : Option BadgerError) (key : Key) : Engine × Option StorageError :=
  e.write fault fun txn => txn.txnDelete key

/-- `Exists`. -/
def has (key : Key) : Bool × Option StorageError :=
  match e.content.txnGet key with
  | .ok _ => (true, none)
  | .error .keyNotFound => (false, none)
  | .error err => (false, some (.badger err))

/-- `List`: the iterator has the keys in the order of their bytes, is moved to the prefix by
`Seek` and stays valid as long as `ValidForPrefix` holds. Nil values are not told from empty
ones. -/
def list (keyPrefix : Bytes) : GoMap Key Bytes × Option StorageError :=
  let visited := PrefixScan.scan keyPrefix (e.content.keys.insertionSort (· ≤ ·))
  (visited.foldl (fun result key => result.insert key ((e.content.lookup key).getD [])) ∅, none)

/-- `BatchPut`: one transaction. -/
def batchPut (fault : Option BadgerError) (items : List KeyValue) :
    Engine × Option StorageError :=
  e.write fault fun txn => items.foldlM (fun txn item => txn.txnSet item.key item.value) txn

/-- The loop of `BatchGet`. The results that an error leaves unfilled are zero. -/
def batchGetLoop (db : Content) : List Key → List KeyValue × Option BadgerError
  | [] => ([], none)
  | key :: keys =>
    match db.txnGet key with
    | .ok value => (⟨key, value, true⟩ :: (batchGetLoop db keys).1, (batchGetLoop db keys).2)
    | .error .keyNotFound =>
      (⟨key, [], false⟩ :: (batchGetLoop db keys).1, (batchGetLoop db keys).2)
    | .error err => (List.replicate (keys.length + 1) .zero, some err)

def batchGet (keys : List Key) : List KeyValue × Option StorageError :=
  let r := batchGetLoop e.content keys
  (r.1, r.2.map .badger)

/-- `BatchDelete`: one transaction. -/
def batchDelete (fault : Option BadgerError) (keys : List Key) :
    Engine × Option StorageError :=
  e.write fault fun txn => keys.foldlM (fun txn key => txn.txnDelete key) txn

/-- `Restore`, whose outcome depends on the backup file. -/
def restore (outcome : Except StorageError Content) : Engine × Option StorageError :=
  match outcome with
  | .error err => (e, some err)
  | .ok content => ({ e with content := content }, none)

end Engine

/-! ## What the methods do -/

namespace Content

variable {db : Content} {key : Key} {value : Bytes}

theorem ne_nil_of_txnGet (h : db.txnGet key = .ok value) : key ≠ [] := by
  rintro rfl
  simp [txnGet] at h

open Content

theorem txnGet_insert_self (hkey : key ≠ []) : txnGet (db.insert key value) key = .ok value := by
  simp [txnGet, hkey]

theorem txnGet_insert_ne (k : Key) (hne : k ≠ key) :
    txnGet (db.insert key value) k = db.txnGet k := by
  unfold txnGet
  rw [AList.lookup_insert_ne hne]

theorem txnGet_erase (k : Key) (hne : k ≠ key) : txnGet (db.erase key) k = db.txnGet k := by
  unfold txnGet
  rw [AList.lookup_erase_ne hne]

/-- The content after the writes of a batch. -/
def putAll (db : Content) (items : List KeyValue) : Content :=
  items.foldl (fun db item => db.insert item.key item.value) db

/-- The content after the deletions of a batch. -/
def deleteAll (db : Content) (keys : List Key) : Content :=
  keys.foldl (fun db key => db.erase key) db

theorem txnGet_putAll {items : List KeyValue} {k : Key} (hk : k ∉ items.map KeyValue.key) :
    (db.putAll items).txnGet k = db.txnGet k := by
  induction items generalizing db with
  | nil => rfl
  | cons item items ih =>
    rw [map_cons, mem_cons, not_or] at hk
    exact (ih hk.2).trans (txnGet_insert_ne k hk.1)

theorem txnGet_deleteAll {keys : List Key} {k : Key} (hk : k ∉ keys) :
    (db.deleteAll keys).txnGet k = db.txnGet k := by
  induction keys generalizing db with
  | nil => rfl
  | cons key keys ih =>
    rw [mem_cons, not_or] at hk
    exact (ih hk.2).trans (txnGet_erase k hk.1)

/-- A transaction sets every item or fails, and it fails for an empty key only. -/
theorem foldlM_txnSet (db : Content) (items : List KeyValue) :
    items.foldlM (fun txn item => txnSet txn item.key item.value) db =
      if ∀ item ∈ items, item.key ≠ [] then .ok (db.putAll items) else .error .emptyKey := by
  induction items generalizing db with
  | nil => rfl
  | cons item items ih =>
    rw [foldlM_cons]
    by_cases hkey : item.key = []
    · simp only [txnSet, hkey, if_true]
      rw [if_neg (by simp [hkey])]
      rfl
    · simp only [txnSet, hkey, if_false]
      exact (ih _).trans (by simp [hkey, putAll])

theorem foldlM_txnDelete (db : Content) (keys : List Key) :
    keys.foldlM (fun txn key => txnDelete txn key) db =
      if ∀ key ∈ keys, key ≠ [] then .ok (db.deleteAll keys) else .error .emptyKey := by
  induction keys generalizing db with
  | nil => rfl
  | cons key keys ih =>
    rw [foldlM_cons]
    by_cases hkey : key = []
    · simp only [txnDelete, hkey, if_true]
      rfl
    · simp only [txnDelete, hkey, if_false]
      exact (ih _).trans (by simp [hkey, deleteAll])

end Content

namespace Engine

variable (e : Engine) (fault : Option BadgerError)

/-- A write fails and changes nothing, or its transaction is allowed and commits. -/
theorem write_cases {fn : Content → Except BadgerError Content} {P : Prop} [Decidable P]
    {db : Content} {err : BadgerError} (hfn : fn e.content = if P then .ok db else .error err) :
    (∃ err, e.write fault fn = (e, some err)) ∨
      P ∧ e.write fault fn = ({ e with content := db }, none) := by
  unfold write Content.update
  cases fault with
  | some err => exact .inl ⟨_, rfl⟩
  | none =>
    by_cases hp : P
    · exact .inr ⟨hp, by simp only [hfn, if_pos hp]; rfl⟩
    · exact .inl ⟨_, by simp only [hfn, if_neg hp]; rfl⟩

theorem put_cases (key : Key) (value : Bytes) :
    (∃ err, e.put fault key value = (e, some err)) ∨ key ≠ [] ∧
        e.put fault key value = ({ e with content := e.content.insert key value }, none) :=
  write_cases e fault (ite_not ..).symm

theorem delete_cases (key : Key) : (∃ err, e.delete fault key = (e, some err)) ∨
      key ≠ [] ∧ e.delete fault key = ({ e with content := e.content.erase key }, none) :=
  write_cases e fault (ite_not ..).symm

/-- All items are put, or none and with an error. -/
theorem batchPut_cases (items : List KeyValue) :
    (∃ err, e.batchPut fault items = (e, some err)) ∨ (∀ item ∈ items, item.key ≠ []) ∧
        e.batchPut fault items = ({ e with content := e.content.putAll items }, none) :=
  write_cases e fault (Content.foldlM_txnSet _ _)

theorem batchDelete_cases (keys : List Key) :
    (∃ err, e.batchDelete fault keys = (e, some err)) ∨ (∀ key ∈ keys, key ≠ []) ∧
        e.batchDelete fault keys = ({ e with content := e.content.deleteAll keys }, none) :=
  write_cases e fault (Content.foldlM_txnDelete _ _)

theorem valueCopy_getD (value : Bytes) : (e.valueCopy value).getD [] = value := by
  unfold valueCopy
  split <;> simp_all

theorem get_of_txnGet {key : Key} {value : Bytes} (h : e.content.txnGet key = .ok value) :
    e.get key = (e.valueCopy value, none) := by
  simp [get, h]

theorem txnGet_of_get {key : Key} {value : Option Bytes} (h : e.get key = (value, none)) :
    e.content.txnGet key = .ok (value.getD []) := by
  unfold get at h
  split at h
  case h_1 v hv => rw [hv, ← (Prod.mk.inj h).1, valueCopy_getD]
  case h_2 => cases h
  case h_3 => cases h

/-- What `BatchGet` answers for a key. -/
def answer (db : Content) (key : Key) : KeyValue :=
  match db.txnGet key with
  | .ok value => ⟨key, value, true⟩
  | .error _ => ⟨key, [], false⟩

/-- `BatchGet` fails if a key is empty, and otherwise answers every key. -/
theorem batchGetLoop_eq (db : Content) (keys : List Key) :
    (∀ key ∈ keys, key ≠ []) ∧ batchGetLoop db keys = (keys.map (answer db), none) ∨
      [] ∈ keys ∧ (batchGetLoop db keys).2 = some .emptyKey := by
  induction keys with
  | nil => exact .inl ⟨fun key hkey => absurd hkey not_mem_nil, rfl⟩
  | cons key keys ih =>
    by_cases hkey : key = []
    · exact .inr ⟨by simp [hkey], by simp [batchGetLoop, Content.txnGet, hkey]⟩
    obtain ⟨hkeys, hloop⟩ | ⟨hmem, hloop⟩ := ih
    · refine .inl ⟨by simpa [hkey] using hkeys, ?_⟩
      cases hlookup : db.lookup key <;>
        simp [batchGetLoop, answer, Content.txnGet, hkey, hlookup, hloop]
    refine .inr ⟨mem_cons_of_mem _ hmem, ?_⟩
    cases hlookup : db.lookup key <;>
      simp [batchGetLoop, Content.txnGet, hkey, hlookup, hloop]

theorem batchGet_of_nonempty {keys : List Key} (h : [] ∉ keys) :
    e.batchGet keys = (keys.map (answer e.content), none) := by
  obtain ⟨-, hloop⟩ | ⟨hmem, -⟩ := batchGetLoop_eq e.content keys
  · simp [batchGet, hloop]
  · exact absurd hmem h

/-- One empty key fails the whole batch. -/
theorem batchGet_of_empty {keys : List Key} (h : [] ∈ keys) :
    ∃ results, e.batchGet keys = (results, some (.badger .emptyKey)) := by
  obtain ⟨hkeys, -⟩ | ⟨-, hloop⟩ := batchGetLoop_eq e.content keys
  · exact absurd rfl (hkeys [] h)
  · exact ⟨_, Prod.ext rfl (congrArg (Option.map StorageError.badger) hloop)⟩

theorem txnGet_of_answer {db : Content} {key : Key} (h : (answer db key).found = true) :
    db.txnGet (answer db key).key = .ok (answer db key).value := by
  unfold answer at h ⊢
  split
  case h_1 v hv => exact hv
  case h_2 err herr =>
    rw [herr] at h
    cases h

theorem txnGet_of_batchGet {keys : List Key} {results : List KeyValue}
    (h : e.batchGet keys = (results, none)) {r : KeyValue} (hr : r ∈ results)
    (hfound : r.found = true) : e.content.txnGet r.key = .ok r.value := by
  have hnil : [] ∉ keys := by
    intro hmem
    obtain ⟨rs, hrs⟩ := e.batchGet_of_empty hmem
    rw [hrs] at h
    cases h
  rw [e.batchGet_of_nonempty hnil, Prod.mk.injEq] at h
  obtain ⟨key, -, rfl⟩ := mem_map.1 (h.1 ▸ hr)
  exact txnGet_of_answer hfound

theorem mem_foldl_insert (value : Key → Bytes) (visited : List Key) (m : GoMap Key Bytes)
    (key : Key) : key ∈ visited.foldl (fun result key => result.insert key (value key)) m ↔
      key ∈ m ∨ key ∈ visited := by
  induction visited generalizing m with
  | nil => simp
  | cons k visited ih =>
    rw [foldl_cons, ih, AList.mem_insert, mem_cons]
    tauto

/-- A listing has every key with the prefix once. -/
theorem keys_list (keyPrefix : Bytes) :
    (e.list keyPrefix).1.keys.Perm (e.content.keys.filter (keyPrefix.isPrefixOf ·)) := by
  have hsorted := pairwise_insertionSort (· ≤ ·) e.content.keys
  refine (perm_ext_iff_of_nodup (AList.keys_nodup _) (e.content.keys_nodup.filter _)).mpr ?_
  intro key
  have hmem : key ∈ (e.list keyPrefix).1.keys ↔
      key ∈ PrefixScan.scan keyPrefix (e.content.keys.insertionSort (· ≤ ·)) := by
    exact (mem_foldl_insert _ _ ∅ key).trans (or_iff_right (AList.notMem_empty key))
  rw [hmem, PrefixScan.scan_eq_filter hsorted, mem_filter, mem_filter, mem_insertionSort]

end Engine

end DistributedKV.Storage
