import DistributedKV.Consensus.Persistence
import DistributedKV.Lib.JsonDecode

/-!
# The key-value state machine (`state_machine.go`)

The map that the committed log entries build. An entry carries an operation as a JSON text;
`Apply` reads it and puts or deletes a key, and keeps for every key when it was written and how
often. `Snapshot` writes the two maps as a JSON text and `Restore` replaces them.

Every reading of the clock is an argument, and a time is a value of an arbitrary type `T`: it is
only kept and written. `Contents` is what the machine holds for its clients, for each key the
value and the version; `contents_apply` says what an entry does to it.
-/

namespace DistributedKV.Consensus

variable (op : Operation)

open Option

open Json Utf8

/-- What the state machine uses of the standard library and what is not modelled further. -/
structure Platform (T : Type) where
  /-- `time.Time{}` -/
  zeroTime : T
  /-- What `Time.MarshalJSON` writes between the quotation marks, or its error: it refuses years
  that do not have four digits. -/
  marshalTime : T → Except (List UInt8) (List UInt8)
  /-- `Time.UnmarshalJSON`, on what stands between the quotation marks. -/
  unmarshalTime : List UInt8 → Option T
  /-- The text of the error with which `json.Unmarshal` refuses a text for a type. -/
  unmarshalError : (type text : List UInt8) → List UInt8
  wellQuoted_time : ∀ {t body}, marshalTime t = .ok body → WellQuoted body
  unmarshal_marshal : ∀ {t body}, marshalTime t = .ok body → ∃ t', unmarshalTime body = some t'

/-- `EntryMetadata`. -/
structure EntryMetadata (T : Type) where
  createdAt : T
  updatedAt : T
  version : Int64

/-- `Operation`, at first with all its fields empty. -/
structure Operation where
  type : List UInt8 := []
  key : List UInt8 := []
  value : List UInt8 := []
  timestamp : Int64 := 0

/-- What an `OperationResult` has as its `Metadata`. -/
inductive ResultMetadata (T : Type) where
  | none
  | entry (metadata : EntryMetadata T)
  | existed (existed : Bool)
  | noop (timestamp : Int64)

/-- `OperationResult`. -/
structure OperationResult (T : Type) where
  success : Bool
  value : List UInt8 := []
  prevValue : List UInt8 := []
  error : List UInt8 := []
  metadata : ResultMetadata T := .none

/-- `KVStateMachine`. -/
structure KVStateMachine (T : Type) where
  data : GoMap (List UInt8) (List UInt8)
  metadata : GoMap (List UInt8) (EntryMetadata T)

/-- `StateMachineSnapshot`. -/
structure StateMachineSnapshot (T : Type) where
  data : GoMap (List UInt8) (List UInt8)
  metadata : GoMap (List UInt8) (EntryMetadata T)
  version : Int64

/-! ## The JSON texts -/

def Operation.fields : List (RecordField Operation) :=
  [.part (bytes "type") decodeString (·.type) fun op s => { op with type := s },
    .part (bytes "key") decodeString (·.key) fun op s => { op with key := s },
    .part (bytes "value") decodeString (·.value) fun op s => { op with value := s },
    .part (bytes "timestamp") decodeInt64 (·.timestamp) fun op n => { op with timestamp := n }]

/-- The operation of a text. -/
def Operation.unmarshal (text : List UInt8) : Option Operation :=
  Json.unmarshal (decodeStruct Operation.fields) {} text

def Operation.encode : Value :=
  .object
    [(quote (bytes "type"), encodeString op.type), (quote (bytes "key"), encodeString op.key),
      (quote (bytes "value"), encodeString op.value),
      (quote (bytes "timestamp"), encodeInt64 op.timestamp)]

section Texts

variable {T : Type} (p : Platform T)

/-- A time in a text: its string is not unquoted. -/
def Platform.decodeTime : Decoder T
  | .null, old => some old
  | .string body, _ => p.unmarshalTime body
  | _, _ => none

def EntryMetadata.zero : EntryMetadata T := ⟨p.zeroTime, p.zeroTime, 0⟩

def EntryMetadata.fields : List (RecordField (EntryMetadata T)) :=
  [.part (bytes "created_at") p.decodeTime (·.createdAt) fun m t => { m with createdAt := t },
    .part (bytes "updated_at") p.decodeTime (·.updatedAt) fun m t => { m with updatedAt := t },
    .part (bytes "version") decodeInt64 (·.version) fun m n => { m with version := n }]

/-- `json.Marshal` of a time, with the error it wraps around that of the time. -/
def Platform.encodeTime (t : T) : Except (List UInt8) Value :=
  match p.marshalTime t with
  | .ok body => .ok (.string body)
  | .error text =>
    .error (bytes "json: error calling MarshalJSON for type time.Time: " ++ text)

def EntryMetadata.encode (m : EntryMetadata T) : Except (List UInt8) Value := do
  let createdAt ← p.encodeTime m.createdAt
  let updatedAt ← p.encodeTime m.updatedAt
  return .object
    [(quote (bytes "created_at"), createdAt), (quote (bytes "updated_at"), updatedAt),
      (quote (bytes "version"), encodeInt64 m.version)]

def StateMachineSnapshot.fields : List (RecordField (StateMachineSnapshot T)) :=
  [.part (bytes "data") (decodeMap [] decodeString) (·.data) fun s m => { s with data := m },
    .part (bytes "metadata")
      (decodeMap (EntryMetadata.zero p) (decodeStruct (EntryMetadata.fields p))) (·.metadata)
      fun s m => { s with metadata := m },
    .part (bytes "version") decodeInt64 (·.version) fun s n => { s with version := n }]

/-- A string can always be written. -/
def encodeText (s : List UInt8) : Except (List UInt8) Value := .ok (encodeString s)

/-- The snapshot of a text. -/
def StateMachineSnapshot.unmarshal (text : List UInt8) : Option (StateMachineSnapshot T) :=
  Json.unmarshal (decodeStruct (StateMachineSnapshot.fields p)) ⟨∅, ∅, 0⟩ text

def StateMachineSnapshot.encode (s : StateMachineSnapshot T) : Except (List UInt8) Value := do
  let data ← encodeMap encodeText s.data
  let metadata ← encodeMap (EntryMetadata.encode p) s.metadata
  return .object
    [(quote (bytes "data"), data), (quote (bytes "metadata"), metadata),
      (quote (bytes "version"), encodeInt64 s.version)]

end Texts

/-! ## The operations of the source -/

namespace KVStateMachine

variable {T : Type} (p : Platform T) (sm : KVStateMachine T)

/-- `NewKVStateMachine`. -/
def new : KVStateMachine T := ⟨∅, ∅⟩

/-- `applyPut`. -/
def applyPut (op : Operation) (now : T) : KVStateMachine T × OperationResult T :=
  let metadata : EntryMetadata T :=
    match sm.metadata.lookup op.key with
    -- the version wraps around after 2^63 - 1
    | some metadata => { metadata with updatedAt := now, version := metadata.version + 1 }
    | none => ⟨now, now, 1⟩
  (⟨sm.data.insert op.key op.value, sm.metadata.insert op.key metadata⟩,
    { success := true, value := op.value, prevValue := (sm.data.lookup op.key).getD [],
      metadata := .entry metadata })

/-- `applyDelete`. -/
def applyDelete (op : Operation) : KVStateMachine T × OperationResult T :=
  match sm.data.lookup op.key with
  | some prevValue =>
    (⟨sm.data.erase op.key, sm.metadata.erase op.key⟩,
      { success := true, prevValue := prevValue, metadata := .existed true })
  | none => (sm, { success := true, metadata := .existed false })

/-- `applyNoop`. -/
def applyNoop (op : Operation) : KVStateMachine T × OperationResult T :=
  (sm, { success := true, metadata := .noop op.timestamp })

/-- `Apply`. -/
def apply (now : T) (entry : LogEntry) : KVStateMachine T × OperationResult T :=
  match Operation.unmarshal entry.data with
  | none =>
    (sm, { success := false, error :=
      bytes "invalid operation format: " ++ p.unmarshalError (bytes "Operation") entry.data })
  | some op =>
    if op.type = bytes "PUT" then sm.applyPut op now
    else if op.type = bytes "DELETE" then sm.applyDelete op
    else if op.type = bytes "NOOP" then sm.applyNoop op
    else (sm, { success := false, error := bytes "unknown operation type: " ++ op.type })

/-- `Get`. -/
def get (key : List UInt8) : Option (List UInt8) := sm.data.lookup key

/-- `GetWithMetadata`: the value, the metadata and whether the key is there. -/
def getWithMetadata (key : List UInt8) : List UInt8 × EntryMetadata T × Bool :=
  ((sm.data.lookup key).getD [], (sm.metadata.lookup key).getD (EntryMetadata.zero p),
    (sm.data.lookup key).isSome)

/-- `Snapshot`, at the Unix time `now`. -/
def snapshot (now : Int64) : Except (List UInt8) (List UInt8) :=
  match StateMachineSnapshot.encode p ⟨sm.data, sm.metadata, now⟩ with
  | .ok v => .ok (render v)
  | .error text => .error (bytes "failed to marshal snapshot: " ++ text)

/-- `Restore`: the machine after it, and its error. -/
def restore (text : List UInt8) : KVStateMachine T × Option (List UInt8) :=
  match StateMachineSnapshot.unmarshal p text with
  -- two loops copy the maps of the snapshot into new ones
  | some snapshot => (⟨snapshot.data, snapshot.metadata⟩, none)
  | none =>
    (sm, some (bytes "failed to unmarshal snapshot: " ++
      p.unmarshalError (bytes "StateMachineSnapshot") text))

end KVStateMachine

/-- `CreatePutOperation`, at the Unix time `now`. -/
def createPutOperation (key value : List UInt8) (now : Int64) : List UInt8 :=
  render (Operation.encode ⟨bytes "PUT", key, value, now⟩)

/-- `CreateDeleteOperation`. -/
def createDeleteOperation (key : List UInt8) (now : Int64) : List UInt8 :=
  render (Operation.encode ⟨bytes "DELETE", key, [], now⟩)

/-! ## What an operation text says -/

/-- The strings of an operation that was read are UTF-8. -/
def Operation.Textual : Prop := Valid op.type ∧ Valid op.key ∧ Valid op.value

open Operation

theorem Operation.textual_storeField {name : List UInt8} {v : Value} {op op' : Operation}
    (h : op.Textual) (hstore : storeField fields name v op = some op') : op'.Textual := by
  have hfield : ∀ f ∈ fields, f.decode v op = some op' → op'.Textual := by
    intro f hf hdecode
    simp only [fields, List.mem_cons, List.not_mem_nil, or_false] at hf
    rcases hf with rfl | rfl | rfl | rfl <;>
      obtain ⟨s, hs, rfl⟩ := map_eq_some_iff.mp hdecode
    · exact ⟨valid_decodeString h.1 hs, h.2⟩
    · exact ⟨h.1, valid_decodeString h.2.1 hs, h.2.2⟩
    · exact ⟨h.1, h.2.1, valid_decodeString h.2.2 hs⟩
    · exact h
  rw [storeField] at hstore
  cases hfind : findField fields name with
  | none =>
    rw [hfind] at hstore
    cases hstore
    exact h
  | some f =>
    rw [hfind] at hstore
    exact hfield f (mem_of_findField hfind) hstore

theorem Operation.textual_unmarshal {text : List UInt8} {op : Operation}
    (h : unmarshal text = some op) : op.Textual := by
  have hempty : Operation.Textual {} := ⟨rfl, rfl, rfl⟩
  obtain ⟨v, -, hv⟩ := bind_eq_some_iff.mp h
  match v with
  | .null =>
    cases hv
    exact hempty
  | .object members =>
    exact decodeMembers_induction (P := Operation.Textual)
      (fun _ _ _ _ _ hop hstore => textual_storeField hop hstore) hempty hv
  | .bool _ | .number _ | .string _ | .array _ => cases hv

theorem Operation.fits_encode : Fits 1 op.encode := by
  refine fits_object ?_
  simp only [List.forall_mem_cons, wellQuoted_quote, fits_encodeString, fits_encodeInt64, true_and]
  exact List.forall_mem_nil _

/-- An operation that is written and read again: its strings are repaired. -/
theorem Operation.unmarshal_encode : unmarshal (render op.encode) =
      some ⟨repair op.type, repair op.key, repair op.value, op.timestamp⟩ := by
  rw [unmarshal, unmarshal_render op.fits_encode (by decide)]
  show decodeMembers (storeField fields) _ _ = _
  rw [decodeMembers_part fields (bytes "type") (by decide) rfl (decodeString_encodeString _),
    decodeMembers_part fields (bytes "key") (by decide) rfl (decodeString_encodeString _),
    decodeMembers_part fields (bytes "value") (by decide) rfl (decodeString_encodeString _),
    decodeMembers_part fields (bytes "timestamp") (by decide) rfl (decodeInt64_encodeInt64 _ _)]
  rfl

/-! ## What the machine holds -/

/-- For each key the value and the version. -/
abbrev Contents := List UInt8 → Option (List UInt8) × Option Int64

def KVStateMachine.contents {T : Type} (sm : KVStateMachine T) : Contents := fun k =>
  (sm.data.lookup k, (sm.metadata.lookup k).map (·.version))

namespace Contents

/-- A key is written: its version is the next one. -/
def put (c : Contents) (k v : List UInt8) : Contents :=
  Function.update c k (some v, some (((c k).2.map (· + 1)).getD 1))

/-- A key is deleted, if it has a value. -/
def delete (c : Contents) (k : List UInt8) : Contents :=
  if (c k).1.isSome then Function.update c k (none, none) else c

/-- What a text in the log does. -/
def perform (c : Contents) (text : List UInt8) : Contents :=
  match Operation.unmarshal text with
  | none => c
  | some op =>
    if op.type = bytes "PUT" then c.put op.key op.value
    else if op.type = bytes "DELETE" then c.delete op.key
    else c

end Contents

namespace KVStateMachine

variable (entry : LogEntry)

variable {T : Type} (p : Platform T) (sm : KVStateMachine T)

open Contents

theorem contents_applyPut (op : Operation) (now : T) :
    (sm.applyPut op now).1.contents = sm.contents.put op.key op.value := by
  funext k
  by_cases hk : k = op.key
  · subst hk
    rw [put, Function.update_self]
    cases hm : sm.metadata.lookup op.key <;> simp [applyPut, contents, hm]
  · rw [put, Function.update_of_ne hk]
    simp [applyPut, contents, hk]

theorem contents_applyDelete (op : Operation) :
    (sm.applyDelete op).1.contents = sm.contents.delete op.key := by
  cases hd : sm.data.lookup op.key with
  | none => simp [applyDelete, delete, contents, hd]
  | some prev =>
    funext k
    by_cases hk : k = op.key
    · subst hk
      simp [applyDelete, delete, contents, hd]
    · simp [applyDelete, delete, contents, hd, hk]

/-- An entry does to the contents what its text says, whatever the clock shows. -/
theorem contents_apply (now : T) (entry : LogEntry) :
    (sm.apply p now entry).1.contents = sm.contents.perform entry.data := by
  unfold apply perform
  cases unmarshal entry.data with
  | none => rfl
  | some op =>
    show KVStateMachine.contents (Prod.fst (ite _ _ _)) = ite _ _ _
    split_ifs
    · exact sm.contents_applyPut op now
    · exact sm.contents_applyDelete op
    · rfl
    · rfl

theorem apply_of_failure {now : T} {entry : LogEntry}
    (h : (sm.apply p now entry).2.success = false) : (sm.apply p now entry).1 = sm := by
  unfold apply at h ⊢
  cases hop : unmarshal entry.data with
  | none => rfl
  | some op =>
    simp only [hop] at h ⊢
    split_ifs at h ⊢
    · cases h
    · unfold applyDelete at h
      split at h <;> cases h
    · cases h
    · rfl

theorem apply_other (now : T) {entry : LogEntry} {op : Operation} {k : List UInt8}
    (hop : unmarshal entry.data = some op) (hk : k ≠ op.key) :
    (sm.apply p now entry).1.data.lookup k = sm.data.lookup k ∧
      (sm.apply p now entry).1.metadata.lookup k = sm.metadata.lookup k := by
  unfold apply
  simp only [hop]
  split_ifs
  · exact ⟨AList.lookup_insert_ne hk, AList.lookup_insert_ne hk⟩
  · unfold applyDelete
    split
    · exact ⟨AList.lookup_erase_ne hk, AList.lookup_erase_ne hk⟩
    · exact ⟨rfl, rfl⟩
  · exact ⟨rfl, rfl⟩
  · exact ⟨rfl, rfl⟩

/-! ## Creating an operation and applying it -/

/-- The entry of an operation to put `key`. -/
def putEntry (key value : List UInt8) (now : Int64) : LogEntry :=
  { entry with data := createPutOperation key value now }

/-- The entry of an operation to delete `key`. -/
def deleteEntry (key : List UInt8) (now : Int64) : LogEntry :=
  { entry with data := createDeleteOperation key now }

theorem unmarshal_putEntry (key value : List UInt8) (now : Int64) :
    unmarshal (putEntry entry key value now).data =
      some ⟨bytes "PUT", repair key, repair value, now⟩ :=
  unmarshal_encode _

theorem unmarshal_deleteEntry (key : List UInt8) (now : Int64) :
    unmarshal (deleteEntry entry key now).data = some ⟨bytes "DELETE", repair key, [], now⟩ :=
  unmarshal_encode _

theorem get_apply_putEntry (now : T) (entry : LogEntry) (key value : List UInt8) (created : Int64) :
    (sm.apply p now (putEntry entry key value created)).1.get (repair key) =
      some (repair value) := by
  have hput : (sm.apply p now (putEntry entry key value created)).1 =
      (sm.applyPut ⟨bytes "PUT", repair key, repair value, created⟩ now).1 := by
    rw [apply, unmarshal_putEntry]
    rfl
  rw [hput]
  exact AList.lookup_insert _

theorem get_apply_deleteEntry (now : T) (entry : LogEntry) (key : List UInt8) (created : Int64) :
    (sm.apply p now (deleteEntry entry key created)).1.get (repair key) = none := by
  have hdelete : (sm.apply p now (deleteEntry entry key created)).1 =
      (sm.applyDelete ⟨bytes "DELETE", repair key, [], created⟩).1 := by
    rw [apply, unmarshal_deleteEntry]
    rfl
  rw [hdelete, applyDelete]
  cases hkey : sm.data.lookup (repair key) with
  | none => exact hkey
  | some prev => exact AList.lookup_erase _ _

/-- `key` is put and deleted by operations that the source created: then it has `value`, and
then it is absent, and no other key is touched. -/
def RoundTrips (entry entry' : LogEntry) (key value : List UInt8) (created created' : Int64)
    (now now' : T) : Prop :=
  let put := (sm.apply p now (putEntry entry key value created)).1
  let deleted := (put.apply p now' (deleteEntry entry' key created')).1
  (put.get key = some value ∧
      ∀ k ≠ key, put.getWithMetadata p k = sm.getWithMetadata p k) ∧
    deleted.get key = none ∧
      ∀ k ≠ key, deleted.getWithMetadata p k = put.getWithMetadata p k

theorem getWithMetadata_apply_other (now : T) {entry : LogEntry} {op : Operation} {k : List UInt8}
    (hop : unmarshal entry.data = some op) (hk : k ≠ op.key) :
    (sm.apply p now entry).1.getWithMetadata p k = sm.getWithMetadata p k := by
  obtain ⟨hdata, hmetadata⟩ := sm.apply_other p now hop hk
  rw [getWithMetadata, getWithMetadata, hdata, hmetadata]

/-- The text of an operation holds a key or a value as it is only if that is UTF-8. -/
theorem roundTrips_iff (entry entry' : LogEntry) (key value : List UInt8)
    (created created' : Int64) (now now' : T) :
    sm.RoundTrips p entry entry' key value created created' now now' ↔ Valid key ∧ Valid value := by
  constructor
  · rintro ⟨⟨hget, -⟩, habsent, -⟩
    have hkey : repair key = key := by
      -- otherwise the deletion is one of another key, and `key` keeps its value
      by_contra hne
      have hkept := (apply_other p (sm.apply p now (putEntry entry key value created)).1
        now' (unmarshal_deleteEntry entry' key created') (Ne.symm hne)).1
      exact some_ne_none value (hget.symm.trans (hkept.symm.trans habsent))
    have hvalue : repair value = value := by
      have hput := sm.get_apply_putEntry p now entry key value created
      rw [hkey] at hput
      exact some.inj (hput.symm.trans hget)
    exact ⟨repair_eq_iff.mp hkey, repair_eq_iff.mp hvalue⟩
  · rintro ⟨hkey, hvalue⟩
    have hput := sm.get_apply_putEntry p now entry key value created
    rw [hkey.repair_eq, hvalue.repair_eq] at hput
    refine ⟨⟨hput, fun k hk => ?_⟩, ?_, fun k hk => ?_⟩
    · exact sm.getWithMetadata_apply_other p now (unmarshal_putEntry ..) (by rwa [hkey.repair_eq])
    · have hdelete := get_apply_deleteEntry p
        (sm.apply p now (putEntry entry key value created)).1 now' entry' key created'
      rwa [hkey.repair_eq] at hdelete
    · exact getWithMetadata_apply_other p _ now' (unmarshal_deleteEntry ..)
        (by rwa [hkey.repair_eq])

end KVStateMachine

/-- A clock that has stopped. -/
def stoppedClock : Platform Unit where
  zeroTime := ()
  marshalTime _ := .ok (bytes "2024-01-01T00:00:00Z")
  unmarshalTime body := if body = bytes "2024-01-01T00:00:00Z" then some () else none
  unmarshalError _ _ := bytes "invalid"
  wellQuoted_time := by
    intro t body h
    obtain rfl := Except.ok.inj h
    decide
  unmarshal_marshal := by
    intro t body h
    obtain rfl := Except.ok.inj h
    exact ⟨(), if_pos rfl⟩

/-- The byte 0xFF is no character: what is put under it is found under U+FFFD. -/
theorem roundTrip_of_invalid_key : ((KVStateMachine.new.apply stoppedClock ()
        (KVStateMachine.putEntry ⟨1, 1, "PUT", [], 0⟩ [0xFF] [0x76] 0)).1.get [0xFF] = none ∧
      (KVStateMachine.new.apply stoppedClock ()
        (KVStateMachine.putEntry ⟨1, 1, "PUT", [], 0⟩ [0xFF] [0x76] 0)).1.get [0xEF, 0xBF, 0xBD] =
          some [0x76]) ∧
      ¬KVStateMachine.new.RoundTrips stoppedClock ⟨1, 1, "PUT", [], 0⟩ ⟨2, 1, "DELETE", [], 0⟩
        [0xFF] [0x76] 0 0 () () := by
  refine ⟨by decide +kernel, ?_⟩
  rintro ⟨⟨hget, -⟩, -⟩
  exact absurd hget (by decide +kernel)

end DistributedKV.Consensus
