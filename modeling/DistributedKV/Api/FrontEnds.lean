import DistributedKV.Lib.Utf8
import DistributedKV.Server.Grpc

/-!
# REST and gRPC on one store

The same batch, sent to the REST handler and to the gRPC handler. REST stores a batch in one
transaction and falls back to single puts, gRPC puts every item by itself; both come to the same
store. But REST refuses keys of more than 1024 bytes (and a body of more than 64 MiB), which gRPC
stores, and reads a batch in one transaction, which a single empty key makes fail.

The gRPC library refuses messages over a limit of the receiver (4 MiB, since no code here sets
another). The sizes and the limit are parameters (`Wire`), and that the messages fit is a
hypothesis of the main result.
-/

namespace DistributedKV.Api

open List

open Cache (Bytes Key)
open Storage (Engine BadgerError)

/-! ## Badger's verdicts -/

/-- What Badger makes of the transactions that write, apart from the empty key: whether it
refuses to put an item, and whether it refuses a batch. A batch may be refused for its size
alone, but one that commits has passed the checks of each of its items. -/
structure Badger where
  refuse : Storage.KeyValue → Option BadgerError
  refuseAll : List Storage.KeyValue → Option BadgerError
  refuse_of_refuseAll : ∀ items, refuseAll items = none → ∀ item ∈ items, refuse item = none

namespace Badger

/-- The failures during a request. -/
def faults (b : Badger) : Faults := ⟨b.refuseAll, fun _ => b.refuse⟩

/-- Badger stores an item. -/
def Admits (b : Badger) (item : Storage.KeyValue) : Prop :=
  item.key ≠ [] ∧ b.refuse item = none

instance (b : Badger) (item : Storage.KeyValue) : Decidable (b.Admits item) :=
  inferInstanceAs (Decidable (_ ∧ _))

end Badger

/-! ## Puts -/

section Puts

variable {b : Badger} {e : Engine} {item : Storage.KeyValue} {items : List Storage.KeyValue}

theorem put_of_not_admits (h : ¬ b.Admits item) :
    ∃ err, e.put (b.refuse item) item.key item.value = (e, some err) := by
  cases hrefuse : b.refuse item with
  | some err => exact ⟨.badger err, rfl⟩
  | none =>
    have hkey : item.key = [] := by_contra fun hkey => h ⟨hkey, hrefuse⟩
    simp [Engine.put, Engine.write, Storage.Content.update, Storage.Content.txnSet, hkey]

theorem stored_putEach (check : Storage.KeyValue → Option String) (i : Nat) :
    (putEach check b.faults.put i e items).stored =
      items.filter fun item => check item = none ∧ b.Admits item := by
  induction items generalizing i e with
  | nil => rfl
  | cons item items ih =>
    unfold putEach
    cases hcheck : check item with
    | some error =>
      rw [filter_cons_of_neg (by simp [hcheck])]
      exact ih (i + 1)
    | none =>
      by_cases hadmits : b.Admits item
      · rw [filter_cons_of_pos (by simp [hcheck, hadmits])]
        have hput : e.put (b.refuse item) item.key item.value =
            ({ e with content := e.content.insert item.key item.value }, none) := by
          simp [Engine.put, Engine.write, Storage.Content.update, Storage.Content.txnSet,
            hadmits.1, hadmits.2]
        simp only [Badger.faults, hput]
        exact congrArg (item :: ·) (ih (i + 1))
      obtain ⟨err, hput⟩ := put_of_not_admits (e := e) hadmits
      rw [filter_cons_of_neg (by simp [hadmits])]
      simp only [Badger.faults, hput]
      exact ih (i + 1)

/-- REST stores what Badger would store item by item, however the batch goes. -/
theorem stored_storeItems :
    (storeItems b.faults e items).stored = items.filter fun item => b.Admits item := by
  unfold storeItems
  split
  case isFalse hempty =>
    obtain rfl : items = [] := length_eq_zero_iff.mp (by omega)
    rfl
  case isTrue =>
    split
    case h_1 e' err h =>
      rw [stored_putEach]
      simp
    case h_2 e' h =>
      refine (filter_eq_self.mpr fun item hitem => decide_eq_true ?_).symm
      -- a batch that commits has only items that Badger also stores one by one
      cases hrefuse : b.refuseAll items with
      | some err =>
        simp [Badger.faults, Engine.batchPut, Engine.write, Storage.Content.update, hrefuse] at h
      | none =>
        obtain ⟨err, herr⟩ | ⟨hkeys, -⟩ := e.batchPut_cases (b.faults.batch items) items
        · rw [herr] at h
          cases h
        · exact ⟨hkeys item hitem, b.refuse_of_refuseAll items hrefuse item hitem⟩

end Puts

/-- An item of a batch that both front ends can be sent: JSON and protobuf strings are UTF-8. -/
structure Item where
  key : Utf8.Text
  value : Utf8.Text

namespace Item

def toREST (item : Item) : BatchPutItem := ⟨item.key.1, item.value.1⟩

def toGRPC (item : Item) : Server.PutItem := ⟨item.key.1, item.value.1⟩

/-- What the storage engine is asked to put. -/
def toKeyValue (item : Item) : Storage.KeyValue := ⟨item.key.1, item.value.1, false⟩

end Item

/-- The sizes of the messages of a gRPC call, and the limit of those who receive them. -/
structure Wire where
  request : Nat
  response : Nat
  limit : Nat

/-- The library delivers both messages. -/
def Wire.Fits (wire : Wire) : Prop := wire.request ≤ wire.limit ∧ wire.response ≤ wire.limit

/-- A `BatchPut` over gRPC: the store after it and the items it stored. -/
def sendPuts (b : Badger) (e : Engine) (wire : Wire) (items : List Item) :
    Engine × List Storage.KeyValue :=
  if wire.request ≤ wire.limit then
    let result := Server.batchPut b.faults.put e (items.map Item.toGRPC)
    (result.1, result.2.1)
  else (e, [])

/-- `BatchPut` of REST, with a body of `size` bytes, and of gRPC store the same items and leave
the same store. -/
def SamePuts (b : Badger) (e : Engine) (size : Nat) (wire : Wire) (items : List Item) : Prop :=
  let rest := Api.batchPut b.faults e size (items.map Item.toREST)
  rest.2.1 = (sendPuts b e wire items).2 ∧ rest.1 = (sendPuts b e wire items).1

section SamePuts

variable (b : Badger) (e : Engine) (size : Nat) (items : List Item)

open Item

theorem stored_restBatchPut (hlength : 1 ≤ items.length ∧ items.length ≤ 10000) :
    (Api.batchPut b.faults e size (items.map toREST)).2.1 =
      (items.map toKeyValue).filter fun item =>
        b.Admits item ∧ size ≤ 64 * 1024 * 1024 ∧ item.key.length ≤ 1024 := by
  unfold Api.batchPut
  by_cases hsize : size > 64 * 1024 * 1024
  · rw [if_pos hsize, eq_comm, filter_eq_nil_iff]
    intro item _ h
    have := (of_decide_eq_true h).2.1
    omega
  rw [if_neg hsize, if_neg (by rw [length_map]; omega), if_neg (by rw [length_map]; omega)]
  have hvalid : validItems (items.map toREST) =
      (items.map toKeyValue).filter fun item => (checkItem item).isNone := by
    rw [validItems, map_map]
    rfl
  refine stored_storeItems.trans ?_
  rw [hvalid, filter_filter]
  refine filter_congr fun item _ => ?_
  by_cases hadmits : b.Admits item
  · have hkey : item.key ≠ [] := hadmits.1
    simp only [checkItem, hkey, hadmits, if_false]
    split <;> simp <;> omega
  · simp [hadmits]

theorem stored_grpcBatchPut : (Server.batchPut b.faults.put e (items.map toGRPC)).2.1 =
      (items.map toKeyValue).filter fun item => b.Admits item := by
  have hitems : (items.map toGRPC).map Server.PutItem.toKeyValue =
      items.map toKeyValue := by
    rw [map_map]
    rfl
  unfold Server.batchPut
  rw [hitems]
  refine (stored_putEach _ _).trans (filter_congr fun item _ => ?_)
  by_cases hadmits : b.Admits item
  · simp [Server.checkItem, hadmits, hadmits.1]
  · simp [hadmits]

theorem engine_grpcBatchPut :
    (Server.batchPut b.faults.put e (items.map toGRPC)).1 = { e with
        content := e.content.putAll (Server.batchPut b.faults.put e (items.map toGRPC)).2.1 } :=
  engine_putEach _ _ _

theorem samePuts_iff {wire : Wire} (hfits : wire.Fits)
    (hlength : 1 ≤ items.length ∧ items.length ≤ 10000) : SamePuts b e size wire items ↔
      ∀ item ∈ items, b.Admits item.toKeyValue →
        size ≤ 64 * 1024 * 1024 ∧ item.key.1.length ≤ 1024 := by
  unfold SamePuts sendPuts
  rw [if_pos hfits.1]
  dsimp only
  rw [engine_batchPut, engine_grpcBatchPut, stored_restBatchPut b e size items hlength,
    stored_grpcBatchPut]
  constructor
  · rintro ⟨hstored, -⟩ item hitem hadmits
    have hmem : item.toKeyValue ∈ (items.map toKeyValue).filter fun item => b.Admits item :=
      mem_filter.mpr ⟨mem_map_of_mem hitem, by simpa using hadmits⟩
    rw [← hstored, mem_filter, decide_eq_true_eq] at hmem
    exact hmem.2.2
  intro hshort
  have hstored : ((items.map toKeyValue).filter fun item =>
        b.Admits item ∧ size ≤ 64 * 1024 * 1024 ∧ item.key.length ≤ 1024) =
      (items.map toKeyValue).filter fun item => b.Admits item := by
    refine filter_congr fun kv hkv => ?_
    obtain ⟨item, hitem, rfl⟩ := mem_map.mp hkv
    exact decide_eq_decide.mpr (and_iff_left_of_imp (hshort item hitem))
  exact ⟨hstored, by rw [hstored]⟩

end SamePuts

/-! ## Gets -/

/-- What a client reads in the response of `BatchGet` of REST: whether each key is found, and
its value. -/
def Reply.answers : Reply → Option (List (Bytes × Bool × Bytes))
  | ⟨200, .batch r⟩ =>
    some (r.results.map fun r => (Utf8.repair r.key, r.found, Utf8.repair r.value))
  | _ => none

/-- What a client reads in the response of `BatchGet` of gRPC. -/
def protobufAnswers (results : List Server.GetResult) : Option (List (Bytes × Bool × Bytes)) :=
  if ∀ r ∈ results, Utf8.Valid r.key then some (results.map fun r => (r.key, r.found, r.value))
  else none

/-- `BatchGet` of REST and `BatchGet` of gRPC answer every key, and answer it alike. -/
def SameGets (e : Engine) (clock : Nat → Int) (wire : Wire) (keys : List Utf8.Text) : Prop :=
  wire.Fits ∧ ∃ answers, (Api.batchGet e (keys.map (·.1))).answers = some answers ∧
    protobufAnswers (Server.batchGet e clock (keys.map (·.1))) = some answers

section SameGets

variable (e : Engine) (clock : Nat → Int) (keys : List Utf8.Text)

/-- REST answers a list of non-empty keys as the storage engine does. -/
theorem answers_restBatchGet {keys : List Bytes} (hlength : 1 ≤ keys.length ∧ keys.length ≤ 10000)
    (hkeys : [] ∉ keys) : (Api.batchGet e keys).answers = some (keys.map fun key =>
      (Utf8.repair key, (Engine.answer e.content key).found,
        Utf8.repair (Engine.answer e.content key).value)) := by
  have hresult : ∀ key : Bytes,
      (if (Engine.answer e.content key).found then
          (⟨key, true, (Engine.answer e.content key).value⟩ : BatchItemResult)
        else ⟨key, false, []⟩) =
      ⟨key, (Engine.answer e.content key).found, (Engine.answer e.content key).value⟩ := by
    intro key
    unfold Engine.answer
    cases e.content.txnGet key <;> rfl
  unfold Api.batchGet
  rw [if_neg (by omega), if_neg (by omega), e.batchGet_of_nonempty hkeys]
  refine congrArg some (ext_getElem (by simp) fun i _ _ => ?_)
  simp [hresult]

theorem key_getResult (now : Int) (key : Bytes) : (Server.getResult e now key).key = key := by
  unfold Server.getResult
  split
  case isTrue => rfl
  case isFalse => split <;> rfl

theorem answers_grpcBatchGet {keys : List Bytes} (hkeys : [] ∉ keys)
    (hvalid : ∀ key ∈ keys, Utf8.Valid key) :
    protobufAnswers (Server.batchGet e clock keys) = some (keys.map fun key =>
      (key, (Engine.answer e.content key).found, (Engine.answer e.content key).value)) := by
  have hstrings : ∀ r ∈ Server.batchGet e clock keys, Utf8.Valid r.key := by
    intro r hr
    obtain ⟨i, hi, rfl⟩ := mem_mapIdx.mp hr
    rw [key_getResult]
    exact hvalid _ (getElem_mem hi)
  rw [protobufAnswers, if_pos hstrings]
  refine congrArg some (ext_getElem (by simp [Server.batchGet]) fun i hi _ => ?_)
  have hi : i < keys.length := by simpa [Server.batchGet] using hi
  have hkey : keys[i] ≠ [] := fun h => hkeys (h ▸ getElem_mem hi)
  simp only [Server.batchGet, getElem_map, getElem_mapIdx]
  unfold Server.getResult Engine.answer Engine.get
  rw [if_neg hkey]
  cases e.content.txnGet keys[i] with
  | ok value => simp [Engine.valueCopy_getD]
  | error err => cases err <;> rfl

theorem valid_answer (hvalues : ∀ key value, e.content.lookup key = some value → Utf8.Valid value)
    (key : Bytes) : Utf8.Valid (Engine.answer e.content key).value := by
  unfold Engine.answer Storage.Content.txnGet
  split
  case h_1 value h =>
    split at h
    case isTrue => cases h
    case isFalse =>
      split at h
      case h_1 => cases h
      case h_2 v hv => exact hvalues key value (Except.ok.inj h ▸ hv)
  case h_2 => rfl

theorem sameGets_iff {wire : Wire} (hfits : wire.Fits)
    (hlength : 1 ≤ keys.length ∧ keys.length ≤ 10000)
    (hvalues : ∀ key value, e.content.lookup key = some value → Utf8.Valid value) :
    SameGets e clock wire keys ↔ ∀ key ∈ keys, key.1 ≠ [] := by
  have hlength' : 1 ≤ (keys.map (·.1)).length ∧ (keys.map (·.1)).length ≤ 10000 := by
    rwa [length_map]
  constructor
  · rintro ⟨-, answers, hrest, -⟩ key hkey hempty
    obtain ⟨results, hresults⟩ := e.batchGet_of_empty (mem_map.mpr ⟨key, hkey, hempty⟩)
    simp only [Api.batchGet, hresults] at hrest
    rw [if_neg (by omega), if_neg (by omega)] at hrest
    cases hrest
  intro hkeys
  have hnil : [] ∉ keys.map (·.1) := by
    intro hmem
    obtain ⟨key, hkey, hempty⟩ := mem_map.mp hmem
    exact hkeys key hkey hempty
  have hvalid : ∀ key ∈ keys.map (·.1), Utf8.Valid key := by
    intro key hkey
    obtain ⟨text, -, rfl⟩ := mem_map.mp hkey
    exact text.2
  refine ⟨hfits, _, ?_, answers_grpcBatchGet e clock hnil hvalid⟩
  rw [answers_restBatchGet e hlength' hnil]
  refine congrArg some (map_congr_left fun key hkey => ?_)
  rw [(hvalid key hkey).repair_eq, (valid_answer e hvalues key).repair_eq]

end SameGets

/-- The front ends are the same store exactly for batches without long keys or an oversized
body, and for reads without an empty key, as long as the gRPC messages fit. -/
theorem front_ends_agree_iff (b : Badger) (e : Engine) (size : Nat) (puts gets : Wire)
    (hputs : puts.Fits) (hgets : gets.Fits) (items : List Item) (clock : Nat → Int)
    (keys : List Utf8.Text) (hitems : 1 ≤ items.length ∧ items.length ≤ 10000)
    (hkeys : 1 ≤ keys.length ∧ keys.length ≤ 10000)
    (hvalues : ∀ key value, e.content.lookup key = some value → Utf8.Valid value) :
    (SamePuts b e size puts items ↔ ∀ item ∈ items, b.Admits item.toKeyValue →
        size ≤ 64 * 1024 * 1024 ∧ item.key.1.length ≤ 1024) ∧
    (SameGets e clock gets keys ↔ ∀ key ∈ keys, key.1 ≠ []) :=
  ⟨samePuts_iff b e size items hputs hitems, sameGets_iff e clock keys hgets hkeys hvalues⟩

/-- A Badger that only minds the length of keys. -/
def keyLimit : Badger where
  refuse item := if item.key.length > 65000 then some (.other "Key exceeded 65000 limit") else none
  refuseAll items := items.findSome? fun item =>
    if item.key.length > 65000 then some (.other "Key exceeded 65000 limit") else none
  refuse_of_refuseAll _ h := List.findSome?_eq_none_iff.mp h

/-- A store with one key. -/
def oneKey : Engine where
  content := (∅ : Storage.Content).insert [107] [118]
  emptyIsNil := true

/-- A call with messages of 2000 bytes, and the default limit. -/
def shortCall : Wire := ⟨2000, 2000, 4 * 1024 * 1024⟩

theorem front_ends_agree_iff_oneKey : SamePuts keyLimit oneKey 100 shortCall
      [⟨⟨[97], rfl⟩, ⟨[49], rfl⟩⟩, ⟨⟨[], rfl⟩, ⟨[50], rfl⟩⟩, ⟨⟨[97], rfl⟩, ⟨[51], rfl⟩⟩] ∧
    SameGets oneKey (fun _ => 0) shortCall [⟨[107], rfl⟩, ⟨[97], rfl⟩] := by
  have hfits : shortCall.Fits := ⟨by decide, by decide⟩
  have hvalues : ∀ key value, oneKey.content.lookup key = some value → Utf8.Valid value := by
    intro key value h
    have hvalue : value = [118] := by
      by_cases hkey : key = [107]
      · subst hkey
        exact Option.some.inj (h.symm.trans (AList.lookup_insert _))
      · cases h.symm.trans (AList.lookup_insert_ne hkey)
    rw [hvalue]
    rfl
  obtain ⟨hputs, hgets⟩ := front_ends_agree_iff keyLimit oneKey 100 _ _ hfits hfits
    [⟨⟨[97], rfl⟩, ⟨[49], rfl⟩⟩, ⟨⟨[], rfl⟩, ⟨[50], rfl⟩⟩, ⟨⟨[97], rfl⟩, ⟨[51], rfl⟩⟩]
    (fun _ => 0) [⟨[107], rfl⟩, ⟨[97], rfl⟩] (by decide) (by decide) hvalues
  exact ⟨hputs.mpr (by decide +kernel), hgets.mpr (by decide)⟩

/-- A key of 1025 bytes. -/
def longKey : Utf8.Text := ⟨List.replicate 1025 97, by decide +kernel⟩

/-- gRPC stores a key of 1025 bytes that REST refuses, and finds `k` beside an empty key, where
REST finds nothing. -/
theorem long_key_counterexample : shortCall.Fits ∧
      ¬ SamePuts keyLimit oneKey 2000 shortCall [⟨longKey, ⟨[49], rfl⟩⟩] ∧
      ¬ SameGets oneKey (fun _ => 0) shortCall [⟨[107], rfl⟩, ⟨[], rfl⟩] := by
  refine ⟨⟨by decide, by decide⟩, ?_, ?_⟩
  · rintro ⟨hstored, -⟩
    have hrest : (Api.batchPut keyLimit.faults oneKey 2000
        ([⟨longKey, ⟨[49], rfl⟩⟩].map Item.toREST)).2.1 = [] := by decide +kernel
    have hgrpc : (sendPuts keyLimit oneKey shortCall [⟨longKey, ⟨[49], rfl⟩⟩]).2 ≠ [] := by
      decide +kernel
    exact hgrpc (hstored ▸ hrest)
  · rintro ⟨-, answers, hrest, -⟩
    have hfails : (Api.batchGet oneKey [[107], []]).answers = none := by decide +kernel
    exact absurd (hfails.symm.trans hrest) nofun

end DistributedKV.Api
