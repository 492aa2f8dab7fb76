import DistributedKV.Storage.Engine

/-!
# The REST handlers

`GetKey` and the listing and batch handlers of `internal/api/rest.go`, up to the response value
that goes to `writeJSONResponse`; logging is left out. Strings are the bytes Go has for them.
Arguments are the orders of loops over maps, the clock (read for every listed item) and Badger's
own failures. A batch handler also returns the items it counts as stored.
-/

namespace DistributedKV.Api

open Cache (Bytes Key)
open Storage (Engine BadgerError)

/-- An entry of a listing. -/
abbrev Listed := (_ : Key) × Bytes

/-! ## Responses -/

/-- `KeyValue`. -/
structure KeyValue where
  key : Bytes
  value : Bytes
  createdAt : Int
  expiresAt : Int

/-- `ListResponse`. -/
structure ListResponse where
  items : List KeyValue
  count : Nat
  hasMore : Bool
  nextCursor : Bytes
  error : String

/-- `ListKeysResponse`. -/
structure ListKeysResponse where
  keys : List Bytes
  count : Nat
  hasMore : Bool
  nextCursor : Bytes
  error : String

/-- `BatchItemResult`. -/
structure BatchItemResult where
  key : Bytes
  found : Bool
  value : Bytes

/-- `BatchItemError`. -/
structure BatchItemError where
  key : Bytes
  error : String

/-- `BatchResponse`. The success rate is exact here, a `float64` in the source. -/
structure BatchResponse where
  successCount : Nat
  errorCount : Nat
  totalCount : Nat
  successRate : Rat
  results : List BatchItemResult
  errors : List BatchItemError

/-- `ErrorResponse`. -/
structure ErrorResponse where
  error : String
  code : Nat
  message : String

inductive Body where
  | list (r : ListResponse)
  | listKeys (r : ListKeysResponse)
  | batch (r : BatchResponse)
  | error (r : ErrorResponse)

/-- The status code and the value encoded as JSON. -/
structure Reply where
  status : Nat
  body : Body

/-- `http.StatusText`, of the codes the handlers answer errors with. -/
def statusText : Nat → String
  | 400 => "Bad Request"
  | 500 => "Internal Server Error"
  | _ => ""

/-- `writeErrorResponse`. -/
def writeErrorResponse (status : Nat) (message : String) : Reply :=
  ⟨status, .error ⟨message, status, statusText status⟩⟩

/-! ## Single keys -/

/-- `GetResponse`. The handler does not set the two times. -/
structure GetResponse where
  found : Bool
  value : Bytes
  error : String

inductive GetBody where
  | get (r : GetResponse)
  | error (r : ErrorResponse)

structure GetReply where
  status : Nat
  body : GetBody

/-- `GetKey`. -/
def getKey (e : Engine) (key : Bytes) : GetReply :=
  if key = [] then ⟨400, .error ⟨"Key cannot be empty", 400, statusText 400⟩⟩
  else match e.get key with
    | (_, some .keyNotFound) => ⟨404, .get ⟨false, [], ""⟩⟩
    | (_, some err) => ⟨500, .get ⟨false, [], err.text⟩⟩
    | (value, none) => ⟨200, .get ⟨true, value.getD [], ""⟩⟩

/-! ## Listing -/

/-- The digits of `strconv.Atoi`: at least one, and nothing else. -/
def atoiDigits (cs : List Char) : Option Nat :=
  if cs ≠ [] ∧ cs.all Char.isDigit then some (Nat.ofDigitChars 10 cs 0) else none

/-- `strconv.Atoi`: a sign or none, digits, and a number that fits into 64 bits. -/
def atoi (s : String) : Option Int :=
  let number : Option Int :=
    match s.toList with
    | '-' :: cs => (atoiDigits cs).map fun n => -(n : Int)
    | '+' :: cs => (atoiDigits cs).map Int.ofNat
    | cs => (atoiDigits cs).map Int.ofNat
  number.filter fun n => -9223372036854775808 ≤ n ∧ n ≤ 9223372036854775807

/-- The limit that `ListKeys` takes from the query. -/
def listLimit (limitStr : String) : Int :=
  if limitStr ≠ "" then
    match atoi limitStr with
    | some l => if l > 0 then l else 100
    | none => 100
  else 100

/-- The query of `ListKeys`. -/
structure ListQuery where
  keyPrefix : Bytes
  limit : String
  cursor : Bytes
  keysOnly : Bool

/-- `handleListResponse`. -/
def handleListResponse (data : GoMap Key Bytes) (limit : Int) (order : IterationOrder Listed)
    (clock : Nat → Int) : Reply :=
  let items := (data.rangeUntil order limit).mapIdx fun i entry =>
    (⟨entry.1, entry.2, clock i, 0⟩ : KeyValue)
  ⟨200, .list ⟨items, items.length, decide (limit > 0 ∧ data.len > limit), [], ""⟩⟩

/-- `handleListKeysResponse`. -/
def handleListKeysResponse (data : GoMap Key Bytes) (limit : Int)
    (order : IterationOrder Listed) : Reply :=
  let keys := (data.rangeUntil order limit).map Sigma.fst
  ⟨200, .listKeys ⟨keys, keys.length, decide (limit > 0 ∧ data.len > limit), [], ""⟩⟩

/-- `ListKeys`. The cursor is read, and logged. -/
def listKeys (e : Engine) (query : ListQuery) (order : IterationOrder Listed)
    (clock : Nat → Int) : Reply :=
  let limit := listLimit query.limit
  match e.list query.keyPrefix with
  | (_, some err) =>
    if query.keysOnly then ⟨500, .listKeys ⟨[], 0, false, [], err.text⟩⟩
    else ⟨500, .list ⟨[], 0, false, [], err.text⟩⟩
  | (data, none) =>
    if query.keysOnly then handleListKeysResponse data limit order
    else handleListResponse data limit order clock

/-! ## Batches -/

/-- `BatchPutItem`. The handler does not read `ttl_seconds`. -/
structure BatchPutItem where
  key : Bytes
  value : Bytes

/-- Badger's failures during a request: of the batch, and of the `i`-th transaction that puts
one item. -/
structure Faults where
  batch : List Storage.KeyValue → Option BadgerError
  put : Nat → Storage.KeyValue → Option BadgerError

/-- What a loop of puts leaves: the engine, the stored items and the errors. -/
structure Puts where
  engine : Engine
  stored : List Storage.KeyValue
  errors : List BatchItemError

/-- A loop that puts items one by one, with the items it has stored and the errors of the
others. An item that fails a check of the handler is not put. -/
def putEach (check : Storage.KeyValue → Option String)
    (fault : Nat → Storage.KeyValue → Option BadgerError) (i : Nat) (e : Engine) :
    List Storage.KeyValue → Puts
  | [] => ⟨e, [], []⟩
  | item :: items =>
    match check item with
    | some error =>
      let r := putEach check fault (i + 1) e items
      { r with errors := ⟨item.key, error⟩ :: r.errors }
    | none =>
      match e.put (fault i item) item.key item.value with
      | (e', some err) =>
        let r := putEach check fault (i + 1) e' items
        { r with errors := ⟨item.key, err.text⟩ :: r.errors }
      | (e', none) =>
        let r := putEach check fault (i + 1) e' items
        { r with stored := item :: r.stored }

/-- The check of `BatchPut`. -/
def checkItem (item : Storage.KeyValue) : Option String :=
  if item.key = [] then some "key cannot be empty"
  else if item.key.length > 1024 then some "key exceeds maximum length of 1024 bytes"
  else none

/-- The item that `BatchPut` hands to the storage engine. -/
def BatchPutItem.toKeyValue (item : BatchPutItem) : Storage.KeyValue :=
  ⟨item.key, item.value, false⟩

/-- The items that pass the check. -/
def validItems (items : List BatchPutItem) : List Storage.KeyValue :=
  (items.map BatchPutItem.toKeyValue).filter fun item => (checkItem item).isNone

/-- The errors of those that do not. -/
def invalidItems (items : List BatchPutItem) : List BatchItemError :=
  (items.map BatchPutItem.toKeyValue).filterMap fun item =>
    (checkItem item).map (⟨item.key, ·⟩)

/-- The storage calls of `BatchPut`: one transaction, or single puts if it fails. -/
def storeItems (faults : Faults) (e : Engine) (items : List Storage.KeyValue) : Puts :=
  if items.length > 0 then
    match e.batchPut (faults.batch items) items with
    | (e', some _) => putEach (fun _ => none) faults.put 0 e' items
    | (e', none) => ⟨e', items, []⟩
  else ⟨e, [], []⟩

/-- The response of `BatchPut`. -/
def batchPutReply (successCount : Nat) (errors : List BatchItemError) : Reply :=
  let errorCount := errors.length
  let totalCount := successCount + errorCount
  let successRate : Rat := if totalCount > 0 then successCount / totalCount * 100 else 0
  let status := if errorCount > 0 then (if successCount = 0 then 400 else 206) else 200
  ⟨status, .batch ⟨successCount, errorCount, totalCount, successRate, [], errors⟩⟩

/-- `BatchPut` for a JSON text of `size` bytes: the engine, the stored items and the response.
-/
def batchPut (faults : Faults) (e : Engine) (size : Nat) (items : List BatchPutItem) :
    Engine × List Storage.KeyValue × Reply :=
  -- `MaxBytesReader` makes the decoder fail on a longer body.
  if size > 64 * 1024 * 1024 then (e, [], writeErrorResponse 400 "Invalid JSON request")
  else if items.length = 0 then (e, [], writeErrorResponse 400 "Items list cannot be empty")
  else if items.length > 10000 then
    (e, [], writeErrorResponse 400 "Batch size exceeds maximum of 10000 items")
  else
    let r := storeItems faults e (validItems items)
    (r.engine, r.stored, batchPutReply r.stored.length (invalidItems items ++ r.errors))

/-- `BatchGet`. -/
def batchGet (e : Engine) (keys : List Bytes) : Reply :=
  if keys.length = 0 then writeErrorResponse 400 "Keys list cannot be empty"
  else if keys.length > 10000 then
    writeErrorResponse 400 "Batch size exceeds maximum of 10000 keys"
  else
    match e.batchGet keys with
    | (_, some _) => writeErrorResponse 500 "Batch GET failed"
    | (storageResults, none) =>
      -- `storageResults` has one result per key, in the order of the keys.
      let results := (keys.zip storageResults).map fun (key, sr) =>
        if sr.found then (⟨key, true, sr.value⟩ : BatchItemResult) else ⟨key, false, []⟩
      let foundCount := storageResults.countP (·.found)
      ⟨200, .batch ⟨foundCount, keys.length - foundCount, keys.length,
        (foundCount : Rat) / keys.length * 100, results, []⟩⟩

/-! ## What the batches leave in the store -/

section Stored

variable {e : Engine} {faults : Faults} {items : List Storage.KeyValue}

/-- The store after single puts has the stored items, in their order. -/
theorem engine_putEach (check : Storage.KeyValue → Option String)
    (fault : Nat → Storage.KeyValue → Option BadgerError) (i : Nat) :
    (putEach check fault i e items).engine =
      { e with content := e.content.putAll (putEach check fault i e items).stored } := by
  induction items generalizing i e with
  | nil => rfl
  | cons item items ih =>
    unfold putEach
    cases check item with
    | some error => exact ih (i + 1)
    | none =>
      obtain ⟨err, hput⟩ | ⟨-, hput⟩ := e.put_cases (fault i item) item.key item.value <;>
        simp only [hput]
      · exact ih (i + 1)
      · exact ih (i + 1)

theorem engine_storeItems : (storeItems faults e items).engine =
      { e with content := e.content.putAll (storeItems faults e items).stored } := by
  unfold storeItems
  split
  case isFalse => rfl
  case isTrue =>
    obtain ⟨err, h⟩ | ⟨-, h⟩ := e.batchPut_cases (faults.batch items) items <;> simp only [h]
    exact engine_putEach _ _ _

/-- The store after `BatchPut` has the items that it counts as stored, in their order. -/
theorem engine_batchPut (size : Nat) (items : List BatchPutItem) :
    (batchPut faults e size items).1 =
      { e with content := e.content.putAll (batchPut faults e size items).2.1 } := by
  unfold batchPut
  split
  case isTrue => rfl
  case isFalse =>
    split
    case isTrue => rfl
    case isFalse =>
      split
      case isTrue => rfl
      case isFalse => exact engine_storeItems

end Stored

/-- The time stamps in a response do not matter for what does not depend on them. -/
theorem map_mapIdx {α β γ : Type*} (f : Nat → α → β) (g : β → γ) (h : α → γ)
    (hfg : ∀ i a, g (f i a) = h a) (l : List α) : (l.mapIdx f).map g = l.map h := by
  refine List.ext_getElem (by simp) fun i _ _ => ?_
  simp [hfg]

end DistributedKV.Api
