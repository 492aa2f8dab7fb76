import DistributedKV.Api.Rest

/-!
# The gRPC handlers

`Put`, `Get` and the listing and batch methods of `internal/server/grpc_server.go`, up to the
message that they return, over the same storage engine as the REST handlers. The loop of single
puts is the one the REST handler falls back to, with a check of its own.
-/

namespace DistributedKV.Server

variable (e : Engine)

open Cache (Bytes Key)
open Storage (Engine BadgerError)
open Api (Listed)

/-! ## Messages -/

/-- `ListRequest` and `ListKeysRequest`, which have the same fields. -/
structure ListRequest where
  keyPrefix : Bytes
  limit : Int32
  cursor : Bytes

/-- `KeyValue`. -/
structure KeyValue where
  key : Bytes
  value : Bytes
  createdAt : Int
  expiresAt : Int

/-- `ListResponse`. -/
structure ListResponse where
  items : List KeyValue
  nextCursor : Bytes
  hasMore : Bool
  error : String

/-- `ListKeysResponse`. -/
structure ListKeysResponse where
  keys : List Bytes
  nextCursor : Bytes
  hasMore : Bool
  error : String

/-- `PutItem`. The handler does not read `ttl_seconds`. -/
structure PutItem where
  key : Bytes
  value : Bytes

/-- `BatchError`. -/
structure BatchError where
  key : Bytes
  error : String

/-- `BatchPutResponse`. -/
structure BatchPutResponse where
  successCount : Int32
  errorCount : Int32
  errors : List BatchError

/-- `GetResult`. -/
structure GetResult where
  key : Bytes
  found : Bool
  value : Bytes
  createdAt : Int
  expiresAt : Int

/-- `PutResponse`. -/
structure PutResponse where
  success : Bool
  error : String

/-- `GetResponse`. The handler does not set the two times. -/
structure GetResponse where
  found : Bool
  value : Bytes
  error : String

/-! ## Single keys -/

/-- `Put`; `fault` is a failure of Badger's own. -/
def put (fault : Option BadgerError) (e : Engine) (key value : Bytes) : Engine × PutResponse :=
  if key = [] then (e, ⟨false, "key cannot be empty"⟩)
  else match e.put fault key value with
    | (e', some err) => (e', ⟨false, err.text⟩)
    | (e', none) => (e', ⟨true, ""⟩)

/-- `Get`, or the message of its status error. -/
def get (e : Engine) (key : Bytes) : Except String GetResponse :=
  if key = [] then .error "key cannot be empty"
  else match e.get key with
    | (_, some .keyNotFound) => .ok ⟨false, [], ""⟩
    | (_, some err) => .ok ⟨false, [], err.text⟩
    | (value, none) => .ok ⟨true, value.getD [], ""⟩

/-! ## Listing -/

/-- `List`. The cursor of the request is not read. -/
def list (e : Engine) (req : ListRequest) (order : IterationOrder Listed) (clock : Nat → Int) :
    ListResponse :=
  match e.list req.keyPrefix with
  | (_, some err) => ⟨[], [], false, err.text⟩
  | (items, none) =>
    let limit := req.limit.toInt
    let kvItems := (items.rangeUntil order limit).mapIdx fun i entry =>
      (⟨entry.1, entry.2, clock i, 0⟩ : KeyValue)
    ⟨kvItems, [], decide (limit > 0 ∧ items.len > limit), ""⟩

/-- `ListKeys`. -/
def listKeys (req : ListRequest) (order : IterationOrder Listed) :
    ListKeysResponse :=
  match e.list req.keyPrefix with
  | (_, some err) => ⟨[], [], false, err.text⟩
  | (items, none) =>
    let limit := req.limit.toInt
    let keys := (items.rangeUntil order limit).map Sigma.fst
    ⟨keys, [], decide (limit > 0 ∧ items.len > limit), ""⟩

/-! ## Batches -/

/-- The check of `BatchPut`. -/
def checkItem (item : Storage.KeyValue) : Option String :=
  if item.key = [] then some "key cannot be empty" else none

/-- The arguments of the `Put` for an item. -/
def PutItem.toKeyValue (item : PutItem) : Storage.KeyValue := ⟨item.key, item.value, false⟩

/-- `BatchPut`: the engine, the stored items and the response. -/
def batchPut (fault : Nat → Storage.KeyValue → Option BadgerError) (e : Engine)
    (items : List PutItem) : Engine × List Storage.KeyValue × BatchPutResponse :=
  let r := Api.putEach checkItem fault 0 e (items.map PutItem.toKeyValue)
  (r.engine, r.stored,
    { successCount := Int32.ofNat r.stored.length
      errorCount := Int32.ofNat r.errors.length
      errors := r.errors.map fun err => ⟨err.key, err.error⟩ })

/-- The result of `BatchGet` for a key. -/
def getResult (now : Int) (key : Bytes) : GetResult :=
  if key = [] then ⟨key, false, [], 0, 0⟩
  else match e.get key with
    | (_, some _) => ⟨key, false, [], 0, 0⟩
    | (value, none) => ⟨key, true, value.getD [], now, 0⟩

/-- `BatchGet`. -/
def batchGet (clock : Nat → Int) (keys : List Bytes) : List GetResult :=
  keys.mapIdx fun i key => getResult e (clock i) key

end DistributedKV.Server
