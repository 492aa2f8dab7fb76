import DistributedKV.Lib.JsonDecode
import DistributedKV.Server.Grpc

/-!
# A value written with gRPC and read with REST

gRPC takes a value as bytes, and `Get` returns these bytes. The REST handlers turn the bytes into a
string of a JSON text, where `encoding/json` replaces every byte that is not part of a UTF-8
character. The responses of `GetKey` and `BatchGet` are modelled down to their texts and read by a
client that decodes the text into a record with the members it needs.
-/

namespace DistributedKV.Api

variable (f : FloatFormat)

open List

open Cache (Bytes Key)
open Storage (Engine BadgerError)
open Json

/-! ## The texts of responses -/

/-- How a `float64` is written: as some JSON number. -/
structure FloatFormat where
  text : Rat → List UInt8
  isNumber_text : ∀ q, isNumber (text q) = true
  isNumberByte_text : ∀ q, ∀ a ∈ text q, isNumberByte a = true

def FloatFormat.encode (q : Rat) : Value := .number (f.text q)

/-- A text of the program itself. -/
def encodeText (s : String) : Value := encodeString (bytes s)

def GetResponse.encode (r : GetResponse) : Value :=
  .object (member "found" (.bool r.found) ::
    (omitEmpty r.value.isEmpty "value" (encodeString r.value) ++
      omitEmpty r.error.isEmpty "error" (encodeText r.error)))

def ErrorResponse.encode (r : ErrorResponse) : Value :=
  .object [member "error" (encodeText r.error), member "code" (encodeNat r.code),
    member "message" (encodeText r.message)]

def GetBody.encode : GetBody → Value
  | .get r => r.encode
  | .error r => r.encode

def BatchItemResult.encode (r : BatchItemResult) : Value :=
  .object (member "key" (encodeString r.key) :: member "found" (.bool r.found) ::
    omitEmpty r.value.isEmpty "value" (encodeString r.value))

def BatchItemError.encode (r : BatchItemError) : Value :=
  .object [member "key" (encodeString r.key), member "error" (encodeText r.error)]

def BatchResponse.encode (r : BatchResponse) : Value :=
  .object (member "success_count" (encodeNat r.successCount) ::
    member "error_count" (encodeNat r.errorCount) ::
    member "total_count" (encodeNat r.totalCount) ::
    member "success_rate" (f.encode r.successRate) ::
    (omitEmpty r.results.isEmpty "results" (.array (r.results.map BatchItemResult.encode)) ++
      omitEmpty r.errors.isEmpty "errors" (.array (r.errors.map BatchItemError.encode))))

/-- The text of a response: `Encode` ends it with a line break. -/
def line (v : Value) : List UInt8 := render v ++ [0x0A]

/-- What `GetKey` writes. -/
def getKeyText (e : Engine) (key : Bytes) : List UInt8 := line (getKey e key).body.encode

/-- What `BatchGet` writes; it answers with a batch or an error. -/
def batchGetText (e : Engine) (keys : List Bytes) : Option (List UInt8) :=
  match (batchGet e keys).body with
  | .batch r => some (line (r.encode f))
  | .error r => some (line r.encode)
  | .list _ | .listKeys _ => none

/-! ## The client -/

/-- What a client reads of the answer for a key. -/
structure ReadItem where
  found : Bool := false
  value : Bytes := []
deriving DecidableEq, Repr

def ReadItem.fields : List (RecordField ReadItem) :=
  [.part (bytes "found") decodeBool (·.found) fun r b => { r with found := b },
    .part (bytes "value") decodeString (·.value) fun r s => { r with value := s }]

/-- What a client reads of the answer for a batch. -/
structure ReadBatch where
  results : List ReadItem := []

def ReadBatch.fields : List (RecordField ReadBatch) :=
  [.part (bytes "results") (decodeSlice {} (decodeStruct ReadItem.fields)) (·.results)
    fun r items => { r with results := items }]

/-- The answer of `GetKey` as a client reads it. -/
def readKey (e : Engine) (key : Bytes) : Option ReadItem :=
  unmarshal (decodeStruct ReadItem.fields) {} (getKeyText e key)

/-- The answer of `BatchGet` as a client reads it. -/
def readBatch (e : Engine) (keys : List Bytes) : Option ReadBatch :=
  (batchGetText f e keys).bind (unmarshal (decodeStruct ReadBatch.fields) {})

/-- The keys that `BatchGet` answers. -/
def Batchable (keys : List Bytes) : Prop := keys.length ≤ 10000 ∧ [] ∉ keys

/-- Both answers for a key have the value: that of `GetKey`, and that of `BatchGet` for any
batch. -/
def ReadsBack (e : Engine) (key : Key) (value : Bytes) : Prop :=
  readKey e key = some ⟨true, value⟩ ∧
    ∀ (keys : List Bytes) (i : Nat), Batchable keys → keys[i]? = some key →
      ∃ answer, readBatch f e keys = some answer ∧
        answer.results[i]? = some (⟨true, value⟩ : ReadItem)

/-- Two stores give different answers for a key. -/
def Distinct (e e' : Engine) (key : Key) : Prop :=
  getKeyText e key ≠ getKeyText e' key ∧
    ∀ keys, Batchable keys → key ∈ keys → batchGetText f e keys ≠ batchGetText f e' keys

/-! ## What a client reads -/

section Texts

variable {f : FloatFormat}

theorem fits_float (f : FloatFormat) (q : Rat) : Fits 0 (f.encode q) :=
  ⟨⟨f.isNumber_text q, f.isNumberByte_text q⟩, Nat.le_refl 0⟩

theorem GetResponse.fits_encode (r : GetResponse) : Fits 1 r.encode := by
  refine fits_object (forall_mem_cons.mpr ⟨fits_member "found" (fits_bool r.found), ?_⟩)
  exact forall_mem_append.mpr
    ⟨fits_omitEmpty (fits_encodeString r.value), fits_omitEmpty (fits_encodeString _)⟩

theorem BatchItemResult.fits_encode (r : BatchItemResult) : Fits 1 r.encode := by
  refine fits_object ?_
  rw [forall_mem_cons, forall_mem_cons]
  exact ⟨fits_member "key" (fits_encodeString r.key), fits_member "found" (fits_bool r.found),
    fits_omitEmpty (fits_encodeString r.value)⟩

theorem BatchItemError.fits_encode (r : BatchItemError) : Fits 1 r.encode := by
  refine fits_object ?_
  rw [forall_mem_cons, forall_mem_singleton]
  exact ⟨fits_member "key" (fits_encodeString r.key), fits_member "error" (fits_encodeString _)⟩

theorem BatchResponse.fits_encode (r : BatchResponse) : Fits 3 (r.encode f) := by
  have hcount : ∀ n, Fits 2 (encodeNat n) := fun n => (fits_encodeNat n).mono (by decide)
  have hresults : Fits 2 (.array (r.results.map BatchItemResult.encode)) :=
    fits_array (List.forall_mem_map.mpr fun item _ => item.fits_encode)
  have herrors : Fits 2 (.array (r.errors.map BatchItemError.encode)) :=
    fits_array (List.forall_mem_map.mpr fun item _ => item.fits_encode)
  refine fits_object ?_
  rw [forall_mem_cons, forall_mem_cons, forall_mem_cons, forall_mem_cons, forall_mem_append]
  exact ⟨fits_member "success_count" (hcount _), fits_member "error_count" (hcount _),
    fits_member "total_count" (hcount _),
    fits_member "success_rate" ((fits_float f _).mono (by decide)),
    fits_omitEmpty hresults, fits_omitEmpty herrors⟩

open ReadItem

/-- A value that is left out because it is empty is read as the empty value. -/
theorem decode_value (value : Bytes) (found : Bool) (rest : List (List UInt8 × Value)) :
    decodeMembers (storeField fields)
        (omitEmpty value.isEmpty "value" (encodeString value) ++ rest) ⟨found, []⟩ =
      decodeMembers (storeField fields) rest ⟨found, Utf8.repair value⟩ := by
  cases value with
  | nil => rfl
  | cons a value =>
    exact decodeMembers_part fields (bytes "value") (by decide) rfl
      (decodeString_encodeString []) rest

/-- The client reads the value of a response with every byte replaced that is not UTF-8. -/
theorem GetResponse.decode_encode (r : GetResponse) :
    decodeStruct fields r.encode {} = some ⟨r.found, Utf8.repair r.value⟩ := by
  have hfound := decodeMembers_part fields (bytes "found") (by decide) rfl
    (v := .bool r.found) (a := {}) rfl
    (omitEmpty r.value.isEmpty "value" (encodeString r.value) ++
      omitEmpty r.error.isEmpty "error" (encodeText r.error))
  refine hfound.trans ((decode_value r.value r.found _).trans ?_)
  cases r.error.isEmpty with
  | true => rfl
  | false => exact decodeMembers_skip fields "error" (by decide) rfl _ [] _

theorem BatchItemResult.decode_encode (r : BatchItemResult) :
    decodeStruct fields r.encode {} = some ⟨r.found, Utf8.repair r.value⟩ := by
  have hkey := decodeMembers_skip fields "key" (by decide) rfl
    (encodeString r.key) (member "found" (.bool r.found) ::
      omitEmpty r.value.isEmpty "value" (encodeString r.value)) {}
  have hfound := decodeMembers_part fields (bytes "found") (by decide) rfl
    (v := .bool r.found) (a := {}) rfl
    (omitEmpty r.value.isEmpty "value" (encodeString r.value))
  have hvalue := decode_value r.value r.found []
  rw [append_nil] at hvalue
  exact hkey.trans (hfound.trans hvalue)

theorem BatchResponse.decode_encode (r : BatchResponse) :
    decodeStruct ReadBatch.fields (r.encode f) {} =
      some ⟨r.results.map fun item => ⟨item.found, Utf8.repair item.value⟩⟩ := by
  have herrors : ∀ batch : ReadBatch, decodeMembers (storeField ReadBatch.fields)
      (omitEmpty r.errors.isEmpty "errors" (.array (r.errors.map BatchItemError.encode))) batch =
        some batch := by
    intro batch
    cases r.errors.isEmpty with
    | true => rfl
    | false => exact decodeMembers_skip ReadBatch.fields "errors" (by decide) rfl _ [] batch
  rw [BatchResponse.encode, decodeStruct, decodeMembers_skip _ "success_count" (by decide) rfl,
    decodeMembers_skip _ "error_count" (by decide) rfl,
    decodeMembers_skip _ "total_count" (by decide) rfl,
    decodeMembers_skip _ "success_rate" (by decide) rfl]
  cases hresults : r.results with
  | nil => exact herrors {}
  | cons item items =>
    have hitems : decodeSlice {} (decodeStruct fields)
        (.array ((item :: items).map BatchItemResult.encode)) [] = some _ :=
      decodeSlice_map BatchItemResult.decode_encode (item :: items) []
    exact (decodeMembers_part ReadBatch.fields (bytes "results") (by decide) rfl hitems _).trans
      (herrors _)

end Texts

/-! ## What is stored -/

variable {f : FloatFormat} {e e' : Engine} {key : Key} {value : Bytes}

theorem txnGet_of_put {fault : Option BadgerError}
    (h : Server.put fault e key value = (e', ⟨true, ""⟩)) : e'.content.txnGet key = .ok value := by
  unfold Server.put at h
  split at h
  · cases h
  rcases e.put_cases fault key value with ⟨err, hput⟩ | ⟨hkey, hput⟩ <;> rw [hput] at h
  · cases h
  · rw [← (Prod.mk.inj h).1]
    exact Storage.Content.txnGet_insert_self hkey

theorem readKey_of_txnGet (h : e.content.txnGet key = .ok value) :
    readKey e key = some ⟨true, Utf8.repair value⟩ := by
  have hreply : getKey e key = ⟨200, .get ⟨true, value, ""⟩⟩ := by
    rw [getKey, if_neg (Storage.Content.ne_nil_of_txnGet h), e.get_of_txnGet h]
    dsimp only
    rw [e.valueCopy_getD]
  rw [readKey, getKeyText, hreply]
  show unmarshal _ _ (render (GetResponse.encode ⟨true, value, ""⟩) ++ [0x0A]) = _
  rw [unmarshal_line (GetResponse.fits_encode _) (by decide), GetResponse.decode_encode]

/-- `BatchGet` answers every key by itself. -/
theorem batchGet_results {keys : List Bytes} (h : Batchable keys) (hne : keys ≠ []) :
    ∃ r : BatchResponse, (batchGet e keys).body = .batch r ∧ r.results = keys.map fun key =>
        ⟨key, (Engine.answer e.content key).found, (Engine.answer e.content key).value⟩ := by
  have hlength : keys.length ≠ 0 := mt length_eq_zero_iff.mp hne
  rw [batchGet, if_neg hlength, if_neg (Nat.not_lt.mpr h.1), e.batchGet_of_nonempty h.2]
  refine ⟨_, rfl, ?_⟩
  have hzip : keys.zip (keys.map (Engine.answer e.content)) =
      keys.map fun key => (key, Engine.answer e.content key) := by
    have hboth : (keys.map id).zip (keys.map (Engine.answer e.content)) = _ := zip_map'
    rwa [map_id] at hboth
  rw [hzip, map_map]
  refine map_congr_left fun key _ => ?_
  dsimp only [Function.comp_apply]
  unfold Engine.answer
  cases e.content.txnGet key <;> rfl

theorem readBatch_eq {keys : List Bytes} (h : Batchable keys) (hne : keys ≠ []) :
    readBatch f e keys = some ⟨keys.map fun key =>
      ⟨(Engine.answer e.content key).found, Utf8.repair (Engine.answer e.content key).value⟩⟩ := by
  obtain ⟨r, hbody, hresults⟩ := batchGet_results (e := e) h hne
  rw [readBatch, batchGetText, hbody]
  show unmarshal _ _ (render (r.encode f) ++ [0x0A]) = _
  rw [unmarshal_line r.fits_encode (by decide), r.decode_encode, hresults, map_map]
  rfl

/-! ## Fidelity -/

/-- Both answers for a key have the stored value exactly if it is UTF-8. -/
theorem readsBack_iff (f : FloatFormat) (h : e.content.txnGet key = .ok value) :
    ReadsBack f e key value ↔ Utf8.Valid value := by
  have hread := readKey_of_txnGet h
  constructor
  · rintro ⟨hkey, -⟩
    rw [hread, Option.some.injEq, ReadItem.mk.injEq] at hkey
    exact Utf8.repair_eq_iff.mp hkey.2
  intro hvalid
  rw [hvalid.repair_eq] at hread
  refine ⟨hread, fun keys i hbatch hi => ?_⟩
  have hne : keys ≠ [] := by
    rintro rfl
    cases hi
  have hanswer : Engine.answer e.content key = ⟨key, value, true⟩ := by
    rw [Engine.answer, h]
  refine ⟨_, readBatch_eq hbatch hne, ?_⟩
  rw [getElem?_map, hi, Option.map_some, hanswer, hvalid.repair_eq]

theorem ReadsBack.distinct {value' : Bytes} (h : ReadsBack f e key value)
    (h' : ReadsBack f e' key value') (hne : value ≠ value') : Distinct f e e' key := by
  have hread : (⟨true, value⟩ : ReadItem) ≠ ⟨true, value'⟩ := by
    rw [Ne, ReadItem.mk.injEq]
    exact fun heq => hne heq.2
  constructor
  · intro htext
    have hsame : readKey e key = readKey e' key := by
      rw [readKey, readKey, htext]
    rw [h.1, h'.1, Option.some.injEq] at hsame
    exact hread hsame
  intro keys hbatch hkey htext
  obtain ⟨i, hi⟩ := getElem?_of_mem hkey
  obtain ⟨answer, hanswer, hitem⟩ := h.2 keys i hbatch hi
  obtain ⟨answer', hanswer', hitem'⟩ := h'.2 keys i hbatch hi
  have hsame : readBatch f e keys = readBatch f e' keys := by
    rw [readBatch, readBatch, htext]
  rw [hanswer, hanswer', Option.some.injEq] at hsame
  rw [hsame, hitem', Option.some.injEq] at hitem
  exact hread hitem.symm

/-- **Values across the two protocols.** For any two values that `Put` of gRPC stores under a
key: the answers of `GetKey` and of `BatchGet` have the values as they were written, and are
different if the values are, exactly if both values are UTF-8. -/
theorem fidelity_iff (f : FloatFormat) {fault fault' : Option BadgerError} {before : Engine}
    {value' : Bytes} (hput : Server.put fault before key value = (e, ⟨true, ""⟩))
    (hput' : Server.put fault' before key value' = (e', ⟨true, ""⟩)) :
    (ReadsBack f e key value ∧ ReadsBack f e' key value' ∧ (value ≠ value' → Distinct f e e' key)) ↔
      Utf8.Valid value ∧ Utf8.Valid value' := by
  rw [readsBack_iff f (txnGet_of_put hput), readsBack_iff f (txnGet_of_put hput')]
  constructor
  · rintro ⟨hvalid, hvalid', -⟩
    exact ⟨hvalid, hvalid'⟩
  rintro ⟨hvalid, hvalid'⟩
  have hreads := (readsBack_iff f (txnGet_of_put hput)).mpr hvalid
  have hreads' := (readsBack_iff f (txnGet_of_put hput')).mpr hvalid'
  exact ⟨hvalid, hvalid', hreads.distinct hreads'⟩

/-- A store that holds one value under the key `k`. -/
def holding (value : Bytes) : Engine := ⟨AList.singleton [0x6B] value, false⟩

/-- Floats that all are written as zero. -/
def zeroFormat : FloatFormat where
  text _ := [0x30]
  isNumber_text _ := rfl
  isNumberByte_text _ a ha := by
    rw [List.mem_singleton.mp ha]
    rfl

theorem fidelity_letters : ReadsBack zeroFormat (holding [0x61]) [0x6B] [0x61] ∧
      ReadsBack zeroFormat (holding [0x62]) [0x6B] [0x62] ∧
      Distinct zeroFormat (holding [0x61]) (holding [0x62]) [0x6B] := by
  have hput : ∀ value, Server.put none ⟨∅, false⟩ [0x6B] value = (holding value, ⟨true, ""⟩) :=
    fun _ => rfl
  obtain ⟨hfirst, hsecond, hdistinct⟩ :=
    (fidelity_iff zeroFormat (hput [0x61]) (hput [0x62])).mpr ⟨by decide, by decide⟩
  exact ⟨hfirst, hsecond, hdistinct (by decide)⟩

/-- The bytes FF and FE, which gRPC returns as they are, are both read as the replacement
character. -/
theorem fidelity_counterexample :
    Server.put none ⟨∅, false⟩ [0x6B] [0xFF] = (holding [0xFF], ⟨true, ""⟩) ∧
      Server.put none ⟨∅, false⟩ [0x6B] [0xFE] = (holding [0xFE], ⟨true, ""⟩) ∧
      Server.get (holding [0xFF]) [0x6B] = .ok ⟨true, [0xFF], ""⟩ ∧
      readKey (holding [0xFF]) [0x6B] = some ⟨true, [0xEF, 0xBF, 0xBD]⟩ ∧
      getKeyText (holding [0xFF]) [0x6B] = getKeyText (holding [0xFE]) [0x6B] ∧
      batchGetText zeroFormat (holding [0xFF]) [[0x6B]] =
        batchGetText zeroFormat (holding [0xFE]) [[0x6B]] := by
  refine ⟨rfl, rfl, rfl, ?_, ?_, ?_⟩ <;> decide +kernel

end DistributedKV.Api
