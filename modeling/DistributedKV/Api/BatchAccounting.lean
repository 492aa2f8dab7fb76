import DistributedKV.Api.Rest

/-!
# What REST `BatchPut` reports and what it stores

A batch is stored in one transaction or, if that fails, by one put for each item. Either way every
item of the request has one verdict, an error text or none, and everything else follows from the
verdicts. The failures of the transaction and of the puts are arguments (`Faults`).
-/

namespace DistributedKV.Api

variable (faults : Faults)

open List

open Storage (Engine BadgerError StorageError)

/-! ## Verdicts -/

/-- The verdict on each item: the error of the handler's check, or the failure of the storage
call, where `failure j` is for the `j`-th item that passes the check. -/
def verdicts (failure : Nat → Storage.KeyValue → Option String) :
    Nat → List Storage.KeyValue → List (Storage.KeyValue × Option String)
  | _, [] => []
  | j, item :: items =>
    match checkItem item with
    | some error => (item, some error) :: verdicts failure j items
    | none => (item, failure j item) :: verdicts failure (j + 1) items

/-- The items without an error. -/
def storedOf (vs : List (Storage.KeyValue × Option String)) : List Storage.KeyValue :=
  (vs.filter fun v => v.2.isNone).map Prod.fst

/-- The errors of the others. -/
def errorsOf (vs : List (Storage.KeyValue × Option String)) : List BatchItemError :=
  vs.filterMap fun v => v.2.map (⟨v.1.key, ·⟩)

/-- What the storage calls make of the valid items: the transaction commits, or the single puts
decide. -/
def storageFailure (valid : List Storage.KeyValue) (j : Nat)
    (item : Storage.KeyValue) : Option String :=
  match faults.batch valid with
  | none => none
  | some _ => (faults.put j item).map fun err => (StorageError.badger err).text

/-- The verdicts on the items of a request. -/
def batchVerdicts (items : List BatchPutItem) :
    List (Storage.KeyValue × Option String) :=
  verdicts (storageFailure faults (validItems items)) 0 (items.map BatchPutItem.toKeyValue)

theorem map_fst_verdicts (failure : Nat → Storage.KeyValue → Option String) (j : Nat)
    (items : List Storage.KeyValue) : (verdicts failure j items).map Prod.fst = items := by
  induction items generalizing j with
  | nil => rfl
  | cons item items ih =>
    unfold verdicts
    cases checkItem item with
    | some error => exact congrArg (item :: ·) (ih j)
    | none => exact congrArg (item :: ·) (ih (j + 1))

theorem length_storedOf_add (vs : List (Storage.KeyValue × Option String)) :
    (storedOf vs).length + (errorsOf vs).length = vs.length := by
  induction vs with
  | nil => rfl
  | cons v vs ih =>
    obtain ⟨item, verdict⟩ := v
    cases verdict with
    | none =>
      show (storedOf vs).length + 1 + (errorsOf vs).length = vs.length + 1
      omega
    | some error =>
      show (storedOf vs).length + ((errorsOf vs).length + 1) = vs.length + 1
      omega

/-! ## The two ways of a batch -/

variable {item : Storage.KeyValue}

theorem key_ne_nil_of_checkItem (h : checkItem item = none) : item.key ≠ [] := by
  intro hkey
  simp [checkItem, hkey] at h

/-- On a key that is not empty only Badger's own failures make a put fail. -/
theorem put_of_key_ne_nil (e : Engine) (fault : Option BadgerError) (hkey : item.key ≠ []) :
    e.put fault item.key item.value =
      match fault with
      | some err => (e, some (.badger err))
      | none => ({ e with content := e.content.insert item.key item.value }, none) := by
  cases fault with
  | some err => rfl
  | none => simp [Engine.put, Engine.write, Storage.Content.update, Storage.Content.txnSet, hkey]

theorem batchPut_of_keys_ne_nil (e : Engine) (fault : Option BadgerError)
    {items : List Storage.KeyValue} (hkeys : ∀ item ∈ items, item.key ≠ []) :
    e.batchPut fault items =
      match fault with
      | some err => (e, some (.badger err))
      | none => ({ e with content := e.content.putAll items }, none) := by
  cases fault with
  | some err => rfl
  | none =>
    simp only [Engine.batchPut, Engine.write, Storage.Content.update,
      Storage.Content.foldlM_txnSet, if_pos hkeys]
    rfl

/-- The errors of the check, as `invalidItems` has them. -/
def checkErrors (items : List Storage.KeyValue) : List BatchItemError :=
  items.filterMap fun item => (checkItem item).map (⟨item.key, ·⟩)

theorem checkErrors_cons_some {error : String} (h : checkItem item = some error)
    (items : List Storage.KeyValue) :
    checkErrors (item :: items) = ⟨item.key, error⟩ :: checkErrors items :=
  filterMap_cons_some (by rw [h]; rfl)

theorem checkErrors_cons_none (h : checkItem item = none) (items : List Storage.KeyValue) :
    checkErrors (item :: items) = checkErrors items :=
  filterMap_cons_none (by rw [h]; rfl)

/-- A loop's result agrees with verdicts: it stored what has no error, and its errors and those
of the check, which come first, are the errors there are. -/
structure Agrees (items : List Storage.KeyValue) (r : Puts)
    (vs : List (Storage.KeyValue × Option String)) : Prop where
  stored : r.stored = storedOf vs
  errors : (checkErrors items ++ r.errors).Perm (errorsOf vs)

/-- The transaction commits: the items that pass the check are stored. -/
theorem agrees_of_commit (items : List Storage.KeyValue) (j : Nat) (e : Engine) :
    Agrees items ⟨e, items.filter fun item => (checkItem item).isNone, []⟩
      (verdicts (fun _ _ => none) j items) := by
  induction items generalizing j with
  | nil => exact ⟨rfl, .nil⟩
  | cons item items ih =>
    unfold verdicts
    cases hcheck : checkItem item with
    | some error =>
      obtain ⟨hstored, herrors⟩ := ih j
      constructor
      · rw [filter_cons_of_neg (by simp [hcheck])]
        exact hstored
      · rw [checkErrors_cons_some hcheck]
        exact herrors.cons _
    | none =>
      obtain ⟨hstored, herrors⟩ := ih (j + 1)
      constructor
      · rw [filter_cons_of_pos (by simp [hcheck])]
        exact congrArg (item :: ·) hstored
      · rw [checkErrors_cons_none hcheck]
        exact herrors

/-- The transaction fails: the single puts decide. -/
theorem agrees_of_putEach (fault : Nat → Storage.KeyValue → Option BadgerError)
    (items : List Storage.KeyValue) (j : Nat) (e : Engine) : Agrees items
      (putEach (fun _ => none) fault j e (items.filter fun item => (checkItem item).isNone))
      (verdicts (fun j item => (fault j item).map fun err => (StorageError.badger err).text)
        j items) := by
  induction items generalizing j e with
  | nil => exact ⟨rfl, .nil⟩
  | cons item items ih =>
    unfold verdicts
    cases hcheck : checkItem item with
    | some error =>
      -- no put for this item, its error is in front
      obtain ⟨hstored, herrors⟩ := ih j e
      rw [filter_cons_of_neg (by simp [hcheck])]
      constructor
      · exact hstored
      · rw [checkErrors_cons_some hcheck]
        exact herrors.cons _
    | none =>
      have hput := put_of_key_ne_nil e (fault j item) (key_ne_nil_of_checkItem hcheck)
      rw [filter_cons_of_pos (by simp [hcheck]), putEach]
      cases hfault : fault j item with
      | some err =>
        -- the put fails: its error comes behind those of the check
        obtain ⟨hstored, herrors⟩ := ih (j + 1) e
        constructor
        · exact hstored
        · rw [checkErrors_cons_none hcheck]
          exact perm_middle.trans (herrors.cons _)
      | none =>
        simp only [hfault] at hput
        simp only [hput, Option.map_none]
        obtain ⟨hstored, herrors⟩ :=
          ih (j + 1) { e with content := e.content.insert item.key item.value }
        constructor
        · exact congrArg (item :: ·) hstored
        · rw [checkErrors_cons_none hcheck]
          exact herrors

theorem key_ne_nil_of_mem_validItems {items : List BatchPutItem} (h : item ∈ validItems items) :
    item.key ≠ [] := by
  obtain ⟨-, hcheck⟩ := mem_filter.mp h
  exact key_ne_nil_of_checkItem (Option.isNone_iff_eq_none.mp hcheck)

open BatchPutItem

/-- Whichever way the batch takes, its result agrees with the verdicts. -/
theorem agrees_storeItems (e : Engine) (items : List BatchPutItem) :
    Agrees (items.map toKeyValue) (storeItems faults e (validItems items))
      (batchVerdicts faults items) := by
  have hbatch := batchPut_of_keys_ne_nil e (faults.batch (validItems items))
    fun item (hitem : item ∈ validItems items) => key_ne_nil_of_mem_validItems hitem
  unfold batchVerdicts storageFailure storeItems
  cases hfault : faults.batch (validItems items) with
  | none =>
    simp only [hfault] at hbatch
    simp only [hbatch]
    split
    · exact agrees_of_commit _ 0 _
    next hempty =>
      have hnil : validItems items = [] := length_eq_zero_iff.mp (by omega)
      have hagrees := agrees_of_commit (items.map toKeyValue) 0 e
      rw [show (items.map toKeyValue).filter _ = _ from hnil] at hagrees
      exact hagrees
  | some err =>
    split
    · exact agrees_of_putEach faults.put _ 0 e
    next hempty =>
      have hnil : validItems items = [] := length_eq_zero_iff.mp (by omega)
      have hagrees := agrees_of_putEach faults.put (items.map toKeyValue) 0 e
      rw [show (items.map toKeyValue).filter _ = _ from hnil] at hagrees
      exact hagrees

/-! ## The response -/

/-- **`BatchPut` accounts for every item.** For every accepted request and whichever storage
calls fail: the counts add up to the number of items, the errors are those of the items that are
invalid or failed, and the other items are put in the order of the request. -/
theorem batchPut_accounts (e : Engine) (size : Nat) (items : List BatchPutItem)
    (hsize : size ≤ 64 * 1024 * 1024) (hlength : 1 ≤ items.length ∧ items.length ≤ 10000) :
    ∃ response status, (batchPut faults e size items).2.2 = ⟨status, .batch response⟩ ∧
      response.successCount = (storedOf (batchVerdicts faults items)).length ∧
      response.errorCount = response.errors.length ∧
      response.successCount + response.errorCount = items.length ∧
      response.totalCount = items.length ∧
      response.errors.Perm (errorsOf (batchVerdicts faults items)) ∧
      (batchPut faults e size items).1 =
        { e with content := e.content.putAll (storedOf (batchVerdicts faults items)) } := by
  obtain ⟨hstored, hperm⟩ := agrees_storeItems faults e items
  have herrors : (invalidItems items ++ (storeItems faults e (validItems items)).errors).Perm
      (errorsOf (batchVerdicts faults items)) := hperm
  have hbatch : batchPut faults e size items = ((storeItems faults e (validItems items)).engine,
        (storeItems faults e (validItems items)).stored,
        batchPutReply (storeItems faults e (validItems items)).stored.length
          (invalidItems items ++ (storeItems faults e (validItems items)).errors)) := by
    unfold batchPut
    rw [if_neg (by omega), if_neg (by omega), if_neg (by omega)]
  have htotal : (storeItems faults e (validItems items)).stored.length +
      (invalidItems items ++ (storeItems faults e (validItems items)).errors).length =
        items.length := by
    have hverdicts : (batchVerdicts faults items).length = items.length := by
      rw [← length_map (f := Prod.fst), batchVerdicts, map_fst_verdicts, length_map]
    rw [hstored, herrors.length_eq, length_storedOf_add, hverdicts]
  refine ⟨_, _, by rw [hbatch]; rfl, congrArg List.length hstored, rfl, htotal, htotal, herrors, ?_⟩
  rw [engine_batchPut, hbatch, hstored]

/-- The transaction fails and so does the second of the single puts. -/
def halfFailing : Faults where
  batch _ := some (.other "Txn is too big to fit into one request")
  put j _ := if j = 1 then some (.other "disk full") else none

/-- Four items, one without a key, two with the same: of the three puts the second fails. -/
def fourItems : List BatchPutItem := [⟨[97], [1]⟩, ⟨[], [2]⟩, ⟨[98], [3]⟩, ⟨[97], [4]⟩]

theorem batchPut_accounts_fourItems : ∃ response status,
      (batchPut halfFailing ⟨∅, false⟩ 100 fourItems).2.2 = ⟨status, .batch response⟩ ∧
      response.successCount + response.errorCount = 4 ∧
      response.errors.Perm [⟨[], "key cannot be empty"⟩, ⟨[98], "disk full"⟩] ∧
      (batchPut halfFailing ⟨∅, false⟩ 100 fourItems).1 =
        ⟨Storage.Content.putAll ∅ [⟨[97], [1], false⟩, ⟨[97], [4], false⟩], false⟩ := by
  obtain ⟨response, status, hreply, -, -, hsum, -, herrors, hstore⟩ :=
    batchPut_accounts halfFailing ⟨∅, false⟩ 100 fourItems (by decide) (by decide)
  exact ⟨response, status, hreply, hsum, herrors, hstore⟩

end DistributedKV.Api
