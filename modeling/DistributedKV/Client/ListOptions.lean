import Mathlib.Data.List.Induction

/-!
# List options (`client.go`, `types.go`)

`List` applies all options to one request. `ListKeys` applies each to an empty request of its own
and copies limit and cursor from there, so that an option undoes the ones before it.
-/

namespace DistributedKV.Client

/-- `ListRequest` and `ListKeysRequest`, which have the same fields. -/
structure ListRequest where
  pre : String
  limit : Int32 := 0
  cursor : String := ""
deriving DecidableEq, Repr

/-- `ListOption`, as `WithLimit` and `WithCursor` make it. -/
inductive ListOption where
  | withLimit (limit : Int32)
  | withCursor (cursor : String)

namespace ListOption

def apply (req : ListRequest) : ListOption → ListRequest
  | .withLimit limit => { req with limit := limit }
  | .withCursor cursor => { req with cursor := cursor }

def limit? : ListOption → Option Int32
  | .withLimit limit => some limit
  | .withCursor _ => none

def cursor? : ListOption → Option String
  | .withLimit _ => none
  | .withCursor cursor => some cursor

end ListOption

open ListOption

/-- The request that `List` sends. -/
def listRequest (pre : String) (opts : List ListOption) : ListRequest := opts.foldl apply { pre }

/-- The request that `ListKeys` sends. -/
def listKeysRequest (pre : String) (opts : List ListOption) : ListRequest :=
  opts.foldl (fun req opt =>
    let tempReq := opt.apply { pre := "" }
    { req with limit := tempReq.limit, cursor := tempReq.cursor }) { pre }

/-- The last option is the only one that matters: the last cursor before a limit is empty, and the
last limit before a cursor is zero. -/
def LastOnly (opts : List ListOption) : Prop :=
  match opts.getLast? with
  | none => True
  | some (.withLimit _) => (opts.filterMap cursor?).getLast?.getD "" = ""
  | some (.withCursor _) => (opts.filterMap limit?).getLast?.getD 0 = 0

theorem listRequest_eq (pre : String) (opts : List ListOption) :
    listRequest pre opts = ⟨pre, (opts.filterMap limit?).getLast?.getD 0,
      (opts.filterMap cursor?).getLast?.getD ""⟩ := by
  induction opts using List.reverseRecOn with
  | nil => rfl
  | append_singleton opts opt ih =>
    rw [listRequest, List.foldl_append, ← listRequest, ih]
    cases opt <;> simp [apply, limit?, cursor?]

/-- **When the two calls send the same limit and cursor.** -/
theorem list_options_agree_iff (pre : String) (opts : List ListOption) :
    ((listKeysRequest pre opts).limit = (listRequest pre opts).limit ∧
        (listKeysRequest pre opts).cursor = (listRequest pre opts).cursor) ↔ LastOnly opts := by
  rw [listRequest_eq]
  induction opts using List.reverseRecOn with
  | nil => simp [listKeysRequest, LastOnly]
  | append_singleton opts opt =>
    -- the request of the last option
    rw [listKeysRequest, List.foldl_append]
    cases opt with
    | withLimit limit => simp [LastOnly, apply, limit?, cursor?]
    | withCursor cursor =>
      rw [eq_comm]
      simp [LastOnly, apply, limit?, cursor?]

/-- With a limit and then a cursor, the keys are asked for without the limit. -/
theorem not_agree_limit_cursor : listRequest "a" [.withLimit 10, .withCursor "k"] = ⟨"a", 10, "k"⟩ ∧
      listKeysRequest "a" [.withLimit 10, .withCursor "k"] = ⟨"a", 0, "k"⟩ := by
  decide

end DistributedKV.Client
