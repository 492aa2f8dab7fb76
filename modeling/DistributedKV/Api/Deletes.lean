import DistributedKV.Lib.Lts
import DistributedKV.Lib.Prog
import DistributedKV.Api.Rest

/-!
# What a delete says about existence

The delete handlers of REST and gRPC make two storage calls: `Exists`, whose answer goes into the
response, and then `Delete`. Other requests run in between, so a handler is a program of storage
calls here, and the requests of any number of clients share the store (`Pool`).
-/

namespace DistributedKV.Api

variable (key : Key)

open Cache (Bytes Key)
open Storage (Engine BadgerError StorageError)

/-! ## The handlers -/

/-- The storage calls of a request. -/
inductive StoreCall where
  | has (key : Key)
  | delete (key : Key)
  | put (key : Key) (value : Bytes)

/-- What each of them returns. -/
def StoreCall.Answer : StoreCall → Type
  | .has _ => Bool × Option StorageError
  | .delete _ => Option StorageError
  | .put _ _ => Option StorageError

/-- A storage call on the engine; `fault` is a failure of Badger's own. -/
def StoreCall.handle (fault : Option BadgerError) (e : Engine) :
    (c : StoreCall) → Option (Engine × c.Answer)
  | .has key =>
    match fault with
    | some err => some (e, (false, some (.badger err)))
    | none => some (e, e.has key)
  | .delete key => some (e.delete fault key)
  | .put key value => some (e.put fault key value)

/-- `DeleteResponse`, the same in both packages. -/
structure DeleteResponse where
  success : Bool
  existed : Bool
  error : String

/-- How a request ends. -/
inductive Answer where
  | rest (status : Nat) (response : DeleteResponse)
  | restError (reply : Reply)
  | grpc (response : DeleteResponse)
  /-- `status.Errorf` -/
  | grpcError (code : String) (message : String)
  | put (err : Option StorageError)

/-- A successful delete that says the key existed. -/
def Answer.saysExisted : Answer → Bool
  | .rest _ response => response.success && response.existed
  | .grpc response => response.success && response.existed
  | _ => false

/-- The end of a request: the key it was about and its answer. -/
structure Done where
  key : Key
  answer : Answer

abbrev Handler := Prog StoreCall StoreCall.Answer Done

/-- The two storage calls of a delete, with the answers that the handler gives. -/
def deleteProgram (emptyKey : Answer) (existsFailed : StorageError → Answer)
    (deleteFailed : Bool → StorageError → Answer) (deleted : Bool → Answer) (key : Key) :
    Handler :=
  if key = [] then .ret ⟨key, emptyKey⟩
  else .call (.has key) fun
    | (_, some err) => .ret ⟨key, existsFailed err⟩
    | (existed, none) => .call (.delete key) fun
      | some err => .ret ⟨key, deleteFailed existed err⟩
      | none => .ret ⟨key, deleted existed⟩

/-- `RESTHandler.DeleteKey`. -/
def restDeleteKey : Key → Handler :=
  deleteProgram (.restError (writeErrorResponse 400 "Key cannot be empty"))
    (fun err => .rest 500 ⟨false, false, err.text⟩)
    (fun existed err => .rest 500 ⟨false, existed, err.text⟩)
    (fun existed => .rest 200 ⟨true, existed, ""⟩)

/-- `GRPCServer.Delete`. -/
def grpcDelete : Key → Handler :=
  deleteProgram (.grpcError "InvalidArgument" "key cannot be empty")
    (fun err => .grpc ⟨false, false, err.text⟩)
    (fun _ err => .grpc ⟨false, false, err.text⟩)
    (fun existed => .grpc ⟨true, existed, ""⟩)

/-- A put, of either front end: one storage call. -/
def putProgram (value : Bytes) : Handler :=
  .call (.put key value) fun err => .ret ⟨key, .put err⟩

/-- The requests. -/
inductive Request where
  | restDelete (key : Key)
  | grpcDelete (key : Key)
  | put (key : Key) (value : Bytes)

def Request.code : Request → Handler
  | .restDelete key => restDeleteKey key
  | .grpcDelete key => Api.grpcDelete key
  | .put key value => putProgram key value

/-! ## Clients on one store -/

abbrev Clients := Pool Nat StoreCall StoreCall.Answer Done Engine

abbrev ClientAction := Pool.Action Nat Request (Option BadgerError)

/-- One storage call of one client, or a request that begins or ends. -/
def Clients.step : Clients → ClientAction → Option Clients :=
  Pool.step Request.code StoreCall.handle

/-- The program is over and says that the key existed. -/
def Reports : Handler → Prop
  | .ret done => done.key = key ∧ done.answer.saysExisted = true
  | .call _ _ => False

instance (key : Key) : (p : Handler) → Decidable (Reports key p) := fun p => by
  cases p <;> dsimp only [Reports] <;> infer_instance

/-- The step settles a request with an answer that says the key existed. -/
def settlesExisted (after : Clients) : ClientAction → Bool
  | .advance i _ =>
    match after.running i with
    | some p => decide (Reports key p)
    | none => false
  | _ => false

/-- The clients, the deletes that said that one key existed and succeeded, and how often that
key became present. -/
structure Watched where
  clients : Clients
  reported : Nat
  appeared : Nat

namespace Watched

variable (key : Key)

/-- Before any request; a key that is there has appeared once. -/
def init (e : Engine) : Watched :=
  { clients := ⟨e, fun _ => none⟩
    reported := 0
    appeared := if key ∈ e.content then 1 else 0 }

def step (w : Watched) (a : ClientAction) : Option Watched :=
  (w.clients.step a).map fun t =>
    { clients := t
      reported := w.reported + if settlesExisted key t a then 1 else 0
      appeared := w.appeared +
        if key ∉ w.clients.shared.content ∧ key ∈ t.shared.content then 1 else 0 }

/-- The condition: a delete that was told the key is there, and does not fail, finds it. -/
def DeletesPresent (w : Watched) : ClientAction → Prop
  | .advance i none =>
    match w.clients.running i with
    | some (.call (.delete k) next) =>
      k = key → Reports key (next none) → key ∈ w.clients.shared.content
    | _ => True
  | _ => True

instance (w : Watched) (a : ClientAction) : Decidable (w.DeletesPresent key a) := by
  unfold DeletesPresent
  split
  · split <;> infer_instance
  · infer_instance

end Watched

/-! ## What programs may report -/

/-- A program reports existence only right after a delete of that key that succeeded. -/
def Faithful : Handler → Prop
  | .ret _ => True
  | .call (.has _) k => ∀ r, Faithful (k r) ∧ ∀ key, ¬Reports key (k r)
  | .call (.delete deleted) k =>
    ∀ r, Faithful (k r) ∧ ∀ key, Reports key (k r) → key = deleted ∧ r = none
  | .call (.put _ _) k => ∀ r, Faithful (k r) ∧ ∀ key, ¬Reports key (k r)

/-- The handlers of both front ends are so, whatever they put into the other answers. -/
theorem faithful_deleteProgram {emptyKey : Answer} {existsFailed : StorageError → Answer}
    {deleteFailed : Bool → StorageError → Answer} {deleted : Bool → Answer}
    (hexists : ∀ err, (existsFailed err).saysExisted = false)
    (hdelete : ∀ existed err, (deleteFailed existed err).saysExisted = false) (key : Key) :
    Faithful (deleteProgram emptyKey existsFailed deleteFailed deleted key) := by
  unfold deleteProgram
  split
  · trivial
  rintro ⟨existed, err⟩
  cases err with
  | some err =>
    refine ⟨trivial, fun key' hreport => ?_⟩
    have hsays := hreport.2
    rw [hexists err] at hsays
    cases hsays
  | none =>
    refine ⟨fun err => ?_, fun _ => id⟩
    cases err with
    | some err =>
      refine ⟨trivial, fun key' hreport => ?_⟩
      have hsays := hreport.2
      rw [hdelete existed err] at hsays
      cases hsays
    | none => exact ⟨trivial, fun key' hreport => ⟨hreport.1.symm, rfl⟩⟩

theorem faithful_code (request : Request) : Faithful request.code := by
  cases request with
  | restDelete key => exact faithful_deleteProgram (fun _ => rfl) (fun _ _ => rfl) key
  | grpcDelete key => exact faithful_deleteProgram (fun _ => rfl) (fun _ _ => rfl) key
  | put key value => exact fun err => ⟨trivial, fun _ hreport => by cases hreport.2⟩

variable {c : StoreCall} {k : c.Answer → Handler} {e : Engine} {a : ClientAction}

theorem Faithful.next (h : Faithful (.call c k)) (r : c.Answer) : Faithful (k r) := by
  cases c <;> exact (h r).1

/-- Every running program is faithful. -/
def AllFaithful (s : Clients) : Prop := ∀ i p, s.running i = some p → Faithful p

theorem AllFaithful.update {s : Clients} (h : AllFaithful s) {i : Nat} {q : Option Handler}
    (hq : ∀ p, q = some p → Faithful p) : AllFaithful ⟨e, Function.update s.running i q⟩ :=
  (Function.forall_update_iff s.running fun _ q => ∀ p, q = some p → Faithful p).mpr
    ⟨hq, fun j _ => h j⟩

theorem AllFaithful.step {s t : Clients} (h : AllFaithful s) (hstep : s.step a = some t) :
    AllFaithful t := by
  obtain ⟨i, request, -, -, rfl⟩ | ⟨i, fault, c, k, r, -, hrun, -, rfl⟩ | ⟨i, x, -, -, rfl⟩ :=
    Pool.step_cases hstep
  · refine h.update fun p hp => ?_
    cases hp
    exact faithful_code request
  · refine h.update fun p hp => ?_
    cases hp
    exact (h i _ hrun).next r.2
  · exact h.update fun p hp => by cases hp

/-! ## One step -/

/-- **The books.** Each answer that said the key existed has an appearance of its own, and so
has the key if it is there now. -/
structure Balanced (key : Key) (w : Watched) : Prop where
  faithful : AllFaithful w.clients
  books : w.reported + (if key ∈ w.clients.shared.content then 1 else 0) ≤ w.appeared

section Step

variable {key : Key} {e e' : Engine} {fault : Option BadgerError} {reported appeared : Nat}

/-- A step that settles nothing keeps the books if the key does not appear for free. -/
theorem books_of_not_settled (h : reported + (if key ∈ e.content then 1 else 0) ≤ appeared) :
    reported + (if key ∈ e'.content then 1 else 0) ≤
      appeared + if key ∉ e.content ∧ key ∈ e'.content then 1 else 0 := by
  by_cases hbefore : key ∈ e.content <;> by_cases hafter : key ∈ e'.content <;>
    simp only [hbefore, hafter, not_true_eq_false, not_false_eq_true, false_and, true_and,
      if_true, if_false] at h ⊢ <;> omega

theorem notMem_of_delete {deleted : Key} (h : e.delete fault deleted = (e', none)) :
    deleted ∉ e'.content := by
  obtain ⟨err, heq⟩ | ⟨-, heq⟩ := e.delete_cases fault deleted <;> rw [heq] at h
  · cases h
  · obtain rfl := (Prod.mk.inj h).1
    simp

end Step

theorem Balanced.step {key : Key} {w w' : Watched} (h : Balanced key w)
    (hok : w.DeletesPresent key a) (hstep : w.step key a = some w') : Balanced key w' := by
  obtain ⟨t, ht, rfl⟩ := Option.map_eq_some_iff.mp hstep
  refine ⟨h.faithful.step ht, ?_⟩
  obtain ⟨i, request, rfl, -, rfl⟩ | ⟨i, fault, c, k, r, rfl, hrun, hr, rfl⟩ |
    ⟨i, x, rfl, -, rfl⟩ := Pool.step_cases ht
  · exact books_of_not_settled h.books
  · have hsettles : settlesExisted key
        ⟨r.1, Function.update w.clients.running i (some (k r.2))⟩ (.advance i fault) =
          decide (Reports key (k r.2)) := by
      simp only [settlesExisted, Function.update_self]
    rw [hsettles]
    by_cases hreport : Reports key (k r.2)
    · -- the only call that can settle a request so is a delete that succeeded
      have hfaithful := h.faithful i _ hrun
      cases c with
      | has key' => exact absurd hreport ((hfaithful r.2).2 key)
      | put key' value => exact absurd hreport ((hfaithful r.2).2 key)
      | delete deleted =>
        obtain ⟨rfl, hnone⟩ := (hfaithful r.2).2 key hreport
        have hdelete : w.clients.shared.delete fault key = (r.1, none) :=
          (Option.some.inj hr).trans (Prod.ext rfl hnone)
        have hfault : fault = none := by
          cases fault with
          | none => rfl
          | some err => cases congrArg Prod.snd hdelete
        subst hfault
        have hpresent : key ∈ w.clients.shared.content := by
          simp only [Watched.DeletesPresent, hrun] at hok
          exact hok trivial (hnone ▸ hreport)
        -- the delete takes the place of the key's presence
        have hbooks := h.books
        rw [if_pos hpresent] at hbooks
        rw [if_pos (decide_eq_true hreport), if_neg (notMem_of_delete hdelete)]
        dsimp only
        omega
    · rw [if_neg (by simpa using hreport)]
      exact books_of_not_settled h.books
  · exact books_of_not_settled h.books

theorem balanced_init (e : Engine) : Balanced key (Watched.init key e) where
  faithful := fun i p hi => by cases hi
  books := by
    show 0 + (if key ∈ e.content then 1 else 0) ≤ if key ∈ e.content then 1 else 0
    omega

/-! ## Whole runs -/

/-- **Delete reports existence faithfully** along every run in which a delete that was told the
key is there, and does not fail, still finds it: no more deletes are told that the key existed
than it appeared. -/
theorem reported_le_appeared (e : Engine) (actions : List ClientAction)
    (hok : Lts.Along (Watched.step key) (Watched.DeletesPresent key) (Watched.init key e) actions) :
    ∀ w ∈ Lts.trace (Watched.step key) (Watched.init key e) actions, w.reported ≤ w.appeared := by
  intro w hw
  have hbalanced : Balanced key w :=
    hok.forall_trace (balanced_init key e) (fun _ _ _ h hok hstep => h.step hok hstep) w hw
  have hbooks := hbalanced.books
  omega

/-- An engine that holds the key `k`. -/
def holdingK : Engine := ⟨AList.singleton [107] [1], false⟩

/-- A delete, a put and another delete, one after the other. -/
def oneByOne : List ClientAction :=
  [.begin 0 (.restDelete [107]), .advance 0 none, .advance 0 none, .finish 0,
    .begin 1 (.put [107] [2]), .advance 1 none, .finish 1,
    .begin 2 (.grpcDelete [107]), .advance 2 none, .advance 2 none, .finish 2]

theorem reported_le_appeared_oneByOne :
    (Lts.exec (Watched.step [107]) (Watched.init [107] holdingK) oneByOne).map
        (fun w => (w.reported, w.appeared)) = some (2, 2) ∧
      ∀ w ∈ Lts.trace (Watched.step [107]) (Watched.init [107] holdingK) oneByOne,
        w.reported ≤ w.appeared :=
  ⟨by decide +kernel, reported_le_appeared [107] holdingK oneByOne (by decide +kernel)⟩

/-- A REST and a gRPC delete that both ask before either deletes: both are told that the key
existed. -/
theorem double_delete_counterexample : (Lts.exec (Watched.step [107]) (Watched.init [107] holdingK)
      [.begin 0 (.restDelete [107]), .begin 1 (.grpcDelete [107]), .advance 0 none,
        .advance 1 none, .advance 0 none, .advance 1 none]).map
          (fun w => (w.reported, w.appeared)) = some (2, 1) := by
  decide +kernel

end DistributedKV.Api
