import DistributedKV.Lib.Utf8
import DistributedKV.Server.Grpc

/-!
# Listing page by page

A client of a listing endpoint asks for the first page with an empty cursor and goes on with the
cursor of the last response for as long as the response says that there is more. No endpoint looks
at the cursor or sets one, so asking again gives the same page again: the client gets everything
if it fits into one page, and otherwise never comes to an end.

A client sees a response as its encoding carries it: JSON replaces what is not UTF-8, and protobuf
refuses to encode a `string` that is not.
-/

namespace DistributedKV.Api

open Option

open Cache (Bytes Key)
open Storage (Engine)

/-! ## The client -/

/-- A page as a client reads it. -/
structure Page where
  keys : List Bytes
  hasMore : Bool
  nextCursor : Bytes

/-- The keys of all pages, read with at most `n` requests; `request cursor i` answers the `i`-th
one. -/
def collect (request : Bytes → Nat → Option Page) : Nat → Bytes → Nat → Option (List Bytes)
  | 0, _, _ => none
  | n + 1, cursor, i =>
    match request cursor i with
    | none => none
    | some page =>
      if page.hasMore then (collect request n page.nextCursor (i + 1)).map (page.keys ++ ·)
      else some page.keys

/-- Reading page by page comes to an end and gives every key of `keys` once. -/
def Complete (request : Bytes → Nat → Option Page) (keys : List Key) : Prop :=
  ∃ n read, collect request n [] 0 = some read ∧ read.Perm keys

section Client

variable {request : Bytes → Nat → Option Page} {keys : List Key}

/-- A client that always hears of more never comes to an end. -/
theorem collect_of_hasMore
    (h : ∀ cursor i page, request cursor i = some page → page.hasMore = true) (n : Nat)
    (cursor : Bytes) (i : Nat) : collect request n cursor i = none := by
  induction n generalizing cursor i with
  | zero => rfl
  | succ n ih =>
    unfold collect
    cases hpage : request cursor i with
    | none => rfl
    | some page => simp [h cursor i page hpage, ih]

/-- If all responses say the same about there being more, the first page decides. -/
theorem complete_iff {more : Bool}
    (h : ∀ cursor i page, request cursor i = some page → page.hasMore = more) :
    Complete request keys ↔
      more = false ∧ ∃ page, request [] 0 = some page ∧ page.keys.Perm keys := by
  constructor
  · rintro ⟨n, read, hread, hperm⟩
    cases more with
    | true =>
      rw [collect_of_hasMore h] at hread
      cases hread
    | false =>
      cases n with
      | zero => cases hread
      | succ n =>
        unfold collect at hread
        cases hpage : request [] 0 with
        | none => simp [hpage] at hread
        | some page =>
          rw [hpage] at hread
          simp only [h _ _ page hpage, Bool.false_eq_true, if_false, some.injEq] at hread
          exact ⟨rfl, page, rfl, hread ▸ hperm⟩
  · rintro ⟨rfl, page, hpage, hperm⟩
    exact ⟨1, page.keys, by simp [collect, hpage, h _ _ page hpage], hperm⟩

end Client

/-! ## The endpoints -/

/-- What a client makes of a REST response. -/
def Reply.page : Reply → Option Page
  | ⟨200, .list r⟩ => some ⟨r.items.map (Utf8.repair ·.key), r.hasMore, Utf8.repair r.nextCursor⟩
  | ⟨200, .listKeys r⟩ => some ⟨r.keys.map Utf8.repair, r.hasMore, Utf8.repair r.nextCursor⟩
  | _ => none

theorem page_handleListResponse (data : GoMap Key Bytes) (limit : Int)
    (order : IterationOrder Listed) (clock : Nat → Int) :
    (handleListResponse data limit order clock).page =
      (handleListKeysResponse data limit order).page := by
  have hkeys := map_mapIdx (fun i entry => (⟨entry.1, entry.2, clock i, 0⟩ : KeyValue))
    (Utf8.repair ·.key) (Utf8.repair ·.1) (fun _ _ => rfl) (data.rangeUntil order limit)
  simp only [handleListResponse, handleListKeysResponse, Reply.page, hkeys, List.map_map]
  rfl

/-- A message with these strings reaches the client if they are UTF-8. -/
def protobufPage (keys : List Bytes) (hasMore : Bool) (nextCursor : Bytes) : Option Page :=
  if (∀ key ∈ keys, Utf8.Valid key) ∧ Utf8.Valid nextCursor then some ⟨keys, hasMore, nextCursor⟩
  else none

/-- A listing: an endpoint with the arguments that stay the same from request to request. -/
inductive Listing where
  | rest (keysOnly : Bool) (keyPrefix : Bytes) (limit : String)
  | grpcList (keyPrefix : Utf8.Text) (limit : Int32)
  | grpcListKeys (keyPrefix : Utf8.Text) (limit : Int32)

namespace Listing

def keyPrefix : Listing → Bytes
  | rest _ keyPrefix _ => keyPrefix
  | grpcList keyPrefix _ => keyPrefix.1
  | grpcListKeys keyPrefix _ => keyPrefix.1

/-- The limit that the handler works with. -/
def limit : Listing → Int
  | rest _ _ limit => listLimit limit
  | grpcList _ limit => limit.toInt
  | grpcListKeys _ limit => limit.toInt

/-- The answer to the `i`-th request of a client. -/
def request (e : Engine) (orders : Nat → IterationOrder Listed) (clock : Nat → Nat → Int) :
    Listing → Bytes → Nat → Option Page
  | rest keysOnly keyPrefix limit, cursor, i =>
    (Api.listKeys e ⟨keyPrefix, limit, cursor, keysOnly⟩ (orders i) (clock i)).page
  | grpcList keyPrefix limit, cursor, i =>
    let r := Server.list e ⟨keyPrefix.1, limit, cursor⟩ (orders i) (clock i)
    protobufPage (r.items.map (·.key)) r.hasMore r.nextCursor
  | grpcListKeys keyPrefix limit, cursor, i =>
    let r := Server.listKeys e ⟨keyPrefix.1, limit, cursor⟩ (orders i)
    protobufPage r.keys r.hasMore r.nextCursor

/-- What the encoding of the endpoint makes of a page. -/
def carry : Listing → List Bytes → Bool → Option Page
  | rest _ _ _, keys, hasMore => some ⟨keys.map Utf8.repair, hasMore, []⟩
  | grpcList _ _, keys, hasMore => protobufPage keys hasMore []
  | grpcListKeys _ _, keys, hasMore => protobufPage keys hasMore []

/-- The keys of a page before it is encoded. -/
def visited (l : Listing) (e : Engine) (order : IterationOrder Listed) : List Bytes :=
  ((e.list l.keyPrefix).1.rangeUntil order l.limit).map Sigma.fst

variable (l : Listing) (e : Engine) (orders : Nat → IterationOrder Listed)
  (clock : Nat → Nat → Int)

/-- All endpoints answer with up to `limit` of the keys, and whether these are all. -/
theorem request_eq (cursor : Bytes) (i : Nat) :
    l.request e orders clock cursor i = l.carry (l.visited e (orders i))
        (decide (l.limit > 0 ∧ (e.list l.keyPrefix).1.len > l.limit)) := by
  cases l with
  | rest keysOnly keyPrefix limit =>
    cases keysOnly with
    | true => rfl
    | false => exact page_handleListResponse _ _ _ _
  | grpcList keyPrefix limit =>
    have hkeys := map_mapIdx
      (fun j entry => (⟨entry.1, entry.2, clock i j, 0⟩ : Server.KeyValue)) (·.key) Sigma.fst
      (fun _ _ => rfl) ((e.list keyPrefix.1).1.rangeUntil (orders i) limit.toInt)
    exact congrArg (protobufPage · _ []) hkeys
  | grpcListKeys keyPrefix limit => rfl

theorem carry_hasMore {keys : List Bytes} {more : Bool} {page : Page}
    (h : l.carry keys more = some page) : page.hasMore = more := by
  cases l with
  | rest keysOnly keyPrefix limit => exact (some.inj h) ▸ rfl
  | _ =>
    simp only [carry, protobufPage, ite_none_right_eq_some, some.injEq] at h
    exact h.2 ▸ rfl

/-- The keys of a page come through if they are UTF-8. -/
theorem carry_perm (keys : List Bytes) (more : Bool) :
    (∃ page, l.carry keys more = some page ∧ page.keys.Perm keys) ↔
      ∀ key ∈ keys, Utf8.Valid key := by
  constructor
  · rintro ⟨page, hpage, hperm⟩
    cases l with
    | rest keysOnly keyPrefix limit =>
      cases hpage
      exact Utf8.valid_of_perm_map_repair hperm
    | _ =>
      simp only [carry, protobufPage, ite_none_right_eq_some] at hpage
      exact hpage.1.1
  · intro hvalid
    cases l with
    | rest keysOnly keyPrefix limit =>
      refine ⟨_, rfl, ?_⟩
      rw [List.map_congr_left fun key hkey => (hvalid key hkey).repair_eq, List.map_id']
    | _ => exact ⟨⟨keys, more, []⟩, if_pos ⟨hvalid, rfl⟩, .rfl⟩

end Listing

/-! ## Completeness -/

/-- The keys of the store with a prefix. -/
def keysWith (e : Engine) (keyPrefix : Bytes) : List Key :=
  e.content.keys.filter (keyPrefix.isPrefixOf ·)

theorem len_list (e : Engine) (keyPrefix : Bytes) :
    (e.list keyPrefix).1.len = (keysWith e keyPrefix).length :=
  (e.keys_list keyPrefix).length_eq

/-- More keys than a page holds, and the client never comes to an end. -/
theorem Listing.not_complete (l : Listing) (e : Engine) (orders : Nat → IterationOrder Listed)
    (clock : Nat → Nat → Int) (keys : List Key)
    (h : l.limit > 0 ∧ ((keysWith e l.keyPrefix).length : Int) > l.limit) :
    ¬ Complete (l.request e orders clock) keys := by
  rintro ⟨n, read, hread, -⟩
  rw [collect_of_hasMore fun cursor i page hpage => ?_] at hread
  · cases hread
  · rw [l.carry_hasMore (l.request_eq e orders clock cursor i ▸ hpage), len_list]
    exact decide_eq_true h

/-- Reading page by page gives every key with the prefix once exactly if they fit into one page
and are UTF-8. -/
theorem pagination_complete_iff (l : Listing) (e : Engine) (orders : Nat → IterationOrder Listed)
    (clock : Nat → Nat → Int) : Complete (l.request e orders clock) (keysWith e l.keyPrefix) ↔
      (l.limit ≤ 0 ∨ ((keysWith e l.keyPrefix).length : Int) ≤ l.limit) ∧
        ∀ key ∈ keysWith e l.keyPrefix, Utf8.Valid key := by
  rw [complete_iff fun cursor i page hpage =>
    l.carry_hasMore (l.request_eq e orders clock cursor i ▸ hpage)]
  rw [l.request_eq e orders clock, len_list]
  have hlimit : decide (l.limit > 0 ∧ ((keysWith e l.keyPrefix).length : Int) > l.limit) = false ↔
      l.limit ≤ 0 ∨ ((keysWith e l.keyPrefix).length : Int) ≤ l.limit := by
    rw [decide_eq_false_iff_not]
    omega
  rw [hlimit]
  refine and_congr_right fun hfits => ?_
  have hvisited : (l.visited e (orders 0)).Perm (keysWith e l.keyPrefix) :=
    (GoMap.rangeUntil_perm _ _ (by rwa [len_list])).trans (e.keys_list l.keyPrefix)
  simp only [← hvisited.congr_right, ← hvisited.mem_iff]
  exact l.carry_perm _ _

/-- Two keys. -/
def twoKeys : Engine where
  content := (∅ : Storage.Content).insert [97] [1] |>.insert [98] [2]
  emptyIsNil := true

/-- Two keys and pages of one: no endpoint ever says that there is no more. -/
theorem endless_pages_counterexample :
    (¬ Complete (Listing.request twoKeys (fun _ => .asGiven) (fun _ _ => 0) (.rest true [] "1"))
        [[97], [98]]) ∧
      (¬ Complete (Listing.request twoKeys (fun _ => .asGiven) (fun _ _ => 0) (.rest false [] "1"))
        [[97], [98]]) ∧
      (¬ Complete (Listing.request twoKeys (fun _ => .asGiven) (fun _ _ => 0)
        (.grpcList ⟨[], rfl⟩ 1)) [[97], [98]]) ∧
      (¬ Complete (Listing.request twoKeys (fun _ => .asGiven) (fun _ _ => 0)
        (.grpcListKeys ⟨[], rfl⟩ 1)) [[97], [98]]) :=
  ⟨Listing.not_complete _ _ _ _ _ (by decide +kernel),
    Listing.not_complete _ _ _ _ _ (by decide +kernel),
    Listing.not_complete _ _ _ _ _ (by decide +kernel),
    Listing.not_complete _ _ _ _ _ (by decide +kernel)⟩

end DistributedKV.Api
