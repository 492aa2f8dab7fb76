import DistributedKV.Storage.Transparency

/-!
# The cache under concurrent clients

Several clients run the methods of the cached engine at once; a step is one call of one of them on
the base engine or on the cache. Between reading or writing a value in the base engine and caching
it a client can be overtaken, and what it then caches is out of date for good.

The cache is coherent if no client writes a key in the base engine while another one is about to
cache a value of this key (`Undisturbed`). Then a cached item is what the base engine holds, or a
running call will still update it; and what a running call is about to cache is what the base
engine holds (`CoherenceInv`).
-/

namespace DistributedKV.Storage

open Content Function Option

open Cache (Bytes Key Time Duration Item all_new)

/-! ## The rest of a running call -/

/-- The keys whose item a program updates in the cache before anything else. -/
def pending {α : Type} : Program α → List Key
  | .call (.cachePut key _ _) k => key :: pending (k ())
  | .call (.cacheDelete key) k => key :: pending (k ())
  | _ => []

/-- The keys it caches a value for before anything else. -/
def fills {α : Type} : Program α → List Key
  | .call (.cachePut key _ _) k => key :: fills (k ())
  | .call (.cacheDelete _) k => fills (k ())
  | _ => []

/-- The keys that a call writes in the base engine. -/
def Atom.writes : Atom → List Key
  | .put key _ => [key]
  | .delete key => [key]
  | .batchPut items => items.map KeyValue.key
  | .batchDelete keys => keys
  | _ => []

/-- What a program is about to cache is in the content, unless it caches the key once more. And
a call on any base engine leaves the rest of the program so, with an update of the cache ahead
for every key it changes. -/
def Clean {α : Type} : Content → Program α → Prop
  | _, .ret _ => True
  | db, .call (.cachePut key value _) k =>
    (db.txnGet key = .ok value ∨ key ∈ pending (k ())) ∧ Clean db (k ())
  | db, .call (.cacheDelete _) k => Clean db (k ())
  | _, .call (.cacheGet _) k => ∀ r db, Clean db (k r)
  | _, .call (.cacheCleanup _) k => ∀ db, Clean db (k ())
  | _, .call .cacheClear _ | _, .call .restore _ => False
  | _, .call a k => ∀ now o m m' r, Machine.handle now o m a = some (m', r) →
      Clean m'.storage.content (k r) ∧
        ∀ key, m'.storage.content.txnGet key ≠ m.storage.content.txnGet key → key ∈ pending (k r)

/-- The calls on the base engine that a client can make. -/
def Atom.onBase : Atom → Bool
  | .put _ _ | .get _ | .delete _ | .has _ | .batchPut _ | .batchGet _ | .batchDelete _ => true
  | _ => false

section Programs

variable {α β γ : Type} {db db' : Content} {key : Key} {value : Bytes} {ttl : Duration}

variable {a : Atom} {k : a.Answer → Program α} {f : Option StorageError → Program α}
  {keys : List Key}

theorem clean_base_iff (ha : a.onBase = true) :
    Clean db (.call a k) ↔ ∀ now o m m' r, Machine.handle now o m a = some (m', r) →
      Clean m'.storage.content (k r) ∧
        ∀ key, m'.storage.content.txnGet key ≠ m.storage.content.txnGet key →
          key ∈ pending (k r) := by
  cases a <;> first | exact Iff.rfl | cases ha

theorem pending_base (ha : a.onBase = true) : pending (.call a k) = [] := by
  cases a <;> first | rfl | cases ha

theorem txnGet_of_write {e : Engine} {r : Engine × Option StorageError} {P : Prop}
    (hr : (∃ err, r = (e, some err)) ∨ P ∧ r = ({ e with content := db }, none))
    (hkey : db.txnGet key = e.content.txnGet key) :
    r.1.content.txnGet key = e.content.txnGet key := by
  obtain ⟨err, rfl⟩ | ⟨-, rfl⟩ := hr
  · rfl
  · exact hkey

/-- A call on the base engine does not touch the cache, and changes only what it writes. -/
theorem handle_base (ha : a.onBase = true) {now : Time} {o : Outcome} {m m' : Machine}
    {r : a.Answer} (h : m.handle now o a = some (m', r)) :
    m'.cache = m.cache ∧
      ∀ key ∉ a.writes, m'.storage.content.txnGet key = m.storage.content.txnGet key := by
  cases a with
  | put key value =>
    cases h
    refine ⟨rfl, fun k hk => txnGet_of_write (m.storage.put_cases o.fault key value) ?_⟩
    exact txnGet_insert_ne k (by simpa [Atom.writes] using hk)
  | delete key =>
    cases h
    refine ⟨rfl, fun k hk => txnGet_of_write (m.storage.delete_cases o.fault key) ?_⟩
    exact txnGet_erase k (by simpa [Atom.writes] using hk)
  | batchPut items =>
    cases h
    refine ⟨rfl, fun k hk => txnGet_of_write (m.storage.batchPut_cases o.fault items) ?_⟩
    exact txnGet_putAll hk
  | batchDelete keys =>
    cases h
    refine ⟨rfl, fun k hk => txnGet_of_write (m.storage.batchDelete_cases o.fault keys) ?_⟩
    exact txnGet_deleteAll hk
  | get key | has key | batchGet keys =>
    cases h
    exact ⟨rfl, fun k _ => rfl⟩
  | _ => cases ha

/-- Only the keys that a program is about to cache matter to it. -/
theorem Clean.congr {p : Program α} (h : Clean db p)
    (hfills : ∀ key ∈ fills p, db'.txnGet key = db.txnGet key) : Clean db' p := by
  induction p with
  | ret a => trivial
  | call a k ih =>
    cases a with
    | cachePut key value ttl =>
      refine ⟨?_, ih () h.2 fun key hkey => hfills key (List.mem_cons_of_mem _ hkey)⟩
      rw [hfills key List.mem_cons_self]
      exact h.1
    | cacheDelete key => exact ih () h hfills
    | _ => exact h

/-! ## The methods -/

open CachedStorage

open Prog

theorem pending_putEach (items : List KeyValue) (f : Unit → Program α) :
    pending ((each (fun item => call (.cachePut item.key item.value ttl)) items).bind f) =
      items.map KeyValue.key ++ pending (f ()) := by
  induction items with
  | nil => rfl
  | cons item items ih => exact congrArg (item.key :: ·) ih

theorem clean_putEach {items : List KeyValue} (hkeys : ∀ item ∈ items, item.key ≠ [])
    {f : Unit → Program α} (hf : Clean (db.putAll items) (f ())) :
    Clean (db.putAll items)
      ((each (fun item => call (.cachePut item.key item.value ttl)) items).bind f) := by
  induction items generalizing db with
  | nil => exact hf
  | cons item items ih =>
    have hitem := hkeys item List.mem_cons_self
    refine ⟨?_, ih (fun i hi => hkeys i (List.mem_cons_of_mem _ hi)) hf⟩
    -- The value is the last one for its key, or a later item of the batch has the key too.
    by_cases hlater : item.key ∈ items.map KeyValue.key
    · exact .inr ((pending_putEach items f).symm ▸ List.mem_append_left _ hlater)
    · exact .inl ((txnGet_putAll hlater).trans (txnGet_insert_self hitem))

theorem deleteEach_spec (keys : List Key) {f : Unit → Program α} (hf : Clean db (f ())) :
    Clean db ((each (fun key => call (.cacheDelete key)) keys).bind f) ∧
      pending ((each (fun key => call (.cacheDelete key)) keys).bind f) =
        keys ++ pending (f ()) := by
  induction keys with
  | nil => exact ⟨hf, rfl⟩
  | cons key keys ih => exact ⟨ih.1, congrArg (key :: ·) ih.2⟩

/-- Whatever is clean on every content may come after the program. -/
def Leads (p : Program β) : Prop :=
  ∀ f : β → Program Reply, (∀ r db, Clean db (f r)) → ∀ db, Clean db (p.bind f)

theorem leads_ret (r : β) : Leads (.ret r) := fun _ hf => hf r

theorem Leads.bind {p : Program β} {g : β → Program γ} (hp : Leads p) (hg : ∀ r, Leads (g r)) :
    Leads (p.bind g) := by
  intro f hf
  rw [Prog.bind_assoc]
  exact hp _ fun r => hg r f hf

theorem Leads.answered {p : Program β} (hp : Leads p) (g : β → Reply) :
    Clean db (p.bind fun r => .ret (g r)) :=
  hp (fun r => .ret (g r)) (fun _ _ => trivial) db

variable {config : CachedStorageConfig}

theorem leads_lookup : Leads (lookup config key) := by
  intro f hf db
  unfold lookup
  split
  · exact hf
  · exact hf none db

/-- A call on the base engine changes nothing, or the keys it writes are updated in the cache
next. -/
theorem clean_base (ha : a.onBase = true)
    (h : ∀ now o m m' r, Machine.handle now o m a = some (m', r) →
      Clean m'.storage.content (k r) ∧ (m'.storage = m.storage ∨ a.writes ⊆ pending (k r))) :
    Clean db (.call a k) := by
  refine (clean_base_iff ha).2 fun now o m m' r hr => ?_
  obtain ⟨hclean, hkeys⟩ := h now o m m' r hr
  refine ⟨hclean, fun key hchanged => ?_⟩
  obtain hsame | hsub := hkeys
  · exact absurd (by rw [hsame]) hchanged
  · by_contra hnot
    exact hchanged ((handle_base ha hr).2 key fun hmem => hnot (hsub hmem))

section

variable (hc : config.cacheEnabled = true)
include hc

theorem leads_put : Leads (put config key value) := by
  intro f hf db
  refine clean_base rfl fun now o m m' r h => ?_
  cases h
  obtain ⟨err, hput⟩ | ⟨hkey, hput⟩ := m.storage.put_cases o.fault key value <;> rw [hput]
  · exact ⟨hf _ _, .inl rfl⟩
  unfold store ifCached
  rw [if_pos hc]
  exact ⟨⟨.inl (txnGet_insert_self hkey), hf _ _⟩,
    .inr (List.cons_subset_cons key (List.nil_subset _))⟩

theorem leads_delete : Leads (delete config key) := by
  intro f hf db
  refine clean_base rfl fun now o m m' r h => ?_
  cases h
  obtain ⟨err, hdelete⟩ | ⟨-, hdelete⟩ := m.storage.delete_cases o.fault key <;> rw [hdelete]
  · exact ⟨hf _ _, .inl rfl⟩
  unfold ifCached
  rw [if_pos hc]
  exact ⟨hf none _, .inr (List.cons_subset_cons key (List.nil_subset _))⟩

theorem leads_batchPut (items : List KeyValue) : Leads (batchPut config items) := by
  intro f hf db
  refine clean_base rfl fun now o m m' r h => ?_
  cases h
  obtain ⟨err, hput⟩ | ⟨hkeys, hput⟩ := m.storage.batchPut_cases o.fault items <;> rw [hput]
  · exact ⟨hf _ _, .inl rfl⟩
  unfold ifCached
  rw [if_pos hc]
  show Clean _ (((each _ items).bind fun _ => .ret none).bind f) ∧
    (_ ∨ items.map KeyValue.key ⊆ pending (((each _ items).bind fun _ => .ret none).bind f))
  rw [Prog.bind_assoc, pending_putEach]
  exact ⟨clean_putEach hkeys (hf none _), .inr (List.subset_append_left _ _)⟩

theorem leads_batchDelete : Leads (batchDelete config keys) := by
  intro f hf db
  refine clean_base rfl fun now o m m' r h => ?_
  cases h
  obtain ⟨err, hdelete⟩ | ⟨-, hdelete⟩ := m.storage.batchDelete_cases o.fault keys <;> rw [hdelete]
  · exact ⟨hf _ _, .inl rfl⟩
  unfold ifCached
  rw [if_pos hc]
  show Clean _ (((each _ keys).bind fun _ => .ret none).bind f) ∧
    (_ ∨ keys ⊆ pending (((each _ keys).bind fun _ => .ret none).bind f))
  rw [Prog.bind_assoc, (deleteEach_spec keys (hf none db)).2]
  exact ⟨(deleteEach_spec keys (hf none _)).1, .inr (List.subset_append_left _ _)⟩

end

theorem clean_store {f : Unit → Program α} (hread : db.txnGet key = .ok value)
    (hf : Clean db (f ())) : Clean db ((store config key value).bind f) := by
  unfold store ifCached
  split
  · exact ⟨.inl hread, hf⟩
  · exact hf

theorem clean_baseGet {f : Option Bytes × Option StorageError → Program α}
    (hf : ∀ e : Engine, Clean e.content (f (e.get key))) : Clean db (.call (.get key) f) := by
  refine clean_base rfl fun now o m m' r h => ?_
  cases h
  exact ⟨hf m.storage, .inl rfl⟩

theorem leads_get : Leads (get config key) := by
  refine leads_lookup.bind fun found => ?_
  cases found with
  | some v => exact leads_ret _
  | none =>
    intro f hf db
    refine clean_baseGet fun e => ?_
    cases hget : e.get key with
    | mk v err =>
      cases err with
      | some err => exact hf _ _
      | none =>
        cases v with
        | none => exact hf _ _
        | some v =>
          show Clean e.content (((store config key v).bind _).bind f)
          rw [Prog.bind_assoc]
          exact clean_store (e.txnGet_of_get hget) (hf _ _)

theorem leads_has : Leads (has config key) := by
  refine leads_lookup.bind fun found => ?_
  cases found with
  | some v => exact leads_ret _
  | none =>
    refine fun f hf db => clean_base rfl fun now o m m' r h => ?_
    cases h
    exact ⟨hf _ _, .inl rfl⟩

theorem leads_warm : Leads (warm config key) := by
  refine fun f hf db => clean_baseGet fun e => ?_
  cases hget : e.get key with
  | mk v err =>
    cases err with
    | some err => exact hf _ _
    | none => exact clean_store (e.txnGet_of_get hget) (hf _ _)

theorem leads_warmCache : Leads (warmCache config keys) := by
  have hloop : Leads (each (warm config) keys) := by
    induction keys with
    | nil => exact leads_ret _
    | cons key keys ih => exact leads_warm.bind fun _ => ih
  have hcached : Leads (ifCached config (each (warm config) keys)) := by
    unfold ifCached
    split
    · exact hloop
    · exact leads_ret _
  exact hcached.bind fun _ => leads_ret _

theorem leads_batchLookup (i : Nat) : Leads (batchLookup config i keys) := by
  induction keys generalizing i with
  | nil => exact leads_ret _
  | cons key keys ih =>
    refine leads_lookup.bind fun found => (ih (i + 1)).bind fun rest => ?_
    cases found with
    | some v => exact leads_ret _
    | none => exact leads_ret _

theorem clean_batchFill (writes : List (Nat × KeyValue)) (rs : List KeyValue)
    (hwrites : ∀ w ∈ writes, w.2.found = true → db.txnGet w.2.key = .ok w.2.value)
    {f : List KeyValue → Program α} (hf : ∀ r, Clean db (f r)) :
    Clean db ((batchFill config writes rs).bind f) := by
  induction writes generalizing rs with
  | nil => exact hf _
  | cons w writes ih =>
    have hrest := ih (rs.set w.1 w.2) fun v hv => hwrites v (List.mem_cons_of_mem _ hv)
    show Clean db (((storeFound config w.2).bind _).bind f)
    rw [Prog.bind_assoc]
    unfold storeFound
    split
    case isTrue hfound => exact clean_store (hwrites w List.mem_cons_self hfound) hrest
    case isFalse => exact hrest

theorem leads_batchGet : Leads (batchGet config keys) := by
  refine (leads_batchLookup 0).bind fun looked => ?_
  split_ifs with hempty
  · exact leads_ret _
  refine fun f hf db => clean_base rfl fun now o m m' r h => ?_
  cases h
  refine ⟨?_, .inl rfl⟩
  cases hget : m.storage.batchGet (looked.2.map Prod.snd) with
  | mk results err =>
    cases err with
    | some err => exact hf _ _
    | none =>
      show Clean m.storage.content (((batchFill config _ looked.1).bind _).bind f)
      rw [Prog.bind_assoc]
      refine clean_batchFill _ _ (fun w hw hfound => ?_) fun rs => hf _ _
      exact m.storage.txnGet_of_batchGet hget (List.of_mem_zip hw).2 hfound

theorem clean_code (hc : config.cacheEnabled = true) {q : Request} (hq : q ≠ .restore) :
    Clean db (q.code config) := by
  cases q with
  | put key value => exact (leads_put hc).answered _
  | get key => exact leads_get.answered _
  | delete key => exact (leads_delete hc).answered _
  | has key => exact leads_has.answered _
  | batchPut items => exact (leads_batchPut hc items).answered _
  | batchGet keys => exact leads_batchGet.answered _
  | batchDelete keys => exact (leads_batchDelete hc).answered _
  | warmCache keys => exact leads_warmCache.answered _
  | restore => exact absurd rfl hq
  | cleanup order =>
    show Clean db ((ifCached config _).bind _)
    unfold ifCached
    rw [if_pos hc]
    exact fun db => trivial

end Programs

/-! ## Clients -/

/-- The clients, the base engine and the cache. -/
abbrev Clients (n : Nat) := Pool (Fin n) Atom Atom.Answer Reply Machine

/-- A client begins a request other than a restore, makes a call at some time, or returns. -/
abbrev ClientAction (n : Nat) :=
  Pool.Action (Fin n) { q : Request // q ≠ .restore } (Time × Outcome)

namespace Clients

variable {n : Nat}

def step (config : CachedStorageConfig) (s : Clients n) (a : ClientAction n) : Option (Clients n) :=
  Pool.step (fun q => q.1.code config) (fun env m => m.handle env.1 env.2) s a

/-- No client has called anything yet. -/
def init (config : CachedStorageConfig) (e : Engine) : Clients n where
  shared := newCachedStorageEngine e config
  running := fun _ => none

/-- The keys that the next call of a client writes in the base engine. -/
def nextWrites : Option (Program Reply) → List Key
  | some (.call a _) => a.writes
  | _ => []

/-- The keys that a client is about to cache. -/
def nextFills (p : Option (Program Reply)) : List Key := (p.map fills).getD []

/-- A client writes a key in the base engine only while no other is about to cache a value of
it. -/
def Undisturbed (s : Clients n) : ClientAction n → Prop
  | .advance i _ => ∀ key ∈ nextWrites (s.running i), ∀ j, j ≠ i → key ∉ nextFills (s.running j)
  | .begin _ _ | .finish _ => True

instance (s : Clients n) : (a : ClientAction n) → Decidable (s.Undisturbed a) := fun a => by
  cases a <;> dsimp only [Undisturbed] <;> infer_instance

end Clients

/-- Every cached value that is not expired is the one the base engine holds. -/
def Coherent (m : Machine) : Prop :=
  ∀ key item now, m.cache.item key = some item → ¬ Stale now item.expiresAt →
    m.storage.content.txnGet key = .ok item.value

/-! ## The invariant -/

/-- A cached item is what the base engine holds, or a running call is going to update it. -/
structure CoherenceInv {n : Nat} (s : Clients n) : Prop where
  cached : s.shared.cache.All fun e =>
    Agrees s.shared.storage.content e ∨ ∃ i p, s.running i = some p ∧ e.key ∈ pending p
  clean : ∀ i p, s.running i = some p → Clean s.shared.storage.content p

section Invariant

variable {n : Nat} {config : CachedStorageConfig} {s t : Clients n}

open Clients

theorem coherenceInv_init (e : Engine) : CoherenceInv (init (n := n) config e) where
  cached := all_new config.cacheSize
  clean := fun i p h => by cases h

/-- When no call is running, only the first case is left. -/
theorem CoherenceInv.coherent (h : CoherenceInv s) (hidle : s.Idle) : Coherent s.shared := by
  intro key item now hitem _
  obtain ⟨hcase, rfl⟩ := h.cached.item hitem
  obtain hagrees | ⟨i, p, hi, -⟩ := hcase
  · exact hagrees
  have hnone := hidle i
  rw [hi] at hnone
  cases hnone

/-- A client other than `i` is going to update the item of the key. -/
def Clients.Awaits (s : Clients n) (i : Fin n) (key : Key) : Prop :=
  ∃ j p, j ≠ i ∧ s.running j = some p ∧ key ∈ pending p

variable {i : Fin n} {p : Option (Program Reply)} {m : Machine}

/-- The pending updates seen from client `i`. -/
theorem CoherenceInv.split (h : CoherenceInv s) {p : Program Reply} (hi : s.running i = some p) :
    s.shared.cache.All fun e =>
      Agrees s.shared.storage.content e ∨ e.key ∈ pending p ∨ s.Awaits i e.key := by
  refine h.cached.mono fun e he => he.imp_right ?_
  rintro ⟨j, q, hj, hkey⟩
  by_cases hji : j = i
  · subst hji
    rw [hi, some.injEq] at hj
    exact .inl (hj ▸ hkey)
  · exact .inr ⟨j, q, hji, hj, hkey⟩

/-- A call that has nothing pending itself leaves the updates of the others to them. -/
theorem Clients.Awaits.of_nil {db : Content} {e : Item}
    (h : Agrees db e ∨ e.key ∈ ([] : List Key) ∨ s.Awaits i e.key) :
    Agrees db e ∨ (∃ q ∈ p, e.key ∈ pending q) ∨ s.Awaits i e.key := by
  obtain hagrees | hmem | hawait := h
  · exact .inl hagrees
  · cases hmem
  · exact .inr (.inr hawait)

/-- Client `i` makes a step: what the other clients still have to do is not lost. -/
theorem coherenceInv_replace (hcached : m.cache.All fun e => Agrees m.storage.content e ∨
      (∃ q ∈ p, e.key ∈ pending q) ∨ s.Awaits i e.key) (hself : ∀ q ∈ p, Clean m.storage.content q)
    (hother : ∀ j q, j ≠ i → s.running j = some q → Clean m.storage.content q) :
    CoherenceInv { shared := m, running := Function.update s.running i p } where
  cached := by
    refine hcached.mono fun e he => he.imp_right ?_
    rintro (⟨q, hq, hkey⟩ | ⟨j, q, hji, hj, hkey⟩)
    · exact ⟨i, q, (update_self i p s.running).trans hq, hkey⟩
    · exact ⟨j, q, (update_of_ne hji p s.running).trans hj, hkey⟩
  clean := (forall_update_iff s.running fun _ p => ∀ q, p = some q → Clean m.storage.content q).mpr
    ⟨hself, fun j hji q => hother j q hji⟩

variable {a : Atom} {k : a.Answer → Program Reply} {now : Time} {o : Outcome} {r : a.Answer}

/-- A call on the base engine: no other client is about to cache what it writes. -/
theorem CoherenceInv.base (h : CoherenceInv s) (ha : a.onBase = true)
    (hi : s.running i = some (.call a k)) (hr : s.shared.handle now o a = some (m, r))
    (hok : ∀ key ∈ a.writes, ∀ j, j ≠ i → key ∉ nextFills (s.running j)) :
    CoherenceInv { shared := m, running := Function.update s.running i (some (k r)) } := by
  obtain ⟨hcache, hsame⟩ := handle_base ha hr
  obtain ⟨hclean, hchanged⟩ := (clean_base_iff ha).1 (h.clean i _ hi) now o s.shared m r hr
  refine coherenceInv_replace ?_ (fun q hq => some.inj hq ▸ hclean) fun j q hji hj => ?_
  · rw [hcache]
    refine (h.split hi).mono fun e he => ?_
    obtain hagrees | hmem | hawait := he
    · -- A changed item is updated by the rest of this call.
      by_cases hkey : m.storage.content.txnGet e.key = s.shared.storage.content.txnGet e.key
      · exact .inl (hkey.trans hagrees)
      · exact .inr (.inl ⟨_, rfl, hchanged e.key hkey⟩)
    · rw [pending_base ha] at hmem
      cases hmem
    · exact .inr (.inr hawait)
  · refine (h.clean j q hj).congr fun key hkey => hsame key fun hw => hok key hw j hji ?_
    rw [hj]
    exact hkey

/-- A call on the cache: what it caches is what the base engine holds. -/
theorem CoherenceInv.onCache (h : CoherenceInv s) (ha : a.onBase = false)
    (hi : s.running i = some (.call a k)) (hr : s.shared.handle now o a = some (m, r)) :
    CoherenceInv { shared := m, running := Function.update s.running i (some (k r)) } := by
  have hclean := h.clean i _ hi
  have hsplit := h.split hi
  cases a with
  | cacheGet key =>
    obtain ⟨c, found, hget, hall, -⟩ := hsplit.get now key
    simp only [Machine.handle, hget, map_some] at hr
    cases hr
    exact coherenceInv_replace (hall.mono fun e he => Awaits.of_nil he)
      (fun q hq => some.inj hq ▸ hclean _ _) fun j q _ hj => h.clean j q hj
  | cachePut key value ttl =>
    -- The new item is in the content, or this call caches the key once more.
    obtain ⟨c, hput, hall⟩ := hsplit.put (Q := fun e => Agrees s.shared.storage.content e ∨
      (∃ q ∈ some (k ()), e.key ∈ pending q) ∨ s.Awaits i e.key) now key value ttl
      (fun e he hne => he.imp_right fun hp => hp.imp_left fun hmem =>
        ⟨_, rfl, (List.mem_cons.1 hmem).resolve_left hne⟩)
      (hclean.1.imp_right fun hmem => .inl ⟨_, rfl, hmem⟩)
    simp only [Machine.handle, hput, map_some] at hr
    cases hr
    exact coherenceInv_replace hall (fun q hq => some.inj hq ▸ hclean.2)
      fun j q _ hj => h.clean j q hj
  | cacheDelete key =>
    obtain ⟨c, b, hdelete, hall⟩ := hsplit.delete (Q := fun e => Agrees s.shared.storage.content e ∨
      (∃ q ∈ some (k ()), e.key ∈ pending q) ∨ s.Awaits i e.key) key
      (fun e he hne => he.imp_right fun hp => hp.imp_left fun hmem =>
        ⟨_, rfl, (List.mem_cons.1 hmem).resolve_left hne⟩)
    simp only [Machine.handle, hdelete, map_some] at hr
    cases hr
    exact coherenceInv_replace hall (fun q hq => some.inj hq ▸ hclean)
      fun j q _ hj => h.clean j q hj
  | cacheCleanup order =>
    obtain ⟨c, m, hcleanup, hall⟩ := hsplit.cleanupExpired now order
    simp only [Machine.handle, hcleanup, map_some] at hr
    cases hr
    exact coherenceInv_replace (hall.mono fun e he => Awaits.of_nil he)
      (fun q hq => some.inj hq ▸ hclean _) fun j q _ hj => h.clean j q hj
  | cacheClear => cases hclean
  | restore => cases hclean
  | _ => cases ha

/-- Every undisturbed step keeps the invariant. -/
theorem coherenceInv_step (hc : config.cacheEnabled = true) (h : CoherenceInv s)
    {a : ClientAction n} (hok : s.Undisturbed a) (hstep : s.step config a = some t) :
    CoherenceInv t := by
  obtain ⟨i, q, rfl, hi, rfl⟩ | ⟨i, env, b, k, r, rfl, hi, hr, rfl⟩ | ⟨i, x, rfl, hi, rfl⟩ :=
    Pool.step_cases hstep
  · -- A new call has nothing pending.
    refine coherenceInv_replace ?_ (fun p hp => some.inj hp ▸ clean_code hc q.2)
      fun j p _ hj => h.clean j p hj
    refine h.cached.mono fun e he => he.imp_right ?_
    rintro ⟨j, p, hj, hkey⟩
    refine .inr ⟨j, p, ?_, hj, hkey⟩
    rintro rfl
    rw [hi] at hj
    cases hj
  · by_cases hb : b.onBase = true
    · refine h.base hb hi hr ?_
      have hok' := hok
      simpa [Clients.Undisturbed, nextWrites, hi] using hok'
    · exact h.onCache (by simpa using hb) hi hr
  · -- A call that returns has nothing pending either.
    exact coherenceInv_replace ((h.split hi).mono fun e he => Awaits.of_nil he)
      (fun p hp => by cases hp) fun j p _ hj => h.clean j p hj

end Invariant

/-! ## Without a cache -/

section Uncached

open CachedStorage

variable {config : CachedStorageConfig} (hc : config.cacheEnabled = false)

include hc

theorem ifCached_disabled (p : Program Unit) : ifCached config p = .ret () := by
  unfold ifCached
  rw [hc]
  rfl

theorem lookup_disabled (key : Key) : lookup config key = .ret none := by
  unfold lookup
  rw [hc]
  rfl

omit hc in
theorem only_call {a : Atom} (ha : a.onBase = true) : (call a).Only fun a => a.onBase = true :=
  ⟨ha, fun _ => trivial⟩

theorem only_writeThrough {base : Program (Option StorageError)}
    (hbase : base.Only fun a => a.onBase = true) (p : Program Unit) :
    (writeThrough base (ifCached config p)).Only fun a => a.onBase = true := by
  rw [ifCached_disabled hc]
  refine hbase.bind fun err => ?_
  cases err <;> trivial

open CachedStorage

theorem only_get (key : Key) : (get config key).Only fun a => a.onBase = true := by
  unfold CachedStorage.get store
  rw [lookup_disabled hc]
  simp only [ifCached_disabled hc]
  refine ⟨rfl, fun r => ?_⟩
  obtain ⟨_ | v, _ | err⟩ := r <;> trivial

theorem batchLookup_disabled (i : Nat) (keys : List Key) :
    ∃ looked, batchLookup config i keys = .ret looked := by
  induction keys generalizing i with
  | nil => exact ⟨_, rfl⟩
  | cons key keys ih =>
    obtain ⟨looked, hrest⟩ := ih (i + 1)
    unfold batchLookup
    rw [lookup_disabled hc, hrest]
    exact ⟨_, rfl⟩

theorem batchFill_disabled (writes : List (Nat × KeyValue)) (results : List KeyValue) :
    ∃ filled, batchFill config writes results = .ret filled := by
  induction writes generalizing results with
  | nil => exact ⟨_, rfl⟩
  | cons w writes ih =>
    have hstore : storeFound config w.2 = .ret () := by
      unfold storeFound store
      rw [ifCached_disabled hc]
      split <;> rfl
    obtain ⟨filled, hrest⟩ := ih (results.set w.1 w.2)
    unfold batchFill
    rw [hstore]
    exact ⟨filled, hrest⟩

theorem only_batchGet (keys : List Key) : (batchGet config keys).Only fun a => a.onBase = true := by
  obtain ⟨looked, hlooked⟩ := batchLookup_disabled hc 0 keys
  unfold batchGet
  rw [hlooked]
  show Prog.Only _ (if looked.2 = [] then _ else _)
  split
  case isTrue => trivial
  case isFalse =>
    refine ⟨rfl, fun r => ?_⟩
    obtain ⟨results, _ | err⟩ := r
    · obtain ⟨filled, hfilled⟩ :=
        batchFill_disabled hc ((looked.2.map Prod.fst).zip results) looked.1
      show Prog.Only _ ((batchFill config _ looked.1).bind _)
      rw [hfilled]
      trivial
    · trivial

/-- A wrapper without a cache only calls the base engine. -/
theorem only_code {q : Request} (hq : q ≠ .restore) :
    (q.code config).Only fun a => a.onBase = true := by
  cases q with
  | put key value =>
    exact (only_writeThrough hc (only_call (a := .put key value) rfl) _).bind fun _ => trivial
  | get key => exact (only_get hc key).bind fun _ => trivial
  | delete key =>
    exact (only_writeThrough hc (only_call (a := .delete key) rfl) _).bind fun _ => trivial
  | has key =>
    show Prog.Only _ ((has config key).bind _)
    unfold has
    rw [lookup_disabled hc]
    exact ⟨rfl, fun _ => trivial⟩
  | batchPut items =>
    exact (only_writeThrough hc (only_call (a := .batchPut items) rfl) _).bind fun _ => trivial
  | batchGet keys => exact (only_batchGet hc keys).bind fun _ => trivial
  | batchDelete keys =>
    exact (only_writeThrough hc (only_call (a := .batchDelete keys) rfl) _).bind fun _ => trivial
  | warmCache keys =>
    show Prog.Only _ ((warmCache config keys).bind _)
    unfold warmCache
    rw [ifCached_disabled hc]
    trivial
  | restore => exact absurd rfl hq
  | cleanup order =>
    show Prog.Only _ ((cleanup config order).bind _)
    unfold cleanup
    rw [ifCached_disabled hc]
    trivial

end Uncached

/-- Nothing is cached, and nothing that runs is going to change that. -/
structure Uncached {n : Nat} (s : Clients n) : Prop where
  cached : s.shared.cache.All fun _ => False
  only : ∀ i p, s.running i = some p → p.Only fun a => a.onBase = true

theorem Uncached.coherent {n : Nat} {s : Clients n} (h : Uncached s) : Coherent s.shared := by
  intro key item now hitem _
  exact (h.cached.item hitem).1.elim

theorem uncached_step {n : Nat} {config : CachedStorageConfig} (hc : config.cacheEnabled = false)
    {s t : Clients n} (h : Uncached s) {a : ClientAction n} (hstep : s.step config a = some t) :
    Uncached t := by
  have hrunning : ∀ {i : Fin n} {p : Option (Program Reply)},
      (∀ q ∈ p, q.Only fun a => a.onBase = true) →
        ∀ j q, Function.update s.running i p j = some q → q.Only fun a => a.onBase = true := by
    intro i p hp
    exact (forall_update_iff s.running fun _ p => ∀ q, p = some q → q.Only _).mpr
      ⟨hp, fun j _ => h.only j⟩
  obtain ⟨i, q, rfl, hi, rfl⟩ | ⟨i, env, b, k, r, rfl, hi, hr, rfl⟩ | ⟨i, x, rfl, hi, rfl⟩ :=
    Pool.step_cases hstep
  · exact ⟨h.cached, hrunning fun p hp => some.inj hp ▸ only_code hc q.2⟩
  · obtain ⟨hbase, hrest⟩ := h.only i _ hi
    refine ⟨?_, hrunning fun p hp => some.inj hp ▸ hrest r.2⟩
    rw [(handle_base hbase hr).1]
    exact h.cached
  · exact ⟨h.cached, hrunning fun p hp => by cases hp⟩

/-- **Coherence**: in every run of any number of clients in which no client writes a key in the
base engine while another is about to cache it, the cache is coherent whenever no call is
running. -/
theorem cache_coherent {n : Nat} (config : CachedStorageConfig) (e : Engine)
    (run : List (ClientAction n))
    (hrun : Lts.Along (Clients.step config) Clients.Undisturbed (Clients.init config e) run) :
    ∀ s ∈ Lts.trace (Clients.step config) (Clients.init config e) run,
      s.Idle → Coherent s.shared := by
  intro s hs hidle
  cases hc : config.cacheEnabled with
  | true =>
    have hinv : CoherenceInv s := hrun.forall_trace (coherenceInv_init e)
      (fun _ _ _ h hok hstep => coherenceInv_step hc h hok hstep) s hs
    exact hinv.coherent hidle
  | false =>
    have hnew : Uncached (Clients.init config e : Clients n) :=
      ⟨all_new config.cacheSize, fun i p h => by cases h⟩
    have hinv : Uncached s :=
      Lts.forall_trace hnew (fun _ _ _ h hstep => uncached_step hc h hstep) run s hs
    exact hinv.coherent

/-! ## Two runs -/

section Runs

/-- A cache of ten items without expiry. -/
def tenItems : CachedStorageConfig := ⟨true, 10, 0⟩

/-- An engine that holds the value `1` for the key `k`. -/
def oneKey : Engine := ⟨(∅ : Content).insert [107] [1], true⟩

/-- A call that meets no failure. -/
def fine (now : Time) : Time × Outcome := (now, ⟨none, .error .keyNotFound⟩)

/-- Client 1 writes `k` after client 0 has missed the cache and before it has read the base
engine. -/
def overtakenRun : List (ClientAction 2) :=
  [.begin 0 ⟨.get [107], nofun⟩, .advance 0 (fine 0), .begin 1 ⟨.put [107] [2], nofun⟩,
    .advance 1 (fine 1), .advance 0 (fine 2), .advance 1 (fine 3), .finish 1,
    .advance 0 (fine 4), .finish 0]

/-- The same calls, with the write between the read and the caching of client 0. -/
def staleRun : List (ClientAction 2) :=
  [.begin 0 ⟨.get [107], nofun⟩, .advance 0 (fine 0), .advance 0 (fine 1),
    .begin 1 ⟨.put [107] [2], nofun⟩, .advance 1 (fine 2), .advance 1 (fine 3), .finish 1,
    .advance 0 (fine 4), .finish 0]

theorem cache_coherent_overtakenRun :
    ((Lts.exec (Clients.step tenItems) (Clients.init tenItems oneKey) overtakenRun).map fun s =>
        (s.shared.cache.item [107]).map Entry.value) = some (some [2]) ∧
    ∀ s ∈ Lts.trace (Clients.step tenItems) (Clients.init tenItems oneKey) overtakenRun,
      s.Idle → Coherent s.shared :=
  ⟨by decide +kernel, cache_coherent tenItems oneKey overtakenRun (by decide +kernel)⟩

/-- **An overtaken `Get` leaves a stale value**: the base engine holds `2`, the cache `1`, and
nothing is running. -/
theorem stale_fill_counterexample :
    ∃ s ∈ Lts.trace (Clients.step tenItems) (Clients.init tenItems oneKey) staleRun,
      s.Idle ∧ (s.shared.cache.item [107]).map Entry.value = some [1] ∧
        s.shared.storage.content.txnGet [107] = .ok [2] ∧ ¬ Coherent s.shared := by
  refine ⟨_, List.mem_of_getLast? rfl, by unfold Pool.Idle; decide +kernel, by decide +kernel,
    rfl, ?_⟩
  intro h
  have hvalue := h [107] ⟨[107], [1], none⟩ 0 rfl (by decide)
  cases hvalue

end Runs

end DistributedKV.Storage
