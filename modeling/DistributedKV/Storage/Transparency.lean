import DistributedKV.Cache.Contents
import DistributedKV.Storage.CachedStorage

/-!
# The cache is transparent to one client

`Agrees` is the invariant: every cached item, expired or not, is what the base engine holds. Each
method has one triple: from a cache that agrees with the content it ends, with the answer of the
base engine and again with a cache that agrees.

In the middle of a batch the content is already the new one and the cache is being brought in line
item by item. The loops therefore speak of a content that has the items done so far.
-/

namespace DistributedKV.Storage

open List

open Cache (Bytes Key Time Duration Item all_new)

/-! ## Cached items are what the engine holds -/

/-- A cached item is what the content has for its key. -/
def Agrees (db : Content) (e : Item) : Prop := db.txnGet e.key = .ok e.value

/-- The base engine is `e`, and the items of the cache agree with `db`, which in the middle of a
batch is not yet the content of `e`. -/
structure Holds (config : CachedStorageConfig) (e : Engine) (db : Content) (s : Alone) : Prop where
  storage : s.machine.storage = e
  cached : config.cacheEnabled = true → s.machine.cache.All (Agrees db)

/-- The base engine is that of `s`, and the cache agrees with `db`. -/
def InLine (s : Alone) (db : Content) (t : Alone) : Prop :=
  t.machine.storage = s.machine.storage ∧ t.machine.cache.All (Agrees db)

/-- Engine and answer are what the base engine makes of the call. -/
def AsBase {α : Type} (config : CachedStorageConfig) (r : Engine × α) (t : Alone) (x : α) : Prop :=
  Holds config r.1 r.1.content t ∧ x = r.2

section Triples

variable {config : CachedStorageConfig} {clock : Nat → Time} {o : Outcome} {s : Alone}
  {e : Engine} {db : Content} {key : Key} {value : Bytes}

namespace CachedStorage

open Prog (Ends)

open Alone

theorem ends_lookup (h : Holds config e db s) :
    Ends (handle clock o) s (lookup config key) fun t found =>
      Holds config e db t ∧ ∀ v ∈ found, db.txnGet key = .ok v := by
  unfold lookup
  by_cases hc : config.cacheEnabled = true
  · obtain ⟨c, found, hget, hall, hfound⟩ := (h.cached hc).get (clock s.calls) key
    rw [if_pos hc]
    refine .perform (t := ⟨{ s.machine with cache := c }, s.calls + 1⟩) (r := found) ?_ ?_
    · simp [handle, Machine.handle, hget]
    refine ⟨⟨h.storage, fun _ => hall⟩, fun v hv => ?_⟩
    obtain ⟨i, hi, rfl, rfl⟩ := hfound v hv
    exact hi
  · rw [if_neg hc]
    exact .ret ⟨h, fun v hv => absurd hv (by simp)⟩

theorem ends_ifCached {p : Program Unit} {db' : Content} (h : Holds config e db s)
    (hp : s.machine.cache.All (Agrees db) → Ends (handle clock o) s p fun t _ => InLine s db' t) :
    Ends (handle clock o) s (ifCached config p) fun t _ => Holds config e db' t := by
  unfold ifCached
  split_ifs with hc
  · exact (hp (h.cached hc)).mono fun t _ ht => ⟨ht.1.trans h.storage, fun _ => ht.2⟩
  · exact .ret ⟨h.storage, fun hc' => absurd hc' hc⟩

/-- Caching a value: the cache agrees with any content that has this value and the old ones for
other keys. -/
theorem ends_cachePut {db' : Content} {ttl : Duration} (h : s.machine.cache.All (Agrees db))
    (hother : ∀ i, Agrees db i → i.key ≠ key → Agrees db' i) (hself : db'.txnGet key = .ok value) :
    Ends (handle clock o) s (call (.cachePut key value ttl)) fun t _ => InLine s db' t := by
  obtain ⟨c, hput, hall⟩ := h.put (clock s.calls) key value ttl hother hself
  refine .perform (t := ⟨{ s.machine with cache := c }, s.calls + 1⟩) (r := ()) ?_ ⟨rfl, hall⟩
  simp [handle, Machine.handle, hput]

theorem ends_cachePut_written {ttl : Duration} (h : s.machine.cache.All (Agrees db))
    (hkey : key ≠ []) : Ends (handle clock o) s (call (.cachePut key value ttl)) fun t _ =>
      InLine s (db.insert key value) t :=
  ends_cachePut h (fun _ hi hne => (Content.txnGet_insert_ne _ hne).trans hi)
    (Content.txnGet_insert_self hkey)

theorem ends_store_read (h : Holds config e db s) (hread : db.txnGet key = .ok value) :
    Ends (handle clock o) s (store config key value) fun t _ => Holds config e db t :=
  ends_ifCached h fun hall => ends_cachePut hall (fun _ hi _ => hi) hread

theorem ends_cacheDelete (h : s.machine.cache.All (Agrees db)) :
    Ends (handle clock o) s (call (.cacheDelete key)) fun t _ => InLine s (db.erase key) t := by
  obtain ⟨c, b, hdelete, hall⟩ :=
    h.delete (Q := Agrees (db.erase key)) key fun _ hi hne =>
      (Content.txnGet_erase _ hne).trans hi
  refine .perform (t := ⟨{ s.machine with cache := c }, s.calls + 1⟩) (r := ()) ?_ ⟨rfl, hall⟩
  simp [handle, Machine.handle, hdelete]

theorem ends_base {a : Atom} {e' : Engine} {r : a.Answer} (h : Holds config e db s)
    (ha : s.machine.handle (clock s.calls) o a = some ({ s.machine with storage := e' }, r)) :
    Ends (handle clock o) s (call a) fun t x => Holds config e' db t ∧ x = r := by
  refine .perform (t := ⟨{ s.machine with storage := e' }, s.calls + 1⟩) (r := r) ?_
    ⟨⟨rfl, h.cached⟩, rfl⟩
  simp [handle, ha]

/-! ## The methods that write -/

/-- The content is written first; the update then brings the cache in line with it. -/
theorem ends_writeThrough {base : Program (Option StorageError)} {update : Program Unit}
    {r : Engine × Option StorageError} {P : Prop} {d : Content}
    (hbase : Ends (handle clock o) s base fun t x => Holds config r.1 e.content t ∧ x = r.2)
    (hr : (∃ err, r = (e, some err)) ∨ P ∧ r = ({ e with content := d }, none))
    (hupdate : P → ∀ t, t.machine.cache.All (Agrees e.content) →
      Ends (handle clock o) t update fun u _ => InLine t d u) :
    Ends (handle clock o) s (writeThrough base (ifCached config update)) (AsBase config r) := by
  refine .bind (hbase.mono ?_)
  rintro t _ ⟨ht, rfl⟩
  obtain ⟨err, rfl⟩ | ⟨hp, rfl⟩ := hr
  · exact .ret ⟨ht, rfl⟩
  · exact .bind ((ends_ifCached ht (hupdate hp t)).mono fun u _ hu => .ret ⟨hu, rfl⟩)

theorem ends_put (h : Holds config e e.content s) :
    Ends (handle clock o) s (put config key value) (AsBase config (e.put o.fault key value)) :=
  ends_writeThrough (ends_base h (by rw [← h.storage]; rfl)) (e.put_cases o.fault key value)
    fun hkey t hall => ends_cachePut_written hall hkey

theorem ends_delete (h : Holds config e e.content s) :
    Ends (handle clock o) s (delete config key) (AsBase config (e.delete o.fault key)) :=
  ends_writeThrough (ends_base h (by rw [← h.storage]; rfl)) (e.delete_cases o.fault key)
    fun _ t hall => ends_cacheDelete hall

/-- A loop of updates: the cache agrees with the content that has the updates done so far. -/
theorem ends_each {γ : Type} {f : γ → Program Unit} {g : Content → γ → Content} {xs : List γ}
    (hf : ∀ x ∈ xs, ∀ db t, t.machine.cache.All (Agrees db) →
      Ends (handle clock o) t (f x) fun u _ => InLine t (g db x) u)
    (h : s.machine.cache.All (Agrees db)) :
    Ends (handle clock o) s (.each f xs) fun t _ => InLine s (xs.foldl g db) t := by
  refine Ends.each (I := InLine s) (g := g) ?_ ⟨rfl, h⟩
  rintro x hx now t ⟨hstorage, hall⟩
  exact (hf x hx now t hall).mono fun u _ hu => ⟨hu.1.trans hstorage, hu.2⟩

theorem ends_batchPut (items : List KeyValue) (h : Holds config e e.content s) :
    Ends (handle clock o) s (batchPut config items) (AsBase config (e.batchPut o.fault items)) := by
  refine ends_writeThrough (ends_base h (by rw [← h.storage]; rfl)) (e.batchPut_cases o.fault items)
    fun hkeys t hall => ends_each ?_ hall
  exact fun item hitem now u hu => ends_cachePut_written hu (hkeys item hitem)

theorem ends_batchDelete (keys : List Key) (h : Holds config e e.content s) :
    Ends (handle clock o) s (batchDelete config keys)
      (AsBase config (e.batchDelete o.fault keys)) :=
  ends_writeThrough (ends_base h (by rw [← h.storage]; rfl)) (e.batchDelete_cases o.fault keys)
    fun _ t hall => ends_each (fun key _ now u hu => ends_cacheDelete hu) hall

theorem ends_restore (h : Holds config e e.content s) :
    Ends (handle clock o) s (restore config) (AsBase config (e.restore o.backup)) := by
  refine ends_writeThrough (P := True) (d := o.backup.toOption.getD e.content)
    (ends_base h (by rw [← h.storage]; rfl)) ?_ fun _ t hall => ?_
  · cases o.backup with
    | error err => exact .inl ⟨err, rfl⟩
    | ok content => exact .inr ⟨trivial, rfl⟩
  -- Whatever was restored, an empty cache agrees with it.
  refine .perform (t := ⟨{ t.machine with cache := t.machine.cache.clear }, t.calls + 1⟩)
    (r := ()) ?_ ⟨rfl, hall.clear⟩
  rfl

/-! ## The methods that read -/

theorem ends_read {a : Atom} {r : a.Answer} (h : Holds config e db s)
    (ha : s.machine.handle (clock s.calls) o a = some (s.machine, r)) :
    Ends (handle clock o) s (call a) fun t x => Holds config e db t ∧ x = r :=
  ends_base h (h.storage ▸ ha)

theorem ends_baseGet (h : Holds config e db s) :
    Ends (handle clock o) s (call (.get key)) fun t x => Holds config e db t ∧ x = e.get key :=
  ends_read h (by rw [← h.storage]; rfl)

theorem ends_warm (h : Holds config e e.content s) :
    Ends (handle clock o) s (warm config key) fun t _ => Holds config e e.content t := by
  refine .bind (ends_baseGet h |>.mono ?_)
  rintro t _ ⟨ht, rfl⟩
  cases hget : e.get key with
  | mk value err =>
    cases err with
    | some err => exact .ret ht
    | none => exact ends_store_read ht (e.txnGet_of_get hget)

theorem ends_warmCache (keys : List Key) (h : Holds config e e.content s) :
    Ends (handle clock o) s (warmCache config keys) (AsBase config (e, none)) := by
  refine .bind ?_
  unfold ifCached
  by_cases hc : config.cacheEnabled = true
  · rw [if_pos hc]
    let I : Unit → Alone → Prop := fun _ t => Holds config e e.content t
    exact (Ends.each (I := I) (g := fun _ _ => ()) (b := ())
      (fun key _ _ t ht => ends_warm ht) h).mono fun t _ ht => .ret ⟨ht, rfl⟩
  · rw [if_neg hc]
    exact .ret (.ret ⟨h, rfl⟩)

theorem ends_cleanup (order : IterationOrder Key) (h : Holds config e db s) :
    Ends (handle clock o) s (cleanup config order) fun t _ => Holds config e db t := by
  refine ends_ifCached h fun hall => ?_
  obtain ⟨c, n, hcleanup, hall'⟩ := hall.cleanupExpired (clock s.calls) order
  refine .perform (t := ⟨{ s.machine with cache := c }, s.calls + 1⟩) (r := ()) ?_ ⟨rfl, hall'⟩
  simp [handle, Machine.handle, hcleanup]

/-- A `Get` answers as the base engine does, whether or not the key is cached. -/
theorem ends_get (h : Holds config e e.content s) :
    Ends (handle clock o) s (get config key) fun t x => Holds config e e.content t ∧
        (Reply.value x.1 x.2).seen = (Reply.value (e.get key).1 (e.get key).2).seen := by
  refine .bind (ends_lookup h |>.mono ?_)
  rintro t found ⟨ht, hfound⟩
  cases found with
  | some v =>
    have hv : e.content.txnGet key = .ok v := hfound v rfl
    refine .ret ⟨ht, ?_⟩
    rw [e.get_of_txnGet hv]
    exact congrArg Seen.value (e.valueCopy_getD v).symm
  | none =>
    refine .bind (ends_baseGet ht |>.mono ?_)
    rintro u _ ⟨hu, rfl⟩
    cases hget : e.get key with
    | mk value err =>
      cases err with
      | some err => exact .ret ⟨hu, rfl⟩
      | none =>
        cases value with
        | none => exact .ret ⟨hu, rfl⟩
        | some v =>
          exact .bind ((ends_store_read hu (e.txnGet_of_get hget)).mono fun w _ hw =>
            .ret ⟨hw, rfl⟩)

open Engine

theorem ends_has (h : Holds config e e.content s) :
    Ends (handle clock o) s (has config key) (AsBase config (e, e.has key)) := by
  refine .bind (ends_lookup h |>.mono ?_)
  rintro t found ⟨ht, hfound⟩
  cases found with
  | some v =>
    have hv : e.content.txnGet key = .ok v := hfound v rfl
    exact .ret ⟨ht, by simp [Engine.has, hv]⟩
  | none => exact ends_read ht (by rw [← ht.storage]; rfl)

/-! ## `BatchGet` -/

/-- Writing the missing results at their indexes completes the list. -/
theorem foldl_set_eq {α : Type} {target : List α} {writes : List (Nat × α)} {rs : List α}
    (hlen : rs.length = target.length) (hwrites : ∀ w ∈ writes, target[w.1]? = some w.2)
    (hrest : ∀ n, n ∈ writes.map Prod.fst ∨ rs[n]? = target[n]?) :
    writes.foldl (fun rs w => rs.set w.1 w.2) rs = target := by
  induction writes generalizing rs with
  | nil => exact ext_getElem? fun n => (hrest n).resolve_left not_mem_nil
  | cons w writes ih =>
    refine ih (by simpa using hlen) (fun v hv => hwrites v (mem_cons_of_mem _ hv)) fun n => ?_
    have hw := hwrites w mem_cons_self
    by_cases hn : w.1 = n
    · right
      subst hn
      rw [hw, getElem?_set_self]
      rw [hlen]
      exact (List.getElem?_eq_some_iff.1 hw).1
    · rw [getElem?_set_ne hn]
      refine (hrest n).imp_left fun hmem => ?_
      exact (mem_cons.1 hmem).resolve_left (Ne.symm hn)

/-- What the first loop leaves: an answer for every key, or its index among the misses. -/
structure Looked (db : Content) (i : Nat) (keys : List Key)
    (looked : List KeyValue × List (Nat × Key)) : Prop where
  length : looked.1.length = keys.length
  misses : ∀ m ∈ looked.2, ∃ n, m.1 = i + n ∧ keys[n]? = some m.2
  hits : ∀ n key, keys[n]? = some key →
    (i + n, key) ∈ looked.2 ∨ looked.1[n]? = some (Engine.answer db key) ∧ key ≠ []

variable {keys : List Key} {looked : List KeyValue × List (Nat × Key)}

/-- One more key in front, either among the misses or answered. -/
theorem Looked.cons {i : Nat} (h : Looked db (i + 1) keys looked) (r : KeyValue)
    (first : List (Nat × Key)) (hmiss : ∀ m ∈ first, m = (i, key))
    (hhit : (i, key) ∈ first ∨ r = answer db key ∧ key ≠ []) :
    Looked db i (key :: keys) (r :: looked.1, first ++ looked.2) where
  length := congrArg (· + 1) h.length
  misses := by
    intro m hm
    obtain hm | hm := mem_append.1 hm
    · exact ⟨0, by simp [hmiss m hm]⟩
    · obtain ⟨n, hn, hkey⟩ := h.misses m hm
      exact ⟨n + 1, by omega, hkey⟩
  hits := by
    intro n k hk
    cases n with
    | zero =>
      cases hk
      exact hhit.imp (mem_append_left _) fun hr => ⟨congrArg some hr.1, hr.2⟩
    | succ n =>
      refine (h.hits n k hk).imp_left fun hmem => mem_append_right _ ?_
      rwa [show i + (n + 1) = i + 1 + n by omega]

theorem ends_batchLookup (i : Nat) (keys : List Key) (h : Holds config e db s) :
    Ends (handle clock o) s (batchLookup config i keys) fun t looked =>
      Holds config e db t ∧ Looked db i keys looked := by
  induction keys generalizing i s with
  | nil =>
    exact .ret ⟨h, ⟨rfl, fun m hm => absurd hm not_mem_nil, fun n key hn => by simp at hn⟩⟩
  | cons key keys ih =>
    refine .bind (ends_lookup h |>.mono ?_)
    rintro t found ⟨ht, hfound⟩
    refine .bind (ih (i + 1) ht |>.mono ?_)
    rintro u rest ⟨hu, hrest⟩
    cases found with
    | none => exact .ret ⟨hu, hrest.cons .zero [(i, key)] (by simp) (.inl (by simp))⟩
    | some v =>
      have hv : db.txnGet key = .ok v := hfound v rfl
      refine .ret ⟨hu, hrest.cons ⟨key, v, true⟩ [] (by simp) (.inr ⟨?_, ?_⟩)⟩
      · simp [answer, hv]
      · exact Content.ne_nil_of_txnGet hv

/-- The second loop caches what it was given, and writes the results. -/
theorem ends_batchFill (writes : List (Nat × KeyValue)) (rs : List KeyValue)
    (hwrites : ∀ w ∈ writes, w.2.found = true → db.txnGet w.2.key = .ok w.2.value)
    (h : Holds config e db s) :
    Ends (handle clock o) s (batchFill config writes rs) fun t results =>
      Holds config e db t ∧ results = writes.foldl (fun rs w => rs.set w.1 w.2) rs := by
  induction writes generalizing rs s with
  | nil => exact .ret ⟨h, rfl⟩
  | cons w writes ih =>
    have hstore : Ends (handle clock o) s (storeFound config w.2)
        fun t _ => Holds config e db t := by
      unfold storeFound
      split
      case isTrue hf => exact ends_store_read h (hwrites w mem_cons_self hf)
      case isFalse => exact .ret h
    refine .bind (hstore.mono fun t _ ht => ?_)
    exact ih (rs.set w.1 w.2) (fun v hv => hwrites v (mem_cons_of_mem _ hv)) ht

/-- The answers of the base engine for the misses complete the answers from the cache. -/
theorem Looked.complete (h : Looked db 0 keys looked) :
    ((looked.2.map fun m => (m.1, answer db m.2)).foldl (fun rs w => rs.set w.1 w.2) looked.1) =
      keys.map (answer db) := by
  refine foldl_set_eq (by simpa using h.length) ?_ fun n => ?_
  · intro w hw
    obtain ⟨m, hm, rfl⟩ := mem_map.1 hw
    obtain ⟨n, hn, hkey⟩ := h.misses m hm
    rw [getElem?_map, show m.1 = n by omega, hkey]
    rfl
  cases hn : keys[n]? with
  | none =>
    right
    rw [getElem?_map, hn, Option.map_none]
    exact getElem?_eq_none (h.length ▸ getElem?_eq_none_iff.1 hn)
  | some key =>
    rw [getElem?_map, hn]
    refine (h.hits n key hn).imp (fun hmem => ?_) And.left
    rw [map_map, mem_map]
    exact ⟨_, hmem, by simp⟩

/-- The empty key is never cached, so it is among the misses. -/
theorem Looked.mem_nil (h : Looked db 0 keys looked) : [] ∈ looked.2.map Prod.snd ↔ [] ∈ keys := by
  constructor <;> intro hmem
  · obtain ⟨m, hm, hnil⟩ := mem_map.1 hmem
    obtain ⟨n, -, hkey⟩ := h.misses m hm
    exact mem_of_getElem? (hnil ▸ hkey)
  obtain ⟨n, hn⟩ := mem_iff_getElem?.1 hmem
  obtain hmiss | ⟨-, hne⟩ := h.hits n [] hn
  · exact mem_map_of_mem hmiss
  · exact absurd rfl hne

theorem ends_batchGet (keys : List Key) (h : Holds config e e.content s) :
    Ends (handle clock o) s (batchGet config keys) fun t x => Holds config e e.content t ∧
        (Reply.values x.1 x.2).seen =
          (Reply.values (e.batchGet keys).1 (e.batchGet keys).2).seen := by
  refine .bind (ends_batchLookup 0 keys h |>.mono ?_)
  rintro t looked ⟨ht, hlooked⟩
  have hread : Ends (handle clock o) t (call (.batchGet (looked.2.map Prod.snd))) fun u x =>
      Holds config e e.content u ∧ x = e.batchGet (looked.2.map Prod.snd) :=
    ends_read ht (by rw [← ht.storage]; rfl)
  by_cases hnil : [] ∈ keys
  · -- Both calls fail.
    have hmiss := hlooked.mem_nil.2 hnil
    have hne : looked.2 ≠ [] := by
      intro heq
      rw [heq] at hmiss
      cases hmiss
    rw [if_neg hne]
    refine .bind (hread.mono ?_)
    rintro u x ⟨hu, rfl⟩
    obtain ⟨rs, hrs⟩ := e.batchGet_of_empty hmiss
    obtain ⟨rs', hrs'⟩ := e.batchGet_of_empty hnil
    rw [hrs, hrs']
    exact .ret ⟨hu, rfl⟩
  have hmiss : [] ∉ looked.2.map Prod.snd := fun h => hnil (hlooked.mem_nil.1 h)
  have hcomplete := hlooked.complete
  rw [e.batchGet_of_nonempty hnil]
  split_ifs with hempty
  · rw [hempty] at hcomplete
    exact .ret ⟨ht, congrArg Seen.values hcomplete⟩
  refine .bind (hread.mono ?_)
  rintro u x ⟨hu, rfl⟩
  rw [e.batchGet_of_nonempty hmiss]
  have hwrites : (looked.2.map Prod.fst).zip ((looked.2.map Prod.snd).map (answer e.content)) =
      looked.2.map fun m => (m.1, answer e.content m.2) := by
    rw [map_map, zip_map']
    rfl
  refine .bind ((ends_batchFill _ looked.1 ?_ hu).mono ?_)
  · intro w hw hfound
    rw [hwrites] at hw
    obtain ⟨m, -, rfl⟩ := mem_map.1 hw
    exact txnGet_of_answer hfound
  · rintro w results ⟨hw, rfl⟩
    rw [hwrites, hcomplete]
    exact .ret ⟨hw, rfl⟩

end CachedStorage

/-! ## Requests -/

open CachedStorage in
/-- A request leaves the base engine and answers the caller as it would without the cache. -/
theorem ends_code (q : Request) (h : Holds config e e.content s) :
    (q.code config).Ends (Alone.handle clock o) s fun t reply =>
      Holds config (e.serve o q).1 (e.serve o q).1.content t ∧
        reply.seen = (e.serve o q).2.seen := by
  cases q with
  | put key value =>
    exact .bind ((ends_put h).mono fun t x ht => .ret ⟨ht.1, by rw [ht.2]; rfl⟩)
  | get key => exact .bind ((ends_get h).mono fun t x ht => .ret ht)
  | delete key => exact .bind ((ends_delete h).mono fun t x ht => .ret ⟨ht.1, by rw [ht.2]; rfl⟩)
  | has key => exact .bind ((ends_has h).mono fun t x ht => .ret ⟨ht.1, by rw [ht.2]; rfl⟩)
  | batchPut items =>
    exact .bind ((ends_batchPut items h).mono fun t x ht => .ret ⟨ht.1, by rw [ht.2]; rfl⟩)
  | batchGet keys => exact .bind ((ends_batchGet keys h).mono fun t x ht => .ret ht)
  | batchDelete keys =>
    exact .bind ((ends_batchDelete keys h).mono fun t x ht => .ret ⟨ht.1, by rw [ht.2]; rfl⟩)
  | warmCache keys =>
    exact .bind ((ends_warmCache keys h).mono fun t x ht => .ret ⟨ht.1, by rw [ht.2]; rfl⟩)
  | restore => exact .bind ((ends_restore h).mono fun t x ht => .ret ⟨ht.1, by rw [ht.2]; rfl⟩)
  | cleanup order => exact .bind ((ends_cleanup order h).mono fun t x ht => .ret ⟨ht, rfl⟩)

theorem serveCached_spec (requests : List (Request × Outcome)) (h : Holds config e e.content s) :
    ∃ t replies, serveCached config clock s requests = some (t, replies) ∧
      replies.map Reply.seen = (e.serveAll requests).2.map Reply.seen ∧
      Holds config (e.serveAll requests).1 (e.serveAll requests).1.content t := by
  induction requests generalizing s e with
  | nil => exact ⟨s, [], rfl, rfl, h⟩
  | cons r requests ih =>
    have hfirst : (r.1.code config).Ends (Alone.handle clock r.2) s _ := ends_code r.1 h
    obtain ⟨t, reply, hrun, ht, hreply⟩ := hfirst
    obtain ⟨u, replies, hrest, hreplies, hu⟩ := ih ht
    refine ⟨u, reply :: replies, ?_, ?_, hu⟩
    · simp [serveCached, hrun, hrest]
    · simp [Engine.serveAll, hreply, hreplies]

end Triples

/-- **The cache is transparent**: for every configuration, clock and outcome of the writes, a
sequence of requests on the cached engine never panics, and it answers and leaves the base
engine as the same sequence without the cache. -/
theorem cache_transparent (config : CachedStorageConfig) (clock : Nat → Time) (e : Engine)
    (requests : List (Request × Outcome)) : ∃ s replies,
      serveCached config clock ⟨newCachedStorageEngine e config, 0⟩ requests = some (s, replies) ∧
      replies.map Reply.seen = (e.serveAll requests).2.map Reply.seen ∧
      s.machine.storage = (e.serveAll requests).1 := by
  have hinit : Holds config e e.content ⟨newCachedStorageEngine e config, 0⟩ :=
    ⟨rfl, fun _ => all_new config.cacheSize⟩
  obtain ⟨s, replies, hrun, hseen, hs⟩ := serveCached_spec requests hinit
  exact ⟨s, replies, hrun, hseen, hs.storage⟩

end DistributedKV.Storage
