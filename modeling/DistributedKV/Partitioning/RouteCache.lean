import DistributedKV.Partitioning.Router

/-!
# The size of the route cache

A full cache is meant to lose its oldest entry before a route is stored. The loop that looks for
that entry finds it (`oldest_of_foldl`), but the empty key stands for "none", so that an entry with
the empty key is never evicted: nothing is, whenever it is the one that is found.
-/

namespace DistributedKV.Partitioning

open AList GoMap List

namespace World

/-- The calls on the cache. -/
inductive CacheCall where
  | lookup (now : Int) (key : String)
  | cache (order : IterationOrder ((_ : String) × RouteInfo)) (key : String) (route : RouteInfo)
  | invalidate (key : String)

/-- One call, with a cache of the given size and timeout. -/
def cacheStep (timeout : Int64) (maxCacheSize : Int) (w : World) : CacheCall → Option World
  | .lookup now key => some (w.getCachedRoute timeout now key).1
  | .cache order key route => some (w.cacheRoute maxCacheSize order key route)
  | .invalidate key => some (w.invalidateRoute key)

/-- The key has an entry, and no entry was cached before it. -/
def Oldest (w : World) (key : String) : Prop :=
  ∃ route, w.routeCache.lookup key = some route ∧
    ∀ other r, w.routeCache.lookup other = some r → route.cachedAt ≤ r.cachedAt

/-- What is asked of a call: it leaves no more entries than allowed, and a route stored into a
full cache takes the place of an oldest entry, in any order of the loop. -/
def WithinSize (timeout : Int64) (maxCacheSize : Int) (w : World) : CacheCall → Prop
  | .lookup now key => ((w.getCachedRoute timeout now key).1.routeCache.len : Int) ≤ maxCacheSize
  | .invalidate key => ((w.invalidateRoute key).routeCache.len : Int) ≤ maxCacheSize
  | .cache _ key route => ∀ order,
    ((w.cacheRoute maxCacheSize order key route).routeCache.len : Int) ≤ maxCacheSize ∧
      ((w.routeCache.len : Int) ≥ maxCacheSize → ∃ gone, w.Oldest gone ∧
        ∀ k, (w.cacheRoute maxCacheSize order key route).routeCache.lookup k =
          if k = key then some route else if k = gone then none else w.routeCache.lookup k)

/-- If the cache is full and the entry of the empty key is an oldest one, then so is that of the
key. -/
def Evictable (maxCacheSize : Int) (w : World) : CacheCall → Prop
  | .cache _ key _ => (w.routeCache.len : Int) ≥ maxCacheSize → w.Oldest "" → w.Oldest key
  | _ => True

/-! ## The oldest entry -/

/-- The entry that the loop ends with is one it has met, and none is older. -/
theorem foldl_older (l : List ((_ : String) × RouteInfo)) (key : String) (time : Int) :
    ∃ key' time', l.foldl older (some (key, time)) = some (key', time') ∧ time' ≤ time ∧
      (∀ e ∈ l, time' ≤ e.2.cachedAt) ∧
      (key' = key ∧ time' = time ∨ ∃ e ∈ l, key' = e.1 ∧ time' = e.2.cachedAt) := by
  induction l generalizing key time with
  | nil => exact ⟨key, time, rfl, le_rfl, by simp, Or.inl ⟨rfl, rfl⟩⟩
  | cons e l ih =>
    rw [foldl_cons, older]
    split_ifs with hlt
    · obtain ⟨key', time', heq, hle, hall, horigin⟩ := ih e.1 e.2.cachedAt
      refine ⟨key', time', heq, hle.trans hlt.le, ?_, Or.inr ?_⟩
      · intro e' he'
        rcases mem_cons.mp he' with rfl | he'
        · exact hle
        · exact hall e' he'
      · rcases horigin with ⟨hkey, htime⟩ | ⟨e', he', hkey, htime⟩
        · exact ⟨e, mem_cons_self, hkey, htime⟩
        · exact ⟨e', mem_cons_of_mem e he', hkey, htime⟩
    obtain ⟨key', time', heq, hle, hall, horigin⟩ := ih key time
    refine ⟨key', time', heq, hle, ?_, ?_⟩
    · intro e' he'
      rcases mem_cons.mp he' with rfl | he'
      · exact hle.trans (not_lt.mp hlt)
      · exact hall e' he'
    · rcases horigin with hsame | ⟨e', he', hkey, htime⟩
      · exact Or.inl hsame
      · exact Or.inr ⟨e', mem_cons_of_mem e he', hkey, htime⟩

/-- An entry that is visited first is kept if none is older. -/
theorem foldl_older_of_le {l : List ((_ : String) × RouteInfo)} {key : String} {time : Int}
    (h : ∀ e ∈ l, time ≤ e.2.cachedAt) : l.foldl older (some (key, time)) = some (key, time) := by
  induction l with
  | nil => rfl
  | cons e l ih =>
    rw [foldl_cons, older, if_neg (not_lt.mpr (h e mem_cons_self))]
    exact ih fun e' he' => h e' (mem_cons_of_mem e he')

variable {w : World} {key gone : String} {route : RouteInfo} {timeout : Int64} {maxCacheSize : Int}

/-- Whatever the order, the loop finds an oldest entry of a cache that is not empty. -/
theorem oldest_of_foldl (order : IterationOrder ((_ : String) × RouteInfo))
    (hne : w.routeCache.len ≠ 0) :
    ∃ gone time, (order.pick w.routeCache.entries).foldl older none = some (gone, time) ∧
      w.Oldest gone := by
  have hlength : (order.pick w.routeCache.entries).length ≠ 0 := by
    rw [(order.perm _).length_eq, ← length_map Sigma.fst]
    exact hne
  have hlookup : ∀ e : (_ : String) × RouteInfo, e ∈ order.pick w.routeCache.entries ↔
      w.routeCache.lookup e.1 = some e.2 := fun e => by
    rw [order.mem_pick]
    exact mem_lookup_iff.symm
  cases hpick : order.pick w.routeCache.entries with
  | nil => exact absurd (by rw [hpick]; rfl) hlength
  | cons e l =>
    rw [hpick] at hlookup
    obtain ⟨key, time, heq, hle, hall, horigin⟩ := foldl_older l e.1 e.2.cachedAt
    obtain ⟨found, hfound, rfl, rfl⟩ : ∃ found ∈ e :: l, key = found.1 ∧
        time = found.2.cachedAt := by
      rcases horigin with ⟨hkey, htime⟩ | ⟨e', he', hkey, htime⟩
      · exact ⟨e, mem_cons_self, hkey, htime⟩
      · exact ⟨e', mem_cons_of_mem e he', hkey, htime⟩
    refine ⟨found.1, found.2.cachedAt, heq, found.2, (hlookup found).mp hfound, ?_⟩
    intro other r hother
    rcases mem_cons.mp ((hlookup ⟨other, r⟩).mpr hother) with hmem | hmem
    · rw [← hmem] at hle
      exact hle
    · exact hall _ hmem

/-- An order in which a loop comes to an oldest entry first. -/
theorem exists_order_first (hold : w.Oldest gone) :
    ∃ (order : IterationOrder ((_ : String) × RouteInfo)) (time : Int),
      (order.pick w.routeCache.entries).foldl older none = some (gone, time) := by
  obtain ⟨route, hroute, hleast⟩ := hold
  have hmem : (⟨gone, route⟩ : (_ : String) × RouteInfo) ∈ w.routeCache.entries :=
    mem_lookup_iff.mp hroute
  obtain ⟨before, after, hentries⟩ := append_of_mem hmem
  have hperm : (⟨gone, route⟩ :: (before ++ after)).Perm w.routeCache.entries := by
    rw [hentries]
    exact perm_middle.symm
  obtain ⟨order, horder⟩ := IterationOrder.exists_pick_eq hperm
  refine ⟨order, route.cachedAt, ?_⟩
  rw [horder, foldl_cons]
  refine foldl_older_of_le fun e he => ?_
  have hentry : e ∈ w.routeCache.entries := hperm.mem_iff.mp (mem_cons_of_mem _ he)
  exact hleast e.1 e.2 (mem_lookup_iff.mpr hentry)

/-! ## Storing a route -/

theorem Oldest.mem (h : w.Oldest gone) : gone ∈ w.routeCache := by
  obtain ⟨route, hroute, -⟩ := h
  exact mem_of_lookup hroute

theorem cacheRoute_of_found {order : IterationOrder ((_ : String) × RouteInfo)} {time : Int}
    (hfull : (w.routeCache.len : Int) ≥ maxCacheSize)
    (hfound : (order.pick w.routeCache.entries).foldl older none = some (gone, time)) :
    (w.cacheRoute maxCacheSize order key route).routeCache =
      if gone ≠ "" then (w.routeCache.erase gone).insert key route
      else w.routeCache.insert key route := by
  have hge : (w.routeCache.keys.length : Int) ≥ maxCacheSize := hfull
  rw [cacheRoute, if_pos hge, evictOldestEntry, hfound]
  dsimp only
  split <;> rfl

/-- Storing a route is as asked for exactly if an oldest entry can be evicted. -/
theorem cache_withinSize_iff (hpos : 1 ≤ maxCacheSize)
    (hsize : (w.routeCache.len : Int) ≤ maxCacheSize)
    (order : IterationOrder ((_ : String) × RouteInfo)) :
    w.WithinSize timeout maxCacheSize (.cache order key route) ↔
      w.Evictable maxCacheSize (.cache order key route) := by
  constructor
  · -- the order that comes to the empty key first evicts nothing
    intro hwithin hfull hempty
    by_contra hkey
    obtain ⟨order, time, hfound⟩ := exists_order_first hempty
    obtain ⟨gone, hgone, hlookup⟩ := (hwithin order).2 hfull
    have hne : gone ≠ key := by
      rintro rfl
      exact hkey hgone
    have hstill := hlookup gone
    rw [cacheRoute_of_found hfull hfound, if_neg (not_not.mpr rfl), lookup_insert_ne hne,
      if_neg hne, if_pos rfl, lookup_eq_none] at hstill
    exact hstill hgone.mem
  intro hevict order
  by_cases hfull : (w.routeCache.len : Int) ≥ maxCacheSize
  · have hne : w.routeCache.len ≠ 0 := by omega
    obtain ⟨found, time, hfound, hold⟩ := oldest_of_foldl order hne
    rw [cacheRoute_of_found hfull hfound]
    by_cases hname : found = ""
    · -- nothing is evicted, and the route replaces an oldest entry
      have hkey : w.Oldest key := hevict hfull (hname ▸ hold)
      rw [if_neg (not_not.mpr hname), len_insert_of_mem hkey.mem]
      refine ⟨hsize, fun _ => ⟨key, hkey, fun k => ?_⟩⟩
      rw [lookup_insert_ite]
      split_ifs <;> rfl
    · rw [if_pos hname]
      refine ⟨?_, fun _ => ⟨found, hold, fun k => by rw [lookup_insert_ite, lookup_erase_ite]⟩⟩
      have hless := len_erase_of_mem hold.mem
      have hmore : GoMap.len ((w.routeCache.erase found).insert key route) ≤ _ := len_insert_le
      omega
  · have hnot : ¬(w.routeCache.keys.length : Int) ≥ maxCacheSize := hfull
    rw [cacheRoute, if_neg hnot]
    dsimp only
    have hmore : GoMap.len (w.routeCache.insert key route) ≤ _ := len_insert_le
    omega

theorem len_getCachedRoute_le (now : Int) :
    (w.getCachedRoute timeout now key).1.routeCache.len ≤ w.routeCache.len := by
  rw [getCachedRoute]
  split
  · exact le_rfl
  split
  · exact len_erase_le
  · exact le_rfl

theorem withinSize_iff (hpos : 1 ≤ maxCacheSize) (hsize : (w.routeCache.len : Int) ≤ maxCacheSize)
    (call : CacheCall) :
    w.WithinSize timeout maxCacheSize call ↔ w.Evictable maxCacheSize call := by
  cases call with
  | lookup now key =>
    have hle : (w.getCachedRoute timeout now key).1.routeCache.len ≤ _ := len_getCachedRoute_le now
    refine iff_of_true ?_ trivial
    show ((w.getCachedRoute timeout now key).1.routeCache.len : Int) ≤ maxCacheSize
    omega
  | cache order key route => exact cache_withinSize_iff hpos hsize order
  | invalidate key =>
    have hle : GoMap.len (w.routeCache.erase key) ≤ _ := len_erase_le
    refine iff_of_true ?_ trivial
    show (GoMap.len (w.routeCache.erase key) : Int) ≤ maxCacheSize
    omega

/-- A call that is as asked for leaves no more entries than allowed. -/
theorem WithinSize.len_le {call : CacheCall} (h : w.WithinSize timeout maxCacheSize call)
    {w' : World} (hstep : w.cacheStep timeout maxCacheSize call = some w') :
    (w'.routeCache.len : Int) ≤ maxCacheSize := by
  cases call with
  | lookup now key =>
    cases hstep
    exact h
  | cache order key route =>
    cases hstep
    exact (h order).1
  | invalidate key =>
    cases hstep
    exact h

/-- **The bound of the cache.** For every size and timeout and every run of lookups, stored
routes and invalidations from the empty cache: all calls leave the cache within its size, and a
full cache loses an oldest entry for the route that is stored, exactly if all routes are stored
when an oldest entry can be evicted. -/
theorem cacheCalls_iff (hpos : 1 ≤ maxCacheSize) (timeout : Int64) (w : World)
    (calls : List CacheCall) :
    Lts.Along (cacheStep timeout maxCacheSize) (WithinSize timeout maxCacheSize)
        { w with routeCache := ∅ } calls ↔
      Lts.Along (cacheStep timeout maxCacheSize) (Evictable maxCacheSize)
        { w with routeCache := ∅ } calls := by
  have hempty : (({ w with routeCache := ∅ } : World).routeCache.len : Int) ≤ maxCacheSize := by
    show ((0 : Nat) : Int) ≤ maxCacheSize
    omega
  constructor <;>
    refine Lts.Along.mono_of_inv (fun w => (w.routeCache.len : Int) ≤ maxCacheSize) ?_ hempty
  · intro w call hsize hwithin
    exact ⟨(withinSize_iff hpos hsize call).mp hwithin, fun w' hstep => hwithin.len_le hstep⟩
  intro w call hsize hevict
  have hwithin : w.WithinSize timeout maxCacheSize call :=
    (withinSize_iff hpos hsize call).mpr hevict
  exact ⟨hwithin, fun w' hstep => hwithin.len_le hstep⟩

/-- A router with nothing in it. -/
def blank : World := ⟨⟨∅, newHashRing 1, "n"⟩, newHashRing 1, ∅⟩

/-- A route to the node `n`, cached at an instant. -/
def routeAt (key : String) (cachedAt : Int) : RouteInfo := ⟨key, 0, "n", ["n"], cachedAt, true⟩

theorem cacheCalls_two :
    Lts.Along (cacheStep 10 1) (WithinSize 10 1) { blank with routeCache := ∅ }
      [.cache .asGiven "a" (routeAt "a" 0), .cache .asGiven "b" (routeAt "b" 1)] := by
  refine (cacheCalls_iff (by decide) 10 blank _).mpr ⟨fun _ hempty => ?_, fun w hw => ⟨?_, ?_⟩⟩
  · exact absurd hempty.mem (by decide)
  · cases hw
    exact fun _ hempty => absurd hempty.mem (by decide +kernel)
  · exact fun _ _ => trivial

/-- A cache for one entry holds the route of the empty key: a second route is stored beside it.
-/
theorem emptyKey_counterexample :
    (Lts.exec (cacheStep 10 1) blank [.cache .asGiven "" (routeAt "" 0),
        .cache .asGiven "b" (routeAt "b" 1)]).map (fun w => w.routeCache.keys) = some ["b", ""] ∧
      ¬Lts.Along (cacheStep 10 1) (WithinSize 10 1) blank [.cache .asGiven "" (routeAt "" 0),
        .cache .asGiven "b" (routeAt "b" 1)] := by
  refine ⟨by decide +kernel, ?_⟩
  rintro ⟨-, hrest⟩
  have hsecond := ((hrest _ rfl).1 .asGiven).1
  exact absurd hsecond (by decide +kernel)

end World

end DistributedKV.Partitioning
