import DistributedKV.Security.RateBounds

/-!
# Client identities

`extractClientID` joins what the configured methods read with `|`, and does not quote a `|` in
what it joins. So two methods are enough for two clients with one identifier.
-/

namespace DistributedKV.Security

open List Option

def IdentifyMethod.label : IdentifyMethod → String
  | .ip => "ip:"
  | .userID => "user:"
  | .header => "header:"
  | .userAgent => "ua:"
  | .other => ""

namespace RateLimitConfig

/-- What a method reads from a request, if it is there. -/
def read (config : RateLimitConfig) (req : RateLimitRequest) : IdentifyMethod → Option String
  | .ip => if req.ipAddress ≠ "" then some req.ipAddress else none
  | .userID => if req.userID ≠ "" then some req.userID else none
  | .header => req.headers.lookup config.headerName
  | .userAgent => if req.userAgent ≠ "" then some req.userAgent else none
  | .other => none

/-- A request from which the methods read the values. -/
def requestWith (config : RateLimitConfig) (value : IdentifyMethod → Option String) :
    RateLimitRequest where
  method := ""
  path := ""
  ipAddress := (value .ip).getD ""
  userAgent := (value .userAgent).getD ""
  headers := (value .header).elim ∅ fun header => AList.insert config.headerName header ∅
  size := 0
  timestamp := 0
  userID := (value .userID).getD ""

variable {config : RateLimitConfig} {req : RateLimitRequest} {m m' : IdentifyMethod}
  {as bs cs : List IdentifyMethod}

theorem read_requestWith {value : IdentifyMethod → Option String} (hother : value .other = none)
    (hvalue : ∀ m, value m ≠ some "") : config.read (config.requestWith value) = value := by
  funext m
  have hm := hvalue m
  cases m with
  | header =>
    rw [read, requestWith]
    cases value .header with
    | none => rfl
    | some header => exact AList.lookup_insert _
  | other => exact hother.symm
  | ip | userID | userAgent => cases h : value _ <;> simp_all [read, requestWith]

theorem extractClientID_eq (config : RateLimitConfig) (req : RateLimitRequest) :
    config.extractClientID req =
      let identifiers := config.identifyBy.filterMap fun m =>
        (config.read req m).map (m.label ++ ·)
      if identifiers = [] then "unknown" else "|".intercalate identifiers := by
  rw [extractClientID]
  congr! 3 <;>
  · rename_i m _
    cases m <;> simp only [read, IdentifyMethod.label] <;> (try split) <;> rfl

/-- One method: its value is all there is in the identifier. -/
theorem extractClientID_single (hsplit : config.identifyBy = as ++ m :: bs)
    (hother : ∀ m' ∈ as ++ bs, m' = .other) :
    config.extractClientID req = ((config.read req m).map (m.label ++ ·)).getD "unknown" := by
  have hnone : ∀ m' ∈ as ++ bs, (config.read req m').map (m'.label ++ ·) = none := by
    intro m' hm'
    rw [hother m' hm']
    rfl
  rw [forall_mem_append, ← filterMap_eq_nil_iff, ← filterMap_eq_nil_iff] at hnone
  rw [extractClientID_eq, hsplit, filterMap_append, filterMap_cons, hnone.1, hnone.2]
  cases config.read req m <;> simp

/-- Two methods: a separator in the first value passes for the one before the second. -/
theorem exists_collision (hnodup : (config.identifyBy.filter (· ≠ .other)).Nodup)
    (hsplit : config.identifyBy = as ++ m :: (bs ++ m' :: cs)) (hm : m ≠ .other)
    (hm' : m' ≠ .other) : ∃ req req', config.extractClientID req = config.extractClientID req' ∧
      config.read req m' ≠ config.read req' m' := by
  rw [hsplit] at hnodup
  simp only [filter_append, filter_cons, hm, hm', ne_eq, not_false_eq_true, decide_true, if_true]
    at hnodup
  have hne : m' ≠ m := by grind
  let joined (k : IdentifyMethod) : Option String :=
    if k = m then some ("1|" ++ m'.label ++ "2") else none
  let apart (k : IdentifyMethod) : Option String :=
    if k = m then some "1" else if k = m' then some "2" else none
  have hjoined : config.read (config.requestWith joined) = joined :=
    read_requestWith (if_neg hm.symm) fun k => by simp only [joined]; split <;> simp
  have hapart : config.read (config.requestWith apart) = apart :=
    read_requestWith (by simp [apart, hm.symm, hm'.symm]) fun k => by
      simp only [apart]; split <;> (try split) <;> simp
  refine ⟨config.requestWith joined, config.requestWith apart, ?_, ?_⟩
  · have hnil : ∀ l : List IdentifyMethod, m ∉ l → m' ∉ l →
        (l.filterMap fun k => (joined k).map (k.label ++ ·)) = [] ∧
        (l.filterMap fun k => (apart k).map (k.label ++ ·)) = [] := by
      intro l hl hl'
      simp only [filterMap_eq_nil_iff, map_eq_none_iff, joined, apart]
      grind
    obtain ⟨has, has'⟩ := hnil as (by grind) (by grind)
    obtain ⟨hbs, hbs'⟩ := hnil bs (by grind) (by grind)
    obtain ⟨hcs, hcs'⟩ := hnil cs (by grind) (by grind)
    rw [extractClientID_eq, extractClientID_eq, hjoined, hapart, hsplit]
    simp only [filterMap_append, filterMap_cons, has, has', hbs, hbs', hcs, hcs']
    simp [joined, apart, hne, String.append_assoc]
  · rw [hjoined, hapart]
    simp [joined, apart, hne]

/-- **Identifiers tell clients apart** exactly if there is at most one method, not counting the
names that `extractClientID` does not know (all of them `other`, and any number of them). -/
theorem extractClientID_injective_iff (config : RateLimitConfig)
    (hnodup : (config.identifyBy.filter (· ≠ .other)).Nodup) :
    (∀ req req', config.extractClientID req = config.extractClientID req' →
      ∀ m ∈ config.identifyBy, config.read req m = config.read req' m) ↔
    ∀ m ∈ config.identifyBy, ∀ m' ∈ config.identifyBy, m ≠ .other → m' ≠ .other → m = m' := by
  constructor
  · intro hinj m hm m' hm' hreads hreads'
    by_contra hne
    obtain ⟨as, bs, hsplit⟩ := append_of_mem hm
    rw [hsplit, mem_append, mem_cons] at hm'
    rcases hm' with hm' | rfl | hm'
    · obtain ⟨as, cs, rfl⟩ := append_of_mem hm'
      rw [append_assoc, cons_append] at hsplit
      obtain ⟨req, req', heq, hdiff⟩ := exists_collision hnodup hsplit hreads' hreads
      exact hdiff (hinj req req' heq m hm)
    · exact hne rfl
    · obtain ⟨bs, cs, rfl⟩ := append_of_mem hm'
      obtain ⟨req, req', heq, hdiff⟩ := exists_collision hnodup hsplit hreads hreads'
      exact hdiff (hinj req req' heq m' (by simp [hsplit]))
  intro hone req req' heq m hm
  by_cases hreads : m = .other
  · rw [hreads]
    rfl
  obtain ⟨as, bs, hsplit⟩ := append_of_mem hm
  have hother : ∀ m' ∈ as ++ bs, m' = .other := by
    intro m' hm'
    by_contra hreads'
    have := hone m hm m' (by rw [hsplit]; grind) hreads hreads'
    grind
  rw [extractClientID_single hsplit hother, extractClientID_single hsplit hother] at heq
  have hlabel : ∀ value, m.label ++ value ≠ "unknown" := by
    intro value hvalue
    have := congrArg String.toList hvalue
    cases m <;> simp [IdentifyMethod.label] at this hreads
  cases hv : config.read req m <;> cases hv' : config.read req' m <;>
    simp_all [eq_comm]

/-- Clients are told apart by their addresses: the other two methods are misspelled. -/
def byAddress : RateLimitConfig := ⟨0, 0, 0, 0, [.other, .ip, .other], "", false, false, 0⟩

theorem extractClientID_injective_address :
    (byAddress.identifyBy.filter (· ≠ .other)).Nodup ∧
    ∀ req req', byAddress.extractClientID req = byAddress.extractClientID req' →
      ∀ m ∈ byAddress.identifyBy, byAddress.read req m = byAddress.read req' m :=
  ⟨by decide, (extractClientID_injective_iff byAddress (by decide)).mpr (by decide)⟩

/-- By default a user gets the bucket of another by the address it gives. -/
theorem not_extractClientID_injective :
    let config := RateLimiter.freshLimiter.config
    let req : RateLimitRequest := ⟨"GET", "/", "10.0.0.1|user:alice", "", ∅, 0, 0, ""⟩
    let req' : RateLimitRequest := ⟨"GET", "/", "10.0.0.1", "", ∅, 0, 0, "alice"⟩
    config.identifyBy.Nodup ∧ config.extractClientID req = config.extractClientID req' ∧
      ∃ m ∈ config.identifyBy, config.read req m ≠ config.read req' m := by
  decide +kernel

end RateLimitConfig

end DistributedKV.Security
