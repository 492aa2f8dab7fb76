import DistributedKV.Lib.GoMap
import Mathlib.Tactic.NormNum

/-!
# Request counters and the error-rate alert (`metrics.go`, `prometheus.go`, `integration.go`)

The registry has one counter for a name. `MetricsMiddleware` registers a new one for the labels of
every request, which replaces the one before, so neither counts beyond one. The alert for high
error rates divides by `kvstore_requests_total`, which nothing increments: requests are counted in
`kvstore_http_requests_total`. Histograms and summaries have other names and no value.
-/

namespace DistributedKV.Monitoring

open List GoMap

/-- `Counter`. -/
structure Counter where
  labels : GoMap String String
  value : Int64

/-- `MetricsRegistry`: counters and gauges by name. -/
structure MetricsRegistry where
  counters : GoMap String Counter
  gauges : GoMap String Int64

/-- A request with the status of its answer. -/
structure HttpRequest where
  method : String
  path : String
  statusCode : Int

/-- The labels of a request. -/
def HttpRequest.labels (r : HttpRequest) : GoMap String String :=
  putAll ∅ [("method", r.method), ("path", r.path), ("status", toString r.statusCode)]

def httpRequestsTotal : String := "kvstore_http_requests_total"

def httpRequestsWithLabels : String := "kvstore_http_requests_with_labels_total"

namespace MetricsRegistry

variable (statusCodes : List Int)

variable (mr : MetricsRegistry)

/-- `NewCounter`. -/
def newCounter (name : String) (labels : GoMap String String) :
    MetricsRegistry :=
  { mr with counters := mr.counters.insert name ⟨labels, 0⟩ }

/-- `Inc` of the counter that is registered under a name. -/
def inc (name : String) : MetricsRegistry :=
  { mr with counters := mr.counters.modify name fun c => { c with value := c.value + 1 } }

/-- The values of `GetAllMetrics`, where a gauge takes the place of a counter. -/
def getAllMetrics (name : String) : Option Int64 :=
  (mr.gauges.lookup name).or ((mr.counters.lookup name).map Counter.value)

/-- The registry of `NewKVStoreMetrics`. -/
def newKVStoreMetrics : MetricsRegistry where
  counters := putAll ∅ ([("kvstore_requests_total", ["method"]),
    ("kvstore_request_errors_total", ["type"]), ("kvstore_storage_operations_total", ["operation"]),
    ("kvstore_storage_errors_total", ["operation"]),
    (httpRequestsTotal, ["method", "path", "status"]),
    ("kvstore_grpc_requests_total", ["method", "status"]),
    ("kvstore_grpc_errors_total", ["method", "code"])].map fun e =>
      (e.1, ⟨putAll ∅ (e.2.map fun label => (label, "")), 0⟩))
  gauges := putAll ∅ [("kvstore_storage_size_bytes", 0), ("kvstore_storage_entries", 0),
    ("kvstore_memory_usage_bytes", 0), ("kvstore_goroutines", 0)]

/-- `MetricsMiddleware`, after the request has been answered. -/
def metricsMiddleware (r : HttpRequest) : MetricsRegistry :=
  ((mr.inc httpRequestsTotal).newCounter httpRequestsWithLabels r.labels).inc httpRequestsWithLabels

/-- `RecordHTTPRequest`. -/
def recordHTTPRequest (statusCode : Int) : MetricsRegistry :=
  let mr := mr.inc httpRequestsTotal
  if statusCode ≥ 400 then mr.inc "kvstore_request_errors_total" else mr

/-! ## Labelled counters -/

/-- The exported value of a counter, over all label sets. -/
def exported (name : String) : Int64 :=
  ((mr.counters.lookup name).map Counter.value).getD 0

/-- The exported value for one label set. -/
def exportedFor (labels : GoMap String String) : Int64 :=
  ((mr.counters.lookup httpRequestsWithLabels).map fun c =>
    if c.labels = labels then c.value else 0).getD 0

/-- All along, the labelled values add up to the total, and none of them goes back. -/
def Counts (requests : List HttpRequest) : Prop :=
  let states := requests.scanl metricsMiddleware newKVStoreMetrics
  (∀ mr ∈ states, mr.exported httpRequestsWithLabels = mr.exported httpRequestsTotal) ∧
    states.Pairwise fun mr mr' => ∀ labels, mr.exportedFor labels ≤ mr'.exportedFor labels

/-- The labelled counter has only the last request. -/
theorem lookup_metricsMiddleware (r : HttpRequest) :
    (mr.metricsMiddleware r).counters.lookup httpRequestsWithLabels = some ⟨r.labels, 1⟩ := by
  simp [metricsMiddleware, inc, newCounter, lookup_modify]

/-- **Labelled counters count** up to one request. -/
theorem counts_iff (requests : List HttpRequest) : Counts requests ↔ requests.length ≤ 1 := by
  have htwo (r r' : HttpRequest) : ((newKVStoreMetrics.metricsMiddleware r).metricsMiddleware
      r').exported httpRequestsTotal = 2 := rfl
  have hlabelled (mr : MetricsRegistry) (r : HttpRequest) :
      (mr.metricsMiddleware r).exported httpRequestsWithLabels = 1 := by
    simp [exported, lookup_metricsMiddleware]
  match requests with
  | [] => exact iff_of_true ⟨by simp; rfl, by simp⟩ (by simp)
  | [r] =>
    refine iff_of_true ⟨?_, ?_⟩ (by simp)
    · have hone : (newKVStoreMetrics.metricsMiddleware r).exported httpRequestsTotal = 1 := rfl
      have hnew : newKVStoreMetrics.exported httpRequestsWithLabels =
        newKVStoreMetrics.exported httpRequestsTotal := rfl
      simp [hnew, hlabelled, hone]
    have hzero (labels) : newKVStoreMetrics.exportedFor labels = 0 := rfl
    suffices ∀ labels, (0 : Int64) ≤ if r.labels = labels then 1 else 0 by
      simpa [hzero, exportedFor, lookup_metricsMiddleware]
    intro labels
    split_ifs <;> decide
  | r :: r' :: requests =>
    -- after two requests the labelled counter stands at one, and the total at two
    refine iff_of_false (fun h => ?_) (by simp)
    have h := h.1 ((newKVStoreMetrics.metricsMiddleware r).metricsMiddleware r')
      (by cases requests <;> simp)
    rw [htwo, hlabelled] at h
    exact absurd h (by decide)

/-- Two requests with different paths. -/
theorem not_counts : ¬Counts [⟨"GET", "/a", 200⟩, ⟨"GET", "/b", 200⟩] := by
  intro h
  exact absurd (h.1 _ (List.mem_of_getElem? (i := 2) rfl)) (by decide)

/-! ## The error-rate alert -/

/-- The condition of `HighMemoryUsage`. -/
def highMemoryUsage (metrics : String → Option Int64) : Bool :=
  (metrics "kvstore_memory_usage_bytes").any fun bytes =>
    decide ((bytes.toInt : ℚ) / 1024 / 1024 > 800)

/-- The condition of `HighErrorRate`. -/
def highErrorRate (metrics : String → Option Int64) : Bool :=
  let totalRequests : ℚ := ((metrics "kvstore_requests_total").getD 0).toInt
  let totalErrors : ℚ := ((metrics "kvstore_request_errors_total").getD 0).toInt
  decide (totalRequests > 0) && decide (totalErrors / totalRequests * 100 > 5)

/-- The titles of the alerts that `CheckAlerts` raises under the default rules. -/
def checkAlerts (metrics : String → Option Int64) (storageUnhealthy : Bool) : List String :=
  ([("HighMemoryUsage", highMemoryUsage metrics), ("HighErrorRate", highErrorRate metrics),
    ("StorageUnhealthy", storageUnhealthy)].filter Prod.snd).map Prod.fst

/-- More than five percent of the requests had status 400 or above. -/
def ManyErrors : Prop :=
  (5 / 100 : ℚ) * statusCodes.length < statusCodes.countP (400 ≤ ·)

/-- Nothing increments the counter that the rule reads. -/
theorem getAllMetrics_requests :
    (statusCodes.foldl recordHTTPRequest newKVStoreMetrics).getAllMetrics "kvstore_requests_total" =
      some 0 := by
  refine foldlRecOn statusCodes recordHTTPRequest
    (motive := fun mr => getAllMetrics mr "kvstore_requests_total" = some 0) (by rfl)
    fun mr h c _ => ?_
  have hinc (mr : MetricsRegistry) {name : String} (hne : "kvstore_requests_total" ≠ name) :
      (mr.inc name).getAllMetrics "kvstore_requests_total" =
        mr.getAllMetrics "kvstore_requests_total" := by
    simp [getAllMetrics, inc, lookup_modify, hne]
  simp only [recordHTTPRequest]
  split_ifs <;> simp [hinc, httpRequestsTotal, h]

theorem notMem_checkAlerts (storageUnhealthy : Bool) :
    "HighErrorRate" ∉ checkAlerts
      (statusCodes.foldl recordHTTPRequest newKVStoreMetrics).getAllMetrics storageUnhealthy := by
  simp [checkAlerts, highErrorRate, getAllMetrics_requests]

/-- **When the alert is right**: exactly if there is nothing to raise it for. -/
theorem highErrorRate_iff (storageUnhealthy : Bool) :
    ("HighErrorRate" ∈ checkAlerts
        (statusCodes.foldl recordHTTPRequest newKVStoreMetrics).getAllMetrics storageUnhealthy ↔
      ManyErrors statusCodes) ↔ ¬ManyErrors statusCodes := by
  simp [notMem_checkAlerts]

/-- One request, with an error. -/
theorem not_highErrorRate : ManyErrors [500] ∧ "HighErrorRate" ∉ checkAlerts
    ([500].foldl recordHTTPRequest newKVStoreMetrics).getAllMetrics false :=
  ⟨by norm_num [ManyErrors], notMem_checkAlerts [500] false⟩

end MetricsRegistry

end DistributedKV.Monitoring
