/-
Caips.Coreai.MetricsTheorems — what the text of the metrics tells of the statistics.

`counters` lists the counters of the statistics, the hits and misses of the cache
among them, and `Faithful` says that the text is read back as these: each once,
with its labels and its exact number, and the histograms of the models add up.

The text tells everything but two things. The keys that are looked up in the
statistics of the cache are not there, so its counters are missing; and numbers
are printed with six digits. So the text is faithful exactly where there is no
cache and no counter has more digits (`faithful_iff`).
-/
import Caips.Coreai.Metrics
import Caips.Coreai.PlannerTheorems

namespace Caips.Coreai

open Caips.Logic

namespace Metrics

/-! ## Counters -/

/-- A counter of the statistics. -/
structure Counter where
  name : String
  labels : List (String × String)
  value : ℕ

/-- Labels as lists of characters. -/
def chars (l : List (String × String)) : List (List Char × List Char) := l.map fun p => (p.1.toList, p.2.toList)

/-- The sample that tells a counter. -/
def Counter.sample (c : Counter) : Exposition.Sample := ⟨c.name.toList, chars c.labels, c.value⟩

/-- The counters of the router. -/
def routerCounters (st : Stats) : List Counter :=
  let providers := st.providerStats.entries
  [⟨"caips_requests_total", [], st.totalRequests⟩, ⟨"caips_failovers_total", [], st.failovers⟩,
    ⟨"caips_hedges_launched_total", [], st.hedgesLaunched⟩, ⟨"caips_hedges_won_total", [], st.hedgesWonBySecond⟩] ++
  (providers.map fun p => ⟨"caips_provider_requests_total", [("provider", p.1)], p.2.requests⟩) ++
  (providers.flatMap fun p => p.2.errorKinds.entries.map fun k =>
    ⟨"caips_provider_errors_total", [("provider", p.1), ("kind", k.1)], k.2⟩) ++
  (providers.flatMap fun p => p.2.errorStatuses.entries.map fun k =>
    ⟨"caips_provider_error_status_total", [("provider", p.1), ("status", k.1)], k.2⟩) ++
  (providers.map fun p => ⟨"caips_circuit_opened_total", [("provider", p.1)], p.2.timesOpened⟩) ++
  (st.modelStats.flatMap fun r =>
    [⟨"caips_tokens_total", [("provider", r.provider), ("model", r.model), ("type", "input")], r.inputTokens⟩,
      ⟨"caips_tokens_total", [("provider", r.provider), ("model", r.model), ("type", "output")], r.outputTokens⟩]) ++
  (st.streamsEstimated.entries.map fun p => ⟨"caips_stream_usage_estimated_total", [("provider", p.1)], p.2⟩) ++
  st.unpricedModels.entries.map fun u =>
    ⟨"caips_unpriced_requests_total", [("provider", u.1.1), ("model", u.1.2)], u.2⟩

/-- The counters of the cache. -/
def cacheCounters (st : Stats) : List Counter :=
  st.cacheStats.toList.flatMap fun c =>
    [⟨"caips_cache_hits_total", [], c.cacheHits⟩, ⟨"caips_cache_misses_total", [], c.cacheMisses⟩]

def counters (st : Stats) : List Counter := routerCounters st ++ cacheCounters st

/-- The names of counters that are integers: of all but the spending. -/
def counterNames : List String :=
  ["caips_requests_total", "caips_failovers_total", "caips_hedges_launched_total", "caips_hedges_won_total",
    "caips_provider_requests_total", "caips_provider_errors_total", "caips_provider_error_status_total",
    "caips_circuit_opened_total", "caips_tokens_total", "caips_stream_usage_estimated_total",
    "caips_unpriced_requests_total", "caips_cache_hits_total", "caips_cache_misses_total"]

/-- The counters among the samples of a text. -/
def readCounters (samples : List Exposition.Sample) : List Exposition.Sample :=
  samples.filter fun s => s.name ∈ counterNames.map String.toList

/-! ## Histograms -/

/-- The numbers of the samples with this name, and labels like these. -/
def valuesOf (samples : List Exposition.Sample) (name : String) (like : List (List Char × List Char) → Bool) : List ℚ :=
  (samples.filter fun s => s.name = name.toList ∧ like s.labels).map (·.value)

/-- The buckets with these labels do not decrease, and the last one and the count are the total. -/
structure AddsUp (samples : List Exposition.Sample) (base : List (String × String)) (total : ℕ) : Prop where
  nondecreasing : (valuesOf samples "caips_request_duration_seconds_bucket" ((chars base).isPrefixOf ·)).Pairwise (· ≤ ·)
  last : valuesOf samples "caips_request_duration_seconds_bucket" (· = chars (base ++ [("le", "+Inf")])) = [(total : ℚ)]
  count : valuesOf samples "caips_request_duration_seconds_count" (· = chars base) = [(total : ℚ)]

/-- The text is read back as what the statistics say: the counters each once, in some order, and a
histogram for each model with a recorded latency. -/
def Faithful (st : Stats) (accepting : Bool) (inFlight : ℕ) : Prop :=
  ∃ text samples, renderPrometheus st accepting inFlight = .ok text ∧ Exposition.parse text = some samples ∧
    (readCounters samples).Perm ((counters st).map Counter.sample) ∧
    ∀ r ∈ st.modelStats, r.latencyBuckets.sum ≠ 0 → st.latencyBucketBoundsMs ≠ [] →
      AddsUp samples [("provider", r.provider), ("model", r.model)] r.latencyBuckets.sum

/-! ## Lines -/

theorem esc_eq (l : List Char) : esc l = Exposition.escape l := by
  unfold esc
  rw [Text.replace_singleton, Text.replace_singleton, Text.replace_singleton, List.flatMap_assoc,
    List.flatMap_assoc, Exposition.escape]
  congr 1
  funext c
  unfold Exposition.escapeChar
  by_cases hback : c = '\\'
  · simp [hback]
  · by_cases hline : c = '\n'
    · simp [hline]
    · by_cases hquote : c = '"'
      · simp [hquote]
      · simp [hback, hline, hquote]

theorem labels_eq (l : List (String × String)) : labels l = Exposition.labelsText (chars l) := by
  unfold labels Exposition.labelsText chars
  simp only [List.map_map, esc_eq, List.map_eq_nil_iff]
  rfl

def Finite : Number → Prop
  | .int n => (n : ℚ) < Binary64.overflow
  | .float _ => True

def shown : Number → ℚ
  | .int n => Decimal.printed (Binary64.toRat (.ofNat n))
  | .float x => Decimal.printed x

/-- The numeral of a number that is not too large. -/
def numeral : Number → List Char
  | .int n => Decimal.general (Binary64.toRat (.ofNat n))
  | .float x => Decimal.general x

theorem general_ok_iff (v : Number) (l : List Char) : general v = .ok l ↔ Finite v ∧ l = numeral v := by
  cases v with
  | int n =>
    have hinf := Binary64.isInf_ofNat_iff n
    simp only [general, Finite, numeral]
    split
    · next h => simp [hinf.mp h]
    · next h =>
        rw [hinf, not_le] at h
        simp [h, eq_comm]
  | float x => simp [general, Finite, numeral, eq_comm]

theorem readNumber_numeral (v : Number) : Decimal.readNumber (numeral v) = some (shown v) := by
  cases v <;> exact Decimal.readNumber_general _

theorem numeral_oneLine (v : Number) : '\n' ∉ numeral v := by
  have hnumeral : ∀ x, '\n' ∉ Decimal.general x := by
    intro x h
    have := Decimal.isNumeral_general x _ h
    simp [Decimal.IsNumeral] at this
  cases v <;> exact hnumeral _

/-! ## Families -/

namespace Family

/-- The lines of a call of `metric`. -/
def entries (f : Family) : List Exposition.Entry :=
  if f.samples = [] then []
  else .comment (" HELP ".toList ++ f.name.toList ++ ' ' :: f.help.toList) ::
    .comment (" TYPE ".toList ++ f.name.toList ++ ' ' :: f.kind.toList) ::
      f.samples.map fun s => .sample f.name.toList (chars s.1) (numeral s.2)

/-- What its lines are read as. -/
def read (f : Family) : List Exposition.Sample := f.samples.map fun s => ⟨f.name.toList, chars s.1, shown s.2⟩

/-- Its words fit lines. -/
structure Ok (f : Family) : Prop where
  name : Exposition.isName f.name.toList = true
  help : '\n' ∉ f.help.toList
  kind : '\n' ∉ f.kind.toList
  labels : ∀ s ∈ f.samples, ∀ p ∈ s.1, Exposition.isName p.1.toList = true

variable {f : Family}

theorem metric_ok_iff (lines : List (List Char)) :
    metric f = .ok lines ↔ (∀ s ∈ f.samples, Finite s.2) ∧ lines = f.entries.map Exposition.Entry.text := by
  have hline : ∀ s ∈ f.samples, ∀ line,
      (general s.2).map (fun v => f.name.toList ++ labels s.1 ++ ' ' :: v) = .ok line ↔
        Finite s.2 ∧ line = (Exposition.Entry.sample f.name.toList (chars s.1) (numeral s.2)).text := by
    intro s _ line
    rw [map_ok_iff]
    simp only [general_ok_iff, labels_eq, Exposition.Entry.text]
    constructor
    · rintro ⟨v, ⟨hfinite, rfl⟩, rfl⟩
      exact ⟨hfinite, rfl⟩
    · rintro ⟨hfinite, rfl⟩
      exact ⟨_, ⟨hfinite, rfl⟩, rfl⟩
  unfold metric Family.entries
  split
  · next hnil => simp [hnil, eq_comm]
  · rw [bind_ok_iff]
    simp only [mapM_ok_iff hline, Except.ok.injEq, List.map_cons, List.map_map, Exposition.Entry.text]
    constructor
    · rintro ⟨a, ⟨hfinite, rfl⟩, rfl⟩
      exact ⟨hfinite, rfl⟩
    · rintro ⟨hfinite, rfl⟩
      exact ⟨_, ⟨hfinite, rfl⟩, rfl⟩

theorem Ok.entries (h : f.Ok) : ∀ e ∈ f.entries, e.Ok := by
  intro e he
  unfold Family.entries at he
  split at he
  · cases he
  · have hspace : ∀ l : List Char, '\n' ∉ l → '\n' ∉ ' ' :: l := fun l hl => by simpa using hl
    have hname := Exposition.isName_oneLine h.name
    rcases List.mem_cons.mp he with rfl | he
    · simp [Exposition.Entry.Ok, hname, h.help]
    · rcases List.mem_cons.mp he with rfl | he
      · simp [Exposition.Entry.Ok, hname, h.kind]
      · obtain ⟨s, hs, rfl⟩ := List.mem_map.mp he
        refine ⟨h.name, ?_, numeral_oneLine s.2, by rw [readNumber_numeral]; rfl⟩
        intro p hp
        obtain ⟨q, hq, rfl⟩ := List.mem_map.mp hp
        exact h.labels s hs q hq

theorem samples_entries : f.entries.flatMap Exposition.Entry.samples = f.read := by
  unfold Family.entries Family.read
  split
  · next hnil => rw [hnil]; rfl
  · simp [Exposition.Entry.samples, readNumber_numeral, List.flatMap_map, ← List.map_eq_flatMap]

end Family

/-! ## The histogram -/

/-- The labels of a model. -/
def ModelRow.base (r : ModelRow) : List (String × String) := [("provider", r.provider), ("model", r.model)]

def bucketName : List Char := "caips_request_duration_seconds_bucket".toList

def sumName : List Char := "caips_request_duration_seconds_sum".toList

def countName : List Char := "caips_request_duration_seconds_count".toList

theorem histogram_names : "caips_request_duration_seconds".toList ++ "_bucket".toList = bucketName ∧
    "caips_request_duration_seconds".toList ++ "_sum".toList = sumName ∧
    "caips_request_duration_seconds".toList ++ "_count".toList = countName := by decide +kernel

theorem histogram_header : "# HELP ".toList ++ "caips_request_duration_seconds".toList ++
      " Provider call latency of successful requests.".toList =
        '#' :: " HELP caips_request_duration_seconds Provider call latency of successful requests.".toList ∧
    "# TYPE ".toList ++ "caips_request_duration_seconds".toList ++ " histogram".toList =
      '#' :: " TYPE caips_request_duration_seconds histogram".toList := by decide +kernel

/-- The lines of the loop over the bounds. -/
def bucketEntries (base : List (String × String)) : ℕ → List (ℚ × ℕ) → List Exposition.Entry
  | _, [] => []
  | running, (bound, count) :: l =>
    .sample bucketName (chars (base ++ [("le", String.ofList (Decimal.general (bound / 1000)))]))
      (Nat.toDigits 10 (running + count)) :: bucketEntries base (running + count) l

/-- The lines of one model. -/
def rowEntries (bounds : List ℚ) (r : ModelRow) : List Exposition.Entry :=
  let total := Nat.toDigits 10 r.latencyBuckets.sum
  bucketEntries r.base 0 (bounds.zip r.latencyBuckets) ++
    [.sample bucketName (chars (r.base ++ [("le", "+Inf")])) total,
      .sample sumName (chars r.base) (Decimal.general (r.latencySumMs / 1000)),
      .sample countName (chars r.base) total]

/-- The models with a recorded latency. -/
def timedRows (st : Stats) : List ModelRow := st.modelStats.filter fun r => r.latencyBuckets.sum ≠ 0

def histogramEntries (st : Stats) : List Exposition.Entry :=
  if timedRows st = [] ∨ st.latencyBucketBoundsMs = [] then []
  else .comment " HELP caips_request_duration_seconds Provider call latency of successful requests.".toList ::
    .comment " TYPE caips_request_duration_seconds histogram".toList ::
      (timedRows st).flatMap (rowEntries st.latencyBucketBoundsMs)

theorem bucketLines_eq (base : List (String × String)) (running : ℕ) (l : List (ℚ × ℕ)) :
    bucketLines "caips_request_duration_seconds".toList base running l =
      (bucketEntries base running l).map Exposition.Entry.text := by
  induction l generalizing running with
  | nil => rfl
  | cons a l ih =>
    rw [bucketLines, bucketEntries, ih, List.map_cons, Exposition.Entry.text, labels_eq, histogram_names.1]

/-- The last bucket and those before it. -/
theorem buckets_split {bounds : List ℚ} {buckets : List ℕ} (h : buckets.length = bounds.length + 1) :
    ∃ last, buckets[bounds.length]? = some last ∧
      ((bounds.zip buckets).map Prod.snd).sum + last = buckets.sum := by
  obtain ⟨init, last, rfl⟩ : ∃ init last, buckets = init ++ [last] := by
    rcases List.eq_nil_or_concat buckets with rfl | ⟨init, last, hconcat⟩
    · cases h
    · exact ⟨init, last, by rw [hconcat, List.concat_eq_append]⟩
  have hlength : bounds.length = init.length := by simpa using h.symm
  have hzip : bounds.zip (init ++ [last]) = bounds.zip init := by
    have hboth := @List.zip_append _ _ bounds [] init [last] hlength
    simpa using hboth
  refine ⟨last, by rw [hlength]; simp, ?_⟩
  rw [hzip, List.map_snd_zip hlength.ge, List.sum_append, List.sum_singleton]

theorem rowLines_eq {bounds : List ℚ} {r : ModelRow} (h : r.latencyBuckets.length = bounds.length + 1) :
    rowLines "caips_request_duration_seconds".toList bounds r =
      .ok ((rowEntries bounds r).map Exposition.Entry.text) := by
  obtain ⟨last, hlast, hsum⟩ := buckets_split h
  obtain ⟨hbucket, hsumName, hcount⟩ := histogram_names
  have hlines := bucketLines_eq r.base 0 (bounds.zip r.latencyBuckets)
  unfold ModelRow.base at hlines
  simp only [rowLines, hlast, hsum, hlines, labels_eq, hbucket, hsumName, hcount, rowEntries, ModelRow.base,
    List.map_append, List.map_cons, List.map_nil, Exposition.Entry.text]

theorem histogram_eq (st : Stats) : histogram st = .ok ((histogramEntries st).map Exposition.Entry.text) := by
  have hrows : (timedRows st).mapM (rowLines "caips_request_duration_seconds".toList st.latencyBucketBoundsMs) =
      .ok ((timedRows st).map fun r => (rowEntries st.latencyBucketBoundsMs r).map Exposition.Entry.text) := by
    refine (mapM_ok_iff (P := fun _ => True) fun r hr line => ?_).mpr ⟨fun _ _ => trivial, rfl⟩
    rw [rowLines_eq (st.buckets r (List.mem_of_mem_filter hr))]
    simp [eq_comm]
  unfold timedRows at hrows
  unfold histogram histogramEntries timedRows
  dsimp only
  split_ifs with hnone
  · rfl
  · rw [hrows, histogram_header.1, histogram_header.2]
    simp [bind, Except.bind, Exposition.Entry.text, List.flatMap_def, List.map_flatten]
    rfl

/-! ## What is read -/

/-- The calls of `metric` below the histogram; those for the cache find nothing. -/
def below (st : Stats) (accepting : Bool) (inFlight : ℕ) : List Family :=
  familiesBelow st ++ serverFamilies accepting inFlight

/-- **The keys that are looked up are not those of the cache's statistics.** -/
theorem cacheFamilies_stats (st : Stats) :
    cacheFamilies ((st.cacheStats.map CacheStats.dict).getD Dict.empty) = [] := by
  cases st.cacheStats with
  | none => rfl
  | some c => rfl

def entries (st : Stats) (accepting : Bool) (inFlight : ℕ) : List Exposition.Entry :=
  (familiesAbove st).flatMap Family.entries ++ histogramEntries st ++
    (below st accepting inFlight).flatMap Family.entries

/-- All numbers that are made floats are small enough. -/
def AllFinite (st : Stats) (accepting : Bool) (inFlight : ℕ) : Prop :=
  ∀ f ∈ familiesAbove st ++ below st accepting inFlight, ∀ s ∈ f.samples, Finite s.2

theorem render_ok_iff (st : Stats) (accepting : Bool) (inFlight : ℕ) (text : List Char) :
    renderPrometheus st accepting inFlight = .ok text ↔ AllFinite st accepting inFlight ∧
      text = Exposition.unlines ((entries st accepting inFlight).map Exposition.Entry.text) := by
  have hmetric : ∀ l : List Family, ∀ lines, l.mapM metric = .ok lines ↔
      (∀ f ∈ l, ∀ s ∈ f.samples, Finite s.2) ∧ lines = l.map fun f => f.entries.map Exposition.Entry.text :=
    fun l lines => mapM_ok_iff fun f _ lines => Family.metric_ok_iff lines
  unfold renderPrometheus
  dsimp only
  rw [cacheFamilies_stats, List.append_nil]
  simp only [bind_ok_iff, hmetric, histogram_eq, Except.ok.injEq, AllFinite, entries, below, List.forall_mem_append]
  constructor
  · rintro ⟨a, ⟨habove, rfl⟩, rows, rfl, b, ⟨hbelow, rfl⟩, rfl⟩
    exact ⟨⟨habove, hbelow⟩, by simp [List.flatMap_def, List.map_flatten, Function.comp_def]⟩
  · rintro ⟨⟨habove, hbelow⟩, rfl⟩
    exact ⟨_, ⟨habove, rfl⟩, _, rfl, _, ⟨hbelow, rfl⟩, by simp [List.flatMap_def, List.map_flatten, Function.comp_def]⟩

/-! ### Every line can be read -/

def otherNames : List String :=
  ["caips_provider_cost_usd_total", "caips_provider_latency_p50_ms", "caips_provider_health", "caips_circuit_state",
    "caips_accepting_traffic", "caips_in_flight_requests"]

def labelNames : List String := ["provider", "model", "kind", "status", "state", "type", "le"]

theorem names_ok : (∀ n ∈ counterNames ++ otherNames, Exposition.isName n.toList = true) ∧
    ∀ n ∈ labelNames, Exposition.isName n.toList = true := by decide +kernel

theorem names_ne : ∀ n ∈ counterNames ++ otherNames, n ≠ "caips_request_duration_seconds_bucket" ∧
    n ≠ "caips_request_duration_seconds_sum" ∧ n ≠ "caips_request_duration_seconds_count" := by
  simp [counterNames, otherNames]

theorem mem_map_toList {n : String} {l : List String} : n.toList ∈ l.map String.toList ↔ n ∈ l := by
  simp [List.mem_map, String.toList_inj]

section

variable {st : Stats} {accepting : Bool} {inFlight : ℕ}

theorem names_families : ∀ f ∈ familiesAbove st ++ below st accepting inFlight, f.name ∈ counterNames ++ otherNames := by
  simp [familiesAbove, below, familiesBelow, serverFamilies, counterNames, otherNames]

theorem help_families : ∀ f ∈ familiesAbove st ++ below st accepting inFlight,
    '\n' ∉ f.help.toList ∧ '\n' ∉ f.kind.toList := by
  simp [familiesAbove, below, familiesBelow, serverFamilies]

theorem labels_families : ∀ f ∈ familiesAbove st ++ below st accepting inFlight, ∀ s ∈ f.samples, ∀ p ∈ s.1,
    p.1 ∈ labelNames := by
  simp only [familiesAbove, below, familiesBelow, serverFamilies, List.forall_mem_append, List.forall_mem_cons,
    List.forall_mem_map, List.forall_mem_flatMap]
  simp [labelNames]

theorem families_ok : ∀ f ∈ familiesAbove st ++ below st accepting inFlight, f.Ok := by
  intro f hf
  obtain ⟨hhelp, hkind⟩ := help_families f hf
  exact ⟨names_ok.1 _ (names_families f hf), hhelp, hkind,
    fun s hs p hp => names_ok.2 _ (labels_families f hf s hs p hp)⟩

theorem entries_families_ok : ∀ f ∈ familiesAbove st ++ below st accepting inFlight, ∀ e ∈ f.entries, e.Ok :=
  fun f hf => (families_ok f hf).entries

/-- A sample of the histogram, with labels of a model. -/
theorem row_entry_ok (r : ModelRow) {name : List Char} (hname : Exposition.isName name = true)
    {more : List (String × String)} (hmore : ∀ p ∈ more, p.1 = "le") {value : List Char} (hvalue : '\n' ∉ value)
    (hread : (Decimal.readNumber value).isSome = true) :
    (Exposition.Entry.sample name (chars (r.base ++ more)) value).Ok := by
  refine ⟨hname, ?_, hvalue, hread⟩
  intro p hp
  obtain ⟨q, hq, rfl⟩ := List.mem_map.mp hp
  refine names_ok.2 q.1 ?_
  rcases List.mem_append.mp hq with hq | hq
  · unfold ModelRow.base at hq
    rcases List.mem_cons.mp hq with rfl | hq
    · simp [labelNames]
    · rw [List.mem_singleton.mp hq]
      simp [labelNames]
  · rw [hmore q hq]
    simp [labelNames]

theorem toDigits_oneLine (n : ℕ) : '\n' ∉ Nat.toDigits 10 n :=
  fun h => absurd (Decimal.toDigits_isDigit n _ h) (by decide)

theorem histogram_isName : Exposition.isName bucketName = true ∧ Exposition.isName sumName = true ∧
    Exposition.isName countName = true := by decide +kernel

theorem bucketEntries_ok (r : ModelRow) (running : ℕ) (l : List (ℚ × ℕ)) :
    ∀ e ∈ bucketEntries r.base running l, e.Ok := by
  induction l generalizing running with
  | nil => simp [bucketEntries]
  | cons a l ih =>
    intro e he
    rcases List.mem_cons.mp he with rfl | he
    · exact row_entry_ok r histogram_isName.1 (by simp) (toDigits_oneLine _) (by rw [Decimal.readNumber_toDigits]; rfl)
    · exact ih _ e he

theorem rowEntries_ok (bounds : List ℚ) (r : ModelRow) : ∀ e ∈ rowEntries bounds r, e.Ok := by
  intro e he
  have hnumber : (Decimal.readNumber (Nat.toDigits 10 r.latencyBuckets.sum)).isSome = true := by
    rw [Decimal.readNumber_toDigits]
    rfl
  rcases List.mem_append.mp he with he | he
  · exact bucketEntries_ok r 0 _ e he
  · simp only [List.mem_cons, List.not_mem_nil, or_false] at he
    rcases he with rfl | rfl | rfl
    · exact row_entry_ok r histogram_isName.1 (by simp) (toDigits_oneLine _) hnumber
    · have hnone : chars r.base = chars (r.base ++ []) := by rw [List.append_nil]
      rw [hnone]
      exact row_entry_ok r histogram_isName.2.1 (by simp) (numeral_oneLine (.float (r.latencySumMs / 1000)))
        (by rw [← numeral, readNumber_numeral]; rfl)
    · have hnone : chars r.base = chars (r.base ++ []) := by rw [List.append_nil]
      rw [hnone]
      exact row_entry_ok r histogram_isName.2.2 (by simp) (toDigits_oneLine _) hnumber

theorem histogramEntries_ok : ∀ e ∈ histogramEntries st, e.Ok := by
  intro e he
  unfold histogramEntries at he
  split at he
  · cases he
  · rcases List.mem_cons.mp he with rfl | he
    · simp [Exposition.Entry.Ok]
    · rcases List.mem_cons.mp he with rfl | he
      · simp [Exposition.Entry.Ok]
      · obtain ⟨r, -, hr⟩ := List.mem_flatMap.mp he
        exact rowEntries_ok _ r e hr

theorem entries_ok : ∀ e ∈ entries st accepting inFlight, e.Ok := by
  intro e he
  rcases List.mem_append.mp he with he | he
  · rcases List.mem_append.mp he with he | he
    · obtain ⟨f, hf, he⟩ := List.mem_flatMap.mp he
      exact entries_families_ok f (List.mem_append_left _ hf : f ∈ familiesAbove st ++ below st accepting inFlight) e he
    · exact histogramEntries_ok e he
  · obtain ⟨f, hf, he⟩ := List.mem_flatMap.mp he
    exact entries_families_ok f (List.mem_append_right _ hf) e he

theorem entries_ne_nil : entries st accepting inFlight ≠ [] := by
  obtain ⟨f, hf, hne⟩ : ∃ f ∈ familiesAbove st, f.samples ≠ [] := ⟨_, List.mem_cons_self, by simp⟩
  have hlines : f.entries ≠ [] := by
    rw [Family.entries, if_neg hne]
    simp
  intro hnil
  simp only [entries, List.append_eq_nil_iff, List.flatMap_eq_nil_iff] at hnil
  exact hlines (hnil.1.1 f hf)

end

/-- What the histogram is read as. -/
def histogramSamples (st : Stats) : List Exposition.Sample := (histogramEntries st).flatMap Exposition.Entry.samples

/-- What the text is read as. -/
def textSamples (st : Stats) (accepting : Bool) (inFlight : ℕ) : List Exposition.Sample :=
  (familiesAbove st).flatMap Family.read ++ histogramSamples st ++ (below st accepting inFlight).flatMap Family.read

/-- **The text is read back, line by line.** -/
theorem parse_entries (st : Stats) (accepting : Bool) (inFlight : ℕ) :
    Exposition.parse (Exposition.unlines ((entries st accepting inFlight).map Exposition.Entry.text)) =
      some (textSamples st accepting inFlight) := by
  have hfamilies : ∀ l : List Family, (l.flatMap Family.entries).flatMap Exposition.Entry.samples =
      l.flatMap Family.read := by
    intro l
    rw [List.flatMap_assoc]
    simp only [Family.samples_entries]
  rw [Exposition.parse_unlines entries_ne_nil entries_ok, entries, List.flatMap_append, List.flatMap_append,
    hfamilies, hfamilies]
  rfl

/-! ### The counters -/

/-- What a counter of the router is read as. -/
def Counter.shown (c : Counter) : Exposition.Sample := ⟨c.name.toList, chars c.labels, Metrics.shown (.int c.value)⟩

theorem readCounters_family (f : Family) : readCounters f.read = if f.name ∈ counterNames then f.read else [] := by
  have hname := @mem_map_toList f.name counterNames
  unfold readCounters
  split
  · next h =>
      refine List.filter_eq_self.mpr fun s hs => ?_
      obtain ⟨a, -, rfl⟩ := List.mem_map.mp hs
      exact decide_eq_true (hname.mpr h)
  · next h =>
      refine List.filter_eq_nil_iff.mpr fun s hs => ?_
      obtain ⟨a, -, rfl⟩ := List.mem_map.mp hs
      rw [decide_eq_true_eq]
      exact hname.not.mpr h

theorem samples_bucketEntries {base : List (String × String)} {running : ℕ} {l : List (ℚ × ℕ)} :
    ∀ s ∈ (bucketEntries base running l).flatMap Exposition.Entry.samples, s.name = bucketName ∧
      ∃ x, s.labels = chars (base ++ [("le", String.ofList (Decimal.general x))]) := by
  induction l generalizing running with
  | nil => simp [bucketEntries]
  | cons a l ih =>
    intro s hs
    rw [bucketEntries, List.flatMap_cons, List.mem_append] at hs
    rcases hs with hs | hs
    · rw [Exposition.Entry.samples, Decimal.readNumber_toDigits] at hs
      obtain rfl := List.mem_singleton.mp hs
      exact ⟨rfl, _, rfl⟩
    · exact ih s hs

theorem samples_toDigits (name : List Char) (l : List (List Char × List Char)) (n : ℕ) :
    (Exposition.Entry.sample name l (Nat.toDigits 10 n)).samples = [⟨name, l, n⟩] := by
  simp [Exposition.Entry.samples, Decimal.readNumber_toDigits]

theorem samples_rowEntries (bounds : List ℚ) (r : ModelRow) :
    (rowEntries bounds r).flatMap Exposition.Entry.samples =
      (bucketEntries r.base 0 (bounds.zip r.latencyBuckets)).flatMap Exposition.Entry.samples ++
        [⟨bucketName, chars (r.base ++ [("le", "+Inf")]), r.latencyBuckets.sum⟩,
          ⟨sumName, chars r.base, shown (.float (r.latencySumMs / 1000))⟩,
          ⟨countName, chars r.base, r.latencyBuckets.sum⟩] := by
  have hsum := readNumber_numeral (.float (r.latencySumMs / 1000))
  rw [numeral] at hsum
  simp only [rowEntries, List.flatMap_append, List.flatMap_cons, List.flatMap_nil, samples_toDigits, List.append_nil]
  rw [Exposition.Entry.samples, hsum]
  rfl

theorem histogramSamples_eq (st : Stats) (hbounds : st.latencyBucketBoundsMs ≠ []) : histogramSamples st =
    (timedRows st).flatMap fun r => (rowEntries st.latencyBucketBoundsMs r).flatMap Exposition.Entry.samples := by
  unfold histogramSamples histogramEntries
  split
  · next h =>
      rw [h.resolve_right hbounds]
      rfl
  · simp only [List.flatMap_cons, Exposition.Entry.samples, List.nil_append, List.flatMap_assoc]

theorem histogramSamples_name {st : Stats} : ∀ s ∈ histogramSamples st,
    s.name = bucketName ∨ s.name = sumName ∨ s.name = countName := by
  intro s hs
  by_cases hbounds : st.latencyBucketBoundsMs = []
  · rw [histogramSamples, histogramEntries, if_pos (.inr hbounds)] at hs
    cases hs
  · rw [histogramSamples_eq st hbounds] at hs
    obtain ⟨r, -, hs⟩ := List.mem_flatMap.mp hs
    rw [samples_rowEntries, List.mem_append] at hs
    rcases hs with hs | hs
    · exact .inl (samples_bucketEntries s hs).1
    · simp only [List.mem_cons, List.not_mem_nil, or_false] at hs
      rcases hs with rfl | rfl | rfl
      · exact .inl rfl
      · exact .inr (.inl rfl)
      · exact .inr (.inr rfl)

theorem histogram_noCounter : bucketName ∉ counterNames.map String.toList ∧
    sumName ∉ counterNames.map String.toList ∧ countName ∉ counterNames.map String.toList := by
  have hnames := fun n hn => names_ne n (List.mem_append_left _ hn)
  unfold bucketName sumName countName
  simp only [mem_map_toList]
  exact ⟨fun h => (hnames _ h).1 rfl, fun h => (hnames _ h).2.1 rfl, fun h => (hnames _ h).2.2 rfl⟩

theorem readCounters_text (st : Stats) (accepting : Bool) (inFlight : ℕ) :
    (readCounters (textSamples st accepting inFlight)).Perm ((routerCounters st).map Counter.shown) := by
  have hflat : ∀ l : List Family, readCounters (l.flatMap Family.read) =
      l.flatMap fun f => if f.name ∈ counterNames then f.read else [] := by
    intro l
    simp only [← readCounters_family]
    exact List.filter_flatMap
  have hhistogram : readCounters (histogramSamples st) = [] := by
    refine List.filter_eq_nil_iff.mpr fun s hs => ?_
    rw [decide_eq_true_eq]
    rcases histogramSamples_name s hs with h | h | h <;> rw [h]
    · exact histogram_noCounter.1
    · exact histogram_noCounter.2.1
    · exact histogram_noCounter.2.2
  have hsorted : ∀ (g : String × ℕ → Exposition.Sample) (d : Dict String ℕ),
      ((sortedItems d).map g).Perm (d.entries.map g) := fun g d => (List.perm_insertionSort _ _).map g
  unfold textSamples
  rw [readCounters, List.filter_append, List.filter_append]
  change ((readCounters _ ++ readCounters _) ++ readCounters _).Perm _
  rw [hflat, hflat, hhistogram]
  simp only [familiesAbove, below, familiesBelow, serverFamilies, counterNames, List.cons_append, List.nil_append,
    List.flatMap_cons, List.flatMap_nil, List.mem_cons, List.not_mem_nil, String.reduceEq, or_false, or_true,
    if_true, if_false, or_self, routerCounters, Family.read, Counter.shown, List.map_map, List.map_flatMap,
    List.map_append, List.map_cons, List.map_nil, Function.comp_def, List.append_nil, List.append_assoc]
  refine .cons _ (.cons _ (.cons _ (.cons _ (.append_left _ ?_))))
  refine .append (.flatMap_left _ fun p _ => hsorted _ _) (.append_right _ ?_)
  exact .flatMap_left _ fun p _ => hsorted _ _

/-! ### The histograms -/

section Values

variable {samples : List Exposition.Sample} {name : String} {like : List (List Char × List Char) → Bool}

theorem valuesOf_append (more : List Exposition.Sample) :
    valuesOf (samples ++ more) name like = valuesOf samples name like ++ valuesOf more name like := by
  simp [valuesOf]

theorem valuesOf_flatMap {α : Type} (l : List α) (f : α → List Exposition.Sample) :
    valuesOf (l.flatMap f) name like = l.flatMap fun a => valuesOf (f a) name like := by
  simp [valuesOf, List.filter_flatMap, List.map_flatMap]

theorem valuesOf_eq_nil (h : ∀ s ∈ samples, s.name = name.toList → like s.labels = false) :
    valuesOf samples name like = [] := by
  rw [valuesOf, List.map_eq_nil_iff, List.filter_eq_nil_iff]
  intro s hs hboth
  rw [decide_eq_true_eq] at hboth
  exact Bool.false_ne_true ((h s hs hboth.1).symm.trans hboth.2)

theorem valuesOf_eq_map (h : ∀ s ∈ samples, s.name = name.toList ∧ like s.labels = true) :
    valuesOf samples name like = samples.map (·.value) := by
  rw [valuesOf, List.filter_eq_self.mpr fun s hs => decide_eq_true (h s hs)]

end Values

/-- Only one element of a list with this key adds something. -/
theorem flatMap_of_key {α β κ : Type} {l : List α} {f : α → List β} {key : α → κ} (hnodup : (l.map key).Nodup) {a : α}
    (ha : a ∈ l) (hother : ∀ b ∈ l, key b ≠ key a → f b = []) : l.flatMap f = f a := by
  induction l with
  | nil => cases ha
  | cons b l ih =>
    rw [List.map_cons, List.nodup_cons] at hnodup
    have hrest := fun x hx => hother x (List.mem_cons_of_mem _ hx)
    rcases List.mem_cons.mp ha with rfl | ha
    · have hnil : l.flatMap f = [] := by
        rw [List.flatMap_eq_nil_iff]
        intro x hx
        refine hrest x hx fun heq => hnodup.1 ?_
        rw [← heq]
        exact List.mem_map_of_mem hx
      rw [List.flatMap_cons, hnil, List.append_nil]
    · have hne : key b ≠ key a := fun heq => hnodup.1 (heq ▸ List.mem_map_of_mem ha)
      rw [List.flatMap_cons, hother b List.mem_cons_self hne, List.nil_append]
      exact ih hnodup.2 ha hrest

section Rows

variable {st : Stats} {r : ModelRow}

/-- What the lines of one model are read as. -/
def rowSamples (bounds : List ℚ) (r : ModelRow) : List Exposition.Sample :=
  (rowEntries bounds r).flatMap Exposition.Entry.samples

theorem chars_append (l m : List (String × String)) : chars (l ++ m) = chars l ++ chars m := List.map_append

theorem rowSamples_labels (bounds : List ℚ) (r : ModelRow) : ∀ s ∈ rowSamples bounds r, chars r.base <+: s.labels := by
  intro s hs
  rw [rowSamples, samples_rowEntries, List.mem_append] at hs
  rcases hs with hs | hs
  · obtain ⟨-, x, hlabels⟩ := samples_bucketEntries s hs
    rw [hlabels, chars_append]
    exact List.prefix_append _ _
  · simp only [List.mem_cons, List.not_mem_nil, or_false] at hs
    rcases hs with rfl | rfl | rfl
    · rw [chars_append]
      exact List.prefix_append _ _
    · exact List.prefix_refl _
    · exact List.prefix_refl _

theorem base_inj {r' : ModelRow} {l : List (List Char × List Char)} (h : chars r.base <+: l)
    (h' : chars r'.base <+: l) : (r'.provider, r'.model) = (r.provider, r.model) := by
  have heq : chars r'.base = chars r.base := by
    rw [List.prefix_iff_eq_take.mp h, List.prefix_iff_eq_take.mp h']
    rfl
  simp only [chars, ModelRow.base, List.map_cons, List.map_nil, List.cons.injEq, Prod.mk.injEq, String.toList_inj] at heq
  rw [heq.1.2, heq.2.1.2]

/-- What is found of one model in the text is found in its lines. -/
theorem valuesOf_text (hr : r ∈ timedRows st) (hbounds : st.latencyBucketBoundsMs ≠ []) {name : String}
    (hname : ∀ n ∈ counterNames ++ otherNames, n.toList ≠ name.toList) {like : List (List Char × List Char) → Bool}
    (hlike : ∀ l, like l = true → chars r.base <+: l) (accepting : Bool) (inFlight : ℕ) :
    valuesOf (textSamples st accepting inFlight) name like =
      valuesOf (rowSamples st.latencyBucketBoundsMs r) name like := by
  have hfamilies : ∀ l : List Family, (∀ f ∈ l, f ∈ familiesAbove st ++ below st accepting inFlight) →
      valuesOf (l.flatMap Family.read) name like = [] := by
    intro l hl
    refine valuesOf_eq_nil fun s hs heq => absurd heq ?_
    obtain ⟨f, hf, hs⟩ := List.mem_flatMap.mp hs
    obtain ⟨a, -, rfl⟩ := List.mem_map.mp hs
    exact hname _ (names_families f (hl f hf))
  have hnodup : ((timedRows st).map fun r => (r.provider, r.model)).Nodup :=
    st.distinct.sublist (List.filter_sublist.map _)
  have hrows : valuesOf (histogramSamples st) name like = valuesOf (rowSamples st.latencyBucketBoundsMs r) name like := by
    rw [histogramSamples_eq st hbounds, valuesOf_flatMap]
    refine flatMap_of_key hnodup hr fun r' _ hne => valuesOf_eq_nil fun s hs _ => ?_
    by_contra hlikes
    exact hne (base_inj (hlike _ (Bool.not_eq_false _ ▸ hlikes)) (rowSamples_labels _ r' s hs))
  rw [textSamples, valuesOf_append, valuesOf_append, hfamilies _ fun f hf => List.mem_append_left _ hf,
    hfamilies _ fun f hf => List.mem_append_right _ hf, hrows, List.nil_append, List.append_nil]

/-- The requests counted so far do not become less. -/
theorem bucket_values (base : List (String × String)) (running : ℕ) (l : List (ℚ × ℕ)) :
    (((bucketEntries base running l).flatMap Exposition.Entry.samples).map (·.value)).Pairwise (· ≤ ·) ∧
      ∀ v ∈ ((bucketEntries base running l).flatMap Exposition.Entry.samples).map (·.value),
        (running : ℚ) ≤ v ∧ v ≤ (running + (l.map Prod.snd).sum : ℕ) := by
  induction l generalizing running with
  | nil => simp [bucketEntries]
  | cons a l ih =>
    obtain ⟨hpairwise, hbetween⟩ := ih (running + a.2)
    have hle : (running : ℚ) ≤ (running + a.2 : ℕ) := by exact_mod_cast Nat.le_add_right _ _
    rw [bucketEntries, List.flatMap_cons, samples_toDigits, List.singleton_append, List.map_cons]
    constructor
    · exact List.pairwise_cons.mpr ⟨fun v hv => (hbetween v hv).1, hpairwise⟩
    · intro v hv
      rw [List.map_cons, List.sum_cons, ← Nat.add_assoc]
      rcases List.mem_cons.mp hv with rfl | hv
      · exact ⟨hle, Nat.cast_le.mpr (Nat.le_add_right _ _)⟩
      · exact ⟨hle.trans (hbetween v hv).1, (hbetween v hv).2⟩

theorem histogram_names_ne : bucketName ≠ countName ∧ sumName ≠ countName ∧ sumName ≠ bucketName ∧
    countName ≠ bucketName := by decide +kernel

theorem le_ne (x : ℚ) : String.ofList (Decimal.general x) ≠ "+Inf" := by
  intro heq
  have hmem : 'I' ∈ Decimal.general x := by
    rw [← String.toList_ofList (l := Decimal.general x), heq]
    decide
  have hnumeral := Decimal.isNumeral_general x _ hmem
  exact absurd hnumeral (by simp [Decimal.IsNumeral])

/-- The last three lines of a model. -/
theorem valuesOf_last {x y z : ℚ} {l m : List (List Char × List Char)} :
    (∀ like, valuesOf [⟨bucketName, l, x⟩, ⟨sumName, m, y⟩, ⟨countName, m, z⟩] "caips_request_duration_seconds_bucket" like =
      if like l then [x] else []) ∧
    ∀ like, valuesOf [⟨bucketName, l, x⟩, ⟨sumName, m, y⟩, ⟨countName, m, z⟩] "caips_request_duration_seconds_count" like =
      if like m then [z] else [] := by
  have hbucket : "caips_request_duration_seconds_bucket".toList = bucketName := rfl
  have hcount : "caips_request_duration_seconds_count".toList = countName := rfl
  obtain ⟨hne₁, hne₂, hne₃, hne₄⟩ := histogram_names_ne
  unfold valuesOf
  rw [hbucket, hcount]
  constructor
  · intro like
    by_cases hl : like l = true
    · simp [hl, hne₃, hne₄]
    · simp [hl, hne₃, hne₄]
  · intro like
    by_cases hm : like m = true
    · simp [hm, hne₁, hne₂]
    · simp [hm, hne₁]

/-- **The lines of one model are a histogram.** -/
theorem row_addsUp (bounds : List ℚ) (h : r.latencyBuckets.length = bounds.length + 1) :
    AddsUp (rowSamples bounds r) r.base r.latencyBuckets.sum := by
  obtain ⟨last, -, hsum⟩ := buckets_split h
  obtain ⟨hpairwise, hbetween⟩ := bucket_values r.base 0 (bounds.zip r.latencyBuckets)
  have hbuckets := @samples_bucketEntries r.base 0 (bounds.zip r.latencyBuckets)
  rw [rowSamples, samples_rowEntries]
  generalize (bucketEntries r.base 0 (bounds.zip r.latencyBuckets)).flatMap Exposition.Entry.samples = samples at *
  obtain ⟨hbucketLine, hcountLine⟩ := @valuesOf_last r.latencyBuckets.sum (shown (.float (r.latencySumMs / 1000)))
    r.latencyBuckets.sum (chars (r.base ++ [("le", "+Inf")])) (chars r.base)
  have hstarts : ∀ m, (chars r.base).isPrefixOf (chars (r.base ++ m)) = true := by
    intro m
    rw [chars_append, List.isPrefixOf_iff_prefix]
    exact List.prefix_append _ _
  constructor
  · have hall : valuesOf samples "caips_request_duration_seconds_bucket" ((chars r.base).isPrefixOf ·) =
        samples.map (·.value) := by
      refine valuesOf_eq_map fun s hs => ?_
      obtain ⟨hname, x, hlabels⟩ := hbuckets s hs
      exact ⟨hname, by rw [hlabels]; exact hstarts _⟩
    rw [valuesOf_append, hall, hbucketLine, if_pos (hstarts _), List.pairwise_append]
    refine ⟨hpairwise, List.pairwise_singleton _ _, fun v hv w hw => ?_⟩
    rw [List.mem_singleton.mp hw]
    refine (hbetween v hv).2.trans (Nat.cast_le.mpr ?_)
    omega
  · have hnone : valuesOf samples "caips_request_duration_seconds_bucket"
        (· = chars (r.base ++ [("le", "+Inf")])) = [] := by
      refine valuesOf_eq_nil fun s hs _ => ?_
      obtain ⟨-, x, hlabels⟩ := hbuckets s hs
      rw [hlabels, decide_eq_false_iff_not]
      intro heq
      rw [chars_append, chars_append, List.append_cancel_left_eq] at heq
      simp only [chars, List.map_cons, List.map_nil, List.cons.injEq, Prod.mk.injEq, String.toList_inj] at heq
      exact le_ne x heq.1.2
    rw [valuesOf_append, hnone, hbucketLine, if_pos (by simp)]
    rfl
  · have hnone : valuesOf samples "caips_request_duration_seconds_count" (· = chars r.base) = [] := by
      refine valuesOf_eq_nil fun s hs heq => absurd ((hbuckets s hs).1.symm.trans heq) ?_
      exact histogram_names_ne.1
    rw [valuesOf_append, hnone, hcountLine, if_pos (by simp)]
    rfl

end Rows

/-! ## What the text tells -/

/-- There is no cache, no counter has more than six digits, but for zeros at its end, and all numbers are
small enough for a float. -/
structure Plain (st : Stats) (inFlight : ℕ) : Prop where
  noCache : st.cacheStats = none
  sixDigits : ∀ c ∈ routerCounters st, Decimal.HasSixDigits c.value
  small : ∀ c ∈ routerCounters st, (c.value : ℚ) < Binary64.overflow
  inFlight : (inFlight : ℚ) < Binary64.overflow

section

variable {st : Stats} {accepting : Bool} {inFlight : ℕ}

theorem mem_sortedItems {d : Dict String ℕ} {k : String × ℕ} : k ∈ sortedItems d ↔ k ∈ d.entries :=
  (List.perm_insertionSort _ _).mem_iff

theorem flag_small (p : Prop) [Decidable p] : ((if p then 1 else 0 : ℕ) : ℚ) < Binary64.overflow := by
  have hone : (1 : ℚ) < Binary64.overflow := by
    unfold Binary64.overflow
    have hstep : 1 ≤ Binary64.halfStep := one_le_pow₀ (by norm_num)
    nlinarith
  split
  · exact_mod_cast hone
  · exact lt_trans (by norm_num) hone

theorem allFinite_iff : AllFinite st accepting inFlight ↔
    (∀ c ∈ routerCounters st, (c.value : ℚ) < Binary64.overflow) ∧ (inFlight : ℚ) < Binary64.overflow := by
  have haccepting : (accepting.toNat : ℚ) < Binary64.overflow := by
    rw [Bool.toNat, Bool.cond_eq_ite]
    exact flag_small _
  simp only [AllFinite, familiesAbove, below, familiesBelow, serverFamilies, routerCounters, List.forall_mem_append,
    List.forall_mem_cons, List.forall_mem_map, List.forall_mem_flatMap, List.not_mem_nil, false_imp_iff, Finite,
    mem_sortedItems, flag_small, haccepting, implies_true, and_true, true_and, and_assoc]

theorem plain_of_faithful (h : Faithful st accepting inFlight) : Plain st inFlight := by
  obtain ⟨text, samples, hrender, hparse, hcounters, -⟩ := h
  obtain ⟨hfinite, rfl⟩ := (render_ok_iff st accepting inFlight text).mp hrender
  obtain rfl := Option.some.inj ((parse_entries st accepting inFlight).symm.trans hparse)
  obtain ⟨hsmall, hflight⟩ := allFinite_iff.mp hfinite
  have hperm := (readCounters_text st accepting inFlight).symm.trans hcounters
  have hcache : cacheCounters st = [] := by
    have hlength := hperm.length_eq
    simp only [counters, List.length_map, List.length_append] at hlength
    exact List.eq_nil_of_length_eq_zero (by omega)
  refine ⟨?_, fun c hc => ?_, hsmall, hflight⟩
  · cases hst : st.cacheStats with
    | none => rfl
    | some cache =>
      rw [cacheCounters, hst] at hcache
      cases hcache
  · -- The sample of a counter was printed, if for another one: so it has six digits.
    have hmem : c.sample ∈ (routerCounters st).map Counter.shown := by
      rw [hperm.mem_iff, counters, List.map_append]
      exact List.mem_append_left _ (List.mem_map_of_mem hc)
    obtain ⟨d, hd, heq⟩ := List.mem_map.mp hmem
    have hvalue : shown (.int d.value) = c.value := congrArg Exposition.Sample.value heq
    exact Decimal.hasSixDigits_of_printed (Binary64.toRat_ofNat_nonneg (hsmall d hd)) hvalue

theorem faithful_of_plain (h : Plain st inFlight) : Faithful st accepting inFlight := by
  refine ⟨_, _, (render_ok_iff st accepting inFlight _).mpr ⟨allFinite_iff.mpr ⟨h.small, h.inFlight⟩, rfl⟩,
    parse_entries st accepting inFlight, ?_, fun r hr htimed hbounds => ?_⟩
  · have hcache : cacheCounters st = [] := by
      rw [cacheCounters, h.noCache]
      rfl
    have hshown : (routerCounters st).map Counter.shown = (routerCounters st).map Counter.sample := by
      refine List.map_congr_left fun c hc => ?_
      have hvalue := (Decimal.printed_ofNat_iff (h.small c hc)).mpr (h.sixDigits c hc)
      rw [Counter.shown, Counter.sample, shown, hvalue]
    rw [counters, hcache, List.append_nil, ← hshown]
    exact readCounters_text st accepting inFlight
  · have htimed : r ∈ timedRows st := List.mem_filter.mpr ⟨hr, decide_eq_true htimed⟩
    obtain ⟨hnondecreasing, hlast, hcount⟩ := row_addsUp st.latencyBucketBoundsMs (st.buckets r hr)
    have hstarts : ∀ l, (chars r.base).isPrefixOf l = true → chars r.base <+: l := fun l => List.isPrefixOf_iff_prefix.mp
    have hnames : ∀ n ∈ counterNames ++ otherNames, n.toList ≠ "caips_request_duration_seconds_bucket".toList ∧
        n.toList ≠ "caips_request_duration_seconds_count".toList := by
      intro n hn
      rw [ne_eq, ne_eq, String.toList_inj, String.toList_inj]
      exact ⟨(names_ne n hn).1, (names_ne n hn).2.2⟩
    change AddsUp (textSamples st accepting inFlight) r.base r.latencyBuckets.sum
    constructor
    · have htext : valuesOf (textSamples st accepting inFlight) "caips_request_duration_seconds_bucket"
          ((chars r.base).isPrefixOf ·) = _ := valuesOf_text htimed hbounds (fun n hn => (hnames n hn).1) hstarts _ _
      rw [htext]
      exact hnondecreasing
    · rw [valuesOf_text htimed hbounds (fun n hn => (hnames n hn).1)]
      · exact hlast
      · intro l hl
        rw [of_decide_eq_true hl, chars_append]
        exact List.prefix_append _ _
    · rw [valuesOf_text htimed hbounds (fun n hn => (hnames n hn).2)]
      · exact hcount
      · intro l hl
        rw [of_decide_eq_true hl]

end

/-- **The text is faithful exactly where there is no cache and all counters are short.** -/
theorem faithful_iff (st : Stats) (accepting : Bool) (inFlight : ℕ) :
    Faithful st accepting inFlight ↔ Plain st inFlight := by
  constructor
  · exact plain_of_faithful
  · exact faithful_of_plain

end Metrics

/-! ## The statistics of a router -/

namespace RouterState

open Metrics Caips.Providers

theorem stocked_of_modelStats {s s' : RouterState} (h : s.Stocked) (heq : s'.modelStats = s.modelStats) : s'.Stocked := by
  unfold Stocked
  rw [heq]
  exact h

/-- A router starts without rows. -/
theorem stocked_init (S : Setup) (providers : List (String × Provider)) : (init S providers).Stocked := by
  have hset : ∀ (l : List (String × Provider)) (s : RouterState), s.Stocked →
      (l.foldl (fun s p => s.setProvider S p.1 p.2) s).Stocked := by
    intro l
    induction l with
    | nil => exact fun s h => h
    | cons p l ih =>
      intro s h
      refine ih _ (stocked_of_modelStats h ?_)
      unfold setProvider
      dsimp only
      split <;> rfl
  refine hset providers (blank S) ?_
  intro e he
  cases he

end RouterState

namespace Metrics

open RouterState

theorem not_hasSixDigits : ¬ Decimal.HasSixDigits 1234567 := by
  rintro ⟨m, k, hm, heq⟩
  cases k with
  | zero => omega
  | succ k =>
    rw [pow_succ, ← mul_assoc] at heq
    omega

/-- The hits and misses of a fresh router's cache are not in the text, and a counter of seven digits is
not read back. -/
theorem counters_lost :
    (∃ st, (init {} []).stats {} Dict.empty (stocked_init _ _) = .ok st ∧ ¬ Faithful st true 0) ∧
    ∃ st, ({ init { config := { enableCache := false } } [] with requestCount := 1234567 } : RouterState).stats
        { config := { enableCache := false } } Dict.empty (stocked_init _ _) = .ok st ∧ ¬ Faithful st true 0 := by
  refine ⟨⟨_, rfl, fun h => ?_⟩, _, rfl, fun h => ?_⟩
  · exact absurd (plain_of_faithful h).noCache (by simp [init, blank])
  · exact not_hasSixDigits ((plain_of_faithful h).sixDigits _ List.mem_cons_self)

end Metrics

end Caips.Coreai
