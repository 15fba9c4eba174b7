/-
Caips.Coreai.Billing — when a streamed answer costs what the same answer costs
through `complete`.

`complete` accounts for an answer inside the adapter, with the model the request
names; a stream is accounted for by `_settle_stream`, from what the chunks reported.
The two agree when both counts of the last report are there, and it counts the same
output and names no other model. Three things break it: OpenAI and Anthropic report the
dated name of the model that answered, Gemini adds the thinking tokens to the output in
`stream` only, and a stream that yields no text is not accounted for at all.

* `Recorded` — what the router's tables hold once an answer is on record
  (`recorded_settle`).
* `Delivery` — one answer of a service, as a response and as a stream.
-/
import Caips.Coreai.Router
import Caips.Logic.Sync
import Caips.Providers.Anthropic
import Caips.Providers.Gemini
import Caips.Providers.OpenAI

namespace Caips.Coreai

open Caips.Logic Caips.Providers

/-! ## What is recorded -/

/-- What a router records of an answer. -/
structure Bill where
  model : String
  inputTokens : ℕ
  outputTokens : ℕ
  costUsd : ℚ
  deriving DecidableEq

/-- The account of a response: what `_record_success` and `_record_usage` are given. -/
def Bill.ofReply (r : CompletionResponse) : Bill := ⟨r.model, r.inputTokens, r.outputTokens, r.costUsd⟩

/-- The account of a settled stream. -/
def Bill.ofUsage (u : StreamUsage) : Bill := ⟨u.model, u.inputTokens, u.outputTokens, u.costUsd⟩

/-- The router's tables, with this account on record under a provider. -/
structure Recorded (s s' : RouterState) (name : String) (latencyMs : Option ℚ) (b : Bill) : Prop where
  cost : ∀ st, s.providerStats.get? name = some st → ∃ st', s'.providerStats.get? name = some st' ∧
    st'.totalCost = st.totalCost + b.costUsd
  usage : s'.modelStats = (s.recordUsage name b.model latencyMs b.inputTokens b.outputTokens).modelStats

namespace RouterState

theorem modelStats_recordUsage {s t : RouterState} (h : s.modelStats = t.modelStats) (name model : String)
    (latencyMs : Option ℚ) (i o : ℕ) :
    (s.recordUsage name model latencyMs i o).modelStats = (t.recordUsage name model latencyMs i o).modelStats := by
  unfold recordUsage modelKey
  simp only [h]

theorem onStats_run {s : RouterState} {name : String} {st : ProviderStats}
    (h : s.providerStats.get? name = some st) (f : ProviderStats → ProviderStats) :
    onStats name f s = (.ok (), { s with providerStats := s.providerStats.set name (f st) }) := by
  unfold onStats
  rw [Sync.bind_run, Sync.reads_run, lookup_of_get? h]
  rfl

end RouterState

namespace Router

/-- The usage object `_settle_stream` leaves. -/
def settledUsage (p : Provider) (name : String) (r : CompletionRequest) (usage : StreamUsage) (chars : ℕ)
    (completed : Bool) : StreamUsage :=
  let usage := { usage with
    provider := name
    completed := completed
    model := if usage.model = "" then RouterState.orElse r.model p.defaultModel else usage.model }
  let prompt := (r.messages.map fun m => m.content.length).sum + (r.systemPrompt.getD "").length
  let estimated := { usage with
    inputTokens := max 1 (prompt / 4)
    outputTokens := max 1 (chars / 4)
    estimated := true }
  let final := if usage.reported then usage else estimated
  { final with costUsd := p.bill final.inputTokens final.outputTokens final.model }

/-- `_settle_stream` once provider and usage object are read. -/
def settleWith (name : String) (u : ℕ) (final : StreamUsage) (reported : Bool) : Routing Unit := do
  Sync.update fun s =>
    { s.onUsage u fun _ => final with
      streamsEstimated := if reported then s.streamsEstimated else RouterState.bump s.streamsEstimated name }
  RouterState.onStats name fun st => { st with totalCost := st.totalCost + final.costUsd }
  Sync.update fun s => s.recordUsage name final.model none final.inputTokens final.outputTokens

theorem settleStreamRaw_eq {s : RouterState} {name : String} {p : Provider}
    (hp : s.providers.get? name = some p) (r : CompletionRequest) (u chars : ℕ) (completed : Bool) :
    settleStreamRaw name r u chars completed s =
      settleWith name u (settledUsage p name r (s.usageAt u) chars completed) (s.usageAt u).reported s := by
  unfold settleStreamRaw settleWith
  rw [Sync.bind_run, Sync.reads_run, lookup_of_get? hp]
  dsimp only
  rw [Sync.bind_run, Sync.reads_run]
  rfl

theorem recorded_settle {s : RouterState} {name : String} {p : Provider} {st : ProviderStats}
    (hp : s.providers.get? name = some p) (hst : s.providerStats.get? name = some st)
    (r : CompletionRequest) (u chars : ℕ) (completed : Bool) :
    Recorded s (settleStreamRaw name r u chars completed s).2 name none
      (.ofUsage (settledUsage p name r (s.usageAt u) chars completed)) := by
  rw [settleStreamRaw_eq hp]
  generalize settledUsage p name r (s.usageAt u) chars completed = final
  generalize (s.usageAt u).reported = reported
  unfold settleWith
  rw [Sync.bind_run, Sync.update_run]
  dsimp only
  rw [Sync.bind_run, RouterState.onStats_run (by exact hst)]
  refine ⟨fun st' hst' => ⟨_, Dict.get?_set_self _ _ _, ?_⟩, ?_⟩
  · obtain rfl := Option.some.inj (hst.symm.trans hst')
    rfl
  · exact RouterState.modelStats_recordUsage rfl _ _ _ _ _

end Router

/-! ## What a stream reports -/

/-- One report of usage. -/
structure Report where
  input : Option ℕ
  output : Option ℕ
  model : Option String

namespace Report

/-- The name a report gives the model: one without counts is ignored. -/
def name? (x : Report) : Option String :=
  if x.input = none ∧ x.output = none then none else x.model.filter (· ≠ "")

/-- The last name in a list of reports. -/
def lastName (l : List Report) : String := ((l.filterMap name?).getLast?).getD ""

/-- What of a usage object the settlement reads. -/
def counted (u : StreamUsage) : ℕ × ℕ × String × Bool := (u.inputTokens, u.outputTokens, u.model, u.reported)

def apply (u : StreamUsage) (x : Report) : StreamUsage := u.report x.input x.output x.model

theorem counted_apply {u v : StreamUsage} (h : counted u = counted v) (x : Report) :
    counted (apply u x) = counted (apply v x) := by
  unfold counted at h
  simp only [Prod.mk.injEq] at h
  obtain ⟨hi, ho, hm, hr⟩ := h
  unfold apply StreamUsage.report counted
  cases x.input <;> cases x.output <;> simp [hi, ho, hm, hr]

theorem model_apply (u : StreamUsage) (x : Report) : (apply u x).model = x.name?.getD u.model := by
  unfold apply StreamUsage.report name?
  cases x.input <;> cases x.output <;> simp

theorem counted_apply_full {x : Report} {i o : ℕ} (hi : x.input = some i) (ho : x.output = some o)
    (u : StreamUsage) : counted (apply u x) = (i, o, x.name?.getD u.model, true) := by
  unfold counted
  rw [model_apply]
  unfold apply StreamUsage.report
  simp [hi, ho]

theorem model_foldl (u : StreamUsage) (l : List Report) :
    (l.foldl apply u).model = ((l.filterMap name?).getLast?).getD u.model := by
  induction l generalizing u with
  | nil => rfl
  | cons x l ih =>
    rw [List.foldl_cons, ih, model_apply]
    cases hname : x.name? with
    | none => simp [hname]
    | some name =>
      rw [List.filterMap_cons_some hname, List.getLast?_cons]
      rfl

theorem counted_foldl {l : List Report} {x : Report} {i o : ℕ} (hlast : l.getLast? = some x)
    (hi : x.input = some i) (ho : x.output = some o) (u : StreamUsage) (hu : u.model = "") :
    counted (l.foldl apply u) = (i, o, lastName l, true) := by
  obtain ⟨before, rfl⟩ := List.getLast?_eq_some_iff.mp hlast
  have hname : ((before ++ [x]).foldl apply u).model = lastName (before ++ [x]) := by
    rw [model_foldl, hu]
    rfl
  rw [List.foldl_append, List.foldl_cons, List.foldl_nil] at hname ⊢
  have hcounted := counted_apply_full hi ho (before.foldl apply u)
  rw [← model_apply, hname] at hcounted
  exact hcounted

/-- A stream whose chunks report like this. -/
theorem counted_runChunks {α : Type} {step : StreamUsage → α → StreamUsage × Option String}
    {report : α → Option Report}
    (hstep : ∀ u c, counted (step u c).1 = counted ((report c).elim u (apply u))) (chunks : List α) :
    ∀ u v : StreamUsage, counted u = counted v →
      counted (runChunks step u chunks).1 = counted ((chunks.filterMap report).foldl apply v) := by
  induction chunks with
  | nil => exact fun u v h => h
  | cons c chunks ih =>
    intro u v h
    have hnext := hstep u c
    cases hreport : report c with
    | none =>
      rw [hreport] at hnext
      rw [List.filterMap_cons_none hreport]
      exact ih _ _ (hnext.trans h)
    | some x =>
      rw [hreport] at hnext
      rw [List.filterMap_cons_some hreport]
      exact ih _ _ (hnext.trans (counted_apply h x))

end Report

/-- The texts of a stream whose chunks yield like this. -/
theorem texts_runChunks {α : Type} {step : StreamUsage → α → StreamUsage × Option String}
    {text : α → Option String} (hstep : ∀ u c, (step u c).2 = text c) (chunks : List α) :
    ∀ u : StreamUsage, (runChunks step u chunks).2 = chunks.filterMap text := by
  induction chunks with
  | nil => exact fun u => rfl
  | cons c chunks ih =>
    intro u
    have hcons : (runChunks step u (c :: chunks)).2 =
        (step u c).2.toList ++ (runChunks step (step u c).1 chunks).2 := rfl
    rw [hcons, hstep, ih]
    cases htext : text c with
    | none => rw [List.filterMap_cons_none htext]; rfl
    | some s => rw [List.filterMap_cons_some htext]; rfl

/-! ## One answer, delivered twice -/

/-- One answer of a service: the response `complete` gets and what `stream` gets. The
final message of an Anthropic stream is the response. -/
inductive Delivery where
  | openai (response : OpenAI.Response) (chunks : List OpenAI.Chunk)
  | anthropic (response : Anthropic.Response) (texts : List String)
  | gemini (response : Gemini.Response) (chunks : List Gemini.Response)

namespace Delivery

/-- The text of OpenAI's response. -/
def openaiText (response : OpenAI.Response) : String := textOr (response.choices.head?.bind (·.content)) ""

def openaiReport (c : OpenAI.Chunk) : Option Report :=
  c.usage.map fun u => ⟨u.promptTokens, u.completionTokens, c.model⟩

def openaiDelta (c : OpenAI.Chunk) : Option String := c.choices.head?.bind fun d => d.content.filter (· ≠ "")

def geminiReport (c : Gemini.Response) : Option Report :=
  c.usageMetadata.map fun u => ⟨u.promptTokenCount, u.output, none⟩

def geminiDelta (c : Gemini.Response) : Option String := c.text.filter (· ≠ "")

/-- The chunks hold the text of the response, and its usage is the last they report. -/
def Same : Delivery → Prop
  | openai response chunks =>
    String.join (chunks.filterMap openaiDelta) = openaiText response ∧
      (chunks.filterMap (·.usage)).getLast? = response.usage
  | anthropic response texts => String.join texts = String.join response.texts
  | gemini response chunks =>
    String.join (chunks.filterMap geminiDelta) = textOr response.text "" ∧
      (chunks.filterMap (·.usageMetadata)).getLast? = response.usageMetadata

def provider (prices : PriceTable) : Delivery → Provider
  | openai _ _ => OpenAI.provider prices
  | anthropic _ _ => Anthropic.provider prices
  | gemini _ _ => Gemini.provider prices

/-- The answer of `complete`. -/
def complete (prices : PriceTable) (r : CompletionRequest) (latencyMs : ℚ) : Delivery → Except AdapterError Reply
  | openai response _ => OpenAI.complete prices r response latencyMs
  | anthropic response _ => Anthropic.complete prices r response latencyMs
  | gemini response _ => Gemini.complete prices r response latencyMs

/-- The usage object and the texts of `stream`. -/
def stream (u : StreamUsage) : Delivery → StreamUsage × List String
  | openai _ chunks => OpenAI.stream u chunks
  | anthropic response texts => Anthropic.stream u texts (some response)
  | gemini _ chunks => Gemini.stream u chunks

/-- The usage object of a stream when it opens. -/
def opened (prices : PriceTable) (r : CompletionRequest) (d : Delivery) : StreamUsage where
  openedModel := RouterState.orElse r.model (d.provider prices).defaultModel

/-- What the router records of the stream: nothing, if it yielded no chunk. -/
def streamed (prices : PriceTable) (r : CompletionRequest) (d : Delivery) : Option Bill :=
  let p := d.provider prices
  let out := d.stream (d.opened prices r)
  if out.2 = [] then none
  else
    some (.ofUsage (Router.settledUsage p p.name r out.1 (out.2.map String.length).sum true))

/-- The stream yields text, names no other model and counts no thinking tokens. -/
def Plain (r : CompletionRequest) : Delivery → Prop
  | openai response chunks =>
    openaiText response ≠ "" ∧
      (Report.lastName (chunks.filterMap openaiReport) = "" ∨
        Report.lastName (chunks.filterMap openaiReport) = textOr r.model OpenAI.defaultModel)
  | anthropic response texts =>
    texts ≠ [] ∧ (textOr response.model "" = "" ∨ textOr response.model "" = textOr r.model Anthropic.defaultModel)
  | gemini response _ =>
    textOr response.text "" ≠ "" ∧ (response.usageMetadata.bind (·.thoughtsTokenCount)).getD 0 = 0

/-! ## The two accounts -/

theorem orElse_eq (o : Option String) (d : String) : RouterState.orElse o d = textOr o d := by
  unfold RouterState.orElse textOr
  cases o with
  | none => rfl
  | some v => by_cases hv : v = "" <;> simp [Option.filter, hv]

theorem join_eq_empty_iff {l : List String} (hne : ∀ s ∈ l, s ≠ "") : String.join l = "" ↔ l = [] := by
  cases l with
  | nil => simp
  | cons s l =>
    have hs := hne s List.mem_cons_self
    simp [String.join_cons, hs]

variable {model : String}

theorem ofUsage_settled {p : Provider} {u : StreamUsage} {i o : ℕ}
    (h : Report.counted u = (i, o, model, true)) (name : String) (r : CompletionRequest) (chars : ℕ) :
    Bill.ofUsage (Router.settledUsage p name r u chars true) =
      let model := if model = "" then textOr r.model p.defaultModel else model
      ⟨model, i, o, p.bill i o model⟩ := by
  unfold Report.counted at h
  simp only [Prod.mk.injEq] at h
  obtain ⟨hi, ho, hm, hr⟩ := h
  unfold Router.settledUsage Bill.ofUsage
  simp [hi, ho, hm, hr, orElse_eq]

/-- The account `complete` gives: the requested model, at its price. -/
def Charged (p : Provider) (r : CompletionRequest) (reply : Reply) (i o : ℕ) : Prop :=
  Bill.ofReply reply.toCompletionResponse =
    ⟨textOr r.model p.defaultModel, i, o, p.bill i o (textOr r.model p.defaultModel)⟩

/-- The two accounts agree when model and output tokens do. -/
theorem settled_iff {p : Provider} {r : CompletionRequest} {reply : Reply} {u : StreamUsage} {i o o' : ℕ}
    (hcharged : Charged p r reply i o) (hcounted : Report.counted u = (i, o', model, true))
    (name : String) (chars : ℕ) :
    Bill.ofUsage (Router.settledUsage p name r u chars true) = .ofReply reply.toCompletionResponse ↔
      (model = "" ∨ model = textOr r.model p.defaultModel) ∧ o' = o := by
  rw [ofUsage_settled hcounted, hcharged]
  by_cases hm : model = ""
  · simp only [hm, if_true, true_or, true_and, Bill.mk.injEq]
    constructor
    · exact fun h => h.1
    · rintro rfl
      exact ⟨rfl, rfl⟩
  · simp only [hm, if_false, false_or, Bill.mk.injEq, true_and]
    constructor
    · exact fun h => ⟨h.1, h.2.1⟩
    · rintro ⟨rfl, rfl⟩
      exact ⟨rfl, rfl, rfl⟩

theorem cost_of_bill {prices : PriceTable} {name model : String} {i o : ℕ} {cost : ℚ}
    (h : bill prices name model (some i) (some o) = .ok cost) :
    ((prices.cost name model (some i) (some o)).toOption).getD 0 = cost := by
  unfold bill at h
  cases hcost : prices.cost name model (some i) (some o) with
  | error text =>
    rw [hcost] at h
    cases h
  | ok c =>
    rw [hcost] at h
    exact Except.ok.inj h

theorem some_of_orRaise {α : Type} {e : AdapterError} {o : Option α} {a : α} (h : orRaise e o = .ok a) :
    o = some a := by
  cases o with
  | none => cases h
  | some b => exact congrArg some (Except.ok.inj h)

theorem track_ok {input output : Option ℕ} {counts : ℕ × ℕ} (h : track input output = .ok counts) :
    input = some counts.1 ∧ output = some counts.2 := by
  unfold track at h
  split at h
  · cases h
    exact ⟨rfl, rfl⟩
  · cases h

variable {prices : PriceTable} {r : CompletionRequest} {latencyMs : ℚ} {reply : Reply}

theorem charged_openai {response : OpenAI.Response} (h : OpenAI.complete prices r response latencyMs = .ok reply) :
    ∃ i o, response.usage = some ⟨some i, some o⟩ ∧ Charged (OpenAI.provider prices) r reply i o := by
  unfold OpenAI.complete at h
  obtain ⟨usage, husage, h⟩ := ok_of_bind h
  obtain ⟨cost, hcost, h⟩ := ok_of_bind h
  obtain ⟨choice, -, h⟩ := ok_of_bind h
  obtain ⟨counts, hcounts, h⟩ := ok_of_bind h
  obtain ⟨hi, ho⟩ := track_ok hcounts
  have hresponse := some_of_orRaise husage
  obtain rfl := Except.ok.inj h
  refine ⟨counts.1, counts.2, ?_, ?_⟩
  · rw [hresponse, ← hi, ← ho]
  · rw [hi, ho] at hcost
    exact congrArg (Bill.mk _ _ _) (cost_of_bill hcost).symm

theorem charged_anthropic {response : Anthropic.Response}
    (h : Anthropic.complete prices r response latencyMs = .ok reply) :
    ∃ i o, response.usage = ⟨some i, some o⟩ ∧ Charged (Anthropic.provider prices) r reply i o := by
  unfold Anthropic.complete at h
  obtain ⟨cost, hcost, h⟩ := ok_of_bind h
  dsimp only at h
  generalize hcontent : (if r.responseFormat.isSome = true ∧ response.calls = [] then
    stripJsonFences (String.join response.texts) else String.join response.texts) = content at h
  split at h
  · cases h
  · obtain ⟨counts, hcounts, h⟩ := ok_of_bind h
    obtain ⟨hi, ho⟩ := track_ok hcounts
    obtain rfl := Except.ok.inj h
    refine ⟨counts.1, counts.2, ?_, ?_⟩
    · rw [← hi, ← ho]
    · rw [hi, ho] at hcost
      exact congrArg (Bill.mk _ _ _) (cost_of_bill hcost).symm

theorem charged_gemini {response : Gemini.Response} (h : Gemini.complete prices r response latencyMs = .ok reply) :
    ∃ usage i o, response.usageMetadata = some usage ∧ usage.promptTokenCount = some i ∧
      usage.candidatesTokenCount = some o ∧ Charged (Gemini.provider prices) r reply i o := by
  unfold Gemini.complete at h
  obtain ⟨usage, husage, h⟩ := ok_of_bind h
  obtain ⟨cost, hcost, h⟩ := ok_of_bind h
  obtain ⟨counts, hcounts, h⟩ := ok_of_bind h
  obtain ⟨hi, ho⟩ := track_ok hcounts
  have hresponse := some_of_orRaise husage
  obtain rfl := Except.ok.inj h
  refine ⟨usage, counts.1, counts.2, hresponse, hi, ho, ?_⟩
  rw [hi, ho] at hcost
  exact congrArg (Bill.mk _ _ _) (cost_of_bill hcost).symm

/-- The last value of a list, with what it was made of. -/
theorem getLast?_filterMap_map {α β γ : Type} {f : α → Option β} (g : α → β → γ) {l : List α} {b : β}
    (h : (l.filterMap f).getLast? = some b) :
    ∃ a ∈ l, f a = some b ∧ (l.filterMap fun a => (f a).map (g a)).getLast? = some (g a b) := by
  induction l using List.reverseRecOn with
  | nil => cases h
  | append_singleton l a ih =>
    rw [List.filterMap_append] at h ⊢
    cases ha : f a with
    | none =>
      simp only [List.filterMap_cons_none ha, List.filterMap_nil, List.append_nil] at h
      obtain ⟨c, hc, hfc, hlast⟩ := ih h
      refine ⟨c, List.mem_append_left _ hc, hfc, ?_⟩
      simpa [ha] using hlast
    | some b' =>
      simp only [List.filterMap_cons_some ha, List.filterMap_nil, List.getLast?_append,
        List.getLast?_singleton, Option.some_or, Option.some.injEq] at h
      subst h
      exact ⟨a, by simp, ha, by simp [ha]⟩

theorem filterMap_eq_nil_iff {α : Type} {f : α → Option String} (hne : ∀ a s, f a = some s → s ≠ "")
    (l : List α) : l.filterMap f = [] ↔ String.join (l.filterMap f) = "" := by
  refine (join_eq_empty_iff fun s hs => ?_).symm
  obtain ⟨a, -, ha⟩ := List.mem_filterMap.mp hs
  exact hne a s ha

/-- When the stream's account is that of `complete`, whose input is the last reported. -/
theorem streamed_iff {d : Delivery} {i o o' : ℕ}
    (hcharged : Charged (d.provider prices) r reply i o)
    (hcounted : Report.counted (d.stream (d.opened prices r)).1 = (i, o', model, true)) :
    d.streamed prices r = some (.ofReply reply.toCompletionResponse) ↔
      (d.stream (d.opened prices r)).2 ≠ [] ∧
        (model = "" ∨ model = textOr r.model (d.provider prices).defaultModel) ∧ o' = o := by
  unfold streamed
  dsimp only
  by_cases hnil : (d.stream (d.opened prices r)).2 = []
  · simp [hnil]
  · rw [if_neg hnil, Option.some_inj, settled_iff hcharged hcounted]
    exact ⟨fun h => ⟨hnil, h⟩, fun h => h.2⟩

/-- The stream of OpenAI: its texts, and what its chunks report. -/
theorem openai_stream (u : StreamUsage) (chunks : List OpenAI.Chunk) :
    (OpenAI.stream u chunks).2 = chunks.filterMap openaiDelta ∧
      Report.counted (OpenAI.stream u chunks).1 =
        Report.counted ((chunks.filterMap openaiReport).foldl Report.apply u) := by
  constructor
  · refine texts_runChunks (fun u c => ?_) chunks u
    unfold OpenAI.streamChunk openaiDelta
    cases c.choices <;> rfl
  · refine Report.counted_runChunks (fun u c => ?_) chunks u u rfl
    unfold OpenAI.streamChunk OpenAI.Chunk.report openaiReport
    cases c.usage with
    | none =>
      cases c.choices with
      | nil => rfl
      | cons d l =>
        dsimp only
        split_ifs <;> rfl
    | some usage =>
      cases c.choices with
      | nil => rfl
      | cons d l =>
        dsimp only
        split_ifs <;> rfl

theorem same_openai {response : OpenAI.Response} {chunks : List OpenAI.Chunk}
    (hsame : (openai response chunks).Same) (h : OpenAI.complete prices r response latencyMs = .ok reply) :
    (openai response chunks).streamed prices r = some (.ofReply reply.toCompletionResponse) ↔
      (openai response chunks).Plain r := by
  obtain ⟨i, o, husage, hcharged⟩ := charged_openai h
  obtain ⟨c, -, -, hlast⟩ := getLast?_filterMap_map
    (fun (c : OpenAI.Chunk) u => (⟨u.promptTokens, u.completionTokens, c.model⟩ : Report)) (hsame.2.trans husage)
  obtain ⟨htexts, hcounted⟩ := openai_stream ((openai response chunks).opened prices r) chunks
  have hempty : chunks.filterMap openaiDelta = [] ↔ openaiText response = "" := by
    rw [← hsame.1]
    refine filterMap_eq_nil_iff (fun c s hs => ?_) chunks
    obtain ⟨d, -, hd⟩ := Option.bind_eq_some_iff.mp hs
    simpa using (Option.filter_eq_some_iff.mp hd).2
  rw [streamed_iff (d := openai response chunks) hcharged
    (hcounted.trans (Report.counted_foldl hlast rfl rfl _ rfl))]
  refine (and_congr (not_congr ?_) (and_iff_left rfl))
  exact (Eq.congr_left htexts).trans hempty

theorem gemini_stream (u : StreamUsage) (chunks : List Gemini.Response) :
    (Gemini.stream u chunks).2 = chunks.filterMap geminiDelta ∧
      Report.counted (Gemini.stream u chunks).1 =
        Report.counted ((chunks.filterMap geminiReport).foldl Report.apply u) := by
  constructor
  · have htext : ∀ u c, (Gemini.streamChunk u c).2 = geminiDelta c := fun _ _ => rfl
    exact texts_runChunks htext chunks u
  · refine Report.counted_runChunks (fun u c => ?_) chunks u u rfl
    unfold Gemini.streamChunk Gemini.Response.report geminiReport
    cases c.usageMetadata <;> cases Gemini.finish c <;> rfl

theorem lastName_gemini (chunks : List Gemini.Response) : Report.lastName (chunks.filterMap geminiReport) = "" := by
  have hnone : ∀ x ∈ chunks.filterMap geminiReport, x.name? = none := by
    intro x hx
    obtain ⟨c, -, hc⟩ := List.mem_filterMap.mp hx
    obtain ⟨u, -, rfl⟩ := Option.map_eq_some_iff.mp hc
    simp [Report.name?]
  unfold Report.lastName
  rw [List.filterMap_eq_nil_iff.mpr hnone]
  rfl

theorem same_gemini {response : Gemini.Response} {chunks : List Gemini.Response}
    (hsame : (gemini response chunks).Same) (h : Gemini.complete prices r response latencyMs = .ok reply) :
    (gemini response chunks).streamed prices r = some (.ofReply reply.toCompletionResponse) ↔
      (gemini response chunks).Plain r := by
  obtain ⟨usage, i, o, husage, hi, ho, hcharged⟩ := charged_gemini h
  obtain ⟨c, -, -, hlast⟩ := getLast?_filterMap_map
    (fun (_ : Gemini.Response) u => (⟨u.promptTokenCount, u.output, none⟩ : Report)) (hsame.2.trans husage)
  have hlast : (chunks.filterMap geminiReport).getLast? = some ⟨usage.promptTokenCount, usage.output, none⟩ := hlast
  have hout : usage.output = some (o + usage.thoughtsTokenCount.getD 0) := by
    unfold Gemini.UsageMetadata.output
    rw [ho]
    cases usage.thoughtsTokenCount <;> rfl
  obtain ⟨htexts, hcounted⟩ := gemini_stream ((gemini response chunks).opened prices r) chunks
  have hempty : chunks.filterMap geminiDelta = [] ↔ textOr response.text "" = "" := by
    rw [← hsame.1]
    refine filterMap_eq_nil_iff (fun c s hs => ?_) chunks
    simpa using (Option.filter_eq_some_iff.mp hs).2
  rw [streamed_iff (d := gemini response chunks) hcharged
    (hcounted.trans (Report.counted_foldl hlast hi hout _ rfl))]
  have hthoughts : (response.usageMetadata.bind (·.thoughtsTokenCount)).getD 0 = usage.thoughtsTokenCount.getD 0 := by
    rw [husage]
    rfl
  refine and_congr (not_congr ((Eq.congr_left htexts).trans hempty)) ?_
  rw [hthoughts, lastName_gemini]
  simp only [true_or, true_and]
  omega

theorem same_anthropic {response : Anthropic.Response} {texts : List String}
    (h : Anthropic.complete prices r response latencyMs = .ok reply) :
    (anthropic response texts).streamed prices r = some (.ofReply reply.toCompletionResponse) ↔
      (anthropic response texts).Plain r := by
  obtain ⟨i, o, husage, hcharged⟩ := charged_anthropic h
  have hcounted : ∀ u : StreamUsage, u.model = "" →
      Report.counted (Anthropic.finishStream u (some response)) = (i, o, textOr response.model "", true) := by
    intro u hu
    have hfull := Report.counted_apply_full (x := ⟨some i, some o, response.model⟩) rfl rfl u
    rw [hu] at hfull
    unfold Anthropic.finishStream
    dsimp only
    rw [husage]
    exact hfull
  rw [streamed_iff (d := anthropic response texts) hcharged (hcounted _ rfl)]
  exact and_congr Iff.rfl (and_iff_left rfl)

/-- **When a stream costs what the same answer costs through `complete`**: it yields text,
reports no other model name than the one requested, and counts no thinking tokens. -/
theorem same_bill {d : Delivery} (hsame : d.Same) (h : d.complete prices r latencyMs = .ok reply) :
    d.streamed prices r = some (.ofReply reply.toCompletionResponse) ↔ d.Plain r := by
  cases d with
  | openai response chunks => exact same_openai hsame h
  | anthropic response texts => exact same_anthropic h
  | gemini response chunks => exact same_gemini hsame h

/-! ## The dated name of a model -/

/-- `gpt-4o-mini` has a price of its own, every other model of OpenAI the standard one. -/
def listed : PriceTable where
  providers := .ofList [("openai",
    { standard := ⟨5 / 2, 10⟩, models := .ofList [("gpt-4o-mini", ⟨3 / 20, 3 / 5⟩)] })]

def hello : CompletionRequest where
  messages := [{ role := "user", content := "Hello" }]
  model := some "gpt-4o-mini"

/-- One answer from OpenAI, with the name of the model in its last chunk. -/
def greeting (model : Option String) : Delivery :=
  openai { usage := some ⟨some 1000, some 500⟩, choices := [{ content := some "Hi", finishReason := some "stop" }] }
    [{ choices := [{ content := some "Hi" }] },
      { choices := [{ finishReason := some "stop" }] },
      { usage := some ⟨some 1000, some 500⟩, model := model }]

theorem greeting_complete (model : Option String) :
    ∃ reply, (greeting model).complete listed hello 0 = .ok reply ∧
      Bill.ofReply reply.toCompletionResponse = ⟨"gpt-4o-mini", 1000, 500, 9 / 20000⟩ := by
  have hbill : ((OpenAI.complete listed hello
      { usage := some ⟨some 1000, some 500⟩, choices := [{ content := some "Hi", finishReason := some "stop" }] }
      0).toOption.map fun reply => Bill.ofReply reply.toCompletionResponse) =
        some ⟨"gpt-4o-mini", 1000, 500, 9 / 20000⟩ := by decide +kernel
  obtain ⟨reply, hreply, hbill⟩ := Option.map_eq_some_iff.mp hbill
  refine ⟨reply, ?_, hbill⟩
  show OpenAI.complete listed hello _ 0 = .ok reply
  revert hreply
  generalize OpenAI.complete listed hello _ 0 = answer
  intro hreply
  cases answer with
  | error e => cases hreply
  | ok a => exact congrArg Except.ok (Option.some.inj hreply)

theorem greeting_same (model : Option String) : (greeting model).Same := by
  constructor <;> rfl

/-- A stream whose model has no other name costs the same. -/
theorem same_bill_greeting :
    (greeting (some "gpt-4o-mini")).streamed listed hello = some ⟨"gpt-4o-mini", 1000, 500, 9 / 20000⟩ := by
  obtain ⟨reply, hreply, hbill⟩ := greeting_complete (some "gpt-4o-mini")
  rw [← hbill]
  refine (same_bill (greeting_same _) hreply).mpr ⟨by decide +kernel, .inr ?_⟩
  decide +kernel

/-- The service names the model with its date, which has no price of its own. -/
theorem dated_model_costs_more : (greeting (some "gpt-4o-mini-2024-07-18")).Same ∧
    (∃ reply, (greeting (some "gpt-4o-mini-2024-07-18")).complete listed hello 0 = .ok reply ∧
      Bill.ofReply reply.toCompletionResponse = ⟨"gpt-4o-mini", 1000, 500, 9 / 20000⟩) ∧
    (greeting (some "gpt-4o-mini-2024-07-18")).streamed listed hello =
      some ⟨"gpt-4o-mini-2024-07-18", 1000, 500, 3 / 400⟩ :=
  ⟨greeting_same _, greeting_complete _, by decide +kernel⟩

end Delivery

end Caips.Coreai
