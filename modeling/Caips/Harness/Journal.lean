/-
Caips.Harness.Journal — what the journal of a run says.

A journal is read backwards: what an entry is held to is a statement about the
entries before it (`Each`). `Fine` is that statement for one run: a checkpoint and
a check of the limits go by the sums of the model calls so far, a model call
follows a check that found room, and is charged to the owner. `Announced` is
about the endings: each time the status becomes a final one, one trace event and
one event on the bus.
-/
import Caips.Harness.Store
import Mathlib.Tactic.Linarith

namespace Caips.Harness

open Caips.Providers

/-! ## Entries and what came before -/

section Each

variable {α : Type} {P Q : α → List α → Prop}

/-- `P` holds of each entry and the entries before it. -/
def Each (P : α → List α → Prop) : List α → Prop
  | [] => True
  | e :: l => P e l ∧ Each P l

theorem each_iff {l : List α} : Each P l ↔ ∀ l₁ e l₂, l = l₁ ++ e :: l₂ → P e l₂ := by
  induction l with
  | nil => simp [Each]
  | cons x l ih =>
    constructor
    · rintro ⟨hx, hl⟩ l₁ e l₂ heq
      cases l₁ with
      | nil =>
        obtain ⟨rfl, rfl⟩ := List.cons.inj heq
        exact hx
      | cons y l₁ => exact ih.mp hl l₁ e l₂ (List.cons.inj heq).2
    · intro h
      refine ⟨h [] x l rfl, ih.mpr fun l₁ e l₂ heq => h (x :: l₁) e l₂ ?_⟩
      rw [heq]
      rfl

theorem Each.of_append {l₁ l₂ : List α} (h : Each P (l₁ ++ l₂)) : Each P l₂ := by
  induction l₁ with
  | nil => exact h
  | cons x l₁ ih => exact ih h.2

end Each

/-! ## Model calls and readings -/

/-- The answered model calls. -/
def calls (J : List Entry) : List ModelCall := J.filterMap fun
  | .called c => some c
  | _ => none

/-- Those the run counts: planning and steps. -/
def counted (J : List Entry) : List ModelCall := (calls J).filter fun c => c.purpose ≠ .summary

/-- The completed steps. -/
def steps (J : List Entry) : ℕ := (calls J).countP fun c => c.purpose = .step

/-- A check has read the sums over these calls. -/
structure Reading.Agrees (r : Reading) (cs : List ModelCall) : Prop where
  cost : r.costUsd = (cs.map (·.costUsd)).sum
  tokens : r.tokens = (cs.map (·.inputTokens)).sum + (cs.map (·.outputTokens)).sum

/-- What the last check of the limits has read. -/
def lastReading (J : List Entry) : Option Reading := J.findSome? fun
  | .checked r => some r
  | _ => none

/-- The model call that was started last: what for, and the account that was checked. -/
def lastAsked (J : List Entry) : Option (Purpose × String) := J.findSome? fun
  | .asked purpose account _ => some (purpose, account)
  | _ => none

/-- Cost and tokens are the sums over these calls. -/
structure Sums (cs : List ModelCall) (l : Locals) : Prop where
  cost : l.costUsd = (cs.map (·.costUsd)).sum
  input : l.inputTokens = (cs.map (·.inputTokens)).sum
  output : l.outputTokens = (cs.map (·.outputTokens)).sum

/-! ## Endings -/

/-- What the journal says of an ending. -/
inductive Ending where
  | became (status : RunStatus)
  | traced
  | announced (status : RunStatus)

def Entry.ending : Entry → Option Ending
  | .became status => if status.active then none else some (.became status)
  | .trace (.runFinished _ _ _) => some .traced
  | .finished _ _ status _ _ => some (.announced status)
  | _ => none

/-- What the journal says of endings, the latest first. -/
def endings (J : List Entry) : List Ending := J.filterMap Entry.ending

/-- A complete ending. -/
def complete (status : RunStatus) : List Ending := [.announced status, .traced, .became status]

/-- All endings are complete, but for the latest, of which there is `due` so far. -/
def Announced (due : List Ending) (J : List Entry) : Prop := ∃ l : List RunStatus, endings J = due ++ l.flatMap complete

/-! ## What a run is held to -/

/-- The limits of an agent leave room. -/
structure Below (agent : AgentDef) (deadline : Option ℚ) (r : Reading) : Prop where
  cost : ∀ m ∈ agent.maxCostUsd, r.costUsd < m
  tokens : ∀ m ∈ agent.maxTotalTokens, m ≠ 0 → (r.tokens : ℤ) < m
  deadline : ∀ d ∈ deadline, d ≠ 0 → r.now < d

/-- A run, and what is known of all answers its executions get: no summary
succeeds, no other model call fails. -/
structure Terms where
  name : String
  agent : AgentDef
  owner : String
  deadline : Option ℚ
  unsummarized : Prop
  calm : Prop

/-- What an entry is held to, given those before it. -/
def Fine (T : Terms) : Entry → List Entry → Prop
  | .checked r, J => r.Agrees (counted J)
  | .saved l, J => Sums (counted J) l ∧ l.step = steps J ∧ (l.step : ℤ) ≤ max T.agent.maxSteps 0
  | .asked purpose account _, J =>
    purpose ≠ .summary → account = T.owner ∧ ∃ r, lastReading J = some r ∧ Below T.agent T.deadline r
  | .called c, J =>
    lastAsked J = some (c.purpose, c.account) ∧ (c.purpose ≠ .summary → c.account = T.owner) ∧
      (T.unsummarized → c.purpose ≠ .summary)
  | _, _ => True

/-- The journal agrees with these variables, and of the latest ending there is
`due` so far. -/
structure Booked (T : Terms) (due : List Ending) (J : List Entry) (l : Locals) : Prop where
  sums : Sums (counted J) l
  steps : l.step = steps J
  bound : (l.step : ℤ) ≤ max T.agent.maxSteps 0
  msgs : l.msgs ≠ []
  fine : Each (Fine T) J
  announced : T.calm → Announced due J

/-! ## One entry more -/

section Cons

variable {T : Terms} {J : List Entry} {l : Locals} {e : Entry} {due : List Ending}

/-- An entry that tells of no call, no reading and no ending, and is not held to
anything. -/
def Entry.plain : Entry → Bool
  | .trace (.runFinished _ _ _) => false
  | .trace _ => true
  | .became status => status.active
  | .entered _ _ _ => true
  | .handled _ _ => true
  | .requested _ => true
  | _ => false

theorem lastReading_plain (h : e.plain) : lastReading (e :: J) = lastReading J := by
  cases e <;> first | rfl | exact nomatch h

theorem lastAsked_plain (h : e.plain) : lastAsked (e :: J) = lastAsked J := by
  cases e <;> first | rfl | exact nomatch h

/-- A plain entry changes nothing. -/
theorem Booked.plain (h : Booked T due J l) (he : e.plain) : Booked T due (e :: J) l := by
  have hsame : counted (e :: J) = counted J ∧ Harness.steps (e :: J) = Harness.steps J ∧ Fine T e J ∧ e.ending = none := by
    cases e with
    | trace e => cases e <;> first | exact ⟨rfl, rfl, trivial, rfl⟩ | exact nomatch he
    | became status => exact ⟨rfl, rfl, trivial, if_pos he⟩
    | entered _ _ _ => exact ⟨rfl, rfl, trivial, rfl⟩
    | handled _ _ => exact ⟨rfl, rfl, trivial, rfl⟩
    | requested _ => exact ⟨rfl, rfl, trivial, rfl⟩
    | _ => exact nomatch he
  obtain ⟨hcounted, hsteps, hfine, hending⟩ := hsame
  refine ⟨hcounted ▸ h.sums, hsteps ▸ h.steps, h.bound, h.msgs, ⟨hfine, h.fine⟩, fun hcalm => ?_⟩
  obtain ⟨l, hl⟩ := h.announced hcalm
  refine ⟨l, ?_⟩
  simpa only [endings, List.filterMap_cons, hending] using hl

theorem Booked.checked (h : Booked T due J l) {r : Reading} (hcost : r.costUsd = l.costUsd)
    (htokens : r.tokens = l.inputTokens + l.outputTokens) : Booked T due (.checked r :: J) l := by
  have hagrees : r.Agrees (counted J) := ⟨hcost.trans h.sums.cost, by rw [htokens, h.sums.input, h.sums.output]⟩
  exact ⟨h.sums, h.steps, h.bound, h.msgs, ⟨hagrees, h.fine⟩, h.announced⟩

theorem Booked.saved (h : Booked T due J l) : Booked T due (.saved l :: J) l :=
  ⟨h.sums, h.steps, h.bound, h.msgs, ⟨⟨h.sums, h.steps, h.bound⟩, h.fine⟩, h.announced⟩

theorem Booked.asked (h : Booked T due J l) {purpose : Purpose} {account : String} {messages : List Message}
    (hchecked : purpose ≠ .summary → account = T.owner ∧ ∃ r, lastReading J = some r ∧ Below T.agent T.deadline r) :
    Booked T due (.asked purpose account messages :: J) l :=
  ⟨h.sums, h.steps, h.bound, h.msgs, ⟨hchecked, h.fine⟩, h.announced⟩

/-- What the run counts after a call. -/
def ModelCall.addTo (c : ModelCall) (l : Locals) : Locals :=
  if c.purpose = .summary then l
  else
    { l with
      step := if c.purpose = .step then l.step + 1 else l.step
      costUsd := l.costUsd + c.costUsd
      inputTokens := l.inputTokens + c.inputTokens
      outputTokens := l.outputTokens + c.outputTokens }

/-- The entry of an answered model call. -/
theorem Booked.called (h : Booked T due J l) {c : ModelCall} (hasked : lastAsked J = some (c.purpose, c.account))
    (haccount : c.purpose ≠ .summary → c.account = T.owner) (hsummary : T.unsummarized → c.purpose ≠ .summary) (hstep : c.purpose = .step → (l.step : ℤ) < T.agent.maxSteps) :
    Booked T due (.called c :: J) (c.addTo l) := by
  have hsteps : Harness.steps (.called c :: J) = Harness.steps J + if c.purpose = .step then 1 else 0 := by
    simp [Harness.steps, calls, List.countP_cons]
  obtain ⟨hcost, hinput, houtput⟩ := h.sums
  by_cases hc : c.purpose = .summary
  · have hcounted : counted (.called c :: J) = counted J := by simp [counted, calls, hc]
    have hadd : c.addTo l = l := if_pos hc
    rw [hadd]
    exact ⟨hcounted ▸ h.sums, by simp [hsteps, hc, h.steps], h.bound, h.msgs, ⟨⟨hasked, haccount, hsummary⟩, h.fine⟩, h.announced⟩
  · have hcounted : counted (.called c :: J) = c :: counted J := by simp [counted, calls, hc]
    have hadd : c.addTo l = _ := if_neg hc
    rw [hadd]
    refine ⟨⟨?_, ?_, ?_⟩, ?_, ?_, h.msgs, ⟨⟨hasked, haccount, hsummary⟩, h.fine⟩, h.announced⟩
    · simp [hcounted, hcost, add_comm]
    · simp [hcounted, hinput, add_comm]
    · simp [hcounted, houtput, add_comm]
    · rw [hsteps, ← h.steps]
      split <;> rfl
    · have hbound := h.bound
      by_cases hs : c.purpose = .step
      · have hroom := hstep hs
        simp only [hs, if_true]
        omega
      · simpa [hs] using hbound

theorem Booked.became (h : Booked T [] J l) {status : RunStatus} (hstatus : status.active = false) :
    Booked T [.became status] (.became status :: J) l := by
  refine ⟨h.sums, h.steps, h.bound, h.msgs, ⟨trivial, h.fine⟩, fun hcalm => ?_⟩
  obtain ⟨l, hl⟩ := h.announced hcalm
  refine ⟨l, ?_⟩
  simp only [endings, List.nil_append] at hl
  simp [endings, Entry.ending, hstatus, hl]

theorem Booked.restless (h : Booked T due J l) (hcalm : ¬T.calm) (others : List Ending) : Booked T others J l :=
  ⟨h.sums, h.steps, h.bound, h.msgs, h.fine, fun hyes => absurd hyes hcalm⟩

theorem Booked.traced (h : Booked T due J l) (reason : StopReason) (step : Option ℕ) (costUsd : Option ℚ) :
    Booked T (.traced :: due) (.trace (.runFinished reason step costUsd) :: J) l := by
  refine ⟨h.sums, h.steps, h.bound, h.msgs, ⟨trivial, h.fine⟩, fun hcalm => ?_⟩
  obtain ⟨l, hl⟩ := h.announced hcalm
  exact ⟨l, congrArg (Ending.traced :: ·) hl⟩

theorem Booked.complete {status : RunStatus} (h : Booked T [.traced, .became status] J l) (agent owner : String) (reason : StopReason)
    (costUsd : ℚ) : Booked T [] (.finished agent owner status reason costUsd :: J) l := by
  refine ⟨h.sums, h.steps, h.bound, h.msgs, ⟨trivial, h.fine⟩, fun hcalm => ?_⟩
  obtain ⟨l, hl⟩ := h.announced hcalm
  exact ⟨status :: l, congrArg (Ending.announced status :: ·) hl⟩

/-- Where no summary is answered, all calls are counted. -/
theorem counted_eq_calls (h : Each (Fine T) J) (hun : T.unsummarized) : counted J = calls J := by
  induction J with
  | nil => rfl
  | cons e J ih =>
    have hrest := ih h.2
    cases e with
    | called c =>
      have hc : c.purpose ≠ .summary := h.1.2.2 hun
      have hcons : counted (.called c :: J) = c :: counted J := by simp [counted, calls, hc]
      rw [hcons, hrest]
      rfl
    | _ => exact hrest

theorem Booked.messages (h : Booked T due J l) {msgs : List Message} (hmsgs : msgs ≠ []) :
    Booked T due J { l with msgs := msgs } :=
  ⟨⟨h.sums.cost, h.sums.input, h.sums.output⟩, h.steps, h.bound, hmsgs, h.fine, h.announced⟩

end Cons

end Caips.Harness
