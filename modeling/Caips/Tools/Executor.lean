/-
Caips.Tools.Executor — the two paths on which a tool runs with an approval:
`_run_one` of `tools/executor.py` (the API executor, with the approval store's
`consume` as its `approved`) and `McpServer._call` of `tools/mcp.py`.

From the moment an approval is looked at to the line that invokes the handler
neither path awaits, so each is one function of the registry and the store;
what the handler then does is not looked at. The clock readings are arguments. A
handler may itself raise `ApprovalRequired`, after any time: `retry` is what the
executor then does.

The executor asks for the approval after all other checks but the rate limit,
the MCP endpoint before any of them. So an approval can be spent on a call
that is refused (`spent_by_execution`).
-/
import Caips.Tools.ApprovalsTheorems
import Caips.Tools.Registry

namespace Caips.Tools

open Caips.Logic

/-- How far a call got: the tool whose handler was invoked, or the error, and
the registry and the approvals it left. -/
structure Attempt where
  outcome : Except ToolError Tool
  registry : ToolRegistry
  store : ApprovalStore

namespace Attempt

/-- The handler was invoked for this call. -/
def invoked (a : Attempt) : Bool := a.outcome.toBool

end Attempt

namespace ToolCall

variable (validate : Json → Json → Option String)

/-- `_run_one` once `ApprovalRequired` was raised: spend an approval and call again. -/
def retry (c : ToolCall) (r : ToolRegistry) (s : ApprovalStore) (now later : ℚ) : Attempt :=
  let spent := s.consume c.caller c.name c.arguments now
  if spent.1 then
    let answer := r.check validate c true later
    { outcome := answer.1, registry := answer.2, store := spent.2 }
  else { outcome := .error (approvalRequired c.name), registry := r, store := spent.2 }

/-- `_run_one`, from the arguments `json.loads` gave. -/
def runOne (c : ToolCall) (r : ToolRegistry) (s : ApprovalStore) (started now later : ℚ) : Attempt :=
  let answer := r.check validate c false started
  match answer.1 with
  | .ok t => { outcome := .ok t, registry := answer.2, store := s }
  | .error e =>
    if e.code = "approval_required" then c.retry validate answer.2 s now later
    else { outcome := .error e, registry := answer.2, store := s }

/-- `McpServer._call`: spend an approval, call, and open a request when one is
needed. `id` is the new request's. -/
def mcpCall (c : ToolCall) (r : ToolRegistry) (s : ApprovalStore) (id : String)
    (now later asked created : ℚ) : Attempt :=
  let spent := s.consume c.caller c.name c.arguments now
  let answer := r.check validate c spent.1 later
  match answer.1 with
  | .ok t => { outcome := .ok t, registry := answer.2, store := spent.2 }
  | .error e =>
    { outcome := .error e
      registry := answer.2
      store :=
        if e.code = "approval_required" then
          (spent.2.request c.caller c.name c.arguments asked created id).2
        else spent.2 }

/-! ## What a call does to the approvals -/

/-- An approval moved to `USED`. -/
def Spent (s s' : ApprovalStore) : Prop :=
  ∃ k a b, s.items.get? k = some a ∧ a.status = .approved ∧ s'.items.get? k = some b ∧ b.status = .used

/-- Approvals stay as they are, but for those that reached their time to live
at one of the readings. -/
def Spared (s s' : ApprovalStore) (readings : List ℚ) : Prop :=
  ∀ k a, s.items.get? k = some a → a.status = .approved →
    (∃ now ∈ readings, s.ttl ≤ now - a.created) ∨ s'.items.get? k = some a

/-- An approval is spent only by an execution. -/
def SpentByExecution (s : ApprovalStore) (readings : List ℚ) (a : Attempt) : Prop :=
  (Spent s a.store → a.invoked = true) ∧ (a.invoked = false → Spared s a.store readings)

/-- There is an approval `consume` would spend on the call. -/
def Approved (c : ToolCall) (s : ApprovalStore) (now : ℚ) : Prop :=
  ∃ k a, s.Live k a now ∧ a.fingerprint = fingerprint c.caller c.name c.arguments

/-- The call passes every check but that of the approval. -/
def Passes (c : ToolCall) (r : ToolRegistry) (now : ℚ) : Prop :=
  ∃ t, r.precheck validate c = .ok t ∧ r.rateRoom t c.caller now

variable {readings : List ℚ}

theorem spared_sweep (s : ApprovalStore) {now : ℚ} (h : now ∈ readings) :
    Spared s (s.sweep now) readings := by
  intro k a ha _
  by_cases hexpired : s.ttl ≤ now - a.created
  · exact .inl ⟨now, h, hexpired⟩
  · exact .inr (ApprovalStore.get?_sweep.mpr ⟨ha, by simpa [Approval.expired] using hexpired⟩)

theorem not_spent_sweep (s : ApprovalStore) (now : ℚ) : ¬Spent s (s.sweep now) := by
  rintro ⟨k, a, b, ha, happroved, hb, hused⟩
  obtain rfl := Option.some.inj (ha.symm.trans (ApprovalStore.get?_sweep.mp hb).1)
  exact nomatch happroved.symm.trans hused

theorem consume_cases (c : ToolCall) (s : ApprovalStore) (now : ℚ) :
    (c.Approved s now ∧ (s.consume c.caller c.name c.arguments now).1 = true ∧
      Spent s (s.consume c.caller c.name c.arguments now).2) ∨
    (¬c.Approved s now ∧ s.consume c.caller c.name c.arguments now = (false, s.sweep now)) := by
  rcases ApprovalStore.consume_cases s c.caller c.name c.arguments now with
    ⟨k, a, hlive, hprint, hconsume⟩ | ⟨hnone, hconsume⟩
  · left
    rw [hconsume]
    exact ⟨⟨k, a, hlive, hprint⟩, rfl, k, a, _, hlive.1, hlive.2.1, Dict.get?_set_self _ _ _, rfl⟩
  · exact .inr ⟨fun ⟨k, a, hlive, hprint⟩ => hnone k a hlive hprint, hconsume⟩

variable {s : ApprovalStore}

theorem spentByExecution_of_spared {a : Attempt}
    (hspent : ¬Spent s a.store) (hspared : Spared s a.store readings) :
    SpentByExecution s readings a :=
  ⟨fun h => absurd h hspent, fun _ => hspared⟩

theorem spentByExecution_iff {a : Attempt}
    (hspent : Spent s a.store) : SpentByExecution s readings a ↔ a.invoked = true :=
  ⟨fun h => h.1 hspent, fun h => ⟨fun _ => h, fun hnot => nomatch h.symm.trans hnot⟩⟩

theorem invoked_check {r : ToolRegistry} {c : ToolCall} {now : ℚ} :
    (r.check validate c true now).1.toBool = true ↔ c.Passes validate r now := by
  unfold Passes
  simp only [← ToolRegistry.check_approved_iff]
  cases (r.check validate c true now).1 with
  | error e => simp [Except.toBool]
  | ok t => simp [Except.toBool]

theorem retry_iff (c : ToolCall) (r : ToolRegistry) (s : ApprovalStore) (now later : ℚ) :
    SpentByExecution s [now] (c.retry validate r s now later) ↔
      (c.Approved s now → c.Passes validate r later) := by
  rcases consume_cases c s now with ⟨happroved, hyes, hspent⟩ | ⟨hnone, hno⟩
  · have hretry : (c.retry validate r s now later) =
        { outcome := (r.check validate c true later).1
          registry := (r.check validate c true later).2
          store := (s.consume c.caller c.name c.arguments now).2 } := if_pos hyes
    rw [hretry, spentByExecution_iff hspent]
    exact (invoked_check validate).trans ⟨fun h _ => h, fun h => h happroved⟩
  · have hretry : (c.retry validate r s now later).store = s.sweep now := by
      unfold retry
      rw [hno]
      rfl
    refine ⟨fun _ h => absurd h hnone, fun _ => spentByExecution_of_spared ?_ ?_⟩
    · rw [hretry]
      exact not_spent_sweep s now
    · rw [hretry]
      exact spared_sweep s List.mem_cons_self

theorem spentByExecution_self {a : Attempt} (h : a.store = s) :
    SpentByExecution s readings a := by
  refine spentByExecution_of_spared ?_ ?_
  · rintro ⟨k, b, b', hb, happroved, hb', hused⟩
    rw [h] at hb'
    obtain rfl := Option.some.inj (hb.symm.trans hb')
    exact nomatch happroved.symm.trans hused
  · intro k b hb _
    rw [h]
    exact .inr hb

theorem runOne_iff (c : ToolCall) (r : ToolRegistry) (s : ApprovalStore) (started now later : ℚ) :
    SpentByExecution s [now] (c.runOne validate r s started now later) ↔
      (c.Approved s now → ∀ t, r.precheck validate c = .ok t → t.permission = .destructive →
        r.rateRoom t c.caller later) := by
  rcases ToolRegistry.check_unapproved_cases validate r c started with
    ⟨t, hpre, hdestructive, hcheck⟩ | ⟨hother, hcode⟩
  · have hrun : c.runOne validate r s started now later = c.retry validate r s now later := by
      unfold runOne
      rw [hcheck]
      exact if_pos rfl
    rw [hrun, retry_iff]
    constructor
    · intro h happroved u hu _
      obtain ⟨v, hv, hroom⟩ := h happroved
      obtain rfl := Except.ok.inj (hv.symm.trans hu)
      exact hroom
    · intro h happroved
      exact ⟨t, hpre, h happroved t hpre hdestructive⟩
  · refine ⟨fun _ _ t hpre hdestructive => absurd hdestructive (hother t hpre), fun _ => ?_⟩
    refine spentByExecution_self ?_
    unfold runOne
    dsimp only
    cases hanswer : (r.check validate c false started).1 with
    | ok t => rfl
    | error e =>
      dsimp only
      rw [if_neg (hcode e hanswer)]

theorem mcpCall_iff (c : ToolCall) (r : ToolRegistry) (s : ApprovalStore) (id : String)
    (hnew : s.items.get? id = none) (now later asked created : ℚ) :
    SpentByExecution s [now, asked] (c.mcpCall validate r s id now later asked created) ↔
      (c.Approved s now → c.Passes validate r later) := by
  rcases consume_cases c s now with ⟨happroved, hyes, hspent⟩ | ⟨hnone, hno⟩
  · have hstore : (c.mcpCall validate r s id now later asked created).store =
        (s.consume c.caller c.name c.arguments now).2 := by
      unfold mcpCall
      dsimp only
      rw [hyes]
      cases hanswer : (r.check validate c true later).1 with
      | ok t => rfl
      | error e =>
        have hcode : e.code ≠ "approval_required" := by
          unfold ToolRegistry.check at hanswer
          cases hpre : r.precheck validate c with
          | error e' =>
            rw [hpre] at hanswer
            obtain rfl := Except.error.inj hanswer
            exact ToolRegistry.precheck_code hpre
          | ok t =>
            rw [hpre] at hanswer
            dsimp only at hanswer
            rw [if_neg fun h => nomatch h.2] at hanswer
            cases hrate : r.checkRate t c.caller later with
            | mk answer r' =>
              rw [hrate] at hanswer
              cases answer with
              | error e' =>
                obtain rfl := Except.error.inj hanswer
                exact ToolRegistry.checkRate_code (congrArg Prod.fst hrate)
              | ok _ => cases hanswer
        dsimp only
        rw [if_neg hcode]
    have hinvoked : (c.mcpCall validate r s id now later asked created).invoked =
        (r.check validate c true later).1.toBool := by
      unfold mcpCall Attempt.invoked
      dsimp only
      rw [hyes]
      cases (r.check validate c true later).1 <;> rfl
    rw [spentByExecution_iff (hstore ▸ hspent), hinvoked]
    exact (invoked_check validate).trans ⟨fun h _ => h, fun h => h happroved⟩
  · refine ⟨fun _ h => absurd h hnone, fun _ => ?_⟩
    have hstore : (c.mcpCall validate r s id now later asked created).store = s.sweep now ∨
        (c.mcpCall validate r s id now later asked created).store =
          ((s.sweep now).request c.caller c.name c.arguments asked created id).2 := by
      unfold mcpCall
      dsimp only
      rw [hno]
      cases (r.check validate c false later).1 with
      | ok t => exact .inl rfl
      | error e =>
        dsimp only
        split_ifs
        · exact .inr rfl
        · exact .inl rfl
    rcases hstore with hstore | hstore
    · refine spentByExecution_of_spared ?_ ?_
      · rw [hstore]
        exact not_spent_sweep s now
      · rw [hstore]
        exact spared_sweep s List.mem_cons_self
    · have hswept : (s.sweep now).items.get? id = none := by
        cases hget : (s.sweep now).items.get? id with
        | none => rfl
        | some a => exact nomatch hnew.symm.trans (ApprovalStore.get?_sweep.mp hget).1
      obtain ⟨hkeeps, hadds⟩ := ApprovalStore.get?_request hswept c.caller c.name c.arguments
        asked created
      refine spentByExecution_of_spared ?_ ?_
      · rw [hstore]
        rintro ⟨k, a, b, ha, happroved, hb, hused⟩
        rcases hadds k b hb with hold | hpending
        · obtain rfl := Option.some.inj (ha.symm.trans (ApprovalStore.get?_sweep.mp hold).1)
          exact nomatch happroved.symm.trans hused
        · exact nomatch hpending.symm.trans hused
      · rw [hstore]
        intro k a ha happroved
        by_cases hexpired : s.ttl ≤ now - a.created
        · exact .inl ⟨now, List.mem_cons_self, hexpired⟩
        · by_cases hlate : s.ttl ≤ asked - a.created
          · exact .inl ⟨asked, List.mem_cons_of_mem _ List.mem_cons_self, hlate⟩
          · have hheld : (s.sweep now).items.get? k = some a :=
              ApprovalStore.get?_sweep.mpr ⟨ha, by simpa [Approval.expired] using hexpired⟩
            exact .inr (hkeeps k a hheld (by simp [Status.isOpen, happroved]) (not_le.mp hlate))

/-- **When an approval is spent only by an execution.** In the API executor: when a
destructive call that reaches the approval, and has one, still has room in its rate; after
a handler asked for the approval, and at the MCP endpoint: when a call that has an
approval passes every other check. -/
theorem spent_by_execution (c : ToolCall) (r : ToolRegistry) (s : ApprovalStore) (id : String)
    (hnew : s.items.get? id = none) (started now later asked created : ℚ) :
    (SpentByExecution s [now] (c.runOne validate r s started now later) ↔
      (c.Approved s now → ∀ t, r.precheck validate c = .ok t → t.permission = .destructive →
        r.rateRoom t c.caller later)) ∧
    (SpentByExecution s [now] (c.retry validate r s now later) ↔
      (c.Approved s now → c.Passes validate r later)) ∧
    (SpentByExecution s [now, asked] (c.mcpCall validate r s id now later asked created) ↔
      (c.Approved s now → c.Passes validate r later)) :=
  ⟨runOne_iff validate c r s started now later, retry_iff validate c r s now later,
    mcpCall_iff validate c r s id hnew now later asked created⟩

/-! ## The rate limit comes after the approval -/

def anything : Json → Json → Option String := fun _ _ => none

/-- One call a minute of `pay`, with these hits of `u`. -/
def paying (hits : List ℚ) : ToolRegistry where
  tools := .ofList [("pay",
    { name := "pay", parameters := .obj [], permission := .destructive, ratePerMinute := 1 })]
  hits := .ofList [(("u", "pay"), hits)]

def pay : ToolCall where
  name := "pay"
  arguments := .obj []
  allowed := ["*"]
  caller := "u"
  maxPermission := .destructive

/-- A second call within the minute spends its approval and is refused. -/
theorem spent_on_refusal : ¬SpentByExecution (ApprovalStore.allowed "u") [2]
    (pay.runOne anything (paying [1]) (ApprovalStore.allowed "u") 2 2 2) := by
  rintro ⟨hspent, -⟩
  have hrefused : (pay.runOne anything (paying [1]) (ApprovalStore.allowed "u") 2 2 2).invoked = false := by
    decide +kernel
  have happroved : ((ApprovalStore.allowed "u").items.get? "a").any (·.status == .approved) = true := by
    decide +kernel
  have hused : ((pay.runOne anything (paying [1]) (ApprovalStore.allowed "u") 2 2 2).store.items.get? "a").any
      (·.status == .used) = true := by
    decide +kernel
  obtain ⟨a, ha, hstatus⟩ := Machine.exists_of_any happroved
  obtain ⟨b, hb, hafter⟩ := Machine.exists_of_any hused
  have hinvoked := hspent ⟨"a", a, b, ha, by simpa using hstatus, hb, by simpa using hafter⟩
  exact nomatch hrefused.symm.trans hinvoked

/-- The first call of the minute goes through at the MCP endpoint. -/
theorem spent_by_execution_pay : SpentByExecution (ApprovalStore.allowed "u") [2, 2]
    (pay.mcpCall anything (paying []) (ApprovalStore.allowed "u") "b" 2 2 2 2) := by
  have hpasses : ((paying []).check anything pay true 2).1.toBool = true := by decide +kernel
  have hnew : (ApprovalStore.allowed "u").items.contains "b" = false := by decide +kernel
  have hnone : (ApprovalStore.allowed "u").items.get? "b" = none := by
    simpa [Dict.contains] using hnew
  exact (spent_by_execution anything pay (paying []) _ "b" hnone 2 2 2 2 2).2.2.mpr fun _ =>
    (invoked_check anything).mp hpasses

end ToolCall

end Caips.Tools
