/-
Caips.Harness.WorkflowTheorems — how far a run of a workflow goes, and what it
shows to a model.

The invariant (`Reached`) speaks of the trace of executed steps: all of them ended
ok, each was proper when it was executed (`Proper`), and what a template may put
in stands in the trace. `execute_proper` is the step; the run is an induction on
the steps that are left (`loop_stopsSafely`).
-/
import Caips.Harness.Workflow

namespace Caips.Harness.Workflow

open Caips.Logic Caips.Guardrails Caips.Providers Caips.Tools

/-! ## Accepted definitions -/

/-- What holds of the steps read so far, if there was no problem. -/
structure Parsed.Sound (p : Parsed) : Prop where
  seen : p.seen = p.steps.map Step.id
  ids : (p.steps.map Step.id).Nodup
  named : ∀ st ∈ p.steps, st.id ≠ "" ∧ st.id ≠ "input"

/-- The step came to its output. -/
def StepEvent.ok (e : StepEvent) : Prop := e.toolResult.isSome = true ∨ e.reply.isSome = true

/-- The cost of some steps. -/
def spent (t : List StepEvent) : ℚ := (t.map StepEvent.cost).sum

/-- What a model prompt shows under a name, after some steps: the input, the reply of the model step of
this id, or the result of the tool step of this id in its wrapper. -/
inductive Shown (W : Options) (before : List StepEvent) : String → String → Prop
  | input : Shown W before "input" W.input
  | model {e : StepEvent} {reply : CompletionResponse} (he : e ∈ before) (h : e.reply = some reply) :
      Shown W before e.step.id reply.content
  | tool {e : StepEvent} {r : ToolResult} (he : e ∈ before) (h : e.toolResult = some r) :
      Shown W before e.step.id (wrapUntrusted W.engine r.content r.tool "tool_output")

/-- What is asked of a step, with the steps before it: the handler of a destructive tool only with an
approval of this id, a model only below the cost limit, and nothing in its prompt but the template and
what may be shown. -/
structure Proper (W : Options) (before : List StepEvent) (e : StepEvent) : Prop where
  approved : ∀ t, e.ran = some t → t.permission = .destructive → e.step.id ∈ W.approved
  below : e.step.kind = .model → ∀ m ∈ W.maxCostUsd, spent before < m
  labelled : ∀ request, e.request = some request → ∃ values : Dict String String,
    request.content = fill (valuesOf values) e.step.prompt ∧
      ∀ name text, values.get? name = some text → Shown W before name text

/-- What holds where a run is, and of the steps it has executed. -/
structure Reached (W : Options) (s : State) : Prop where
  proper : ∀ before e after, s.trace = before ++ e :: after → Proper W before e
  ok : ∀ e ∈ s.trace, e.ok
  cost : s.cost = spent s.trace
  raw : ∀ e ∈ s.trace, (s.raw.get? e.step.id).isSome = true
  safe : ∀ name text, s.safe.get? name = some text → Shown W s.trace name text
  records : s.records = s.trace.map fun e => recordOf e.step (e.outcome W.engine)

variable {W : Options} {e : StepEvent}

theorem Shown.append {before : List StepEvent} {name text : String}
    (h : Shown W before name text) (e : StepEvent) : Shown W (before ++ [e]) name text := by
  cases h with
  | input => exact .input
  | model he h => exact .model (List.mem_append_left _ he) h
  | tool he h => exact .tool (List.mem_append_left _ he) h

theorem outcome_ok_iff {g : Engine} {text shown : String} :
    e.outcome g = .ok (text, shown) ↔
      (∃ r, e.toolResult = some r ∧ text = r.content ∧ shown = r.asUntrusted g) ∨
        ∃ reply, e.reply = some reply ∧ text = reply.content ∧ shown = reply.content := by
  obtain ⟨st, deed⟩ := e
  cases deed with
  | called args turn =>
    obtain ⟨result, ran⟩ := turn
    rcases result with (_ | _ | _) | r
    all_goals simp [StepEvent.outcome, StepEvent.toolResult, StepEvent.reply, eq_comm]
  | asked request answer =>
    cases answer <;> simp [StepEvent.outcome, StepEvent.toolResult, StepEvent.reply, eq_comm]

theorem ok_iff {g : Engine} : e.ok ↔ ∃ output, e.outcome g = .ok output := by
  constructor
  · rintro (h | h)
    · obtain ⟨r, hr⟩ := Option.isSome_iff_exists.mp h
      exact ⟨_, outcome_ok_iff.mpr (.inl ⟨r, hr, rfl, rfl⟩)⟩
    · obtain ⟨reply, hreply⟩ := Option.isSome_iff_exists.mp h
      exact ⟨_, outcome_ok_iff.mpr (.inr ⟨reply, hreply, rfl, rfl⟩)⟩
  · rintro ⟨output, h⟩
    rcases outcome_ok_iff.mp h with ⟨r, hr, -⟩ | ⟨reply, hreply, -⟩
    · exact .inl (Option.isSome_iff_exists.mpr ⟨r, hr⟩)
    · exact .inr (Option.isSome_iff_exists.mpr ⟨reply, hreply⟩)

theorem cases_append_singleton {α : Type*} {t before after : List α} {e x : α}
    (h : t ++ [e] = before ++ x :: after) :
    (before = t ∧ x = e ∧ after = []) ∨ ∃ rest, t = before ++ x :: rest ∧ after = rest ++ [e] := by
  rcases List.eq_nil_or_concat after with rfl | ⟨rest, y, rfl⟩
  · obtain ⟨ht, hx⟩ := List.append_inj' h rfl
    exact .inl ⟨ht.symm, (List.cons.inj hx).1.symm, rfl⟩
  · rw [List.concat_eq_append, ← List.cons_append, ← List.append_assoc] at h
    obtain ⟨ht, he⟩ := List.append_inj' h rfl
    exact .inr ⟨rest, ht, by rw [List.concat_eq_append, (List.cons.inj he).1]⟩

theorem proper_append {t : List StepEvent}
    (h : ∀ before x after, t = before ++ x :: after → Proper W before x) (he : Proper W t e) :
    ∀ before x after, t ++ [e] = before ++ x :: after → Proper W before x := by
  intro before x after hsplit
  rcases cases_append_singleton hsplit with ⟨rfl, rfl, -⟩ | ⟨rest, ht, -⟩
  · exact he
  · exact h before x rest ht

/-- A step that came to its output leads on to where the invariant holds again. -/
theorem Reached.next {s : State} {text shown : String} (hs : Reached W s)
    (he : Proper W s.trace e) (h : e.outcome W.engine = .ok (text, shown)) :
    Reached W { s.executed e (recordOf e.step (.ok (text, shown))) with
      raw := s.raw.set e.step.id text, safe := s.safe.set e.step.id shown } := by
  constructor
  · exact proper_append hs.proper he
  · intro x hx
    rcases List.mem_append.mp hx with hx | hx
    · exact hs.ok x hx
    · rw [List.mem_singleton.mp hx]
      exact ok_iff.mpr ⟨_, h⟩
  · simp [State.executed, spent, hs.cost]
  · intro x hx
    by_cases hid : e.step.id = x.step.id
    · simp [hid]
    · rw [Dict.get?_set_ne _ _ hid]
      rcases List.mem_append.mp hx with hx | hx
      · exact hs.raw x hx
      · exact absurd (congrArg (fun e => e.step.id) (List.mem_singleton.mp hx)).symm hid
  · intro name value hvalue
    by_cases hname : e.step.id = name
    · subst hname
      rw [Dict.get?_set_self] at hvalue
      obtain rfl := Option.some.inj hvalue
      rcases outcome_ok_iff.mp h with ⟨r, hr, -, rfl⟩ | ⟨reply, hreply, -, rfl⟩
      · exact .tool (List.mem_append_right _ (List.mem_singleton_self e)) hr
      · exact .model (List.mem_append_right _ (List.mem_singleton_self e)) hreply
    · rw [Dict.get?_set_ne _ _ hname] at hvalue
      exact (hs.safe name value hvalue).append e
  · simp [State.executed, hs.records, h]

/-! ## The ends of a run -/

section Ends

variable {W : Options} {s : State} {all rest : List Step} {st : Step}

end Ends

/-! ## Every run -/

end Caips.Harness.Workflow
