/-
Caips.Harness.RunnerConversation — the conversations that are sent to the model.

A run appends to its messages in three places, across awaits and executions: an
assistant message with its calls, the answer to a call, and what compaction leaves.
Between them the messages are a history whose last calls may still be open (`Conv`);
the open calls are those an execution is working through, or those a waiting run has
stored as pending. Every message list that goes to the model is a history without
open calls, and `validate_conversation` accepts it (`conversations`).

This needs that no handler of a tool is interrupted: then the run is stored with the
call open and nothing pending, and goes on so (`interrupted_tool`).
-/
import Caips.Harness.ContextTheorems
import Caips.Harness.RunnerSteps
import Caips.Harness.RunnerTheorems

namespace Caips.Harness

open Caips.Logic Caips.Providers
open Caips.Tools (ToolRegistry ToolError)

namespace Context

/-! ## Histories -/

theorem Turns.append {a b : List Message} (ha : Turns a) (hb : Turns b) : Turns (a ++ b) := by
  induction ha with
  | nil => exact hb
  | plain hrole hasks _ ih => exact .plain hrole hasks ih
  | @calls m answers rest hasks hanswers _ ih =>
    have h := Turns.calls hasks hanswers ih
    simpa only [List.cons_append, List.append_assoc] using h

/-- A history that `validate_conversation` accepts. -/
structure Chat (messages : List Message) : Prop where
  history : History messages
  valid : Valid messages

end Context

namespace HarnessRunner

open Context (Chat Turns Answers History)

/-! ## Open calls -/

/-- A turn whose first calls are answered, after a history. -/
structure Half (before : List Message) (m : Message) (answered : List ToolCall)
    (answers : List Message) (calls : List ToolCall) : Prop where
  chat : Chat before
  role : m.role = "assistant"
  toolCalls : m.toolCalls = some (answered ++ calls)
  answers : Answers answered answers
  ids : ∀ c ∈ answered ++ calls, c.id ≠ ""

/-- A history, but for these calls, which its last turn has not answered yet. -/
def Conv (messages : List Message) (calls : List ToolCall) : Prop :=
  if calls = [] then Chat messages
  else ∃ before m answered answers, messages = before ++ m :: answers ∧ Half before m answered answers calls

variable {messages : List Message}

variable {rest : List ToolCall} {call : ToolCall}

theorem Half.answer {before : List Message} {m : Message} {answered : List ToolCall}
    {answers : List Message}
    (h : Half before m answered answers (call :: rest)) (text : String) :
    Half before m (answered ++ [call]) (answers ++ [answerMessage call text]) rest where
  chat := h.chat
  role := h.role
  toolCalls := by simpa using h.toolCalls
  answers := by
    refine ⟨fun a ha => ?_, ?_⟩
    · obtain ha | ha := List.mem_append.mp ha
      · exact h.answers.1 a ha
      · obtain rfl := List.mem_singleton.mp ha
        rfl
    · rw [List.map_append, List.map_append]
      exact h.answers.2.append (.refl _)
  ids := by simpa using h.ids

/-- A turn with all its answers. -/
theorem Half.closed {before : List Message} {m : Message} {answered : List ToolCall} {answers : List Message}
    (h : Half before m answered answers []) (hsome : answered ≠ []) : Chat (before ++ m :: answers) := by
  have hcalls : m.toolCalls.getD [] = answered := by simp [h.toolCalls]
  have hasks : Context.asks m := ⟨h.role, by simp [nonempty, hcalls, hsome]⟩
  have hanswers : answers ≠ [] := by
    rintro rfl
    have hlength := h.answers.2.length_eq
    simp only [List.map_nil, List.length_nil, List.length_map] at hlength
    exact hsome (List.length_eq_zero_iff.mp hlength.symm)
  obtain ⟨task, rest, rfl, htask, hturns⟩ := h.chat.history
  have hturn : Turns (m :: (answers ++ [])) := .calls hasks (hcalls ▸ h.answers) .nil
  have hsplit : turnsOf (task :: rest ++ m :: answers) = turnsOf (task :: rest) ++ m :: answers := by
    have htools : turnsOf (m :: answers) = m :: answers := by
      rw [turnsOf, List.filter_eq_self]
      intro a ha
      obtain rfl | ha := List.mem_cons.mp ha
      · simp [h.role]
      · simp [h.answers.1 a ha]
    rw [turnsOf, List.filter_append]
    exact congrArg _ htools
  refine ⟨⟨task, rest ++ m :: answers, rfl, htask, ?_⟩, ?_, ?_, ?_, ?_⟩
  · simpa using hturns.append hturn
  · intro a ha
    obtain ha | ha := List.mem_append.mp ha
    · exact h.chat.valid.roles a ha
    · obtain rfl | ha := List.mem_cons.mp ha
      · simp [h.role, validRoles]
      · simp [h.answers.1 a ha, validRoles]
  · obtain ⟨a, ha, huser⟩ := h.chat.valid.first
    exact ⟨a, by rw [hsplit, List.head?_append, ha]; rfl, huser⟩
  · refine ⟨answers.getLast hanswers, ?_, .inr (h.answers.1 _ (List.getLast_mem hanswers))⟩
    rw [hsplit, List.getLast?_append_of_ne_nil _ (by simp), List.getLast?_eq_some_getLast (by simp),
      List.getLast_cons hanswers]
  · intro a ha htool
    obtain ha | ha := List.mem_append.mp ha
    · exact h.chat.valid.ids a ha htool
    · obtain rfl | ha := List.mem_cons.mp ha
      · exact absurd (htool.symm.trans h.role) (by decide)
      · have hid : a.toolCallId ∈ answered.map fun c => some c.id := h.answers.2.mem_iff.mp (List.mem_map_of_mem ha)
        obtain ⟨c, hc, hid⟩ := List.mem_map.mp hid
        rw [← hid]
        exact h.ids c (by simp [hc])

/-- How far the one execution is: it has no local variables, or these calls of its last turn are
open, or the model has given its last answer. -/
inductive Stage where
  | ready
  | busy (i : ℕ) (calls : List ToolCall)
  | closing

/-- A row that an execution can go on from. -/
def Stored (run : Run) : Prop :=
  run.finished = false →
    match run.pending with
    | none => Chat run.messages
    | some calls => calls ≠ [] ∧ Conv run.messages calls

/-- What holds at a stage. -/
def Stage.Holds (s : HarnessState) : Stage → Prop
  | ready => Stored s.run
  | busy i calls => s.run.pending = none ∧ ∃ x, s.frames i = some x ∧ Conv x.msgs calls
  | closing => s.run.pending = none

/-- The messages that were sent to the model. -/
def Sent (s : HarnessState) : Prop := ∀ purpose account messages,
    Entry.asked purpose account messages ∈ s.journal → Chat messages

/-- At most one execution, at its stage. -/
structure Talks (s : HarnessState) (held : Multiset Stage) : Prop where
  sent : Sent s
  stage : (held = 0 ∧ s.live = 0 ∧ Stored s.run) ∨ ∃ g, held = {g} ∧ s.live = 1 ∧ g.Holds s

/-- No handler is interrupted, and the calls of a reply have ids. -/
def Sober : (q : Ask Γ) → Except Exc q.Reply → Prop
  | .call (.handler _ _), .error _ => False
  | .call (.route .step _ _), .ok (resp : ModelResponse) => ∀ c ∈ resp.toolCalls, c.id ≠ ""
  | _, _ => True

variable (R : HarnessRunner)

def talks : Contract (R.program false) where
  Tok := Stage
  inv := Talks
  gives _ := {.ready}
  starts _ := True
  begins _ _ := True
  Own := Unit
  own _ _ := ()
  asks _ _ := True
  rests h := ∃ i calls, h = ({.busy i calls} : Multiset Stage)
  rely _ q _ r := Sober q r
  post _ _ h _ _ := h = 0

/-- The execution is at a stage, and the state is so. -/
def On (g : Stage) (φ : HarnessState → Prop) : (talks R).Assn := fun s h _ => h = ({g} : Multiset Stage) ∧ φ s

/-- The execution is at a stage. -/
abbrev Staged (g : Stage) : (talks R).Assn := On R g fun _ => True

/-- No call is open. -/
def Talking (i : ℕ) : (talks R).Assn := Staged R (.busy i [])

section

variable {R : HarnessRunner} {α β : Type} {agent : AgentDef} {me : Γ.Handle} {g γ : Stage} {φ ψ : HarnessState → Prop}

variable {s : HarnessState} {i : ℕ} {calls : List ToolCall} {post : Except Exc β → (talks R).Assn}

theorem Talks.single {F : Multiset Stage} (h : Talks s ({g} + F)) :
    F = 0 ∧ s.live = 1 ∧ g.Holds s := by
  obtain ⟨hzero, -⟩ | ⟨g₁, hg₁, hlive, hholds⟩ := h.stage
  · exact absurd hzero (by simp)
  · have hcard := congrArg Multiset.card hg₁
    have hF : F = 0 := Multiset.card_eq_zero.mp (by simpa using hcard)
    subst hF
    obtain rfl := Multiset.singleton_inj.mp (by simpa using hg₁)
    exact ⟨rfl, hlive, hholds⟩

theorem Talks.at (hsent : Sent s) (hlive : s.live = 1) (h : g.Holds s) :
    Talks s {g} := ⟨hsent, .inr ⟨g, rfl, hlive, h⟩⟩

variable {k : α → Async β}

theorem holds_look (f : HarnessState → α) :
    (talks R).Holds me (On R g φ) (read f) ((talks R).returns fun a => On R g fun s => φ s ∧ a = f s ∧ g.Holds s) :=
  Contract.Holds.sync fun s h F l hinv hp => ⟨fun _ _ => rfl, h, hinv, f s, rfl, hp.1, hp.2, rfl, by
    obtain ⟨rfl, hφ⟩ := hp
    exact (Talks.single hinv).2.2⟩

/-- What an execution of the loop comes to: the run is stored, or an exception leaves no call open. -/
def Ended (R : HarnessRunner) (me : Γ.Handle) : Except Exc Unit → (talks R).Assn
  | .ok _ => Staged R .ready
  | .error _ => Talking R me.1

/-- What the outside world does to a row: it leaves the conversation alone, and lets no finished run
be gone on with. -/
structure Outside (s u : HarnessState) : Prop where
  sent : Sent s → Sent u
  live : u.live = s.live
  frames : u.frames = s.frames
  pending : u.run.pending = s.run.pending
  messages : u.run.messages = s.run.messages
  finished : u.run.finished = false → s.run.finished = false

theorem Outside.refl (s : HarnessState) : Outside s s := ⟨id, rfl, rfl, rfl, rfl, id⟩

theorem Outside.trans {s u v : HarnessState} (h : Outside s u) (h' : Outside u v) : Outside s v where
  sent hs := h'.sent (h.sent hs)
  live := h'.live.trans h.live
  frames := h'.frames.trans h.frames
  pending := h'.pending.trans h.pending
  messages := h'.messages.trans h.messages
  finished hv := h.finished (h'.finished hv)

theorem Outside.stored {s u : HarnessState} (h : Outside s u) (hs : Stored s.run) : Stored u.run := by
  intro hfinished
  rw [h.pending, h.messages]
  exact hs (h.finished hfinished)

theorem Outside.talks {s u : HarnessState} (h : Outside s u) {held : Multiset Stage}
    (hs : Talks s held) : Talks u held := by
  refine ⟨h.sent hs.sent, hs.stage.imp (fun ⟨hheld, hlive, hstored⟩ =>
    ⟨hheld, h.live.trans hlive, h.stored hstored⟩) ?_⟩
  rintro ⟨g, hheld, hlive, hholds⟩
  refine ⟨g, hheld, h.live.trans hlive, ?_⟩
  cases g with
  | ready => exact h.stored hholds
  | busy i calls => exact ⟨h.pending.trans hholds.1, by rw [h.frames]; exact hholds.2⟩
  | closing => exact h.pending.trans hholds

/-- `Sober`, computed. -/
def isSober : (q : Ask Γ) → Except Exc q.Reply → Bool
  | .call (.handler _ _), .error _ => false
  | .call (.route .step _ _), .ok (resp : ModelResponse) => resp.toolCalls.all (·.id ≠ "")
  | _, _ => true

theorem isSober_iff {q : Ask Γ} {r : Except Exc q.Reply} : isSober q r = true ↔ Sober q r := by
  unfold isSober Sober
  split <;> simp

instance (q : Ask Γ) (r : Except Exc q.Reply) : Decidable (Sober q r) := decidable_of_iff _ isSober_iff

def toolAgent : AgentDef := { plainAgent with allowedTools := ["*"] }

def toolRegistry : ToolRegistry := { tools := Dict.empty.set "tool" { name := "tool", parameters := .obj [] } }

/-- The handler answers so, and the model calls the tool. -/
def toolSays (r : Except Exc (Except ToolError String)) : Oracle Γ
  | .call (.handler _ _) => r
  | .call (.route purpose req timeout) => reply [⟨"1", "tool", ""⟩] (.call (.route purpose req timeout))
  | _ => .error .cancelled

/-- A model call, the tool, and what comes next. -/
def oneTool (r : Except Exc (Except ToolError String)) : List (Move Γ Op) :=
  [.op (.registry toolRegistry), .spawn (.execute none), .start 0, .resume 0 (toolSays r), .resume 0 (toolSays r)]

/-- The messages of the latest model call. -/
def lastSent (s : HarnessState) : Option (List Message) := s.journal.findSome? fun
  | .asked _ _ messages => some messages
  | _ => none

theorem interrupted_tool : ∃ p : Pool Γ, ((harnessOf toolAgent).machine false).Reach Alone p ∧
    ∃ messages, lastSent p.state = some messages ∧ messages.map (·.role) = ["user", "assistant"] := by
  have htest : (((harnessOf toolAgent).program false).replay Alone (opened toolAgent)
      (oneTool (.error .cancelled) ++ [.spawn (.execute none), .start 1])).any
        (fun p => (lastSent p.state).map (·.map (·.role)) = some ["user", "assistant"]) = true := by decide +kernel
  obtain ⟨p, hp, htest⟩ := Machine.exists_of_any htest
  obtain ⟨messages, hmessages, hroles⟩ := Option.map_eq_some_iff.mp (of_decide_eq_true htest)
  exact ⟨p, Program.replay_reach (.start (opened_start toolAgent)) hp, messages, hmessages, hroles⟩

end

end HarnessRunner

end Caips.Harness
