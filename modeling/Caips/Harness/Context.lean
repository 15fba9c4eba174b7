/-
Caips.Harness.Context — the prompt kept inside its window, after
`harness/context.py` and `estimate_tokens` of `utils/tokens.py`.

The first message (the task) is pinned. Compaction first shrinks old tool
outputs, then drops the oldest whole turns and puts one note in their place.
The note may be a summary by the model, which is awaited: `compact` here ends
with the turns to drop, and `Caips.Harness.Runner` goes on from there. What it
returns for a summary that is known is `Outcome.messages`.

The estimate of a text's tokens is a parameter.
-/
import Caips.Coreai.Keystore
import Caips.Providers.Base
import Mathlib.Algebra.GroupWithZero.Nat

namespace Caips.Harness

open Caips.Coreai Caips.Providers

/-- `estimate_tokens`, at four characters a token. -/
def estimateTokens (text : String) : ℕ := if text = "" then 0 else max 1 (text.length / 4)

/-- `text[:n]`. -/
def slice (n : ℕ) (text : String) : String := String.ofList (text.toList.take n)

namespace Context

/-- `OLD_TOOL_OUTPUT_CHARS`. -/
def oldToolOutputChars : ℕ := 300

/-- `SUMMARY_PREFIX`. -/
def summaryPrefix : String := "[Earlier steps, condensed] "

variable (estimate : String → ℕ)

/-- What a message counts. -/
def countMessage (m : Message) : ℕ :=
  estimate m.content + 4 + ((m.toolCalls.getD []).map fun c => estimate c.arguments + 8).sum

/-- `count`. -/
def count (messages : List Message) (system : String) : ℕ :=
  (if system = "" then 0 else estimate system) + (messages.map (countMessage estimate)).sum

/-- One message more of the turns so far. -/
def addToTurns (turns : List (List Message)) (m : Message) : List (List Message) :=
  if m.role = "tool" ∧ turns ≠ [] then turns.dropLast ++ [turns.getLastD [] ++ [m]] else turns ++ [[m]]

/-- `_turns`: tool calls stay with their results. -/
def turns (messages : List Message) : List (List Message) := messages.foldl addToTurns []

/-- `digest`. -/
def digest (dropped : List Message) : String :=
  let tools := dropped.flatMap fun m => (m.toolCalls.getD []).map (·.name)
  let parts := s!"{dropped.length} messages removed" ::
    if tools.isEmpty then [] else ["tools used: " ++ ", ".intercalate tools.eraseDups]
  summaryPrefix ++ "; ".intercalate parts ++ "."

/-- A tool output outside the recent window, shrunk. -/
def shrink (m : Message) : Message :=
  if m.role = "tool" ∧ m.content.length > oldToolOutputChars then
    { m with content := slice oldToolOutputChars m.content ++ " …[truncated]" }
  else m

/-- The message in the place of the dropped turns. -/
def noteMessage (text : String) : Message := { role := "user", content := text }

/-- The note `_over` counts with. -/
def placeholder : String := summaryPrefix ++ String.ofList (List.replicate 80 'x')

/-- `_over`: too many tokens, with a note in front of the turns. -/
def isOver (pinned : List Message) (system : String) (maxTokens : ℤ) (turns : List (List Message)) : Bool :=
  decide ((count estimate (pinned ++ noteMessage placeholder :: turns.flatten) system : ℤ) > maxTokens)

/-- The messages of the oldest turns, dropped while there are too many tokens,
and the turns that are left. -/
def dropTurns (isOver : List (List Message) → Bool) (keepRecent : ℤ) : List (List Message) → List Message × List (List Message)
  | t :: u :: rest =>
    if ((u :: rest).flatten.length : ℤ) ≥ min keepRecent 1 ∧ isOver (t :: u :: rest) then
      let (dropped, left) := dropTurns isOver keepRecent (u :: rest)
      (t ++ dropped, left)
    else ([], t :: u :: rest)
  | turns => ([], turns)

/-- What compaction comes to. -/
inductive Outcome where
  | unchanged
  /-- These messages fit. -/
  | shrunk (messages : List Message)
  /-- These messages are dropped, and a note is put between the other two parts. -/
  | condensed (pinned dropped rest : List Message)
  deriving DecidableEq

/-- `compact`, up to the note. A negative window leads to an index that is out of
range. -/
def compact (messages : List Message) (system : String) (maxTokens keepRecent : ℤ) : Except String Outcome :=
  if (count estimate messages system : ℤ) ≤ maxTokens then .ok .unchanged
  else
    let pinned := messages.take 1
    let rest := messages.drop 1
    if keepRecent < 0 then .error "list index out of range"
    else
      let cut := rest.length - keepRecent.toNat
      let rest := (rest.take cut).map shrink ++ rest.drop cut
      if (count estimate (pinned ++ rest) system : ℤ) ≤ maxTokens then .ok (.shrunk (pinned ++ rest))
      else
        let (dropped, left) := dropTurns (isOver estimate pinned system maxTokens) keepRecent (turns rest)
        if dropped.isEmpty then .ok (.shrunk (pinned ++ left.flatten.dropWhile (·.role = "tool")))
        else .ok (.condensed pinned dropped left.flatten)

/-- The note for the dropped messages: a summary, or the digest where there is no
summarizer or it fails. -/
def note (summarizer : Option (List Message → Option String)) (dropped : List Message) : String :=
  match summarizer.bind (· dropped) with
  | some text => summaryPrefix ++ Keystore.strip text
  | none => digest dropped

/-- The messages `compact` returns. -/
def Outcome.messages (history : List Message) (note : List Message → String) : Outcome → List Message
  | .unchanged => history
  | .shrunk messages => messages
  | .condensed pinned dropped rest => pinned ++ noteMessage (note dropped) :: rest

end Context

end Caips.Harness
