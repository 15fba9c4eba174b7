/-
Caips.Protocols.Acks — a request and its reply, each waiting for the other's
acknowledgement, after `send_task` and `send_result` of
`protocols/distributed_agent.py`.

A requester sends a task, receives the result and acknowledges it; a recipient
receives the task and sends the result. Both messages are delivered at least
once, so each send returns only when its message is acknowledged: the task is
acknowledged after the result was sent, the result after the task was sent.
Whatever the order of their steps, neither send returns, and the one that waits
longest ends in a timeout (`no_timeout_iff`).
-/
import Caips.Logic.Machine
import Caips.Protocols.ExchangeMoves

namespace Caips.Protocols

open Caips.Logic AgentMessageRouter

/-- The two agents, and what they send. -/
structure Parties where
  requester : String
  recipient : String
  taskId : String
  replyId : String
  taskLength : ℕ
  resultLength : ℕ

/-- How a send fails. -/
inductive SendError where
  | ackTimeout
  | frame
  | routingLoop
  deriving DecidableEq

/-- Where the requester is: in `send_task` until `receiving`. -/
inductive Requester where
  | calling
  | putting (item : Sealed)
  | awaitsAck
  | receiving
  | opening (item : Sealed)
  | acking (reply : Envelope)
  | finished
  | failed (e : SendError)
  deriving DecidableEq

/-- Where the recipient is: in `send_result` from `working` on. -/
inductive Recipient where
  | receiving
  | opening (item : Sealed)
  | working (task : Envelope)
  | putting (task : Envelope) (item : Sealed)
  | awaitsAck (task : Envelope)
  | acking (task : Envelope)
  | finished
  | failed (e : SendError)
  deriving DecidableEq

structure Conversation where
  router : AgentMessageRouter
  now : ℚ
  requester : Requester := .calling
  recipient : Recipient := .receiving

/-- The steps of the two agents. -/
inductive AgentStep where
  | sendTask
  | putTask
  | taskAcked
  | takeReply
  | openReply
  | ackReply
  | takeTask
  | openTask
  | sendResult
  | putResult
  | resultAcked
  | ackTask
  deriving DecidableEq

inductive ConversationEvent where
  | tick (now : ℚ)
  | agent (s : AgentStep)
  | taskTimeout
  | resultTimeout

namespace Conversation

/-- The envelope of `send_task`. -/
def taskEnvelope (p : Parties) (now : ℚ) : Envelope where
  msgId := p.taskId
  senderId := p.requester
  recipientId := p.recipient
  createdAt := now
  length := p.taskLength

/-- The send waits for an acknowledgement. -/
def WaitsForAck (e : Envelope) : Prop := e.deliveryMode = .atLeastOnce ∧ e.recipientId ≠ ""

instance (e : Envelope) : Decidable (WaitsForAck e) := inferInstanceAs (Decidable (_ ∧ _))

/-- The first item of an agent's queue. -/
def takeFor (r : AgentMessageRouter) (agent : String) : Option (AgentMessageRouter × Sealed) := do
  let q ← r.agents.get? agent
  r.take q

def agentStep (p : Parties) (c : Conversation) : AgentStep → Option Conversation
  | .sendTask => match c.requester with
    | .calling => match c.router.send c.now (taskEnvelope p c.now) with
      | (r, _, .dropped) => some { c with router := r, requester := .receiving }
      | (r, _, .routingLoop) => some { c with router := r, requester := .failed .routingLoop }
      | (r, _, .frameError) => some { c with router := r, requester := .failed .frame }
      | (r, e, .queued) =>
        if WaitsForAck e then some { c with router := r.awaitAck e.msgId, requester := .awaitsAck }
        else some { c with router := r, requester := .receiving }
      | (r, _, .waits item) => some { c with router := r, requester := .putting item }
    | _ => none
  | .putTask => match c.requester with
    | .putting item => do
        let r ← c.router.put item
        if WaitsForAck item.envelope then
          some { c with router := r.awaitAck item.envelope.msgId, requester := .awaitsAck }
        else some { c with router := r, requester := .receiving }
    | _ => none
  | .taskAcked =>
    if c.requester = .awaitsAck ∧ p.taskId ∉ c.router.pendingAcks then some { c with requester := .receiving } else none
  | .takeReply => match c.requester with
    | .receiving => do
        let (r, item) ← takeFor c.router p.requester
        some { c with router := r, requester := .opening item }
    | _ => none
  | .openReply => match c.requester with
    | .opening item => match c.router.unsealItem c.now p.requester item with
      | (r, some e) => some { c with router := r, requester := .acking e }
      | (r, none) => some { c with router := r, requester := .receiving }
    | _ => none
  | .ackReply => match c.requester with
    | .acking e => some { c with router := c.router.acknowledge e.msgId, requester := .finished }
    | _ => none
  | .takeTask => match c.recipient with
    | .receiving => do
        let (r, item) ← takeFor c.router p.recipient
        some { c with router := r, recipient := .opening item }
    | _ => none
  | .openTask => match c.recipient with
    | .opening item => match c.router.unsealItem c.now p.recipient item with
      | (r, some e) => some { c with router := r, recipient := .working e }
      | (r, none) => some { c with router := r, recipient := .receiving }
    | _ => none
  | .sendResult => match c.recipient with
    | .working e => match c.router.send c.now (e.makeReply p.replyId .taskResult c.now p.resultLength) with
      | (r, _, .dropped) => some { c with router := r, recipient := .acking e }
      | (r, _, .routingLoop) => some { c with router := r, recipient := .failed .routingLoop }
      | (r, _, .frameError) => some { c with router := r, recipient := .failed .frame }
      | (r, reply, .queued) =>
        if WaitsForAck reply then some { c with router := r.awaitAck reply.msgId, recipient := .awaitsAck e }
        else some { c with router := r, recipient := .acking e }
      | (r, _, .waits item) => some { c with router := r, recipient := .putting e item }
    | _ => none
  | .putResult => match c.recipient with
    | .putting e item => do
        let r ← c.router.put item
        if WaitsForAck item.envelope then
          some { c with router := r.awaitAck item.envelope.msgId, recipient := .awaitsAck e }
        else some { c with router := r, recipient := .acking e }
    | _ => none
  | .resultAcked => match c.recipient with
    | .awaitsAck e => if p.replyId ∉ c.router.pendingAcks then some { c with recipient := .acking e } else none
    | _ => none
  | .ackTask => match c.recipient with
    | .acking e => some { c with router := c.router.acknowledge e.msgId, recipient := .finished }
    | _ => none

/-- Neither agent can take a step. -/
def Blocked (p : Parties) (c : Conversation) : Prop := ∀ s, (agentStep p c s).isNone

/-- A step of an agent or the clock, or a timeout when neither agent can take
one. -/
inductive Step (p : Parties) : Conversation → ConversationEvent → Conversation → Prop
  | tick {c : Conversation} {now : ℚ} : c.now ≤ now → Step p c (.tick now) { c with now := now }
  | agent {c c' : Conversation} {s : AgentStep} : agentStep p c s = some c' → Step p c (.agent s) c'
  | taskTimeout {c : Conversation} : c.Blocked p → c.requester = .awaitsAck →
      Step p c .taskTimeout { c with router := c.router.acknowledge p.taskId, requester := .failed .ackTimeout }
  | resultTimeout {c : Conversation} {e : Envelope} : c.Blocked p → c.recipient = .awaitsAck e →
      Step p c .resultTimeout { c with router := c.router.acknowledge p.replyId, recipient := .failed .ackTimeout }

/-- Two registered agents with nothing in their queues. -/
structure Start (p : Parties) (c : Conversation) : Prop where
  requesterNamed : p.requester ≠ ""
  recipientNamed : p.recipient ≠ ""
  ids : p.taskId ≠ p.replyId
  requester : c.requester = .calling
  recipient : c.recipient = .receiving
  requesterBox : ∃ q b, c.router.agents.get? p.requester = some q ∧ c.router.boxes[q]? = some b ∧ b.queue = []
  recipientBox : ∃ q b, c.router.agents.get? p.recipient = some q ∧ c.router.boxes[q]? = some b ∧ b.queue = []

def machine (p : Parties) : Machine Conversation ConversationEvent where
  start := Start p
  step := Step p

/-- A send has raised `AckTimeoutError`. -/
def Raised (c : Conversation) : Prop := c.requester = .failed .ackTimeout ∨ c.recipient = .failed .ackTimeout

/-- The task's frame can be made. -/
def Framable (p : Parties) (c : Conversation) : Prop :=
  ∃ q b, c.router.agents.get? p.recipient = some q ∧ c.router.boxes[q]? = some b ∧
    b.sendSeq + 1 < 2 ^ 32 ∧ p.taskLength ≤ maxFrameBodyBytes

end Conversation

end Caips.Protocols
