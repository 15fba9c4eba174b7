/-
Caips.Protocols.AgentRouter — messages between agents, after
`AgentMessageRouter` of `protocols/distributed_agent.py`.

A queue and the session that seals what goes into it are made together and
dropped together, so they are one `Mailbox`; a mailbox outlives its
registration, because a receiver may still wait at its queue. A sealed item
opens under the session it was sealed with, and under no other: each session
draws its own keys.
-/
import Caips.Logic.Dict
import Caips.Protocols.Frame
import Caips.Protocols.ReplayGuard

namespace Caips.Protocols

open Caips.Logic

inductive MessageType where
  | taskAssign
  | taskResult
  | taskCancel
  | heartbeat
  | capabilityAnnounce
  | capabilityQuery
  | stateSync
  | error
  | ack
  deriving DecidableEq, Repr

inductive DeliveryMode where
  | atMostOnce
  | atLeastOnce
  | exactlyOnce
  deriving DecidableEq, Repr

def maxRoutingHops : ℕ := 8

/-- `maxsize` of an agent's queue. -/
def queueSize : ℕ := 512

/-- `MessageEnvelope`; of the payload only the length of the whole envelope as
JSON is kept, which is what a frame has to carry. -/
structure Envelope where
  msgId : String
  msgType : MessageType := .taskAssign
  senderId : String
  recipientId : String
  correlationId : Option String := none
  deliveryMode : DeliveryMode := .atLeastOnce
  createdAt : ℚ
  ttlS : ℚ := 60
  hopCount : ℕ := 0
  length : ℕ := 0
  deriving DecidableEq

/-- `is_expired`. -/
def Envelope.isExpired (e : Envelope) (now : ℚ) : Prop := now - e.createdAt > e.ttlS

instance (e : Envelope) (now : ℚ) : Decidable (e.isExpired now) :=
  inferInstanceAs (Decidable (now - e.createdAt > e.ttlS))

/-- `make_reply`. -/
def Envelope.makeReply (e : Envelope) (msgId : String) (msgType : MessageType) (now : ℚ) (length : ℕ) : Envelope where
  msgId := msgId
  msgType := msgType
  senderId := e.recipientId
  recipientId := e.senderId
  correlationId := some e.msgId
  deliveryMode := e.deliveryMode
  createdAt := now
  length := length

/-- An item of a queue: who sealed what, and when. -/
structure Sealed where
  session : ℕ
  seq : ℕ
  sealedAt : ℚ
  envelope : Envelope
  deriving DecidableEq

/-- An agent's queue and session. -/
structure Mailbox where
  agent : String
  queue : List Sealed := []
  sendSeq : ℕ := 0
  guard : ReplayGuard ℚ := { windowS := replayWindowS }

/-- `AgentMessageRouter`: every mailbox made so far, those of the registered
agents, the acknowledgements waited for, and the messages sent exactly once. -/
structure AgentMessageRouter where
  boxes : List Mailbox := []
  agents : Dict String ℕ := .empty
  pendingAcks : List String := []
  delivered : List String := []

/-- How a send ends before it waits for an acknowledgement. -/
inductive SendOutcome where
  | dropped
  | routingLoop
  | frameError
  | queued
  /-- The queue is full: the sender waits to put the item in. -/
  | waits (item : Sealed)
  deriving DecidableEq

namespace AgentMessageRouter

/-- `register_agent`. -/
def registerAgent (r : AgentMessageRouter) (agentId : String) : AgentMessageRouter :=
  if r.agents.contains agentId then r
  else { r with boxes := r.boxes ++ [{ agent := agentId }], agents := r.agents.set agentId r.boxes.length }

/-- `deregister_agent`. -/
def deregisterAgent (r : AgentMessageRouter) (agentId : String) : AgentMessageRouter :=
  { r with agents := r.agents.pop agentId }

/-- A mailbox in its new state. -/
def setBox (r : AgentMessageRouter) (q : ℕ) (b : Mailbox) : AgentMessageRouter := { r with boxes := r.boxes.set q b }

/-- `session.send(self._serialize(envelope))`: nothing if the frame cannot be
made. -/
def sealIn (q : ℕ) (b : Mailbox) (now : ℚ) (e : Envelope) : Mailbox × Option Sealed :=
  let b := { b with sendSeq := b.sendSeq + 1 }
  if b.sendSeq < 2 ^ 32 ∧ e.length ≤ maxFrameBodyBytes then (b, some ⟨q, b.sendSeq, now, e⟩) else (b, none)

/-- `queue.put_nowait`. -/
def put (r : AgentMessageRouter) (item : Sealed) : Option AgentMessageRouter := do
  let b ← r.boxes[item.session]?
  if b.queue.length < queueSize then some (r.setBox item.session { b with queue := b.queue ++ [item] }) else none

/-- `_unicast`, up to the wait for the acknowledgement. -/
def unicast (r : AgentMessageRouter) (now : ℚ) (e : Envelope) : AgentMessageRouter × SendOutcome :=
  match r.agents.get? e.recipientId with
  | none => (r, .dropped)
  | some q => match r.boxes[q]? with
    | none => (r, .dropped)
    | some b => match sealIn q b now e with
      | (b, none) => (r.setBox q b, .frameError)
      | (b, some item) =>
        let r := r.setBox q b
        match r.put item with
        | some r => (r, .queued)
        | none => (r, .waits item)

/-- `_broadcast`: one after the other to all agents but the sender; where the
queue is full the message is dropped, and where the frame cannot be made the
rest gets nothing. -/
def broadcast (now : ℚ) (e : Envelope) : List (String × ℕ) → AgentMessageRouter → AgentMessageRouter × SendOutcome
  | [], r => (r, .queued)
  | (agentId, q) :: l, r =>
    if agentId = e.senderId then broadcast now e l r
    else match r.boxes[q]? with
      | none => broadcast now e l r
      | some b => match sealIn q b now e with
        | (b, none) => (r.setBox q b, .frameError)
        | (b, some item) =>
          let r := r.setBox q b
          broadcast now e l ((r.put item).getD r)

/-- `send`, up to the wait for the acknowledgement; the envelope has one hop
more if it is not dropped as expired. -/
def send (r : AgentMessageRouter) (now : ℚ) (e : Envelope) : AgentMessageRouter × Envelope × SendOutcome :=
  if e.isExpired now then (r, e, .dropped)
  else if e.hopCount ≥ maxRoutingHops then (r, e, .routingLoop)
  else
    let e := { e with hopCount := e.hopCount + 1 }
    if e.deliveryMode = .exactlyOnce ∧ e.msgId ∈ r.delivered then (r, e, .dropped)
    else
      let r := if e.deliveryMode = .exactlyOnce then { r with delivered := r.delivered ++ [e.msgId] } else r
      let (r, outcome) := if e.recipientId = "" then broadcast now e r.agents.entries r else r.unicast now e
      (r, e, outcome)

/-- `_await_ack` until it waits: the future of a message is pending. -/
def awaitAck (r : AgentMessageRouter) (msgId : String) : AgentMessageRouter :=
  { r with pendingAcks := r.pendingAcks.filter (· ≠ msgId) ++ [msgId] }

/-- `acknowledge`; a timeout takes the future away likewise. -/
def acknowledge (r : AgentMessageRouter) (msgId : String) : AgentMessageRouter :=
  { r with pendingAcks := r.pendingAcks.filter (· ≠ msgId) }

/-- `queue.get`: the first item of a mailbox. -/
def take (r : AgentMessageRouter) (q : ℕ) : Option (AgentMessageRouter × Sealed) := do
  let b ← r.boxes[q]?
  match b.queue with
  | [] => none
  | item :: rest => some (r.setBox q { b with queue := rest }, item)

/-- `unseal`: the session must be the agent's present one, and its guard must
let the frame in. -/
def unsealItem (r : AgentMessageRouter) (now : ℚ) (agentId : String) (item : Sealed) :
    AgentMessageRouter × Option Envelope :=
  match r.agents.get? agentId with
  | none => (r, none)
  | some q => match r.boxes[q]? with
    | none => (r, none)
    | some b =>
      if item.session ≠ q then (r, none)
      else match b.guard.check now item.seq item.sealedAt with
        | .error _ => (r, none)
        | .ok guard => (r.setBox q { b with guard := guard }, some item.envelope)

end AgentMessageRouter

end Caips.Protocols
