/-
Caips.Protocols.Exchange — agents that come and go, and messages between them.

The steps of `Exchange` are what can happen to a router: agents are registered
and deregistered, messages are sent, again and again, and received. A `send`
whose recipient's queue is full waits to put its item in; a `receive` takes an
item out of the queue it found when it was called, and opens it later.
-/
import Caips.Logic.Machine
import Caips.Protocols.AgentRouter

namespace Caips.Protocols

open Caips.Logic

/-- A router with its senders and receivers. -/
structure Exchange where
  router : AgentMessageRouter := {}
  now : ℚ := 0
  /-- The messages there are, by identifier. -/
  envelopes : Dict String Envelope := .empty
  /-- The items whose senders wait at a full queue. -/
  blocked : List Sealed := []
  /-- The items taken out of a queue and not yet opened, by receiver. -/
  hands : List (String × Sealed) := []
  /-- What `receive` has returned, by receiver. -/
  returned : List (String × Envelope) := []

inductive ExchangeEvent where
  | tick (now : ℚ)
  | create (e : Envelope)
  | register (agent : String)
  | deregister (agent : String)
  | send (msgId : String)
  /-- A sender that waited puts its item in. -/
  | resume (i : ℕ)
  /-- A receiver takes the first item of a mailbox that is or was its own. -/
  | take (q : ℕ)
  /-- A receiver opens an item it took. -/
  | unsealItem (i : ℕ)

namespace Exchange

def step (x : Exchange) : ExchangeEvent → Option Exchange
  | .tick now => if now < x.now then none else some { x with now := now }
  | .create e => if x.envelopes.contains e.msgId then none
      else some { x with envelopes := x.envelopes.set e.msgId e }
  | .register agent => some { x with router := x.router.registerAgent agent }
  | .deregister agent => some { x with router := x.router.deregisterAgent agent }
  | .send msgId => do
      let e ← x.envelopes.get? msgId
      let (router, e, outcome) := x.router.send x.now e
      let x := { x with router := router, envelopes := x.envelopes.set msgId e }
      match outcome with
      | .waits item => some { x with blocked := x.blocked ++ [item] }
      | _ => some x
  | .resume i => do
      let item ← x.blocked[i]?
      let router ← x.router.put item
      some { x with router := router, blocked := x.blocked.eraseIdx i }
  | .take q => do
      let b ← x.router.boxes[q]?
      let (router, item) ← x.router.take q
      some { x with router := router, hands := x.hands ++ [(b.agent, item)] }
  | .unsealItem i => do
      let (agent, item) ← x.hands[i]?
      let (router, opened) := x.router.unsealItem x.now agent item
      let x := { x with router := router, hands := x.hands.eraseIdx i }
      match opened with
      | some e => some { x with returned := x.returned ++ [(agent, e)] }
      | none => some x

def machine : Machine Exchange ExchangeEvent := .ofFun (fun x => ∃ now, x = { now := now }) step

/-- Every item that was sealed and not yet opened. -/
def flying (x : Exchange) : List Sealed :=
  x.router.boxes.flatMap (·.queue) ++ x.blocked ++ x.hands.map Prod.snd

/-- How many items with a message fly under the present session of an agent. -/
def alive (x : Exchange) (agent msgId : String) : ℕ :=
  match x.router.agents.get? agent with
  | none => 0
  | some q => x.flying.countP fun item => item.session = q && item.envelope.msgId = msgId

/-- How often `receive` has returned a message to an agent. -/
def received (x : Exchange) (agent msgId : String) : ℕ :=
  x.returned.countP fun r => r.1 = agent && r.2.msgId = msgId

/-- The send is one: the message is there, not expired, and has hops left. -/
def Sends (x : Exchange) (msgId : String) (e : Envelope) : Prop :=
  x.envelopes.get? msgId = some e ∧ ¬e.isExpired x.now ∧ e.hopCount < maxRoutingHops

/-- The frame of a message cannot be made for a mailbox. -/
def Unsealable (x : Exchange) (q : ℕ) (e : Envelope) : Prop :=
  ∃ b, x.router.boxes[q]? = some b ∧ (AgentMessageRouter.sealIn q b x.now e).2 = none

/-- The step loses a message to an agent: it is sent for the first time and has
no recipient or no frame, its recipient leaves while it is on its way, or its
frame is opened outside the replay window. -/
def Loses (x : Exchange) (agent msgId : String) : ExchangeEvent → Prop
  | .send id => id = msgId ∧ msgId ∉ x.router.delivered ∧ ∃ e, x.Sends msgId e ∧
      ∀ q, x.router.agents.get? agent = some q → x.Unsealable q e
  | .deregister a => a = agent ∧ 0 < x.alive agent msgId
  | .unsealItem i => ∃ item, x.hands[i]? = some (agent, item) ∧ item.envelope.msgId = msgId ∧
      x.router.agents.get? agent = some item.session ∧ |x.now - item.sealedAt| > replayWindowS
  | _ => False

/-- Nothing is on its way to an agent any more. -/
def Drained (x : Exchange) (agent : String) : Prop :=
  ∀ q, x.router.agents.get? agent = some q → ∀ item ∈ x.flying, item.session ≠ q

end Exchange

end Caips.Protocols
