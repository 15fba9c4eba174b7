/-
Caips.Tools.McpClient — calls through one MCP client, after `tools/mcp_client.py`.

Calls run side by side and share the transport: the pipes of a child process, one
message at a time, or an HTTP client. What is awaited may go on, report that the
connection is gone, or raise anything else, a timeout and a cancellation among them.
A message that was written is on the wire until a server receives it, if it ever
does. An `httpx.ConnectError` says that the message never left; other transport
errors do not.
-/
import Caips.Logic.Machine
import Mathlib.Data.Nat.Notation

namespace Caips.Tools.McpClient

open Caips.Logic

/-- The methods tasks call through `_rpc`. -/
inductive Rpc where
  | toolsList
  | toolsCall
  deriving DecidableEq

inductive Method where
  | initializeRequest
  | initialized
  | rpc (method : Rpc)
  deriving DecidableEq

/-- A message, with the task that sends it. -/
structure Message where
  id : Option ℕ
  method : Method
  task : ℕ
  deriving DecidableEq

/-- A message on the wire, to a child process or to the HTTP server. -/
structure Packet where
  process : Option ℕ
  message : Message
  deriving DecidableEq

/-- `StdioTransport`, with its `_proc`, or `HttpTransport`. -/
inductive Transport where
  | stdio (current : Option ℕ)
  | http (isOpen : Bool)
  deriving DecidableEq

/-- Where `send` is. -/
inductive Sending where
  | called
  /-- It waits for the lock of the transport, with the process it found. -/
  | waiting (process : ℕ)
  /-- It has written, holds the lock and drains the pipe. -/
  | draining
  /-- It holds the lock and waits for the reply. -/
  | reading
  | posting
  deriving DecidableEq

/-- The first `_rpc_once` of `_rpc`, or the second. -/
inductive Attempt where
  | first
  | again
  deriving DecidableEq

/-- Where `_rpc` is; `sent` is that of the error it has caught. -/
inductive Doing where
  | request (attempt : Attempt) (id : ℕ) (sending : Sending)
  /-- It waits for `_reconnect_lock`. -/
  | dropped (sent : Bool)
  | closing (sent : Bool)
  | starting (sent : Bool)
  | initializing (sent : Bool) (id : ℕ) (sending : Sending)
  | notifying (sent : Bool) (sending : Sending)
  /-- It has returned or raised. -/
  | finished
  deriving DecidableEq

structure Task where
  method : Rpc
  doing : Doing
  deriving DecidableEq

/-- `McpClient` with its transport, its tasks and the servers: which child processes
run, and what was received. -/
structure Client where
  transport : Transport
  processes : List Bool := []
  lock : Option ℕ := none
  reconnectLock : Option ℕ := none
  nextId : ℕ := 1
  tasks : List Task := []
  wire : List Packet := []
  received : List Message := []

/-- What something awaited does: go on, report that the connection is gone (or was
never made), report that it was lost, or raise something else. -/
inductive Outcome where
  | ok
  | connection
  | lost
  | raises
  deriving DecidableEq

/-- What `send` does: it waits for the next thing, returns, or raises a
`McpConnectionError` or something else. -/
inductive Reported where
  | pending (sending : Sending)
  | replied
  | dropped (sent : Bool)
  | raised

inductive McpEvent where
  | call (method : Rpc)
  /-- A task goes on, with the outcome of what it awaits. -/
  | go (task : ℕ) (outcome : Outcome)
  /-- A server receives a packet. -/
  | receive (i : ℕ)
  | exit (process : ℕ)
  deriving DecidableEq

namespace Client

variable (x : Client)

def running (process : ℕ) : Bool := x.processes[process]? = some true

/-- A message is handed to the operating system. -/
def write (process : Option ℕ) (m : Message) : Client := { x with wire := x.wire ++ [⟨process, m⟩] }

def unlock : Client := { x with lock := none }

def put (i : ℕ) (t : Task) : Client := { x with tasks := x.tasks.set i t }

/-- `send`, from one await to the next. -/
def send (task : ℕ) (m : Message) (expectReply : Bool) : Sending → Outcome → Option (Client × Reported)
  | .called, .ok => match x.transport with
      | .stdio none => some (x, .dropped false)
      | .stdio (some process) => some (x, if x.running process then .pending (.waiting process) else .dropped false)
      | .http true => some (x.write none m, .pending .posting)
      | .http false => some (x, .raised)
  | .called, .raises => some (x, .raised)
  | .waiting process, .ok =>
    if x.lock = none then some ({ x.write (some process) m with lock := some task }, .pending .draining) else none
  | .waiting _, .connection => if x.lock = none then some (x, .dropped false) else none
  | .waiting _, .raises => some (x, .raised)
  | .draining, .ok => if expectReply then some (x, .pending .reading) else some (x.unlock, .replied)
  | .draining, .connection => some (x.unlock, .dropped false)
  | .draining, .raises => some (x.unlock, .raised)
  | .reading, .ok => some (x.unlock, .replied)
  | .reading, .connection => some (x.unlock, .dropped true)
  | .reading, .raises => some (x.unlock, .raised)
  | .posting, .ok => some (x, .replied)
  | .posting, .connection =>
    if ⟨none, m⟩ ∈ x.wire then some ({ x with wire := x.wire.erase ⟨none, m⟩ }, .dropped false) else none
  | .posting, .lost => some (x, .dropped true)
  | .posting, .raises => some (x, .raised)
  | _, _ => none

/-- `transport.close`: a child process is told to exit. -/
def close : Client := match x.transport with
  | .stdio _ => x
  | .http _ => { x with transport := .http false }

/-- `transport.start`. -/
def start : Client := match x.transport with
  | .stdio _ => { x with transport := .stdio (some x.processes.length), processes := x.processes ++ [true] }
  | .http _ => { x with transport := .http true }

def fresh : Client := { x with nextId := x.nextId + 1 }

/-- A task leaves `_reconnect`. -/
def release : Client := { x with reconnectLock := none }

/-- What `_rpc` makes of what `send` reports for its request. -/
def requested (i : ℕ) (t : Task) (attempt : Attempt) (id : ℕ) : Reported → Client
  | .pending s => x.put i { t with doing := .request attempt id s }
  | .dropped sent => match attempt with
      | .first => x.put i { t with doing := .dropped sent }
      | .again => x.put i { t with doing := .finished }
  | _ => x.put i { t with doing := .finished }

/-- What `connect` makes of what `send` reports for its first request. -/
def initialized (i : ℕ) (t : Task) (sent : Bool) (id : ℕ) : Reported → Client
  | .pending s => x.put i { t with doing := .initializing sent id s }
  | .replied => x.put i { t with doing := .notifying sent .called }
  | _ => x.release.put i { t with doing := .finished }

/-- What `_rpc` makes of what `send` reports for the notification: it tries again
only if nothing was sent, or the method only reads. -/
def notified (i : ℕ) (t : Task) (sent : Bool) : Reported → Client
  | .pending s => x.put i { t with doing := .notifying sent s }
  | .replied =>
    if !sent ∨ t.method = .toolsList then x.release.fresh.put i { t with doing := .request .again x.nextId .called }
    else x.release.put i { t with doing := .finished }
  | _ => x.release.put i { t with doing := .finished }

/-- `_rpc`, from one await to the next. -/
def rpc (i : ℕ) (t : Task) (o : Outcome) : Option Client := match t.doing, o with
  | .request attempt id s, o =>
    (x.send i ⟨some id, .rpc t.method, i⟩ true s o).map fun (y, reported) => y.requested i t attempt id reported
  | .dropped sent, .ok =>
    if x.reconnectLock = none then some ({ x with reconnectLock := some i }.put i { t with doing := .closing sent })
    else none
  | .dropped _, .raises => some (x.put i { t with doing := .finished })
  | .closing sent, .ok => some (x.close.put i { t with doing := .starting sent })
  | .closing _, .raises => some (x.release.put i { t with doing := .finished })
  | .starting sent, .ok => some (x.start.fresh.put i { t with doing := .initializing sent x.nextId .called })
  | .starting _, .raises => some (x.release.put i { t with doing := .finished })
  | .initializing sent id s, o =>
    (x.send i ⟨some id, .initializeRequest, i⟩ true s o).map fun (y, reported) => y.initialized i t sent id reported
  | .notifying sent s, o =>
    (x.send i ⟨none, .initialized, i⟩ false s o).map fun (y, reported) => y.notified i t sent reported
  | _, _ => none

def step : McpEvent → Option Client
  | .call method => some { x.fresh with tasks := x.tasks ++ [⟨method, .request .first x.nextId .called⟩] }
  | .go i o => (x.tasks[i]?).bind fun t => x.rpc i t o
  | .receive i => do
      let p ← x.wire[i]?
      if p.process.all x.running then some { x with wire := x.wire.eraseIdx i, received := x.received ++ [p.message] }
      else none
  | .exit process => some { x with processes := x.processes.set process false }

end Client

/-- The runs of a client nothing was called through yet. -/
def machine : Machine Client McpEvent :=
  .ofFun (fun x => x.lock = none ∧ x.reconnectLock = none ∧ x.tasks = [] ∧ x.wire = [] ∧ x.received = []) Client.step

/-- The request of a `call_tool` call. -/
def Message.CallOf (i : ℕ) (m : Message) : Prop := m.method = .rpc .toolsCall ∧ m.task = i

instance (i : ℕ) (m : Message) : Decidable (m.CallOf i) := inferInstanceAs (Decidable (_ ∧ _))

/-- The servers have received at most one request for each `call_tool` call. -/
def AtMostOnce (x : Client) : Prop := ∀ i, x.received.countP (fun m => decide (m.CallOf i)) ≤ 1

/-- A step is not the failure of a drain in the first attempt of a `call_tool` call. -/
def Drained (x : Client) : McpEvent → Bool
  | .go i .connection => match x.tasks[i]? with
      | some ⟨.toolsCall, .request .first _ .draining⟩ => false
      | _ => true
  | _ => true

end Caips.Tools.McpClient
