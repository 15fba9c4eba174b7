/-
Caips.Coreai.LocalQueue — a router with a local server among its providers.

The calls of `Caips.Coreai.Router` around one `LocalProvider` object. A call of the
server's `complete` or `stream` begins in the burst that comes to its query, and
goes up in `inflight` there, unless it knows no model. A completion ends with its answer, whatever that is; a
generator ends with the exception it raises, or when it is closed. Then the
`finally` brings `inflight` down, once for each call, and the router goes on.

The planner asks the object as it is at that moment, so the attributes the router
reads are renewed after every step. The server stays registered: other providers
may come and go.
-/
import Caips.Coreai.Router
import Caips.Providers.Local

namespace Caips.Coreai

open Caips.Logic Caips.Providers

namespace Router

/-- The router, the server, and the tasks with a call between `inflight += 1` and
`inflight -= 1`; and how often each task has passed the one and the other. -/
structure Site where
  pool : Pool Γ
  server : LocalProvider
  inside : List ℕ := []
  taken : ℕ → ℕ := fun _ => 0
  given : ℕ → ℕ := fun _ => 0

/-- What happens to a site: a step of the router, a health check of the server, or a
listing of its models. -/
inductive SiteMove where
  | router (m : Move Γ Op)
  | probe (found : Option (List String))
  | refreshModels (found : Option (List String))

/-! ## Calls on the server -/

/-- The request of the call that an await begins on the provider `name`. -/
def callOn (name : String) : Ask Γ → Option CompletionRequest
  | .call (.complete n _ r _) => if n = name then some r else none
  | .call (.firstChunk n _ r _) => if n = name then some r else none
  | _ => none

def endsCall : Event Γ → Bool
  | ⟨.call (.complete _ _ _ _), _⟩ => true
  | ⟨.call (.firstChunk _ _ _ _), r⟩ => !r.isOk
  | ⟨.call (.nextChunk _), r⟩ => !r.isOk
  | ⟨.call .closeStream, _⟩ => true
  | _ => false

def runsTask : Move Γ Op → Option ℕ
  | .start i => some i
  | .resume i _ => some i
  | _ => none

/-- The move replaces, changes or drops the provider `name`. -/
def Reregisters (name : String) : Move Γ Op → Prop
  | .op (.provider n _) => n = name
  | .op (.setProvider n _) => n = name
  | .op (.dropProvider n) => n = name
  | _ => False

instance (name : String) : (m : Move Γ Op) → Decidable (Reregisters name m)
  | .op (.provider n _) => inferInstanceAs (Decidable (n = name))
  | .op (.setProvider n _) => inferInstanceAs (Decidable (n = name))
  | .op (.dropProvider n) => inferInstanceAs (Decidable (n = name))
  | .op (.tick _) | .op (.report _ _ _ _) | .op (.policies _) | .op (.modelGate _) | .spawn _ | .start _ | .resume _ _
  | .crash _ _ _ => inferInstanceAs (Decidable False)

namespace Site

/-- The call of task `i` leaves its `try` block. -/
def leave (x : Site) (i : ℕ) : Site :=
  { x with
    server := x.server.leave
    inside := x.inside.erase i
    given := Function.update x.given i (x.given i + 1) }

/-- A call of task `i` begins. -/
def enter (x : Site) (i : ℕ) (r : CompletionRequest) : Site :=
  match x.server.enter r with
  | .ok server =>
    { x with
      server := server
      inside := i :: x.inside
      taken := Function.update x.taken i (x.taken i + 1) }
  | .error _ => x

/-- The await a task is suspended at. -/
def awaited (p : Pool Γ) (i : ℕ) : Option (Ask Γ) := do
  let t ← p.tasks[i]?
  match t.status with
  | .suspended q _ => some q
  | _ => none

/-- The task a move resumes, and the answer it is given. -/
def answer (x : Site) : Move Γ Op → Option (ℕ × Event Γ)
  | .resume i a => (awaited x.pool i).map fun q => (i, ⟨q, a q⟩)
  | _ => none

/-- The answer of a move has reached the call it is for, if there is one. -/
def handed (x : Site) (m : Move Γ Op) : Site :=
  match x.answer m with
  | some (i, e) => if i ∈ x.inside ∧ endsCall e = true then x.leave i else x
  | none => x

/-- The call on the server that a burst came to. -/
def beginning (x : Site) (m : Move Γ Op) : Option (ℕ × CompletionRequest) := do
  let i ← runsTask m
  let q ← awaited x.pool i
  let r ← callOn x.server.name q
  return (i, r)

/-- The burst of a move has come to its end. -/
def came (x : Site) (m : Move Γ Op) : Site :=
  match x.beginning m with
  | some (i, r) => x.enter i r
  | none => x

/-- The router sees the server as it is. -/
def renew (x : Site) : Site :=
  { x with
    pool := { x.pool with
      state := { x.pool.state with
        providers := x.pool.state.providers.set x.server.name x.server.provider } } }

variable (S : Setup)

/-- The site after a move. -/
def step (x : Site) : SiteMove → Option Site
  | .router m =>
    if Reregisters x.server.name m then none
    else ((program S).step x.pool m).map fun p => (came { x.handed m with pool := p } m).renew
  | .probe found => some (renew { x with server := x.server.probe found })
  | .refreshModels found => some (renew { x with server := x.server.refreshModels found })

/-- A fresh router with the server among its providers, before any call. -/
structure Opened (x : Site) : Prop where
  fresh : (system S).start x.pool
  registered : x.pool.state.providers.get? x.server.name = some x.server.provider
  inflight : x.server.inflight = 0
  inside : x.inside = []
  taken : x.taken = fun _ => 0
  given : x.given = fun _ => 0

/-- The reply a move gives is one the asking task can get. -/
def Admissible (x : Site) : SiteMove → Prop
  | .router m => (program S).Admissible x.pool m
  | _ => True

end Site

/-- Every interleaving of the calls of a router with a local server. -/
def site (S : Setup) : Machine Site SiteMove where
  start := Site.Opened S
  step x m y := x.step S m = some y ∧ x.Admissible S m

end Router

end Caips.Coreai
