/-
Caips.Agents.DrainTheorems — the requests in flight are counted exactly.

The count of the controller and its event are a gauge that the requests have shares in:
whatever the order of the requests, whatever interrupts and errors end them, and
whatever the shutdowns do meanwhile, the count is the number of the HTTP requests that
wait in the server behind the middleware, and the event is set exactly while there are
none (`in_flight_exact`). So the cut-off at 0 in `leave` never takes effect.
-/
import Caips.Agents.EmergencyShutdown
import Caips.Logic.CoroShares
import Mathlib.Algebra.Order.Group.Multiset

namespace Caips.Agents.Server

open Caips.Logic Caips.Coreai

/-- What a request has a share of in the server. -/
def flight (scope : Scope) : Multiset String := if scope.type = "http" then {scope.path} else 0

/-- The share of a task at an await: that of a request, unless it waits for its refusal to be sent. -/
def shareOf : Job → Ask Γ → Multiset String
  | .request _, .call (.send _) => 0
  | .request scope, _ => flight scope
  | _, _ => 0

/-- The count and the event go by the paths that are inside. -/
structure Counted (s : Server) : Prop where
  inFlight : s.drain.inFlight = s.inside.length
  idle : s.drain.idle = decide (s.drain.inFlight = 0)

def flights : Shares Γ (Multiset String) where
  gauge s := s.inside
  share := shareOf
  keeps := Counted

/-- A step that is no business of the count. -/
structure Apart (s u : Server) : Prop where
  inside : u.inside = s.inside
  inFlight : u.drain.inFlight = s.drain.inFlight
  idle : u.drain.idle = s.drain.idle

theorem Apart.refl (s : Server) : Apart s s := ⟨rfl, rfl, rfl⟩

theorem Apart.counted {s u : Server} (h : Apart s u) (hs : Counted s) : Counted u := by
  refine ⟨?_, ?_⟩
  · rw [h.inFlight, h.inside]
    exact hs.inFlight
  · rw [h.idle, h.inFlight]
    exact hs.idle

theorem Apart.moves {s u : Server} (h : Apart s u) (n : Multiset String) : flights.Moves n n s u := by
  intro rest hkeeps hgauge
  refine ⟨h.counted hkeeps, ?_⟩
  show (u.inside : Multiset String) = n + rest
  rw [h.inside]
  exact hgauge

/-! ## Code apart from the count -/

variable {φ : Ask Γ → Prop} {j : ℕ}

/-- All of the code is apart from the count. -/
abbrev Aside {α : Type} (c : Async α) : Prop := c.Within (fun _ => True) Apart

theorem apart_call (what : Teardown) : Aside (call j what) :=
  .bind (fun _ => ⟨⟨rfl, rfl, rfl⟩, trivial⟩) fun _ => .ask trivial

theorem apart_record (e : ServerEvent) : (record e).Within φ Apart := fun _ => ⟨⟨rfl, rfl, rfl⟩, trivial⟩

theorem apart_except {c h : Async Unit} (hc : c.Within φ Apart) (hh : h.Within φ Apart) :
    (except c h).Within φ Apart := by
  refine .tryCatch hc fun e => ?_
  split
  · exact hh
  · trivial

theorem apart_waitFor {α : Type} {c : Async α} (hc : c.Within φ Apart) (depth : ℕ) :
    (waitFor depth c).Within φ Apart := by
  refine .tryCatch hc fun e => ?_
  split <;> trivial

theorem apart_exceptTimeout {α : Type} {c h : Async α} (hc : c.Within φ Apart) (hh : h.Within φ Apart) :
    (exceptTimeout c h).Within φ Apart := by
  refine .tryCatch hc fun e => ?_
  split
  · exact hh
  · trivial

theorem apart_read {α β : Type} {f : Server → α} {k : α → Async β}
    (hk : ∀ a, (k a).Within φ Apart) : (read f >>= k).Within φ Apart :=
  fun _ => ⟨.refl _, hk _⟩

theorem apart_waitForInFlight : Aside (waitForInFlight j) := by
  refine .bind (apart_exceptTimeout (.bind (apart_waitFor ?_ 1) fun _ => trivial) trivial) fun _ =>
    apart_record _
  refine apart_read fun d => ?_
  split
  · trivial
  · exact .ask trivial

theorem apart_stopTasks : Aside (stopTasks j) := by
  refine apart_read fun tasks => ?_
  split
  · exact apart_except (apart_call _) trivial
  · trivial

theorem apart_closeDb (flush : Bool) : Aside (closeDb j flush) :=
  apart_except (.bind (.when fun _ => apart_call _) fun _ => .bind (apart_call _) fun _ => apart_record _)
    (apart_record _)

theorem apart_killDb : Aside (killDb j) :=
  .tryCatch (apart_closeDb false) fun _ => .bind (apart_record _) fun _ => trivial

theorem apart_runHooks (hooks : List String) : Aside (runHooks j hooks) := by
  induction hooks with
  | nil => trivial
  | cons name rest ih => exact .bind (apart_except (apart_call _) trivial) fun _ => ih

theorem apart_forcedShutdown : Aside (forcedShutdown j) :=
  .bind (apart_record _) fun _ => .start_bind fun _ =>
    ⟨trivial, .start_bind fun _ => ⟨trivial, .start_bind fun _ => ⟨trivial,
    .bind (.ask trivial) fun _ => trivial⟩⟩⟩

theorem apart_immediateShutdown : Aside (immediateShutdown j) := by
  refine apart_exceptTimeout (apart_waitFor ?_ 0) apart_forcedShutdown
  refine .bind apart_waitForInFlight fun _ => .bind apart_stopTasks fun _ => ?_
  exact .bind (apart_call _) fun _ => apart_closeDb true

theorem apart_gracefulShutdown : Aside (gracefulShutdown j) := by
  refine apart_exceptTimeout (apart_waitFor ?_ 0) apart_immediateShutdown
  refine .bind apart_waitForInFlight fun _ => .bind apart_stopTasks fun _ => ?_
  refine .bind (apart_call _) fun _ => .bind (apart_call _) fun _ => apart_read fun hooks => ?_
  exact .bind (apart_runHooks hooks) fun _ => apart_closeDb true

theorem apart_teardown (mode : ShutdownMode) : Aside (teardown j mode) := by
  cases mode with
  | graceful => exact apart_gracefulShutdown
  | immediate => exact apart_immediateShutdown
  | forced => exact apart_forcedShutdown

theorem apart_writeAuditLog (s : Server) : Apart s (s.writeAuditLog j) := by
  unfold writeAuditLog
  split
  · exact .refl s
  · split
    · exact .refl s
    · exact ⟨rfl, rfl, rfl⟩

theorem apart_trigger (mode : ShutdownMode) (reason : ShutdownReason) (triggeredBy message : String) :
    Aside (trigger j mode reason triggeredBy message) := by
  refine apart_read fun busy => ?_
  split
  · trivial
  · refine apart_read fun start => .bind (fun s => ⟨⟨rfl, ?_, ?_⟩, trivial⟩) fun _ => ?_
    · exact DrainController.beginDrain_inFlight _
    · exact DrainController.beginDrain_idle _
    refine .handle ?_ (fun _ => apart_record _) fun e => ?_
    · exact .bind (apart_teardown mode) fun _ =>
        .bind (fun s => ⟨⟨rfl, rfl, rfl⟩, trivial⟩) fun _ s => ⟨apart_writeAuditLog s, trivial⟩
    · split
      · exact apart_record _
      · trivial

/-! ## Requests -/

/-- The await is not that of a refusal. -/
def NoSend (q : Ask Γ) : Prop := ∀ m, q ≠ .call (.send m)

variable {scope : Scope}

theorem share_of_noSend {q : Ask Γ} (hq : NoSend q) :
    shareOf (.request scope) q = flight scope := by
  cases q with
  | call q =>
    cases q with
    | send m => exact absurd rfl (hq m)
    | app _ => rfl
    | idle _ => rfl
    | teardown _ _ => rfl
  | wait _ _ => rfl
  | join _ => rfl

theorem apart_app (scope : Scope) : (app scope).Within NoSend Apart := by
  refine .bind (.ask nofun) fun _ => ?_
  split
  · refine .bind (apart_read fun busy => ?_) fun _ => .ask nofun
    split
    · trivial
    · refine apart_read fun n => ?_
      exact .bind (fun s => ⟨⟨rfl, rfl, rfl⟩, trivial⟩) fun _ _ => ⟨nofun, trivial⟩
  · trivial

theorem pays_app (scope : Scope) : flights.Pays (.request scope) (fun _ m => m = flight scope)
    (flight scope) (app scope) :=
  .of_within (fun _ _ h => h.moves _) (fun _ => share_of_noSend) (apart_app scope)

theorem moves_enter (hhttp : scope.type = "http") (s : Server) : flights.Moves 0 (flight scope) s (s.enter scope.path) := by
  rintro rest ⟨hinFlight, hidle⟩ hgauge
  refine ⟨⟨congrArg (· + 1) hinFlight, rfl⟩, ?_⟩
  show ((scope.path :: s.inside : List String) : Multiset String) = flight scope + rest
  have hinside : (s.inside : Multiset String) = rest := hgauge.trans (zero_add rest)
  rw [flight, if_pos hhttp, ← hinside]
  rfl

theorem moves_leave (hhttp : scope.type = "http") (s : Server) : flights.Moves (flight scope) 0 s (s.leave scope.path) := by
  rintro rest ⟨hinFlight, hidle⟩ hgauge
  have hinside : (s.inside : Multiset String) = scope.path ::ₘ rest := by
    have hflight : flight scope = {scope.path} := if_pos hhttp
    rw [hflight] at hgauge
    exact hgauge
  have hmem : scope.path ∈ s.inside := by
    rw [← Multiset.mem_coe, hinside]
    exact Multiset.mem_cons_self _ _
  have hpos : 0 < s.drain.inFlight := by
    rw [hinFlight]
    exact List.length_pos_of_mem hmem
  refine ⟨⟨?_, DrainController.leave_idle hpos hidle⟩, ?_⟩
  · show s.drain.leave.inFlight = (s.inside.erase scope.path).length
    rw [DrainController.leave_inFlight, List.length_erase_of_mem hmem, hinFlight]
  · show ((s.inside.erase scope.path : List String) : Multiset String) = 0 + rest
    rw [← Multiset.coe_erase, hinside, Multiset.erase_cons_head, zero_add]

theorem pays_read {α β : Type} {f : Server → α} {k : α → Async β} {d : Job}
    {Q : Except Exc β → Multiset String → Prop} {n : Multiset String}
    (hk : ∀ a, flights.Pays d Q n (k a)) : flights.Pays d Q n (read f >>= k) := fun s =>
    ⟨n, Shares.moves_refl n s, hk (f s)⟩

theorem pays_serve (scope : Scope) : flights.Pays (.request scope) (fun _ m => m = 0) 0 (serve scope) := by
  unfold serve
  by_cases hhttp : scope.type = "http"
  · rw [if_neg (not_not.mpr hhttp)]
    refine pays_read fun accepting => ?_
    split
    · refine .of_within (φ := fun q : Ask Γ => ∃ m, q = .call (Query.send m))
        (fun _ _ h => Apart.moves h 0) ?_ ?_
      · rintro _ ⟨m, rfl⟩
        rfl
      · exact .bind (apart_record _) fun _ => .bind (.ask ⟨_, rfl⟩) fun _ => .ask ⟨_, rfl⟩
    · have henter : flights.Pays (.request scope) (fun r m => r = .ok () ∧ m = flight scope) 0
          (update (·.enter scope.path)) :=
        .update (flight scope) (moves_enter hhttp) ⟨rfl, rfl⟩
      refine henter.bind (fun _ m hm => ?_) (fun e _ h => nomatch h.1)
      obtain ⟨-, rfl⟩ := hm
      refine (pays_app scope).tryFinally fun r m hm => ?_
      subst hm
      exact .update 0 (moves_leave hhttp) rfl
  · rw [if_pos hhttp]
    have hzero : flight scope = 0 := if_neg hhttp
    have h := pays_app scope
    rwa [hzero] at h

/-! ## Every run -/

/-- The bodies, the outside world and its shutdowns keep the gauge exact. -/
theorem exact_flights : flights.Exact program Started fun _ _ => True where
  start s hs := by
    obtain ⟨now, fails, log, rfl⟩ := hs
    exact ⟨⟨rfl, rfl⟩, rfl⟩
  body i c := by
    have hother {c : Job} {d : Async Unit} (hshare : ∀ q, shareOf c q = 0) (hd : Aside d) :
        flights.Pays c (fun _ m => m = 0) 0 d := .of_within (fun _ _ h => h.moves 0) (fun q _ => hshare q) hd
    cases c with
    | request scope => exact pays_serve scope
    | trigger j mode reason triggeredBy message => exact hother (fun _ => rfl) (apart_trigger _ _ _ _)
    | killAgents j =>
      exact hother (fun _ => rfl) (.bind (apart_except (apart_waitFor apart_stopTasks 0) trivial) fun _ =>
        apart_except (apart_waitFor (apart_call _) 0) trivial)
    | killKernel j => exact hother (fun _ => rfl) (apart_except (apart_waitFor (apart_call _) 0) trivial)
    | closeDb j => exact hother (fun _ => rfl) apart_killDb
  enter p c s _ hs := by
    have happart : Apart p.state s := by
      cases c with
      | request scope =>
        obtain rfl := Option.some.inj hs
        exact .refl _
      | trigger j mode reason triggeredBy message =>
        obtain ⟨-, hs⟩ := Option.ite_none_right_eq_some.mp hs
        obtain rfl := Option.some.inj hs
        exact .refl _
      | killAgents j => nomatch hs
      | killKernel j => nomatch hs
      | closeDb j => nomatch hs
    exact happart.moves 0
  op p o s _ hs := by
    have happart : Apart p.state s := by
      cases o with
      | clock now =>
        obtain ⟨-, hs⟩ := Option.ite_none_right_eq_some.mp hs
        obtain rfl := Option.some.inj hs
        exact ⟨rfl, rfl, rfl⟩
      | audit fails =>
        obtain rfl := Option.some.inj hs
        exact ⟨rfl, rfl, rfl⟩
      | make x =>
        obtain ⟨-, hs⟩ := Option.ite_none_left_eq_some.mp hs
        obtain rfl := Option.some.inj hs
        exact ⟨rfl, rfl, rfl⟩
    exact happart.moves 0
  reboot _ _ hs := nomatch hs

/-- The path of a request that waits in the server behind the middleware. -/
def inServer : Task Γ → Option String
  | ⟨.request _, .suspended (.call (.send _)) _, _⟩ => none
  | ⟨.request scope, .suspended _ _, _⟩ => if scope.type = "http" then some scope.path else none
  | _ => none

theorem ofStatus_inServer (t : Task Γ) : flights.ofStatus t.status =
    ((inServer t).toList : Multiset String) := by
  obtain ⟨c, status, hist⟩ := t
  have hflight (scope : Scope) : flight scope = ((if scope.type = "http" then some scope.path else none).toList : Multiset String) := by
    unfold flight
    split_ifs <;> rfl
  cases c with
  | request scope =>
    cases status with
    | ready => rfl
    | done o => rfl
    | suspended q k =>
      cases q with
      | call q => cases q <;> first | exact hflight scope | rfl
      | wait m hs => exact hflight scope
      | join h => exact hflight scope
  | trigger j mode reason triggeredBy message => cases status <;> rfl
  | killAgents j => cases status <;> rfl
  | killKernel j => cases status <;> rfl
  | closeDb j => cases status <;> rfl

theorem ofPool_inServer (p : Pool Γ) : flights.ofPool p = (p.tasks.filterMap inServer : Multiset String) := by
  unfold Shares.ofPool
  induction p.tasks with
  | nil => rfl
  | cons t ts ih =>
    rw [List.map_cons, List.sum_cons, ih, ofStatus_inServer, Multiset.coe_add, List.filterMap_cons]
    cases inServer t <;> rfl

theorem inside_perm {p : Pool Γ} (h : machine.Reach (fun _ _ => True) p) :
    p.state.inside.Perm (p.tasks.filterMap inServer) := by
  have hexact := (exact_flights.settled h).exact
  rw [ofPool_inServer] at hexact
  exact Multiset.coe_eq_coe.mp hexact

/-- **The count of the requests in flight is exact**: it is the number of the HTTP requests that wait
in the server, and the event that a shutdown waits for is set exactly while there are none. -/
theorem in_flight_exact {p : Pool Γ} (h : machine.Reach (fun _ _ => True) p) :
    p.state.drain.inFlight = (p.tasks.filterMap inServer).length ∧
      (p.state.drain.idle = true ↔ ∀ t ∈ p.tasks, inServer t = none) := by
  have hcounted : Counted p.state := (exact_flights.settled h).keeps
  have hlength := (inside_perm h).length_eq
  refine ⟨hcounted.inFlight.trans hlength, ?_⟩
  rw [hcounted.idle, decide_eq_true_iff, hcounted.inFlight, hlength, List.length_eq_zero_iff,
    List.filterMap_eq_nil_iff]

instance (q : Query) (s : Server) (r : Except Exc Unit) : Decidable (answers q s r) := by
  unfold answers
  split <;> infer_instance

instance (q : Γ.Query) (s : Γ.State) (r : Except Γ.Exc (Γ.Reply q)) : Decidable (program.answers q s r) :=
  inferInstanceAs (Decidable (answers q s r))

def idleServer : Pool Γ := ⟨{}, []⟩

theorem idleServer_start : machine.start idleServer := ⟨⟨0, false, [], rfl⟩, rfl⟩

def fine : Oracle Γ
  | .call _ => .ok ()
  | .wait _ _ => .error .cancelled
  | .join _ => .error .cancelled

/-- A request of a path. -/
def get (path : String) : Job := .request { type := "http", path := path }

/-- Two requests come in, and one of them is interrupted. -/
def interrupted : List (Move Γ Op) :=
  [.spawn (get "/a"), .spawn (get "/b"), .start 0, .start 1, .resume 0 fun _ => .error .cancelled]

theorem in_flight_exact_interrupted : ∃ p : Pool Γ, p.state.drain.inFlight = 1 ∧
    p.state.drain.inFlight = (p.tasks.filterMap inServer).length ∧
      (p.state.drain.idle = true ↔ ∀ t ∈ p.tasks, inServer t = none) := by
  have htest : (program.replay (fun _ _ => True) idleServer interrupted).any
    (fun p => p.state.drain.inFlight = 1) = true := by decide +kernel
  obtain ⟨p, hp, htest⟩ := Machine.exists_of_any htest
  exact ⟨p, of_decide_eq_true htest, in_flight_exact (Program.replay_reach (.start idleServer_start) hp)⟩

end Caips.Agents.Server
