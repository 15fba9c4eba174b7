/-
Caips.Coreai.RouterContacts — a request contacts the providers of its plan only.

The plan is fixed before the first await, and from there on the request keeps
to it (`AsksPlan`), itself and through the legs it starts. So every provider it
contacts is one of the plan (`contacts_planned`), in whatever way the run goes on.
-/
import Caips.Coreai.PlannerTheorems
import Caips.Coreai.RouterScope

namespace Caips.Coreai

open Caips.Logic Caips.Providers

namespace Router

open RouterState

variable {S : Setup}

/-! ## Contacts -/

/-- The provider an await sends a request to, with the model it asks for. -/
def contacts : Ask Γ → List (String × Option String)
  | .call (.complete name _ r _) => [(name, r.model)]
  | .call (.firstChunk name _ r _) => [(name, r.model)]
  | .call (.embed name _ _ model _) => [(name, model)]
  | _ => []

/-- The contacts of a task at the await it is at. -/
def contactsOf (t : Task Γ) : List (String × Option String) :=
  match t.status with
  | .suspended q _ => contacts q
  | _ => []

/-- The providers of a plan, with their models. -/
def models (plan : List (String × CompletionRequest)) : List (String × Option String) :=
  plan.map fun c => (c.1, c.2.model)

variable {deadline : Deadline} {r : CompletionRequest} {preferred : Option String}

variable {plan : List (String × CompletionRequest)}

theorem AsksPlan.contacts {q : Ask Γ}
    (h : AsksPlan S plan deadline q) : ∀ x ∈ contacts q, x ∈ models plan := by
  intro x hx
  cases q with
  | call q =>
    cases q with
    | complete n p r w =>
      obtain rfl := List.mem_singleton.mp hx
      exact List.mem_map.mpr ⟨_, h, rfl⟩
    | firstChunk n p r w =>
      obtain rfl := List.mem_singleton.mp hx
      obtain ⟨req, u, hmem, rfl⟩ := h
      exact List.mem_map.mpr ⟨_, hmem, rfl⟩
    | embed n p x m w => exact h.elim
    | _ => exact absurd hx List.not_mem_nil
  | wait m hs => exact absurd hx List.not_mem_nil
  | join h => exact absurd hx List.not_mem_nil

theorem AsksOf.contacts {name : String} {q : Ask Γ} (h : AsksOf name r q) :
    ∀ x ∈ contacts q, x = (name, r.model) := by
  intro x hx
  cases q with
  | call q =>
    cases q with
    | complete n p r' w =>
      obtain ⟨rfl, rfl⟩ := h
      exact List.mem_singleton.mp hx
    | firstChunk n p r w => exact h.elim
    | embed n p x m w => exact h.elim
    | _ => exact absurd hx List.not_mem_nil
  | wait m hs => exact absurd hx List.not_mem_nil
  | join h => exact absurd hx List.not_mem_nil

/-- What a task can await: a leg asks its own provider. -/
def Asks : Call → Ask Γ → Prop
  | .leg name r _ _ _ => AsksOf name r
  | _ => fun _ => True

theorem tame_asks : (program S).Tame Asks (fun _ _ => True) Machine.free where
  refl _ := trivial
  trans _ _ _ _ _ := trivial
  body i c := by
    cases c with
    | leg name r d a t => exact scope_leg.mono (fun _ => id) fun _ _ _ => trivial
    | _ => exact Coro.Within.unbounded _
  reboot _ := rfl
  enter _ _ _ _ := trivial
  op _ _ _ _ _ := trivial

/-! ## Requests and their plan -/

/-- The request of a public call for a completion, and the provider it pins. -/
def Call.request : Call → Option (CompletionRequest × Option String)
  | .route r preferred _ => some (r, preferred)
  | .stream r preferred _ _ => some (r, preferred)
  | _ => none

/-- The router once it has counted a request. -/
def counted (s : RouterState) : RouterState := { s with requestCount := s.requestCount + 1 }

/-- The steps of a preparation that returned candidates. -/
theorem prepare_ok {s : RouterState}
    {d : Option ℚ} {x : CompletionRequest × Deadline × List (String × CompletionRequest)}
    (h : (prepare S r preferred d s).1 = .ok x) :
    x.1 = (counted s).resolveAlias S r ∧
      x.2.1 = Deadline.init (d <|> S.config.deadlineSeconds) s.now ∧
      (screen S x.1 preferred (counted s)).1 = .ok x.2.2 := by
  obtain ⟨_, -, h⟩ := Sync.ok_of_bind h
  obtain ⟨r', hr', h⟩ := Sync.ok_of_bind h
  obtain ⟨_, -, h⟩ := Sync.ok_of_bind h
  obtain ⟨_, -, h⟩ := Sync.ok_of_bind h
  obtain ⟨deadline, hdeadline, h⟩ := Sync.ok_of_bind h
  obtain ⟨l, hl, h⟩ := Sync.ok_of_bind h
  obtain rfl := Except.ok.inj h
  obtain rfl := Except.ok.inj hr'
  obtain rfl := Except.ok.inj hdeadline
  exact ⟨rfl, rfl, hl⟩

/-- `deadline_seconds` of a public call. -/
def Call.seconds : Call → Option ℚ
  | .route _ _ d => d
  | .stream _ _ d _ => d
  | _ => none

theorem asks_of_exec {α : Type}
    {E : Coro.Env Γ} {d c' : Async α} {l : Trail Γ} {s s' : RouterState}
    (hd : Scope (AsksPlan S plan deadline) d) (h : Coro.Exec E d s l c' s') :
    (∀ h ∈ l.started, AsksPlan S plan deadline (.join h)) ∧
      ∀ q k, c' = .await q k → AsksPlan S plan deadline q := by
  obtain ⟨hleft, -, -, hstarted⟩ := h.within (N := fun _ _ => True) (fun _ => trivial)
    (fun _ _ _ _ _ => trivial) (fun _ _ _ _ _ => trivial) (hd.mono (fun _ => id) fun _ _ _ => trivial)
  refine ⟨hstarted, ?_⟩
  rintro q k rfl
  exact hleft.1

/-- A synchronous step asks nothing: what is asked after it is asked by what
follows, if it succeeds. -/
theorem asks_bound {α β : Type} {m : ExceptT Γ.Exc (StateM Γ.State) β}
    {k : β → Async α}
    {s s' : RouterState} {E : Coro.Env Γ} {l : Trail Γ} {c' : Async α}
    (hk : ∀ x, (m s).1 = .ok x → Scope (AsksPlan S plan deadline) (k x))
    (hact : ∀ f g, c' ≠ .act f g) (h : Coro.Exec E (Coro.sync m >>= k) s l c' s') :
    (∀ h ∈ l.started, AsksPlan S plan deadline (.join h)) ∧
      ∀ q k, c' = .await q k → AsksPlan S plan deadline q := by
  cases Coro.Exec.of_sync_bind hact h with
  | inl h =>
    obtain ⟨e, -, hl, hc, -⟩ := h
    rw [hl, hc]
    exact asks_of_exec (E := E) scope_fail (.refl _ s)
  | inr h =>
    obtain ⟨x, hx, h⟩ := h
    exact asks_of_exec (hk x hx) h

/-- What a request awaits and starts keeps to the plan it is given; one that is
refused contacts nobody. -/
theorem asks_prepared {α : Type} {dl : Option ℚ}
    {k : CompletionRequest × Deadline × List (String × CompletionRequest) → Async α}
    (hk : ∀ x, Scope (AsksPlan S x.2.2 x.2.1) (k x)) (s : RouterState)
    (hdeadline : deadline = .init (dl <|> S.config.deadlineSeconds) s.now) :
    ∃ plan,
      (plan = [] ∨ (screen S ((counted s).resolveAlias S r) preferred (counted s)).1 = .ok plan) ∧
        ∀ {E : Coro.Env Γ} {l : Trail Γ} {c' : Async α} {s' : RouterState}, (∀ f g, c' ≠ .act f g) →
          Coro.Exec E (Coro.sync (prepare S r preferred dl) >>= k) s l c' s' →
          (∀ h ∈ l.started, AsksPlan S plan deadline (.join h)) ∧
            ∀ q k, c' = .await q k → AsksPlan S plan deadline q := by
  cases hx : (prepare S r preferred dl s).1 with
  | error e =>
    refine ⟨[], .inl rfl, fun hact h => asks_bound (fun x hx' => ?_) hact h⟩
    cases hx.symm.trans hx'
  | ok x =>
    obtain ⟨hr, hd, hscreen⟩ := prepare_ok hx
    refine ⟨x.2.2, .inr (hr ▸ hscreen), fun hact h => asks_bound (fun x' hx' => ?_) hact h⟩
    obtain rfl := Except.ok.inj (hx.symm.trans hx')
    rw [hdeadline, ← hd]
    exact hk x

theorem asks_request {i : Nat} {c : Call}
    (hc : c.request = some (r, preferred)) (s : RouterState)
    (hdeadline : deadline = .init (c.seconds <|> S.config.deadlineSeconds) s.now) :
    ∃ plan,
      (plan = [] ∨ (screen S ((counted s).resolveAlias S r) preferred (counted s)).1 = .ok plan) ∧
        ∀ {E : Coro.Env Γ} {l : Trail Γ} {c' : Async c.Out} {s' : RouterState}, (∀ f g, c' ≠ .act f g) →
          Coro.Exec E (body S i c) s l c' s' →
          (∀ h ∈ l.started, AsksPlan S plan deadline (.join h)) ∧
            ∀ q k, c' = .await q k → AsksPlan S plan deadline q := by
  cases c with
  | route r' preferred' dl =>
    obtain ⟨rfl, rfl⟩ := Prod.mk.inj (Option.some.inj hc)
    exact asks_prepared (fun _ => scope_routePlan) s hdeadline
  | stream r' preferred' dl k =>
    obtain ⟨rfl, rfl⟩ := Prod.mk.inj (Option.some.inj hc)
    exact asks_prepared (fun _ => scope_streamPlan) s hdeadline
  | embed x m n => cases hc
  | leg n r d a t => cases hc

/-- Every contact of a request, by itself or by a task it started, is one of the
plan it was given. -/
theorem contacts_planned {init : RouterState → Prop} {p p' p'' : Pool Γ}
    (hp : ((program S).machine init).Reach Machine.free p) {i : Nat} {c : Call}
    {l : List (Event Γ)}
    (hi : p.tasks[i]? = some ⟨c, .ready, l⟩) (hc : c.request = some (r, preferred))
    (hstep : (program S).step p (.start i) = some p')
    {z : List (Machine.Step (Pool Γ) (Move Γ Op))}
    (hrun : ((program S).machine init).Run p' z p'') :
    ∃ plan, (plan = [] ∨
        (screen S ((counted p.state).resolveAlias S r) preferred (counted p.state)).1 = .ok plan) ∧
      ∀ j, j = i ∨ (program S).StartedBy (⟨p, .start i, p'⟩ :: z) i j →
        ∀ t, p''.tasks[j]? = some t → ∀ x ∈ contactsOf t, x ∈ models plan := by
  obtain rfl : l = [] := Program.hist_of_ready (fun _ => rfl) hp _ (List.mem_of_getElem? hi) rfl
  obtain ⟨plan, hplan, hscope⟩ := asks_request (S := S) (i := i) hc p.state rfl
  obtain ⟨t₀, l, ht₀, rfl, ⟨s, ⟨-, c', hc', hexec⟩, -⟩, hlists⟩ :=
    tame_asks.traced_from (tame_asks.scoped_reach hp) hi hstep hrun fun _ _ => trivial
  obtain ⟨hstarted, hawaits⟩ := hscope (Status.left_ne_act hc') hexec
  refine ⟨plan, hplan, fun j hj t ht x hx => ?_⟩
  obtain ⟨q, k, hq, hxq⟩ : ∃ q k, t.status = .suspended q k ∧ x ∈ contacts q := by
    unfold contactsOf at hx
    split at hx
    · exact ⟨_, _, ‹_›, hx⟩
    · exact absurd hx List.not_mem_nil
  rcases hj with rfl | hj
  · obtain rfl := Option.some.inj (ht₀.symm.trans ht)
    rw [hq] at hc'
    exact (hawaits q k (Option.some.inj hc').symm).contacts x hxq
  · obtain ⟨h, hmem, rfl⟩ := hlists.listed j hj
    obtain ⟨u, hu, hchild⟩ := hlists.children h hmem
    obtain rfl := Option.some.inj (hu.symm.trans ht)
    obtain ⟨y, hy, last, probe, hleg⟩ := hstarted h hmem
    have hreach := (Machine.Reach.step hp ⟨hstep, trivial⟩ trivial).run hrun fun _ _ => trivial
    have hasks : Asks u.child q := tame_asks.asks hreach ht hq
    rw [hchild, hleg] at hasks
    rw [AsksOf.contacts hasks x hxq]
    exact List.mem_map.mpr ⟨y, hy, rfl⟩

end Router

end Caips.Coreai
