/-
Caips.Coreai.PlannerTheorems — what planning a request does to the router and
what it yields.

* `Peeks`: planning changes a breaker only by reading it, and otherwise only
  the round-robin positions and the request counter. Every planning function
  keeps this relation, whatever its outcome.
* `ensures_screen`: with tables that agree on the registered names, planning
  raises no `KeyError`, every candidate it yields is registered, and the
  candidates of a private request are local servers.
-/
import Caips.Coreai.Planner
import Caips.Coreai.CircuitBreakerTheorems

namespace Caips.Coreai

open Caips.Logic Caips.Providers

namespace RouterState

/-! ## What planning does to the router -/

/-- The router without what planning may change. -/
def unplanned (s : RouterState) : RouterState :=
  { s with
    breakerAt := fun _ => newBreaker {} "", policyRr := Dict.empty, rrIndex := 0
    requestCount := 0 }

/-- `s'` is `s` after some readings of breakers, with other round-robin
positions and another request count. -/
structure Peeks (s s' : RouterState) : Prop where
  frame : s'.unplanned = s.unplanned
  breaker : ∀ b, s'.breakerAt b = s.breakerAt b ∨ s'.breakerAt b = (s.breakerAt b).refresh s.now

namespace Peeks

variable {s s' : RouterState}

theorem now_eq (h : Peeks s s') : s'.now = s.now := congrArg (·.now) h.frame

theorem providers_eq (h : Peeks s s') : s'.providers = s.providers := congrArg (·.providers) h.frame

theorem limiters_eq (h : Peeks s s') : s'.limiters = s.limiters := congrArg (·.limiters) h.frame

theorem breakers_eq (h : Peeks s s') : s'.breakers = s.breakers := congrArg (·.breakers) h.frame

theorem health_eq (h : Peeks s s') : s'.health = s.health := congrArg (·.health) h.frame

theorem providerStats_eq (h : Peeks s s') : s'.providerStats = s.providerStats :=
  congrArg (·.providerStats) h.frame

instance : Std.Refl Peeks := ⟨fun _ => ⟨rfl, fun _ => .inl rfl⟩⟩

instance : IsTrans RouterState Peeks where
  trans := by
    intro s t u hst htu
    refine ⟨htu.frame.trans hst.frame, fun b => ?_⟩
    rcases hst.breaker b with h₁ | h₁ <;> rcases htu.breaker b with h₂ | h₂
    · exact .inl (h₂.trans h₁)
    · exact .inr (by rw [h₂, h₁, hst.now_eq])
    · exact .inr (h₂.trans h₁)
    · exact .inr (by rw [h₂, h₁, hst.now_eq, CircuitBreaker.refresh_refresh])

end Peeks

theorem peeks_wouldAllow (s : RouterState) (b : Nat) : Peeks s (s.wouldAllow b).2 := by
  refine ⟨rfl, fun c => ?_⟩
  by_cases hc : c = b
  · subst hc
    exact .inr (by simp [wouldAllow])
  · exact .inl (by simp [wouldAllow, hc])

variable (S : Setup)

theorem keeps_healthyAmong : ∀ names, Sync.Keeps Peeks (healthyAmong names)
  | [] => .pure _
  | _ :: rest =>
    .bind (.reads _) fun b => .bind (.yields fun s => s.peeks_wouldAllow b) fun _ =>
      .bind (keeps_healthyAmong rest) fun _ => .pure _

theorem keeps_advanceRoundRobin (names : List String) (first : String) :
    Sync.Keeps Peeks (advanceRoundRobin names first) :=
  .yields fun _ => ⟨rfl, fun _ => .inl rfl⟩

theorem keeps_selectFastest (available : List String) (first : String) :
    Sync.Keeps Peeks (selectFastest available first) := by
  refine .bind (.reads _) fun rows => ?_
  dsimp only
  split
  · exact .pure _
  · exact keeps_advanceRoundRobin _ _

theorem keeps_selectProvider (r : CompletionRequest) (available : List String) :
    Sync.Keeps Peeks (selectProvider S r available) := by
  unfold selectProvider
  split
  · exact .throw _
  · split
    · exact .bind (.reads _) fun _ => .pure _
    · exact keeps_selectFastest _ _
    · exact .bind (.reads _) fun _ => .pure _
    · exact keeps_advanceRoundRobin _ _
    · exact .pure _

theorem keeps_eligibleFor (policy : Policy) :
    ∀ names, Sync.Keeps Peeks (eligibleFor policy names)
  | [] => .pure _
  | n :: rest => by
      unfold eligibleFor
      split
      · exact keeps_eligibleFor policy rest
      · exact .bind (.reads _) fun b => .bind (.yields fun s => s.peeks_wouldAllow b) fun _ =>
          .bind (keeps_eligibleFor policy rest) fun _ => .pure _

theorem keeps_noneEligible (policy : Policy) (blocked : List String) :
    Sync.Keeps Peeks (noneEligible policy blocked) := by
  unfold noneEligible
  split
  · exact .throw _
  · exact .reads _

theorem keeps_advancePolicy (policy : Policy) : Sync.Keeps Peeks (advancePolicy policy) := by
  unfold advancePolicy
  split
  · exact .update fun _ => ⟨rfl, fun _ => .inl rfl⟩
  · exact .pure _

theorem keeps_planWithPolicy (r : CompletionRequest) (policy : Policy) :
    Sync.Keeps Peeks (planWithPolicy S r policy) := by
  refine .bind (.reads _) fun names => .bind (keeps_eligibleFor policy names) ?_
  rintro ⟨eligible, blocked⟩
  dsimp only
  split
  · exact keeps_noneEligible policy blocked
  · exact .bind (.reads _) fun _ => .bind (keeps_advancePolicy policy) fun _ =>
      .bind (.reads _) fun _ => .pure _

theorem keeps_planOwned (r : CompletionRequest) (policy : Option Policy) (owner : String) :
    Sync.Keeps Peeks (planOwned r policy owner) := by
  refine .bind (.reads _) fun _ => .bind (.reads _) fun b =>
    .bind (.yields fun s => s.peeks_wouldAllow b) fun ok => ?_
  split
  · exact .pure _
  · exact .reads _

theorem keeps_planHealthy (r : CompletionRequest) : Sync.Keeps Peeks (planHealthy S r) := by
  refine .bind (.reads _) fun names => .bind (keeps_healthyAmong names) fun healthy => ?_
  split
  · exact .reads _
  · refine .bind (keeps_selectProvider S r healthy) fun primary => ?_
    split
    · exact .pure _
    · exact .bind (.reads _) fun _ => .pure _

theorem keeps_planAny (r : CompletionRequest) (preferred : Option String) :
    Sync.Keeps Peeks (planAny S r preferred) := by
  unfold planAny
  split
  · exact .reads _
  · refine .bind (.reads _) fun policy => .bind (.reads _) fun owner => ?_
    split
    · exact keeps_planOwned r _ _
    · exact .bind (keeps_planWithPolicy S r _) fun _ => .reads _
    · exact keeps_planHealthy S r

theorem keeps_screen (r : CompletionRequest) (preferred : Option String) :
    Sync.Keeps Peeks (screen S r preferred) :=
  .bind (.bind (keeps_planAny S r preferred) fun _ => .reads _) fun _ => .reads _

/-! ## What planning yields -/

/-- The tables agree on the registered names. -/
structure Consistent (s : RouterState) : Prop where
  breakers : ∀ n, n ∈ s.breakers.keys ↔ n ∈ s.providers.keys
  limiters : ∀ n, n ∈ s.limiters.keys ↔ n ∈ s.providers.keys
  health : ∀ n, n ∈ s.health.keys ↔ n ∈ s.providers.keys
  providerStats : ∀ n, n ∈ s.providerStats.keys ↔ n ∈ s.providers.keys

/-- A result with `Q`, or an exception that is no `KeyError`. -/
def Yields {α : Type} (Q : α → Prop) : Except Exc α → Prop
  | .ok a => Q a
  | .error e => e.isKeyError = false

/-- Over the providers `R`, the computation yields `Q`. -/
def Plans {α : Type} (R : Dict String Provider) (m : Routing α) (Q : α → Prop) : Prop :=
  ∀ s, Consistent s → s.providers = R → Yields Q (m s).1

theorem Consistent.of_peeks {s s' : RouterState} (h : Consistent s) (hp : Peeks s s') :
    Consistent s' where
  breakers := by rw [hp.providers_eq, hp.breakers_eq]; exact h.breakers
  limiters := by rw [hp.providers_eq, hp.limiters_eq]; exact h.limiters
  health := by rw [hp.providers_eq, hp.health_eq]; exact h.health
  providerStats := by rw [hp.providers_eq, hp.providerStats_eq]; exact h.providerStats

theorem not_contains {α : Type} {d : Dict String α} {name : String} (h : ¬ d.contains name = true) :
    name ∉ d.keys := by
  intro hmem
  obtain ⟨v, hv⟩ := Dict.mem_keys.mp hmem
  rw [Dict.contains, hv] at h
  exact h rfl

theorem Consistent.setProvider {s : RouterState} (h : Consistent s) (S : Setup) (name : String) (p : Provider) :
    Consistent (s.setProvider S name p) := by
  unfold RouterState.setProvider
  dsimp only
  split
  · rename_i hc
    obtain ⟨v, hv⟩ := Option.isSome_iff_exists.mp hc
    have hkeys := Dict.keys_set_of_mem p (Dict.mem_keys.mpr ⟨v, hv⟩)
    obtain ⟨hb, hl, hh, hp⟩ := h
    rw [← hkeys] at hb hl hh hp
    exact ⟨hb, hl, hh, hp⟩
  · refine ⟨fun n => ?_, fun n => ?_, fun n => ?_, fun n => ?_⟩
    · exact Dict.mem_keys_set.trans ((or_congr Iff.rfl (h.breakers n)).trans Dict.mem_keys_set.symm)
    · exact Dict.mem_keys_set.trans ((or_congr Iff.rfl (h.limiters n)).trans Dict.mem_keys_set.symm)
    · exact Dict.mem_keys_set.trans ((or_congr Iff.rfl (h.health n)).trans Dict.mem_keys_set.symm)
    · exact Dict.mem_keys_set.trans
        ((or_congr Iff.rfl (h.providerStats n)).trans Dict.mem_keys_set.symm)

theorem Consistent.dropProvider {s : RouterState} (h : Consistent s) (name : String) :
    Consistent (s.dropProvider name) := by
  refine ⟨fun n => ?_, fun n => ?_, fun n => ?_, fun n => ?_⟩
  · exact Dict.mem_keys_pop.trans ((and_congr Iff.rfl (h.breakers n)).trans Dict.mem_keys_pop.symm)
  · exact Dict.mem_keys_pop.trans ((and_congr Iff.rfl (h.limiters n)).trans Dict.mem_keys_pop.symm)
  · exact Dict.mem_keys_pop.trans ((and_congr Iff.rfl (h.health n)).trans Dict.mem_keys_pop.symm)
  · exact Dict.mem_keys_pop.trans
      ((and_congr Iff.rfl (h.providerStats n)).trans Dict.mem_keys_pop.symm)

section Yields

variable {α β : Type} {Q : α → Prop}

theorem Yields.bind {Q' : β → Prop} {x : Except Exc α} {f : α → Except Exc β} (hx : Yields Q x)
    (hf : ∀ a, Q a → Yields Q' (f a)) : Yields Q' (x >>= f) := by
  cases x with
  | ok a => exact hf a hx
  | error e => exact hx

theorem Yields.mapM {Q : α → β → Prop} {f : α → Except Exc β} :
    ∀ {l : List α}, (∀ a ∈ l, Yields (Q a) (f a)) → Yields (List.Forall₂ Q l) (l.mapM f)
  | [], _ => by
      rw [List.mapM_nil]
      exact List.Forall₂.nil
  | a :: l, h => by
      rw [List.mapM_cons]
      refine (h a List.mem_cons_self).bind fun b hb => ?_
      refine (Yields.mapM fun x hx => h x (List.mem_cons_of_mem _ hx)).bind fun bs hbs => ?_
      exact List.Forall₂.cons hb hbs

theorem yields_lookup {ν : Type} {table : Dict String ν} {name : String} (h : name ∈ table.keys) :
    Yields (fun v => table.get? name = some v) (lookup table name) := by
  obtain ⟨v, hv⟩ := Dict.mem_keys.mp h
  rw [lookup_of_get? hv]
  exact hv

theorem map_of_forall₂ {f : β → α} {l : List α} {rows : List β}
    (h : List.Forall₂ (fun a b => f b = a) l rows) : rows.map f = l := by
  induction h with
  | nil => rfl
  | cons hx _ ih => rw [List.map_cons, hx, ih]

theorem Yields.rows {f : β → α} {g : α → Except Exc β} {l : List α}
    (h : ∀ a ∈ l, Yields (fun b => f b = a) (g a)) :
    Yields (fun rows => rows.map f = l) (l.mapM g) := by
  have hall := Yields.mapM h
  cases hm : l.mapM g with
  | ok rows => rw [hm] at hall; exact map_of_forall₂ hall
  | error e => rw [hm] at hall; exact hall

end Yields

section Plans

variable {R : Dict String Provider} {α β : Type} {Q : α → Prop}

theorem Plans.reads {f : RouterState → Except Exc α}
    (h : ∀ s, Consistent s → s.providers = R → Yields Q (f s)) : Plans R (Sync.reads f) Q := h

theorem Plans.pure {a : α} (h : Q a) : Plans R (Pure.pure a) Q := fun _ _ _ => h

theorem Plans.yields {f : RouterState → α × RouterState} (h : ∀ s, Q (f s).1) :
    Plans R (Sync.yields f) Q := fun s _ _ => h s

theorem Plans.bind {Q' : β → Prop} {m : Routing α} {k : α → Routing β} (hm : Plans R m Q)
    (hkeep : Sync.Keeps Peeks m) (hk : ∀ a, Q a → Plans R (k a) Q') :
    Plans R (m >>= k) Q' := by
  intro s hs hR
  have hfirst := hm s hs hR
  rw [Sync.bind_run]
  cases h : (m s).1 with
  | ok a =>
    rw [h] at hfirst
    exact hk a hfirst _ (hs.of_peeks (hkeep s)) ((hkeep s).providers_eq.trans hR)
  | error e => rw [h] at hfirst; exact hfirst

theorem Plans.update {f : RouterState → RouterState} {k : Unit → Routing α}
    (hf : ∀ s, Consistent s → Consistent (f s)) (hp : ∀ s, (f s).providers = s.providers)
    (hk : Plans R (k ()) Q) : Plans R (Sync.update f >>= k) Q := by
  intro s hs hR
  rw [Sync.bind_run_ok rfl]
  exact hk _ (hf s hs) ((hp s).trans hR)

theorem plans_breaker {n : String} (h : n ∈ R.keys) :
    Plans R (Sync.reads fun s => lookup s.breakers n) fun _ => True := by
  intro s hs hR
  rw [← hR, ← hs.breakers] at h
  obtain ⟨b, hb⟩ := Dict.mem_keys.mp h
  rw [Sync.reads_run, lookup_of_get? hb]
  trivial

end Plans

section Scores

variable {s : RouterState} (hs : Consistent s) (r : CompletionRequest)

variable {n : String}

theorem yields_rawCost (hn : n ∈ s.providers.keys) :
    Yields (fun _ => True) (s.rawCost r n) :=
  (yields_lookup hn).bind fun _ _ => trivial

include hs

theorem yields_p50Latency (hn : n ∈ s.providers.keys) :
    Yields (fun _ => True) (s.p50Latency n) :=
  (yields_lookup ((hs.providerStats n).mpr hn)).bind fun _ _ => trivial

theorem yields_healthOf (hn : n ∈ s.providers.keys) :
    Yields (fun _ => True) (s.healthOf S n) :=
  (yields_lookup ((hs.health n).mpr hn)).bind fun _ _ => trivial

theorem yields_rawScore (hn : n ∈ s.providers.keys) :
    Yields (fun x => x.name = n) (s.rawScore S r n) := by
  refine (yields_rawCost r hn).bind fun _ _ => ?_
  refine (yields_p50Latency hs hn).bind fun _ _ => ?_
  exact (yields_healthOf S hs hn).bind fun _ _ => rfl

theorem yields_balancedScores {available : List String}
    (ha : ∀ n ∈ available, n ∈ s.providers.keys) (costW latencyW : ℚ) :
    Yields (fun scores => scores.map Prod.fst = available)
      (s.balancedScores S r available costW latencyW) := by
  refine (Yields.mapM fun n hn => yields_rawScore S hs r (ha n hn)).bind fun raw hraw => ?_
  show (raw.map _).map Prod.fst = available
  rw [List.map_map]
  exact map_of_forall₂ hraw

end Scores

theorem mem_sortByScore {scores : List (String × ℚ)} {n : String} :
    n ∈ sortByScore scores ↔ n ∈ scores.map Prod.fst := by
  unfold sortByScore
  exact ((List.perm_insertionSort _ scores).map Prod.fst).mem_iff

theorem leastScore_mem (first : String) :
    ∀ scores : List (String × ℚ), leastScore scores first ∈ first :: scores.map Prod.fst
  | [] => List.mem_cons_self
  | x :: l => by
      have hfold : ∀ (l : List (String × ℚ)) (b : String × ℚ),
          l.foldl (fun b y => if y.2 < b.2 then y else b) b ∈ b :: l := by
        intro l
        induction l with
        | nil => exact fun b => List.mem_cons_self
        | cons y l ih =>
          intro b
          rw [List.foldl_cons]
          split
          · exact List.mem_cons_of_mem _ (ih y)
          · rcases List.mem_cons.mp (ih b) with h | h
            · rw [h]; exact List.mem_cons_self
            · exact List.mem_cons_of_mem _ (List.mem_cons_of_mem _ h)
      exact List.mem_cons_of_mem _ (List.mem_map.mpr ⟨_, hfold l x, rfl⟩)

/-! ### Selection without a policy -/

section Selection

variable {R : Dict String Provider} (r : CompletionRequest)

theorem plans_healthyAmong :
    ∀ {names : List String}, (∀ n ∈ names, n ∈ R.keys) →
      Plans R (healthyAmong names) fun l => ∀ n ∈ l, n ∈ names
  | [], _ => .pure fun _ h => h
  | n :: rest, hn => by
      have hfirst : n ∈ R.keys := hn n List.mem_cons_self
      have hrest := plans_healthyAmong fun m hm => hn m (List.mem_cons_of_mem _ hm)
      refine .bind (plans_breaker hfirst) (.reads _) fun b _ => ?_
      refine .bind (Q := fun _ => True) (.yields fun _ => trivial)
        (.yields fun s => s.peeks_wouldAllow b) fun ok _ => ?_
      refine .bind hrest (keeps_healthyAmong rest) fun l hl => .pure ?_
      intro m hm
      cases ok with
      | false => exact List.mem_cons_of_mem _ (hl m hm)
      | true =>
        rcases List.mem_cons.mp hm with rfl | hm
        · exact List.mem_cons_self
        · exact List.mem_cons_of_mem _ (hl m hm)

theorem plans_advanceRoundRobin {names : List String} {first : String} (h : first ∈ names) :
    Plans R (advanceRoundRobin names first) (· ∈ names) := by
  refine .yields fun s => ?_
  show names.getD (s.rrIndex % names.length) first ∈ names
  rw [List.getD_eq_getElem?_getD]
  cases hget : names[s.rrIndex % names.length]? with
  | none => exact h
  | some n => exact List.mem_of_getElem? hget

theorem plans_selectFastest {available : List String} {first : String}
    (ha : ∀ n ∈ available, n ∈ R.keys) (hf : first ∈ available) :
    Plans R (selectFastest available first) (· ∈ available) := by
  have hrows : Plans R (Sync.reads fun s => available.mapM fun n => do
      let st ← lookup s.providerStats n
      return (n, st.latencyMsHistory)) fun rows => rows.map Prod.fst = available := by
    refine .reads fun s hs hR => Yields.rows fun n hn => ?_
    exact (yields_lookup ((hs.providerStats n).mpr (hR ▸ ha n hn))).bind fun _ _ => rfl
  refine .bind hrows (.reads _) fun rows hr => ?_
  have hmem : ∀ x ∈ rows, x.1 ∈ available := fun x hx => hr ▸ List.mem_map_of_mem hx
  dsimp only
  split
  · refine .pure ?_
    have hleast := leastScore_mem first
      (rows.map fun x => (x.1, (p50 x.2).getD 0))
    rw [List.map_map] at hleast
    rcases List.mem_cons.mp hleast with h | h
    · rw [h]; exact hf
    · obtain ⟨x, hx, heq⟩ := List.mem_map.mp h
      rw [← heq]
      exact hmem x hx
  · rename_i n rest hunder
    intro s hs hR
    have hround := plans_advanceRoundRobin (R := R) (List.mem_cons_self (a := n) (l := rest))
      s hs hR
    have hsub : ∀ m ∈ n :: rest, m ∈ available := by
      intro m hm
      rw [← hunder] at hm
      obtain ⟨x, hx, rfl⟩ := List.mem_map.mp hm
      exact hmem x (List.mem_of_mem_filter hx)
    rw [hunder]
    exact hsub _ hround

/-- The provider selected is one of those available. -/
theorem plans_selectProvider {available : List String} (ha : ∀ n ∈ available, n ∈ R.keys) :
    Plans R (selectProvider S r available) (· ∈ available) := by
  unfold selectProvider
  split
  · exact fun _ _ _ => rfl
  · rename_i first rest
    have hfirst : first ∈ first :: rest := List.mem_cons_self
    have hleast : ∀ scores : List (String × ℚ), scores.map Prod.fst = first :: rest →
        leastScore scores first ∈ first :: rest := by
      intro scores hscores
      have hmem := leastScore_mem first scores
      rw [hscores] at hmem
      rcases List.mem_cons.mp hmem with h | h
      · rw [h]; exact hfirst
      · exact h
    split
    · refine .bind (.reads fun s hs hR => Yields.rows fun n hn => ?_) (.reads _)
        fun scores h => .pure (hleast scores h)
      exact (yields_rawCost r (hR ▸ ha n hn)).bind fun _ _ => rfl
    · exact plans_selectFastest ha hfirst
    · refine .bind (.reads fun s hs hR => ?_) (.reads _) fun scores h => .pure (hleast scores h)
      exact yields_balancedScores S hs r (fun n hn => hR ▸ ha n hn) _ _
    · exact plans_advanceRoundRobin hfirst
    · exact .pure hfirst

theorem yields_failoverOrder {s : RouterState} (hs : Consistent s) {names : List String}
    (hn : ∀ n ∈ names, n ∈ s.providers.keys) :
    Yields (fun l => ∀ n ∈ l, n ∈ names) (s.failoverOrder S r names) := by
  unfold failoverOrder
  split
  · exact fun _ h => h
  · refine (yields_balancedScores S hs r hn _ _).bind fun scores hscores => ?_
    intro n hmem
    rw [← hscores]
    exact mem_sortByScore.mp hmem

theorem plans_planHealthy :
    Plans R (planHealthy S r) fun l => ∀ x ∈ l, x.1 ∈ R.keys := by
  refine .bind (Q := fun names => names = R.keys)
    (.reads fun s _ hR => congrArg Dict.keys hR) (.reads _) ?_
  rintro names rfl
  refine .bind (plans_healthyAmong fun _ h => h) (keeps_healthyAmong _) fun healthy hh => ?_
  split
  · exact .reads fun _ _ _ => rfl
  · refine .bind (plans_selectProvider S r hh) (keeps_selectProvider S r healthy) ?_
    intro primary hp
    split
    · refine .pure ?_
      intro x hx
      rw [List.mem_singleton.mp hx]
      exact hh _ hp
    · have hrest : ∀ n ∈ healthy.filter (· ≠ primary), n ∈ R.keys :=
        fun n hn => hh n (List.mem_of_mem_filter hn)
      refine .bind (.reads fun s hs hR =>
        yields_failoverOrder S r hs fun n hn => hR ▸ hrest n hn) (.reads _) ?_
      intro rest hsub
      refine .pure ?_
      intro x hx
      obtain ⟨n, hn, rfl⟩ := List.mem_map.mp hx
      rcases List.mem_cons.mp hn with rfl | hn
      · exact hh _ hp
      · exact hrest n (hsub n hn)

end Selection

/-! ### Selection under a policy -/

section Policies

variable {R : Dict String Provider} (r : CompletionRequest) (policy : Policy)

theorem plans_eligibleFor :
    ∀ {names : List String}, (∀ n ∈ names, n ∈ R.keys) →
      Plans R (eligibleFor policy names) fun l => ∀ n ∈ l.1, n ∈ names
  | [], _ => .pure fun _ h => h
  | n :: rest, hn => by
      have hfirst : n ∈ R.keys := hn n List.mem_cons_self
      have hrest := plans_eligibleFor fun m hm => hn m (List.mem_cons_of_mem _ hm)
      unfold eligibleFor
      split
      · exact fun s hs hR => by
          have h := hrest s hs hR
          cases hm : (eligibleFor policy rest s).1 with
          | ok l => rw [hm] at h; exact fun m hm => List.mem_cons_of_mem _ (h m hm)
          | error e => rw [hm] at h; exact h
      · refine .bind (plans_breaker hfirst) (.reads _) fun b _ => ?_
        refine .bind (Q := fun _ => True) (.yields fun _ => trivial)
          (.yields fun s => s.peeks_wouldAllow b) fun ok _ => ?_
        refine .bind hrest (keeps_eligibleFor policy rest) ?_
        rintro ⟨eligible, blocked⟩ hl
        refine .pure ?_
        cases ok with
        | false => exact fun m hm => List.mem_cons_of_mem _ (hl m hm)
        | true =>
          intro m hm
          rcases List.mem_cons.mp hm with rfl | hm
          · exact List.mem_cons_self
          · exact List.mem_cons_of_mem _ (hl m hm)

theorem yields_policyScores {s : RouterState} (hs : Consistent s) {eligible : List String}
    (he : ∀ n ∈ eligible, n ∈ s.providers.keys) :
    Yields (fun scores => scores.map Prod.fst = eligible) (s.policyScores S r policy eligible) := by
  unfold policyScores
  split
  · exact Yields.rows fun n hn => (yields_p50Latency hs (he n hn)).bind fun _ _ => rfl
  · exact yields_balancedScores S hs r he _ _
  · exact yields_balancedScores S hs r he _ _

/-- A ranking is made of the eligible providers. -/
theorem yields_rankForPolicy {s : RouterState} (hs : Consistent s) {eligible : List String}
    (he : ∀ n ∈ eligible, n ∈ s.providers.keys) :
    Yields (fun l => ∀ n ∈ l, n ∈ eligible) (s.rankForPolicy S r policy eligible) := by
  unfold rankForPolicy
  split
  · exact fun n hn => of_decide_eq_true (List.mem_filter.mp hn).2
  · intro n hn
    rcases List.mem_append.mp hn with hn | hn
    · exact List.mem_of_mem_drop hn
    · exact List.mem_of_mem_take hn
  · refine (yields_policyScores S r policy hs he).bind fun scores hscores => ?_
    have hord : ∀ n ∈ sortByScore scores, n ∈ eligible := by
      intro n hn
      rw [← hscores]
      exact mem_sortByScore.mp hn
    dsimp only
    split
    · exact hord
    · have hrows : ∀ n ∈ sortByScore scores, Yields (fun x : String × ℚ => x.1 = n)
          (do return (n, (← s.p50Latency n).getD 0)) := fun n hn =>
        (yields_p50Latency hs (he n (hord n hn))).bind fun _ _ => rfl
      refine (Yields.rows hrows).bind fun rows hr n hn => ?_
      rcases List.mem_append.mp hn with hn | hn
      · obtain ⟨x, hx, rfl⟩ := List.mem_map.mp hn
        exact hord _ (hr ▸ List.mem_map_of_mem (List.mem_of_mem_filter hx))
      · exact hord n (List.mem_of_mem_filter hn)

theorem pinFirst_mem {eligible ranked : List String} (h : ∀ n ∈ ranked, n ∈ eligible) :
    ∀ n ∈ pinFirst policy eligible ranked, n ∈ eligible := by
  intro n hn
  unfold pinFirst at hn
  dsimp only at hn
  split at hn
  · rename_i hpin
    rcases List.mem_append.mp hn with hn | hn
    · split at hn
      · exact absurd hn List.not_mem_nil
      · rw [List.mem_singleton.mp hn]; exact hpin.2
    · exact h n (List.mem_of_mem_filter hn)
  · exact h n hn

theorem followChain_mem {eligible ranked : List String} (h : ∀ n ∈ ranked, n ∈ eligible) :
    ∀ n ∈ followChain policy eligible ranked, n ∈ eligible := by
  intro n hn
  unfold followChain at hn
  dsimp only at hn
  split at hn
  · rcases List.mem_append.mp hn with hn | hn
    · exact h n (List.mem_of_mem_take hn)
    · exact of_decide_eq_true (List.mem_filter.mp (List.mem_of_mem_filter hn)).2
  · exact h n hn

theorem modelOwnerFirst_mem (s : RouterState) {order eligible : List String}
    (h : ∀ n ∈ order, n ∈ eligible) :
    ∀ n ∈ s.modelOwnerFirst S policy order eligible, n ∈ eligible := by
  intro n hn
  unfold modelOwnerFirst at hn
  split at hn
  · split at hn
    · rename_i o _ ho
      rcases List.mem_cons.mp hn with rfl | hn
      · exact ho.2.2
      · exact h n (List.mem_of_mem_filter hn)
    · exact h n hn
  · exact h n hn

theorem applyPolicyModels_mem (s : RouterState) {order eligible : List String}
    (h : ∀ n ∈ order, n ∈ eligible) :
    ∀ n ∈ s.applyPolicyModels S policy order eligible, n ∈ eligible := by
  have hfirst := modelOwnerFirst_mem S policy s h
  unfold applyPolicyModels
  dsimp only
  generalize s.modelOwnerFirst S policy order eligible = order' at hfirst
  split
  · rename_i head tail o _
    split
    · rename_i ho
      intro n hn
      rcases List.mem_cons.mp hn with rfl | hn
      · exact hfirst _ List.mem_cons_self
      · rcases List.mem_cons.mp hn with rfl | hn
        · exact ho.2.2.1
        · exact hfirst n (List.mem_cons_of_mem _ (List.mem_of_mem_filter hn))
    · exact hfirst
  · exact hfirst

theorem plans_planWithPolicy :
    Plans R (planWithPolicy S r policy) fun l => ∀ n ∈ l, n ∈ R.keys := by
  refine .bind (Q := fun names => names = R.keys)
    (.reads fun s _ hR => congrArg Dict.keys hR) (.reads _) ?_
  rintro names rfl
  refine .bind (plans_eligibleFor policy fun _ h => h) (keeps_eligibleFor policy _) ?_
  rintro ⟨eligible, blocked⟩ hel
  dsimp only at hel ⊢
  split
  · unfold noneEligible
    split
    · exact fun _ _ _ => rfl
    · exact fun _ _ _ => rfl
  · refine .bind (.reads fun s hs hR =>
      yields_rankForPolicy S r policy hs fun n hn => hR ▸ hel n hn) (.reads _) ?_
    intro ranked hranked
    have horder := followChain_mem policy (pinFirst_mem policy hranked)
    have hadvance : Plans R (advancePolicy policy) fun _ => True := by
      unfold advancePolicy
      split
      · exact fun _ _ _ => trivial
      · exact .pure trivial
    refine .bind hadvance (keeps_advancePolicy policy) fun _ _ => ?_
    refine .bind (Q := fun l => ∀ n ∈ l, n ∈ eligible) (.reads fun s _ _ => ?_) (.reads _) ?_
    · dsimp only [Yields]
      split
      · exact applyPolicyModels_mem S policy s horder
      · exact horder
    · intro order ho
      refine .pure ?_
      intro n hn
      split at hn
      · exact hel n (ho n (List.mem_of_mem_take hn))
      · exact hel n (ho n hn)

end Policies

/-! ### The plan and the screen -/

section Screen

variable {R : Dict String Provider} (r : CompletionRequest)

/-- The name is that of a registered provider, of a local server if the
request is private. -/
def Serves (R : Dict String Provider) (r : CompletionRequest) (name : String) : Prop :=
  ∃ p, R.get? name = some p ∧ ((r.meta "private").truthy = true → p.isLocal = true)

theorem Serves.mem_keys {name : String} (h : Serves R r name) : name ∈ R.keys := by
  obtain ⟨p, hp, -⟩ := h
  exact Dict.mem_keys.mpr ⟨p, hp⟩

theorem yields_policyFor (s : RouterState) : Yields (fun _ => True) (s.policyFor r) := by
  unfold policyFor unknownPolicy
  repeat' split
  all_goals first | exact trivial | exact rfl

theorem plans_planOwned (policy : Option Policy) (owner : String) :
    Plans R (planOwned r policy owner) fun l => ∀ x ∈ l, x.1 ∈ R.keys := by
  have hproblem : Plans R (Sync.reads fun s => s.ownerProblem policy owner (r.model.getD ""))
      fun _ => owner ∈ R.keys := by
    refine .reads fun s _ hR => ?_
    unfold ownerProblem
    split
    · exact rfl
    · rename_i hcontains
      have hmem : owner ∈ R.keys := by
        rw [Bool.not_eq_true, Bool.not_eq_false'] at hcontains
        obtain ⟨p, hp⟩ := Option.isSome_iff_exists.mp hcontains
        exact Dict.mem_keys.mpr ⟨p, hR ▸ hp⟩
      repeat' split
      all_goals first | exact hmem | exact rfl
  refine .bind hproblem (.reads _) fun _ hmem => ?_
  refine .bind (plans_breaker hmem) (.reads _) fun b _ => ?_
  refine .bind (Q := fun _ => True) (.yields fun _ => trivial)
    (.yields fun s => s.peeks_wouldAllow b) fun ok _ => ?_
  split
  · refine .pure ?_
    intro x hx
    rw [List.mem_singleton.mp hx]
    exact hmem
  · exact .reads fun _ _ _ => rfl

theorem plans_planUnder (policy : Policy) :
    Plans R (planUnder S r policy) fun l => ∀ x ∈ l, x.1 ∈ R.keys := by
  refine .bind (plans_planWithPolicy S r policy) (keeps_planWithPolicy S r policy) ?_
  intro order horder
  refine .reads fun s _ _ => ?_
  dsimp only [Yields]
  intro x hx
  split at hx
  · obtain ⟨n, hn, rfl⟩ := List.mem_map.mp hx
    exact horder n hn
  · exact horder _ (List.of_mem_zip hx).1

/-- Every branch of the plan offers registered providers. -/
theorem plans_planAny (preferred : Option String) (hp : ∀ n ∈ preferred, n ∈ R.keys) :
    Plans R (planAny S r preferred) fun l => ∀ x ∈ l, x.1 ∈ R.keys := by
  unfold planAny
  split
  · rename_i name
    have hname : ∀ x ∈ [(name, r.model)], x.1 ∈ R.keys := by
      intro x hx
      rw [List.mem_singleton.mp hx]
      exact hp name rfl
    refine .reads fun s _ _ => ?_
    unfold planPreferred
    split
    · split
      · exact rfl
      · exact hname
    · exact hname
  · refine .bind (.reads fun s _ _ => yields_policyFor r s) (.reads _) fun policy _ => ?_
    refine .bind (Q := fun _ => True) (.reads fun s _ _ => trivial) (.reads _) fun owner _ => ?_
    split
    · exact plans_planOwned r _ _
    · exact plans_planUnder S r _
    · exact plans_planHealthy S r

variable {s : RouterState}

/-- `localOnly` keeps what is of the wanted kind. -/
theorem yields_localOnly (want : Bool) {plan : List (String × Option String)}
    (hplan : ∀ x ∈ plan, x.1 ∈ s.providers.keys) :
    Yields (fun l => ∀ x ∈ l, x ∈ plan ∧
      ∃ p, s.providers.get? x.1 = some p ∧ p.isLocal = want) (s.localOnly want plan) := by
  have hrow : ∀ x ∈ plan, Yields
      (fun y => y.1 = x ∧ ∃ p, s.providers.get? x.1 = some p ∧ p.isLocal = y.2)
      ((do return (x, ← s.isLocal x.1)) : Except Exc _) := by
    intro x hx
    have hlocal : Yields (fun b => ∃ p, s.providers.get? x.1 = some p ∧ p.isLocal = b)
        (s.isLocal x.1) :=
      (yields_lookup (hplan x hx)).bind fun p hp => ⟨p, hp, rfl⟩
    exact hlocal.bind fun b hb => ⟨rfl, hb⟩
  refine (Yields.mapM hrow).bind fun rows hrows => ?_
  intro x hx
  obtain ⟨y, hy, rfl⟩ := List.mem_map.mp hx
  obtain ⟨hmem, hwant⟩ := List.mem_filter.mp hy
  obtain ⟨i, hi⟩ := List.mem_iff_getElem?.mp hmem
  obtain ⟨x, hx', rfl, p, hp, hl⟩ : ∃ x ∈ plan, y.1 = x ∧
      ∃ p, s.providers.get? x.1 = some p ∧ p.isLocal = y.2 := by
    clear hx hy hi hwant
    induction hrows with
    | nil => exact absurd hmem List.not_mem_nil
    | cons hx _ ih =>
      rcases List.mem_cons.mp hmem with rfl | hmem
      · exact ⟨_, List.mem_cons_self, hx⟩
      · have hplan' := fun x hx => hplan x (List.mem_cons_of_mem _ hx)
        have hrow' := fun x hx => hrow x (List.mem_cons_of_mem _ hx)
        obtain ⟨x, hx, h⟩ := ih hplan' hrow' hmem
        exact ⟨x, List.mem_cons_of_mem _ hx, h⟩
  exact ⟨hx', p, hp, hl.trans (of_decide_eq_true hwant)⟩

/-- The plan of a private request is made of local servers. -/
theorem yields_restrict (preferred : Option String)
    {order : List (String × Option String)} (ho : ∀ x ∈ order, x.1 ∈ s.providers.keys) :
    Yields (fun l => ∀ x ∈ l, Serves s.providers r x.1) (s.restrict r preferred order) := by
  unfold restrict
  split
  · rename_i hpublic
    rw [Bool.not_eq_true'] at hpublic
    have hserves : ∀ x : String × Option String, x.1 ∈ s.providers.keys →
        Serves s.providers r x.1 := by
      intro x hx
      obtain ⟨p, hp⟩ := Dict.mem_keys.mp hx
      exact ⟨p, hp, fun h => absurd (hpublic.symm.trans h) (by simp)⟩
    split
    · unfold applyDifficulty
      split
      · exact fun x hx => hserves x (ho x hx)
      · refine (yields_localOnly _ ho).bind fun first hfirst => ?_
        intro x hx
        rcases List.mem_append.mp hx with hx | hx
        · exact hserves x (ho x (hfirst x hx).1)
        · exact hserves x (ho x (List.mem_of_mem_filter hx))
    · exact fun x hx => hserves x (ho x hx)
  · refine (yields_localOnly true ho).bind fun kept hkept => ?_
    split
    · exact rfl
    · intro x hx
      obtain ⟨-, p, hp, hl⟩ := hkept x hx
      exact ⟨p, hp, fun _ => hl⟩

theorem plans_plan (preferred : Option String) (hp : ∀ n ∈ preferred, n ∈ R.keys) :
    Plans R (plan S r preferred) fun l => ∀ x ∈ l, Serves R r x.1 := by
  refine .bind (plans_planAny S r preferred hp) (keeps_planAny S r preferred) ?_
  intro order horder
  refine .reads fun s _ hR => ?_
  subst hR
  exact yields_restrict r preferred horder

theorem yields_modelProblem {name : String} (h : name ∈ s.providers.keys) :
    Yields (fun _ => True) (s.modelProblem S r name) := by
  refine (yields_lookup h).bind fun p _ => ?_
  dsimp only [pure, Except.pure, bind, Except.bind]
  repeat' split
  all_goals exact trivial

/-- The requests that pass the screen are `r` with the model of a candidate. -/
theorem yields_screenOne (single : Bool)
    {c : String × Option String} (hc : c.1 ∈ s.providers.keys) :
    Yields (fun v => match v with
      | .keep req => req.metadata = r.metadata
      | .problem _ => True
      | .budget e => e.isKeyError = false) (s.screenOne S r single c) := by
  unfold screenOne
  dsimp only
  generalize hreq : (if c.2 = r.model then r else { r with model := c.2 }) = req
  have hmeta : req.metadata = r.metadata := by
    rw [← hreq]
    split <;> rfl
  refine (yields_modelProblem S req hc).bind fun reason _ => ?_
  have hadmit : Yields (fun _ => True) (s.admitModel req c.1) := by
    refine (yields_lookup hc).bind fun p _ => ?_
    split
    · trivial
    · exact rfl
  split
  · split
    · exact rfl
    · trivial
  · split
    · exact hmeta
    · split
      · exact rfl
      · exact rfl
    · rename_i e _ he
      rw [he] at hadmit
      exact hadmit

theorem yields_screenAll (single : Bool) :
    ∀ {plan : List (String × Option String)}, (∀ x ∈ plan, x.1 ∈ s.providers.keys) →
      Yields (fun v => (∀ y ∈ v.1, y.2.metadata = r.metadata ∧ ∃ x ∈ plan, y.1 = x.1) ∧
        ∀ e ∈ v.2.2, e.isKeyError = false) (s.screenAll S r single plan)
  | [], _ => by
      refine ⟨?_, ?_⟩
      · exact fun y hy => absurd hy List.not_mem_nil
      · exact fun e he => absurd he (by simp)
  | c :: rest, hplan => by
      refine (yields_screenOne S r single (hplan c List.mem_cons_self)).bind fun v hv => ?_
      refine (yields_screenAll single fun x hx => hplan x (List.mem_cons_of_mem _ hx)).bind ?_
      rintro ⟨keep, problem, budget⟩ ⟨hkeep, hbudget⟩
      have hrest : ∀ y ∈ keep, y.2.metadata = r.metadata ∧ ∃ x ∈ c :: rest, y.1 = x.1 := by
        intro y hy
        obtain ⟨hm, x, hx, heq⟩ := hkeep y hy
        exact ⟨hm, x, List.mem_cons_of_mem _ hx, heq⟩
      cases v with
      | keep req =>
        refine ⟨?_, hbudget⟩
        intro y hy
        rcases List.mem_cons.mp hy with rfl | hy
        · exact ⟨hv, c, List.mem_cons_self, rfl⟩
        · exact hrest y hy
      | problem reason => exact ⟨hrest, hbudget⟩
      | budget e =>
        refine ⟨hrest, ?_⟩
        rintro e' ⟨⟩
        exact hv

/-- What routing is given: at least one candidate, each of them fit to serve
the request, with the request's own metadata. -/
structure Candidates (R : Dict String Provider) (r : CompletionRequest)
    (l : List (String × CompletionRequest)) : Prop where
  nonempty : l ≠ []
  serves : ∀ x ∈ l, Serves R r x.1
  metadata : ∀ x ∈ l, x.2.metadata = r.metadata

/-- **The screen.** Planning a request raises no `KeyError` and yields
registered candidates, for a private request local servers only. -/
theorem plans_screen (preferred : Option String) (hp : ∀ n ∈ preferred, n ∈ R.keys) :
    Plans R (screen S r preferred) (Candidates R r) := by
  refine .bind (plans_plan S r preferred hp)
    (.bind (keeps_planAny S r preferred) fun _ => .reads _) fun order horder => ?_
  refine .reads fun s hs hR => ?_
  subst hR
  have hkeys : ∀ x ∈ order, x.1 ∈ s.providers.keys := fun x hx => (horder x hx).mem_keys
  refine (yields_screenAll S r _ hkeys).bind ?_
  rintro ⟨keep, problem, budget⟩ ⟨hkeep, hbudget⟩
  dsimp only
  split
  · split
    · exact hbudget _ rfl
    · exact rfl
  · rename_i hne
    refine ⟨?_, ?_, fun y hy => (hkeep y hy).1⟩
    · rintro rfl
      exact hne rfl
    · intro y hy
      obtain ⟨-, x, hx, heq⟩ := hkeep y hy
      rw [heq]
      exact horder x hx

end Screen

/-! ## Taking a plan apart -/

section Inversion

/-- The kind of server a name stands for. -/
def kindOf (s : RouterState) (name : String) : Bool := (s.providers.get? name).any Provider.isLocal

variable {s : RouterState} {single : Bool} {r : CompletionRequest}

/-- A candidate that was kept for the kind of its server is one of the plan. -/
theorem mem_localOnly {want : Bool} {plan l : List (String × Option String)}
    (h : s.localOnly want plan = .ok l) {x : String × Option String} (hx : x ∈ l) :
    x ∈ plan ∧ ∃ p, s.providers.get? x.1 = some p ∧ p.isLocal = want := by
  obtain ⟨rows, hrows, h⟩ := ok_of_bind h
  obtain rfl := Except.ok.inj h
  obtain ⟨y, hy, rfl⟩ := List.mem_map.mp hx
  obtain ⟨hmem, hwant⟩ := List.mem_filter.mp hy
  obtain ⟨x, hx', hrow⟩ := exists_of_mapM hrows hmem
  obtain ⟨b, hb, hrow⟩ := ok_of_bind hrow
  obtain rfl := Except.ok.inj hrow
  obtain ⟨p, hp, hb⟩ := ok_of_bind hb
  obtain rfl := Except.ok.inj hb
  exact ⟨hx', p, get?_of_lookup hp, of_decide_eq_true hwant⟩

/-- Keeping the candidates of one kind of server filters the plan. -/
theorem localOnly_ok {want : Bool} {plan l : List (String × Option String)}
    (h : s.localOnly want plan = .ok l) : l = plan.filter fun x => s.kindOf x.1 = want := by
  obtain ⟨rows, hrows, hl⟩ := ok_of_bind h
  obtain rfl := Except.ok.inj hl
  have hall := forall₂_of_mapM hrows
  clear h hrows hl
  induction hall with
  | nil => rfl
  | @cons x y plan rows hrow _ ih =>
    obtain ⟨b, hb, hrow⟩ := ok_of_bind hrow
    obtain rfl := Except.ok.inj hrow
    obtain ⟨p, hp, hb⟩ := ok_of_bind hb
    obtain rfl := Except.ok.inj hb
    have hkind : s.kindOf x.1 = p.isLocal := by
      rw [kindOf, get?_of_lookup hp]
      rfl
    by_cases hwant : p.isLocal = want
    · rw [List.filter_cons_of_pos (by simpa using hwant),
        List.filter_cons_of_pos (by simpa [hkind] using hwant), List.map_cons, ih]
    · rw [List.filter_cons_of_neg (by simpa using hwant),
        List.filter_cons_of_neg (by simpa [hkind] using hwant), ih]

/-- A difficulty leaves the plan, or puts the candidates of one kind first. -/
theorem applyDifficulty_ok {plan moved : List (String × Option String)}
    {difficulty : Value} (h : s.applyDifficulty plan difficulty = .ok moved) :
    moved = plan ∨ ∃ want, moved = (plan.filter fun x => decide (s.kindOf x.1 = want)) ++
      plan.filter fun x => !decide (s.kindOf x.1 = want) := by
  unfold applyDifficulty at h
  split at h
  · exact .inl (Except.ok.inj h).symm
  · obtain ⟨first, hfirst, h⟩ := ok_of_bind h
    obtain rfl := Except.ok.inj h
    have hfilter := localOnly_ok hfirst
    generalize decide (difficulty = Value.str "easy") = want at hfilter
    have hrest : plan.filter (· ∉ first) = plan.filter fun x => !decide (s.kindOf x.1 = want) := by
      refine List.filter_congr fun x hx => ?_
      simp [hfilter, List.mem_filter, hx]
    exact .inr ⟨want, by rw [hrest, hfilter]⟩

variable {plan : List (String × Option String)} {l : List (String × CompletionRequest)}

/-- Keeping the local servers of a plan of local servers keeps it. -/
theorem localOnly_all (h : ∀ c ∈ plan, s.isLocal c.1 = .ok true) : s.localOnly true plan = .ok plan := by
  have hrows : plan.mapM (fun x => do return (x, ← s.isLocal x.1)) =
      (.ok (plan.map fun x => (x, true)) : Except Exc (List ((String × Option String) × Bool))) := by
    induction plan with
    | nil => rfl
    | cons c rest ih =>
      rw [List.mapM_cons, h c List.mem_cons_self, ih fun x hx => h x (List.mem_cons_of_mem _ hx)]
      rfl
  unfold localOnly
  rw [hrows]
  show Except.ok (((plan.map fun x => (x, true)).filter fun x => decide (x.2 = true)).map Prod.fst) = _
  rw [List.filter_eq_self.mpr, List.map_map]
  · exact congrArg Except.ok (List.map_id plan)
  · intro x hx
    obtain ⟨y, -, rfl⟩ := List.mem_map.mp hx
    rfl

/-- A request the screen kept is the one planned, with the model planned for
it. -/
theorem screenOne_keep {r req : CompletionRequest}
    {c : String × Option String} (h : s.screenOne S r single c = .ok (.keep req)) :
    req = if c.2 = r.model then r else { r with model := c.2 } := by
  obtain ⟨reason, -, h⟩ := ok_of_bind h
  dsimp only at h
  split at h
  · split at h
    · cases h
    · cases h
  · split at h
    · exact (Verdict.keep.inj (Except.ok.inj h)).symm
    · split at h
      · cases h
      · cases h
    · cases h

theorem screenOne_model {r req : CompletionRequest}
    {c : String × Option String} (h : s.screenOne S r single c = .ok (.keep req)) :
    req.model = c.2 := by
  rw [screenOne_keep S h]
  split
  · rename_i hm
    exact hm.symm
  · rfl

/-- A candidate that passed the screen is one of the plan the screen kept. -/
theorem mem_screenAll {y : String × CompletionRequest} :
    ∀ {plan : List (String × Option String)} {v}, s.screenAll S r single plan = .ok v → y ∈ v.1 →
      ∃ c ∈ plan, y.1 = c.1 ∧ s.screenOne S r single c = .ok (.keep y.2)
  | [], v, h, hy => by
      obtain rfl := Except.ok.inj h
      exact absurd hy List.not_mem_nil
  | c :: rest, v, h, hy => by
      obtain ⟨verdict, hone, h⟩ := ok_of_bind h
      obtain ⟨⟨keep, problem, budget⟩, hall, h⟩ := ok_of_bind h
      have hrest : y ∈ keep → ∃ c' ∈ c :: rest, y.1 = c'.1 ∧
          s.screenOne S r single c' = .ok (.keep y.2) := by
        intro hy
        obtain ⟨c', hc', hkeep⟩ := mem_screenAll hall hy
        exact ⟨c', List.mem_cons_of_mem _ hc', hkeep⟩
      cases verdict with
      | keep req =>
        obtain rfl := Except.ok.inj h
        rcases List.mem_cons.mp hy with rfl | hy
        · exact ⟨c, List.mem_cons_self, rfl, hone⟩
        · exact hrest hy
      | problem reason =>
        obtain rfl := Except.ok.inj h
        exact hrest hy
      | budget e =>
        obtain rfl := Except.ok.inj h
        exact hrest hy

/-- What the screen returns it kept of the plan: at least one candidate. -/
theorem mem_screened (h : s.screened S r single plan = .ok l) :
    l ≠ [] ∧ ∀ y ∈ l, ∃ c ∈ plan, y.1 = c.1 ∧ s.screenOne S r single c = .ok (.keep y.2) := by
  obtain ⟨⟨keep, problem, budget⟩, hall, h⟩ := ok_of_bind h
  dsimp only at h
  split at h
  · split at h
    · cases h
    · cases h
  · rename_i hne
    obtain rfl := Except.ok.inj h
    refine ⟨?_, fun y hy => mem_screenAll S hall hy⟩
    rintro rfl
    exact hne rfl

/-- The screen drops candidates of the plan. -/
theorem screenAll_sublist :
    ∀ {plan : List (String × Option String)} {v}, s.screenAll S r single plan = .ok v →
      (v.1.map fun y => (y.1, y.2.model)).Sublist plan
  | [], v, h => by
      obtain rfl := Except.ok.inj h
      exact .slnil
  | c :: rest, v, h => by
      obtain ⟨verdict, hone, h⟩ := ok_of_bind h
      obtain ⟨⟨keep, problem, budget⟩, hall, h⟩ := ok_of_bind h
      have hrest := screenAll_sublist hall
      cases verdict with
      | keep req =>
        obtain rfl := Except.ok.inj h
        rw [List.map_cons, show (c.1, req.model) = c from Prod.ext rfl (screenOne_model S hone)]
        exact hrest.cons_cons c
      | problem reason =>
        obtain rfl := Except.ok.inj h
        exact hrest.cons c
      | budget e =>
        obtain rfl := Except.ok.inj h
        exact hrest.cons c

theorem screened_sublist
    (h : s.screened S r single plan = .ok l) : (l.map fun y => (y.1, y.2.model)).Sublist plan := by
  obtain ⟨⟨keep, problem, budget⟩, hall, h⟩ := ok_of_bind h
  dsimp only at h
  split at h
  · split at h
    · cases h
    · cases h
  · obtain rfl := Except.ok.inj h
    exact screenAll_sublist S hall

/-- The steps of a screen that returned candidates. -/
theorem screen_ok {preferred : Option String}
    (h : (screen S r preferred s).1 = .ok l) :
    ∃ order plan single, (planAny S r preferred s).1 = .ok order ∧
      (planAny S r preferred s).2.restrict r preferred order = .ok plan ∧
      (planAny S r preferred s).2.screened S r single plan = .ok l := by
  obtain ⟨plan, hplan, h⟩ := Sync.ok_of_bind h
  have hstate : (RouterState.plan S r preferred s).2 = (planAny S r preferred s).2 := by
    unfold RouterState.plan
    rw [Sync.bind_run]
    split <;> rfl
  obtain ⟨order, horder, hplan⟩ := Sync.ok_of_bind hplan
  rw [hstate] at h
  exact ⟨order, plan, _, horder, hplan, h⟩

end Inversion

end RouterState

end Caips.Coreai
