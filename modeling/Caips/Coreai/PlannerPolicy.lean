/-
Caips.Coreai.PlannerPolicy — what a routing policy lets through.

A plan goes through the eligible providers, a ranking, the pinned provider,
the chain, the owners of the policy's models, the difficulty or privacy of the
request and the screen. Each of these stages is followed here from a result
back to what it was made of: a ranking rearranges the eligible providers, the
owners of models are put in front without a provider coming in twice (but for
the first, which may be tried again with the fallback model), and what comes
after drops candidates or rearranges them stably.
-/
import Caips.Coreai.PlannerTheorems

namespace Caips.Coreai

open Caips.Logic Caips.Providers

namespace CircuitBreaker

theorem wouldAllow_refresh (b : CircuitBreaker) (now : ℚ) :
    ((b.refresh now).wouldAllow now).1 = (b.wouldAllow now).1 := by
  unfold wouldAllow
  rw [refresh_refresh]

end CircuitBreaker

/-- The policy pins its providers: the one it names and its chain. -/
def Policy.Pins (policy : Policy) : Prop :=
  policy.strategy = .explicit ∨ policy.strategy = .fallback

namespace RouterState

variable {S : Setup} {r : CompletionRequest} {policy : Policy}

/-! ## Eligible providers -/

/-- The breaker of `name` would allow a call. -/
def Admits (s : RouterState) (name : String) : Prop :=
  ∃ b, s.breakers.get? name = some b ∧ ((s.breakerAt b).wouldAllow s.now).1 = true

variable {name : String} {scores : List (String × ℚ)} {eligible ranked : List String} {order : List String}
  {plan : List (String × Option String)}

theorem Admits.of_peeks {s s' : RouterState} (h : Peeks s s') (ha : Admits s' name) :
    Admits s name := by
  obtain ⟨b, hb, hallow⟩ := ha
  refine ⟨b, h.breakers_eq ▸ hb, ?_⟩
  rw [h.now_eq] at hallow
  rcases h.breaker b with heq | heq
  · rw [heq] at hallow
    exact hallow
  · rw [heq, CircuitBreaker.wouldAllow_refresh] at hallow
    exact hallow

/-- The eligible providers are some of the registered ones, in their order; the
policy does not exclude them and their breakers would allow a call. -/
theorem eligibleFor_ok :
    ∀ {names : List String} {s : RouterState} {eligible blocked : List String},
      (eligibleFor policy names s).1 = .ok (eligible, blocked) →
      eligible.Sublist names ∧ ∀ n ∈ eligible, excluded policy n = false ∧ Admits s n
  | [], s, eligible, blocked, h => by
      obtain ⟨rfl, rfl⟩ := Prod.mk.inj (Except.ok.inj h)
      exact ⟨.slnil, fun n hn => absurd hn List.not_mem_nil⟩
  | n :: rest, s, eligible, blocked, h => by
      unfold eligibleFor at h
      split at h
      · obtain ⟨hsub, hel⟩ := eligibleFor_ok h
        exact ⟨hsub.cons n, hel⟩
      · rename_i hexcluded
        obtain ⟨b, hb, h⟩ := Sync.ok_of_bind h
        obtain ⟨ok, hok, h⟩ := Sync.ok_of_bind h
        obtain ⟨⟨eligible', blocked'⟩, hrest, h⟩ := Sync.ok_of_bind h
        obtain ⟨hsub, hel⟩ := eligibleFor_ok hrest
        have hel' : ∀ m ∈ eligible', excluded policy m = false ∧ Admits s m := fun m hm =>
          ⟨(hel m hm).1, (hel m hm).2.of_peeks (s.peeks_wouldAllow b)⟩
        have hallow : (s.wouldAllow b).1 = ok := Except.ok.inj hok
        cases ok with
        | false =>
          obtain ⟨rfl, -⟩ := Prod.mk.inj (Except.ok.inj h)
          exact ⟨hsub.cons n, hel'⟩
        | true =>
          obtain ⟨rfl, -⟩ := Prod.mk.inj (Except.ok.inj h)
          refine ⟨hsub.cons_cons n, fun m hm => ?_⟩
          rcases List.mem_cons.mp hm with rfl | hm
          · exact ⟨Bool.eq_false_iff.mpr hexcluded, b, get?_of_lookup hb, hallow⟩
          · exact hel' m hm

/-! ## The order -/

/-- No name twice, and only eligible ones. -/
structure Picks (eligible l : List String) : Prop where
  nodup : l.Nodup
  mem : ∀ n ∈ l, n ∈ eligible

theorem sortByScore_picks {eligible : List String}
    (hn : eligible.Nodup) (h : scores.map Prod.fst = eligible) :
    Picks eligible (sortByScore scores) := by
  have hperm : (sortByScore scores).Perm eligible := by
    rw [← h]
    exact (List.perm_insertionSort _ scores).map Prod.fst
  exact ⟨hperm.nodup_iff.mpr hn, fun n hn => hperm.mem_iff.mp hn⟩

theorem rows_of_mapM {β : Type} {f : β → String} {g : String → Except Exc β} {l : List String}
    {rows : List β} (h : l.mapM g = .ok rows) (hg : ∀ n b, g n = .ok b → f b = n) :
    rows.map f = l := map_of_forall₂ ((forall₂_of_mapM h).imp fun n b => hg n b)

variable {s : RouterState}

theorem balancedScores_ok {available : List String} {costW latencyW : ℚ}
    (h : s.balancedScores S r available costW latencyW = .ok scores) :
    scores.map Prod.fst = available := by
  obtain ⟨raw, hraw, h⟩ := ok_of_bind h
  obtain rfl := Except.ok.inj h
  rw [List.map_map]
  refine rows_of_mapM hraw fun n b hb => ?_
  obtain ⟨cost, -, hb⟩ := ok_of_bind hb
  obtain ⟨latency, -, hb⟩ := ok_of_bind hb
  obtain ⟨health, -, hb⟩ := ok_of_bind hb
  obtain rfl := Except.ok.inj hb
  rfl

theorem policyScores_ok {eligible : List String}
    (h : s.policyScores S r policy eligible = .ok scores) : scores.map Prod.fst = eligible := by
  unfold policyScores at h
  split at h
  · refine rows_of_mapM h fun n b hb => ?_
    obtain ⟨lat, -, hb⟩ := ok_of_bind hb
    obtain rfl := Except.ok.inj hb
    rfl
  · exact balancedScores_ok h
  · exact balancedScores_ok h

/-- A ranking rearranges eligible providers. -/
theorem rankForPolicy_ok (hn : eligible.Nodup)
    (h : s.rankForPolicy S r policy eligible = .ok ranked) : Picks eligible ranked := by
  unfold rankForPolicy at h
  split at h
  · obtain rfl := Except.ok.inj h
    exact ⟨policy.chain_nodup.filter _, fun n hn => of_decide_eq_true (List.mem_filter.mp hn).2⟩
  · obtain rfl := Except.ok.inj h
    generalize (s.policyRr.get? policy.name).getD 0 % eligible.length = k
    have hperm : (eligible.drop k ++ eligible.take k).Perm eligible := by
      refine List.perm_append_comm.trans ?_
      rw [List.take_append_drop]
    exact ⟨hperm.nodup_iff.mpr hn, fun n hn => hperm.mem_iff.mp hn⟩
  · obtain ⟨scores, hscores, h⟩ := ok_of_bind h
    have hpicks := sortByScore_picks hn (policyScores_ok hscores)
    dsimp only at h
    split at h
    · obtain rfl := Except.ok.inj h
      exact hpicks
    · obtain ⟨rows, hrows, h⟩ := ok_of_bind h
      obtain rfl := Except.ok.inj h
      have hfst : rows.map Prod.fst = sortByScore scores := by
        refine rows_of_mapM hrows fun n b hb => ?_
        obtain ⟨lat, -, hb⟩ := ok_of_bind hb
        obtain rfl := Except.ok.inj hb
        rfl
      have hwithin : ∀ q : String × ℚ → Bool,
          ((rows.filter q).map Prod.fst).Sublist (sortByScore scores) := fun q =>
        hfst ▸ List.filter_sublist.map Prod.fst
      refine ⟨?_, fun n hn => ?_⟩
      · refine List.Nodup.append ((hwithin _).nodup hpicks.nodup) (hpicks.nodup.filter _) ?_
        intro n hn hn'
        exact of_decide_eq_true (List.mem_filter.mp hn').2 hn
      · rcases List.mem_append.mp hn with hn | hn
        · exact hpicks.mem n ((hwithin _).subset hn)
        · exact hpicks.mem n (List.mem_of_mem_filter hn)

theorem pinFirst_picks (h : Picks eligible ranked) :
    Picks eligible (pinFirst policy eligible ranked) := by
  refine ⟨?_, pinFirst_mem policy h.mem⟩
  unfold pinFirst
  dsimp only
  split
  · split
    · exact h.nodup.filter _
    · refine List.nodup_cons.mpr ⟨fun hmem => ?_, h.nodup.filter _⟩
      exact of_decide_eq_true (List.mem_filter.mp hmem).2 rfl
  · exact h.nodup

theorem followChain_picks (h : Picks eligible ranked) :
    Picks eligible (followChain policy eligible ranked) := by
  refine ⟨?_, followChain_mem policy h.mem⟩
  unfold followChain
  dsimp only
  split
  · refine List.Nodup.append ((List.take_sublist _ _).nodup h.nodup)
      ((policy.chain_nodup.filter _).filter _) ?_
    intro n hn hn'
    exact of_decide_eq_true (List.mem_filter.mp hn').2 hn
  · exact h.nodup

theorem modelOwnerFirst_picks {order eligible : List String}
    (h : Picks eligible order) : Picks eligible (s.modelOwnerFirst S policy order eligible) := by
  refine ⟨?_, modelOwnerFirst_mem S policy s h.mem⟩
  unfold modelOwnerFirst
  split
  · split
    · refine List.nodup_cons.mpr ⟨fun hmem => ?_, h.nodup.filter _⟩
      exact of_decide_eq_true (List.mem_filter.mp hmem).2 rfl
    · exact h.nodup
  · exact h.nodup

/-- Every name once, but for the first one, which may come again right after
itself for the fallback model it owns. -/
def Ordered (S : Setup) (s : RouterState) (policy : Policy) (order : List String) : Prop :=
  order.Nodup ∨ ∃ head tail, order = head :: head :: tail ∧ (head :: tail).Nodup ∧
    orElse policy.fallbackModel "" ≠ "" ∧ s.ownerOf S policy.fallbackModel = some head

theorem applyPolicyModels_ordered {order eligible : List String}
    (h : Picks eligible order) :
    Ordered S s policy (s.applyPolicyModels S policy order eligible) := by
  have hfirst : (s.modelOwnerFirst S policy order eligible).Nodup := (modelOwnerFirst_picks h).nodup
  unfold applyPolicyModels
  dsimp only
  generalize s.modelOwnerFirst S policy order eligible = order' at hfirst
  split
  · rename_i head tail o howner
    split
    · rename_i ho
      obtain ⟨hhead, htail⟩ := List.nodup_cons.mp hfirst
      by_cases heq : o = head
      · subst heq
        refine .inr ⟨o, tail.filter (· ≠ o), rfl, List.nodup_cons.mpr ⟨?_, htail.filter _⟩, ho.1, howner⟩
        exact fun hmem => hhead (List.mem_of_mem_filter hmem)
      · refine .inl (List.nodup_cons.mpr ⟨fun hmem => ?_, List.nodup_cons.mpr ⟨?_, htail.filter _⟩⟩)
        · rcases List.mem_cons.mp hmem with rfl | hmem
          · exact heq rfl
          · exact hhead (List.mem_of_mem_filter hmem)
        · exact fun hmem => of_decide_eq_true (List.mem_filter.mp hmem).2 rfl
    · exact .inl hfirst
  · exact .inl hfirst

theorem ownerOf_congr {s s' : RouterState} (h : s'.providers = s.providers) (m : Option String) :
    s'.ownerOf S m = s.ownerOf S m := by
  unfold ownerOf
  rw [h]

theorem Ordered.take_one (s : RouterState) (order : List String) :
    Ordered S s policy (order.take 1) := by
  cases order with
  | nil => exact .inl List.nodup_nil
  | cons n l => exact .inl (List.nodup_singleton n)

/-- The name is that of a registered provider the policy permits, one of its
chain where it pins them, and whose breaker would allow a call. -/
structure Open (s : RouterState) (policy : Policy) (name : String) : Prop where
  registered : name ∈ s.providers.keys
  permitted : policy.permits name = none
  chained : policy.Pins → some name = policy.provider ∨ name ∈ policy.fallbackChain
  admits : Admits s name

theorem permits_of_not_excluded (h : excluded policy name = false) :
    policy.permits name = none := by
  cases hpermits : policy.permits name with
  | none => rfl
  | some reason => simp [excluded, hpermits] at h

theorem chained_of_not_excluded (h : excluded policy name = false)
    (hpins : policy.Pins) : some name = policy.provider ∨ name ∈ policy.fallbackChain := by
  by_contra hout
  obtain ⟨hprovider, hchain⟩ := not_or.mp hout
  rcases hpins with hstrategy | hstrategy
  · simp [excluded, hstrategy, hprovider, hchain] at h
  · have hgiven := policy.chain_given hstrategy
    simp [excluded, hstrategy, hprovider, hchain, hgiven] at h

/-- What the order of a policy is made of: the eligible providers as they are ranked, chained, and with
the models of the policy where the request names none. -/
theorem planWithPolicy_cases (h : (planWithPolicy S r policy s).1 = .ok order) :
    ∃ eligible blocked ranked order' s₁ s₂, (eligibleFor policy s.providers.keys s).1 = .ok (eligible, blocked) ∧
      Peeks s s₁ ∧ s₁.rankForPolicy S r policy eligible = .ok ranked ∧ Peeks s₁ s₂ ∧
      order' = (if r.model.isNone then
        s₂.applyPolicyModels S policy (followChain policy eligible (pinFirst policy eligible ranked)) eligible
        else followChain policy eligible (pinFirst policy eligible ranked)) ∧
      order = if r.model.isSome ∨ S.config.enableFailover = false then order'.take 1 else order' := by
  obtain ⟨names, hnames, h⟩ := Sync.ok_of_bind h
  obtain ⟨⟨eligible, blocked⟩, heligible, h⟩ := Sync.ok_of_bind h
  obtain rfl : s.providers.keys = names := Except.ok.inj hnames
  have hpeeks := keeps_eligibleFor policy s.providers.keys s
  dsimp only [Sync.reads_run] at h
  generalize (eligibleFor policy s.providers.keys s).2 = s₁ at h hpeeks
  split at h
  · unfold noneEligible at h
    split at h
    · cases h
    · cases h
  · obtain ⟨ranked, hranked, h⟩ := Sync.ok_of_bind h
    obtain ⟨_, -, h⟩ := Sync.ok_of_bind h
    obtain ⟨order', horder', h⟩ := Sync.ok_of_bind h
    have hadvance := keeps_advancePolicy policy s₁
    exact ⟨eligible, blocked, ranked, order', s₁, _, heligible, hpeeks, hranked, hadvance,
      (Except.ok.inj horder').symm, (Except.ok.inj h).symm⟩

/-- The order of a policy is made of open providers, the first of which may
come twice; for an explicit model it is one provider. -/
theorem planWithPolicy_ok (h : (planWithPolicy S r policy s).1 = .ok order) :
    (∀ n ∈ order, Open s policy n) ∧ Ordered S s policy order ∧
      (r.model.isSome = true → order.length ≤ 1) := by
  obtain ⟨eligible, blocked, ranked, order', s₁, s₂, heligible, hpeeks, hranked, hadvance, horder', rfl⟩ :=
    planWithPolicy_cases h
  obtain ⟨hsub, hel⟩ := eligibleFor_ok heligible
  have hopen : ∀ n ∈ eligible, Open s policy n := fun n hn =>
    ⟨hsub.subset hn, permits_of_not_excluded (hel n hn).1, chained_of_not_excluded (hel n hn).1,
      (hel n hn).2⟩
  have hnodup : eligible.Nodup := hsub.nodup s.providers.nodup
  have hpicks : Picks eligible (followChain policy eligible (pinFirst policy eligible ranked)) :=
    followChain_picks (pinFirst_picks (rankForPolicy_ok hnodup hranked))
  generalize followChain policy eligible (pinFirst policy eligible ranked) = order at horder' hpicks
  have hproviders : s₂.providers = s.providers :=
    hadvance.providers_eq.trans hpeeks.providers_eq
  have horder : (∀ n ∈ order', n ∈ eligible) ∧ Ordered S s policy order' := by
    subst horder'
    split
    · refine ⟨applyPolicyModels_mem S policy s₂ hpicks.mem, ?_⟩
      have hordered : Ordered S s₂ policy (s₂.applyPolicyModels S policy order eligible) :=
        applyPolicyModels_ordered hpicks
      unfold Ordered at hordered ⊢
      rw [ownerOf_congr hproviders] at hordered
      exact hordered
    · exact ⟨hpicks.mem, .inl hpicks.nodup⟩
  split
  · exact ⟨fun n hn => hopen n (horder.1 n (List.mem_of_mem_take hn)), Ordered.take_one s order',
      fun _ => List.length_take_le 1 order'⟩
  · rename_i hlong
    exact ⟨fun n hn => hopen n (horder.1 n hn), horder.2, fun hm => absurd (.inl hm) hlong⟩

/-! ## The plan of a policy -/

/-- A plan keeps to the policy: its providers are open; a planned model is owned
by its provider or by no registered one; and no provider comes twice, but for
the primary with the fallback model, if the policy has one. -/
structure Confined (S : Setup) (s : RouterState) (policy : Policy) (primary : String)
    (plan : List (String × Option String)) : Prop where
  provider : ∀ x ∈ plan, Open s policy x.1
  model : ∀ x ∈ plan, ∀ o, s.ownerOf S x.2 = some o → o = x.1 ∨ o ∉ s.providers.keys
  once : ∀ n, ∃ m, (plan.filter fun x => x.1 = n).Sublist
    ((n, m) :: if n = primary ∧ orElse policy.fallbackModel "" ≠ "" then [(n, policy.fallbackModel)] else [])

theorem Confined.sublist {primary : String}
    {plan plan' : List (String × Option String)} (h : Confined S s policy primary plan)
    (hsub : plan'.Sublist plan) : Confined S s policy primary plan' where
  provider x hx := h.provider x (hsub.subset hx)
  model x hx := h.model x (hsub.subset hx)
  once n := by
    obtain ⟨m, hm⟩ := h.once n
    exact ⟨m, (hsub.filter _).trans hm⟩

theorem filter_name_of_nodup (h : (plan.map Prod.fst).Nodup) (n : String) :
    ∃ m, (plan.filter fun x => x.1 = n).Sublist [(n, m)] := by
  induction plan with
  | nil => exact ⟨none, List.nil_sublist _⟩
  | cons x plan ih =>
    obtain ⟨hx, hplan⟩ := List.nodup_cons.mp h
    by_cases heq : x.1 = n
    · have hnone : (plan.filter fun x => x.1 = n) = [] := by
        refine List.filter_eq_nil_iff.mpr fun y hy hyn => ?_
        refine hx (heq ▸ of_decide_eq_true hyn ▸ ?_)
        exact List.mem_map_of_mem hy
      refine ⟨x.2, ?_⟩
      rw [List.filter_cons_of_pos (by simpa using heq), hnone, ← heq]
    · rw [List.filter_cons_of_neg (by simpa using heq)]
      exact ih hplan

/-- The models a policy plans are owned by their providers, or by none. -/
theorem policyModels_ok {x : String × Option String}
    (hx : x ∈ order.zip (s.policyModels S policy order)) {o : String}
    (ho : s.ownerOf S x.2 = some o) : o = x.1 := by
  obtain ⟨i, hi⟩ := List.mem_iff_getElem?.mp hx
  obtain ⟨hname, hmodel⟩ := List.getElem?_zip_eq_some.mp hi
  rw [policyModels, List.getElem?_mapIdx, hname] at hmodel
  have hmodel := Option.some.inj hmodel
  dsimp only at hmodel
  generalize (if i = 0 then policy.model else policy.fallbackModel) = wanted at hmodel
  split at hmodel
  · rename_i hcond
    rw [← hmodel] at ho
    rcases hcond.2 with hnone | hself
    · rw [hnone] at ho
      cases ho
    · exact (Option.some.inj (hself.symm.trans ho)).symm
  · rw [← hmodel] at ho
    cases ho

theorem length_policyModels (s : RouterState) (order : List String) :
    (s.policyModels S policy order).length = order.length := List.length_mapIdx

/-- The plan of a policy, for a request whose model no registered provider
owns. -/
theorem planUnder_ok (hr : ∀ o, s.ownerOf S r.model = some o → o ∉ s.providers.keys)
    (h : (planUnder S r policy s).1 = .ok plan) :
    ∃ order, (planWithPolicy S r policy s).1 = .ok order ∧
      Confined S s policy (order.headD "") plan := by
  obtain ⟨order, horder, h⟩ := Sync.ok_of_bind h
  have hpeeks := keeps_planWithPolicy S r policy s
  generalize (planWithPolicy S r policy s).2 = s' at h hpeeks
  obtain ⟨hopen, hordered, hone⟩ := planWithPolicy_ok horder
  have hfst : plan.map Prod.fst = order := by
    obtain rfl := Except.ok.inj h
    split
    · rw [List.map_map]
      exact List.map_id _
    · exact List.map_fst_zip (length_policyModels s' order).ge
  refine ⟨order, horder, ?_, ?_, ?_⟩
  · intro x hx
    exact hopen _ (hfst ▸ List.mem_map_of_mem hx)
  · intro x hx o ho
    obtain rfl := Except.ok.inj h
    split at hx
    · obtain ⟨n, -, rfl⟩ := List.mem_map.mp hx
      exact .inr (hr o ho)
    · rw [← ownerOf_congr hpeeks.providers_eq] at ho
      exact .inl (policyModels_ok hx ho)
  · intro n
    rcases hordered with hnodup | ⟨head, tail, rfl, hnodup, hmodel, howner⟩
    · obtain ⟨m, hm⟩ := filter_name_of_nodup (hfst ▸ hnodup) n
      exact ⟨m, hm.trans (List.cons_sublist_cons.mpr (List.nil_sublist _))⟩
    · have hzip : plan = (head :: head :: tail).zip (s'.policyModels S policy (head :: head :: tail)) := by
        obtain rfl := Except.ok.inj h
        split
        · rename_i hm
          exact absurd (hone hm) (by simp)
        · rfl
      rw [← ownerOf_congr hpeeks.providers_eq] at howner
      have hsecond : (s'.policyModels S policy (head :: head :: tail))[1]? = some policy.fallbackModel := by
        rw [policyModels, List.getElem?_mapIdx]
        simp [hmodel, howner]
      obtain ⟨m₀, m₁, models, hmodels⟩ :
          ∃ m₀ m₁ models, s'.policyModels S policy (head :: head :: tail) = m₀ :: m₁ :: models := by
        have hlen := @length_policyModels S policy s' (head :: head :: tail)
        match hl : s'.policyModels S policy (head :: head :: tail), hlen with
        | m₀ :: m₁ :: models, _ => exact ⟨m₀, m₁, models, rfl⟩
      rw [hmodels] at hzip hsecond
      obtain rfl : m₁ = policy.fallbackModel := Option.some.inj hsecond
      have hrest : (tail.zip models).map Prod.fst = tail := by
        rw [hzip] at hfst
        exact (List.cons.inj (List.cons.inj hfst).2).2
      obtain ⟨hhead, htail⟩ := List.nodup_cons.mp hnodup
      rw [hzip]
      by_cases heq : head = n
      · subst heq
        have hnone : ((tail.zip models).filter fun x => x.1 = head) = [] := by
          refine List.filter_eq_nil_iff.mpr fun y hy hyn => hhead ?_
          rw [← hrest, ← of_decide_eq_true hyn]
          exact List.mem_map_of_mem hy
        refine ⟨m₀, ?_⟩
        simp [hnone, hmodel]
      · obtain ⟨m, hm⟩ := filter_name_of_nodup (hrest.symm ▸ htail) n
        refine ⟨m, ?_⟩
        simpa [heq, Ne.symm heq] using hm

/-! ## The rest of the plan -/

/-- Putting some names first leaves the candidates of each name in their
order. -/
theorem filter_name_partition (q : String → Bool) (plan : List (String × Option String)) (n : String) :
    ((plan.filter fun x => q x.1) ++ plan.filter fun x => !q x.1).filter (fun x => x.1 = n) =
      plan.filter fun x => x.1 = n := by
  have hname : ∀ p : String → Bool, (plan.filter fun x => p x.1).filter (fun x => x.1 = n) =
      if p n then plan.filter fun x => x.1 = n else [] := by
    intro p
    rw [List.filter_filter]
    cases hp : p n with
    | true =>
      refine List.filter_congr fun x _ => ?_
      by_cases hx : x.1 = n
      · simp [hx, hp]
      · simp [hx]
    | false =>
      refine List.filter_eq_nil_iff.mpr fun x _ hx => ?_
      rw [Bool.and_eq_true, decide_eq_true_eq] at hx
      rw [hx.1, hp] at hx
      cases hx.2
  rw [List.filter_append, hname q, hname fun m => !q m]
  cases q n with
  | true => exact List.append_nil _
  | false => rfl

/-- The difficulty or the privacy of a request leaves its plan confined. -/
theorem Confined.restrict {s s' : RouterState} {primary : String}
    {order plan : List (String × Option String)} (h : Confined S s policy primary order)
    {preferred : Option String} (hplan : s'.restrict r preferred order = .ok plan) :
    Confined S s policy primary plan := by
  unfold RouterState.restrict at hplan
  split at hplan
  · split at hplan
    · rcases applyDifficulty_ok hplan with rfl | ⟨want, rfl⟩
      · exact h
      · have hmem : ∀ x ∈ (order.filter fun x => decide (s'.kindOf x.1 = want)) ++
            order.filter (fun x => !decide (s'.kindOf x.1 = want)), x ∈ order := by
          intro x hx
          rcases List.mem_append.mp hx with hx | hx
          · exact List.mem_of_mem_filter hx
          · exact List.mem_of_mem_filter hx
        refine ⟨fun x hx => h.provider x (hmem x hx), fun x hx => h.model x (hmem x hx), fun n => ?_⟩
        rw [filter_name_partition (fun m => decide (s'.kindOf m = want)) order n]
        exact h.once n
    · obtain rfl := Except.ok.inj hplan
      exact h
  · obtain ⟨kept, hkept, hplan⟩ := ok_of_bind hplan
    split at hplan
    · cases hplan
    · obtain rfl := Except.ok.inj hplan
      rw [localOnly_ok hkept]
      exact h.sublist List.filter_sublist

theorem mem_of_ownerProblem_ok {policy : Option Policy} {owner model : String}
    (h : s.ownerProblem policy owner model = .ok ()) : owner ∈ s.providers.keys := by
  unfold ownerProblem at h
  split at h
  · cases h
  · rename_i hcontains
    rw [Bool.not_eq_true, Bool.not_eq_false'] at hcontains
    obtain ⟨p, hp⟩ := Option.isSome_iff_exists.mp hcontains
    exact Dict.mem_keys.mpr ⟨p, hp⟩

/-- **The candidates a policy lets through.** A request that pins no provider
and names no model of a registered one is given a plan that keeps to the policy in
effect. -/
theorem plan_confined (hpolicy : s.policyFor r = .ok (some policy))
    (hr : ∀ o, s.ownerOf S r.model = some o → o ∉ s.providers.keys)
    (h : (RouterState.plan S r none s).1 = .ok plan) :
    ∃ order, (planWithPolicy S r policy s).1 = .ok order ∧ Confined S s policy (order.headD "") plan := by
  obtain ⟨order, horder, hplan⟩ := Sync.ok_of_bind h
  obtain ⟨policy', hpolicy', horder⟩ := Sync.ok_of_bind horder
  obtain ⟨owner, howner, horder⟩ := Sync.ok_of_bind horder
  obtain rfl : some policy = policy' := Except.ok.inj (hpolicy.symm.trans hpolicy')
  obtain rfl : s.ownerOf S r.model = owner := Except.ok.inj howner
  cases ho : s.ownerOf S r.model with
  | some o =>
    -- the model is known, but its owner is not configured
    rw [ho] at horder
    obtain ⟨⟨⟩, hproblem, -⟩ := Sync.ok_of_bind horder
    have hproblem : s.ownerProblem (some policy) o (r.model.getD "") = .ok () := hproblem
    exact absurd (mem_of_ownerProblem_ok hproblem) (hr o ho)
  | none =>
    rw [ho] at horder
    obtain ⟨names, hnames, hconfined⟩ := planUnder_ok hr horder
    exact ⟨names, hnames, hconfined.restrict hplan⟩

theorem screen_sublist {preferred : Option String} {l : List (String × CompletionRequest)}
    (h : (screen S r preferred s).1 = .ok l) :
    ∃ plan, (RouterState.plan S r preferred s).1 = .ok plan ∧ (l.map fun y => (y.1, y.2.model)).Sublist plan := by
  obtain ⟨plan, hplan, hscreened⟩ := Sync.ok_of_bind h
  exact ⟨plan, hplan, screened_sublist S hscreened⟩

end RouterState

end Caips.Coreai
