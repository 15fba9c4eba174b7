/-
Caips.Coreai.PlannerChain — the order of a policy that pins its providers.

The ranking of `_rank_for_policy` is the eligible providers, each before those
that rank after it (`ranked_pairwise`): the slow ones last, by score, and by
registration where scores are equal. The chain of a policy follows the first
provider of this ranking, be it the pinned one or not (`chain_order`).
-/
import Caips.Coreai.PlannerPolicy

namespace Caips.Coreai

open Caips.Logic Caips.Providers

namespace RouterState

variable {S : Setup} {s : RouterState} {r : CompletionRequest} {policy : Policy}

/-! ## Who is eligible -/

/-- The breaker of `name` would allow a call. -/
def admits (s : RouterState) (name : String) : Bool :=
  match s.breakers.get? name with
  | some b => ((s.breakerAt b).wouldAllow s.now).1
  | none => false

/-- The eligible providers: registered, not excluded by the policy, and with a breaker that would allow a call. -/
def available (s : RouterState) (policy : Policy) : List String :=
  s.providers.keys.filter fun n => !excluded policy n && s.admits n

theorem admits_of_peeks {s' : RouterState} (h : Peeks s s') (name : String) : s'.admits name = s.admits name := by
  unfold admits
  rw [h.breakers_eq, h.now_eq]
  split
  · rename_i b _
    obtain heq | heq := h.breaker b
    · rw [heq]
    · rw [heq, CircuitBreaker.wouldAllow_refresh]
  · rfl

theorem eligibleFor_eq : ∀ {names : List String} {s : RouterState} {eligible blocked : List String},
    (eligibleFor policy names s).1 = .ok (eligible, blocked) →
      eligible = names.filter fun n => !excluded policy n && s.admits n
  | [], s, eligible, blocked, h => (Prod.mk.inj (Except.ok.inj h)).1.symm
  | n :: rest, s, eligible, blocked, h => by
      unfold eligibleFor at h
      split at h
      · rename_i hexcluded
        rw [List.filter_cons_of_neg (by simp [hexcluded])]
        exact eligibleFor_eq h
      · rename_i hexcluded
        obtain ⟨b, hb, h⟩ := Sync.ok_of_bind h
        obtain ⟨ok, hok, h⟩ := Sync.ok_of_bind h
        obtain ⟨⟨eligible', blocked'⟩, hrest, h⟩ := Sync.ok_of_bind h
        have hallow : s.admits n = ok := by
          rw [admits, get?_of_lookup hb]
          exact Except.ok.inj hok
        have hrest' : eligible' = rest.filter fun n => !excluded policy n && s.admits n := by
          rw [eligibleFor_eq hrest]
          exact List.filter_congr fun m _ => congrArg (!excluded policy m && ·) (admits_of_peeks (s.peeks_wouldAllow b) m)
        cases ok with
        | false =>
          obtain ⟨rfl, -⟩ := Prod.mk.inj (Except.ok.inj h)
          rw [List.filter_cons_of_neg (by simp [hallow])]
          exact hrest'
        | true =>
          obtain ⟨rfl, -⟩ := Prod.mk.inj (Except.ok.inj h)
          rw [List.filter_cons_of_pos (by simp [hallow, hexcluded]), hrest']

/-! ## The ranking -/

section Stable

variable {α : Type}

theorem pair_sublist_of_mem {a b : α} (hab : a ≠ b) : ∀ {l : List α}, a ∈ l → b ∈ l → [a, b].Sublist l ∨ [b, a].Sublist l
  | x :: l, ha, hb => by
      obtain rfl | hal := List.mem_cons.mp ha
      · have hbl : b ∈ l := (List.mem_cons.mp hb).resolve_left hab.symm
        exact .inl ((List.singleton_sublist.mpr hbl).cons_cons a)
      · obtain rfl | hbl := List.mem_cons.mp hb
        · exact .inr ((List.singleton_sublist.mpr hal).cons_cons b)
        · exact (pair_sublist_of_mem hab hal hbl).imp (·.cons x) (·.cons x)

theorem not_pair_sublist {a b : α} : ∀ {l : List α}, l.Nodup → [a, b].Sublist l → ¬[b, a].Sublist l
  | x :: l, hn, hab, hba => by
      obtain ⟨hx, hl⟩ := List.nodup_cons.mp hn
      cases hab with
      | cons _ hab =>
        cases hba with
        | cons _ hba => exact not_pair_sublist hl hab hba
        | cons_cons _ hba => exact hx (hab.subset (by simp))
      | cons_cons _ hab =>
        cases hba with
        | cons _ hba => exact hx (hba.subset (by simp))
        | cons_cons _ hba => exact hx (List.singleton_sublist.mp hab)

end Stable

/-- The score of a provider among others. -/
def scoreIn (scores : List (String × ℚ)) (name : String) : ℚ := (scores.lookup name).getD 0

theorem scoreIn_of_mem {scores : List (String × ℚ)} (hn : (scores.map Prod.fst).Nodup) {x : String × ℚ} (hx : x ∈ scores) :
    scoreIn scores x.1 = x.2 := by
  induction scores with
  | nil => cases hx
  | cons y scores ih =>
    obtain ⟨name, score⟩ := y
    obtain ⟨hname, hrest⟩ := List.nodup_cons.mp hn
    obtain rfl | hmem := List.mem_cons.mp hx
    · simp [scoreIn]
    · have hne : (x.1 == name) = false := by
        rw [beq_eq_false_iff_ne]
        rintro rfl
        exact hname (List.mem_map.mpr ⟨x, hmem, rfl⟩)
      simp only [scoreIn, List.lookup_cons, hne]
      exact ih hrest hmem

/-- The sorted providers are in the order of their scores, and where these are equal in the order they came in. -/
theorem sortByScore_pairwise {scores : List (String × ℚ)} (hn : (scores.map Prod.fst).Nodup) :
    (sortByScore scores).Pairwise fun n m =>
      scoreIn scores n < scoreIn scores m ∨ scoreIn scores n = scoreIn scores m ∧ [n, m].Sublist (scores.map Prod.fst) := by
  let le : String × ℚ → String × ℚ → Prop := fun a b => a.2 ≤ b.2
  have hsorted : (scores.insertionSort le).Pairwise le := by
    have : Std.Total le := ⟨fun a b => le_total a.2 b.2⟩
    have : IsTrans (String × ℚ) le := ⟨fun a b c => le_trans⟩
    exact List.pairwise_insertionSort le scores
  have hperm := List.perm_insertionSort le scores
  have hnodup : (scores.insertionSort le).Nodup := hperm.nodup_iff.mpr (List.Nodup.of_map _ hn)
  rw [sortByScore, List.pairwise_map]
  refine List.pairwise_of_forall_sublist fun {a b} hab => ?_
  have hle : le a b := List.pairwise_pair.mp (hsorted.sublist hab)
  have ha : a ∈ scores := hperm.mem_iff.mp (hab.subset (by simp))
  have hb : b ∈ scores := hperm.mem_iff.mp (hab.subset (by simp))
  rw [scoreIn_of_mem hn ha, scoreIn_of_mem hn hb]
  obtain hlt | heq := lt_or_eq_of_le hle
  · exact .inl hlt
  · have hne : a ≠ b := by
      rintro rfl
      exact absurd (hnodup.sublist hab) (by simp)
    obtain hfirst | hfirst := pair_sublist_of_mem hne ha hb
    · exact .inr ⟨heq, hfirst.map Prod.fst⟩
    · -- a stable sort would have kept the two in that order
      have hle' : le b a := heq.ge
      exact absurd (List.pair_sublist_insertionSort hle' hfirst) (not_pair_sublist hnodup hab)

/-- The scores a policy ranks its eligible providers by. -/
def scoreOf (S : Setup) (s : RouterState) (r : CompletionRequest) (policy : Policy) (name : String) : ℚ :=
  match s.policyScores S r policy (s.available policy) with
  | .ok scores => scoreIn scores name
  | .error _ => 0

/-- The median latency is above the policy's ceiling. -/
def slow (s : RouterState) (policy : Policy) (name : String) : Bool :=
  match policy.latencyCeilingMs, s.p50Latency name with
  | some ceiling, .ok latency => decide (ceiling < latency.getD 0)
  | _, _ => false

/-- A provider ranks before another one: it is not slow where the other one is, or has a lower
score, or was registered earlier. -/
def Before (S : Setup) (s : RouterState) (r : CompletionRequest) (policy : Policy) (n m : String) : Prop :=
  (s.slow policy n = false ∧ s.slow policy m = true) ∨
  (s.slow policy n = s.slow policy m ∧
    (s.scoreOf S r policy n < s.scoreOf S r policy m ∨
      s.scoreOf S r policy n = s.scoreOf S r policy m ∧ [n, m].Sublist (s.available policy)))

theorem available_nodup (s : RouterState) (policy : Policy) : (s.available policy).Nodup :=
  s.providers.nodup.filter _

theorem Before.asymm {n m : String} (h : Before S s r policy n m) : ¬Before S s r policy m n := by
  intro h'
  obtain ⟨hn, hm⟩ | ⟨hslow, hscore⟩ := h
  · obtain ⟨hm', -⟩ | ⟨hslow, -⟩ := h'
    · exact absurd (hm'.symm.trans hm) (by decide)
    · exact absurd (hm.symm.trans (hslow.trans hn)) (by decide)
  · obtain ⟨hm, hn⟩ | ⟨-, hscore'⟩ := h'
    · exact absurd (hm.symm.trans (hslow.symm.trans hn)) (by decide)
    · obtain hlt | ⟨heq, hsub⟩ := hscore
      · obtain hlt' | ⟨heq', -⟩ := hscore'
        · exact lt_asymm hlt hlt'
        · exact absurd heq' hlt.ne'
      · obtain hlt' | ⟨-, hsub'⟩ := hscore'
        · exact absurd heq hlt'.ne'
        · exact not_pair_sublist (s.available_nodup policy) hsub hsub'

/-- The providers within the ceiling are those that are not slow. -/
theorem within_eq {ceiling : ℚ} {ordered : List String} {rows : List (String × ℚ)} (hceiling : policy.latencyCeilingMs = some ceiling)
    (h : ordered.mapM (fun n => do return (n, (← s.p50Latency n).getD 0)) = .ok rows) :
    (rows.filter fun x => x.2 ≤ ceiling).map Prod.fst = ordered.filter fun n => !s.slow policy n := by
  have hall := forall₂_of_mapM h
  clear h
  induction hall with
  | nil => rfl
  | @cons n row ordered rows hrow _ ih =>
    obtain ⟨latency, hlatency, hrow⟩ := ok_of_bind hrow
    obtain rfl := Except.ok.inj hrow
    have hslow : s.slow policy n = decide (ceiling < latency.getD 0) := by simp [slow, hceiling, hlatency]
    by_cases hle : latency.getD 0 ≤ ceiling
    · have hfast : (!s.slow policy n) = true := by simp [hslow, hle]
      rw [List.filter_cons_of_pos (by simpa using hle), List.map_cons, ih, List.filter_cons_of_pos (by exact hfast)]
    · have hover : ¬(!s.slow policy n) = true := by simpa [hslow] using not_le.mp hle
      rw [List.filter_cons_of_neg (by simpa using hle), ih, List.filter_cons_of_neg (by exact hover)]

variable {ranked : List String}

/-- The ranking of an explicit policy has all eligible providers, each before those that rank after it. -/
theorem ranked_pairwise (hstrategy : policy.strategy = .explicit)
    (h : s.rankForPolicy S r policy (s.available policy) = .ok ranked) :
    ranked.Perm (s.available policy) ∧ ranked.Pairwise (Before S s r policy) := by
  unfold rankForPolicy at h
  rw [hstrategy] at h
  obtain ⟨scores, hscores, h⟩ := ok_of_bind h
  have hnames := policyScores_ok hscores
  have hn : (scores.map Prod.fst).Nodup := hnames ▸ s.available_nodup policy
  have hscoreOf : s.scoreOf S r policy = scoreIn scores := by
    funext name
    rw [scoreOf, hscores]
  have hsorted := sortByScore_pairwise hn
  rw [hnames, ← hscoreOf] at hsorted
  have hperm : (sortByScore scores).Perm (s.available policy) := by
    rw [← hnames]
    exact (List.perm_insertionSort _ scores).map Prod.fst
  dsimp only at h
  cases hceiling : policy.latencyCeilingMs with
  | none =>
    rw [hceiling] at h
    obtain rfl := Except.ok.inj h
    have hslow : ∀ n, s.slow policy n = false := fun n => by simp [slow, hceiling]
    exact ⟨hperm, hsorted.imp fun h => .inr ⟨by rw [hslow, hslow], h⟩⟩
  | some ceiling =>
    rw [hceiling] at h
    obtain ⟨rows, hrows, h⟩ := ok_of_bind h
    obtain rfl := Except.ok.inj h
    have hlast : (sortByScore scores).filter (· ∉ (sortByScore scores).filter fun n => !s.slow policy n) =
        (sortByScore scores).filter fun n => s.slow policy n := by
      refine List.filter_congr fun n hn => ?_
      simp [List.mem_filter, hn]
    rw [within_eq hceiling hrows, hlast]
    constructor
    · have hsplit := List.filter_append_perm (fun n => !s.slow policy n) (sortByScore scores)
      simp only [Bool.not_not] at hsplit
      exact hsplit.trans hperm
    · have hpart : ∀ b, ((sortByScore scores).filter fun n => s.slow policy n == b).Pairwise (Before S s r policy) := by
        intro b
        refine (hsorted.filter _).imp_of_mem fun hn hm h => .inr ⟨?_, h⟩
        have hn' := (List.mem_filter.mp hn).2
        have hm' := (List.mem_filter.mp hm).2
        exact (eq_of_beq hn').trans (eq_of_beq hm').symm
      refine List.pairwise_append.mpr ⟨by simpa using hpart false, by simpa using hpart true, fun n hn m hm => .inl ⟨?_, ?_⟩⟩
      · simpa using (List.mem_filter.mp hn).2
      · exact (List.mem_filter.mp hm).2

theorem rankForPolicy_congr {s' : RouterState} (h : Peeks s s') (hpins : policy.Pins) (eligible : List String) :
    s'.rankForPolicy S r policy eligible = s.rankForPolicy S r policy eligible := by
  have hp50 : s'.p50Latency = s.p50Latency := by
    funext n
    simp only [p50Latency, h.providerStats_eq]
  have hraw : s'.rawScore S r = s.rawScore S r := by
    funext n
    simp only [rawScore, rawCost, healthOf, hp50, h.providers_eq, h.health_eq, h.now_eq]
  have hscores : s'.policyScores S r policy eligible = s.policyScores S r policy eligible := by
    simp only [policyScores, balancedScores, hp50, hraw]
  obtain hstrategy | hstrategy := hpins
  · simp only [rankForPolicy, hstrategy, hscores, hp50]
  · simp only [rankForPolicy, hstrategy]

/-! ## The order -/

/-- The order without the second try of the first provider. -/
def withoutRepeat : List String → List String
  | n :: m :: rest => if n = m then n :: rest else n :: m :: rest
  | order => order

theorem withoutRepeat_of_nodup {order : List String} (h : order.Nodup) : withoutRepeat order = order := by
  unfold withoutRepeat
  split
  · rename_i n m rest
    have hne : n ≠ m := by
      rintro rfl
      simp at h
    rw [if_neg hne]
  · rfl

/-- Where a policy pins its providers, its models only let the first one be tried again. -/
theorem withoutRepeat_applyPolicyModels {order eligible : List String} (hpins : policy.Pins) (h : order.Nodup) :
    withoutRepeat (s.applyPolicyModels S policy order eligible) = order := by
  have hunchained : unchained policy = false := by
    obtain hstrategy | hstrategy := hpins
    · simp [unchained, hstrategy]
    · simp [unchained, hstrategy]
  have hfirst : s.modelOwnerFirst S policy order eligible = order := by
    unfold modelOwnerFirst
    split
    · simp [hunchained]
    · rfl
  unfold applyPolicyModels
  simp only [hfirst, hunchained, Bool.false_eq_true, or_false]
  split
  · rename_i head tail o _
    split
    · rename_i ho
      obtain ⟨hhead, htail⟩ := List.nodup_cons.mp h
      rw [ho.2.2.2, withoutRepeat, if_pos rfl, List.filter_eq_self.mpr]
      intro n hn
      have hne : n ≠ head := fun heq => hhead (heq ▸ hn)
      simpa using hne
    · exact withoutRepeat_of_nodup h
  · exact withoutRepeat_of_nodup h

/-- The provider an explicit policy pins. -/
def pinned (policy : Policy) : Option String :=
  if policy.strategy = .explicit ∧ policy.provider.getD "" ≠ "" then policy.provider else none

/-- The order the policy says: the pinned provider, if it is eligible, and then those of the chain. -/
def chainOrder (s : RouterState) (policy : Policy) : List String :=
  (pinned policy).toList.filter (· ∈ s.available policy) ++
    policy.fallbackChain.filter fun n => decide (n ∈ s.available policy) && decide (some n ≠ pinned policy)

/-- The first eligible provider of the chain ranks before the other eligible ones (a provider
without a name is never taken for the first one if the policy names none). -/
def ChainLeads (S : Setup) (s : RouterState) (r : CompletionRequest) (policy : Policy) : Prop :=
  ∀ first ∈ (policy.fallbackChain.filter (· ∈ s.available policy)).head?, ∀ m ∈ s.available policy,
    m ≠ policy.provider.getD "" → m ≠ first → first ≠ policy.provider.getD "" ∧ Before S s r policy first m

/-- What `_plan_with_policy` plans, for a request without a model and with failover. -/
theorem planWithPolicy_order {order : List String} (hpins : policy.Pins) (hmodel : r.model = none)
    (hfailover : S.config.enableFailover = true) (h : (planWithPolicy S r policy s).1 = .ok order) :
    ∃ ranked, s.rankForPolicy S r policy (s.available policy) = .ok ranked ∧
      withoutRepeat order = followChain policy (s.available policy) (pinFirst policy (s.available policy) ranked) := by
  obtain ⟨eligible, blocked, ranked, order', s₁, s₂, heligible, hpeeks, hranked, -, rfl, rfl⟩ := planWithPolicy_cases h
  obtain rfl : eligible = s.available policy := eligibleFor_eq heligible
  have hranked' : s.rankForPolicy S r policy (s.available policy) = .ok ranked :=
    (rankForPolicy_congr hpeeks hpins _).symm.trans hranked
  have hpicks : Picks (s.available policy) (followChain policy (s.available policy) (pinFirst policy (s.available policy) ranked)) :=
    followChain_picks (pinFirst_picks (rankForPolicy_ok (s.available_nodup policy) hranked'))
  refine ⟨ranked, hranked', ?_⟩
  simp only [hmodel, hfailover, Option.isSome_none, Bool.false_eq_true, Option.isNone_none, if_true, Bool.true_eq_false,
    or_self, if_false]
  exact withoutRepeat_applyPolicyModels hpins hpicks.nodup

theorem mem_chain_of_available {n : String} (hstrategy : policy.strategy = .explicit) (hn : n ∈ s.available policy)
    (hne : n ≠ policy.provider.getD "") : n ∈ policy.fallbackChain := by
  have hexcluded : excluded policy n = false := by
    have h := (List.mem_filter.mp hn).2
    simp only [Bool.and_eq_true, Bool.not_eq_true'] at h
    exact h.1
  obtain hprovider | hchain := chained_of_not_excluded hexcluded (.inl hstrategy)
  · exact absurd (by rw [← hprovider]; rfl) hne
  · exact hchain

/-- A name that is put in front of a list that has it stays there. -/
theorem cons_filter_eq_iff {n : String} {l : List String} (hl : l.Nodup) :
    n :: l.filter (· ∉ [n]) = l ↔ l.head? = some n := by
  constructor
  · intro h
    rw [← h]
    rfl
  · intro h
    obtain ⟨t, rfl⟩ := List.head?_eq_some_iff.mp h
    obtain ⟨hn, -⟩ := List.nodup_cons.mp hl
    have ht : t.filter (· ∉ [n]) = t := by
      rw [List.filter_eq_self]
      intro m hm
      have hne : m ≠ n := fun heq => hn (heq ▸ hm)
      simpa using hne
    rw [List.filter_cons_of_neg (by simp), ht]

/-- The chain behind the first provider of a ranking is in order if and only if that provider is its first one. -/
theorem followChain_eq_iff (hstrategy : policy.strategy = .explicit)
    (hperm : ranked.Perm (s.available policy)) (hranked : ranked.Pairwise (Before S s r policy)) :
    followChain policy (s.available policy) (ranked.filter (· ≠ policy.provider.getD "")) =
        policy.fallbackChain.filter (· ∈ s.available policy) ↔ ChainLeads S s r policy := by
  have hmem : ∀ n, n ∈ ranked.filter (· ≠ policy.provider.getD "") ↔ n ∈ s.available policy ∧ n ≠ policy.provider.getD "" := by
    intro n
    rw [List.mem_filter, hperm.mem_iff, decide_eq_true_iff]
  have hpairwise := hranked.filter (· ≠ policy.provider.getD "")
  have hnodup : (policy.fallbackChain.filter (· ∈ s.available policy)).Nodup := policy.chain_nodup.filter _
  unfold ChainLeads
  by_cases hchain : policy.fallbackChain = []
  · -- then there is nobody else
    have hnone : ranked.filter (· ≠ policy.provider.getD "") = [] := by
      rw [List.eq_nil_iff_forall_not_mem]
      intro n hn
      obtain ⟨hn, hne⟩ := (hmem n).mp hn
      have hin := mem_chain_of_available hstrategy hn hne
      simp [hchain] at hin
    rw [hnone]
    simp [followChain, hchain]
  · have hfollow : ∀ l, followChain policy (s.available policy) l =
        l.take 1 ++ (policy.fallbackChain.filter (· ∈ s.available policy)).filter (· ∉ l.take 1) := by
      intro l
      rw [followChain, if_pos ⟨by simpa using hchain, by simp [hstrategy]⟩]
    rw [hfollow]
    generalize ranked.filter (· ≠ policy.provider.getD "") = rest at hmem hpairwise
    cases rest with
    | nil =>
      refine ⟨fun _ first _ m hm hne => absurd ((hmem m).mpr ⟨hm, hne⟩) List.not_mem_nil, fun _ => ?_⟩
      simp
    | cons n rest =>
      obtain ⟨hn, hne⟩ := (hmem n).mp (List.mem_cons_self ..)
      have hin : n ∈ policy.fallbackChain.filter (· ∈ s.available policy) :=
        List.mem_filter.mpr ⟨mem_chain_of_available hstrategy hn hne, by simpa using hn⟩
      rw [List.take_succ_cons, List.take_zero, List.singleton_append, cons_filter_eq_iff hnodup]
      constructor
      · intro hhead first hfirst m hm hmne hmfirst
        obtain rfl : n = first := Option.some.inj (hhead.symm.trans hfirst)
        refine ⟨hne, ?_⟩
        obtain rfl | hrest := List.mem_cons.mp ((hmem m).mpr ⟨hm, hmne⟩)
        · exact absurd rfl hmfirst
        · exact (List.pairwise_cons.mp hpairwise).1 m hrest
      · intro hleads
        obtain ⟨first, tail, hcons⟩ := List.exists_cons_of_ne_nil (List.ne_nil_of_mem hin)
        rw [hcons] at hleads ⊢
        by_contra hother
        have hnfirst : n ≠ first := fun heq => hother (congrArg some heq.symm)
        obtain ⟨hfirst, hbefore⟩ := hleads first rfl n hn hne hnfirst
        have hfirst' : first ∈ s.available policy := by
          have hmemfirst : first ∈ policy.fallbackChain.filter (· ∈ s.available policy) := by simp [hcons]
          simpa using (List.mem_filter.mp hmemfirst).2
        obtain rfl | hrest := List.mem_cons.mp ((hmem first).mpr ⟨hfirst', hfirst⟩)
        · exact hnfirst rfl
        · exact ((List.pairwise_cons.mp hpairwise).1 first hrest).asymm hbefore

theorem pinned_eq_some {pin : String} (h : pinned policy = some pin) :
    policy.strategy = .explicit ∧ policy.provider = some pin ∧ pin ≠ "" := by
  unfold pinned at h
  split at h
  · rename_i hgiven
    refine ⟨hgiven.1, h, ?_⟩
    have hne := hgiven.2
    rwa [h, Option.getD_some] at hne
  · cases h

/-- An eligible pinned provider is the first, and the chain comes after it. -/
theorem order_of_pinned {pin : String} (hpinned : pinned policy = some pin)
    (hpin : pin ∈ s.available policy) (hranked : ∀ n ∈ ranked, n ∈ s.available policy) :
    followChain policy (s.available policy) (pinFirst policy (s.available policy) ranked) = chainOrder s policy := by
  obtain ⟨hstrategy, hprovider, hne⟩ := pinned_eq_some hpinned
  have hname : policy.provider.getD "" = pin := by rw [hprovider, Option.getD_some]
  have hfirst : pinFirst policy (s.available policy) ranked = pin :: ranked.filter (· ≠ pin) := by
    simp only [pinFirst, hname]
    rw [if_pos ⟨hstrategy, hpin⟩, if_neg hne, List.singleton_append]
  have horder : chainOrder s policy =
      pin :: policy.fallbackChain.filter fun n => decide (n ∈ s.available policy) && decide (n ≠ pin) := by
    simp [chainOrder, hpinned, hpin]
  rw [hfirst, horder]
  by_cases hchain : policy.fallbackChain = []
  · have hnone : ranked.filter (· ≠ pin) = [] := by
      rw [List.eq_nil_iff_forall_not_mem]
      intro n hn
      obtain ⟨hn, hother⟩ := List.mem_filter.mp hn
      have hin := mem_chain_of_available hstrategy (hranked n hn) (by simpa [hname] using hother)
      simp [hchain] at hin
    rw [hnone]
    simp [followChain, hchain]
  · rw [followChain, if_pos ⟨by simpa using hchain, by simp [hstrategy]⟩]
    simp only [List.take_succ_cons, List.take_zero, List.singleton_append, List.filter_filter, List.mem_singleton]
    congr 1
    exact List.filter_congr fun n _ => Bool.and_comm _ _

/-- Without an eligible pinned provider, the one that is named is not the first. -/
theorem pinFirst_of_not_pinned (hstrategy : policy.strategy = .explicit)
    (hpin : ¬∃ pin, pinned policy = some pin ∧ pin ∈ s.available policy) (hranked : ∀ n ∈ ranked, n ∈ s.available policy) :
    pinFirst policy (s.available policy) ranked = ranked.filter (· ≠ policy.provider.getD "") := by
  simp only [pinFirst, hstrategy, true_and]
  split
  · rename_i hin
    have hempty : policy.provider.getD "" = "" := by
      by_contra hne
      cases hprovider : policy.provider with
      | none => simp [hprovider] at hne
      | some pin =>
        refine hpin ⟨pin, ?_, by simpa [hprovider] using hin⟩
        rw [pinned, if_pos ⟨hstrategy, hne⟩, hprovider]
    rw [if_pos hempty, List.nil_append]
  · rename_i hout
    rw [List.filter_eq_self.mpr]
    intro n hn
    have hne : n ≠ policy.provider.getD "" := fun heq => hout (heq ▸ hranked n hn)
    simpa using hne

theorem chainOrder_of_not_pinned (hpin : ¬∃ pin, pinned policy = some pin ∧ pin ∈ s.available policy) :
    chainOrder s policy = policy.fallbackChain.filter (· ∈ s.available policy) := by
  have hnone : (pinned policy).toList.filter (· ∈ s.available policy) = [] := by
    cases hpinned : pinned policy with
    | none => rfl
    | some pin =>
      have hout : pin ∉ s.available policy := fun hin => hpin ⟨pin, hpinned, hin⟩
      simp [hout]
  rw [chainOrder, hnone, List.nil_append]
  refine List.filter_congr fun n _ => ?_
  by_cases hn : n ∈ s.available policy
  · have hne : some n ≠ pinned policy := fun heq => hpin ⟨n, heq.symm, hn⟩
    simp [hn, hne]
  · simp [hn]

/-- **The chain is followed as it is written**, for a policy that pins its providers and a request without
a model: where the policy is a fallback policy, where its pinned provider is eligible, and where the ranking
leads with the first eligible provider of the chain. -/
theorem chain_order {order : List String} (hpins : policy.Pins) (hmodel : r.model = none)
    (hfailover : S.config.enableFailover = true) (h : (planWithPolicy S r policy s).1 = .ok order) :
    withoutRepeat order = chainOrder s policy ↔
      policy.strategy = .fallback ∨ (∃ pin, pinned policy = some pin ∧ pin ∈ s.available policy) ∨ ChainLeads S s r policy := by
  obtain ⟨ranked, hranked, horder⟩ := planWithPolicy_order hpins hmodel hfailover h
  have hmem := (rankForPolicy_ok (s.available_nodup policy) hranked).mem
  rw [horder]
  obtain hstrategy | hstrategy := hpins
  · have hnot : policy.strategy ≠ .fallback := by simp [hstrategy]
    by_cases hpin : ∃ pin, pinned policy = some pin ∧ pin ∈ s.available policy
    · obtain ⟨pin, hpinned, hin⟩ := hpin
      exact ⟨fun _ => .inr (.inl ⟨pin, hpinned, hin⟩), fun _ => order_of_pinned hpinned hin hmem⟩
    · obtain ⟨hperm, hpairwise⟩ := ranked_pairwise hstrategy hranked
      rw [chainOrder_of_not_pinned hpin, pinFirst_of_not_pinned hstrategy hpin hmem, followChain_eq_iff hstrategy hperm hpairwise]
      simp [hnot, hpin]
  · -- the ranking of a fallback policy is its chain
    have hpinned : ¬∃ pin, pinned policy = some pin ∧ pin ∈ s.available policy := by
      rintro ⟨pin, hpinned, -⟩
      exact absurd ((pinned_eq_some hpinned).1.symm.trans hstrategy) (by decide)
    have hrank : ranked = policy.fallbackChain.filter (· ∈ s.available policy) := by
      simp only [rankForPolicy, hstrategy] at hranked
      exact (Except.ok.inj hranked).symm
    rw [chainOrder_of_not_pinned hpinned, hrank]
    simp [pinFirst, followChain, hstrategy]

/-- A policy that pins a provider and names two more. -/
def pinsC : Policy where
  name := "default"
  strategy := .explicit
  provider := some "c"
  fallbackChain := ["b", "a"]

def withoutC : RouterState := init {} [("a", { name := "a" }), ("b", { name := "b" })]

theorem chain_order_pinsC :
    withoutRepeat ["a", "b"] = chainOrder withoutC pinsC ↔
      pinsC.strategy = .fallback ∨ (∃ pin, pinned pinsC = some pin ∧ pin ∈ withoutC.available pinsC) ∨
        ChainLeads {} withoutC { messages := [] } pinsC :=
  chain_order (.inl rfl) rfl rfl (by decide +kernel)

/-- Without the pinned provider, the first one to try is not the first of the chain. -/
theorem chain_not_followed :
    (planWithPolicy {} { messages := [] } pinsC withoutC).1 = .ok ["a", "b"] ∧
      withoutRepeat ["a", "b"] ≠ chainOrder withoutC pinsC ∧ chainOrder withoutC pinsC = ["b", "a"] := by
  decide +kernel

end RouterState

end Caips.Coreai
