/-
Caips.Utils.EventsTheorems — when budget events fire exactly once per window.

`Clear` is what a call needs for it: the usage it adds to has not been dropped,
the status is read in the window of the call, a new window begins below the cost
seen last if anything was published before, and rounding does not move the cost
over the cap. `Inv` says of one subject what the watcher's memory then means: its
cost is the spend of the window it saw last, and it has fired exactly the kinds
reached there. `missed` is the run in which a new window begins with a
larger cost.
-/
import Caips.Utils.Events

namespace Caips.Utils

open Caips.Logic Caips.Coreai RouterState

namespace WatchedBudgets

variable {c c' : WatchedBudgets}

/-! ## The condition -/

/-- The cost the watcher sees after a call of `amount` in window `W`, when it looks in
window `V`. -/
def observed (c : WatchedBudgets) (subject : String) (amount : ℚ) (W V : Int) : ℚ :=
  if V = W then c.spend subject W + amount else 0

/-- What a call of a subject with limits `l` needs. -/
structure ClearCall (c : WatchedBudgets) (l : BudgetLimits) (subject : String) (amount called looked : ℚ) :
    Prop where
  /-- The usage of this window was not dropped. -/
  kept : c.callsIn subject (l.window called) ≠ [] →
    ∃ u, c.manager.usage.get? subject = some u ∧ u.windowStart = l.windowStart called
  /-- The watcher looks in the window of the call, or there is nothing to publish for it. -/
  inside : l.window looked = l.window called ∨
    ∀ kind x, threshold l kind = some x → c.spend subject (l.window called) + amount < x
  /-- A new window begins below the cost seen last, if anything was published. -/
  below : c.callsIn subject (l.window looked) = [] → ∀ old, c.seen.get? subject = some old →
    old.fired ≠ [] →
      roundTo (c.observed subject amount (l.window called) (l.window looked)) 6 < old.last
  /-- Rounding does not move the cost over the cap. -/
  rounding : ∀ cap, l.maxCostUsd = some cap →
    (cap ≤ roundTo (c.observed subject amount (l.window called) (l.window looked)) 6 ↔
      cap ≤ c.observed subject amount (l.window called) (l.window looked))

/-- What a call needs, if its subject has limits. -/
def Clear (c : WatchedBudgets) (i : Event) : Prop :=
  ∀ l, c.manager.limitsFor i.subject = some l →
    c.ClearCall l i.subject (max 0 i.costUsd) (c.now + i.d) (c.now + i.d + i.e)

/-! ## The pieces of a call -/

theorem callsIn_of_calls {k : CountedCall} (h : c'.calls = c.calls ++ [k]) (subject : String) (X : Int) :
    c'.callsIn subject X =
      c.callsIn subject X ++ if k.subject = subject ∧ k.window = X then [k] else [] := by
  unfold callsIn
  rw [h, List.filter_append]
  congr 1
  by_cases hk : k.subject = subject ∧ k.window = X
  · simp [hk]
  · rw [if_neg hk]
    simpa using hk

theorem spend_of_calls {k : CountedCall} (h : c'.calls = c.calls ++ [k]) (subject : String) (X : Int) :
    c'.spend subject X =
      c.spend subject X + if k.subject = subject ∧ k.window = X then k.amount else 0 := by
  unfold spend
  rw [callsIn_of_calls h, List.map_append, List.sum_append]
  split_ifs <;> simp

theorem spend_of_nil {subject : String} {X : Int} (h : c.callsIn subject X = []) :
    c.spend subject X = 0 := by
  simp [spend, h]

variable {l : BudgetLimits}

/-- What the operation does to the manager. -/
theorem count_manager (c : WatchedBudgets) (op : Operation) (subject : String) (costUsd : ℚ) (tokens : Int)
    (now : ℚ) (hl : c.manager.limitsFor subject = some l) :
    ∃ u : Usage, (c.count op subject costUsd tokens now).manager = c.manager.store subject u ∧
      u.windowStart = (c.manager.usageAt subject l now).windowStart ∧
      u.cost = (c.manager.usageAt subject l now).cost + max 0 costUsd := by
  unfold count
  cases op with
  | record =>
    dsimp only
    unfold BudgetManager.record
    rw [hl]
    exact ⟨_, rfl, rfl, rfl⟩
  | addUsage =>
    dsimp only
    unfold BudgetManager.addUsage
    rw [hl]
    exact ⟨_, rfl, rfl, rfl⟩

theorem windowStart_usageAt (m : BudgetManager) (subject : String) (l : BudgetLimits) (now : ℚ) :
    (m.usageAt subject l now).windowStart = l.windowStart now := by
  unfold BudgetManager.usageAt
  split
  · split_ifs with h
    · exact h
    · rfl
  · rfl

/-- The usage kept is that of `now`, or a new one starts. -/
theorem cost_usageAt {m : BudgetManager} {subject : String} {now : ℚ} :
    (∀ u, m.usage.get? subject = some u → u.windowStart = l.windowStart now →
      (m.usageAt subject l now).cost = u.cost) ∧
    ((∀ u, m.usage.get? subject = some u → u.windowStart ≠ l.windowStart now) →
      (m.usageAt subject l now).cost = 0) := by
  unfold BudgetManager.usageAt
  constructor
  · intro u hu hstart
    rw [hu]
    dsimp only
    rw [if_pos hstart]
  · intro hnone
    cases hu : m.usage.get? subject with
    | none => rfl
    | some u =>
      dsimp only
      rw [if_neg (hnone u hu)]

/-- The cost a threshold of this kind is compared with. -/
def compared (kind : AlertKind) (cost : ℚ) : ℚ :=
  match kind with
  | .warning => cost
  | .exceeded => roundTo cost 6

/-- What one call does, for a subject with limits. -/
structure Watch (c c' : WatchedBudgets) (l : BudgetLimits) (s : String) (amount called looked : ℚ) :
    Prop where
  calls : c'.calls = c.calls ++ [{ subject := s, amount := amount, window := l.window called }]
  usage : ∃ u v : Usage, c'.manager = (c.manager.store s u).store s v ∧
    v.windowStart = l.windowStart looked ∧
    v.cost = if l.windowStart called = l.windowStart looked then
      (c.manager.usageAt s l called).cost + amount else 0
  seen : ∀ v, c'.manager.usage.get? s = some v → ∃ fired kinds : List AlertKind,
    (fired = if roundTo v.cost 6 < ((c.seen.get? s).getD {}).last then []
      else ((c.seen.get? s).getD {}).fired) ∧
    c'.seen = c.seen.set s { last := roundTo v.cost 6, fired := fired ++ kinds } ∧
    (∀ kind, kind ∈ kinds ↔ kind ∉ fired ∧ ∃ x, threshold l kind = some x ∧ x ≤ compared kind v.cost) ∧
    ∀ s' kind X, c'.publishedIn s' kind X = c.publishedIn s' kind X +
      if s' = s ∧ X = l.window called ∧ kind ∈ kinds then 1 else 0

theorem mem_newKinds {st : BudgetStatus} {fired : List AlertKind} {cost : ℚ}
    (hwarning : st.warning = l.warnCostUsd.any (· ≤ cost)) (hlimit : st.limitCostUsd = l.maxCostUsd)
    (hused : st.usedCostUsd = roundTo cost 6) (kind : AlertKind) :
    kind ∈ newKinds st fired ↔ kind ∉ fired ∧ ∃ x, threshold l kind = some x ∧ x ≤ compared kind cost := by
  unfold newKinds
  rw [hwarning, hlimit, hused]
  cases kind with
  | warning => simp [threshold, compared, Option.any_eq_true, and_comm]
  | exceeded => simp [threshold, compared, Option.any_eq_true, and_comm]

theorem nodup_newKinds (st : BudgetStatus) (fired : List AlertKind) : (newKinds st fired).Nodup := by
  unfold newKinds
  cases st.warning && !fired.contains .warning <;>
    cases st.limitCostUsd.any (· ≤ st.usedCostUsd) && !fired.contains .exceeded <;> decide

/-- What is published at once counts for its subject and its window. -/
theorem publishedIn_append {l : List Published} {kinds : List AlertKind} (hnodup : kinds.Nodup)
    (f : AlertKind → Published) {s : String} {W : Int}
    (hf : ∀ k, (f k).kind = k ∧ (f k).subject = s ∧ (f k).window = W) (s' : String) (kind : AlertKind)
    (X : Int) :
    (l ++ kinds.map f).countP (fun p => p.subject == s' && p.kind == kind && p.window == X) =
      l.countP (fun p => p.subject == s' && p.kind == kind && p.window == X) +
        if s' = s ∧ X = W ∧ kind ∈ kinds then 1 else 0 := by
  rw [List.countP_append, List.countP_map]
  congr 1
  by_cases hfor : s' = s ∧ X = W
  · obtain ⟨rfl, rfl⟩ := hfor
    have hpred : ((fun p : Published => p.subject == s' && p.kind == kind && p.window == X) ∘ f) =
        fun k => k == kind := by
      funext k
      obtain ⟨hkind, hsubject, hwindow⟩ := hf k
      simp [hkind, hsubject, hwindow]
    rw [hpred]
    simp only [true_and]
    split_ifs with hmem
    · exact List.count_eq_one_of_mem hnodup hmem
    · exact List.count_eq_zero_of_not_mem hmem
  · rw [if_neg fun h => hfor ⟨h.1, h.2.1⟩, List.countP_eq_zero]
    intro k _ hk
    obtain ⟨-, hsubject, hwindow⟩ := hf k
    simp only [Function.comp_apply, Bool.and_eq_true, beq_iff_eq, hsubject, hwindow] at hk
    exact hfor ⟨hk.1.1.symm, hk.2.symm⟩

theorem step_cases {i : Event} (h : c.step i = some c') :
    (0 ≤ i.d ∧ 0 ≤ i.e ∧ 0 ≤ i.f) ∧ c'.now = c.now + i.d + i.e + i.f ∧
    ((c.manager.limitsFor i.subject = none ∧ c'.manager = c.manager ∧ c'.seen = c.seen ∧
        c'.published = c.published ∧ c'.calls = c.calls) ∨
      ∃ l, c.manager.limitsFor i.subject = some l ∧
        c.Watch c' l i.subject (max 0 i.costUsd) (c.now + i.d) (c.now + i.d + i.e)) := by
  obtain ⟨hclock, h⟩ := Option.ite_none_right_eq_some.mp h
  obtain rfl := Option.some.inj h
  refine ⟨hclock, rfl, ?_⟩
  cases hl : c.manager.limitsFor i.subject with
  | none =>
    left
    have hcount : c.count i.op i.subject i.costUsd i.tokens (c.now + i.d) = c := by
      unfold count
      rw [hl]
      cases i.op <;> simp [BudgetManager.record, BudgetManager.addUsage, hl]
    rw [hcount]
    unfold check BudgetManager.status
    rw [hl]
    exact ⟨rfl, rfl, rfl, rfl, rfl⟩
  | some l =>
    right
    refine ⟨l, rfl, ?_⟩
    obtain ⟨u, hmanager, hstart, hcost⟩ :=
      c.count_manager i.op i.subject i.costUsd i.tokens (c.now + i.d) hl
    generalize hcalled : c.count i.op i.subject i.costUsd i.tokens (c.now + i.d) = called at hmanager ⊢
    have hcalls : called.calls = c.calls ++
        [{ subject := i.subject, amount := max 0 i.costUsd, window := l.window (c.now + i.d) }] := by
      rw [← hcalled]
      unfold count
      rw [hl]
    have hrest : called.seen = c.seen ∧ called.published = c.published := by
      rw [← hcalled]
      exact ⟨rfl, rfl⟩
    have hlimits : called.manager.limitsFor i.subject = some l := by
      rw [hmanager, BudgetManager.limitsFor_store, hl]
    have hkept : called.manager.usage.get? i.subject = some u := by
      rw [hmanager, BudgetManager.get?_store_self]
    set v := called.manager.usageAt i.subject l (c.now + i.d + i.e) with hv
    have hvcost : v.cost = if l.windowStart (c.now + i.d) = l.windowStart (c.now + i.d + i.e) then
        (c.manager.usageAt i.subject l (c.now + i.d)).cost + max 0 i.costUsd else 0 := by
      rw [windowStart_usageAt] at hstart
      split_ifs with hsame
      · rw [hv, cost_usageAt.1 u hkept (hstart.trans hsame), hcost]
      · refine cost_usageAt.2 fun u' hu' => ?_
        rw [← Option.some.inj (hkept.symm.trans hu'), hstart]
        exact hsame
    unfold check BudgetManager.status
    rw [hlimits]
    dsimp only
    rw [← hv]
    refine ⟨hcalls, ⟨u, v, by rw [hmanager], windowStart_usageAt _ _ _ _, hvcost⟩, fun v' hv' => ?_⟩
    rw [BudgetManager.get?_store_self] at hv'
    obtain rfl := Option.some.inj hv'
    rw [hrest.1]
    refine ⟨_, _, rfl, rfl, mem_newKinds rfl rfl rfl, fun s' kind X => ?_⟩
    rw [Option.elim_some]
    unfold publishedIn
    dsimp only
    rw [hrest.2]
    refine publishedIn_append (nodup_newKinds _ _) _ ?_ s' kind X
    exact fun _ => ⟨rfl, rfl, rfl⟩

/-! ## The invariant of one subject -/

/-- What the watcher's memory of a subject means. -/
structure Inv (c : WatchedBudgets) (s : String) (l : BudgetLimits) : Prop where
  past : ∀ X, c.callsIn s X ≠ [] → X ≤ l.window c.now
  spend_nonneg : ∀ X, 0 ≤ c.spend s X
  usage : ∀ u, c.manager.usage.get? s = some u → ∃ X ≤ l.window c.now,
    u.windowStart = l.windowSeconds * (X : ℚ) ∧ u.cost = c.spend s X
  unseen : c.seen.get? s = none → ∀ X, c.callsIn s X = []
  seen : ∀ x, c.seen.get? s = some x → ∃ X ≤ l.window c.now, (∀ Y, c.callsIn s Y ≠ [] → Y ≤ X) ∧
    x.last = roundTo (c.spend s X) 6 ∧ ∀ kind, kind ∈ x.fired ↔ c.Reached s l kind X
  published : ∀ kind X, (c.Reached s l kind X → c.publishedIn s kind X = 1) ∧
    (¬c.Reached s l kind X → c.publishedIn s kind X = 0)

theorem windowStart_eq_iff {x y : ℚ} :
    l.windowStart x = l.windowStart y ↔ l.window x = l.window y :=
  ⟨BudgetManager.windowStart_inj, fun h => by rw [BudgetLimits.windowStart, h, BudgetLimits.windowStart]⟩

section Step

variable {l : BudgetLimits} {s : String} {amount called looked : ℚ}

theorem Inv.cost_usageAt (h : c.Inv s l) (hclear : c.ClearCall l s amount called looked) :
    (c.manager.usageAt s l called).cost = c.spend s (l.window called) := by
  by_cases hkept : ∃ u, c.manager.usage.get? s = some u ∧ u.windowStart = l.windowStart called
  · obtain ⟨u, hu, hstart⟩ := hkept
    obtain ⟨X, -, hX, hcost⟩ := h.usage u hu
    obtain rfl : X = l.window called := BudgetManager.windowStart_inj (hX.symm.trans hstart)
    rw [WatchedBudgets.cost_usageAt.1 u hu hstart, hcost]
  · have hnil : c.callsIn s (l.window called) = [] := by
      by_contra hcalls
      exact hkept (hclear.kept hcalls)
    rw [spend_of_nil hnil]
    exact WatchedBudgets.cost_usageAt.2 fun u hu hstart => hkept ⟨u, hu, hstart⟩

/-- What the watcher remembers before a call, brought to the window it looks in. -/
theorem Inv.fired_iff (h : c.Inv s l) (hclear : c.ClearCall l s amount called looked)
    (hamount : 0 ≤ amount) (hnow : c.now ≤ called) (hcalled : called ≤ looked) {fired : List AlertKind}
    (hfired : fired = if roundTo (c.observed s amount (l.window called) (l.window looked)) 6 <
        ((c.seen.get? s).getD {}).last then [] else ((c.seen.get? s).getD {}).fired) (kind : AlertKind) :
    kind ∈ fired ↔ c.Reached s l kind (l.window looked) := by
  have hearlier : l.window c.now ≤ l.window called := BudgetManager.window_mono l hnow
  have hlater : l.window called ≤ l.window looked := BudgetManager.window_mono l hcalled
  by_cases hnil : c.callsIn s (l.window looked) = []
  · -- a new window: whatever was fired before is forgotten
    have hempty : fired = [] := by
      rw [hfired]
      cases hseen : c.seen.get? s with
      | none => exact ite_self _
      | some x =>
        by_cases hx : x.fired = []
        · simp [hx]
        · exact if_pos (hclear.below hnil x hseen hx)
    rw [hempty]
    exact ⟨fun h => (nomatch h), fun h => absurd hnil h.1⟩
  · -- the window the watcher looked in last
    cases hseen : c.seen.get? s with
    | none => exact absurd (h.unseen hseen _) hnil
    | some x =>
      obtain ⟨X, hX, hlast, hcost, hkinds⟩ := h.seen x hseen
      have hVX := hlast _ hnil
      have hXV : X = l.window looked := by omega
      have hVW : l.window looked = l.window called := by omega
      have hkeeps : ¬roundTo (c.observed s amount (l.window called) (l.window looked)) 6 < x.last := by
        rw [hcost, not_lt]
        refine roundTo_mono 6 ?_
        unfold observed
        rw [if_pos hVW, hXV, hVW]
        exact le_add_of_nonneg_right hamount
      rw [hfired, hseen, Option.getD_some, if_neg hkeeps, hkinds, hXV]

theorem ClearCall.compared_iff (hclear : c.ClearCall l s amount called looked) {kind : AlertKind} {x : ℚ}
    (hx : threshold l kind = some x) :
    x ≤ compared kind (c.observed s amount (l.window called) (l.window looked)) ↔
      x ≤ c.observed s amount (l.window called) (l.window looked) := by
  cases kind with
  | warning => exact Iff.rfl
  | exceeded => exact hclear.rounding x hx

/-- A call of the subject keeps what its memory means. -/
theorem Inv.watch (h : c.Inv s l) (hclear : c.ClearCall l s amount called looked) (hamount : 0 ≤ amount)
    (hnow : c.now ≤ called) (hcalled : called ≤ looked) (hlooked : looked ≤ c'.now)
    (hw : c.Watch c' l s amount called looked) : c'.Inv s l := by
  have hearlier : l.window c.now ≤ l.window called := BudgetManager.window_mono l hnow
  have hlater : l.window called ≤ l.window looked := BudgetManager.window_mono l hcalled
  have hlast : l.window looked ≤ l.window c'.now := BudgetManager.window_mono l hlooked
  have hcalls : ∀ X, c'.callsIn s X = c.callsIn s X ++
      if l.window called = X then [⟨s, amount, l.window called⟩] else [] := fun X => by
    rw [callsIn_of_calls hw.calls]
    simp
  have hspend : ∀ X, c'.spend s X = c.spend s X + if l.window called = X then amount else 0 := fun X => by
    rw [spend_of_calls hw.calls]
    simp
  have hnew : ∀ X, c'.callsIn s X ≠ [] → X ≤ l.window looked := by
    intro X hX
    rw [hcalls] at hX
    split_ifs at hX with hWX
    · omega
    · have hpast := h.past X (by simpa using hX)
      omega
  obtain ⟨u, v, hmanager, hvstart, hvcost⟩ := hw.usage
  have hget : c'.manager.usage.get? s = some v := by
    rw [hmanager, BudgetManager.get?_store_self]
  have hobserved : v.cost = c.observed s amount (l.window called) (l.window looked) := by
    rw [hvcost, h.cost_usageAt hclear]
    unfold observed
    simp only [windowStart_eq_iff, eq_comm]
  have hseenCost : v.cost = c'.spend s (l.window looked) := by
    rw [hobserved, hspend]
    unfold observed
    by_cases hWV : l.window looked = l.window called
    · rw [if_pos hWV, if_pos hWV.symm, hWV]
    · have hnil : c.callsIn s (l.window looked) = [] := by
        by_contra hne
        have hpast := h.past _ hne
        omega
      rw [if_neg hWV, if_neg (Ne.symm hWV), spend_of_nil hnil, add_zero]
  obtain ⟨fired, kinds, hfired, hseen, hkinds, hpublished⟩ := hw.seen v hget
  have hbefore := h.fired_iff hclear hamount hnow hcalled (hobserved ▸ hfired)
  have hmem : ∀ kind, kind ∈ kinds ↔ kind ∉ fired ∧ ∃ x, threshold l kind = some x ∧
      x ≤ c'.spend s (l.window looked) := by
    intro kind
    rw [hkinds, ← hseenCost, hobserved]
    refine and_congr_right fun _ => exists_congr fun x => and_congr_right fun hx => ?_
    exact hclear.compared_iff hx
  have hmore : ∀ X, c.spend s X ≤ c'.spend s X := by
    intro X
    rw [hspend]
    split_ifs
    · exact le_add_of_nonneg_right hamount
    · exact (add_zero _).ge
  -- in another window than the call's there is nothing to publish
  have hinside : l.window looked = l.window called ∨
      (c'.callsIn s (l.window looked) = [] ∧ kinds = [] ∧
        ∀ kind, ¬c'.Reached s l kind (l.window called)) := by
    rcases hclear.inside with hin | hbelow
    · exact .inl hin
    · by_cases hWV : l.window looked = l.window called
      · exact .inl hWV
      · right
        have hnil : c.callsIn s (l.window looked) = [] := by
          by_contra hne
          have hpast := h.past _ hne
          omega
        have hnil' : c'.callsIn s (l.window looked) = [] := by
          rw [hcalls, hnil, if_neg (Ne.symm hWV)]
          rfl
        refine ⟨hnil', List.eq_nil_iff_forall_not_mem.mpr fun kind hkind => ?_, fun kind hreached => ?_⟩
        · obtain ⟨-, x, hx, hle⟩ := (hmem kind).mp hkind
          have hsmall := hbelow kind x hx
          have hnonneg := h.spend_nonneg (l.window called)
          rw [spend_of_nil hnil'] at hle
          linarith
        · obtain ⟨-, x, hx, hle⟩ := hreached
          have hsmall := hbelow kind x hx
          rw [hspend, if_pos rfl] at hle
          linarith
  have hmono : ∀ kind X, c.Reached s l kind X → c'.Reached s l kind X := by
    rintro kind X ⟨hne, x, hx, hle⟩
    refine ⟨?_, x, hx, hle.trans (hmore X)⟩
    rw [hcalls]
    exact List.append_ne_nil_of_left_ne_nil hne _
  have hafter : ∀ kind, kind ∈ fired ++ kinds ↔ c'.Reached s l kind (l.window looked) := by
    intro kind
    rw [List.mem_append, hbefore]
    rcases hinside with hWV | ⟨hnil, hkindsNil, -⟩
    · have hne : c'.callsIn s (l.window looked) ≠ [] := by
        rw [hcalls, hWV, if_pos rfl]
        exact List.append_ne_nil_of_right_ne_nil _ (List.cons_ne_nil _ _)
      constructor
      · rintro (hold | hkind)
        · exact hmono kind _ hold
        · exact ⟨hne, ((hmem kind).mp hkind).2⟩
      · intro hreached
        by_cases hold : kind ∈ fired
        · exact .inl ((hbefore kind).mp hold)
        · exact .inr ((hmem kind).mpr ⟨hold, hreached.2⟩)
    · rw [hkindsNil]
      refine ⟨fun hor => ?_, fun hreached => absurd hnil hreached.1⟩
      rcases hor with hold | hkind
      · exact hmono kind _ hold
      · cases hkind
  have hsame : ∀ kind X, X ≠ l.window called → (c'.Reached s l kind X ↔ c.Reached s l kind X) := by
    intro kind X hX
    unfold Reached
    rw [hcalls, hspend, if_neg (Ne.symm hX), if_neg (Ne.symm hX), List.append_nil, add_zero]
  constructor
  case past => exact fun X hX => (hnew X hX).trans hlast
  case spend_nonneg => exact fun X => (h.spend_nonneg X).trans (hmore X)
  case usage =>
    intro v' hv'
    obtain rfl := Option.some.inj (hget.symm.trans hv')
    exact ⟨l.window looked, hlast, hvstart, hseenCost⟩
  case unseen =>
    intro hnone
    rw [hseen, Dict.get?_set_self] at hnone
    cases hnone
  case seen =>
    intro x hx
    rw [hseen, Dict.get?_set_self] at hx
    obtain rfl := Option.some.inj hx
    exact ⟨l.window looked, hlast, hnew, by rw [hseenCost], hafter⟩
  case published =>
    intro kind X
    rw [hpublished]
    by_cases hX : X = l.window called
    · subst hX
      rcases hinside with hWV | ⟨-, hkindsNil, hnot⟩
      · rw [← hWV, ← hafter]
        by_cases hkind : kind ∈ kinds
        · have hold : ¬c.Reached s l kind (l.window looked) := fun hreached =>
            ((hmem kind).mp hkind).1 ((hbefore kind).mpr hreached)
          rw [(h.published kind _).2 hold, if_pos ⟨rfl, rfl, hkind⟩]
          exact ⟨fun _ => rfl, fun hnone => absurd (List.mem_append_right _ hkind) hnone⟩
        · have hiff : kind ∈ fired ++ kinds ↔ c.Reached s l kind (l.window looked) := by
            rw [List.mem_append, hbefore]
            exact or_iff_left hkind
          rw [if_neg fun hand => hkind hand.2.2, hiff]
          exact h.published kind _
      · have hold : ¬c.Reached s l kind (l.window called) := fun hreached =>
          hnot kind (hmono kind _ hreached)
        rw [(h.published kind _).2 hold, hkindsNil, if_neg fun hand => nomatch hand.2.2]
        exact ⟨fun hreached => absurd hreached (hnot kind), fun _ => rfl⟩
    · rw [if_neg fun hand => hX hand.2.1, hsame kind X hX]
      exact h.published kind X

end Step

/-- What does not concern a subject keeps what its memory means. -/
theorem Inv.congr {s : String} (h : c.Inv s l) (hnow : c.now ≤ c'.now)
    (hcalls : ∀ X, c'.callsIn s X = c.callsIn s X)
    (husage : ∀ u, c'.manager.usage.get? s = some u → c.manager.usage.get? s = some u)
    (hseen : c'.seen.get? s = c.seen.get? s)
    (hpublished : ∀ kind X, c'.publishedIn s kind X = c.publishedIn s kind X) : c'.Inv s l := by
  have hlater : l.window c.now ≤ l.window c'.now := BudgetManager.window_mono l hnow
  have hspend : ∀ X, c'.spend s X = c.spend s X := fun X => by rw [spend, hcalls, spend]
  have hreached : ∀ kind X, c'.Reached s l kind X ↔ c.Reached s l kind X := fun kind X => by
    rw [Reached, hcalls, hspend, Reached]
  constructor
  case past =>
    intro X hX
    rw [hcalls] at hX
    exact (h.past X hX).trans hlater
  case spend_nonneg =>
    intro X
    rw [hspend]
    exact h.spend_nonneg X
  case usage =>
    intro u hu
    obtain ⟨X, hX, hstart, hcost⟩ := h.usage u (husage u hu)
    exact ⟨X, hX.trans hlater, hstart, by rw [hspend, hcost]⟩
  case unseen =>
    intro hnone X
    rw [hcalls]
    exact h.unseen (hseen ▸ hnone) X
  case seen =>
    intro x hx
    obtain ⟨X, hX, hlast, hcost, hkinds⟩ := h.seen x (hseen ▸ hx)
    refine ⟨X, hX.trans hlater, fun Y hY => ?_, by rw [hspend, hcost], fun kind => ?_⟩
    · rw [hcalls] at hY
      exact hlast Y hY
    · rw [hreached]
      exact hkinds kind
  case published =>
    intro kind X
    rw [hreached, hpublished]
    exact h.published kind X

/-- Every call that is clear keeps the invariant of every subject. -/
theorem Inv.step {i : Event} {s : String} (hl : c.manager.limitsFor s = some l)
    (h : c.Inv s l) (hclear : c.Clear i) (hstep : c.step i = some c') : c'.Inv s l := by
  obtain ⟨⟨hd, he, hf⟩, hnow, hcase⟩ := step_cases hstep
  have hlater : c.now ≤ c'.now := by linarith
  rcases hcase with ⟨-, hmanager, hseen, hpublished, hcalls⟩ | ⟨l', hl', hw⟩
  · refine h.congr hlater (fun X => ?_) (fun u hu => hmanager ▸ hu) (by rw [hseen]) fun kind X => ?_
    · rw [callsIn, hcalls, callsIn]
    · rw [publishedIn, hpublished, publishedIn]
  · by_cases hs : i.subject = s
    · subst hs
      obtain rfl := Option.some.inj (hl.symm.trans hl')
      exact h.watch (hclear l hl) (le_max_left _ _) (by linarith) (by linarith) (by linarith) hw
    · obtain ⟨u, v, hmanager, -⟩ := hw.usage
      have hget : c'.manager.usage.get? i.subject = some v := by
        rw [hmanager, BudgetManager.get?_store_self]
      obtain ⟨fired, kinds, -, hseen, -, hpublished⟩ := hw.seen v hget
      refine h.congr hlater (fun X => ?_) (fun w hv => ?_) ?_ fun kind X => ?_
      · rw [callsIn_of_calls hw.calls, if_neg fun hand => hs hand.1, List.append_nil]
      · rw [hmanager] at hv
        exact BudgetManager.of_get?_store hs (BudgetManager.of_get?_store hs hv)
      · rw [hseen, Dict.get?_set_ne _ _ hs]
      · rw [hpublished, if_neg fun hand => hs hand.1.symm, add_zero]

theorem minute_pos : 1 ≤ 60 := by decide

def minute : BudgetLimits where
  maxCostUsd := some 10
  warnCostUsd := some 5
  windowSeconds := 60
  max_nonneg := by simp
  warn_nonneg := by simp
  warn_le := by norm_num
  window_pos := minute_pos

def fresh : WatchedBudgets := { now := 0, manager := { default := some minute } }

instance (l : BudgetLimits) (subject : String) (amount called looked : ℚ) :
    Decidable (c.ClearCall l subject amount called looked) :=
  decidable_of_iff
    ((c.callsIn subject (l.window called) ≠ [] →
        ∃ u ∈ c.manager.usage.get? subject, u.windowStart = l.windowStart called) ∧
      (l.window looked = l.window called ∨ ∀ kind ∈ [AlertKind.warning, .exceeded], ∀ x ∈ threshold l kind,
        c.spend subject (l.window called) + amount < x) ∧
      (c.callsIn subject (l.window looked) = [] → ∀ old ∈ c.seen.get? subject, old.fired ≠ [] →
        roundTo (c.observed subject amount (l.window called) (l.window looked)) 6 < old.last) ∧
      ∀ cap ∈ l.maxCostUsd, (cap ≤ roundTo (c.observed subject amount (l.window called) (l.window looked)) 6 ↔
        cap ≤ c.observed subject amount (l.window called) (l.window looked)))
    ⟨fun ⟨hkept, hinside, hbelow, hrounding⟩ =>
        ⟨hkept, hinside.imp_right fun h kind => h kind (by cases kind <;> simp), hbelow, hrounding⟩,
      fun h => ⟨h.kept, h.inside.imp_right fun h kind _ => h kind, h.below, h.rounding⟩⟩

instance (i : Event) : Decidable (c.Clear i) :=
  inferInstanceAs (Decidable (∀ l ∈ c.manager.limitsFor i.subject, _))

end WatchedBudgets

end Caips.Utils
