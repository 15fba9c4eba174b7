/-
Caips.Harness.TriggersTheorems — when a trigger overlaps itself.

The cap holds in every window, and every refused firing is counted. A trigger
knows of its last run only the task that started it. So its runs are apart as
long as none of them executes again, after it waited or failed, when the trigger
fires or another of them goes on (`never_overlaps`).
-/
import Caips.Harness.Triggers
import Mathlib.Tactic.Linarith

namespace Caips.Harness.TriggerManager

open Caips.Logic

variable {L : TriggerLib} {m u : TriggerManager} {ev : TriggerEvent} {name : String} {t : Trigger} {now : ℚ}

/-! ## One firing -/

/-- What `_fire` does: it refuses and counts, or starts a run. -/
theorem fire_cases (m : TriggerManager) (name : String) (t : Trigger) (fields : List (String × Json)) (now : ℚ) :
    (m.going t ∨ t.maxPerHour ≤ (recent now t.fired).length) ∧ m.fire L name t fields now =
        { m with
          now := now
          triggers := m.triggers.set name { t with fired := recent now t.fired, skipped := t.skipped + 1 }
          refused := m.refused ++ [name] } ∨
      (¬m.going t ∧ ((recent now t.fired).length : ℤ) < t.maxPerHour) ∧ ∃ r : TriggeredRun,
        r.trigger = name ∧ r.startedAt = now ∧ r.firing ∧ m.fire L name t fields now =
          { m with
            now := now
            triggers := m.triggers.set name { t with fired := recent now t.fired ++ [now], firing := some m.runs.length }
            runs := m.runs ++ [r] } := by
  unfold fire
  by_cases h : m.going t ∨ ((recent now t.fired).length : ℤ) ≥ t.maxPerHour
  · exact .inl ⟨h, if_pos h⟩
  · simp only [not_or, not_le, ge_iff_le] at h
    exact .inr ⟨h, _, rfl, rfl, rfl, if_neg (by simpa using h)⟩

variable {fields : List (String × Json)}

/-- The trigger an event selects, but for the time it is due next. -/
theorem selects_some (h : m.selects L ev = some (name, t, fields, now)) :
    m.now ≤ now ∧ ∃ t₀ nextAt, m.triggers.get? name = some t₀ ∧ t = { t₀ with nextAt := nextAt } := by
  cases ev with
  | due n now₁ later =>
    obtain ⟨t₀, ht, h⟩ := Option.bind_eq_some_iff.mp h
    simp only at h
    split at h
    · simp only [Option.some.injEq, Prod.mk.injEq] at h
      obtain ⟨rfl, rfl, -, rfl⟩ := h
      exact ⟨(le_max_left _ _).trans (le_max_left _ _), t₀, _, ht, rfl⟩
    · cases h
  | bus n e now₁ =>
    obtain ⟨t₀, ht, h⟩ := Option.bind_eq_some_iff.mp h
    split at h
    · simp only [Option.some.injEq, Prod.mk.injEq] at h
      obtain ⟨rfl, rfl, -, rfl⟩ := h
      exact ⟨le_max_left _ _, t₀, t₀.nextAt, ht, rfl⟩
    · cases h
  | webhook n body timestamp signature now₁ later =>
    obtain ⟨t₀, ht, h⟩ := Option.bind_eq_some_iff.mp h
    simp only at h
    split at h
    · simp only [Option.some.injEq, Prod.mk.injEq] at h
      obtain ⟨rfl, rfl, -, rfl⟩ := h
      exact ⟨(le_max_left _ _).trans (le_max_left _ _), t₀, t₀.nextAt, ht, rfl⟩
    · cases h
  | done i r => cases h
  | resume i => cases h
  | stop i r => cases h

/-- A run goes on to another state of its own; nothing else changes. -/
def Moves (m u : TriggerManager) (i : ℕ) (r r' : TriggeredRun) : Prop :=
  m.runs[i]? = some r ∧ r'.trigger = r.trigger ∧ r'.startedAt = r.startedAt ∧ (r'.firing → r.firing) ∧ u = m.setRun i r'

/-- What a step does. -/
theorem step_cases (h : step L m ev = some u) :
    (∃ name t fields now, m.selects L ev = some (name, t, fields, now) ∧ u = m.fire L name t fields now) ∨
      (m.Apart L ev ∧ u = m) ∨
      (∃ i r r', Moves m u i r r' ∧ (r'.executing → r.executing) ∧ m.Apart L ev) ∨
      ∃ i r r', Moves m u i r r' ∧ ev = .resume i ∧ ¬r.executing ∧ r'.executing := by
  cases ev with
  | due n now later =>
    cases hs : m.selects L (.due n now later) with
    | none => exact .inr (.inl ⟨by simp [Apart, hs], by simpa [step, hs] using h.symm⟩)
    | some x => exact .inl ⟨_, _, _, _, rfl, by simpa [step, hs] using h.symm⟩
  | bus n e now =>
    cases hs : m.selects L (.bus n e now) with
    | none => exact .inr (.inl ⟨by simp [Apart, hs], by simpa [step, hs] using h.symm⟩)
    | some x => exact .inl ⟨_, _, _, _, rfl, by simpa [step, hs] using h.symm⟩
  | webhook n body timestamp signature now later =>
    cases hs : m.selects L (.webhook n body timestamp signature now later) with
    | none => exact .inr (.inl ⟨by simp [Apart, hs], by simpa [step, hs] using h.symm⟩)
    | some x => exact .inl ⟨_, _, _, _, rfl, by simpa [step, hs] using h.symm⟩
  | done i resumable =>
    obtain ⟨r, hr, h⟩ := Option.bind_eq_some_iff.mp h
    split at h
    · rename_i hfiring
      obtain rfl := Option.some.inj h
      refine .inr (.inr (.inl ⟨i, r, { r with firing := false, resumable := resumable }, ⟨hr, rfl, rfl, nofun, rfl⟩, ?_, trivial⟩))
      simp [TriggeredRun.executing, hfiring]
    · exact nomatch h
  | resume i =>
    obtain ⟨r, hr, h⟩ := Option.bind_eq_some_iff.mp h
    split at h
    · rename_i hidle
      obtain rfl := Option.some.inj h
      refine .inr (.inr (.inr ⟨i, r, { r with resumed := true, resumable := false }, ⟨hr, rfl, rfl, id, rfl⟩, rfl, hidle.2, ?_⟩))
      simp [TriggeredRun.executing]
    · exact nomatch h
  | stop i resumable =>
    obtain ⟨r, hr, h⟩ := Option.bind_eq_some_iff.mp h
    split at h
    · rename_i hresumed
      obtain rfl := Option.some.inj h
      refine .inr (.inr (.inl ⟨i, r, { r with resumed := false, resumable := resumable }, ⟨hr, rfl, rfl, id, rfl⟩, ?_, trivial⟩))
      simp [TriggeredRun.executing, hresumed]
    · exact nomatch h

/-! ## The starts of a trigger, and its executing runs -/

variable {r : TriggeredRun} {t₀ : Trigger}

theorem startsOf_append (h : u.runs = m.runs ++ [r]) (name : String) :
    u.startsOf name = m.startsOf name ++ if r.trigger = name then [r.startedAt] else [] := by
  by_cases hr : r.trigger = name <;> simp [startsOf, h, hr]

theorem executing_append (h : u.runs = m.runs ++ [r]) (hfiring : r.firing) (name : String) :
    u.executing name = m.executing name + if r.trigger = name then 1 else 0 := by
  by_cases hr : r.trigger = name <;> simp [executing, h, hr, TriggeredRun.executing, hfiring]

theorem startsOf_eq (m : TriggerManager) (name : String) :
    m.startsOf name = ((m.runs.map fun r => (r.trigger, r.startedAt)).filter fun x => x.1 = name).map Prod.snd := by
  simp only [startsOf, List.filter_map, List.map_map]
  rfl

theorem Moves.startsOf {i : ℕ} {r r' : TriggeredRun} (h : Moves m u i r r') (name : String) :
    u.startsOf name = m.startsOf name := by
  obtain ⟨hr, htrigger, hstarted, -, rfl⟩ := h
  obtain ⟨hi, rfl⟩ := List.getElem?_eq_some_iff.mp hr
  have hkeys : (m.runs.set i r').map (fun r => (r.trigger, r.startedAt)) = m.runs.map fun r => (r.trigger, r.startedAt) := by
    have hsame := @List.set_getElem_self _ (m.runs.map fun r => (r.trigger, r.startedAt)) i (by simpa using hi)
    simpa only [List.map_set, List.getElem_map, htrigger, hstarted] using hsame
  rw [startsOf_eq, startsOf_eq, setRun, hkeys]

/-- What one run's move makes of the number of its trigger's executing runs. -/
theorem Moves.executing {i : ℕ} {r r' : TriggeredRun} (h : Moves m u i r r') :
    u.executing r.trigger + r.executing.toNat = m.executing r.trigger + r'.executing.toNat ∧
      ∀ name, name ≠ r.trigger → u.executing name = m.executing name := by
  obtain ⟨hr, htrigger, -, -, rfl⟩ := h
  obtain ⟨hi, rfl⟩ := List.getElem?_eq_some_iff.mp hr
  have hcount := fun name => List.countP_set (p := fun r : TriggeredRun => r.trigger = name && r.executing) (a := r') hi
  constructor
  · have hpos : m.runs[i].executing.toNat ≤ m.executing m.runs[i].trigger := by
      cases hexec : m.runs[i].executing with
      | false => exact Nat.zero_le _
      | true => exact List.countP_pos_iff.mpr ⟨_, List.getElem_mem hi, by simp [hexec]⟩
    have hcount := hcount m.runs[i].trigger
    simp only [htrigger, decide_true, Bool.true_and] at hcount
    simp only [TriggerManager.executing, setRun] at hpos ⊢
    cases hexec : m.runs[i].executing <;> cases hexec' : r'.executing <;>
      simp only [hexec, hexec', if_true, if_false, Bool.toNat_true, Bool.toNat_false, Bool.false_eq_true] at hcount hpos ⊢ <;> omega
  · intro name hname
    simpa [TriggerManager.executing, setRun, htrigger, hname.symm] using hcount name

theorem recent_recent {now later : ℚ} (h : now ≤ later) (fired : List ℚ) : recent later (recent now fired) = recent later fired := by
  rw [recent, recent, List.filter_filter]
  apply List.filter_congr
  intro x _
  have hx : later - x < 3600 → now - x < 3600 := fun hx => lt_of_le_of_lt (sub_le_sub_right h x) hx
  rw [← Bool.decide_and, decide_eq_decide]
  exact ⟨And.left, fun hlater => ⟨hlater, hx hlater⟩⟩

/-! ## The invariant -/

/-- The firings a trigger remembers are its latest starts, its cap holds in
every window, and a run that its task executes is its last one. -/
structure Inv (m : TriggerManager) : Prop where
  past : ∀ name, ∀ x ∈ m.startsOf name, x ≤ m.now
  recent : ∀ name t now, m.triggers.get? name = some t → m.now ≤ now →
    TriggerManager.recent now t.fired = TriggerManager.recent now (m.startsOf name)
  window : ∀ name t w, m.triggers.get? name = some t →
    (((m.startsOf name).countP fun x => w ≤ x ∧ x < w + 3600 : ℕ) : ℤ) ≤ max t.maxPerHour 0
  skipped : ∀ name t, m.triggers.get? name = some t → t.skipped = m.refused.count name
  last : ∀ i r t, m.runs[i]? = some r → r.firing → m.triggers.get? r.trigger = some t → t.firing = some i

theorem Inv.not_firing (hm : m.Inv) (ht : m.triggers.get? name = some t₀)
    (hgoing : ¬m.going t₀) (hr : r ∈ m.runs) (hname : r.trigger = name) : ¬r.firing := by
  intro hfiring
  obtain ⟨i, hi⟩ := List.mem_iff_getElem?.mp hr
  subst hname
  have hlast := hm.last i r t₀ hi hfiring ht
  exact hgoing (by simp [going, hlast, hi, hfiring])

theorem Inv.moves (hm : m.Inv) {i : ℕ} {r r' : TriggeredRun} (h : Moves m u i r r') : u.Inv := by
  have hstarts := h.startsOf
  obtain ⟨hr, htrigger, -, hfiring, rfl⟩ := h
  have hi := (List.getElem?_eq_some_iff.mp hr).1
  constructor
  · intro name x hx
    exact hm.past name x (hstarts name ▸ hx)
  · intro name t now ht hnow
    exact (hm.recent name t now ht hnow).trans (by rw [hstarts name])
  · intro name t w ht
    rw [hstarts name]
    exact hm.window name t w ht
  · exact hm.skipped
  · intro j r₁ t hj hr₁ ht
    by_cases hij : i = j
    · subst hij
      obtain rfl : r' = r₁ := by simpa [setRun, hi] using hj
      exact hm.last i r t hr (hfiring hr₁) (htrigger ▸ ht)
    · refine hm.last j r₁ t ?_ hr₁ ht
      simpa [setRun, hij] using hj

theorem countP_window_le {starts : List ℚ} {now w : ℚ} (hw : now < w + 3600) :
    (starts.countP fun x => w ≤ x ∧ x < w + 3600) ≤ (TriggerManager.recent now starts).length := by
  rw [TriggerManager.recent, ← List.countP_eq_length_filter]
  apply List.countP_mono_left
  intro x hx hwindow
  have hwx : w ≤ x := (of_decide_eq_true hwindow).1
  exact decide_eq_true (by linarith)

theorem get?_set_cases {t₁ : Trigger} {other : String} (h : (m.triggers.set name t).get? other = some t₁) :
    other = name ∧ t₁ = t ∨ other ≠ name ∧ m.triggers.get? other = some t₁ := by
  by_cases hother : name = other
  · subst hother
    exact .inl ⟨rfl, by simpa using h.symm⟩
  · exact .inr ⟨fun h => hother h.symm, by rwa [Dict.get?_set_ne _ _ hother] at h⟩

/-- A firing is refused and counted. -/
theorem Inv.refuse (hm : m.Inv) (hnow : m.now ≤ u.now) (ht₀ : m.triggers.get? name = some t₀)
    (htriggers : u.triggers = m.triggers.set name t) (hruns : u.runs = m.runs) (hrefused : u.refused = m.refused ++ [name])
    (hmax : t.maxPerHour = t₀.maxPerHour) (hfired : t.fired = TriggerManager.recent u.now t₀.fired)
    (hskipped : t.skipped = t₀.skipped + 1) (hfiring : t.firing = t₀.firing) : u.Inv := by
  have hstarts : ∀ other, u.startsOf other = m.startsOf other := fun other => by rw [TriggerManager.startsOf, hruns]; rfl
  constructor
  · intro other x hx
    exact (hm.past other x (hstarts other ▸ hx)).trans hnow
  · intro other t₁ later ht₁ hlater
    obtain ⟨rfl, rfl⟩ | ⟨-, ht₁⟩ := get?_set_cases (htriggers ▸ ht₁)
    · rw [hfired, recent_recent hlater, hm.recent _ _ _ ht₀ (hnow.trans hlater), hstarts]
    · rw [hm.recent _ _ _ ht₁ (hnow.trans hlater), hstarts]
  · intro other t₁ w ht₁
    rw [hstarts other]
    obtain ⟨rfl, rfl⟩ | ⟨-, ht₁⟩ := get?_set_cases (htriggers ▸ ht₁)
    · exact hmax ▸ hm.window _ _ w ht₀
    · exact hm.window _ _ w ht₁
  · intro other t₁ ht₁
    obtain ⟨rfl, rfl⟩ | ⟨hother, ht₁⟩ := get?_set_cases (htriggers ▸ ht₁)
    · simp [hrefused, hskipped, hm.skipped _ _ ht₀]
    · simp [hrefused, hm.skipped _ _ ht₁, Ne.symm hother]
  · intro i r t₁ hi hr ht₁
    rw [hruns] at hi
    obtain ⟨hname, rfl⟩ | ⟨-, ht₁⟩ := get?_set_cases (htriggers ▸ ht₁)
    · exact hfiring.trans (hm.last i r t₀ hi hr (hname ▸ ht₀))
    · exact hm.last i r t₁ hi hr ht₁

/-- A firing starts a run. -/
theorem Inv.starts (hm : m.Inv) (hnow : m.now ≤ u.now) (ht₀ : m.triggers.get? name = some t₀)
    (hgoing : ¬m.going t₀) (hcap : ((TriggerManager.recent u.now t₀.fired).length : ℤ) < t₀.maxPerHour)
    (htriggers : u.triggers = m.triggers.set name t) (hruns : u.runs = m.runs ++ [r]) (hrefused : u.refused = m.refused)
    (hname : r.trigger = name) (hstarted : r.startedAt = u.now)
    (hmax : t.maxPerHour = t₀.maxPerHour) (hfired : t.fired = TriggerManager.recent u.now t₀.fired ++ [u.now])
    (hskipped : t.skipped = t₀.skipped) (hfiring : t.firing = some m.runs.length) : u.Inv := by
  have hsame : u.startsOf name = m.startsOf name ++ [u.now] := by simp [startsOf_append hruns, hname, hstarted]
  have hothers : ∀ other, other ≠ name → u.startsOf other = m.startsOf other := fun other hother => by
    simp [startsOf_append hruns, hname, hother.symm]
  constructor
  · intro other x hx
    by_cases hother : other = name
    · subst hother
      rw [hsame, List.mem_append, List.mem_singleton] at hx
      obtain hx | rfl := hx
      · exact (hm.past _ x hx).trans hnow
      · exact le_rfl
    · exact (hm.past other x (hothers other hother ▸ hx)).trans hnow
  · intro other t₁ later ht₁ hlater
    obtain ⟨rfl, rfl⟩ | ⟨hother, ht₁⟩ := get?_set_cases (htriggers ▸ ht₁)
    · have hold := hm.recent _ _ _ ht₀ (hnow.trans hlater)
      have hforgotten := recent_recent hlater t₀.fired
      simp only [TriggerManager.recent] at hold hforgotten
      simp [hfired, hsame, TriggerManager.recent, hold, hforgotten]
    · rw [hm.recent _ _ _ ht₁ (hnow.trans hlater), hothers other hother]
  · intro other t₁ w ht₁
    obtain ⟨rfl, rfl⟩ | ⟨hother, ht₁⟩ := get?_set_cases (htriggers ▸ ht₁)
    · have hold := hm.window _ _ w ht₀
      rw [hsame, List.countP_append, List.countP_singleton, hmax]
      split
      · rename_i hin
        have hcount := @countP_window_le (m.startsOf other) _ _ (of_decide_eq_true hin).2
        rw [← hm.recent _ _ _ ht₀ hnow] at hcount
        omega
      · simpa using hold
    · rw [hothers other hother]
      exact hm.window _ _ w ht₁
  · intro other t₁ ht₁
    obtain ⟨rfl, rfl⟩ | ⟨-, ht₁⟩ := get?_set_cases (htriggers ▸ ht₁)
    · rw [hrefused, hskipped, hm.skipped _ _ ht₀]
    · rw [hrefused, hm.skipped _ _ ht₁]
  · intro i r₁ t₁ hi hr₁ ht₁
    rw [hruns, List.getElem?_append] at hi
    split at hi
    · obtain ⟨hname₁, rfl⟩ | ⟨-, ht₁⟩ := get?_set_cases (htriggers ▸ ht₁)
      · exact absurd hr₁ (hm.not_firing ht₀ hgoing (List.mem_of_getElem? hi) hname₁)
      · exact hm.last i r₁ t₁ hi hr₁ ht₁
    · obtain ⟨hi, rfl⟩ : i - m.runs.length = 0 ∧ r = r₁ := by simpa [List.getElem?_singleton] using hi
      obtain ⟨-, rfl⟩ | ⟨hother, -⟩ := get?_set_cases (htriggers ▸ ht₁)
      · rw [hfiring]
        congr 1
        omega
      · exact absurd hname hother

theorem Inv.fire {nextAt : ℚ} (hm : m.Inv) (hnow : m.now ≤ now)
    (ht₀ : m.triggers.get? name = some t₀) (ht : t = { t₀ with nextAt := nextAt }) : (m.fire L name t fields now).Inv := by
  subst ht
  obtain ⟨-, hfire⟩ | ⟨⟨hgoing, hcap⟩, r, hname, hstarted, -, hfire⟩ := fire_cases (L := L) m name { t₀ with nextAt := nextAt } fields now
  · rw [hfire]
    exact hm.refuse hnow ht₀ rfl rfl rfl rfl rfl rfl rfl
  · rw [hfire]
    exact hm.starts hnow ht₀ hgoing hcap rfl rfl rfl hname hstarted rfl rfl rfl rfl

/-! ## Runs -/

/-- At most one run of each trigger executes. -/
def AtMostOne (m : TriggerManager) : Prop := ∀ name, m.executing name ≤ 1

theorem Inv.step (hm : m.Inv) (h : step L m ev = some u) : u.Inv := by
  obtain ⟨name, t, fields, now, hselects, rfl⟩ | ⟨-, rfl⟩ | ⟨i, r, r', hmoves, -⟩ | ⟨i, r, r', hmoves, -⟩ := step_cases h
  · obtain ⟨hnow, t₀, nextAt, ht₀, ht⟩ := selects_some hselects
    exact hm.fire hnow ht₀ ht
  · exact hm
  · exact hm.moves hmoves
  · exact hm.moves hmoves

theorem Inv.executing_eq_zero_iff (hm : m.Inv) (ht₀ : m.triggers.get? name = some t₀) (hgoing : ¬m.going t₀) :
    m.executing name = 0 ↔ ∀ r ∈ m.runs, r.trigger = name → ¬r.resumed := by
  rw [executing, List.countP_eq_zero]
  apply forall₂_congr
  intro r hr
  have hfiring := hm.not_firing (r := r) ht₀ hgoing hr
  by_cases hname : r.trigger = name
  · simp [hname, TriggeredRun.executing, hfiring hname]
  · simp [hname]

/-- A firing leaves the trigger's runs apart exactly if none of them was resumed. -/
theorem Inv.apart_fire_iff (hm : m.Inv) (hone : m.AtMostOne)
    (hselects : m.selects L ev = some (name, t, fields, now)) : (m.fire L name t fields now).AtMostOne ↔ m.Apart L ev := by
  have hapart : m.Apart L ev ↔
      (¬m.going t → ((TriggerManager.recent now t.fired).length : ℤ) < t.maxPerHour → ∀ r ∈ m.runs, r.trigger = name → ¬r.resumed) := by
    have hiff : m.Apart L ev ↔ ∀ name t fields now, m.selects L ev = some (name, t, fields, now) → ¬m.going t →
        ((TriggerManager.recent now t.fired).length : ℤ) < t.maxPerHour → ∀ r ∈ m.runs, r.trigger = name → ¬r.resumed := by
      cases ev <;> first | exact Iff.rfl | exact nomatch hselects
    rw [hiff, hselects]
    constructor
    · exact fun h => h _ _ _ _ rfl
    · rintro h _ _ _ _ heq
      cases heq
      exact h
  obtain ⟨-, t₀, nextAt, ht₀, rfl⟩ := selects_some hselects
  obtain ⟨hheld, hfire⟩ | ⟨⟨hgoing, hcap⟩, r, hname, -, hfiring, hfire⟩ := fire_cases (L := L) m name { t₀ with nextAt := nextAt } fields now
  · rw [hfire, hapart]
    constructor
    · intro _ hgoing hcap
      exact absurd hheld (by simp only [not_or, not_le]; exact ⟨hgoing, hcap⟩)
    · exact fun _ => hone
  · rw [hfire, hapart]
    have hexecuting := fun other => executing_append (u := m.fire L name { t₀ with nextAt := nextAt } fields now) (m := m)
      (by rw [hfire]) hfiring other
    rw [hfire] at hexecuting
    constructor
    · intro h _ _
      have hle := h name
      rw [hexecuting, hname, if_pos rfl] at hle
      exact (hm.executing_eq_zero_iff ht₀ hgoing).mp (by omega)
    · intro h other
      rw [hexecuting, hname]
      have hzero := (hm.executing_eq_zero_iff ht₀ hgoing).mpr (h hgoing hcap)
      have hle := hone other
      split
      · rename_i hother
        subst hother
        omega
      · exact hle

/-- One step leaves every trigger's runs apart exactly if it is such a step. -/
theorem Inv.apart_iff (hm : m.Inv) (hone : m.AtMostOne) (h : TriggerManager.step L m ev = some u) :
    u.AtMostOne ↔ m.Apart L ev := by
  obtain ⟨name, t, fields, now, hselects, rfl⟩ | ⟨hapart, rfl⟩ | ⟨i, r, r', hmoves, hexec, hapart⟩ |
    ⟨i, r, r', hmoves, rfl, hidle, hexec⟩ := step_cases h
  · exact hm.apart_fire_iff hone hselects
  · exact iff_of_true hone hapart
  · refine iff_of_true (fun name => ?_) hapart
    obtain ⟨hsame, hothers⟩ := hmoves.executing
    by_cases hname : name = r.trigger
    · subst hname
      have hle := hone r.trigger
      have hmono : r'.executing.toNat ≤ r.executing.toNat := by
        cases h' : r'.executing
        · exact Nat.zero_le _
        · simp [hexec h']
      omega
    · rw [hothers name hname]
      exact hone name
  · obtain ⟨hsame, hothers⟩ := hmoves.executing
    have hr := hmoves.1
    simp only [Bool.not_eq_true] at hidle
    rw [hidle, hexec] at hsame
    constructor
    · intro hu r₁ hr₁
      obtain rfl : r = r₁ := Option.some.inj (hr.symm.trans hr₁)
      have hle := hu r.trigger
      simp only [Bool.toNat_false, Bool.toNat_true] at hsame
      omega
    · intro hapart name
      by_cases hname : name = r.trigger
      · subst hname
        have hzero := hapart r hr
        simp only [Bool.toNat_false, Bool.toNat_true] at hsame
        omega
      · rw [hothers name hname]
        exact hone name

theorem inv_start (h : (machine L).start m) : m.Inv ∧ m.AtMostOne := by
  obtain ⟨hruns, hrefused, htriggers⟩ := h
  have hstarts : ∀ name, m.startsOf name = [] := fun name => by simp [startsOf, hruns]
  refine ⟨⟨?_, ?_, ?_, ?_, ?_⟩, ?_⟩
  · simp [hstarts]
  · intro name t now ht _
    rw [hstarts, (htriggers name t ht).1]
  · simp [hstarts]
  · intro name t ht
    simp [hrefused, (htriggers name t ht).2.1]
  · simp [hruns]
  · simp [AtMostOne, executing, hruns]

/-- A library for triggers that no request and no event fires. -/
def plainLib : TriggerLib where
  eq _ _ := false
  hmac _ _ := ""
  parseInt _ := none
  fieldsOf _ := []
  substitute task _ := task

def hourly : TriggerManager where
  triggers := Dict.empty.set "digest" { agent := "writer", task := "write", intervalS := 3600, nextAt := 3600 }

theorem hourly_start : (machine plainLib).start hourly := by
  refine ⟨rfl, rfl, fun name t ht => ?_⟩
  by_cases hname : "digest" = name
  · subst hname
    simp only [hourly, Dict.get?_set_self, Option.some.injEq] at ht
    subst ht
    exact ⟨rfl, rfl, rfl⟩
  · rw [hourly, Dict.get?_set_ne _ _ hname] at ht
    cases ht

/-- **Triggers.** The cap of a trigger holds in every window and its refused
firings are counted, in every run. Its runs never overlap exactly if none of them
goes on beside another. -/
theorem never_overlaps {m : TriggerManager} {l : List (Machine.Step TriggerManager TriggerEvent)} (hstart : (machine L).start m)
    (h : (machine L).Run m l u) :
    ((∀ e ∈ l, ∀ name, e.target.executing name ≤ 1) ↔ ∀ e ∈ l, e.source.Apart L e.label) ∧
      ∀ name t, u.triggers.get? name = some t →
        (∀ w, (((u.startsOf name).countP fun x => w ≤ x ∧ x < w + 3600 : ℕ) : ℤ) ≤ max t.maxPerHour 0) ∧
        t.skipped = u.refused.count name := by
  have hrun : ((∀ e ∈ l, e.target.AtMostOne) ↔ ∀ e ∈ l, e.source.Apart L e.label) ∧
      ((∀ e ∈ l, e.target.AtMostOne) → u.AtMostOne) ∧ u.Inv := by
    induction h with
    | nil => simpa [and_comm] using inv_start hstart
    | @snoc t u l ev hr hstep ih =>
      obtain ⟨hiff, hone, hinv⟩ := ih
      refine ⟨?_, ?_, hinv.step hstep⟩
      · simp only [List.mem_append, List.mem_singleton, or_imp, forall_and, forall_eq]
        constructor
        · rintro ⟨hl, hlast⟩
          exact ⟨hiff.mp hl, (hinv.apart_iff (hone hl) hstep).mp hlast⟩
        · rintro ⟨hl, hlast⟩
          have hl := hiff.mpr hl
          exact ⟨hl, (hinv.apart_iff (hone hl) hstep).mpr hlast⟩
      · exact fun h => h _ (List.mem_append_right _ (List.mem_singleton.mpr rfl))
  obtain ⟨hiff, -, hinv⟩ := hrun
  exact ⟨hiff, fun name t ht => ⟨fun w => hinv.window name t w ht, hinv.skipped name t ht⟩⟩

/-- The trigger fires again when its first run has ended. -/
theorem never_overlaps_twice : ∃ l u, (machine plainLib).Run hourly l u ∧ u.runs.length = 2 ∧
    ((∀ e ∈ l, ∀ name, e.target.executing name ≤ 1) ↔ ∀ e ∈ l, e.source.Apart plainLib e.label) ∧
      ∀ name t, u.triggers.get? name = some t →
        (∀ w, (((u.startsOf name).countP fun x => w ≤ x ∧ x < w + 3600 : ℕ) : ℤ) ≤ max t.maxPerHour 0) ∧
        t.skipped = u.refused.count name := by
  have htest : (Machine.exec (step plainLib) hourly [.due "digest" 3600 3600, .done 0 false, .due "digest" 7200 7200]).any
      (fun u => u.runs.length = 2) = true := by decide +kernel
  obtain ⟨u, hu, hcount⟩ := Machine.exists_of_any htest
  obtain ⟨l, hl⟩ := Machine.exec_run (P := (machine plainLib).start) hu
  exact ⟨l, u, hl, of_decide_eq_true hcount, never_overlaps hourly_start hl⟩

/-- A run that waited for an approval and was resumed overlaps the next one. -/
theorem resumed_overlaps : ∃ l u, (machine plainLib).start hourly ∧ (machine plainLib).Run hourly l u ∧ u.executing "digest" = 2 := by
  have htest : (Machine.exec (step plainLib) hourly [.due "digest" 3600 3600, .done 0 true, .resume 0, .due "digest" 7200 7200]).any
      (fun u => u.executing "digest" = 2) = true := by decide +kernel
  obtain ⟨u, hu, hcount⟩ := Machine.exists_of_any htest
  obtain ⟨l, hl⟩ := Machine.exec_run (P := (machine plainLib).start) hu
  exact ⟨l, u, hourly_start, hl, of_decide_eq_true hcount⟩

end Caips.Harness.TriggerManager
