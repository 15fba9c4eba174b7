/-
Caips.Tools.RateTheorems — the rate limit of a tool holds over every run of a
registry, whoever calls what.

The table of recent calls is shared by all pairs of a caller and a tool. A call
of one pair may trim its own row; a call of a new pair, when the table is full,
throws away the rows nobody used for a minute. `Window.Thinned` is all that can happen
to a row a call is not let in to, and it loses only what is too old to count. So
every row goes on holding the calls of the last minute of its pair, and
`Window.Sparse` follows one admission at a time.
-/
import Caips.Logic.Machine
import Caips.Logic.Window
import Caips.Tools.Registry

namespace Caips.Tools

open Caips.Logic

/-- The minute of the code: the least difference that is rounded to 60. -/
def minute : ℚ := 60 - 1 / 2 ^ 48

theorem le_nearestDouble_iff (d : ℚ) : 60 ≤ nearestDouble d ↔ minute ≤ d := by
  constructor
  · intro h
    by_contra hlt
    rw [not_le] at hlt
    rcases le_or_gt 32 d with hlow | hlow
    · -- from 32 to 64 the last place is the 47th
      have hpos : 0 < d := by linarith
      have hfirst : firstPlace d = 5 := by
        obtain ⟨hle, hgt⟩ := firstPlace_spec hpos
        have hhigh : d < 2 ^ (6 : ℤ) := hlt.trans (by norm_num [minute])
        have hlow' : (2 : ℚ) ^ (5 : ℤ) ≤ d := le_trans (by norm_num) hlow
        have h₁ := (zpow_lt_zpow_iff_right₀ (by norm_num : (1 : ℚ) < 2)).mp (hle.trans_lt hhigh)
        have h₂ := (zpow_lt_zpow_iff_right₀ (by norm_num : (1 : ℚ) < 2)).mp (hlow'.trans_lt hgt)
        omega
      have hplace : lastPlace d = -47 := by
        rw [lastPlace, hfirst]
        norm_num
      have hint : nearestEven (d / 2 ^ (-47 : ℤ)) < 60 * 2 ^ 47 := by
        refine nearestEven_lt ?_
        rw [div_lt_iff₀ (by positivity)]
        refine hlt.trans_le ?_
        norm_num [minute]
      have hcast : (nearestEven (d / 2 ^ (-47 : ℤ)) : ℚ) < 60 * 2 ^ 47 := by exact_mod_cast hint
      rw [nearestDouble, hplace] at h
      norm_num at h hcast
      linarith
    · have hround := nearestDouble_mono hlow.le
      have hself : nearestDouble 32 = 32 := by decide +kernel
      linarith
  · intro h
    have hround := nearestDouble_mono h
    have hself : nearestDouble minute = 60 := by decide +kernel
    linarith

namespace ToolRegistry

/-! ## One row of the table -/

/-- The row of a pair; a pair without one has an empty row. -/
def log (r : ToolRegistry) (key : String × String) : List ℚ := (r.hits.get? key).getD []

theorem recent_eq (hits : List ℚ) (now : ℚ) : recent hits now = Window.recent minute hits now := by
  simp only [recent, Window.recent, le_nearestDouble_iff]

theorem log_hit_ne (r : ToolRegistry) (t : Tool) {key k : String × String} (hits : List ℚ) (now : ℚ)
    (h : key ≠ k) : (r.hit t key hits now).2.log k = r.log k := by
  unfold hit log
  split <;> simp [Dict.get?_set_ne _ _ h]

theorem log_hit (r : ToolRegistry) (t : Tool) (key : String × String) (hits : List ℚ) (now : ℚ) :
    ((∃ e, (r.hit t key hits now).1 = .error e) ∧
      (r.hit t key hits now).2.log key = Window.recent minute hits now) ∨
    ((r.hit t key hits now).1 = .ok () ∧ (Window.recent minute hits now).length < t.ratePerMinute ∧
      (r.hit t key hits now).2.log key = Window.recent minute hits now ++ [now]) := by
  unfold hit log
  simp only [recent_eq]
  by_cases hfull : t.ratePerMinute ≤ (Window.recent minute hits now).length
  · exact .inl (by simp [hfull])
  · exact .inr (by simp [hfull, not_le.mp hfull])

theorem thinned_purge (r : ToolRegistry) (now : ℚ) (k : String × String) :
    Window.Thinned minute now (r.log k) (log { r with hits := r.purge now } k) := by
  unfold log purge
  rw [Dict.get?_filter]
  simp only [le_nearestDouble_iff]
  cases hrow : r.hits.get? k with
  | none => exact .same
  | some hits =>
    cases hold : hits.getLast?.all fun h => decide (minute ≤ now - h) with
    | false =>
      have hkept : (some hits).filter (fun l => !(l.getLast?.all fun h => decide (minute ≤ now - h))) =
          some hits := by simp [Option.filter, hold]
      rw [hkept]
      exact .same
    | true =>
      have hgone : (some hits).filter (fun l => !(l.getLast?.all fun h => decide (minute ≤ now - h))) =
          none := by simp [Option.filter, hold]
      rw [hgone]
      refine .forgotten fun h hh => ?_
      have hlast : hits.getLast? = some h := hh
      simpa [hlast] using hold

/-! ## The check of the rate -/

/-- What a check of the rate does to the table: every row is thinned, and that of a call it
lets in had room and gains the call. -/
def Checked (r : ToolRegistry) (t : Tool) (caller : String) (now : ℚ)
    (answer : Except ToolError Unit × ToolRegistry) : Prop :=
  (∀ k, (caller, t.name) ≠ k → Window.Thinned minute now (r.log k) (answer.2.log k)) ∧
  ((∃ e, answer.1 = .error e) ∧ Window.Thinned minute now (r.log (caller, t.name)) (answer.2.log (caller, t.name)) ∨
    answer.1 = .ok () ∧ (Window.recent minute (r.log (caller, t.name)) now).length < t.ratePerMinute ∧
      answer.2.log (caller, t.name) = Window.recent minute (r.log (caller, t.name)) now ++ [now])

theorem checked_hit {r r' : ToolRegistry} {t : Tool} {caller : String} {hits : List ℚ} {now : ℚ}
    (hlog : r.log (caller, t.name) = hits)
    (hothers : ∀ k, (caller, t.name) ≠ k → Window.Thinned minute now (r.log k) (r'.log k)) :
    r.Checked t caller now (r'.hit t (caller, t.name) hits now) := by
  subst hlog
  constructor
  · intro k hk
    rw [log_hit_ne r' t _ now hk]
    exact hothers k hk
  · rcases log_hit r' t (caller, t.name) (r.log (caller, t.name)) now with ⟨herr, hlog⟩ | hok
    · exact .inl ⟨herr, hlog ▸ .trimmed⟩
    · exact .inr hok

theorem checked_checkRate (r : ToolRegistry) {t : Tool} (caller : String) (now : ℚ) (hrate : t.ratePerMinute ≠ 0) :
    r.Checked t caller now (r.checkRate t caller now) := by
  unfold checkRate
  rw [if_neg hrate]
  cases hrow : r.hits.get? (caller, t.name) with
  | some hits => exact checked_hit (by simp [log, hrow]) fun _ _ => .same
  | none =>
    have hlog : r.log (caller, t.name) = [] := by simp [log, hrow]
    dsimp only
    by_cases hfull : maxRateLimitKeys ≤ r.hits.size
    · rw [if_pos hfull]
      by_cases hpurged : maxRateLimitKeys ≤ (r.purge now).size
      · rw [if_pos hpurged]
        exact ⟨fun k _ => r.thinned_purge now k, .inl ⟨⟨_, rfl⟩, r.thinned_purge now _⟩⟩
      · rw [if_neg hpurged]
        exact checked_hit hlog fun k _ => r.thinned_purge now k
    · rw [if_neg hfull]
      exact checked_hit hlog fun _ _ => .same

theorem tools_hit (r : ToolRegistry) (t : Tool) (key : String × String) (hits : List ℚ) (now : ℚ) :
    (r.hit t key hits now).2.tools = r.tools := by
  unfold hit
  split <;> rfl

theorem tools_checkRate (r : ToolRegistry) (t : Tool) (caller : String) (now : ℚ) :
    (r.checkRate t caller now).2.tools = r.tools := by
  unfold checkRate
  split
  · rfl
  · split
    · exact tools_hit ..
    · split
      · split
        · rfl
        · exact tools_hit ..
      · exact tools_hit ..

theorem size_hit_le (r : ToolRegistry) (t : Tool) (key : String × String) (hits : List ℚ) (now : ℚ) :
    (r.hit t key hits now).2.hits.size ≤ r.hits.size + 1 := by
  unfold hit
  split <;> exact Dict.size_set_le _ _ _

/-- The table stays within its bound. -/
theorem size_checkRate_le (r : ToolRegistry) (t : Tool) (caller : String) (now : ℚ)
    (h : r.hits.size ≤ maxRateLimitKeys) : (r.checkRate t caller now).2.hits.size ≤ maxRateLimitKeys := by
  unfold checkRate
  split
  · exact h
  · split
    · rename_i hits hrow
      have hsame : (r.hit t (caller, t.name) hits now).2.hits.size = r.hits.size := by
        unfold hit
        split <;> exact Dict.size_set_of_some _ hrow
      exact hsame ▸ h
    · split
      · split
        · exact (Dict.size_filter_le _ _).trans h
        · rename_i hpurged
          have hle := size_hit_le { r with hits := r.purge now } t (caller, t.name) [] now
          exact hle.trans (Nat.lt_of_not_le hpurged)
      · rename_i hfull
        exact (size_hit_le r t (caller, t.name) [] now).trans (Nat.lt_of_not_le hfull)

/-! ## A call -/

variable (validate : Json → Json → Option String)

theorem tool_of_precheck {r : ToolRegistry} {c : ToolCall} {t : Tool} (h : precheck validate r c = .ok t) :
    r.tools.get? c.name = some t := by
  unfold precheck at h
  split at h
  · cases h
  · rename_i u hu
    split_ifs at h
    split at h
    · cases h
    · exact Except.ok.inj h ▸ hu

/-- A call is refused before its rate is looked at, or it is what the check of its rate says. -/
theorem check_cases (r : ToolRegistry) (c : ToolCall) (approved : Bool) (now : ℚ) :
    (∃ e, r.check validate c approved now = (.error e, r)) ∨
    ∃ t, r.tools.get? c.name = some t ∧
      r.check validate c approved now =
        ((r.checkRate t c.caller now).1.map fun _ => t, (r.checkRate t c.caller now).2) := by
  unfold check
  cases hpre : precheck validate r c with
  | error e => exact .inl ⟨e, rfl⟩
  | ok t =>
    by_cases happroval : t.permission = .destructive ∧ approved = false
    · exact .inl ⟨_, if_pos happroval⟩
    · refine .inr ⟨t, tool_of_precheck validate hpre, ?_⟩
      dsimp only
      rw [if_neg happroval]
      cases hrate : r.checkRate t c.caller now with
      | mk answer r' => cases answer <;> rfl

end ToolRegistry

/-! ## The runs of a registry -/

/-- An invocation of a handler: for whom, of which tool, and when. -/
structure Invocation where
  caller : String
  tool : String
  time : ℚ

/-- A registry, the last reading of its clock, and the handlers it has invoked. -/
structure RegistryCalls where
  registry : ToolRegistry
  now : ℚ
  invoked : List Invocation

/-- A call, with its approval, and what the clock shows at it. -/
structure TimedCall where
  call : ToolCall
  approved : Bool
  now : ℚ

namespace RegistryCalls

variable (validate : Json → Json → Option String)

/-- One call; `none` when the clock would go back. -/
def step (s : RegistryCalls) (c : TimedCall) : Option RegistryCalls :=
  if s.now ≤ c.now then
    let answer := s.registry.check validate c.call c.approved c.now
    some { registry := answer.2, now := c.now
           invoked := match answer.1 with
             | .ok t => s.invoked ++ [⟨c.call.caller, t.name, c.now⟩]
             | .error _ => s.invoked }
  else none

/-- `register` stores a tool under its name; nobody has called yet. -/
def start (s : RegistryCalls) : Prop :=
  (∀ n t, s.registry.tools.get? n = some t → t.name = n) ∧ s.registry.hits = .empty ∧ s.invoked = []

def machine : Machine RegistryCalls TimedCall := .ofFun start (step validate)

/-- When the handler of a tool was invoked for a caller. -/
def times (s : RegistryCalls) (caller tool : String) : List ℚ :=
  (s.invoked.filter fun i => decide (i.caller = caller ∧ i.tool = tool)).map (·.time)

/-- Every row holds the calls of the last minute, and the calls keep the rate. -/
structure Inv (s : RegistryCalls) : Prop where
  named : ∀ n t, s.registry.tools.get? n = some t → t.name = n
  bounded : s.registry.hits.size ≤ maxRateLimitKeys
  holds : ∀ caller t, s.registry.tools.get? t.name = some t → t.ratePerMinute ≠ 0 →
    Window.Holds minute (s.times caller t.name) (s.registry.log (caller, t.name)) s.now
  sparse : ∀ caller t, s.registry.tools.get? t.name = some t → t.ratePerMinute ≠ 0 →
    Window.Sparse t.ratePerMinute minute (s.times caller t.name)

variable {s : RegistryCalls}

theorem Inv.of_start (h : s.start) : s.Inv := by
  obtain ⟨hnamed, hhits, hinvoked⟩ := h
  have htimes (caller tool : String) : s.times caller tool = [] := by simp [times, hinvoked]
  refine ⟨hnamed, by simp [hhits, Dict.size, Dict.empty], fun caller t _ _ => ?_, fun caller t _ _ => ?_⟩
  · rw [htimes, ToolRegistry.log, hhits]
    exact Window.holds_nil
  · rw [htimes]
    exact Window.sparse_nil

theorem Inv.refused (h : s.Inv) {r : ToolRegistry} {now : ℚ} (hle : s.now ≤ now)
    (htools : r.tools = s.registry.tools) (hsize : r.hits.size ≤ maxRateLimitKeys)
    (hlogs : ∀ k, Window.Thinned minute now (s.registry.log k) (r.log k)) :
    Inv { registry := r, now := now, invoked := s.invoked } where
  named := htools ▸ h.named
  bounded := hsize
  holds := fun caller t ht hrate =>
    (hlogs _).holds ((h.holds caller t (htools ▸ ht) hrate).later hle)
  sparse := fun caller t ht hrate => h.sparse caller t (htools ▸ ht) hrate

theorem times_concat (s : RegistryCalls) (r : ToolRegistry) (now : ℚ) (i : Invocation) (caller tool : String) :
    times { registry := r, now := now, invoked := s.invoked ++ [i] } caller tool =
      s.times caller tool ++ if i.caller = caller ∧ i.tool = tool then [i.time] else [] := by
  by_cases hi : i.caller = caller ∧ i.tool = tool <;> simp [times, hi]

/-- A handler was invoked, for a pair whose row had room. -/
theorem Inv.admitted (h : s.Inv) {r : ToolRegistry} {now : ℚ} {caller : String} {t : Tool}
    (hle : s.now ≤ now) (ht : s.registry.tools.get? t.name = some t) (htools : r.tools = s.registry.tools)
    (hsize : r.hits.size ≤ maxRateLimitKeys)
    (hothers : ∀ k, (caller, t.name) ≠ k → Window.Thinned minute now (s.registry.log k) (r.log k))
    (hown : t.ratePerMinute ≠ 0 →
      (Window.recent minute (s.registry.log (caller, t.name)) now).length < t.ratePerMinute ∧
      r.log (caller, t.name) = Window.recent minute (s.registry.log (caller, t.name)) now ++ [now]) :
    Inv { registry := r, now := now, invoked := s.invoked ++ [⟨caller, t.name, now⟩] } := by
  refine ⟨htools ▸ h.named, hsize, fun caller' t' ht' hrate => ?_, fun caller' t' ht' hrate => ?_⟩ <;>
    rw [htools] at ht' <;> rw [times_concat]
  · have hheld := (h.holds caller' t' ht' hrate).later hle
    by_cases hkey : caller = caller' ∧ t.name = t'.name
    · obtain ⟨rfl, hname⟩ := hkey
      obtain rfl : t = t' := Option.some.inj (ht.symm.trans (hname ▸ ht'))
      rw [if_pos ⟨rfl, rfl⟩, (hown hrate).2]
      exact hheld.trim.admitted
    · rw [if_neg hkey, List.append_nil]
      exact (hothers _ fun heq => hkey (by simpa using heq)).holds hheld
  · by_cases hkey : caller = caller' ∧ t.name = t'.name
    · obtain ⟨rfl, hname⟩ := hkey
      obtain rfl : t = t' := Option.some.inj (ht.symm.trans (hname ▸ ht'))
      rw [if_pos ⟨rfl, rfl⟩]
      exact (h.sparse caller t ht hrate).admitted ((h.holds caller t ht hrate).later hle) (hown hrate).1
    · rw [if_neg hkey, List.append_nil]
      exact h.sparse caller' t' ht' hrate

/-- **One call keeps the invariant.** -/
theorem Inv.step {s s' : RegistryCalls} {c : TimedCall} (h : s.Inv) (hstep : s.step validate c = some s') :
    s'.Inv := by
  unfold RegistryCalls.step at hstep
  split at hstep
  · rename_i hle
    obtain rfl := Option.some.inj hstep
    rcases s.registry.check_cases validate c.call c.approved c.now with ⟨e, hcheck⟩ | ⟨t, ht, hcheck⟩
    · rw [hcheck]
      exact h.refused hle rfl h.bounded fun _ => .same
    · rw [hcheck]
      have htools := s.registry.tools_checkRate t c.call.caller c.now
      have hsize := s.registry.size_checkRate_le t c.call.caller c.now h.bounded
      have hname : t.name = c.call.name := h.named _ _ ht
      by_cases hrate : t.ratePerMinute = 0
      · have hfree : s.registry.checkRate t c.call.caller c.now = (.ok (), s.registry) := by
          simp [ToolRegistry.checkRate, hrate]
        rw [hfree]
        exact h.admitted hle (hname ▸ ht) rfl h.bounded (fun _ _ => .same) fun hne => absurd hrate hne
      · obtain ⟨hothers, ⟨⟨e, herr⟩, hown⟩ | ⟨hok, hroom, hown⟩⟩ :=
          s.registry.checked_checkRate c.call.caller c.now hrate
        · rw [herr]
          refine h.refused hle htools hsize fun k => ?_
          by_cases hk : (c.call.caller, t.name) = k
          · exact hk ▸ hown
          · exact hothers k hk
        · rw [hok]
          exact h.admitted hle (hname ▸ ht) htools hsize hothers fun _ => ⟨hroom, hown⟩
  · cases hstep

def Readable : RegistryCalls → TimedCall → Prop := fun _ c => IsDouble c.now

instance (s : RegistryCalls) (c : TimedCall) : Decidable (Readable s c) := inferInstanceAs (Decidable (IsDouble c.now))

theorem doubles_step {s s' : RegistryCalls} {c : TimedCall} (h : ∀ i ∈ s.invoked, IsDouble i.time)
    (hstep : s.step validate c = some s') (hc : IsDouble c.now) : ∀ i ∈ s'.invoked, IsDouble i.time := by
  unfold RegistryCalls.step at hstep
  split at hstep
  · obtain rfl := Option.some.inj hstep
    intro i hi
    dsimp only at hi
    split at hi
    · rcases List.mem_append.mp hi with hi | hi
      · exact h i hi
      · obtain rfl := List.mem_singleton.mp hi
        exact hc
    · exact h i hi
  · cases hstep

/-- From 32 s on doubles that are less than 60 s apart are less than a `minute` apart. -/
theorem sub_lt_minute {x y : ℚ} (hx : IsDouble x) (hy : IsDouble y) (hx' : 32 ≤ x) (hy' : 32 ≤ y)
    (h : y - x < 60) : y - x < minute := by
  obtain ⟨k, hk⟩ := hx.exists_mul (n := 5) (by norm_num; exact hx')
  obtain ⟨l, hl⟩ := hy.exists_mul (n := 5) (by norm_num; exact hy')
  have hdiff : y - x = ((l - k : ℤ) : ℚ) / 2 ^ 47 := by
    rw [hk, hl]
    norm_num
    ring
  rw [hdiff, div_lt_iff₀ (by positivity)] at h
  have hint : l - k < 60 * 2 ^ 47 := by exact_mod_cast h
  have hcast : ((l - k : ℤ) : ℚ) ≤ 60 * 2 ^ 47 - 1 := by exact_mod_cast Int.le_sub_one_of_lt hint
  rw [hdiff, div_lt_iff₀ (by positivity), minute]
  norm_num at hcast ⊢
  linarith

/-- **The rate limit of a tool.** In every run of a registry, in whatever order callers call
tools: every half-open window of 60 s less `1 / 2 ^ 48` s holds at most `rate_per_minute`
invocations of a tool's handler for one caller, where that is set, and so does every half-open
window of 60 s that starts when the clock shows 32 s or more; and the table never exceeds its
bound. -/
theorem rate_kept {s : RegistryCalls} (h : (machine validate).Reach Readable s) :
    s.registry.hits.size ≤ maxRateLimitKeys ∧
    ∀ caller t from_, s.registry.tools.get? t.name = some t → 0 < t.ratePerMinute →
      s.invoked.countP (fun i => decide (i.caller = caller ∧ i.tool = t.name ∧ from_ ≤ i.time ∧
        i.time < from_ + (60 - 1 / 2 ^ 48))) ≤ t.ratePerMinute ∧
      (32 ≤ from_ → s.invoked.countP (fun i => decide (i.caller = caller ∧ i.tool = t.name ∧ from_ ≤ i.time ∧
        i.time < from_ + 60)) ≤ t.ratePerMinute) := by
  have hinv : s.Inv ∧ ∀ i ∈ s.invoked, IsDouble i.time := by
    refine Machine.Reach.invariant (I := fun s => s.Inv ∧ ∀ i ∈ s.invoked, IsDouble i.time) ?_ ?_ h
    · intro s hs
      exact ⟨.of_start hs, by simp [hs.2.2]⟩
    · intro s c s' hs hstep hc
      exact ⟨hs.1.step validate hstep, doubles_step validate hs.2 hstep hc⟩
  refine ⟨hinv.1.bounded, fun caller t from_ ht hrate => ?_⟩
  have hcount : ∀ w, s.invoked.countP (fun i => decide (i.caller = caller ∧ i.tool = t.name ∧ from_ ≤ i.time ∧
      i.time < from_ + w)) = (s.times caller t.name).countP fun a => from_ ≤ a ∧ a < from_ + w := by
    intro w
    rw [times, List.countP_map, List.countP_filter]
    refine List.countP_congr fun i _ => ?_
    simp only [decide_eq_true_eq, Function.comp_apply, Bool.and_eq_true]
    tauto
  have hsparse := hinv.1.sparse caller t ht hrate.ne'
  rw [hcount, hcount]
  refine ⟨hsparse from_, fun hlate => hsparse.of_gaps fun x hx y hy hx' hy' hlt => ?_⟩
  have hdouble : ∀ x ∈ s.times caller t.name, IsDouble x := by
    intro x hx
    obtain ⟨i, hi, rfl⟩ := List.mem_map.mp hx
    exact hinv.2 i (List.mem_filter.mp hi).1
  exact sub_lt_minute (hdouble x hx) (hdouble y hy) (hlate.trans hx') (hlate.trans hy') hlt

/-! ## A tool called once a minute -/

/-- A registry with one tool, which may be called once a minute. -/
def searching : RegistryCalls where
  registry := { tools := .ofList [("search", { name := "search", parameters := .obj [], ratePerMinute := 1 })] }
  now := 0
  invoked := []

def search (now : ℚ) : TimedCall where
  call := { name := "search", arguments := .obj [], allowed := ["*"], caller := "u", maxPermission := .readOnly }
  approved := false
  now := now

theorem start_searching : searching.start := by
  refine ⟨fun n t h => ?_, rfl, rfl⟩
  obtain ⟨rfl, rfl⟩ := Prod.ext_iff.mp (List.mem_singleton.mp (Dict.mem_of_get?_ofList h))
  rfl

/-- The second call comes a second too early, the third on time. -/
theorem rate_kept_search : ∃ s, (machine fun _ _ => none).Reach Readable s ∧ s.invoked.length = 2 ∧
    s.invoked.countP (fun i => decide (i.caller = "u" ∧ i.tool = "search" ∧ 40 ≤ i.time ∧ i.time < 40 + 60)) ≤ 1 := by
  have hrun : (Machine.exec (fun s c => if Readable s c then step (fun _ _ => none) s c else none) searching
      [search 40, search 99, search 100]).any (fun s => s.invoked.length == 2 &&
        (s.registry.tools.get? "search").any fun t => t.name == "search" && t.ratePerMinute == 1) = true := by
    decide +kernel
  obtain ⟨s, hexec, hs⟩ := Machine.exists_of_any hrun
  obtain ⟨hlength, htool⟩ := (Bool.and_eq_true _ _).mp hs
  obtain ⟨t, ht, hsearch⟩ := Machine.exists_of_any htool
  obtain ⟨hname, hone⟩ : t.name = "search" ∧ t.ratePerMinute = 1 := by simpa using hsearch
  have hstart : (machine fun _ _ => none).Reach Readable searching := .start start_searching
  have hreach := Machine.exec_reach_guarded hstart hexec
  have hkept := ((rate_kept _ hreach).2 "u" t 40 (hname ▸ ht) (by omega)).2 (by norm_num)
  rw [hname, hone] at hkept
  exact ⟨s, hreach, by simpa using hlength, hkept⟩

/-- Two calls of a tool that may be called once a minute, at 2.0000000000000004 s and at 62 s, are both
let in: the difference is rounded to 60. -/
theorem two_in_a_minute : ∃ s, (machine fun _ _ => none).Reach Readable s ∧
    Machine.exec (fun s c => if Readable s c then step (fun _ _ => none) s c else none) searching
      [search (2 + 1 / 2 ^ 51), search 62] = some s ∧
    s.invoked.countP (fun i => decide (i.caller = "u" ∧ i.tool = "search" ∧ 2 + 1 / 2 ^ 51 ≤ i.time ∧
      i.time < 2 + 1 / 2 ^ 51 + 60)) = 2 := by
  have hrun : (Machine.exec (fun s c => if Readable s c then step (fun _ _ => none) s c else none) searching
      [search (2 + 1 / 2 ^ 51), search 62]).any (fun s => s.invoked.countP (fun i => decide (i.caller = "u" ∧
        i.tool = "search" ∧ 2 + 1 / 2 ^ 51 ≤ i.time ∧ i.time < 2 + 1 / 2 ^ 51 + 60)) = 2) = true := by
    decide +kernel
  obtain ⟨s, hexec, hs⟩ := Machine.exists_of_any hrun
  have hstart : (machine fun _ _ => none).Reach Readable searching := .start start_searching
  exact ⟨s, Machine.exec_reach_guarded hstart hexec, hexec, of_decide_eq_true hs⟩

end RegistryCalls

end Caips.Tools
