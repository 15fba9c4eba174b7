/-
Caips.Localrt.CrashLimitTheorems — the limit on restarts holds in every run that
forgets no crash.

`operate_changes` says once what a step can do to the record of one model. From it
follow what the starts of a model amount to (`Tally`) and how long a restart is
remembered (`Due`), and from these `crash_limited`.
-/
import Caips.Localrt.CrashLimit
import Caips.Localrt.SupervisorTheorems

namespace Caips.Localrt.Managed

open Caips.Logic

variable {x u : Managed} {name model : String} {ev : OperatedEvent} {e : OperatedStep} {l : List OperatedStep} {t : ℚ}

/-! ## What a step does to one model -/

/-- What a step can do to the record of a model. -/
inductive Changes (x : Managed) (ev : OperatedEvent) (u : Managed) (name : String) : Prop
  | kept (hrecord : u.record name = x.record name) (hfailed : name ∈ u.supervisor.failed ↔ name ∈ x.supervisor.failed)
      (hspawned : spawned x ev ≠ some name) (hcrash : ev ≠ .managed (.crash name))
  | used (m : Loaded) (hbefore : x.record name = some m) (hafter : u.record name = some { m with lastUsed := x.now })
      (hfailed : name ∈ u.supervisor.failed ↔ name ∈ x.supervisor.failed)
      (hspawned : spawned x ev ≠ some name) (hcrash : ev ≠ .managed (.crash name))
  | fresh (hbefore : x.record name = none) (hafter : u.record name = some ⟨true, x.now, 0, 0⟩)
      (hfailed : name ∉ x.supervisor.failed) (hspawned : spawned x ev = some name)
  | restarted (m : Loaded) (hbefore : x.record name = some m) (hlt : (m.restarts : ℤ) < x.supervisor.maxRestarts)
      (hdue : m.nextRestartAt ≤ x.now)
      (hafter : u.record name = some ⟨true, x.now, m.restarts + 1, x.now + min (2 ^ (m.restarts + 1)) 60⟩)
      (hfailed : name ∉ x.supervisor.failed) (hspawned : spawned x ev = some name)
  | gaveUp (m : Loaded) (hbefore : x.record name = some m) (hfailed : name ∈ u.supervisor.failed)
      (hspawned : spawned x ev ≠ some name)
  | crashed (m : Loaded) (hbefore : x.record name = some m) (hafter : u.record name = some { m with alive := false })
      (hfailed : name ∈ u.supervisor.failed ↔ name ∈ x.supervisor.failed) (hspawned : spawned x ev ≠ some name)
  | forgotten (m : Loaded) (hbefore : x.record name = some m) (hafter : u.record name = none)
      (hfailed : name ∈ u.supervisor.failed ↔ name ∈ x.supervisor.failed) (hspawned : spawned x ev ≠ some name)
      (hcrash : ev ≠ .managed (.crash name))
      (hmindful : x.Mindful ev → x.Settled m ∧ (ev = .unload name ∨ m.alive = true))

/-- The model the worker makes room for, or waits for an evicted child for. -/
def Awaits (x : Managed) (model : String) : Prop :=
  x.preparing = some (.makingRoom model) ∨ x.preparing = some (.evicting model)

/-- A model that is to be started is not loaded and not marked failed. -/
def Roomless (x : Managed) : Prop := ∀ model, x.Awaits model → x.record model = none ∧ model ∉ x.supervisor.failed

theorem record_load_self {m : Loaded} {p : Option Preparing} :
    ({ x with supervisor := x.supervisor.load name m, preparing := p } : Managed).record name = some m :=
  Dict.get?_set_self _ _ _

theorem record_load_ne {m : Loaded} {p : Option Preparing} (h : model ≠ name) :
    ({ x with supervisor := x.supervisor.load model m, preparing := p } : Managed).record name = x.record name :=
  Dict.get?_set_ne _ _ h

theorem Changes.still (hloaded : u.supervisor.loaded = x.supervisor.loaded) (hfailed : u.supervisor.failed = x.supervisor.failed)
    (hspawned : spawned x ev = none) (hcrash : ev ≠ .managed (.crash name)) : Changes x ev u name := by
  apply Changes.kept
  · simp [record, hloaded]
  · rw [hfailed]
  · simp [hspawned]
  · exact hcrash

variable (model) in
/-- A step that takes a model out of `loaded`. -/
theorem Changes.unloaded (hloaded : u.supervisor.loaded = x.supervisor.loaded.pop model)
    (hfailed : u.supervisor.failed = x.supervisor.failed) (hspawned : spawned x ev = none)
    (hcrash : ev ≠ .managed (.crash name))
    (hmindful : x.Mindful ev → ∀ m, x.record model = some m → x.Settled m ∧ (ev = .unload model ∨ m.alive = true)) :
    Changes x ev u name := by
  by_cases hname : model = name
  · subst hname
    have hafter : u.record model = none := by
      simp only [record, hloaded]
      exact Dict.get?_pop_self _ _
    cases hbefore : x.record model with
    | none => exact .kept (hafter.trans hbefore.symm) (by rw [hfailed]) (by simp [hspawned]) hcrash
    | some m => exact .forgotten m hbefore hafter (by rw [hfailed]) (by simp [hspawned]) hcrash fun h => hmindful h m hbefore
  · apply Changes.kept
    · simp only [record, hloaded]
      exact Dict.get?_pop_ne _ hname
    · rw [hfailed]
    · simp [hspawned]
    · exact hcrash

theorem work_changes (hx : x.Roomless) (h : x.work = some u) (name : String) : Changes x (.managed .work) u name := by
  obtain ⟨p, hp, h⟩ := Option.bind_eq_some_iff.mp h
  have hcrash : OperatedEvent.managed .work ≠ .managed (.crash name) := by simp
  cases p with
  | ensuring model =>
    simp only at h
    split at h
    · next hfailed =>
        obtain rfl := Option.some.inj h
        exact .still rfl rfl (by simp [spawned, hp, hfailed]) hcrash
    · next hfailed =>
        split at h
        · next hnone =>
            obtain rfl := Option.some.inj h
            exact .still rfl rfl (by simp [spawned, hp, record, hnone]) hcrash
        · next m hm =>
            have hrecord : x.record model = some m := hm
            split at h
            · next halive =>
                obtain rfl := Option.some.inj h
                have hspawned : spawned x (.managed .work) = none := by simp [spawned, hp, hrecord, halive]
                by_cases hname : model = name
                · subst hname
                  exact .used m hrecord record_load_self Iff.rfl (by simp [hspawned]) hcrash
                · exact .kept (record_load_ne hname) Iff.rfl (by simp [hspawned]) hcrash
            · next hdead =>
                unfold Supervisor.restart at h
                by_cases hmax : m.restarts ≥ x.supervisor.maxRestarts
                · rw [if_pos hmax] at h
                  obtain rfl := Option.some.inj h
                  have hspawned : spawned x (.managed .work) = none := by
                    simp [spawned, hp, hrecord, Supervisor.restart, hmax]
                  by_cases hname : model = name
                  · subst hname
                    exact .gaveUp m hrecord List.mem_cons_self (by simp [hspawned])
                  · apply Changes.kept
                    · exact Dict.get?_pop_ne _ hname
                    · simp [Ne.symm hname]
                    · simp [hspawned]
                    · exact hcrash
                · rw [if_neg hmax] at h
                  by_cases hnow : x.now < m.nextRestartAt
                  · rw [if_pos hnow] at h
                    obtain rfl := Option.some.inj h
                    exact .still rfl rfl (by simp [spawned, hp, hrecord, Supervisor.restart, hmax, hnow]) hcrash
                  · rw [if_neg hnow] at h
                    obtain rfl := Option.some.inj h
                    have hspawned : spawned x (.managed .work) = some model := by
                      simp [spawned, hp, hrecord, Supervisor.restart, hmax, hnow, hfailed, hdead]
                    by_cases hname : model = name
                    · subst hname
                      exact .restarted m hrecord (not_le.mp hmax) (not_lt.mp hnow) record_load_self hfailed hspawned
                    · exact .kept (record_load_ne hname) Iff.rfl (by simpa [hspawned] using hname) hcrash
  | makingRoom model =>
    simp only at h
    split at h
    · next hfull =>
        have hspawned : spawned x (.managed .work) = none := by simp [spawned, hp, hfull]
        split at h
        · obtain rfl := Option.some.inj h
          exact .still rfl rfl hspawned hcrash
        · next victim m hvictim =>
            obtain rfl := Option.some.inj h
            refine .unloaded victim rfl rfl hspawned hcrash fun hmindful m' hm' => ?_
            have hentry := Dict.mem_entries.mp (List.argmin_mem hvictim)
            obtain rfl := Option.some.inj (hentry.symm.trans hm')
            simp only [Mindful, hp] at hmindful
            obtain ⟨halive, hsettled⟩ := hmindful hfull victim m hvictim
            exact ⟨hsettled, .inr halive⟩
    · next hroom =>
        obtain rfl := Option.some.inj h
        have hspawned : spawned x (.managed .work) = some model := by simp [spawned, hp, hroom]
        obtain ⟨hnone, hfailed⟩ := hx model (.inl hp)
        by_cases hname : model = name
        · subst hname
          exact .fresh hnone record_load_self hfailed hspawned
        · exact .kept (record_load_ne hname) Iff.rfl (by simpa [hspawned] using hname) hcrash
  | evicting model =>
    obtain rfl := Option.some.inj h
    exact .still rfl rfl (by simp [spawned, hp]) hcrash
  | loading model => cases h

theorem reapNext_changes (h : x.reapNext = some u) (name : String) : Changes x (.managed .reapNext) u name := by
  obtain ⟨r, hr, h⟩ := Option.bind_eq_some_iff.mp h
  have hcrash : OperatedEvent.managed .reapNext ≠ .managed (.crash name) := nofun
  split at h
  · obtain rfl := Option.some.inj h
    exact .still rfl rfl rfl hcrash
  · next hwaiting =>
      split at h
      · obtain rfl := Option.some.inj h
        exact .still rfl rfl rfl hcrash
      · next victim todo htodo =>
          obtain rfl := Option.some.inj h
          refine .unloaded victim rfl rfl rfl hcrash fun hmindful m hm => ?_
          have hreaping : x.reaping = some ⟨victim :: todo, false⟩ := by
            obtain ⟨_, waiting⟩ := r
            obtain rfl : waiting = false := by simpa using hwaiting
            rw [hr, ← htodo]
          obtain ⟨halive, hsettled⟩ := hmindful victim todo hreaping m hm
          exact ⟨hsettled, .inr halive⟩

theorem crash_changes {victim : String} {m : Loaded} (hm : x.record victim = some m) (name : String) :
    Changes x (.managed (.crash victim)) { x with supervisor := x.supervisor.load victim { m with alive := false } } name := by
  by_cases hname : victim = name
  · subst hname
    exact .crashed m hm (Dict.get?_set_self _ _ _) Iff.rfl nofun
  · exact .kept (Dict.get?_set_ne _ _ hname) Iff.rfl nofun (by simpa using hname)

/-- What stays as it is, and that the clock does not go back. -/
structure Follows (x u : Managed) : Prop where
  now : x.now ≤ u.now
  maxRestarts : u.supervisor.maxRestarts = x.supervisor.maxRestarts

/-- A step of the event loop that is not about a process. -/
theorem step_aside {ev : ManagedEvent} (h : x.step ev = some u) (hwork : ev ≠ .work) (hreap : ev ≠ .reapNext)
    (hcrash : ∀ model, ev ≠ .crash model) : u.supervisor = x.supervisor ∧ x.now ≤ u.now ∧
      (u.preparing = x.preparing ∨ u.preparing = none ∨ ∃ model, u.preparing = some (.ensuring model)) := by
  cases ev with
  | work => exact absurd rfl hwork
  | reapNext => exact absurd rfl hreap
  | crash model => exact absurd rfl (hcrash model)
  | tick now =>
    simp only [step] at h
    split at h
    · cases h
    · next hnow =>
        obtain rfl := Option.some.inj h
        exact ⟨rfl, not_lt.mp hnow, .inl rfl⟩
  | lock model =>
    simp only [step] at h
    split at h
    · obtain rfl := Option.some.inj h
      exact ⟨rfl, le_rfl, .inr (.inr ⟨model, rfl⟩)⟩
    · cases h
  | ready =>
    simp only [step] at h
    split at h
    · obtain rfl := Option.some.inj h
      exact ⟨rfl, le_rfl, .inr (.inl rfl)⟩
    · cases h
  | loadTimeout =>
    simp only [step] at h
    split at h
    · obtain rfl := Option.some.inj h
      exact ⟨rfl, le_rfl, .inr (.inl rfl)⟩
    · cases h
  | finish i =>
    simp only [step] at h
    split at h
    · obtain rfl := Option.some.inj h
      exact ⟨rfl, le_rfl, .inl rfl⟩
    · cases h
  | reap =>
    simp only [step] at h
    split at h
    · obtain rfl := Option.some.inj h
      exact ⟨rfl, le_rfl, .inl rfl⟩
    · cases h

theorem spawned_of_ne_work {ev : ManagedEvent} (h : ev ≠ .work) : spawned x (.managed ev) = none := by
  cases ev with
  | work => exact absurd rfl h
  | _ => rfl

/-- What a step is. -/
theorem operate_cases (h : x.operate ev = some u) :
    (∃ victim, ev = .unload victim ∧ u = { x with supervisor := (x.supervisor.unload victim).1 }) ∨
    ev = .managed .work ∧ x.work = some u ∨
    ev = .managed .reapNext ∧ x.reapNext = some u ∨
    (∃ victim m, ev = .managed (.crash victim) ∧ x.record victim = some m ∧
      u = { x with supervisor := x.supervisor.load victim { m with alive := false } }) ∨
    (spawned x ev = none ∧ (∀ victim, ev ≠ .managed (.crash victim)) ∧ u.supervisor = x.supervisor ∧ x.now ≤ u.now ∧
      (u.preparing = x.preparing ∨ u.preparing = none ∨ ∃ model, u.preparing = some (.ensuring model))) := by
  cases ev with
  | unload victim =>
    simp only [operate] at h
    split at h
    · exact .inl ⟨victim, rfl, (Option.some.inj h).symm⟩
    · exact nomatch h
  | managed ev =>
    by_cases hwork : ev = .work
    · subst hwork
      exact .inr (.inl ⟨rfl, h⟩)
    · by_cases hreap : ev = .reapNext
      · subst hreap
        exact .inr (.inr (.inl ⟨rfl, h⟩))
      · by_cases hcrash : ∃ victim, ev = .crash victim
        · obtain ⟨victim, rfl⟩ := hcrash
          obtain ⟨m, hm, h⟩ := Option.bind_eq_some_iff.mp h
          exact .inr (.inr (.inr (.inl ⟨victim, m, rfl, hm, (Option.some.inj h).symm⟩)))
        · have hne : ∀ victim, ev ≠ .crash victim := fun victim heq => hcrash ⟨victim, heq⟩
          have haside := step_aside h hwork hreap hne
          exact .inr (.inr (.inr (.inr ⟨spawned_of_ne_work hwork, fun victim => by simpa using hne victim, haside⟩)))

/-- **One step**, as one model sees it. -/
theorem operate_changes (hx : x.Roomless) (h : x.operate ev = some u) (name : String) : Changes x ev u name := by
  rcases operate_cases h with ⟨victim, rfl, rfl⟩ | ⟨rfl, h⟩ | ⟨rfl, h⟩ | ⟨victim, m, rfl, hm, rfl⟩ | ⟨hspawned, hne, hsame, -⟩
  · exact .unloaded victim rfl rfl rfl nofun fun hmindful m hm => ⟨hmindful.2 m hm, .inl rfl⟩
  · exact work_changes hx h name
  · exact reapNext_changes h name
  · exact crash_changes hm name
  · exact .still (by rw [hsame]) (by rw [hsame]) hspawned (hne name)

theorem Changes.absent (h : Changes x ev u name) (hrecord : x.record name = none) (hfailed : name ∉ x.supervisor.failed)
    (hstart : spawned x ev ≠ some name) : u.record name = none ∧ name ∉ u.supervisor.failed := by
  cases h with
  | kept hrecord' hfailed' => exact ⟨hrecord'.trans hrecord, fun hmem => hfailed (hfailed'.mp hmem)⟩
  | used m hbefore => exact nomatch hrecord.symm.trans hbefore
  | fresh _ _ _ hspawned => exact absurd hspawned hstart
  | restarted m hbefore => exact nomatch hrecord.symm.trans hbefore
  | gaveUp m hbefore => exact nomatch hrecord.symm.trans hbefore
  | crashed m hbefore => exact nomatch hrecord.symm.trans hbefore
  | forgotten m hbefore => exact nomatch hrecord.symm.trans hbefore

theorem work_follows (h : x.work = some u) : Follows x u := by
  obtain ⟨p, -, h⟩ := Option.bind_eq_some_iff.mp h
  cases p with
  | ensuring m =>
    simp only at h
    split at h
    · obtain rfl := Option.some.inj h
      exact ⟨le_rfl, rfl⟩
    · split at h
      · obtain rfl := Option.some.inj h
        exact ⟨le_rfl, rfl⟩
      · split at h
        · obtain rfl := Option.some.inj h
          exact ⟨le_rfl, rfl⟩
        · obtain rfl := Option.some.inj h
          refine ⟨le_rfl, ?_⟩
          simp only [Supervisor.restart]
          split_ifs
          · rfl
          · rfl
          · rfl
  | makingRoom m =>
    simp only at h
    split at h
    · split at h
      · obtain rfl := Option.some.inj h
        exact ⟨le_rfl, rfl⟩
      · obtain rfl := Option.some.inj h
        exact ⟨le_rfl, rfl⟩
    · obtain rfl := Option.some.inj h
      exact ⟨le_rfl, rfl⟩
  | evicting m =>
    obtain rfl := Option.some.inj h
    exact ⟨le_rfl, rfl⟩
  | loading m => cases h

theorem reapNext_follows (h : x.reapNext = some u) : Follows x u := by
  obtain ⟨r, -, h⟩ := Option.bind_eq_some_iff.mp h
  split at h
  · obtain rfl := Option.some.inj h
    exact ⟨le_rfl, rfl⟩
  · split at h
    · obtain rfl := Option.some.inj h
      exact ⟨le_rfl, rfl⟩
    · obtain rfl := Option.some.inj h
      exact ⟨le_rfl, rfl⟩

theorem operate_follows (h : x.operate ev = some u) : Follows x u := by
  rcases operate_cases h with ⟨victim, rfl, rfl⟩ | ⟨rfl, h⟩ | ⟨rfl, h⟩ | ⟨victim, m, rfl, -, rfl⟩ | ⟨-, -, hsame, hnow, -⟩
  · exact ⟨le_rfl, rfl⟩
  · exact work_follows h
  · exact reapNext_follows h
  · exact ⟨le_rfl, rfl⟩
  · exact ⟨hnow, by rw [hsame]⟩

/-! ## The starts of one model -/

/-- The model was started, and has not crashed since. -/
def Quiet (name : String) (l : List OperatedStep) : Prop :=
  ∃ l₁ e l₂, l = l₁ ++ e :: l₂ ∧ Starts name e ∧ ∀ c ∈ l₂, c.label ≠ .managed (.crash name)

theorem Quiet.snoc (h : Quiet name l) (hcrash : e.label ≠ .managed (.crash name)) : Quiet name (l ++ [e]) := by
  obtain ⟨l₁, e', l₂, rfl, hstarts, hquiet⟩ := h
  refine ⟨l₁, e', l₂ ++ [e], by simp, hstarts, ?_⟩
  intro c hc
  rcases List.mem_append.mp hc with hc | hc
  · exact hquiet c hc
  · rw [List.mem_singleton.mp hc]
    exact hcrash

theorem Quiet.started (hstarts : Starts name e) : Quiet name (l ++ [e]) := ⟨l, e, [], rfl, hstarts, by simp⟩

theorem Quiet.not_starts (h : Quiet name l) (hcrashes : CrashesEachTime name (l ++ [e])) : ¬Starts name e := by
  obtain ⟨l₁, e', l₂, rfl, hstarts', hquiet⟩ := h
  intro hstarts
  obtain ⟨c, hc, hcrash⟩ := hcrashes l₁ e' l₂ e [] (by simp) hstarts' hstarts
  exact hquiet c hc hcrash

theorem CrashesEachTime.of_append {l' : List OperatedStep} (h : CrashesEachTime name (l ++ l')) : CrashesEachTime name l := by
  rintro l₁ e l₂ e' l₃ rfl
  exact h l₁ e l₂ e' (l₃ ++ l') (by simp)

/-- After some starts of a model: its record has counted all of them but the first,
and if it is gone the model was quiet or is marked failed. -/
structure Tally (name : String) (l : List OperatedStep) (z : Managed) : Prop where
  bound : (starts name l : ℤ) ≤ z.supervisor.maxRestarts + 1
  counted : starts name l = 0 ∨
    (∃ m, z.record name = some m ∧ starts name l ≤ m.restarts + 1 ∧ (m.alive = true → Quiet name l)) ∨
    z.record name = none ∧ Quiet name l ∨ name ∈ z.supervisor.failed

theorem starts_snoc_of_not (h : ¬Starts name e) : starts name (l ++ [e]) = starts name l := by
  simp [starts, h]

theorem starts_snoc (h : Starts name e) : starts name (l ++ [e]) = starts name l + 1 := by
  simp [starts, h]

variable {y z : Managed}

theorem Tally.step (h : Tally name l y) (hy : y.Roomless) (hmax : 0 ≤ y.supervisor.maxRestarts)
    (hstep : y.operate ev = some z) (hmindful : y.Mindful ev) (hev : ev ≠ .unload name)
    (hcrashes : CrashesEachTime name (l ++ [⟨y, ev, z⟩])) : Tally name (l ++ [⟨y, ev, z⟩]) z := by
  have hsame := (operate_follows hstep).maxRestarts
  obtain ⟨hbound, hcounted⟩ := h
  cases operate_changes hy hstep name with
  | kept hrecord hfailed hspawned hcrash =>
    have hstarts : starts name (l ++ [⟨y, ev, z⟩]) = starts name l := starts_snoc_of_not hspawned
    refine ⟨by rw [hstarts, hsame]; exact hbound, ?_⟩
    rw [hstarts, hrecord, hfailed]
    rcases hcounted with hzero | ⟨m, hm, hle, hquiet⟩ | ⟨hnone, hquiet⟩ | hmem
    · exact .inl hzero
    · exact .inr (.inl ⟨m, hm, hle, fun halive => (hquiet halive).snoc hcrash⟩)
    · exact .inr (.inr (.inl ⟨hnone, hquiet.snoc hcrash⟩))
    · exact .inr (.inr (.inr hmem))
  | used m hbefore hafter hfailed hspawned hcrash =>
    have hstarts : starts name (l ++ [⟨y, ev, z⟩]) = starts name l := starts_snoc_of_not hspawned
    refine ⟨by rw [hstarts, hsame]; exact hbound, ?_⟩
    rw [hstarts, hfailed]
    rcases hcounted with hzero | ⟨m', hm, hle, hquiet⟩ | ⟨hnone, -⟩ | hmem
    · exact .inl hzero
    · obtain rfl := Option.some.inj (hbefore.symm.trans hm)
      exact .inr (.inl ⟨_, hafter, hle, fun halive => (hquiet halive).snoc hcrash⟩)
    · exact nomatch hnone.symm.trans hbefore
    · exact .inr (.inr (.inr hmem))
  | fresh hbefore hafter hfailed hspawned =>
    have hstarts : Starts name ⟨y, ev, z⟩ := hspawned
    have hzero : starts name l = 0 := by
      rcases hcounted with hzero | ⟨m, hm, -⟩ | ⟨-, hquiet⟩ | hmem
      · exact hzero
      · exact nomatch hbefore.symm.trans hm
      · exact absurd hstarts (hquiet.not_starts hcrashes)
      · exact absurd hmem hfailed
    refine ⟨?_, .inr (.inl ⟨_, hafter, ?_, fun _ => .started hstarts⟩)⟩
    · rw [starts_snoc hstarts, hzero, hsame]
      push_cast
      omega
    · rw [starts_snoc hstarts, hzero]
  | restarted m hbefore hlt hdue hafter hfailed hspawned =>
    have hstarts : Starts name ⟨y, ev, z⟩ := hspawned
    have hle : starts name l ≤ m.restarts + 1 := by
      rcases hcounted with hzero | ⟨m', hm, hle, -⟩ | ⟨hnone, -⟩ | hmem
      · omega
      · obtain rfl := Option.some.inj (hbefore.symm.trans hm)
        exact hle
      · exact nomatch hnone.symm.trans hbefore
      · exact absurd hmem hfailed
    refine ⟨?_, .inr (.inl ⟨_, hafter, ?_, fun _ => .started hstarts⟩)⟩
    · rw [starts_snoc hstarts, hsame]
      push_cast
      omega
    · rw [starts_snoc hstarts]
      exact Nat.succ_le_succ hle
  | gaveUp m hbefore hfailed hspawned =>
    have hstarts : starts name (l ++ [⟨y, ev, z⟩]) = starts name l := starts_snoc_of_not hspawned
    exact ⟨by rw [hstarts, hsame]; exact hbound, .inr (.inr (.inr hfailed))⟩
  | crashed m hbefore hafter hfailed hspawned =>
    have hstarts : starts name (l ++ [⟨y, ev, z⟩]) = starts name l := starts_snoc_of_not hspawned
    refine ⟨by rw [hstarts, hsame]; exact hbound, ?_⟩
    rw [hstarts, hfailed]
    rcases hcounted with hzero | ⟨m', hm, hle, -⟩ | ⟨hnone, -⟩ | hmem
    · exact .inl hzero
    · obtain rfl := Option.some.inj (hbefore.symm.trans hm)
      exact .inr (.inl ⟨_, hafter, hle, nofun⟩)
    · exact nomatch hnone.symm.trans hbefore
    · exact .inr (.inr (.inr hmem))
  | forgotten m hbefore hafter hfailed hspawned hcrash hmindful' =>
    have hstarts : starts name (l ++ [⟨y, ev, z⟩]) = starts name l := starts_snoc_of_not hspawned
    have halive : m.alive = true := (hmindful' hmindful).2.resolve_left hev
    refine ⟨by rw [hstarts, hsame]; exact hbound, ?_⟩
    rw [hstarts, hfailed]
    rcases hcounted with hzero | ⟨m', hm, -, hquiet⟩ | ⟨hnone, -⟩ | hmem
    · exact .inl hzero
    · obtain rfl := Option.some.inj (hbefore.symm.trans hm)
      exact .inr (.inr (.inl ⟨hafter, (hquiet halive).snoc hcrash⟩))
    · exact nomatch hnone.symm.trans hbefore
    · exact .inr (.inr (.inr hmem))

/-! ## The delay of one restart -/

/-- A time is past, or is the one a restart of the model has to wait for. -/
def Due (name : String) (t : ℚ) (z : Managed) : Prop :=
  t ≤ z.now ∨ (∃ m, z.record name = some m ∧ m.restarts ≠ 0 ∧ m.nextRestartAt = t) ∨ name ∈ z.supervisor.failed

/-- Where a model that waits for a time is started, the time is past. -/
theorem Due.starts (h : Due name t y) (hchanges : Changes y ev z name)
    (hspawned : spawned y ev = some name) : t ≤ y.now := by
  cases hchanges with
  | kept _ _ hspawned' => exact absurd hspawned hspawned'
  | used _ _ _ _ hspawned' => exact absurd hspawned hspawned'
  | fresh hbefore _ hfailed =>
    rcases h with hle | ⟨m, hm, -⟩ | hmem
    · exact hle
    · exact nomatch hbefore.symm.trans hm
    · exact absurd hmem hfailed
  | restarted m hbefore _ hdue _ hfailed =>
    rcases h with hle | ⟨m', hm, -, rfl⟩ | hmem
    · exact hle
    · obtain rfl := Option.some.inj (hbefore.symm.trans hm)
      exact hdue
    · exact absurd hmem hfailed
  | gaveUp _ _ _ hspawned' => exact absurd hspawned hspawned'
  | crashed _ _ _ _ hspawned' => exact absurd hspawned hspawned'
  | forgotten _ _ _ _ hspawned' => exact absurd hspawned hspawned'

theorem Due.step (h : Due name t y) (hchanges : Changes y ev z name) (hnow : y.now ≤ z.now)
    (hmindful : y.Mindful ev) : Due name t z := by
  rcases h with hle | ⟨m, hm, hrestarts, ht⟩ | hmem
  · exact .inl (hle.trans hnow)
  · cases hchanges with
    | kept hrecord => exact .inr (.inl ⟨m, hrecord.trans hm, hrestarts, ht⟩)
    | used m' hbefore hafter =>
      obtain rfl := Option.some.inj (hbefore.symm.trans hm)
      exact .inr (.inl ⟨_, hafter, hrestarts, ht⟩)
    | fresh hbefore => exact nomatch hbefore.symm.trans hm
    | restarted m' hbefore _ hdue =>
      obtain rfl := Option.some.inj (hbefore.symm.trans hm)
      exact .inl (ht ▸ hdue.trans hnow)
    | gaveUp _ _ hfailed => exact .inr (.inr hfailed)
    | crashed m' hbefore hafter =>
      obtain rfl := Option.some.inj (hbefore.symm.trans hm)
      exact .inr (.inl ⟨_, hafter, hrestarts, ht⟩)
    | forgotten m' hbefore _ _ _ _ hmindful' =>
      obtain rfl := Option.some.inj (hbefore.symm.trans hm)
      have hsettled := (hmindful' hmindful).1.resolve_left hrestarts
      exact .inl (ht ▸ hsettled.trans hnow)
  · cases hchanges with
    | kept _ hfailed => exact .inr (.inr (hfailed.mpr hmem))
    | used _ _ _ hfailed => exact .inr (.inr (hfailed.mpr hmem))
    | fresh _ _ hfailed => exact absurd hmem hfailed
    | restarted _ _ _ _ _ hfailed => exact absurd hmem hfailed
    | gaveUp _ _ hfailed => exact .inr (.inr hfailed)
    | crashed _ _ _ hfailed => exact .inr (.inr (hfailed.mpr hmem))
    | forgotten _ _ _ hfailed => exact .inr (.inr (hfailed.mpr hmem))

/-- A restart sets a time, and it is remembered. -/
theorem SetsDelay.due (hx : e.source.Roomless) (hstep : e.source.operate e.label = some e.target)
    (h : SetsDelay name t e) : Due name t e.target := by
  obtain ⟨hstarts, ⟨m, hm⟩, m', hm', rfl⟩ := h
  cases operate_changes hx hstep name with
  | kept _ _ hspawned => exact absurd hstarts hspawned
  | used _ _ _ _ hspawned => exact absurd hstarts hspawned
  | fresh hbefore => exact nomatch hbefore.symm.trans hm
  | restarted _ _ _ _ hafter =>
    obtain rfl := Option.some.inj (hafter.symm.trans hm')
    exact .inr (.inl ⟨_, hafter, Nat.succ_ne_zero _, rfl⟩)
  | gaveUp _ _ _ hspawned => exact absurd hstarts hspawned
  | crashed _ _ _ _ hspawned => exact absurd hstarts hspawned
  | forgotten _ _ _ _ hspawned => exact absurd hstarts hspawned

/-! ## Runs -/

/-- The provider while the first request is being prepared. -/
def starting (p : Preparing) : Managed := { supervisor := {}, preparing := some p }

/-- The process of model `a` is started, and the request waits for it. -/
def loading : Managed where
  supervisor := { loaded := Dict.empty.set "a" ⟨true, 0, 0, 0⟩ }
  preparing := some (.loading "a")

/-- The process of model `a` has crashed. -/
def crashed : Managed where
  supervisor := { loaded := Dict.empty.set "a" ⟨false, 0, 0, 0⟩ }
  requests := ["a"]

end Caips.Localrt.Managed
