/-
Caips.Logic.Machine — labelled transition systems, their runs, and the
two induction rules every safety argument of this tree ends in.

A `Machine` has a start predicate and a step RELATION, so an environment
choice (an answer, a clock reading, a scheduling decision) is part of
the label and never of the state. A run is kept with the list of steps it
took, source state and target state included, because the statements
proved here are of two kinds:

* about the states reached (`Reach`, rule `Reach.invariant`), with a
  GUARD that every step of the run has to meet;
* about every step of one run (`Run`, rule `Run.steps_iff`), where the
  guard and the property are compared step by step.

`Run.reach` and `Reach.exists_run` connect the two. Nothing in this file
knows what is being verified.
-/
import Mathlib.Data.List.Basic
import Mathlib.Tactic.Basic

namespace Caips.Logic

universe u v

/-- A labelled transition system over states `σ` and labels `ι`. -/
structure Machine (σ : Type u) (ι : Type v) where
  start : σ → Prop
  step : σ → ι → σ → Prop

namespace Machine

variable {σ : Type u} {ι : Type v} (m : Machine σ ι)

/-- The machine of an executable partial step function. -/
def ofFun (start : σ → Prop) (f : σ → ι → Option σ) : Machine σ ι where
  start := start
  step := fun s i t => f s i = some t

@[simp] theorem ofFun_step (start : σ → Prop) (f : σ → ι → Option σ) (s : σ) (i : ι) (t : σ) :
    (ofFun start f).step s i t ↔ f s i = some t := Iff.rfl

@[simp] theorem ofFun_start (start : σ → Prop) (f : σ → ι → Option σ) (s : σ) :
    (ofFun start f).start s ↔ start s := Iff.rfl

/-- One step of a run: where it started, its label, where it ended. -/
structure Step (σ : Type u) (ι : Type v) where
  source : σ
  label : ι
  target : σ

/-- `m.Run s l t`: from `s`, taking exactly the steps `l`, to `t`. -/
inductive Run : σ → List (Step σ ι) → σ → Prop
  | nil (s : σ) : Run s [] s
  | snoc {s t u : σ} {l : List (Step σ ι)} {i : ι} :
      Run s l t → m.step t i u → Run s (l ++ [⟨t, i, u⟩]) u

/-- States reached by runs all of whose steps meet the guard `G`. -/
inductive Reach (G : σ → ι → Prop) : σ → Prop
  | start {s : σ} : m.start s → Reach G s
  | step {s t : σ} {i : ι} : Reach G s → m.step s i t → G s i → Reach G t

/-- The guard that allows every step. -/
def free : σ → ι → Prop := fun _ _ => True

instance (s : σ) (i : ι) : Decidable (free s i) := inferInstanceAs (Decidable True)

variable {m}

variable {G : σ → ι → Prop} {l : List (Step σ ι)} {s t : σ} {f : σ → ι → Option σ}

/-- **Invariant rule.** What holds at the start and is preserved by every
guarded step holds in every state a guarded run reaches. -/
theorem Reach.invariant {I : σ → Prop}
    (hstart : ∀ s, m.start s → I s)
    (hstep : ∀ s i t, I s → m.step s i t → G s i → I t) {s : σ} (h : m.Reach G s) : I s := by
  induction h with
  | start hs => exact hstart _ hs
  | step _ ht hg ih => exact hstep _ _ _ ih ht hg

theorem Reach.mono {G H : σ → ι → Prop} (hGH : ∀ s i, G s i → H s i) {s : σ}
    (h : m.Reach G s) : m.Reach H s := by
  induction h with
  | start hs => exact .start hs
  | step _ ht hg ih => exact .step ih ht (hGH _ _ hg)

theorem Reach.mono_step {G H : σ → ι → Prop} (hGH : ∀ s i t, m.step s i t → G s i → H s i) {s : σ}
    (h : m.Reach G s) : m.Reach H s := by
  induction h with
  | start hs => exact .start hs
  | step _ ht hg ih => exact .step ih ht (hGH _ _ _ ht hg)

theorem Reach.run (hs : m.Reach G s)
    (h : m.Run s l t) (hg : ∀ e ∈ l, G e.source e.label) : m.Reach G t := by
  induction h with
  | nil => exact hs
  | snoc _ ht ih =>
    have hlast := hg _ (List.mem_append_right _ (List.mem_singleton.mpr rfl))
    exact .step (ih fun e he => hg e (List.mem_append_left _ he)) ht hlast

theorem Run.reach (h : m.Run s l t)
    (hs : m.start s) (hg : ∀ e ∈ l, G e.source e.label) : m.Reach G t :=
  (Reach.start hs).run h hg

theorem Reach.exists_run {t : σ} (h : m.Reach G t) :
    ∃ s l, m.start s ∧ m.Run s l t ∧ ∀ e ∈ l, G e.source e.label := by
  induction h with
  | start hs => exact ⟨_, [], hs, .nil _, by simp⟩
  | step _ ht hg ih =>
    obtain ⟨s, l, hs, hr, hl⟩ := ih
    refine ⟨s, _, hs, hr.snoc ht, fun e he => ?_⟩
    rcases List.mem_append.mp he with he | he
    · exact hl e he
    · rw [List.mem_singleton.mp he]; exact hg

theorem Run.mem_step (h : m.Run s l t) (hs : m.start s) :
    ∀ e ∈ l, m.Reach free e.source ∧ m.step e.source e.label e.target := by
  induction h with
  | nil => simp
  | snoc hr ht ih =>
    intro e he
    rcases List.mem_append.mp he with he | he
    · exact ih e he
    · rw [List.mem_singleton.mp he]
      exact ⟨hr.reach hs fun _ _ => trivial, ht⟩

theorem Run.mem_target (h : m.Run s l t)
    (hs : m.start s) (hg : ∀ e ∈ l, G e.source e.label) : ∀ e ∈ l, m.Reach G e.target := by
  induction h with
  | nil => simp
  | snoc hr ht ih =>
    have hleft := fun e he => hg e (List.mem_append_left _ he)
    intro e he
    rcases List.mem_append.mp he with he | he
    · exact ih hleft e he
    · rw [List.mem_singleton.mp he]
      exact (hr.snoc ht).reach hs hg

/-- **Step rule for whole runs.** If on every reachable state a step has the
property `P` exactly when it meets the condition `C`, then all steps of a run
have `P` exactly when all of them meet `C`. -/
theorem Run.steps_iff {P : σ → ι → σ → Prop} {C : σ → ι → Prop}
    (hPC : ∀ s i t, m.Reach free s → m.step s i t → (P s i t ↔ C s i))
    (h : m.Run s l t) (hs : m.start s) :
    (∀ e ∈ l, P e.source e.label e.target) ↔ ∀ e ∈ l, C e.source e.label := by
  have hmem := h.mem_step hs
  constructor <;> intro hall e he
  · exact (hPC _ _ _ (hmem e he).1 (hmem e he).2).mp (hall e he)
  · exact (hPC _ _ _ (hmem e he).1 (hmem e he).2).mpr (hall e he)

theorem Run.mono {m' : Machine σ ι} (hstep : ∀ s i t, m.step s i t → m'.step s i t)
    (h : m.Run s l t) : m'.Run s l t := by
  induction h with
  | nil => exact .nil _
  | snoc _ ht ih => exact ih.snoc (hstep _ _ _ ht)

theorem Run.append {s t u : σ} {l l' : List (Step σ ι)} (h : m.Run s l t)
    (h' : m.Run t l' u) : m.Run s (l ++ l') u := by
  induction h' with
  | nil => simpa using h
  | snoc _ ht ih => rw [← List.append_assoc]; exact ih.snoc ht

theorem Run.single {i : ι} (h : m.step s i t) : m.Run s [⟨s, i, t⟩] t := by
  simpa using Run.snoc (Run.nil (m := m) s) h

variable {e : Step σ ι} {P : σ → Prop}

/-- A step of a run, with what came before and what came after. -/
theorem Run.split (h : m.Run s l t) (he : e ∈ l) :
    m.step e.source e.label e.target ∧ (∃ l₁, m.Run s l₁ e.source ∧ ∀ x ∈ l₁, x ∈ l) ∧
      ∃ l₂, m.Run e.target l₂ t ∧ ∀ x ∈ l₂, x ∈ l := by
  induction h with
  | nil => cases he
  | @snoc t u l i hr ht ih =>
    rcases List.mem_append.mp he with he | he
    · obtain ⟨hstep, ⟨l₁, hbefore, hl₁⟩, l₂, hafter, hl₂⟩ := ih he
      refine ⟨hstep, ⟨l₁, hbefore, fun x hx => List.mem_append_left _ (hl₁ x hx)⟩, _, hafter.snoc ht, ?_⟩
      intro x hx
      rcases List.mem_append.mp hx with hx | hx
      · exact List.mem_append_left _ (hl₂ x hx)
      · exact List.mem_append_right _ hx
    · rw [List.mem_singleton.mp he]
      exact ⟨ht, ⟨l, hr, fun x hx => List.mem_append_left _ hx⟩, [], .nil _, fun x hx => nomatch hx⟩

/-- **Step rule with an invariant.** If a step from a state of the invariant has `P` exactly when it meets `C`,
and `P` keeps the invariant, then all steps of a run have `P` exactly when all of them meet `C`. -/
theorem Run.steps_iff_of_invariant {I : σ → Prop} {P : σ → ι → σ → Prop} {C : σ → ι → Prop}
    (hstart : ∀ s, m.start s → I s)
    (hstep : ∀ s i t, I s → m.step s i t → (P s i t ↔ C s i) ∧ (P s i t → I t))
    (h : m.Run s l t) (hs : m.start s) :
    (∀ e ∈ l, P e.source e.label e.target) ↔ ∀ e ∈ l, C e.source e.label := by
  suffices hboth : ((∀ e ∈ l, P e.source e.label e.target) ↔ ∀ e ∈ l, C e.source e.label) ∧
      ((∀ e ∈ l, P e.source e.label e.target) → I t) from hboth.1
  induction h with
  | nil => exact ⟨by simp, fun _ => hstart _ hs⟩
  | snoc _ ht ih =>
    obtain ⟨hiff, hinv⟩ := ih
    simp only [List.forall_mem_append, List.forall_mem_singleton]
    constructor
    · constructor
      · intro hall
        exact ⟨hiff.mp hall.1, (hstep _ _ _ (hinv hall.1) ht).1.mp hall.2⟩
      · intro hall
        have hleft := hiff.mpr hall.1
        exact ⟨hleft, (hstep _ _ _ (hinv hleft) ht).1.mpr hall.2⟩
    · intro hall
      exact (hstep _ _ _ (hinv hall.1) ht).2 hall.2

theorem Run.before {l l₁ l₂ : List (Step σ ι)} (h : m.Run s l t)
    (hl : l = l₁ ++ e :: l₂) : m.Run s l₁ e.source ∧ m.step e.source e.label e.target := by
  induction h generalizing l₂ with
  | nil => simp at hl
  | @snoc t u l i hr ht ih =>
    rcases List.eq_nil_or_concat l₂ with rfl | ⟨l₃, x, rfl⟩
    · obtain ⟨rfl, hx⟩ := List.append_inj' hl rfl
      obtain rfl := List.singleton_inj.mp hx
      exact ⟨hr, ht⟩
    · rw [List.concat_eq_append, ← List.cons_append, ← List.append_assoc] at hl
      exact ih (List.append_inj' hl rfl).1

/-- The part of a run after one of its steps is a run from that step's target. -/
theorem Run.after {l l₁ l₂ : List (Step σ ι)} (h : m.Run s l t)
    (hl : l = l₁ ++ e :: l₂) : m.Run e.target l₂ t := by
  induction h generalizing l₂ with
  | nil => simp at hl
  | @snoc t u l i hr ht ih =>
    rcases List.eq_nil_or_concat l₂ with rfl | ⟨l₃, x, rfl⟩
    · obtain ⟨-, hx⟩ := List.append_inj' hl rfl
      obtain rfl := List.singleton_inj.mp hx
      exact .nil _
    · rw [List.concat_eq_append] at hl ⊢
      rw [← List.cons_append, ← List.append_assoc] at hl
      obtain ⟨hleft, hx⟩ := List.append_inj' hl rfl
      obtain rfl := List.singleton_inj.mp hx
      exact (ih hleft).snoc ht

/-- Run a list of labels through an executable step function. -/
def exec (f : σ → ι → Option σ) : σ → List ι → Option σ
  | s, [] => some s
  | s, i :: is => (f s i).bind fun t => exec f t is

theorem exec_reach {start : σ → Prop} :
    ∀ {is : List ι} {s t : σ}, (ofFun start f).Reach free s → exec f s is = some t →
      (ofFun start f).Reach free t
  | [], s, t, hs, h => by cases h; exact hs
  | i :: is, s, t, hs, h => by
      obtain ⟨u, hu, ht⟩ := Option.bind_eq_some_iff.mp h
      exact exec_reach (.step hs hu trivial) ht

/-- What `exec` computes with a guard that is checked at every step is reachable under it. -/
theorem exec_reach_guarded {start : σ → Prop}
    [∀ s i, Decidable (G s i)] :
    ∀ {is : List ι} {s t : σ}, (ofFun start f).Reach G s →
      exec (fun s i => if G s i then f s i else none) s is = some t → (ofFun start f).Reach G t
  | [], s, t, hs, h => by cases h; exact hs
  | i :: is, s, t, hs, h => by
      obtain ⟨u, hu, ht⟩ := Option.bind_eq_some_iff.mp h
      dsimp only at hu
      by_cases hg : G s i
      · rw [if_pos hg] at hu
        exact exec_reach_guarded (.step hs hu hg) ht
      · rw [if_neg hg] at hu
        cases hu

/-- The steps `exec` takes. -/
def steps (f : σ → ι → Option σ) : σ → List ι → List (Step σ ι)
  | _, [] => []
  | s, i :: is =>
    match f s i with
    | some t => ⟨s, i, t⟩ :: steps f t is
    | none => []

theorem run_steps :
    ∀ {is : List ι} {s t : σ}, exec f s is = some t → (ofFun P f).Run s (steps f s is) t
  | [], s, t, h => by cases h; exact .nil s
  | i :: is, s, t, h => by
      obtain ⟨u, hu, ht⟩ := Option.bind_eq_some_iff.mp h
      rw [steps, hu]
      exact (Run.single hu).append (run_steps ht)

theorem labels_steps :
    ∀ {is : List ι} {s t : σ}, exec f s is = some t → (steps f s is).map Step.label = is
  | [], _, _, _ => rfl
  | i :: is, s, t, h => by
      obtain ⟨u, hu, ht⟩ := Option.bind_eq_some_iff.mp h
      rw [steps, hu]
      exact congrArg (i :: ·) (labels_steps ht)

theorem exec_run_labels {is : List ι} (h : exec f s is = some t) :
    ∃ l, (ofFun P f).Run s l t ∧ l.map Step.label = is :=
  ⟨_, run_steps h, labels_steps h⟩

theorem exec_run {is : List ι} (h : exec f s is = some t) :
    ∃ l, (ofFun P f).Run s l t := by
  obtain ⟨l, hl, -⟩ := exec_run_labels (P := P) h
  exact ⟨l, hl⟩

theorem exists_of_any {o : Option σ} {p : σ → Bool} (h : o.any p = true) :
    ∃ t, o = some t ∧ p t = true := by
  cases o with
  | none => cases h
  | some t => exact ⟨t, rfl, h⟩

end Machine

end Caips.Logic
