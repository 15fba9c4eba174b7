/-
Caips.Harness.RuntimeTheorems — when `HarnessRuntime` keeps one live
executor per run.

`_forget(rid)` pops whatever is stored for the run, and it runs after the
task it belongs to has completed. If `spawn` has stored a newer task by
then, the newer task is the one that is forgotten while it is still
running: `stop` no longer sees it and the next `spawn` starts a second
executor. `single_executor` says that this is the only way to lose the law:
it holds after every step of a run exactly when no done-callback of the run
fires while an unfinished task is stored for its run id.
-/
import Caips.Harness.Runtime

namespace Caips.Harness

open Caips.Logic

namespace HarnessRuntime

/-- The task object at an index, when it is not done. -/
def unfinished (s : HarnessRuntime) (i : Nat) (t : Task) : Prop :=
  s.created[i]? = some t ∧ t.status ≠ .done

/-- One live executor per run, every live executor is the stored one, and `stop`
cancels and awaits all of them. -/
structure SingleExecutor (s : HarnessRuntime) : Prop where
  one : ∀ i j t u, s.unfinished i t → s.unfinished j u → t.rid = u.rid → i = j
  stored : ∀ i t, s.unfinished i t → s.tasks.get? t.rid = some i
  stopped : ∀ i t, s.unfinished i t → i ∈ s.stopTargets

variable {s : HarnessRuntime}

theorem SingleExecutor.of_stored
    (h : ∀ i t, s.unfinished i t → s.tasks.get? t.rid = some i) : s.SingleExecutor where
  one i j t u ht hu heq := by
    have h1 := h i t ht
    have h2 := h j u hu
    rw [heq, h2] at h1
    exact (Option.some.inj h1).symm
  stored := h
  stopped i t ht := Dict.mem_values (h i t ht)

/-- A done-callback that fires while an unfinished task is stored for its run. -/
def forgetsLive (s : HarnessRuntime) : Event → Bool
  | .callback i =>
    match s.created[i]? with
    | some t => (s.tasks.get? t.rid).any fun j => !s.isDone j
    | none => false
  | _ => false

/-- The law, with the reason it survives a `spawn`: what is stored for a run is
a task of that run. -/
structure Inv (s : HarnessRuntime) : Prop where
  stored : ∀ i t, s.unfinished i t → s.tasks.get? t.rid = some i
  own : ∀ rid i, s.tasks.get? rid = some i → ∃ t, s.created[i]? = some t ∧ t.rid = rid

theorem isDone_eq_false {i : Nat} :
    s.isDone i = false ↔ ∃ t, s.unfinished i t := by
  unfold isDone unfinished
  cases h : s.created[i]? with
  | none => simp
  | some t => simp

/-- Changing one task object in place, not from done to not done, keeps the law. -/
theorem Inv.update (h : s.Inv) {i : Nat} {t u : Task}
    (ht : s.created[i]? = some t) (hrid : u.rid = t.rid)
    (hdone : t.status = .done → u.status = .done) :
    Inv { s with created := s.created.set i u } := by
  refine ⟨fun j v hv => ?_, fun rid j hj => ?_⟩
  · obtain ⟨hjv, hnd⟩ := hv
    simp only [List.getElem?_set] at hjv
    split at hjv
    · next hij =>
      subst hij
      split at hjv
      · cases hjv
        rw [hrid]
        exact h.stored i t ⟨ht, fun hd => hnd (hdone hd)⟩
      · cases hjv
    · exact h.stored j v ⟨hjv, hnd⟩
  · obtain ⟨v, hv, hvr⟩ := h.own rid j hj
    by_cases hij : i = j
    · subst hij
      have hlt : i < s.created.length := (List.getElem?_eq_some_iff.mp ht).1
      refine ⟨u, by simp [hlt], ?_⟩
      rw [hrid, ← hvr, Option.some.inj (ht.symm.trans hv)]
    · exact ⟨v, by simpa [List.getElem?_set, hij] using hv, hvr⟩

theorem Inv.spawn (h : s.Inv) (rid : String) (decision : Option Bool) :
    (s.spawn rid decision).Inv := by
  unfold HarnessRuntime.spawn
  split
  · exact h
  · next hnone =>
    -- no task of this run is live: the stored one would be
    have hfree : ∀ i t, s.unfinished i t → t.rid ≠ rid := by
      rintro i t ht rfl
      apply hnone
      rw [h.stored i t ht]
      simpa using isDone_eq_false.mpr ⟨t, ht⟩
    refine ⟨fun i t ht => ?_, fun r i hi => ?_⟩
    · obtain ⟨hit, hnd⟩ := ht
      by_cases hlt : i < s.created.length
      · rw [List.getElem?_append_left hlt] at hit
        rw [Dict.get?_set_ne _ _ (Ne.symm (hfree i t ⟨hit, hnd⟩))]
        exact h.stored i t ⟨hit, hnd⟩
      · rw [List.getElem?_append_right (Nat.le_of_not_lt hlt), List.getElem?_singleton] at hit
        split at hit
        · cases hit
          have hi : i = s.created.length := by omega
          simp [hi]
        · cases hit
    · by_cases hr : rid = r
      · subst hr
        simp only [Dict.get?_set_self, Option.some.injEq] at hi
        subst hi
        exact ⟨⟨rid, decision, .created, false⟩, by simp, rfl⟩
      · rw [Dict.get?_set_ne _ _ hr] at hi
        obtain ⟨t, ht, htr⟩ := h.own r i hi
        refine ⟨t, ?_, htr⟩
        rw [List.getElem?_append_left (List.getElem?_eq_some_iff.mp ht).1]
        exact ht

/-- What one step of the event loop is, read back from the step function. -/
theorem step_cases {s u : HarnessRuntime} {e : Event} (h : s.step e = some u) :
    (∃ rid decision, e = .spawn rid decision ∧ u = s.spawn rid decision) ∨
    (∃ i t t', (e = .start i ∨ e = .complete i) ∧ s.created[i]? = some t ∧ t'.rid = t.rid ∧
      t.status ≠ .done ∧ u = { s with created := s.created.set i t' }) ∨
    (∃ i t, e = .callback i ∧ s.created[i]? = some t ∧ t.status = .done ∧
      u = { s with created := s.created.set i { t with notified := true } }.forget t.rid) := by
  cases e with
  | spawn rid decision => exact .inl ⟨rid, decision, rfl, (Option.some.inj h).symm⟩
  | start i =>
    simp only [step] at h
    split at h
    · next t ht =>
      split at h
      · next hc =>
        cases h
        exact .inr (.inl ⟨i, t, { t with status := .started }, .inl rfl, ht, rfl, by simp [hc], rfl⟩)
      · cases h
    · cases h
  | complete i =>
    simp only [step] at h
    split at h
    · next t ht =>
      split at h
      · next hc =>
        cases h
        exact .inr (.inl ⟨i, t, { t with status := .done }, .inr rfl, ht, rfl, hc, rfl⟩)
      · cases h
    · cases h
  | callback i =>
    simp only [step] at h
    split at h
    · next t ht =>
      split at h
      · next hc => cases h; exact .inr (.inr ⟨i, t, rfl, ht, hc.1, rfl⟩)
      · cases h
    · cases h

/-- Forgetting a run of which no live task is stored keeps the law. -/
theorem Inv.forget (h : s.Inv) {rid : String}
    (hfree : ∀ i t, s.unfinished i t → t.rid ≠ rid) : (s.forget rid).Inv := by
  refine ⟨fun i t ht => ?_, fun r i hi => ?_⟩
  · have hne := hfree i t ht
    simp only [HarnessRuntime.forget]
    rw [Dict.get?_pop_ne _ (Ne.symm hne)]
    exact h.stored i t ht
  · by_cases hr : rid = r
    · subst hr
      simp [HarnessRuntime.forget] at hi
    · simp only [HarnessRuntime.forget] at hi
      rw [Dict.get?_pop_ne _ hr] at hi
      exact h.own r i hi

theorem Inv.step {s u : HarnessRuntime} {e : Event} (h : s.Inv) (hst : s.step e = some u)
    (hg : ¬ s.forgetsLive e = true) : u.Inv := by
  rcases step_cases hst with ⟨rid, d, rfl, rfl⟩ | ⟨i, t, t', _, ht, hrid, hnd, rfl⟩ |
    ⟨i, t, rfl, ht, hdone, rfl⟩
  · exact h.spawn rid d
  · exact h.update ht hrid fun hd => absurd hd hnd
  · refine (h.update (u := { t with notified := true }) ht rfl fun _ => hdone).forget fun j v hv hvr => hg ?_
    -- a live task of this run would be the stored one
    have hold : s.unfinished j v := by
      obtain ⟨hjv, hnd⟩ := hv
      simp only [List.getElem?_set] at hjv
      split at hjv
      · split at hjv
        · cases hjv; exact absurd hdone hnd
        · cases hjv
      · exact ⟨hjv, hnd⟩
    have hstored := h.stored j v hold
    rw [hvr] at hstored
    simp only [forgetsLive, ht, hstored, Option.any_some, Bool.not_eq_true']
    exact isDone_eq_false.mpr ⟨v, hold⟩

/-- A callback that forgets a live task breaks the law at once. -/
theorem not_singleExecutor {s u : HarnessRuntime} {e : Event} (h : s.Inv)
    (hst : s.step e = some u) (hg : s.forgetsLive e = true) : ¬ u.SingleExecutor := by
  rcases step_cases hst with ⟨rid, d, rfl, rfl⟩ | ⟨i, t, t', rfl | rfl, ht, hrid, hnd, rfl⟩ |
    ⟨i, t, rfl, ht, hdone, rfl⟩
  · simp [forgetsLive] at hg
  · simp [forgetsLive] at hg
  · simp [forgetsLive] at hg
  · intro hsingle
    simp only [forgetsLive, ht] at hg
    cases hj : s.tasks.get? t.rid with
    | none => simp [hj] at hg
    | some j =>
      simp only [hj, Option.any_some, Bool.not_eq_true'] at hg
      obtain ⟨v, hv⟩ := isDone_eq_false.mp hg
      obtain ⟨w, hw, hwr⟩ := h.own t.rid j hj
      have hvr : v.rid = t.rid := by rw [← hwr, Option.some.inj (hv.1.symm.trans hw)]
      have hij : i ≠ j := by
        rintro rfl
        exact hv.2 (by rw [← Option.some.inj (ht.symm.trans hv.1)]; exact hdone)
      have hlive : HarnessRuntime.unfinished
          ({ s with created := s.created.set i { t with notified := true } }.forget t.rid) j v :=
        ⟨by simpa [HarnessRuntime.forget, List.getElem?_set, hij] using hv.1, hv.2⟩
      have := hsingle.stored j v hlive
      simp [HarnessRuntime.forget, hvr] at this

theorem inv_of_reach (h : machine.Reach (fun s e => ¬ s.forgetsLive e = true) s) : s.Inv := by
  refine h.invariant (I := Inv) (fun s hs => ?_) (fun s e u hi hst hg => hi.step hst hg)
  cases hs
  exact ⟨fun i t ht => by simp [unfinished] at ht, fun rid i hi => by simp at hi⟩

/-- **One live executor per run, exactly when no done-callback forgets a live
task.** For every run of the event loop: after all its steps at most one
unfinished task exists per run id and every unfinished task is the stored one,
so that `stop` reaches it, if and only if no step of the run is a done-callback
that fires while an unfinished task is stored for its run id. -/
theorem single_executor {s u : HarnessRuntime} {l : List (Machine.Step HarnessRuntime Event)}
    (h : machine.Run s l u) (hs : machine.start s) :
    (∀ e ∈ l, e.target.SingleExecutor) ↔ ∀ e ∈ l, ¬ e.source.forgetsLive e.label = true := by
  constructor
  · intro hall
    induction h with
    | nil => simp
    | snoc hr ht ih =>
      have hleft := ih fun e he => hall e (List.mem_append_left _ he)
      intro e he
      rcases List.mem_append.mp he with he | he
      · exact hleft e he
      · rw [List.mem_singleton.mp he]
        intro hg
        exact not_singleExecutor (inv_of_reach (hr.reach hs hleft)) ht hg
          (hall _ (List.mem_append_right _ (List.mem_singleton.mpr rfl)))
  · intro hall e he
    exact .of_stored (inv_of_reach (h.mem_target hs hall e he)).stored

/-- A run completes, its callback drops it, and it is resumed, while another run is executed. -/
def respawned : List Event :=
  [.spawn "r" none, .start 0, .spawn "q" none, .complete 0, .callback 0, .spawn "r" (some true), .start 2]

theorem single_executor_respawn : ∃ s l, machine.Run ⟨.empty, []⟩ l s ∧ l.map Machine.Step.label = respawned ∧
    s.created.map (fun t => (t.rid, t.status)) = [("r", .done), ("q", .created), ("r", .started)] ∧
    ∀ e ∈ l, e.target.SingleExecutor := by
  obtain ⟨s, hs, hcreated⟩ := Machine.exists_of_any
    (show (Machine.exec step ⟨.empty, []⟩ respawned).any (fun s =>
      s.created.map (fun t => (t.rid, t.status)) = [("r", .done), ("q", .created), ("r", .started)]) = true by
      decide +kernel)
  have hrun : machine.Run ⟨.empty, []⟩ (Machine.steps step ⟨.empty, []⟩ respawned) s := Machine.run_steps hs
  have hkept : ∀ e ∈ Machine.steps step ⟨.empty, []⟩ respawned, ¬ e.source.forgetsLive e.label = true := by
    decide +kernel
  exact ⟨s, _, hrun, Machine.labels_steps hs, of_decide_eq_true hcreated, (single_executor hrun rfl).mpr hkept⟩

/-- The run completes and is resumed before its done-callback has run; the
callback then drops the new task, and the next resume starts a second executor. -/
theorem two_executors :
    ∃ s, Machine.exec step ⟨.empty, []⟩
        [.spawn "r" none, .start 0, .complete 0, .spawn "r" none, .callback 0, .start 1,
          .spawn "r" none] = some s ∧
      ¬ s.SingleExecutor := by
  refine ⟨_, rfl, fun h => ?_⟩
  have := h.one 1 2 ⟨"r", none, .started, false⟩ ⟨"r", none, .created, false⟩
    ⟨rfl, by decide⟩ ⟨rfl, by decide⟩ rfl
  omega

end HarnessRuntime

end Caips.Harness
