/-
Caips.Logic.CoroChildren — tasks that do not outlive the one that started them.

What a task knows of its children is in the answers it has received: a wait or
a join that went on `Shows` which of them are over. A task whose trail shows all
its children over, whatever way it took (`Clean`), leaves none of them running.

An interrupt at such an await shows the same only if it is passed on to the
children, and if the await then goes on when they have ended. Where this is so
is for the user of the library to say.
-/
import Caips.Logic.CoroTriple

namespace Caips.Logic

variable {Γ : Sig} {α β : Type}

/-- The task at this place of the pool has ended. -/
def Pool.Over (p : Pool Γ) (j : Nat) : Prop := (p.tasks[j]?.any Task.isDone) = true

instance (p : Pool Γ) (j : Nat) : Decidable (p.Over j) :=
  inferInstanceAs (Decidable ((p.tasks[j]?.any Task.isDone) = true))

theorem Pool.Ended.shows_over {p : Pool Γ} {h : Γ.Handle} {o : Except Γ.Exc (Γ.Out h.2)}
    (hended : p.Ended h o) : p.Over h.1 := by
  obtain ⟨hist, htask⟩ := hended
  unfold Pool.Over
  rw [htask]
  rfl

/-- The answer tells that the task with this number is over, if an interrupt of
its await was passed on. -/
def Shows : Event Γ → Nat → Prop
  | ⟨.wait _ _, .ok (l : List Γ.Ending)⟩, n => ∃ x ∈ l, x.1.1 = n
  | ⟨.wait m hs, .error _⟩, n => m ≠ .first ∧ ∃ h ∈ hs, h.1 = n
  | ⟨.join h, _⟩, n => h.1 = n
  | ⟨.call _, _⟩, _ => False

/-- An interrupted wait for all children, or for one of them, has passed the
interrupt on and gone on when they were over. A wait for the first child passes
nothing on. -/
def Passed (p : Pool Γ) (m : Wait → Prop) : (q : Ask Γ) → Except Γ.Exc q.Reply → Prop
  | .wait w hs, .error _ => m w → ∀ h ∈ hs, p.Over h.1
  | .join h, .error _ => p.Over h.1
  | _, _ => True

namespace Program

variable {P : Program Γ} {G : Pool Γ → Move Γ P.Op → Prop} {p p' : Pool Γ}

/-- What is over stays so. -/
theorem over_step {m : Move Γ P.Op} (hcrash : ∀ s, P.reboot s = none) (h : P.step p m = some p')
    {j : Nat} (hj : p.Over j) : p'.Over j := by
  unfold Pool.Over at hj
  cases ht : p.tasks[j]? with
  | none => rw [ht] at hj; cases hj
  | some t =>
    rw [ht] at hj
    have hdone : t.isDone = true := hj
    obtain ⟨t', ht', -⟩ := child_step hcrash h ht
    unfold Pool.Over
    rw [ht']
    show t'.isDone = true
    cases became hcrash h ht' with
    | same hold => rwa [Option.some.inj (hold.symm.trans ht)]
    | new hge => exact absurd (List.getElem?_eq_some_iff.mp ht).1 (Nat.not_lt.mpr hge)
    | started hold =>
      obtain rfl := Option.some.inj (hold.symm.trans ht)
      cases hdone
    | resumed hold =>
      obtain rfl := Option.some.inj (hold.symm.trans ht)
      cases hdone

variable {init : Γ.State → Prop}

/-- A task that is over has ended as one of its kind. -/
theorem done_of_over {p'' : Pool Γ} {m : Move Γ P.Op}
    {z : List (Machine.Step (Pool Γ) (Move Γ P.Op))} (hcrash : ∀ s, P.reboot s = none) {i : Nat}
    {t : Task Γ} (hi : p.tasks[i]? = some t) (hstep : P.step p m = some p')
    (hrun : (P.machine init).Run p' z p'') (hover : p''.Over i) :
    ∃ o hist, p''.tasks[i]? = some ⟨t.child, .done o, hist⟩ := by
  obtain ⟨t₁, ht₁, hchild₁⟩ := child_step hcrash hstep hi
  obtain ⟨⟨c, status, hist⟩, ht₂, hchild₂⟩ := child_run hcrash hrun ht₁
  obtain rfl : c = t.child := hchild₂.trans hchild₁
  unfold Pool.Over at hover
  rw [ht₂] at hover
  cases status with
  | ready => cases hover
  | suspended q k => cases hover
  | done o => exact ⟨o, hist, ht₂⟩

/-- What holds of every answer when it is given, and stays so, holds of all the
answers the tasks have received. -/
theorem hist_invariant {R : Pool Γ → Event Γ → Prop}
    (hcrash : ∀ s, P.reboot s = none)
    (hkeep : ∀ p m p', P.step p m = some p' → ∀ e, R p e → R p' e)
    (hanswer : ∀ p i a t q k, G p (.resume i a) → p.tasks[i]? = some t →
      t.status = .suspended q k → P.Answers p q (a q) → R p ⟨q, a q⟩)
    (hp : (P.machine init).Reach G p) : ∀ t ∈ p.tasks, ∀ e ∈ t.hist, R p e := by
  induction hp with
  | start hstart =>
    intro t ht
    rw [hstart.2] at ht
    exact absurd ht List.not_mem_nil
  | @step p p' m hp hstep hG ih =>
    intro t ht e he
    obtain ⟨i, hi⟩ := List.mem_iff_getElem?.mp ht
    cases became hcrash hstep.1 hi with
    | same hold => exact hkeep _ _ _ hstep.1 e (ih t (List.mem_of_getElem? hold) e he)
    | new _ _ hhist =>
      rw [hhist] at he
      exact absurd he List.not_mem_nil
    | started hold => exact hkeep _ _ _ hstep.1 e (ih _ (List.mem_of_getElem? hold) e he)
    | @resumed c l q k a hold =>
      refine hkeep _ _ _ hstep.1 e ?_
      rcases List.mem_cons.mp he with rfl | he
      · exact hanswer p i a _ q k hG hold rfl (hstep.2 _ (by rw [hold]; rfl) q k rfl)
      · exact ih _ (List.mem_of_getElem? hold) e he

/-- Where interrupts are passed on, what an answer shows over is over. -/
theorem shown_over (hcrash : ∀ s, P.reboot s = none)
    (hpassed : ∀ p i a t q k, G p (.resume i a) → p.tasks[i]? = some t →
      t.status = .suspended q k → Passed p (· ≠ .first) q (a q))
    (hp : (P.machine init).Reach G p) {t : Task Γ} (ht : t ∈ p.tasks) {e : Event Γ}
    (he : e ∈ t.hist) {n : Nat} (hn : Shows e n) : p.Over n := by
  refine hist_invariant (R := fun p e => ∀ n, Shows e n → p.Over n) hcrash
    (fun p m p' hstep e h n hn => over_step hcrash hstep (h n hn)) ?_ hp t ht e he n hn
  intro p i a t q k hG ht hq hans n hn
  have hpass := hpassed p i a t q k hG ht hq
  cases q with
  | call q => exact hn.elim
  | wait m hs =>
    cases hr : a (.wait m hs) with
    | ok l =>
      rw [hr] at hn hans
      obtain ⟨x, hx, rfl⟩ := hn
      exact (hans.1 x hx).2.shows_over
    | error e =>
      rw [hr] at hn hpass
      obtain ⟨hm, h, hh, rfl⟩ := hn
      exact hpass hm h hh
  | join h =>
    obtain rfl : h.1 = n := hn
    cases hr : a (.join h) with
    | ok x =>
      rw [hr] at hans
      exact Pool.Ended.shows_over hans
    | error e =>
      rw [hr] at hpass
      exact hpass

end Program

/-! ## Trails that show all children over -/

/-- All children on the trail but these are shown over. -/
def Clean (hs : List Γ.Handle) (l : Trail Γ) : Prop :=
  ∀ h ∈ l.started, h ∈ hs ∨ ∃ e ∈ l.events, Shows e h.1

theorem clean_nil : Clean [] ([] : Trail Γ) := fun _ h => absurd h List.not_mem_nil

namespace Clean

variable {hs hs' : List Γ.Handle} {l : Trail Γ}

theorem mono (h : Clean hs l) (hsub : ∀ x ∈ hs, x ∈ hs') : Clean hs' l :=
  fun x hx => (h x hx).imp (hsub x) id

theorem event (h : Clean hs l) {e : Event Γ} (he : ∀ x ∈ hs, x ∈ hs' ∨ Shows e x.1) :
    Clean hs' (.inl e :: l) := by
  intro x hx
  rcases h x hx with hmem | ⟨e', he', hshown⟩
  · rcases he x hmem with hmem' | hshown
    · exact .inl hmem'
    · exact .inr ⟨e, List.mem_cons_self, hshown⟩
  · exact .inr ⟨e', List.mem_cons_of_mem _ he', hshown⟩

theorem other (h : Clean hs l) (e : Event Γ) : Clean hs (.inl e :: l) := h.event fun _ hx => .inl hx

theorem start (h : Clean hs l) (x : Γ.Handle) : Clean (x :: hs) (.inr x :: l) := by
  intro y hy
  rcases List.mem_cons.mp hy with rfl | hy
  · exact .inl List.mem_cons_self
  · exact (h y hy).imp (List.mem_cons_of_mem _) id

end Clean

end Caips.Logic
