/-
Caips.Logic.CoroPool — what the tasks of an event loop do, each as its own
coroutine.

When all bodies keep within their bounds (`Bounded`), so do all tasks of every
pool reached (`Scoped`). When the operations of the outside world are `N`-steps
too (`Tame`), every step of a pool is one, so a task has done what its body does
in the environment that changes the state by `N`-steps (`Traced`), and the
children on its trail are the tasks it has added to the pool (`Lists`).

The state a task was left in by its own last step is exact (`TracedTo`); since
then the others may have changed it.
-/
import Caips.Logic.CoroTrace

namespace Caips.Logic

variable {Γ : Sig} {α β : Type}

/-- What is left of a task that has had its first burst. -/
def Status.left {c : Γ.Child} : Status Γ c → Option (Coro Γ (Γ.Out c))
  | .ready => none
  | .suspended q k => some (.await q k)
  | .done o => some (Coro.ofExcept o)

theorem Status.left_ne_act {c : Γ.Child} {st : Status Γ c} {d : Coro Γ (Γ.Out c)}
    (h : st.left = some d) : ∀ f g, d ≠ .act f g := by
  rintro f g rfl
  cases st with
  | ready => cases h
  | suspended q k => cases h
  | done o => cases o <;> cases h

/-- Children with the numbers they get, from `n` on. -/
def numbered : Nat → List Γ.Child → List Γ.Handle
  | _, [] => []
  | n, d :: ds => (n, d) :: numbered (n + 1) ds

theorem mem_numbered {h : Γ.Handle} :
    ∀ {n : Nat} {ds : List Γ.Child}, h ∈ numbered n ds ↔ ∃ j, ds[j]? = some h.2 ∧ h.1 = n + j
  | n, [] => ⟨fun hmem => absurd hmem List.not_mem_nil, fun ⟨j, hj, _⟩ => nomatch hj⟩
  | n, d :: ds => by
      rw [numbered, List.mem_cons, mem_numbered]
      constructor
      · rintro (rfl | ⟨j, hj, hn⟩)
        · exact ⟨0, rfl, rfl⟩
        · exact ⟨j + 1, hj, by rw [hn, Nat.add_assoc, Nat.add_comm 1 j]⟩
      · rintro ⟨j, hj, hn⟩
        cases j with
        | zero => exact .inl (Prod.ext hn (Option.some.inj hj).symm)
        | succ j => exact .inr ⟨j, hj, by rw [hn, Nat.add_assoc, Nat.add_comm 1 j]⟩

namespace Coro

variable {d : Γ.Child} {φ : Ask Γ → Prop} {N : Γ.State → Γ.State → Prop} {E : Env Γ}

/-- A burst is an execution without answers, which starts the children forked. -/
theorem Exec.of_burst {c : Coro Γ (Γ.Out d)} :
    ∀ {n : Nat} {s : Γ.State}, ∃ c' l, (c.burst n s).status.left = some c' ∧
      Exec E c s l c' (c.burst n s).state ∧ l.events = [] ∧
        l.started = (numbered n (c.burst n s).forked).reverse := by
  induction c with
  | ret a => exact fun {n s} => ⟨_, [], rfl, .refl _ _, rfl, rfl⟩
  | fail e => exact fun {n s} => ⟨_, [], rfl, .refl _ _, rfl, rfl⟩
  | act f k ih =>
    intro n s
    obtain ⟨c', l, hc', h, hl, hstarted⟩ := ih s (n := n) (s := f s)
    exact ⟨c', l, hc', .act h, hl, hstarted⟩
  | await q k _ => exact fun {n s} => ⟨_, [], rfl, .refl _ _, rfl, rfl⟩
  | fork d k ih =>
    intro n s
    obtain ⟨c', l, hc', h, hl, hstarted⟩ := ih n (n := n + 1) (s := s)
    refine ⟨c', l ++ [.inr (n, d)], hc', .fork h, by simp [hl], ?_⟩
    rw [Trail.started_append, hstarted, burst, numbered, List.reverse_cons]
    rfl

/-- A burst is an `N`-step, and leaves a coroutine within the same bounds. -/
theorem Within.burst {c : Coro Γ (Γ.Out d)} (hrefl : ∀ s, N s s)
    (htrans : ∀ s s' s'', N s s' → N s' s'' → N s s'') (h : c.Within φ N) :
    ∀ {n : Nat} {s : Γ.State}, N s (c.burst n s).state ∧
      ∃ c', (c.burst n s).status.left = some c' ∧ c'.Within φ N := by
  induction c with
  | ret a => exact fun {n s} => ⟨hrefl s, _, rfl, trivial⟩
  | fail e => exact fun {n s} => ⟨hrefl s, _, rfl, trivial⟩
  | act f k ih =>
    intro n s
    obtain ⟨hN, hleft⟩ := ih s (h s).2 (n := n) (s := f s)
    exact ⟨htrans _ _ _ (h s).1 hN, hleft⟩
  | await q k _ => exact fun {n s} => ⟨hrefl s, _, rfl, h⟩
  | fork d k ih => exact fun {n s} => ih n (h n).2

end Coro

namespace Program

open Coro

variable (P : Program Γ)

/-! ## Bounds -/

/-- All bodies keep within their bounds, and the program does not crash. -/
structure Bounded (φ : Γ.Child → Ask Γ → Prop) (N : Γ.State → Γ.State → Prop) : Prop where
  refl : ∀ s, N s s
  trans : ∀ s s' s'', N s s' → N s' s'' → N s s''
  body : ∀ i c, (P.body i c).Within (φ c) N
  reboot : ∀ s, P.reboot s = none

/-- And the operations of the outside world a guard allows are `N`-steps too. -/
structure Tame (φ : Γ.Child → Ask Γ → Prop) (N : Γ.State → Γ.State → Prop)
    (G : Pool Γ → Move Γ P.Op → Prop) : Prop extends P.Bounded φ N where
  enter : ∀ c s s', P.enter c s = some s' → N s s'
  op : ∀ p o s, G p (.op o) → P.op o p.state = some s → N p.state s

/-- All tasks keep within the bounds of their kind from here on. -/
def Scoped (φ : Γ.Child → Ask Γ → Prop) (N : Γ.State → Γ.State → Prop) (p : Pool Γ) : Prop :=
  ∀ t ∈ p.tasks, ∀ c, t.status.left = some c → c.Within (φ t.child) N

/-- A wait ends with some of its children, as many as it waits for, or with the
interrupt. -/
def Waited (m : Wait) (hs : List Γ.Handle) : Except Γ.Exc (List Γ.Ending) → Prop
  | .ok l => (∀ x ∈ l, x.1 ∈ hs) ∧ (m = .first → l ≠ []) ∧ (m = .all → ∀ h ∈ hs, ∃ o, ⟨h, o⟩ ∈ l)
  | .error e => e = Γ.interrupt

/-- The environment of one task: the others and the outside world change the
state by `N`-steps and answer as the program says. -/
def world (N : Γ.State → Γ.State → Prop) : Env Γ
  | s, .call q, r, s' => N s s' ∧ P.answers q s' r
  | s, .wait m hs, r, s' => N s s' ∧ Waited m hs r
  | s, .join _, _, s' => N s s'

/-- Task `i` has come, from its start in the state `s₀` along the trail `l`, to
what is left of it in the state `s`. -/
def TracedTo (N : Γ.State → Γ.State → Prop) (i : Nat) (t : Task Γ) (s₀ : Γ.State) (l : Trail Γ)
    (s : Γ.State) : Prop :=
  t.hist = l.events ∧ ∃ c, t.status.left = some c ∧ Exec (P.world N) (P.body i t.child) s₀ l c s

/-- The same, some `N`-steps ago. -/
def Traced (N : Γ.State → Γ.State → Prop) (p : Pool Γ) (i : Nat) (t : Task Γ) (s₀ : Γ.State)
    (l : Trail Γ) : Prop := ∃ s, P.TracedTo N i t s₀ l s ∧ N s p.state

/-- The move runs a burst of task `i`. -/
def Moves (i : Nat) : Move Γ P.Op → Prop
  | .start j => j = i
  | .resume j _ => j = i
  | _ => False

/-- Task `j` was started by task `i` in one of these steps. -/
def StartedBy (z : List (Machine.Step (Pool Γ) (Move Γ P.Op))) (i j : Nat) : Prop :=
  ∃ e ∈ z, P.Moves i e.label ∧ e.source.tasks.length ≤ j ∧ j < e.target.tasks.length

/-- The trail of task `i` lists the tasks it started in these steps, and they are
of the kinds it says. -/
structure Lists (z : List (Machine.Step (Pool Γ) (Move Γ P.Op))) (p : Pool Γ) (i : Nat)
    (l : Trail Γ) : Prop where
  listed : ∀ j, P.StartedBy z i j → ∃ h ∈ l.started, h.1 = j
  children : ∀ h ∈ l.started, ∃ t, p.tasks[h.1]? = some t ∧ t.child = h.2

variable {P} {φ : Γ.Child → Ask Γ → Prop} {N : Γ.State → Γ.State → Prop}
  {G : Pool Γ → Move Γ P.Op → Prop} {p p' : Pool Γ}

theorem world_step {s s' : Γ.State} {q : Ask Γ} {r : Except Γ.Exc q.Reply}
    (h : P.world N s q r s') : N s s' := by
  cases q with
  | call q => exact h.1
  | wait m hs => exact h.1
  | join hd => exact h

theorem world_of_answers {s : Γ.State} {q : Ask Γ} {r : Except Γ.Exc q.Reply} (hN : N s p.state)
    (h : P.Answers p q r) : P.world N s q r p.state := by
  cases q with
  | call q => exact ⟨hN, h⟩
  | wait m hs =>
    refine ⟨hN, ?_⟩
    cases r with
    | ok l => exact ⟨fun x hx => (h.1 x hx).1, h.2⟩
    | error e => exact h
  | join hd => exact hN

/-! ## What a step makes of a task -/

/-- The tasks after a burst of task `j`: its new self, the others as they were,
and the children. -/
theorem getElem?_advance {i j : Nat} {t u : Task Γ} {l : List (Event Γ)} {b : Burst Γ t.child}
    (h : (p.advance j t l b).tasks[i]? = some u) :
    (i = j ∧ j < p.tasks.length ∧ u = ⟨t.child, b.status, l⟩) ∨ (i ≠ j ∧ p.tasks[i]? = some u) ∨
      (p.tasks.length ≤ i ∧ u.status = .ready ∧ u.hist = []) := by
  rcases Nat.lt_or_ge i p.tasks.length with hi | hi
  · rw [Pool.advance, List.getElem?_append_left (by simpa using hi)] at h
    rcases eq_or_ne i j with rfl | hij
    · rw [List.getElem?_set_self hi] at h
      exact .inl ⟨rfl, hi, (Option.some.inj h).symm⟩
    · rw [List.getElem?_set_ne hij.symm] at h
      exact .inr (.inl ⟨hij, h⟩)
  · rw [Pool.advance, List.getElem?_append_right (by simpa using hi)] at h
    obtain ⟨c, -, rfl⟩ := List.mem_map.mp (List.mem_of_getElem? h)
    exact .inr (.inr ⟨hi, rfl, rfl⟩)

variable {i : Nat} {m : Move Γ P.Op} {z : List (Machine.Step (Pool Γ) (Move Γ P.Op))} {init : Γ.State → Prop}

theorem child_advance {j : Nat} {t u : Task Γ} {l : List (Event Γ)} {b : Burst Γ t.child}
    (hi : p.tasks.length ≤ i) (h : (p.advance j t l b).tasks[i]? = some u) :
    b.forked[i - p.tasks.length]? = some u.child := by
  rw [Pool.advance, List.getElem?_append_right (by simpa using hi), List.length_set,
    List.getElem?_map] at h
  obtain ⟨d, hd, rfl⟩ := Option.map_eq_some_iff.mp h
  exact hd

/-- What a step can make of the task at one place of the pool: the task that was
there, a new one, or one that has run a burst, its first or a later one. -/
inductive Became (P : Program Γ) (p : Pool Γ) (i : Nat) (p' : Pool Γ) :
    Move Γ P.Op → Task Γ → Prop
  | same {m : Move Γ P.Op} {t : Task Γ} : p.tasks[i]? = some t → ¬ P.Moves i m →
      Became P p i p' m t
  | new {m : Move Γ P.Op} {t : Task Γ} : p.tasks.length ≤ i → t.status = .ready → t.hist = [] →
      Became P p i p' m t
  | started {c : Γ.Child} {l : List (Event Γ)} : p.tasks[i]? = some ⟨c, .ready, l⟩ →
      p' = p.advance i ⟨c, .ready, l⟩ l ((P.body i c).burst p.tasks.length p.state) →
      Became P p i p' (.start i) ⟨c, ((P.body i c).burst p.tasks.length p.state).status, l⟩
  | resumed {c : Γ.Child} {l : List (Event Γ)} {q : Ask Γ}
      {k : Except Γ.Exc q.Reply → Coro Γ (Γ.Out c)} {a : Oracle Γ} :
      p.tasks[i]? = some ⟨c, .suspended q k, l⟩ →
      p' = p.advance i ⟨c, .suspended q k, l⟩ (⟨q, a q⟩ :: l)
        ((k (a q)).burst p.tasks.length p.state) →
      Became P p i p' (.resume i a)
        ⟨c, ((k (a q)).burst p.tasks.length p.state).status, ⟨q, a q⟩ :: l⟩

/-- What a step of a program that does not crash makes of a task. -/
theorem became (hcrash : ∀ s, P.reboot s = none) (h : P.step p m = some p')
    {t : Task Γ} (ht : p'.tasks[i]? = some t) : Became P p i p' m t := by
  cases m with
  | spawn c =>
    obtain ⟨s, -, rfl⟩ := Option.map_eq_some_iff.mp h
    rcases Nat.lt_or_ge i p.tasks.length with hi | hi
    · rw [List.getElem?_append_left hi] at ht
      exact .same ht id
    · rw [List.getElem?_append_right hi] at ht
      obtain rfl := List.mem_singleton.mp (List.mem_of_getElem? ht)
      exact .new hi rfl rfl
  | start j =>
    simp only [Program.step] at h
    split at h
    · rename_i c l hj
      obtain rfl := Option.some.inj h
      rcases getElem?_advance ht with ⟨rfl, -, rfl⟩ | ⟨hne, hold⟩ | ⟨hge, hready, hhist⟩
      · exact .started hj rfl
      · exact .same hold fun heq => hne heq.symm
      · exact .new hge hready hhist
    · cases h
  | resume j a =>
    simp only [Program.step] at h
    split at h
    · rename_i c q k l hj
      obtain rfl := Option.some.inj h
      rcases getElem?_advance ht with ⟨rfl, -, rfl⟩ | ⟨hne, hold⟩ | ⟨hge, hready, hhist⟩
      · exact .resumed hj rfl
      · exact .same hold fun heq => hne heq.symm
      · exact .new hge hready hhist
    · cases h
  | op o =>
    obtain ⟨s, -, rfl⟩ := Option.map_eq_some_iff.mp h
    exact .same ht id
  | crash j a n =>
    simp only [Program.step, Option.bind_eq_bind, Option.bind_eq_some_iff] at h
    obtain ⟨_, -, x, -, s, hs, -⟩ := h
    rw [hcrash] at hs
    cases hs

/-- Tasks are never removed. -/
theorem length_le (hcrash : ∀ s, P.reboot s = none) (h : P.step p m = some p') :
    p.tasks.length ≤ p'.tasks.length := by
  have hadvance : ∀ i t l b, p.tasks.length ≤ (p.advance i t l b).tasks.length := by
    intro i t l b
    simp [Pool.advance]
  cases m with
  | spawn c =>
    obtain ⟨s, -, rfl⟩ := Option.map_eq_some_iff.mp h
    simp
  | start j =>
    simp only [Program.step] at h
    split at h
    · obtain rfl := Option.some.inj h
      exact hadvance _ _ _ _
    · cases h
  | resume j a =>
    simp only [Program.step] at h
    split at h
    · obtain rfl := Option.some.inj h
      exact hadvance _ _ _ _
    · cases h
  | op o =>
    obtain ⟨s, -, rfl⟩ := Option.map_eq_some_iff.mp h
    exact Nat.le_refl _
  | crash j a n =>
    simp only [Program.step, Option.bind_eq_bind, Option.bind_eq_some_iff] at h
    obtain ⟨_, -, x, -, s, hs, -⟩ := h
    rw [hcrash] at hs
    cases hs

theorem length_le_run
    (hcrash : ∀ s, P.reboot s = none) (h : (P.machine init).Run p z p') : p.tasks.length ≤ p'.tasks.length := by
  induction h with
  | nil => exact Nat.le_refl _
  | snoc _ hstep ih => exact Nat.le_trans ih (length_le hcrash hstep.1)

theorem StartedBy.length_le {i j : Nat}
    (hcrash : ∀ s, P.reboot s = none) (h : P.StartedBy z i j) (hrun : (P.machine init).Run p z p') :
    p.tasks.length ≤ j := by
  obtain ⟨e, he, -, hle, -⟩ := h
  obtain ⟨-, ⟨z₁, hbefore, -⟩, -⟩ := hrun.split he
  exact Nat.le_trans (length_le_run hcrash hbefore) hle

theorem child_step (hcrash : ∀ s, P.reboot s = none) (h : P.step p m = some p')
    {j : Nat} {t : Task Γ} (ht : p.tasks[j]? = some t) :
    ∃ t', p'.tasks[j]? = some t' ∧ t'.child = t.child := by
  have hlt := Nat.lt_of_lt_of_le (List.getElem?_eq_some_iff.mp ht).1 (length_le hcrash h)
  obtain ⟨t', ht'⟩ : ∃ t', p'.tasks[j]? = some t' := ⟨_, List.getElem?_eq_getElem hlt⟩
  refine ⟨t', ht', ?_⟩
  cases became hcrash h ht' with
  | same hold => rw [Option.some.inj (hold.symm.trans ht)]
  | new hge => exact absurd (List.getElem?_eq_some_iff.mp ht).1 (Nat.not_lt.mpr hge)
  | started hold => rw [← Option.some.inj (hold.symm.trans ht)]
  | resumed hold => rw [← Option.some.inj (hold.symm.trans ht)]

/-- What a step makes of a task that was there: it leaves it alone, starts it, or
gives it an answer. -/
theorem task_step (hcrash : ∀ s, P.reboot s = none) (h : P.step p m = some p')
    {j : Nat} {t t' : Task Γ} (ht : p.tasks[j]? = some t) (ht' : p'.tasks[j]? = some t') :
    (¬ P.Moves j m ∧ t' = t) ∨ t.status = .ready ∨
      ∃ q k a, t.status = .suspended q k ∧ m = .resume j a ∧ t'.hist = ⟨q, a q⟩ :: t.hist := by
  cases became hcrash h ht' with
  | same hold hm => exact .inl ⟨hm, Option.some.inj (hold.symm.trans ht)⟩
  | new hge => exact absurd (List.getElem?_eq_some_iff.mp ht).1 (Nat.not_lt.mpr hge)
  | started hold =>
    obtain rfl := Option.some.inj (hold.symm.trans ht)
    exact .inr (.inl rfl)
  | resumed hold =>
    obtain rfl := Option.some.inj (hold.symm.trans ht)
    exact .inr (.inr ⟨_, _, _, rfl, rfl, rfl⟩)

theorem child_run (hcrash : ∀ s, P.reboot s = none)
    (hrun : (P.machine init).Run p z p') {j : Nat}
    {t : Task Γ} (ht : p.tasks[j]? = some t) : ∃ t', p'.tasks[j]? = some t' ∧ t'.child = t.child := by
  induction hrun with
  | nil => exact ⟨t, ht, rfl⟩
  | snoc _ hstep ih =>
    obtain ⟨t', ht', hchild⟩ := ih
    obtain ⟨t'', ht'', hchild'⟩ := child_step hcrash hstep.1 ht'
    exact ⟨t'', ht'', hchild'.trans hchild⟩

/-- A task that has not started has no answers. -/
theorem hist_of_ready (hcrash : ∀ s, P.reboot s = none)
    (hp : (P.machine init).Reach G p) : ∀ t ∈ p.tasks, t.status = .ready → t.hist = [] := by
  refine hp.invariant (I := fun p => ∀ t ∈ p.tasks, t.status = .ready → t.hist = [])
    (fun p h t ht => ?_) fun p m p' ih h _ t ht hready => ?_
  · rw [h.2] at ht
    exact absurd ht List.not_mem_nil
  · obtain ⟨i, hi⟩ := List.mem_iff_getElem?.mp ht
    have hburst : ∀ {d : Γ.Child} {c : Coro Γ (Γ.Out d)} {n : Nat},
        (c.burst n p.state).status ≠ .ready := by
      intro d c n heq
      obtain ⟨c', l, hc', -⟩ := Exec.of_burst (E := P.world fun _ _ => True) (c := c)
        (n := n) (s := p.state)
      rw [heq] at hc'
      cases hc'
    cases became hcrash h.1 hi with
    | same hold => exact ih t (List.mem_of_getElem? hold) hready
    | new _ _ hhist => exact hhist
    | started hold => exact absurd hready hburst
    | resumed hold => exact absurd hready hburst

/-! ## Bounded programs -/

namespace Bounded

variable (hP : P.Bounded φ N)

include hP

/-- A step keeps all tasks within their bounds. -/
theorem scoped_step {m : Move Γ P.Op} (hp : Scoped φ N p) (h : P.step p m = some p') :
    Scoped φ N p' := by
  intro t ht c hc
  obtain ⟨i, hi⟩ := List.mem_iff_getElem?.mp ht
  have hleft : ∀ {d : Γ.Child} {c₀ c' : Coro Γ (Γ.Out d)} {n : Nat}, c₀.Within (φ d) N →
      (c₀.burst n p.state).status.left = some c' → c'.Within (φ d) N := by
    intro d c₀ c' n hwithin hc'
    obtain ⟨c₁, hc₁, hwithin'⟩ := (hwithin.burst hP.refl hP.trans (n := n) (s := p.state)).2
    obtain rfl := Option.some.inj (hc₁.symm.trans hc')
    exact hwithin'
  cases became hP.reboot h hi with
  | same hold => exact hp t (List.mem_of_getElem? hold) c hc
  | new _ hready =>
    rw [hready] at hc
    cases hc
  | started hold => exact hleft (hP.body i _) hc
  | resumed hold => exact hleft ((hp _ (List.mem_of_getElem? hold) _ rfl).2 _) hc

theorem scoped_reach {init : Γ.State → Prop} {H : Pool Γ → Move Γ P.Op → Prop}
    (hp : (P.machine init).Reach H p) : Scoped φ N p := by
  refine hp.invariant (I := Scoped φ N) (fun p h t ht => ?_) fun p m p' hp h _ => ?_
  · rw [h.2] at ht
    exact absurd ht List.not_mem_nil
  · exact hP.scoped_step hp h.1

theorem asks {init : Γ.State → Prop} (hp : (P.machine init).Reach G p) {i : Nat} {t : Task Γ}
    (ht : p.tasks[i]? = some t) {q : Ask Γ} {k : Except Γ.Exc q.Reply → Coro Γ (Γ.Out t.child)}
    (hq : t.status = .suspended q k) : φ t.child q := by
  have hscoped := hP.scoped_reach hp t (List.mem_of_getElem? ht)
  rw [hq] at hscoped
  exact (hscoped _ rfl).1

end Bounded

/-! ## Tame programs -/

namespace Tame

variable (hP : P.Tame φ N G)

include hP

/-- A step of a scoped pool is an `N`-step. -/
theorem step {m : Move Γ P.Op} (hp : Scoped φ N p) (h : P.step p m = some p') (hG : G p m) :
    N p.state p'.state := by
  cases m with
  | spawn c =>
    obtain ⟨s, hs, rfl⟩ := Option.map_eq_some_iff.mp h
    exact hP.enter c _ s hs
  | start i =>
    simp only [Program.step] at h
    split at h
    · obtain rfl := Option.some.inj h
      exact ((hP.body i _).burst hP.refl hP.trans).1
    · cases h
  | resume i a =>
    simp only [Program.step] at h
    split at h
    · rename_i c q k l ht
      obtain rfl := Option.some.inj h
      have hk := (hp _ (List.mem_of_getElem? ht) _ rfl).2 (a q)
      exact (hk.burst hP.refl hP.trans).1
    · cases h
  | op o =>
    obtain ⟨s, hs, rfl⟩ := Option.map_eq_some_iff.mp h
    exact hP.op p o s hG hs
  | crash i a n =>
    simp only [Program.step, Option.bind_eq_bind, Option.bind_eq_some_iff] at h
    obtain ⟨t, -, x, -, s, hs, -⟩ := h
    rw [hP.reboot] at hs
    cases hs

end Tame

/-! ## Traces -/

/-- The trail of a burst lists the children it adds. -/
theorem lists_advance {t : Task Γ} {hist : List (Event Γ)} {b : Burst Γ t.child} {l l₁ : Trail Γ}
    (hcrash : ∀ s, P.reboot s = none) (hl : P.Lists z p i l)
    (hl₁ : l₁.started = (numbered p.tasks.length b.forked).reverse)
    (h : P.step p m = some (p.advance i t hist b)) :
    P.Lists (z ++ [⟨p, m, p.advance i t hist b⟩]) (p.advance i t hist b) i (l₁ ++ l) := by
  constructor
  · rintro j ⟨e, he, hmoves, hge, hlt⟩
    rw [Trail.started_append]
    rcases List.mem_append.mp he with he | he
    · obtain ⟨hd, hmem, hj⟩ := hl.listed j ⟨e, he, hmoves, hge, hlt⟩
      exact ⟨hd, List.mem_append_right _ hmem, hj⟩
    · obtain rfl := List.mem_singleton.mp he
      obtain ⟨u, hu⟩ : ∃ u, (p.advance i t hist b).tasks[j]? = some u :=
        ⟨_, List.getElem?_eq_getElem hlt⟩
      have hforked := child_advance hge hu
      refine ⟨(j, u.child), List.mem_append_left _ ?_, rfl⟩
      rw [hl₁, List.mem_reverse]
      exact mem_numbered.mpr ⟨_, hforked, (Nat.add_sub_cancel' hge).symm⟩
  · intro hd hmem
    rw [Trail.started_append] at hmem
    rcases List.mem_append.mp hmem with hmem | hmem
    · rw [hl₁, List.mem_reverse] at hmem
      obtain ⟨j, hj, hn⟩ := mem_numbered.mp hmem
      refine ⟨⟨hd.2, .ready, []⟩, ?_, rfl⟩
      rw [hn, Pool.advance, List.getElem?_append_right (by simp), List.length_set,
        Nat.add_sub_cancel_left, List.getElem?_map, hj]
      rfl
    · obtain ⟨u, hu, hchild⟩ := hl.children hd hmem
      obtain ⟨u', hu', hchild'⟩ := child_step hcrash h hu
      exact ⟨u', hu', hchild'.trans hchild⟩

theorem Lists.other {l : Trail Γ} (hcrash : ∀ s, P.reboot s = none) (hl : P.Lists z p i l)
    (h : P.step p m = some p') (hm : ¬ P.Moves i m) : P.Lists (z ++ [⟨p, m, p'⟩]) p' i l := by
  constructor
  · rintro j ⟨e, he, hmoves, hbounds⟩
    rcases List.mem_append.mp he with he | he
    · exact hl.listed j ⟨e, he, hmoves, hbounds⟩
    · obtain rfl := List.mem_singleton.mp he
      exact absurd hmoves hm
  · intro hd hmem
    obtain ⟨u, hu, hchild⟩ := hl.children hd hmem
    obtain ⟨u', hu', hchild'⟩ := child_step hcrash h hu
    exact ⟨u', hu', hchild'.trans hchild⟩

/-- The step a task starts with. -/
theorem traced_start (hcrash : ∀ s, P.reboot s = none) {c : Γ.Child}
    (hi : p.tasks[i]? = some ⟨c, .ready, []⟩) (h : P.step p (.start i) = some p') :
    ∃ t l, p'.tasks[i]? = some t ∧ t.child = c ∧ P.TracedTo N i t p.state l p'.state ∧
      P.Lists [⟨p, .start i, p'⟩] p' i l := by
  have h' := h
  simp only [Program.step, hi] at h'
  obtain rfl := Option.some.inj h'
  have hlt := (List.getElem?_eq_some_iff.mp hi).1
  obtain ⟨c', l, hc', hexec, hevents, hstarted⟩ := Exec.of_burst (E := P.world N) (c := P.body i c)
    (n := p.tasks.length) (s := p.state)
  have hnone : P.Lists [] p i [] :=
    ⟨fun j ⟨e, he, _⟩ => absurd he List.not_mem_nil, fun hd hmem => absurd hmem List.not_mem_nil⟩
  have hlists := lists_advance hcrash hnone hstarted h
  rw [List.append_nil] at hlists
  refine ⟨⟨c, _, []⟩, l, ?_, rfl, ⟨hevents.symm, c', hc', hexec⟩, hlists⟩
  rw [Pool.advance, List.getElem?_append_left (by simpa using hlt), List.getElem?_set_self hlt]

/-- A step of a traced task. -/
theorem traced_step (htrans : ∀ s s' s'', N s s' → N s' s'' → N s s'')
    (hcrash : ∀ s, P.reboot s = none) (h : P.step p m = some p')
    (hadm : P.Admissible p m) (hN : N p.state p'.state) {t t' : Task Γ} {s₀ : Γ.State}
    {l : Trail Γ} (ht : p.tasks[i]? = some t) (htr : P.Traced N p i t s₀ l)
    (ht' : p'.tasks[i]? = some t') :
    (¬ P.Moves i m ∧ t' = t ∧ P.Traced N p' i t' s₀ l) ∨
      ∃ l₁, t'.child = t.child ∧ P.TracedTo N i t' s₀ (l₁ ++ l) p'.state ∧
        ∀ z, P.Lists z p i l → P.Lists (z ++ [⟨p, m, p'⟩]) p' i (l₁ ++ l) := by
  obtain ⟨s, ⟨hhist, c, hc, hexec⟩, hs⟩ := htr
  cases became hcrash h ht' with
  | same hold hm =>
    obtain rfl := Option.some.inj (hold.symm.trans ht)
    exact .inl ⟨hm, rfl, s, ⟨hhist, c, hc, hexec⟩, htrans _ _ _ hs hN⟩
  | new hge => exact absurd (List.getElem?_eq_some_iff.mp ht).1 (Nat.not_lt.mpr hge)
  | started hold =>
    obtain rfl := Option.some.inj (hold.symm.trans ht)
    cases hc
  | @resumed d hist q k a hold heq =>
    obtain rfl := Option.some.inj (hold.symm.trans ht)
    obtain rfl := Option.some.inj hc
    subst heq
    have hans := hadm _ (by rw [ht]; rfl) q k rfl
    obtain ⟨c', l₁, hc', hburst, hevents, hstarted⟩ := Exec.of_burst (E := P.world N)
      (c := k (a q)) (n := p.tasks.length) (s := p.state)
    have hstarted' : (l₁ ++ [.inl ⟨q, a q⟩] : Trail Γ).started =
        (numbered p.tasks.length ((k (a q)).burst p.tasks.length p.state).forked).reverse := by
      rw [Trail.started_append, hstarted]
      exact List.append_nil _
    refine .inr ⟨l₁ ++ [.inl ⟨q, a q⟩], rfl, ⟨?_, c', hc', ?_⟩, fun z hl =>
      lists_advance (t := ⟨d, .suspended q k, hist⟩) hcrash hl hstarted' h⟩
    · rw [Trail.events_append, Trail.events_append, hevents, ← hhist]
      rfl
    · rw [List.append_assoc]
      exact (hexec.resume (world_of_answers hs hans)).trans hburst

namespace Tame

variable (hP : P.Tame φ N G)

include hP

variable {init : Γ.State → Prop} {i : Nat}

/-- **What a task has done**, if it had not started before a run: by the end of the run it has not either, or
it has done what its body does from some state of the run on. -/
theorem known_run {p₀ : Pool Γ} {z : List (Machine.Step (Pool Γ) (Move Γ P.Op))}
    (hrun : (P.machine init).Run p₀ z p) (hG : ∀ e ∈ z, G e.source e.label) (hp : Scoped φ N p₀)
    (hi : ∀ t, p₀.tasks[i]? = some t → t.status = .ready ∧ t.hist = []) {t : Task Γ} (ht : p.tasks[i]? = some t) :
    Scoped φ N p ∧ N p₀.state p.state ∧
      (t.status = .ready ∧ t.hist = [] ∨ ∃ s₀ l, P.Traced N p i t s₀ l ∧ N p₀.state s₀) := by
  have hwhole : Scoped φ N p ∧ N p₀.state p.state ∧ ∀ t, p.tasks[i]? = some t →
      t.status = .ready ∧ t.hist = [] ∨ ∃ s₀ l, P.Traced N p i t s₀ l ∧ N p₀.state s₀ := by
    clear ht t
    induction hrun with
    | nil => exact ⟨hp, hP.refl _, fun t ht => .inl (hi t ht)⟩
    | @snoc q u z m hrun hstep ih =>
      obtain ⟨hscoped, hreached, hold⟩ := ih fun e he => hG e (List.mem_append_left _ he)
      have hN := hP.step hscoped hstep.1 (hG ⟨q, m, u⟩ (List.mem_append_right _ (List.mem_singleton.mpr rfl)))
      refine ⟨hP.scoped_step hscoped hstep.1, hP.trans _ _ _ hreached hN, fun t ht => ?_⟩
      cases became hP.reboot hstep.1 ht with
      | same h =>
        refine (hold t h).imp id ?_
        rintro ⟨s₀, l, ⟨s, htr, hs⟩, hfrom⟩
        exact ⟨s₀, l, ⟨s, htr, hP.trans _ _ _ hs hN⟩, hfrom⟩
      | new _ hready hhist => exact .inl ⟨hready, hhist⟩
      | started h =>
        obtain ⟨-, rfl⟩ | ⟨s₀, l, ⟨s, ⟨-, c, hc, -⟩, -⟩, -⟩ := hold _ h
        · obtain ⟨t', l, ht', -, htr, -⟩ := traced_start (N := N) hP.reboot h hstep.1
          obtain rfl := Option.some.inj (ht'.symm.trans ht)
          exact .inr ⟨_, l, ⟨_, htr, hP.refl _⟩, hreached⟩
        · cases hc
      | resumed h =>
        obtain ⟨hready, -⟩ | ⟨s₀, l, htr, hfrom⟩ := hold _ h
        · cases hready
        · rcases traced_step hP.trans hP.reboot hstep.1 hstep.2 hN h htr ht with ⟨hm, -⟩ | ⟨l₁, -, htr', -⟩
          · exact absurd rfl hm
          · exact .inr ⟨s₀, _, ⟨_, htr', hP.refl _⟩, hfrom⟩
  exact ⟨hwhole.1, hwhole.2.1, hwhole.2.2 t ht⟩

theorem known (hp : (P.machine init).Reach G p) {t : Task Γ}
    (ht : p.tasks[i]? = some t) : t.status = .ready ∨ ∃ s₀ l, P.Traced N p i t s₀ l := by
  obtain ⟨p₀, z, hstart, hrun, hG⟩ := hp.exists_run
  have hnone : ∀ i, p₀.tasks[i]? = none := fun i => by rw [hstart.2, List.getElem?_nil]
  obtain ⟨-, -, ⟨hready, -⟩ | ⟨s₀, l, htr, -⟩⟩ := hP.known_run hrun hG
    (fun t ht => by rw [hstart.2] at ht; exact absurd ht List.not_mem_nil) (fun t ht => nomatch (hnone i).symm.trans ht) ht
  · exact .inl hready
  · exact .inr ⟨s₀, l, htr⟩

omit hP in
/-- Only a task of the pool has a step. -/
theorem lt_of_moves {m : Move Γ P.Op} (hm : P.Moves i m) (h : P.step p m = some p') :
    i < p.tasks.length := by
  cases m with
  | start j =>
    obtain rfl : j = i := hm
    simp only [Program.step] at h
    split at h
    · rename_i c l hj
      exact (List.getElem?_eq_some_iff.mp hj).1
    · cases h
  | resume j a =>
    obtain rfl : j = i := hm
    simp only [Program.step] at h
    split at h
    · rename_i c q k l hj
      exact (List.getElem?_eq_some_iff.mp hj).1
    · cases h
  | _ => exact hm.elim

/-- After its own step a task has done what its body does, up to the state of the
pool. -/
theorem known_step (hp : (P.machine init).Reach G p) {m : Move Γ P.Op}
    (hstep : (P.machine init).step p m p') (hG : G p m) (hm : P.Moves i m) {t : Task Γ}
    (ht : p'.tasks[i]? = some t) : ∃ s₀ l, P.TracedTo N i t s₀ l p'.state := by
  have hold := lt_of_moves hm hstep.1
  have hN := hP.step (hP.scoped_reach hp) hstep.1 hG
  cases became hP.reboot hstep.1 ht with
  | same _ hm' => exact absurd hm hm'
  | new hge => exact absurd hold (Nat.not_lt.mpr hge)
  | started hold =>
    obtain rfl := hist_of_ready hP.reboot hp _ (List.mem_of_getElem? hold) rfl
    obtain ⟨t', l, ht', -, htr, -⟩ := traced_start (N := N) hP.reboot hold hstep.1
    obtain rfl := Option.some.inj (ht'.symm.trans ht)
    exact ⟨_, l, htr⟩
  | resumed hold =>
    rcases hP.known hp hold with hready | ⟨s₀, l, htr⟩
    · cases hready
    · rcases traced_step hP.trans hP.reboot hstep.1 hstep.2 hN hold htr ht with
        ⟨hm', -⟩ | ⟨l₁, -, htr', -⟩
      · exact absurd hm hm'
      · exact ⟨s₀, _, htr'⟩

/-- **One task along a run.** A run leaves a traced task traced, with its list of
children. -/
theorem traced_run {z z₀ : List (Machine.Step (Pool Γ) (Move Γ P.Op))}
    (hrun : (P.machine init).Run p z p') (hG : ∀ e ∈ z, G e.source e.label) (hp : Scoped φ N p)
    {t : Task Γ} {s₀ : Γ.State} {l : Trail Γ} (ht : p.tasks[i]? = some t)
    (htr : P.Traced N p i t s₀ l) (hl : P.Lists z₀ p i l) :
    Scoped φ N p' ∧ ∃ t' l', p'.tasks[i]? = some t' ∧ t'.child = t.child ∧
      P.Traced N p' i t' s₀ l' ∧ P.Lists (z₀ ++ z) p' i l' := by
  induction hrun with
  | nil => exact ⟨hp, t, l, ht, rfl, htr, (List.append_nil z₀).symm ▸ hl⟩
  | @snoc q u z m hrun hstep ih =>
    obtain ⟨hscoped, t', l', ht', hchild, htr', hl'⟩ := ih fun e he => hG e (List.mem_append_left _ he)
    have hG' := hG ⟨q, m, u⟩ (List.mem_append_right _ (List.mem_singleton.mpr rfl))
    have hN := hP.step hscoped hstep.1 hG'
    refine ⟨hP.scoped_step hscoped hstep.1, ?_⟩
    obtain ⟨t'', ht'', hchild'⟩ := child_step hP.reboot hstep.1 ht'
    rw [← List.append_assoc]
    rcases traced_step hP.trans hP.reboot hstep.1 hstep.2 hN ht' htr' ht'' with
      ⟨hm, -, htr''⟩ | ⟨l₁, -, htr'', hlists⟩
    · exact ⟨t'', l', ht'', hchild'.trans hchild, htr'', hl'.other hP.reboot hstep.1 hm⟩
    · exact ⟨t'', l₁ ++ l', ht'', hchild'.trans hchild, ⟨_, htr'', hP.refl _⟩, hlists _ hl'⟩

/-- **A task from its start on.** What it has done by any later pool, and which
children it has started. -/
theorem traced_from {p'' : Pool Γ}
    {z : List (Machine.Step (Pool Γ) (Move Γ P.Op))} {c : Γ.Child}
    (hp : Scoped φ N p) (hi : p.tasks[i]? = some ⟨c, .ready, []⟩)
    (h : P.step p (.start i) = some p') (hrun : (P.machine init).Run p' z p'')
    (hG : ∀ e ∈ z, G e.source e.label) :
    ∃ t l, p''.tasks[i]? = some t ∧ t.child = c ∧ P.Traced N p'' i t p.state l ∧
      P.Lists (⟨p, .start i, p'⟩ :: z) p'' i l := by
  obtain ⟨t, l, ht, hchild, htr, hl⟩ := traced_start (N := N) hP.reboot hi h
  obtain ⟨-, t', l', ht', hchild', htr', hl'⟩ :=
    hP.traced_run hrun hG (hP.scoped_step hp h) ht ⟨_, htr, hP.refl _⟩ hl
  exact ⟨t', l', ht', hchild'.trans hchild, htr', hl'⟩

/-- The same right after each step of its own. -/
theorem traced_at {p'' : Pool Γ}
    {z : List (Machine.Step (Pool Γ) (Move Γ P.Op))} {c : Γ.Child}
    (hp : Scoped φ N p) (hi : p.tasks[i]? = some ⟨c, .ready, []⟩)
    (h : P.step p (.start i) = some p') (hrun : (P.machine init).Run p' z p'')
    (hG : ∀ e ∈ z, G e.source e.label) {e : Machine.Step (Pool Γ) (Move Γ P.Op)}
    (he : e ∈ ⟨p, .start i, p'⟩ :: z) (hm : P.Moves i e.label) :
    ∃ t l, e.target.tasks[i]? = some t ∧ t.child = c ∧ P.TracedTo N i t p.state l e.target.state := by
  induction hrun generalizing e with
  | nil =>
    obtain rfl := List.mem_singleton.mp he
    obtain ⟨t, l, ht, hchild, htr, -⟩ := traced_start (N := N) hP.reboot hi h
    exact ⟨t, l, ht, hchild, htr⟩
  | @snoc q u z m hrun hstep ih =>
    have hG' := fun e he => hG e (List.mem_append_left _ he)
    rw [← List.cons_append] at he
    rcases List.mem_append.mp he with he | he
    · exact ih hG' he hm
    · obtain rfl := List.mem_singleton.mp he
      obtain ⟨t, l, ht, hchild, htr, -⟩ := hP.traced_from hp hi h hrun hG'
      obtain ⟨t', ht', hchild'⟩ := child_step hP.reboot hstep.1 ht
      have hscoped : Scoped φ N q := by
        have hfirst := hP.scoped_step hp h
        obtain ⟨t₁, l₁, ht₁, -, htr₁, hl₁⟩ := traced_start (N := N) hP.reboot hi h
        exact (hP.traced_run hrun hG' hfirst ht₁ ⟨_, htr₁, hP.refl _⟩ hl₁).1
      have hN := hP.step hscoped hstep.1 (hG ⟨q, m, u⟩ (List.mem_append_right _ (List.mem_singleton.mpr rfl)))
      rcases traced_step hP.trans hP.reboot hstep.1 hstep.2 hN ht htr ht' with
        ⟨hm', -⟩ | ⟨l₁, -, htr', -⟩
      · exact absurd hm hm'
      · exact ⟨t', _, ht', hchild'.trans hchild, htr'⟩

end Tame

end Program

end Caips.Logic
