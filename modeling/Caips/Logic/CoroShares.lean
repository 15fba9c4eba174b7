/-
Caips.Logic.CoroShares — a gauge that the tasks have shares in.

A gauge in the state goes up when a task comes to something and down when it has
left it. It is exact if it is the sum of the tasks' shares, where the share of a task
is read off the await it stands at (`Settled`), and stays so over all interleavings if
every way through every body changes the gauge by what it changes its own share
(`Pays`), whatever the answers and the interrupts.

* `Pays Q n c` — with the share `n` behind it, `c` keeps the gauge exact, and ends in
  `Q`. One rule for each way to build a coroutine.
* `Exact.settled` — every pool the event loop reaches is settled.

A gauge has its values in any commutative monoid: a number, or a multiset of what is
under way.
-/
import Caips.Logic.CoroTrace
import Mathlib.Algebra.BigOperators.Group.List.Basic
import Mathlib.Tactic.Abel

namespace Caips.Logic

variable {Γ : Sig} {M α β : Type} [AddCommMonoid M]

/-- A gauge, the share of a task at an await, and what holds of the state besides. -/
structure Shares (Γ : Sig) (M : Type) where
  gauge : Γ.State → M
  share : Γ.Child → Ask Γ → M
  keeps : Γ.State → Prop

namespace Shares

variable (S : Shares Γ M)

/-- The share of a task that has come so far. -/
def ofStatus {c : Γ.Child} : Status Γ c → M
  | .suspended q _ => S.share c q
  | _ => 0

/-- The shares of the tasks of a pool. -/
def ofPool (p : Pool Γ) : M := (p.tasks.map fun t => S.ofStatus t.status).sum

/-- The gauge is the sum of the shares. -/
structure Settled (p : Pool Γ) : Prop where
  keeps : S.keeps p.state
  exact : S.gauge p.state = S.ofPool p

/-- An action that takes the share `n` of its task to `m`. -/
def Moves (n m : M) (s u : Γ.State) : Prop :=
  ∀ rest, S.keeps s → S.gauge s = n + rest → S.keeps u ∧ S.gauge u = m + rest

/-- With the share `n` behind it, the coroutine of a task of kind `d` keeps the gauge
exact, and ends in `Q`. -/
def Pays (d : Γ.Child) (Q : Except Γ.Exc α → M → Prop) : M → Coro Γ α → Prop
  | n, .ret a => Q (.ok a) n
  | n, .fail e => Q (.error e) n
  | n, .act f k => ∀ s, ∃ m, S.Moves n m s (f s) ∧ Pays d Q m (k s)
  | n, .await q k => S.share d q = n ∧ ∀ r, Pays d Q n (k r)
  | n, .fork _ k => ∀ i, Pays d Q n (k i)

/-! ## Rules -/

namespace Pays

variable {S} {d : Γ.Child} {n m : M}

variable {c : Coro Γ α}

theorem mono {Q Q' : Except Γ.Exc α → M → Prop} (hQ : ∀ r n, Q r n → Q' r n) :
    ∀ {n : M}, S.Pays d Q n c → S.Pays d Q' n c := by
  induction c with
  | ret a => exact fun h => hQ _ _ h
  | fail e => exact fun h => hQ _ _ h
  | act f k ih =>
    intro n h s
    obtain ⟨m, hm, hk⟩ := h s
    exact ⟨m, hm, ih s hk⟩
  | await q k ih => exact fun h => ⟨h.1, fun r => ih r (h.2 r)⟩
  | fork c k ih => exact fun h i => ih i (h i)

theorem handle {k : α → Coro Γ β} {g : Γ.Exc → Coro Γ β} {Q : Except Γ.Exc β → M → Prop} :
    ∀ {n : M}, S.Pays d (fun r n => match r with
      | .ok a => S.Pays d Q n (k a)
      | .error e => S.Pays d Q n (g e)) n c → S.Pays d Q n (c.handle k g) := by
  induction c with
  | ret a => exact fun h => h
  | fail e => exact fun h => h
  | act f k' ih =>
    intro n h s
    obtain ⟨m, hm, hk⟩ := h s
    exact ⟨m, hm, ih s hk⟩
  | await q k' ih => exact fun h => ⟨h.1, fun r => ih r (h.2 r)⟩
  | fork c k' ih => exact fun h i => ih i (h i)

theorem bind {k : α → Coro Γ β} {Q : Except Γ.Exc β → M → Prop} {N : Except Γ.Exc α → M → Prop} (hc : S.Pays d N n c)
    (hk : ∀ a m, N (.ok a) m → S.Pays d Q m (k a)) (he : ∀ e m, N (.error e) m → Q (.error e) m) : S.Pays d Q n (c >>= k) := by
  refine handle (hc.mono fun r m hr => ?_)
  cases r with
  | ok a => exact hk a m hr
  | error e => exact he e m hr

theorem tryFinally {f : Coro Γ Unit} {Q : Except Γ.Exc α → M → Prop} {N : Except Γ.Exc α → M → Prop} (hc : S.Pays d N n c)
    (hf : ∀ r m, N r m → S.Pays d (fun r' m' => match r' with
      | .ok _ => Q r m'
      | .error e => Q (.error e) m') m f) : S.Pays d Q n (c.tryFinally f) := by
  refine handle (hc.mono fun r m hr => ?_)
  cases r with
  | ok a => exact handle ((hf (.ok a) m hr).mono fun r' m' h => by cases r' <;> exact h)
  | error e => exact handle ((hf (.error e) m hr).mono fun r' m' h => by cases r' <;> exact h)

theorem update {f : Γ.State → Γ.State} (m : M) (h : ∀ s, S.Moves n m s (f s)) {Q : Except Γ.Exc Unit → M → Prop}
    (hQ : Q (.ok ()) m) : S.Pays d Q n (Coro.act f fun _ => .ret ()) := fun s => ⟨m, h s, hQ⟩

theorem of_within {φ : Ask Γ → Prop} {N : Γ.State → Γ.State → Prop} (hN : ∀ s u, N s u → S.Moves n n s u)
    (hφ : ∀ q, φ q → S.share d q = n) (hc : c.Within φ N) : S.Pays d (fun _ m => m = n) n c := by
  induction c with
  | ret a => exact rfl
  | fail e => exact rfl
  | act f k ih => exact fun s => ⟨n, hN _ _ (hc s).1, ih s (hc s).2⟩
  | await q k ih => exact ⟨hφ q hc.1, fun r => ih r (hc.2 r)⟩
  | fork c k ih => exact fun i => ih i (hc i).2

end Pays

/-! ## Whole runs -/

variable (P : Program Γ)

/-- The bodies, the outside world and the crashes keep the gauge exact, for the moves the
guard allows. -/
structure Exact (init : Γ.State → Prop) (G : Pool Γ → Move Γ P.Op → Prop) : Prop where
  start : ∀ s, init s → S.keeps s ∧ S.gauge s = 0
  body : ∀ i c, S.Pays c (fun _ m => m = 0) 0 (P.body i c)
  enter : ∀ p c s, G p (.spawn c) → P.enter c p.state = some s → S.Moves 0 0 p.state s
  op : ∀ p o s, G p (.op o) → P.op o p.state = some s → S.Moves 0 0 p.state s
  reboot : ∀ s s', P.reboot s = some s' → S.keeps s' ∧ S.gauge s' = 0

variable {S P}

/-- What is left of a task pays for its share. -/
def TaskPays (S : Shares Γ M) (t : Task Γ) : Prop :=
  ∀ q k, t.status = .suspended q k → ∀ r, S.Pays t.child (fun _ m => m = 0) (S.share t.child q) (k r)

theorem moves_refl (n : M) (s : Γ.State) : S.Moves n n s s := fun _ hkeeps hgauge => ⟨hkeeps, hgauge⟩

theorem Moves.trans {n m l : M} {s u v : Γ.State} (h : S.Moves n m s u) (h' : S.Moves m l u v) : S.Moves n l s v := by
  intro rest hkeeps hgauge
  obtain ⟨hkeeps, hgauge⟩ := h rest hkeeps hgauge
  exact h' rest hkeeps hgauge

/-- A burst takes the share behind it to that of the await it comes to. -/
theorem Pays.burst {d : Γ.Child} {c : Coro Γ (Γ.Out d)} :
    ∀ {n : M} {i : ℕ} {s : Γ.State}, S.Pays d (fun _ m => m = 0) n c →
      S.Moves n (S.ofStatus (c.burst i s).status) s (c.burst i s).state ∧ ∀ hist, TaskPays S ⟨d, (c.burst i s).status, hist⟩ := by
  induction c with
  | ret a =>
    rintro n i s rfl
    exact ⟨moves_refl _ _, fun _ _ _ h => nomatch h⟩
  | fail e =>
    rintro n i s rfl
    exact ⟨moves_refl _ _, fun _ _ _ h => nomatch h⟩
  | act f k ih =>
    intro n i s h
    obtain ⟨m, hm, hk⟩ := h s
    obtain ⟨hmoves, hpays⟩ := ih s (i := i) (s := f s) hk
    exact ⟨hm.trans hmoves, hpays⟩
  | await q k _ =>
    rintro n i s ⟨rfl, hk⟩
    refine ⟨moves_refl _ _, fun _ q' k' h => ?_⟩
    cases h
    exact hk
  | fork c k ih => exact fun {n i s} h => ih i (i := i + 1) (h i)

/-- A pool with an exact gauge, whose tasks keep it so. -/
structure Good (S : Shares Γ M) (p : Pool Γ) : Prop extends S.Settled p where
  tasks : ∀ t ∈ p.tasks, TaskPays S t

/-- The tasks of a pool, with one of them apart. -/
theorem ofPool_split {p : Pool Γ} {i : ℕ} {t : Task Γ} (ht : p.tasks[i]? = some t) :
    ∃ rest, S.ofPool p = S.ofStatus t.status + rest ∧
      ∀ hist b, S.ofPool (p.advance i t hist b) = S.ofStatus b.status + rest := by
  obtain ⟨hlt, hget⟩ := List.getElem?_eq_some_iff.mp ht
  refine ⟨((p.tasks.take i ++ p.tasks.drop (i + 1)).map fun t => S.ofStatus t.status).sum, ?_, fun hist b => ?_⟩
  · have hsplit : p.tasks = p.tasks.take i ++ t :: p.tasks.drop (i + 1) := by
      rw [← hget, List.getElem_cons_drop, List.take_append_drop]
    conv_lhs => rw [ofPool, hsplit]
    simp only [List.map_append, List.map_cons, List.sum_append, List.sum_cons]
    abel
  · have hforked : ((b.forked.map fun c => (⟨c, .ready, []⟩ : Task Γ)).map fun t => S.ofStatus t.status).sum = 0 := by
      refine List.sum_eq_zero fun x hx => ?_
      obtain ⟨t', ht', rfl⟩ := List.mem_map.mp hx
      obtain ⟨c, -, rfl⟩ := List.mem_map.mp ht'
      rfl
    rw [ofPool, Pool.advance]
    simp only [List.map_append, List.sum_append, hforked, add_zero, List.set_eq_take_append_cons_drop, if_pos hlt, List.map_cons,
      List.sum_cons]
    abel

/-- A burst of one task keeps a pool good. -/
theorem Good.advance {p : Pool Γ} (hp : Good S p) {i : ℕ} {t : Task Γ} (ht : p.tasks[i]? = some t) {c : Coro Γ (Γ.Out t.child)}
    (hc : S.Pays t.child (fun _ m => m = 0) (S.ofStatus t.status) c) (hist : List (Event Γ)) :
    Good S (p.advance i t hist (c.burst p.tasks.length p.state)) := by
  obtain ⟨rest, hrest, hnext⟩ := ofPool_split (S := S) ht
  obtain ⟨hmoves, hpays⟩ := hc.burst (i := p.tasks.length) (s := p.state)
  obtain ⟨hkeeps, hgauge⟩ := hmoves rest hp.keeps (hp.exact.trans hrest)
  refine ⟨⟨hkeeps, hgauge.trans (hnext hist _).symm⟩, fun t' ht' => ?_⟩
  obtain ht' | ht' := List.mem_append.mp ht'
  · obtain hold | rfl := List.mem_or_eq_of_mem_set ht'
    · exact hp.tasks t' hold
    · exact hpays hist
  · obtain ⟨c', -, rfl⟩ := List.mem_map.mp ht'
    exact fun _ _ h => nomatch h

/-- **The gauge is exact** in every pool the event loop reaches by moves the guard allows. -/
theorem Exact.settled {init : Γ.State → Prop} {G : Pool Γ → Move Γ P.Op → Prop} (h : S.Exact P init G) {p : Pool Γ}
    (hp : (P.machine init).Reach G p) : S.Settled p := by
  suffices hgood : Good S p from hgood.toSettled
  have hoff {p : Pool Γ} (hp : Good S p) {s : Γ.State} (hs : S.Moves 0 0 p.state s) : S.keeps s ∧ S.gauge s = S.ofPool p := by
    obtain ⟨hkeeps, hgauge⟩ := hs (S.ofPool p) hp.keeps (by rw [zero_add]; exact hp.exact)
    exact ⟨hkeeps, by rw [hgauge, zero_add]⟩
  refine hp.invariant (fun p hp => ?_) ?_
  · obtain ⟨hkeeps, hgauge⟩ := h.start _ hp.1
    exact ⟨⟨hkeeps, by simp [hgauge, ofPool, hp.2]⟩, by simp [hp.2]⟩
  · rintro p m p' hp ⟨hstep, -⟩ hG
    cases m with
    | spawn c =>
      obtain ⟨s, hs, rfl⟩ := Option.map_eq_some_iff.mp hstep
      obtain ⟨hkeeps, hgauge⟩ := hoff hp (h.enter p c s hG hs)
      refine ⟨⟨hkeeps, hgauge.trans ?_⟩, fun t ht => ?_⟩
      · simp [ofPool, ofStatus]
      · obtain ht | ht := List.mem_append.mp ht
        · exact hp.tasks t ht
        · obtain rfl := List.mem_singleton.mp ht
          exact fun _ _ h => nomatch h
    | start i =>
      simp only [Program.step] at hstep
      split at hstep
      · rename_i c l ht
        obtain rfl := Option.some.inj hstep
        exact hp.advance ht (h.body i c) l
      · cases hstep
    | resume i a =>
      simp only [Program.step] at hstep
      split at hstep
      · rename_i c q k l ht
        obtain rfl := Option.some.inj hstep
        exact hp.advance ht (hp.tasks _ (List.mem_of_getElem? ht) q k rfl (a q)) _
      · cases hstep
    | op o =>
      obtain ⟨s, hs, rfl⟩ := Option.map_eq_some_iff.mp hstep
      obtain ⟨hkeeps, hgauge⟩ := hoff hp (h.op p o s hG hs)
      exact ⟨⟨hkeeps, hgauge⟩, hp.tasks⟩
    | crash i a n =>
      simp only [Program.step, Option.bind_eq_bind, Option.bind_eq_some_iff] at hstep
      obtain ⟨t, -, ⟨c, hist⟩, -, s, hs, hp'⟩ := hstep
      obtain rfl := Option.some.inj hp'
      obtain ⟨hkeeps, hgauge⟩ := h.reboot _ _ hs
      exact ⟨⟨hkeeps, by simp [hgauge, ofPool]⟩, fun t ht => absurd ht List.not_mem_nil⟩

end Shares

end Caips.Logic
