/-
Caips.Logic.CoroLogic — Hoare triples for the coroutines of
`Caips.Logic.Coro`, and their soundness for the event loop.

A `Contract` describes what all tasks of a program agree on. The shared
state and the TOKENS the tasks hold are tied by one invariant `inv`, which
holds after every single action (so also where a crash cuts a burst). A
token is held by one task; while the task is suspended the others may do
anything that keeps `inv` with its tokens in the sum, which is how a task
knows after an await what nobody else could have taken from it. A part of
the state may belong to the task with a given number (`own`): no other task
changes it.

* `wp` is the weakest precondition: at an action the task chooses the tokens
  it holds afterwards, at an await the state and the tokens of the others
  are arbitrary again, at a fork the child takes what its kind is `gives`n.
* `Holds` is the triple, with one rule for each way to build a coroutine.
  The postcondition speaks about both kinds of outcome.
* `Sound.good` is adequacy: if every body meets its contract, every reachable
  pool is `Good`: the invariant holds with the tokens of all tasks, every
  suspended task may only await what the contract `asks`, and every finished
  task has ended as its `post` says.
-/
import Caips.Logic.Coro
import Mathlib.Algebra.Order.Group.Multiset
import Mathlib.Tactic.Abel

namespace Caips.Logic

variable {Γ : Sig}

/-- What the tasks of a program promise each other. `starts` is known of every
started task and `begins` at its first burst; `asks` is what a task may await,
`rests` which tokens it may hold meanwhile, and `rely` what it may assume of the
answer, besides what `Rely` says of children. -/
structure Contract (P : Program Γ) where
  Tok : Type
  inv : Γ.State → Multiset Tok → Prop
  gives : Γ.Child → Multiset Tok
  starts : Γ.Child → Prop
  begins : Γ.Handle → Γ.State → Prop
  Own : Type
  own : Nat → Γ.State → Own
  asks : Γ.Handle → Ask Γ → Prop
  rests : Multiset Tok → Prop := fun _ => True
  rely : Γ.Handle → (q : Ask Γ) → Γ.State → Except Γ.Exc q.Reply → Prop
  post : (me : Γ.Handle) → Except Γ.Exc (Γ.Out me.2) → Multiset Tok → Own → List (Event Γ) → Prop

namespace Contract

variable {P : Program Γ} (C : Contract P) (me : Γ.Handle) {α β : Type}

/-- An assertion of one task: the shared state, the tokens it holds, the
answers it has received. -/
abbrev Assn : Type := Γ.State → Multiset C.Tok → List (Event Γ) → Prop

/-- The child `h` has ended with `o`, and as the contract says. -/
def HasEnded (h : Γ.Handle) (o : Except Γ.Exc (Γ.Out h.2)) : Prop :=
  ∃ t own hist, C.post h o t own hist

/-- What is known of the answer to an await of children: a child has ended in
one way. -/
def Children : (q : Ask Γ) → Except Γ.Exc q.Reply → Prop
  | .call _, _ => True
  | .wait m hs, .ok (l : List Γ.Ending) =>
    (∀ x ∈ l, x.1 ∈ hs ∧ C.HasEnded x.1 x.2) ∧ (∀ x ∈ l, ∀ y ∈ l, x.1 = y.1 → x = y) ∧
      (m = .first → l ≠ []) ∧ (m = .all → ∀ h ∈ hs, ∃ o, ⟨h, o⟩ ∈ l)
  | .wait _ _, .error e => e = Γ.interrupt
  | .join h, .ok a => C.HasEnded h (.ok a)
  | .join h, .error e => e = Γ.interrupt ∨ C.HasEnded h (.error e)

/-- What a task may assume of the answer to an await. -/
def Rely (s : Γ.State) (q : Ask Γ) (r : Except Γ.Exc q.Reply) : Prop :=
  C.Children q r ∧ C.rely me q s r

/-- The weakest precondition of a coroutine, over the state, the task's own
tokens, the tokens of all others and the answers so far. -/
def wp (Q : Except Γ.Exc α → Γ.State → Multiset C.Tok → Multiset C.Tok → List (Event Γ) → Prop) :
    Coro Γ α → Γ.State → Multiset C.Tok → Multiset C.Tok → List (Event Γ) → Prop
  | .ret a, s, h, F, l => Q (.ok a) s h F l
  | .fail e, s, h, F, l => Q (.error e) s h F l
  | .act f k, s, _, F, l =>
    (∀ j ≠ me.1, C.own j (f s) = C.own j s) ∧
      ∃ h', C.inv (f s) (h' + F) ∧ wp Q (k s) (f s) h' F l
  | .await q k, s, h, _, l =>
    (C.asks me q ∧ C.rests h) ∧ ∀ r s' F', C.inv s' (h + F') → C.own me.1 s' = C.own me.1 s →
      C.Rely me s' q r → wp Q (k r) s' h F' (⟨q, r⟩ :: l)
  | .fork c k, s, h, F, l =>
    C.starts c ∧ ∃ h', h = C.gives c + h' ∧ ∀ n, wp Q (k n) s h' (C.gives c + F) l

variable {C me}

variable {c : Coro Γ α}

/-- The invariant holds where the coroutine ends. -/
theorem wp_inv {Q : Except Γ.Exc α → Γ.State → Multiset C.Tok → Multiset C.Tok →
    List (Event Γ) → Prop} :
    ∀ {s h F l}, C.inv s (h + F) → C.wp me Q c s h F l →
      C.wp me (fun r s h F l => C.inv s (h + F) ∧ Q r s h F l) c s h F l := by
  induction c with
  | ret a => intro s h F l hi hQ; exact ⟨hi, hQ⟩
  | fail e => intro s h F l hi hQ; exact ⟨hi, hQ⟩
  | act f k ih =>
    rintro s h F l - ⟨ho, h', hi', hw⟩
    exact ⟨ho, h', hi', ih _ hi' hw⟩
  | await q k ih =>
    rintro s h F l - ⟨ha, hw⟩
    exact ⟨ha, fun r s' F' hi' ho hr => ih r hi' (hw r s' F' hi' ho hr)⟩
  | fork c k ih =>
    rintro s h F l hi ⟨hc, h', rfl, hw⟩
    have hsum : C.gives c + h' + F = h' + (C.gives c + F) := by abel
    rw [hsum] at hi
    exact ⟨hc, h', rfl, fun n => ih n hi (hw n)⟩

/-- A weaker postcondition has a weaker precondition. -/
theorem wp_mono {Q Q' : Except Γ.Exc α → Γ.State → Multiset C.Tok → Multiset C.Tok →
    List (Event Γ) → Prop} (hQ : ∀ r s h F l, Q r s h F l → Q' r s h F l) :
    ∀ {s h F l}, C.wp me Q c s h F l → C.wp me Q' c s h F l := by
  induction c with
  | ret a => intro s h F l hw; exact hQ _ _ _ _ _ hw
  | fail e => intro s h F l hw; exact hQ _ _ _ _ _ hw
  | act f k ih =>
    rintro s h F l ⟨ho, h', hi', hw⟩
    exact ⟨ho, h', hi', ih _ hw⟩
  | await q k ih =>
    rintro s h F l ⟨ha, hw⟩
    exact ⟨ha, fun r s' F' hi' ho hr => ih r (hw r s' F' hi' ho hr)⟩
  | fork c k ih =>
    rintro s h F l ⟨hc, h', hh, hw⟩
    exact ⟨hc, h', hh, fun n => ih n (hw n)⟩

/-- The continuations of `handle` start where the coroutine before them ends. -/
theorem wp_handle {Q : Except Γ.Exc β → Γ.State → Multiset C.Tok → Multiset C.Tok →
    List (Event Γ) → Prop} {k : α → Coro Γ β} {g : Γ.Exc → Coro Γ β} :
    ∀ {s h F l}, C.wp me (fun r s h F l =>
      match r with
      | .ok a => C.wp me Q (k a) s h F l
      | .error e => C.wp me Q (g e) s h F l) c s h F l → C.wp me Q (c.handle k g) s h F l := by
  induction c with
  | ret a => intro s h F l hw; exact hw
  | fail e => intro s h F l hw; exact hw
  | act f c' ih =>
    rintro s h F l ⟨ho, h', hi', hw⟩
    exact ⟨ho, h', hi', ih _ hw⟩
  | await q c' ih =>
    rintro s h F l ⟨ha, hw⟩
    exact ⟨ha, fun r s' F' hi' ho hr => ih r (hw r s' F' hi' ho hr)⟩
  | fork c c' ih =>
    rintro s h F l ⟨hc, h', hh, hw⟩
    exact ⟨hc, h', hh, fun n => ih n (hw n)⟩

/-! ## Triples -/

variable (C me)

/-- `pre` entails `post` wherever the invariant holds. -/
def Entails (pre post : C.Assn) : Prop :=
  ∀ s h F l, C.inv s (h + F) → pre s h l → post s h l

/-- Started where `pre` holds, the coroutine ends, if it does, where `post`
holds of its outcome. -/
def Holds (pre : C.Assn) (c : Coro Γ α) (post : Except Γ.Exc α → C.Assn) : Prop :=
  ∀ s h F l, C.inv s (h + F) → pre s h l → C.wp me (fun r s h _ l => post r s h l) c s h F l

/-- The outcome is a result, with `N` of it. -/
def returns (N : α → C.Assn) : Except Γ.Exc α → C.Assn :=
  fun r s h l => ∃ a, r = .ok a ∧ N a s h l

/-- The assertion an await leaves of `pre`: the state may be another one, but
the task's own part is the same. -/
def resting (pre : C.Assn) : C.Assn :=
  fun s h l => ∃ s', C.own me.1 s = C.own me.1 s' ∧ pre s' h l

/-- The assertion after the answer `r` to `q`. -/
def answered (pre : C.Assn) (q : Ask Γ) (r : Except Γ.Exc q.Reply) : C.Assn :=
  fun s h l => ∃ l', l = ⟨q, r⟩ :: l' ∧ C.resting me pre s h l' ∧ C.Rely me s q r

variable {C me}

theorem Entails.rfl {pre : C.Assn} : C.Entails pre pre := fun _ _ _ _ _ h => h

namespace Holds

variable {pre pre' : C.Assn} {N : Except Γ.Exc α → C.Assn} {post post' : Except Γ.Exc β → C.Assn}

variable {c : Coro Γ β}

theorem conseq (hc : C.Holds me pre c post) (hpre : C.Entails pre' pre)
    (hpost : ∀ r, C.Entails (post r) (post' r)) : C.Holds me pre' c post' := by
  intro s h F l hi hp
  refine wp_mono ?_ (wp_inv hi (hc s h F l hi (hpre s h F l hi hp)))
  rintro r s h F l ⟨hi, hQ⟩
  exact hpost r s h F l hi hQ

theorem weaken_pre (hc : C.Holds me pre c post) (hpre : C.Entails pre' pre) :
    C.Holds me pre' c post := hc.conseq hpre fun _ => .rfl

theorem weaken_post (hc : C.Holds me pre c post)
    (hpost : ∀ r, C.Entails (post r) (post' r)) : C.Holds me pre c post' := hc.conseq .rfl hpost

theorem ret {a : β} (h : C.Entails pre (post (.ok a))) : C.Holds me pre (.ret a) post :=
  fun s t F l hi hp => h s t F l hi hp

theorem fail {e : Γ.Exc} (h : C.Entails pre (post (.error e))) : C.Holds me pre (.fail e) post :=
  fun s t F l hi hp => h s t F l hi hp

variable {k : α → Coro Γ β}

theorem handle {c : Coro Γ α} {g : Γ.Exc → Coro Γ β}
    (hc : C.Holds me pre c N) (hk : ∀ a, C.Holds me (N (.ok a)) (k a) post)
    (hg : ∀ e, C.Holds me (N (.error e)) (g e) post) : C.Holds me pre (c.handle k g) post := by
  intro s h F l hi hp
  refine wp_handle (wp_mono ?_ (wp_inv hi (hc s h F l hi hp)))
  rintro (e | a) s h F l ⟨hi, hm⟩
  · exact hg e s h F l hi hm
  · exact hk a s h F l hi hm

theorem bind {c : Coro Γ α} (hc : C.Holds me pre c N)
    (hk : ∀ a, C.Holds me (N (.ok a)) (k a) post)
    (he : ∀ e, C.Entails (N (.error e)) (post (.error e))) : C.Holds me pre (c >>= k) post :=
  hc.handle hk fun e => fail (he e)

theorem bind_returns {c : Coro Γ α} {N : α → C.Assn}
    (hc : C.Holds me pre c (C.returns N)) (hk : ∀ a, C.Holds me (N a) (k a) post) :
    C.Holds me pre (c >>= k) post := by
  refine hc.bind (fun a => (hk a).weaken_pre ?_) fun e s h F l _ hm => ?_
  · rintro s h F l - ⟨a', ha, hm⟩
    rw [Except.ok.inj ha]
    exact hm
  · obtain ⟨a, ha, -⟩ := hm
    cases ha

theorem tryCatch {g : Γ.Exc → Coro Γ β} {N : Except Γ.Exc β → C.Assn}
    (hc : C.Holds me pre c N) (hk : ∀ a, C.Entails (N (.ok a)) (post (.ok a)))
    (hg : ∀ e, C.Holds me (N (.error e)) (g e) post) : C.Holds me pre (c.tryCatch g) post :=
  hc.handle (fun a => ret (hk a)) hg

theorem tryFinally {f : Coro Γ Unit} {N : Except Γ.Exc β → C.Assn}
    {V : Except Γ.Exc β → Except Γ.Exc Unit → C.Assn} (hc : C.Holds me pre c N)
    (hf : ∀ r, C.Holds me (N r) f (V r))
    (hok : ∀ r, C.Entails (V r (.ok ())) (post r))
    (he : ∀ r e, C.Entails (V r (.error e)) (post (.error e))) :
    C.Holds me pre (c.tryFinally f) post :=
  hc.handle (fun a => (hf (.ok a)).handle (fun _ => ret (hok _)) fun e => fail (he _ e))
    fun e => (hf (.error e)).handle (fun _ => fail (hok _)) fun e' => fail (he _ e')

theorem when {b : Bool} {c : Coro Γ Unit} {post : Except Γ.Exc Unit → C.Assn}
    (hc : b = true → C.Holds me pre c post) (hskip : b = false → C.Entails pre (post (.ok ()))) :
    C.Holds me pre (Coro.when b c) post := by
  cases b with
  | false => exact ret (hskip (Eq.refl _))
  | true => exact hc (Eq.refl _)

/-- An atomic action leaves the others' own parts and picks the tokens it
leaves. -/
theorem sync {m : ExceptT Γ.Exc (StateM Γ.State) β}
    (h : ∀ s t F l, C.inv s (t + F) → pre s t l →
      (∀ j ≠ me.1, C.own j (m s).2 = C.own j s) ∧
        ∃ t', C.inv (m s).2 (t' + F) ∧ post (m s).1 (m s).2 t' l) :
    C.Holds me pre (Coro.sync m) post := by
  intro s t F l hi hp
  obtain ⟨ho, t', hi', hq⟩ := h s t F l hi hp
  refine ⟨ho, t', hi', ?_⟩
  show C.wp me _ (Coro.ofExcept (m s).1) _ t' F l
  cases hm : (m s).1 with
  | ok a => rw [hm] at hq; exact hq
  | error e => rw [hm] at hq; exact hq

theorem ask {q : Ask Γ} {post : Except Γ.Exc q.Reply → C.Assn}
    (ha : ∀ s h F l, C.inv s (h + F) → pre s h l → C.asks me q ∧ C.rests h)
    (h : ∀ r, C.Entails (C.answered me pre q r) (post r)) : C.Holds me pre (Coro.ask q) post := by
  intro s t F l hi hp
  refine ⟨ha s t F l hi hp, fun r s' F' hi' ho hr => ?_⟩
  have hpost := h r s' t F' _ hi' ⟨l, Eq.refl _, ⟨s, ho, hp⟩, hr⟩
  cases r with
  | ok a => exact hpost
  | error e => exact hpost

theorem start {c : Γ.Child} {pre : C.Assn} {post : Except Γ.Exc Γ.Handle → C.Assn}
    (h : ∀ s t F l, C.inv s (t + F) → pre s t l →
      C.starts c ∧ ∃ t', t = C.gives c + t' ∧ ∀ n, post (.ok (n, c)) s t' l) :
    C.Holds me pre (Coro.start c) post := by
  intro s t F l hi hp
  obtain ⟨hc, t', ht, hq⟩ := h s t F l hi hp
  exact ⟨hc, t', ht, fun n => hq n⟩

theorem given {φ : Prop} (hc : φ → C.Holds me pre c post) :
    C.Holds me (fun s h l => pre s h l ∧ φ) c post :=
  fun s h F l hi hp => hc hp.2 s h F l hi hp.1

theorem assume {φ : Prop} (hφ : ∀ s h F l, C.inv s (h + F) → pre s h l → φ)
    (hc : φ → C.Holds me pre c post) : C.Holds me pre c post :=
  fun s h F l hi hp => hc (hφ s h F l hi hp) s h F l hi hp

end Holds

/-! ## Adequacy -/

variable (C)

/-- The postcondition of a task's body. -/
def ends (me : Γ.Handle) : Except Γ.Exc (Γ.Out me.2) → C.Assn :=
  fun o s h l => C.post me o h (C.own me.1 s) l

/-- Task `i`, which holds the tokens `h` and has the own part `own`, keeps to
the contract from here on. -/
def TaskOk (i : Nat) (own : C.Own) (t : Task Γ) (h : Multiset C.Tok) : Prop :=
  C.starts t.child ∧
    match t.status with
    | .ready => h = C.gives t.child ∧ t.hist = []
    | .suspended q k => (C.asks (i, t.child) q ∧ C.rests h) ∧ ∀ r s F, C.inv s (h + F) → C.own i s = own →
        C.Rely (i, t.child) s q r →
        C.wp (i, t.child) (fun o s h _ l => C.ends (i, t.child) o s h l) (k r) s h F
          (⟨q, r⟩ :: t.hist)
    | .done o => C.post (i, t.child) o h own t.hist

/-- The tokens of a pool are distributed over its tasks. -/
def Good (p : Pool Γ) : Prop :=
  ∃ l : List (Task Γ × Multiset C.Tok), l.map Prod.fst = p.tasks ∧
    C.inv p.state (l.map Prod.snd).sum ∧
    ∀ i x, l[i]? = some x → C.TaskOk i (C.own i p.state) x.1 x.2

/-- The contract is kept by every body, every start, every operation of the
outside world and every crash, for the moves the guard allows. -/
structure Sound (init : Γ.State → Prop) (G : Pool Γ → Move Γ P.Op → Prop) : Prop where
  start : ∀ s, init s → C.inv s 0
  body : ∀ i c, C.starts c →
    C.Holds (i, c) (fun s h l => h = C.gives c ∧ l = [] ∧ C.begins (i, c) s) (P.body i c)
      (C.ends (i, c))
  enter : ∀ p c s, C.Good p → G p (.spawn c) → P.enter c p.state = some s →
    C.starts c ∧ (∀ j, C.own j s = C.own j p.state) ∧
      ∀ T, C.inv p.state T → C.inv s (C.gives c + T)
  op : ∀ p o s, C.Good p → G p (.op o) → P.op o p.state = some s →
    (∀ j, C.own j s = C.own j p.state) ∧ ∀ T, C.inv p.state T → C.inv s T
  reboot : ∀ s s' T, C.inv s T → P.reboot s = some s' → C.inv s' 0
  begins : ∀ p i t, C.Good p → p.tasks[i]? = some t → t.status = .ready →
    (G p (.start i) ∨ ∃ a n, G p (.crash i a n)) → C.begins (i, t.child) p.state
  rely : ∀ p i a t q k, C.Good p → p.tasks[i]? = some t → t.status = .suspended q k →
    P.Answers p q (a q) → (G p (.resume i a) ∨ ∃ n, G p (.crash i a n)) →
    C.rely (i, t.child) q p.state (a q)

variable {C}

/-- What a burst leaves: the invariant, with the tokens of the new children,
a task that still keeps to the contract, and the own parts of all others. -/
theorem wp_burst {l : List (Event Γ)} {c : Coro Γ (Γ.Out me.2)} :
    ∀ {n s h F}, C.inv s (h + F) → C.starts me.2 →
      C.wp me (fun o s h _ l => C.ends me o s h l) c s h F l →
      (∀ j ≠ me.1, C.own j (c.burst n s).state = C.own j s) ∧
      (∀ d ∈ (c.burst n s).forked, C.starts d) ∧
      ∃ h', C.inv (c.burst n s).state (h' + ((c.burst n s).forked.map C.gives).sum + F) ∧
        C.TaskOk me.1 (C.own me.1 (c.burst n s).state) ⟨me.2, (c.burst n s).status, l⟩ h' := by
  induction c with
  | ret a =>
    intro n s h F hi hs hw
    exact ⟨fun _ _ => rfl, by simp [Coro.burst], h, by simpa [Coro.burst] using hi, hs, hw⟩
  | fail e =>
    intro n s h F hi hs hw
    exact ⟨fun _ _ => rfl, by simp [Coro.burst], h, by simpa [Coro.burst] using hi, hs, hw⟩
  | act f k ih =>
    rintro n s h F - hs ⟨ho, h', hi', hw⟩
    obtain ⟨ho', hrest⟩ := ih s (n := n) hi' hs hw
    exact ⟨fun j hj => (ho' j hj).trans (ho j hj), hrest⟩
  | await q k _ =>
    intro n s h F hi hs hw
    exact ⟨fun _ _ => rfl, by simp [Coro.burst], h, by simpa [Coro.burst] using hi, hs, hw⟩
  | fork c k ih =>
    rintro n s h F hi hs ⟨hc, h', rfl, hw⟩
    have hsum : C.gives c + h' + F = h' + (C.gives c + F) := by abel
    rw [hsum] at hi
    obtain ⟨ho, hf, h'', hi'', hok⟩ := ih n (n := n + 1) hi hs (hw n)
    refine ⟨ho, ?_, h'', ?_, hok⟩
    · intro d hd
      rcases List.mem_cons.mp hd with rfl | hd
      · exact hc
      · exact hf d hd
    · have hlist : h'' + (C.gives c + (((k n).burst (n + 1) s).forked.map C.gives).sum) + F =
          h'' + (((k n).burst (n + 1) s).forked.map C.gives).sum + (C.gives c + F) := by abel
      simpa only [Coro.burst, List.map_cons, List.sum_cons, hlist] using hi''

/-- The invariant holds wherever a burst is cut. -/
theorem wp_cut {Q : Except Γ.Exc α → Γ.State → Multiset C.Tok → Multiset C.Tok →
    List (Event Γ) → Prop} {l : List (Event Γ)} :
    ∀ {n s h F}, C.inv s (h + F) → C.wp me Q c s h F l → ∃ T, C.inv (c.cut n s) T := by
  induction c with
  | ret a => intro n s h F hi _; cases n <;> exact ⟨_, hi⟩
  | fail e => intro n s h F hi _; cases n <;> exact ⟨_, hi⟩
  | act f k ih =>
    rintro n s h F hi ⟨-, h', hi', hw⟩
    cases n with
    | zero => exact ⟨_, hi⟩
    | succ n => exact ih s hi' hw
  | await q k _ => intro n s h F hi _; cases n <;> exact ⟨_, hi⟩
  | fork c k ih =>
    rintro n s h F hi ⟨-, h', rfl, hw⟩
    cases n with
    | zero => exact ⟨_, hi⟩
    | succ n =>
      have hsum : C.gives c + h' + F = h' + (C.gives c + F) := by abel
      rw [hsum] at hi
      exact ih 0 hi (hw 0)

theorem mem_tokens {l : List (Task Γ × Multiset C.Tok)} {x : Task Γ × Multiset C.Tok} {t : C.Tok}
    (hx : x ∈ l) (ht : t ∈ x.2) : t ∈ (l.map Prod.snd).sum := by
  induction l with
  | nil => exact absurd hx List.not_mem_nil
  | cons y l ih =>
    rw [List.map_cons, List.sum_cons, Multiset.mem_add]
    rcases List.mem_cons.mp hx with rfl | hx
    · exact .inl ht
    · exact .inr (ih hx)

namespace Good

variable {p : Pool Γ}

theorem task (hp : C.Good p) {i : Nat} {t : Task Γ} (ht : p.tasks[i]? = some t) :
    ∃ h, C.TaskOk i (C.own i p.state) t h := by
  obtain ⟨l, hl, -, hok⟩ := hp
  rw [← hl, List.getElem?_map] at ht
  obtain ⟨x, hx, rfl⟩ := Option.map_eq_some_iff.mp ht
  exact ⟨x.2, hok i x hx⟩

theorem asks (hp : C.Good p) {i : Nat} {t : Task Γ} (ht : p.tasks[i]? = some t) {q : Ask Γ}
    {k : Except Γ.Exc q.Reply → Coro Γ (Γ.Out t.child)} (hq : t.status = .suspended q k) :
    C.asks (i, t.child) q := by
  obtain ⟨h, -, hok⟩ := hp.task ht
  rw [hq] at hok
  exact hok.1.1

theorem done (hp : C.Good p) {i : Nat} {t : Task Γ} (ht : p.tasks[i]? = some t)
    {o : Except Γ.Exc (Γ.Out t.child)} (ho : t.status = .done o) :
    ∃ h, C.post (i, t.child) o h (C.own i p.state) t.hist := by
  obtain ⟨h, -, hok⟩ := hp.task ht
  rw [ho] at hok
  exact ⟨h, hok⟩

theorem ended (hp : C.Good p) {h : Γ.Handle} {o : Except Γ.Exc (Γ.Out h.2)}
    (he : p.Ended h o) : C.HasEnded h o := by
  obtain ⟨hist, he⟩ := he
  obtain ⟨T, hpost⟩ := hp.done he rfl
  exact ⟨T, _, hist, hpost⟩

theorem held (hp : C.Good p) : ∃ l : List (Multiset C.Tok), C.inv p.state l.sum ∧
    ∀ h ∈ l, (∃ c, h = C.gives c) ∨ C.rests h ∨ ∃ me o own hist, C.post me o h own hist := by
  obtain ⟨l, -, hinv, hok⟩ := hp
  refine ⟨l.map Prod.snd, hinv, fun h hh => ?_⟩
  obtain ⟨⟨⟨c, status, hist⟩, h⟩, hx, rfl⟩ := List.mem_map.mp hh
  obtain ⟨i, hi⟩ := List.mem_iff_getElem?.mp hx
  obtain ⟨-, hstatus⟩ := hok i _ hi
  cases status with
  | ready => exact .inl ⟨c, hstatus.1⟩
  | suspended q k => exact .inr (.inl hstatus.1.2)
  | done o => exact .inr (.inr ⟨(i, c), o, _, hist, hstatus⟩)

/-- What an await of children was answered in a good pool. -/
theorem children (hp : C.Good p) {q : Ask Γ} {r : Except Γ.Exc q.Reply}
    (hr : P.Answers p q r) : C.Children q r := by
  cases q with
  | call q => trivial
  | wait m hs =>
    cases r with
    | ok l =>
      obtain ⟨hmem, hfirst, hall⟩ := hr
      refine ⟨fun x hx => ⟨(hmem x hx).1, hp.ended (hmem x hx).2⟩, ?_, hfirst, hall⟩
      exact fun x hx y hy h => Pool.Ended.unique (hmem x hx).2 (hmem y hy).2 h
    | error e => exact hr
  | join h =>
    cases r with
    | ok a => exact hp.ended hr
    | error e => exact hr.imp id hp.ended

end Good

/-- The tasks of a good pool, with task `i` apart. -/
structure Split (C : Contract P) (p : Pool Γ) (i : Nat) (t : Task Γ) (h : Multiset C.Tok)
    (l r : List (Task Γ × Multiset C.Tok)) : Prop where
  tasks : (l ++ (t, h) :: r).map Prod.fst = p.tasks
  length : l.length = i
  others : ∀ j x, j ≠ i → (l ++ (t, h) :: r)[j]? = some x →
    C.TaskOk j (C.own j p.state) x.1 x.2
  inv : C.inv p.state (h + (l.map Prod.snd ++ r.map Prod.snd).sum)

/-- Replacing one task and adding the started children keeps a pool good. -/
theorem Split.advance {p : Pool Γ} {i : Nat} {t : Task Γ} {b : Burst Γ t.child}
    {hist : List (Event Γ)} {l r : List (Task Γ × Multiset C.Tok)} {h h' : Multiset C.Tok}
    (hsplit : Split C p i t h l r) (ho : ∀ j ≠ i, C.own j b.state = C.own j p.state)
    (hf : ∀ d ∈ b.forked, C.starts d)
    (hb : C.TaskOk i (C.own i b.state) ⟨t.child, b.status, hist⟩ h')
    (hinv : C.inv b.state
      (h' + (b.forked.map C.gives).sum + (l.map Prod.snd ++ r.map Prod.snd).sum)) :
    C.Good (p.advance i t hist b) := by
  let children : List (Task Γ × Multiset C.Tok) :=
    b.forked.map fun c => (⟨c, .ready, []⟩, C.gives c)
  have hlen := hsplit.length
  refine ⟨l ++ (⟨t.child, b.status, hist⟩, h') :: r ++ children, ?_, ?_, ?_⟩
  · have hlen' : (l.map Prod.fst).length = i := by simpa using hlen
    simp only [Pool.advance, ← hsplit.tasks, List.map_append, List.map_cons, children, List.map_map]
    rw [List.set_append_right _ _ (le_of_eq hlen'), hlen', Nat.sub_self]
    rfl
  · have hsum : ((l ++ (⟨t.child, b.status, hist⟩, h') :: r ++ children).map Prod.snd).sum =
        h' + (b.forked.map C.gives).sum + (l.map Prod.snd ++ r.map Prod.snd).sum := by
      simp only [children, List.map_append, List.map_cons, List.map_map, List.sum_append,
        List.sum_cons, Function.comp_def]
      abel
    rw [hsum]
    exact hinv
  · intro j x hx
    show C.TaskOk j (C.own j b.state) x.1 x.2
    by_cases hj : j = i
    · subst hj
      rw [List.getElem?_append_left (by simp [← hlen]), ← hlen,
        List.getElem?_append_right (le_refl _), Nat.sub_self, List.getElem?_cons_zero] at hx
      obtain rfl := Option.some.inj hx
      exact hb
    · rcases Nat.lt_or_ge j (l ++ (t, h) :: r).length with hlt | hge
      · rw [List.getElem?_append_left (by simpa using hlt)] at hx
        rw [ho j hj]
        refine hsplit.others j x hj ?_
        rcases Nat.lt_or_ge j l.length with hjl | hjl
        · rw [List.getElem?_append_left hjl] at hx ⊢
          exact hx
        · obtain ⟨k, hk⟩ : ∃ k, j - l.length = k + 1 := ⟨j - l.length - 1, by omega⟩
          rw [List.getElem?_append_right hjl, hk, List.getElem?_cons_succ] at hx ⊢
          exact hx
      · rw [List.getElem?_append_right (by simpa using hge)] at hx
        obtain ⟨c, hc, rfl⟩ := List.mem_map.mp (List.mem_of_getElem? hx)
        exact ⟨hf c hc, rfl, rfl⟩

/-- The coroutine a task of a good pool runs next keeps to the contract. -/
theorem Good.next {init : Γ.State → Prop} {G : Pool Γ → Move Γ P.Op → Prop}
    (hC : C.Sound init G) {p : Pool Γ} (hp : C.Good p) {i : Nat} {t : Task Γ} {a : Oracle Γ}
    {c : Coro Γ (Γ.Out t.child)} {hist : List (Event Γ)} (ht : p.tasks[i]? = some t)
    (hn : P.next i t a = some (c, hist))
    (ha : ∀ q k, t.status = .suspended q k → P.Answers p q (a q))
    (hstart : t.status = .ready → G p (.start i) ∨ ∃ a n, G p (.crash i a n))
    (hresume : t.status ≠ .ready → G p (.resume i a) ∨ ∃ n, G p (.crash i a n)) :
    ∃ l r h, Split C p i t h l r ∧ C.starts t.child ∧
      C.wp (i, t.child) (fun o s h _ l => C.ends (i, t.child) o s h l) c p.state h
        (l.map Prod.snd ++ r.map Prod.snd).sum hist := by
  have hgood := hp
  have htask := ht
  obtain ⟨z, hz, hinv, hok⟩ := hp
  rw [← hz, List.getElem?_map] at ht
  obtain ⟨⟨t', h⟩, hx, rfl⟩ := Option.map_eq_some_iff.mp ht
  obtain ⟨hlt, hget⟩ := List.getElem?_eq_some_iff.mp hx
  have hsplit : z = z.take i ++ (t', h) :: z.drop (i + 1) := by
    rw [← hget, List.getElem_cons_drop, List.take_append_drop]
  have hsum : (z.map Prod.snd).sum =
      h + ((z.take i).map Prod.snd ++ (z.drop (i + 1)).map Prod.snd).sum := by
    conv_lhs => rw [hsplit]
    simp only [List.map_append, List.map_cons, List.sum_append, List.sum_cons]
    abel
  rw [hsum] at hinv
  obtain ⟨hs, hstatus⟩ := hok i _ hx
  refine ⟨z.take i, z.drop (i + 1), h, ⟨by rw [← hsplit, hz], by simp [hlt.le], ?_, hinv⟩, hs, ?_⟩
  · intro j x _ hj
    rw [← hsplit] at hj
    exact hok j x hj
  · obtain ⟨d, status, old⟩ := t'
    cases status with
    | ready =>
      obtain ⟨rfl, rfl⟩ : P.body i d = c ∧ old = hist := by simpa [Program.next] using hn
      have hbegins := hC.begins p i _ hgood htask rfl (hstart rfl)
      exact hC.body i d hs _ _ _ _ hinv ⟨hstatus.1, hstatus.2, hbegins⟩
    | suspended q k =>
      obtain ⟨rfl, rfl⟩ : k (a q) = c ∧ ⟨q, a q⟩ :: old = hist := by
        simpa [Program.next] using hn
      have hans := ha q k rfl
      have hrely := hC.rely p i a _ q k hgood htask rfl hans (hresume (by simp))
      exact hstatus.2 _ _ _ hinv rfl ⟨hgood.children hans, hrely⟩
    | done o => simp [Program.next] at hn

/-- **Adequacy.** Every pool the event loop reaches by moves the guard allows
is good. -/
theorem Sound.good {init : Γ.State → Prop} {G : Pool Γ → Move Γ P.Op → Prop}
    (hC : C.Sound init G) {p : Pool Γ} (h : (P.machine init).Reach G p) : C.Good p := by
  refine h.invariant (fun p hp => ⟨[], by simp [hp.2], by simpa using hC.start _ hp.1, by simp⟩) ?_
  rintro p m p' hp ⟨hstep, hadm⟩ hG
  cases m with
  | spawn c =>
    obtain ⟨s, hs, rfl⟩ := Option.map_eq_some_iff.mp hstep
    obtain ⟨hc, ho, henter⟩ := hC.enter p c s hp hG hs
    obtain ⟨l, hl, hinv, hok⟩ := hp
    refine ⟨l ++ [(⟨c, .ready, []⟩, C.gives c)], by simp [hl], ?_, ?_⟩
    · have := henter _ hinv
      simpa [add_comm] using this
    · intro i x hx
      show C.TaskOk i (C.own i s) x.1 x.2
      rcases Nat.lt_or_ge i l.length with hi | hi
      · rw [List.getElem?_append_left hi] at hx
        rw [ho]
        exact hok i x hx
      · rw [List.getElem?_append_right hi] at hx
        rw [List.mem_singleton.mp (List.mem_of_getElem? hx)]
        exact ⟨hc, rfl, rfl⟩
  | start i =>
    simp only [Program.step] at hstep
    split at hstep
    · rename_i c l ht
      obtain rfl := Option.some.inj hstep
      obtain ⟨z, r, h, hsplit, hc, hw⟩ := Good.next hC hp (a := fun q => .error Γ.interrupt)
        ht rfl (by simp) (fun _ => .inl hG) (by simp)
      obtain ⟨ho, hf, h', hinv', hok'⟩ := wp_burst (n := p.tasks.length)
        hsplit.inv hc hw
      exact hsplit.advance ho hf hok' hinv'
    · cases hstep
  | resume i a =>
    simp only [Program.step] at hstep
    split at hstep
    · rename_i c q k l ht
      obtain rfl := Option.some.inj hstep
      obtain ⟨z, r, h, hsplit, hc, hw⟩ := Good.next hC hp (a := a) ht rfl
        (hadm _ (by simp [ht])) (by simp) (fun _ => .inl hG)
      obtain ⟨ho, hf, h', hinv', hok'⟩ := wp_burst (n := p.tasks.length)
        hsplit.inv hc hw
      exact hsplit.advance ho hf hok' hinv'
    · cases hstep
  | op o =>
    obtain ⟨s, hs, rfl⟩ := Option.map_eq_some_iff.mp hstep
    obtain ⟨ho, hop⟩ := hC.op p o s hp hG hs
    obtain ⟨l, hl, hinv, hok⟩ := hp
    refine ⟨l, hl, hop _ hinv, fun i x hx => ?_⟩
    show C.TaskOk i (C.own i s) x.1 x.2
    rw [ho]
    exact hok i x hx
  | crash i a n =>
    simp only [Program.step, Option.bind_eq_bind, Option.bind_eq_some_iff] at hstep
    obtain ⟨t, ht, ⟨c, hist⟩, hn, s, hs, hp'⟩ := hstep
    obtain rfl := Option.some.inj hp'
    obtain ⟨z, r, h, hsplit, -, hw⟩ := Good.next hC hp ht hn
      (hadm t (by simp [ht])) (fun _ => .inr ⟨a, n, hG⟩) (fun _ => .inr ⟨n, hG⟩)
    obtain ⟨T, hT⟩ := wp_cut (n := n) hsplit.inv hw
    exact ⟨[], rfl, by simpa using hC.reboot _ _ _ hT hs, by simp⟩

end Contract

end Caips.Logic
