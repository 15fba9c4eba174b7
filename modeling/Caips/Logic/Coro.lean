/-
Caips.Logic.Coro — coroutines on a cooperative event loop.

`Coro Γ α` is a program that runs atomically between its awaits. What it
can do is fixed by a signature `Γ`: the shared state, the exceptions, the
queries it may await with the type of each reply, and the kinds of child
task it may start. The tree has one constructor per thing a coroutine can
do next, so a `try` block is a recursion over the tree (`handle`) and every
ladder of handlers is built from that one function.

* `act` changes the shared state and goes on with the state it found. It is
  the unit of atomicity against a CRASH; between two awaits no other task
  runs, so against other tasks the whole burst is atomic.
* `await` suspends. The reply may be an exception: an interrupt can arrive
  at every await.
* `fork` starts a child task, which runs at a later point.

`Program.machine` is the event loop: a pool of tasks, and one step for
starting a task from outside, for a task's first burst, for resuming a
suspended task with a reply, for an operation of the outside world on the
shared state, and for a crash within a burst. Every order is a run of it.
An interrupted task is not marked: any await may be answered with the
interrupt at any time, which covers every caller of a `cancel`.
-/
import Caips.Logic.Machine

namespace Caips.Logic

/-- What the coroutines of one system share. `interrupt` is the exception an
interrupted task receives at its await; `Out c` is what a task of kind `c`
returns. -/
structure Sig where
  State : Type
  Exc : Type
  interrupt : Exc
  Query : Type
  Reply : Query → Type
  Child : Type
  Out : Child → Type

variable {Γ : Sig}

/-- A started child: its number in the pool and what it was started as. -/
abbrev Sig.Handle (Γ : Sig) : Type := Nat × Γ.Child

/-- A started child and how it has ended. -/
abbrev Sig.Ending (Γ : Sig) : Type := (h : Γ.Handle) × Except Γ.Exc (Γ.Out h.2)

/-- How long `wait` waits: until some, possibly none, of the tasks are done
(a timeout), until one is, until all are. -/
inductive Wait where
  | upTo
  | first
  | all
  deriving DecidableEq

/-- What can be awaited: a query to the outside, some children, the result of
one child. -/
inductive Ask (Γ : Sig) where
  | call (q : Γ.Query)
  | wait (m : Wait) (hs : List Γ.Handle)
  | join (h : Γ.Handle)

/-- The reply to each await. `wait` replies with the finished children and
how each ended. -/
def Ask.Reply : Ask Γ → Type
  | .call q => Γ.Reply q
  | .wait _ _ => List Γ.Ending
  | .join h => Γ.Out h.2

/-- A coroutine over the signature `Γ` that returns an `α`. -/
inductive Coro (Γ : Sig) (α : Type) where
  | ret (a : α)
  | fail (e : Γ.Exc)
  | act (f : Γ.State → Γ.State) (k : Γ.State → Coro Γ α)
  | await (q : Ask Γ) (k : Except Γ.Exc q.Reply → Coro Γ α)
  | fork (c : Γ.Child) (k : Nat → Coro Γ α)

namespace Coro

variable {α β : Type}

/-- Continue with `k` on a result and with `h` on an exception. `k` runs
outside of `h`: an exception it raises is not handled here. -/
def handle : Coro Γ α → (α → Coro Γ β) → (Γ.Exc → Coro Γ β) → Coro Γ β
  | ret a, k, _ => k a
  | fail e, _, h => h e
  | act f g, k, h => act f fun s => handle (g s) k h
  | await q g, k, h => await q fun r => handle (g r) k h
  | fork c g, k, h => fork c fun n => handle (g n) k h

instance : Monad (Coro Γ) where
  pure := ret
  bind c k := handle c k fail

/-- `try: c  except: h`. -/
def tryCatch (c : Coro Γ α) (h : Γ.Exc → Coro Γ α) : Coro Γ α := handle c ret h

/-- `try: c  finally: f`. An exception of `f` replaces the outcome of `c`. -/
def tryFinally (c : Coro Γ α) (f : Coro Γ Unit) : Coro Γ α :=
  handle c (fun a => handle f (fun _ => ret a) fail) fun e => handle f (fun _ => fail e) fail

/-- Raise an error, or return the value. -/
def ofExcept : Except Γ.Exc α → Coro Γ α
  | .ok a => ret a
  | .error e => fail e

/-- `if b: c`. -/
def when (b : Bool) (c : Coro Γ Unit) : Coro Γ Unit := if b then c else ret ()

/-- Code without an await, as one atomic action. -/
def sync (m : ExceptT Γ.Exc (StateM Γ.State) α) : Coro Γ α :=
  act (fun s => (m s).2) fun s => ofExcept (m s).1

/-- Await a reply; an exception in its place is raised here. -/
def ask (q : Ask Γ) : Coro Γ q.Reply := await q ofExcept

/-- Await a query to the outside. -/
def call (q : Γ.Query) : Coro Γ (Γ.Reply q) := ask (.call q)

/-- Start a child task. -/
def start (c : Γ.Child) : Coro Γ Γ.Handle := fork c fun n => ret (n, c)

/-- Await children. -/
def wait (m : Wait) (hs : List Γ.Handle) : Coro Γ (List Γ.Ending) := ask (.wait m hs)

/-- Await one child: its result or its exception. -/
def join (h : Γ.Handle) : Coro Γ (Γ.Out h.2) := ask (.join h)

instance : MonadLift (ExceptT Γ.Exc (StateM Γ.State)) (Coro Γ) where
  monadLift := sync

end Coro

/-! ## Tasks and the event loop -/

/-- One answered await of a task. -/
abbrev Event (Γ : Sig) : Type := (q : Ask Γ) × Except Γ.Exc q.Reply

/-- Where a task of kind `c` stands. -/
inductive Status (Γ : Sig) (c : Γ.Child) where
  | ready
  | suspended (q : Ask Γ) (k : Except Γ.Exc q.Reply → Coro Γ (Γ.Out c))
  | done (o : Except Γ.Exc (Γ.Out c))

/-- A task, with the answers it has received so far, the latest first. -/
structure Task (Γ : Sig) where
  child : Γ.Child
  status : Status Γ child
  hist : List (Event Γ)

/-- The task has ended. -/
def Task.isDone (t : Task Γ) : Bool :=
  match t.status with
  | .done _ => true
  | _ => false

/-- The shared state and all tasks ever started. A task's number is its place. -/
structure Pool (Γ : Sig) where
  state : Γ.State
  tasks : List (Task Γ)

/-- What one burst leaves. -/
structure Burst (Γ : Sig) (c : Γ.Child) where
  state : Γ.State
  status : Status Γ c
  forked : List Γ.Child

/-- Run to the next await or to the end; the next child gets number `n`. -/
def Coro.burst {d : Γ.Child} : Nat → Coro Γ (Γ.Out d) → Γ.State → Burst Γ d
  | _, .ret a, s => ⟨s, .done (.ok a), []⟩
  | _, .fail e, s => ⟨s, .done (.error e), []⟩
  | n, .act f k, s => (k s).burst n (f s)
  | _, .await q k, s => ⟨s, .suspended q k, []⟩
  | n, .fork c k, s =>
    let b := (k n).burst (n + 1) s
    { b with forked := c :: b.forked }

theorem Coro.burst_sync_error {α : Type} {d : Γ.Child} {m : ExceptT Γ.Exc (StateM Γ.State) α}
    {k : α → Coro Γ (Γ.Out d)} {n : Nat} {s : Γ.State} {e : Γ.Exc} (h : (m s).1 = .error e) :
    (Coro.sync m >>= k).burst n s = ⟨(m s).2, .done (.error e), []⟩ := by
  show ((Coro.ofExcept (m s).1).handle k Coro.fail).burst n (m s).2 = _
  rw [h]
  rfl

/-- The state after at most `n` actions of a burst. -/
def Coro.cut {α : Type} : Nat → Coro Γ α → Γ.State → Γ.State
  | 0, _, s => s
  | _ + 1, .ret _, s => s
  | _ + 1, .fail _, s => s
  | n + 1, .act f k, s => (k s).cut n (f s)
  | _ + 1, .await _ _, s => s
  | n + 1, .fork _ k, s => (k 0).cut n s

/-- A system of coroutines: the body of each kind of task, which knows the
number of its task; which tasks may be started from outside and what that does to the state; which answers a query
can get in a state; the operations of the outside world; and what of the
state a crash leaves (`none` where the system is not one that crashes). -/
structure Program (Γ : Sig) where
  body : Nat → (c : Γ.Child) → Coro Γ (Γ.Out c)
  enter : Γ.Child → Γ.State → Option Γ.State
  answers : (q : Γ.Query) → Γ.State → Except Γ.Exc (Γ.Reply q) → Prop
  Op : Type
  op : Op → Γ.State → Option Γ.State
  reboot : Γ.State → Option Γ.State

/-- One reply for every await there is; a resumed task takes the one it asked
for. -/
abbrev Oracle (Γ : Sig) : Type := (q : Ask Γ) → Except Γ.Exc q.Reply

/-- The steps of the event loop. -/
inductive Move (Γ : Sig) (Op : Type) where
  | spawn (c : Γ.Child)
  | start (i : Nat)
  | resume (i : Nat) (a : Oracle Γ)
  | op (o : Op)
  | crash (i : Nat) (a : Oracle Γ) (n : Nat)

namespace Pool

/-- Task `i` has run a burst. -/
def advance (p : Pool Γ) (i : Nat) (t : Task Γ) (hist : List (Event Γ)) (b : Burst Γ t.child) :
    Pool Γ where
  state := b.state
  tasks := p.tasks.set i { t with status := b.status, hist := hist } ++
    b.forked.map fun c => ⟨c, .ready, []⟩

theorem advance_ended (p : Pool Γ) (i : Nat) (t : Task Γ) (l : List (Event Γ)) (s : Γ.State)
    (o : Except Γ.Exc (Γ.Out t.child)) :
    (p.advance i t l ⟨s, .done o, []⟩).tasks = p.tasks.set i ⟨t.child, .done o, l⟩ :=
  List.append_nil _

/-- The task behind a handle is of the kind the handle says and ended so. -/
def Ended (p : Pool Γ) (h : Γ.Handle) (o : Except Γ.Exc (Γ.Out h.2)) : Prop :=
  ∃ hist, p.tasks[h.1]? = some ⟨h.2, .done o, hist⟩

theorem Ended.unique {p : Pool Γ} {x y : Γ.Ending} (hx : p.Ended x.1 x.2) (hy : p.Ended y.1 y.2)
    (h : x.1 = y.1) : x = y := by
  obtain ⟨hd, o⟩ := x
  obtain ⟨hd', o'⟩ := y
  obtain rfl : hd = hd' := h
  obtain ⟨l, hx⟩ := hx
  obtain ⟨l', hy⟩ := hy
  have htask := Option.some.inj (hx.symm.trans hy)
  injection htask with _ hstatus _
  injection hstatus with ho
  rw [show o = o' from ho]

/-- The tasks of a pool that have not ended. -/
def unfinished (p : Pool Γ) : List (Task Γ) := p.tasks.filter fun t => !t.isDone

end Pool

namespace Program

variable (P : Program Γ)

/-- The answers an await can get in a pool. A wait or join ends with what the
children did, or with the interrupt. -/
def Answers (p : Pool Γ) : (q : Ask Γ) → Except Γ.Exc q.Reply → Prop
  | .call q, r => P.answers q p.state r
  | .wait m hs, .ok (l : List Γ.Ending) =>
    (∀ x ∈ l, x.1 ∈ hs ∧ p.Ended x.1 x.2) ∧ (m = .first → l ≠ []) ∧
      (m = .all → ∀ h ∈ hs, ∃ o, ⟨h, o⟩ ∈ l)
  | .wait _ _, .error e => e = Γ.interrupt
  | .join h, .ok a => p.Ended h (.ok a)
  | .join h, .error e => e = Γ.interrupt ∨ p.Ended h (.error e)

/-- The reply given in a move is one the asking task can get. -/
def Admissible (p : Pool Γ) : Move Γ P.Op → Prop
  | .resume i a => ∀ t ∈ p.tasks[i]?, ∀ q k, t.status = .suspended q k → P.Answers p q (a q)
  | .crash i a _ => ∀ t ∈ p.tasks[i]?, ∀ q k, t.status = .suspended q k → P.Answers p q (a q)
  | _ => True

/-- The coroutine task `i` runs next, and the answers it has then received. -/
def next (i : Nat) (t : Task Γ) (a : Oracle Γ) : Option (Coro Γ (Γ.Out t.child) × List (Event Γ)) :=
  match t.status with
  | .ready => some (P.body i t.child, t.hist)
  | .suspended q k => some (k (a q), ⟨q, a q⟩ :: t.hist)
  | .done _ => none

/-- The pool after a move. -/
def step (p : Pool Γ) : Move Γ P.Op → Option (Pool Γ)
  | .spawn c => (P.enter c p.state).map fun s => ⟨s, p.tasks ++ [⟨c, .ready, []⟩]⟩
  | .start i =>
    match p.tasks[i]? with
    | some ⟨c, .ready, l⟩ =>
      some (p.advance i ⟨c, .ready, l⟩ l ((P.body i c).burst p.tasks.length p.state))
    | _ => none
  | .resume i a =>
    match p.tasks[i]? with
    | some ⟨c, .suspended q k, l⟩ =>
      some (p.advance i ⟨c, .suspended q k, l⟩ (⟨q, a q⟩ :: l)
        ((k (a q)).burst p.tasks.length p.state))
    | _ => none
  | .op o => (P.op o p.state).map fun s => ⟨s, p.tasks⟩
  | .crash i a n => do
      let t ← p.tasks[i]?
      let (c, _) ← P.next i t a
      let s ← P.reboot (c.cut n p.state)
      pure ⟨s, []⟩

/-- The event loop of the program, from the states `init` with no task. -/
def machine (init : Γ.State → Prop) : Machine (Pool Γ) (Move Γ P.Op) where
  start p := init p.state ∧ p.tasks = []
  step p m p' := P.step p m = some p' ∧ P.Admissible p m

end Program

namespace Pool

variable {Op : Type} (p : Pool Γ)

/-- Something about the answer task `i` goes on with. -/
def AtResume (i : Nat) (a : Oracle Γ)
    (φ : Γ.Handle → (q : Ask Γ) → Except Γ.Exc q.Reply → Prop) : Prop :=
  match p.tasks[i]? with
  | some ⟨c, .suspended q _, _⟩ => φ (i, c) q (a q)
  | _ => True

variable {p}

variable {a : Oracle Γ}

theorem AtResume.of {i : Nat}
    {φ : Γ.Handle → (q : Ask Γ) → Except Γ.Exc q.Reply → Prop} (h : p.AtResume i a φ) {t : Task Γ}
    (ht : p.tasks[i]? = some t) {q : Ask Γ} {k : Except Γ.Exc q.Reply → Coro Γ (Γ.Out t.child)}
    (hq : t.status = .suspended q k) : φ (i, t.child) q (a q) := by
  rw [AtResume, ht] at h
  obtain ⟨c, st, l⟩ := t
  cases st with
  | ready => cases hq
  | suspended q' k' =>
    injection hq with hqq
    rw [← hqq]
    exact h
  | done o => cases hq

theorem AtResume.intro {i : Nat}
    {φ : Γ.Handle → (q : Ask Γ) → Except Γ.Exc q.Reply → Prop} (h : ∀ me q r, φ me q r) :
    p.AtResume i a φ := by
  unfold AtResume
  split
  · exact h _ _ _
  · trivial

theorem AtResume.imp {i : Nat}
    {φ ψ : Γ.Handle → (q : Ask Γ) → Except Γ.Exc q.Reply → Prop} (h : p.AtResume i a φ)
    (hφ : ∀ me q r, φ me q r → ψ me q r) : p.AtResume i a ψ := by
  unfold AtResume at h ⊢
  split
  · rename_i hi
    rw [hi] at h
    exact hφ _ _ _ h
  · trivial

instance {i : Nat} {a : Oracle Γ} {φ : Γ.Handle → (q : Ask Γ) → Except Γ.Exc q.Reply → Prop}
    [∀ h q r, Decidable (φ h q r)] : Decidable (p.AtResume i a φ) :=
  match h : p.tasks[i]? with
  | some ⟨c, .suspended q k, l⟩ => decidable_of_iff (φ (i, c) q (a q)) (by rw [AtResume, h])
  | some ⟨c, .ready, l⟩ => isTrue (by rw [AtResume, h]; trivial)
  | some ⟨c, .done o, l⟩ => isTrue (by rw [AtResume, h]; trivial)
  | none => isTrue (by rw [AtResume, h]; trivial)

end Pool

/-! ## Replaying a run -/

namespace Program

variable (P : Program Γ)

/-- An answer that needs no finished child: any answer to a query, the
interrupt, and a wait that has run into its timeout. -/
def Direct (s : Γ.State) : (q : Ask Γ) → Except Γ.Exc q.Reply → Prop
  | .call q, r => P.answers q s r
  | .wait _ _, .error e => e = Γ.interrupt
  | .join _, .error e => e = Γ.interrupt
  | .wait m _, .ok (l : List Γ.Ending) => m = .upTo ∧ l.isEmpty = true
  | .join _, .ok _ => False

instance [DecidableEq Γ.Exc] [h : ∀ q s r, Decidable (P.answers q s r)] (s : Γ.State) :
    (q : Ask Γ) → (r : Except Γ.Exc q.Reply) → Decidable (P.Direct s q r)
  | .call q, r => h q s r
  | .wait _ _, .error e => inferInstanceAs (Decidable (e = Γ.interrupt))
  | .join _, .error e => inferInstanceAs (Decidable (e = Γ.interrupt))
  | .wait m _, .ok (l : List Γ.Ending) =>
    inferInstanceAs (Decidable (m = .upTo ∧ l.isEmpty = true))
  | .join _, .ok _ => inferInstanceAs (Decidable False)

theorem Direct.answers {p : Pool Γ} {q : Ask Γ} {r : Except Γ.Exc q.Reply}
    (h : P.Direct p.state q r) : P.Answers p q r := by
  cases q with
  | call q => exact h
  | wait m hs =>
    cases r with
    | ok l =>
      obtain ⟨rfl, hl⟩ := h
      obtain rfl := List.isEmpty_iff.mp hl
      exact ⟨fun x hx => absurd hx List.not_mem_nil, nofun, nofun⟩
    | error e => exact h
  | join hd =>
    cases r with
    | ok a => exact h.elim
    | error e => exact .inl h

/-- The reply given in a move is one that needs no finished child. -/
def Plain (p : Pool Γ) : Move Γ P.Op → Prop
  | .resume i a => p.AtResume i a fun _ q r => P.Direct p.state q r
  | .crash _ _ _ => False
  | _ => True

instance [DecidableEq Γ.Exc] [∀ q s r, Decidable (P.answers q s r)] (p : Pool Γ) :
    (m : Move Γ P.Op) → Decidable (P.Plain p m)
  | .resume i a =>
    inferInstanceAs (Decidable (p.AtResume i a fun _ q r => P.Direct p.state q r))
  | .crash _ _ _ => inferInstanceAs (Decidable False)
  | .spawn _ | .start _ | .op _ => inferInstanceAs (Decidable True)

/-- Take these moves, as far as the guard and the answers allow. -/
def replay [DecidableEq Γ.Exc] [∀ q s r, Decidable (P.answers q s r)]
    (G : Pool Γ → Move Γ P.Op → Prop) [∀ p m, Decidable (G p m)] (p : Pool Γ)
    (ms : List (Move Γ P.Op)) : Option (Pool Γ) :=
  Machine.exec (fun p m => if P.Plain p m ∧ G p m then P.step p m else none) p ms

variable {P}

/-- A replay is a run. -/
theorem exists_run_of_replay [DecidableEq Γ.Exc] [∀ q s r, Decidable (P.answers q s r)]
    {G : Pool Γ → Move Γ P.Op → Prop} [∀ p m, Decidable (G p m)] {init : Γ.State → Prop} :
    ∀ {ms : List (Move Γ P.Op)} {p p' : Pool Γ}, P.replay G p ms = some p' →
      ∃ z, (P.machine init).Run p z p' ∧ ∀ e ∈ z, G e.source e.label
  | [], p, p', h => by
      obtain rfl := Option.some.inj h
      exact ⟨[], .nil p, fun e he => absurd he List.not_mem_nil⟩
  | m :: ms, p, p', h => by
      obtain ⟨q, hq, hrest⟩ := Option.bind_eq_some_iff.mp h
      dsimp only at hq
      split at hq
      · rename_i hm
        have hadm : P.Admissible p m := by
          cases m with
          | resume i a =>
            have hplain : p.AtResume i a fun _ q r => P.Direct p.state q r := hm.1
            exact fun t ht q k hk => Direct.answers P (hplain.of ht hk)
          | crash i a n => exact hm.1.elim
          | spawn c => trivial
          | start i => trivial
          | op o => trivial
        obtain ⟨z, hrun, hG⟩ := exists_run_of_replay hrest
        have hstep : (P.machine init).step p m q := ⟨hq, hadm⟩
        refine ⟨_, (Machine.Run.single hstep).append hrun, fun e he => ?_⟩
        rcases List.mem_cons.mp he with rfl | he
        · exact hm.2
        · exact hG e he
      · cases hq

theorem replay_reach [DecidableEq Γ.Exc] [∀ q s r, Decidable (P.answers q s r)]
    {G : Pool Γ → Move Γ P.Op → Prop} [∀ p m, Decidable (G p m)] {init : Γ.State → Prop}
    {ms : List (Move Γ P.Op)} {p p' : Pool Γ} (hp : (P.machine init).Reach G p)
    (h : P.replay G p ms = some p') : (P.machine init).Reach G p' := by
  obtain ⟨z, hrun, hG⟩ := exists_run_of_replay h
  exact hp.run hrun hG

end Program

end Caips.Logic
