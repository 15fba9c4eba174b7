/-
Caips.Coreai.TaskRunnerTheorems — the lifecycle of a task.

`start_task` makes a task running whatever it was, so the lifecycle rests on
who calls it: the run a worker made when it saw the task pending. Between the
making of the run and its first step the task can be cancelled. `cancel` also
cancels the run then, `Kernel.stop` does not, and the run revives a cancelled
task (`revived`). A task that is submitted to an agent while `drop_agent` waits
for the agent's worker gets a second worker, which runs beside the first
(`overlap`). Without these two the lifecycle holds in every interleaving.

The invariant says who is who: an agent has one worker that is not over, the
registered one or the one a `drop_agent` waits for, and what the run of that
worker may still do to its task.
-/
import Caips.Coreai.TaskRunner
import Caips.Coreai.OrchestratorTheorems

namespace Caips.Coreai

open Caips.Logic

/-- The worker reads from this queue. -/
def Worker.At (k : Worker) (q : Nat) : Prop :=
  k.stage = .created ∨ k.stage = .getting q ∨ ∃ run, k.stage = .waiting q run

/-- A run that was neither begun nor cancelled. -/
def TaskRun.Ready (run : TaskRun) : Prop := run.stage = .created ∧ run.cancelled = false

instance (run : TaskRun) : Decidable run.Ready := inferInstanceAs (Decidable (_ ∧ _))

namespace TaskRunner

variable {s u : TaskRunner}

/-! ## What a run keeps -/

/-- The entries the worker of an agent chooses from. -/
def Queued (s : TaskRunner) (agentId : String) (e : QueueEntry) : Prop :=
  ∃ q h, s.queues.get? agentId = some q ∧ s.madeQueues[q]? = some h ∧ e ∈ h

/-- Its run is the run of worker `w`. -/
def HasRun (s : TaskRunner) (w : Nat) (k : Worker) (run : TaskRun) : Prop :=
  s.madeWorkers[w]? = some k ∧ k.run? = some run

/-- The task a step starts. -/
def starts (s : TaskRunner) : TaskEvent → Option Nat
  | .begin w true => do
      let k ← s.madeWorkers[w]?
      let run ← k.run?
      if run.Ready ∧ (s.orch.getTask run.taskId).isSome then some run.taskId else none
  | _ => none

/-- What happens to stored tasks: they keep their owner and priority, and their
status never goes back to pending nor away from a terminal one. -/
structure Evolves (s u : TaskRunner) : Prop where
  next : s.orch.taskStore.nextId ≤ u.orch.taskStore.nextId
  tasks : ∀ id y, u.orch.getTask id = some y →
    s.orch.taskStore.nextId ≤ id ∨
    ∃ x, s.orch.getTask id = some x ∧ y.agentId = x.agentId ∧ y.priority = x.priority ∧
      (y.status = x.status ∨ ¬x.status.Terminal ∧ y.status ≠ .pending)

/-- One task of an agent is running, and one run is in its agent's hands. -/
structure OneAtATime (s : TaskRunner) : Prop where
  running : ∀ i j x y, s.orch.getTask i = some x → s.orch.getTask j = some y →
    x.status = .running → y.status = .running → x.agentId = y.agentId → i = j
  begun : ∀ v w k l p r, s.HasRun v k p → s.HasRun w l r → p.stage = .begun → r.stage = .begun →
    k.agentId = l.agentId → v = w

/-- The task a worker made a run for is a pending one of its agent's queue, of
highest priority among those, and of these the one submitted first. -/
def TakesFirst (s : TaskRunner) (w : Nat) (u : TaskRunner) : Prop :=
  ∀ k q run, u.madeWorkers[w]? = some k → k.stage = .waiting q run → run.stage = .created →
    ∃ e x, s.Queued k.agentId e ∧ e.taskId = run.taskId ∧
      s.orch.getTask run.taskId = some x ∧ x.status = .pending ∧
      ∀ e' x', s.Queued k.agentId e' → s.orch.getTask e'.taskId = some x' → x'.status = .pending →
        x'.priority < x.priority ∨ x'.priority = x.priority ∧ e.seq ≤ e'.seq

/-- The steps the lifecycle stands on: the kernel does not stop while a pending
task has a run that is yet to begin, and nothing is submitted to an agent whose
`drop_agent` is waiting for its worker. -/
def Orderly (s : TaskRunner) : TaskEvent → Prop
  | .stop => ∀ w k run, s.HasRun w k run → run.Ready → s.isPending run.taskId = false
  | .submit t => ∀ x, s.orch.getTask t = some x → x.agentId ∉ s.drops.map Prod.fst
  | _ => True

/-! ## The invariant -/

/-- What a run may still do to its task. -/
structure RunOk (s : TaskRunner) (w : Nat) (k : Worker) (run : TaskRun) : Prop where
  known : run.taskId < s.orch.taskStore.nextId
  agent : ∀ x, s.orch.getTask run.taskId = some x → x.agentId = k.agentId
  ready : ∀ x, s.orch.getTask run.taskId = some x → run.Ready →
    x.status = .pending ∧ s.current.get? k.agentId = some (run.taskId, w)
  cancelled : ∀ x, s.orch.getTask run.taskId = some x → run.cancelled = true ∨ k.cancelled = true →
    x.status.Terminal

theorem RunOk.congr {w : Nat} {k : Worker} {run : TaskRun} (h : s.RunOk w k run) (horch : u.orch = s.orch)
    (hcurrent : u.current = s.current) : u.RunOk w k run := by
  refine ⟨horch ▸ h.known, fun x hx => h.agent x (horch ▸ hx), fun x hx hr => ?_, fun x hx => h.cancelled x (horch ▸ hx)⟩
  rw [hcurrent]
  exact h.ready x (horch ▸ hx) hr

/-- An entry says who its task belongs to and how urgent it is. -/
def EntryOk (s : TaskRunner) (a : String) (e : QueueEntry) : Prop :=
  e.taskId < s.orch.taskStore.nextId ∧
    ∀ x, s.orch.getTask e.taskId = some x → x.agentId = a ∧ e.priority = x.priority

structure Inv (s : TaskRunner) : Prop where
  orch : s.orch.Ok
  queue : ∀ a q, s.queues.get? a = some q → ∃ h, s.madeQueues[q]? = some h ∧ ∀ e ∈ h, s.EntryOk a e
  apart : ∀ a b q, s.queues.get? a = some q → s.queues.get? b = some q → a = b
  registered : ∀ a w, s.workers.get? a = some w → ∃ k, s.madeWorkers[w]? = some k ∧ k.agentId = a ∧
    k.cancelled = false ∧ k.stage ≠ .over ∧ a ∉ s.drops.map Prod.fst ∧
    ∃ q, s.queues.get? a = some q ∧ k.At q
  alive : ∀ w k, s.madeWorkers[w]? = some k → k.stage ≠ .over →
    s.workers.get? k.agentId = some w ∨ k.cancelled = true ∧ (k.agentId, w) ∈ s.drops
  nodup : (s.drops.map Prod.fst).Nodup
  run : ∀ w k run, s.HasRun w k run → s.RunOk w k run
  running : ∀ id x, s.orch.getTask id = some x → x.status = .running →
    ∃ w k run, s.HasRun w k run ∧ run.stage = .begun ∧ run.taskId = id
  current : ∀ a t w, s.current.get? a = some (t, w) →
    ∃ k run, s.HasRun w k run ∧ k.agentId = a ∧ run.taskId = t

theorem not_over_of_run {k : Worker} {run : TaskRun} (h : k.run? = some run) : k.stage ≠ .over := by
  intro hover
  rw [Worker.run?, hover] at h
  cases h

namespace Inv

variable (h : s.Inv)

include h

theorem one_worker {v w : Nat} {k l : Worker} (hk : s.madeWorkers[v]? = some k)
    (hl : s.madeWorkers[w]? = some l) (hv : k.stage ≠ .over) (hw : l.stage ≠ .over)
    (hagent : k.agentId = l.agentId) : v = w := by
  rcases h.alive v k hk hv with hreg | ⟨-, hdrop⟩ <;> rcases h.alive w l hl hw with hreg' | ⟨-, hdrop'⟩
  · rw [hagent] at hreg
    exact Option.some.inj (hreg.symm.trans hreg')
  · obtain ⟨-, -, -, -, -, hnot, -⟩ := h.registered _ _ hreg
    exact absurd (hagent ▸ List.mem_map_of_mem hdrop' : k.agentId ∈ s.drops.map Prod.fst) hnot
  · obtain ⟨-, -, -, -, -, hnot, -⟩ := h.registered _ _ hreg'
    exact absurd (hagent ▸ List.mem_map_of_mem hdrop : l.agentId ∈ s.drops.map Prod.fst) hnot
  · have heq := List.inj_on_of_nodup_map h.nodup hdrop hdrop' hagent
    exact (Prod.mk.inj heq).2

theorem one_run {v w : Nat} {k l : Worker} {p r : TaskRun} (hp : s.HasRun v k p) (hr : s.HasRun w l r)
    (hagent : k.agentId = l.agentId) : v = w ∧ k = l ∧ p = r := by
  obtain rfl := h.one_worker hp.1 hr.1 (not_over_of_run hp.2) (not_over_of_run hr.2) hagent
  obtain rfl := Option.some.inj (hp.1.symm.trans hr.1)
  exact ⟨rfl, rfl, Option.some.inj (hp.2.symm.trans hr.2)⟩

theorem oneAtATime : s.OneAtATime where
  running i j x y hx hy hxr hyr hagent := by
    obtain ⟨v, k, p, hp, -, rfl⟩ := h.running i x hx hxr
    obtain ⟨w, l, r, hr, -, rfl⟩ := h.running j y hy hyr
    have hk := (h.run v k p hp).agent x hx
    have hl := (h.run w l r hr).agent y hy
    exact congrArg TaskRun.taskId (h.one_run hp hr (hk.symm.trans (hagent.trans hl))).2.2
  begun v w k l p r hp hr _ _ hagent := (h.one_run hp hr hagent).1

end Inv

/-! ## Statuses -/

theorem Evolves.refl (s : TaskRunner) : s.Evolves s :=
  ⟨Nat.le_refl _, fun _ y hy => .inr ⟨y, hy, rfl, rfl, .inl rfl⟩⟩

theorem Evolves.of_orch (h : u.orch = s.orch) : s.Evolves u := by
  refine ⟨Nat.le_of_eq (by rw [h]), fun id y hy => .inr ⟨y, h ▸ hy, rfl, rfl, .inl rfl⟩⟩

theorem Evolves.trans {v : TaskRunner} (h : s.Evolves u) (h' : u.Evolves v) : s.Evolves v := by
  refine ⟨Nat.le_trans h.next h'.next, fun id z hz => ?_⟩
  rcases h'.tasks id z hz with hnew | ⟨y, hy, hya, hyp, hyst⟩
  · exact .inl (Nat.le_trans h.next hnew)
  · rcases h.tasks id y hy with hnew | ⟨x, hx, hxa, hxp, hxst⟩
    · exact .inl hnew
    · refine .inr ⟨x, hx, hya.trans hxa, hyp.trans hxp, ?_⟩
      rcases hyst with hst | ⟨hopen, hst⟩ <;> rcases hxst with hst' | ⟨hopen', hst'⟩
      · exact .inl (hst.trans hst')
      · exact .inr ⟨hopen', hst ▸ hst'⟩
      · exact .inr ⟨hst' ▸ hopen, hst⟩
      · exact .inr ⟨hopen', hst⟩

/-- Statuses that become terminal, of tasks no run is ready to start. -/
structure Ends (s : TaskRunner) (o : Orchestrator) : Prop where
  next : s.orch.taskStore.nextId ≤ o.taskStore.nextId
  tasks : ∀ id y, o.getTask id = some y →
    (s.orch.taskStore.nextId ≤ id ∧ y.status = .pending) ∨
    ∃ x, s.orch.getTask id = some x ∧ y.agentId = x.agentId ∧ y.priority = x.priority ∧
      (y.status = x.status ∨ ¬x.status.Terminal ∧ y.status.Terminal ∧
        ∀ w k run, s.HasRun w k run → run.Ready → run.taskId ≠ id)

theorem Ends.evolves {o : Orchestrator} (he : s.Ends o) : s.Evolves { s with orch := o } := by
  refine ⟨he.next, fun id y hy => ?_⟩
  rcases he.tasks id y hy with ⟨hnew, -⟩ | ⟨x, hx, hya, hyp, hst | ⟨hopen, hterm, -⟩⟩
  · exact .inl hnew
  · exact .inr ⟨x, hx, hya, hyp, .inl hst⟩
  · exact .inr ⟨x, hx, hya, hyp, .inr ⟨hopen, hterm.ne_pending⟩⟩

theorem Ends.before {o : Orchestrator} (he : s.Ends o) {id : Nat} {y : AgentTask} (hy : o.getTask id = some y)
    (hid : id < s.orch.taskStore.nextId) : ∃ x, s.orch.getTask id = some x ∧ y.agentId = x.agentId ∧
      y.priority = x.priority ∧ (y.status = x.status ∨ ¬x.status.Terminal ∧ y.status.Terminal ∧
        ∀ w k run, s.HasRun w k run → run.Ready → run.taskId ≠ id) := by
  rcases he.tasks id y hy with ⟨hnew, -⟩ | hold
  · exact absurd hid (Nat.not_lt.mpr hnew)
  · exact hold

namespace Inv

/-- Ending tasks keeps the invariant. -/
theorem ends (h : s.Inv) {o : Orchestrator} (ho : o.Ok) (he : s.Ends o) : Inv { s with orch := o } where
  orch := ho
  queue a q hq := by
    obtain ⟨b, hb, hentries⟩ := h.queue a q hq
    refine ⟨b, hb, fun e hin => ?_⟩
    obtain ⟨hlt, hentry⟩ := hentries e hin
    refine ⟨Nat.lt_of_lt_of_le hlt he.next, fun y hy => ?_⟩
    obtain ⟨x, hx, hya, hyp, -⟩ := he.before hy hlt
    exact ⟨hya.trans (hentry x hx).1, (hentry x hx).2.trans hyp.symm⟩
  apart := h.apart
  registered := h.registered
  alive := h.alive
  nodup := h.nodup
  run w k run hrun := by
    have hold := h.run w k run hrun
    refine ⟨Nat.lt_of_lt_of_le hold.known he.next, fun y hy => ?_, fun y hy hready => ?_, fun y hy hc => ?_⟩
    · obtain ⟨x, hx, hya, -, -⟩ := he.before hy hold.known
      exact hya.trans (hold.agent x hx)
    · obtain ⟨x, hx, -, -, hst | ⟨-, -, hnone⟩⟩ := he.before hy hold.known
      · rw [hst]
        exact hold.ready x hx hready
      · exact absurd rfl (hnone w k run hrun hready)
    · obtain ⟨x, hx, -, -, hst | ⟨-, hterm, -⟩⟩ := he.before hy hold.known
      · rw [hst]
        exact hold.cancelled x hx hc
      · exact hterm
  running id y hy hyr := by
    rcases he.tasks id y hy with ⟨-, hp⟩ | ⟨x, hx, -, -, hst | ⟨-, hterm, -⟩⟩
    · exact nomatch hp.symm.trans hyr
    · exact h.running id x hx (hst ▸ hyr)
    · exact absurd hyr hterm.ne_running
  current := h.current

end Inv

/-! ## One worker moves -/

/-- Worker `w`, which is not over, goes from `k` to `k'`; its queue only loses
entries, and the statuses of its agent's tasks become `f`. -/
structure Moves (s : TaskRunner) (w : Nat) (k k' : Worker) (f : Nat → TaskStatus → TaskStatus)
    (u : TaskRunner) : Prop where
  source : s.madeWorkers[w]? = some k
  atWork : k.stage ≠ .over
  workers : u.workers = s.workers
  made : u.madeWorkers = s.madeWorkers.set w k'
  queues : u.queues = s.queues
  drops : u.drops = s.drops
  agent : k'.agentId = k.agentId
  flag : k'.cancelled = k.cancelled
  stays : k.cancelled = false → k'.stage ≠ .over ∧
    ∀ q, s.queues.get? k.agentId = some q → k.At q → k'.At q
  entries : ∀ (q : Nat) (b : PriorityQueue QueueEntry), s.madeQueues[q]? = some b →
    ∃ b' : PriorityQueue QueueEntry, u.madeQueues[q]? = some b' ∧ ∀ e ∈ b', e ∈ b
  orch : u.orch.Ok
  writes : s.orch.Writes u.orch f
  others : ∀ id x, s.orch.getTask id = some x → x.agentId ≠ k.agentId → f id x.status = x.status
  current : ∀ a, a ≠ k.agentId → u.current.get? a = s.current.get? a
  own : ∀ t v, u.current.get? k.agentId = some (t, v) → v = w ∧ ∃ run, k'.run? = some run ∧ run.taskId = t
  run : ∀ run, k'.run? = some run → u.RunOk w k' run
  running : ∀ id x, s.orch.getTask id = some x → x.agentId = k.agentId → f id x.status = .running →
    ∃ run, k'.run? = some run ∧ run.stage = .begun ∧ run.taskId = id

theorem getElem?_set_cases {l : List Worker} {w v : Nat} {k k' j : Worker} (hk : l[w]? = some k) :
    (l.set w k')[v]? = some j ↔ (v = w ∧ j = k') ∨ (v ≠ w ∧ l[v]? = some j) := by
  have hlt := (List.getElem?_eq_some_iff.mp hk).1
  rw [List.getElem?_set]
  by_cases hv : w = v
  · subst hv
    simp [hlt, eq_comm]
  · simp [hv, Ne.symm hv]

namespace Moves

variable {w : Nat} {k k' : Worker} {f : Nat → TaskStatus → TaskStatus}

theorem get (m : s.Moves w k k' f u) {v : Nat} {j : Worker} : u.madeWorkers[v]? = some j ↔
    (v = w ∧ j = k') ∨ (v ≠ w ∧ s.madeWorkers[v]? = some j) := by
  rw [m.made]
  exact getElem?_set_cases m.source

theorem self (m : s.Moves w k k' f u) : u.madeWorkers[w]? = some k' := m.get.mpr (.inl ⟨rfl, rfl⟩)

theorem hasRun (m : s.Moves w k k' f u) (h : s.Inv) {v : Nat} {j : Worker} {run : TaskRun} (hr : u.HasRun v j run) :
    (v = w ∧ j = k' ∧ k'.run? = some run) ∨ (v ≠ w ∧ s.HasRun v j run ∧ j.agentId ≠ k.agentId) := by
  rcases m.get.mp hr.1 with ⟨hv, rfl⟩ | ⟨hv, hj⟩
  · exact .inl ⟨hv, rfl, hr.2⟩
  · exact .inr ⟨hv, ⟨hj, hr.2⟩, fun hagent =>
      hv (h.one_worker hj m.source (not_over_of_run hr.2) m.atWork hagent)⟩

theorem inv (m : s.Moves w k k' f u) (h : s.Inv) : u.Inv where
  orch := m.orch
  queue a q hq := by
    rw [m.queues] at hq
    obtain ⟨b, hb, hentries⟩ := h.queue a q hq
    obtain ⟨b', hb', hsub⟩ := m.entries q b hb
    refine ⟨b', hb', fun e he => ?_⟩
    obtain ⟨hlt, hentry⟩ := hentries e (hsub e he)
    refine ⟨m.writes.next ▸ hlt, fun y hy => ?_⟩
    obtain ⟨x, hx, hya, hyp, -⟩ := m.writes.tasks _ y hy
    exact ⟨hya.trans (hentry x hx).1, (hentry x hx).2.trans hyp.symm⟩
  apart := by
    rw [m.queues]
    exact h.apart
  registered a v hv := by
    rw [m.workers] at hv
    obtain ⟨j, hj, hja, hjc, hjo, hdrop, q, hq, hat⟩ := h.registered a v hv
    rw [m.drops, m.queues]
    by_cases hvw : v = w
    · subst hvw
      obtain rfl := Option.some.inj (hj.symm.trans m.source)
      obtain ⟨hover, hstays⟩ := m.stays hjc
      exact ⟨k', m.self, m.agent.trans hja, m.flag.trans hjc, hover, hdrop, q, hq, hstays q (hja ▸ hq) hat⟩
    · exact ⟨j, m.get.mpr (.inr ⟨hvw, hj⟩), hja, hjc, hjo, hdrop, q, hq, hat⟩
  alive v j hj hover := by
    rw [m.workers, m.drops]
    rcases m.get.mp hj with ⟨rfl, rfl⟩ | ⟨-, hj⟩
    · rw [m.agent, m.flag]
      exact h.alive v k m.source m.atWork
    · exact h.alive v j hj hover
  nodup := by
    rw [m.drops]
    exact h.nodup
  run v j run hr := by
    rcases m.hasRun h hr with ⟨rfl, rfl, hrun⟩ | ⟨-, hold, hagent⟩
    · exact m.run run hrun
    · have hok := h.run v j run hold
      have hbefore : ∀ y, u.orch.getTask run.taskId = some y → ∃ x, s.orch.getTask run.taskId = some x ∧
          y.agentId = j.agentId ∧ y.status = x.status := by
        intro y hy
        obtain ⟨x, hx, hya, -, hst⟩ := m.writes.tasks _ y hy
        have hxa := hok.agent x hx
        exact ⟨x, hx, hya.trans hxa, hst.trans (m.others _ x hx (hxa ▸ hagent))⟩
      refine ⟨m.writes.next ▸ hok.known, fun y hy => ?_, fun y hy hready => ?_, fun y hy hc => ?_⟩
      · exact (hbefore y hy).choose_spec.2.1
      · obtain ⟨x, hx, -, hst⟩ := hbefore y hy
        rw [hst, m.current _ hagent]
        exact hok.ready x hx hready
      · obtain ⟨x, hx, -, hst⟩ := hbefore y hy
        rw [hst]
        exact hok.cancelled x hx hc
  running id y hy hyr := by
    obtain ⟨x, hx, -, -, hst⟩ := m.writes.tasks id y hy
    rw [hst] at hyr
    by_cases hagent : x.agentId = k.agentId
    · obtain ⟨run, hrun, hbegun, hid⟩ := m.running id x hx hagent hyr
      exact ⟨w, k', run, ⟨m.self, hrun⟩, hbegun, hid⟩
    · rw [m.others id x hx hagent] at hyr
      obtain ⟨v, j, run, hr, hbegun, rfl⟩ := h.running id x hx hyr
      have hja := (h.run v j run hr).agent x hx
      have hvw : v ≠ w := by
        rintro rfl
        obtain rfl := Option.some.inj (hr.1.symm.trans m.source)
        exact hagent hja
      exact ⟨v, j, run, ⟨m.get.mpr (.inr ⟨hvw, hr.1⟩), hr.2⟩, hbegun, rfl⟩
  current a t v hc := by
    by_cases ha : a = k.agentId
    · subst ha
      obtain ⟨rfl, run, hrun, ht⟩ := m.own t v hc
      exact ⟨k', run, ⟨m.self, hrun⟩, m.agent, ht⟩
    · rw [m.current a ha] at hc
      obtain ⟨j, run, hr, hja, ht⟩ := h.current a t v hc
      have hvw : v ≠ w := by
        rintro rfl
        obtain rfl := Option.some.inj (hr.1.symm.trans m.source)
        exact ha hja.symm
      exact ⟨j, run, ⟨m.get.mpr (.inr ⟨hvw, hr.1⟩), hr.2⟩, hja, ht⟩

theorem evolves (m : s.Moves w k k' f u) (hf : ∀ id x, s.orch.getTask id = some x →
    f id x.status = x.status ∨ ¬x.status.Terminal ∧ f id x.status ≠ .pending) : s.Evolves u := by
  refine ⟨Nat.le_of_eq m.writes.next.symm, fun id y hy => ?_⟩
  obtain ⟨x, hx, hya, hyp, hst⟩ := m.writes.tasks id y hy
  exact .inr ⟨x, hx, hya, hyp, hst ▸ hf id x hx⟩

end Moves

/-! ## The worker -/

section Work

variable {w q : Nat} {k : Worker}

namespace Inv

theorem current_eq_none (h : s.Inv) (hk : s.madeWorkers[w]? = some k) (hw : k.stage ≠ .over)
    (hrun : k.run? = none) : s.current.get? k.agentId = none := by
  cases hc : s.current.get? k.agentId with
  | none => rfl
  | some e =>
    obtain ⟨j, run, hj, hagent, -⟩ := h.current _ e.1 e.2 hc
    obtain rfl := h.one_worker hj.1 hk (not_over_of_run hj.2) hw hagent
    obtain rfl := Option.some.inj (hj.1.symm.trans hk)
    exact nomatch hrun.symm.trans hj.2

theorem not_running (h : s.Inv) (hk : s.madeWorkers[w]? = some k) (hw : k.stage ≠ .over)
    (hidle : ∀ run, k.run? = some run → run.stage ≠ .begun) {id : Nat} {x : AgentTask}
    (hx : s.orch.getTask id = some x) (hagent : x.agentId = k.agentId) : x.status ≠ .running := by
  intro hrunning
  obtain ⟨v, j, run, hj, hbegun, rfl⟩ := h.running id x hx hrunning
  have hja := (h.run v j run hj).agent x hx
  obtain rfl := h.one_worker hj.1 hk (not_over_of_run hj.2) hw (hja.symm.trans hagent)
  obtain rfl := Option.some.inj (hj.1.symm.trans hk)
  exact hidle run hj.2 hbegun

theorem queue_of_at (h : s.Inv) (hk : s.madeWorkers[w]? = some k) (hw : k.stage ≠ .over)
    (hc : k.cancelled = false) : ∃ q, s.queues.get? k.agentId = some q ∧ k.At q := by
  rcases h.alive w k hk hw with hreg | ⟨hcancelled, -⟩
  · obtain ⟨j, hj, -, -, -, -, hq⟩ := h.registered _ _ hreg
    obtain rfl := Option.some.inj (hj.symm.trans hk)
    exact hq
  · exact nomatch hc.symm.trans hcancelled

end Inv

/-- A worker at the head of its loop takes a task or waits for one. -/
theorem moves_takeNext (h : s.Inv) {c : Dict String (Nat × Nat)} (hk : s.madeWorkers[w]? = some k)
    (hw : k.stage ≠ .over) (hc : k.cancelled = false) (hq : s.queues.get? k.agentId = some q)
    (hother : ∀ a, a ≠ k.agentId → c.get? a = s.current.get? a) (hnone : c.get? k.agentId = none)
    (hidle : ∀ run, k.run? = some run → run.stage ≠ .begun) :
    ∃ k' : Worker, s.Moves w k k' (fun _ st => st) ({ s with current := c }.takeNext w k q) := by
  obtain ⟨b, hb, hentries⟩ := h.queue _ q hq
  have hlt := (List.getElem?_eq_some_iff.mp hb).1
  -- what is left of the queue
  have hrest : ∀ rest : PriorityQueue QueueEntry, (∀ e ∈ rest, e ∈ b) →
      ∀ (q' : Nat) (b' : PriorityQueue QueueEntry), s.madeQueues[q']? = some b' →
        ∃ b'' : PriorityQueue QueueEntry, (s.madeQueues.set q rest)[q']? = some b'' ∧ ∀ e ∈ b'', e ∈ b' := by
    intro rest hsub q' b' hb'
    by_cases hqq : q = q'
    · subst hqq
      obtain rfl := Option.some.inj (hb.symm.trans hb')
      exact ⟨rest, by simp [hlt], hsub⟩
    · exact ⟨b', by simpa [List.getElem?_set, hqq] using hb', fun e he => he⟩
  have hsame : ∀ {k' : Worker}, k'.At q → ∀ q', s.queues.get? k.agentId = some q' → k.At q' → k'.At q' := by
    intro k' hat q' hq' _
    obtain rfl := Option.some.inj (hq.symm.trans hq')
    exact hat
  have hidle' : ∀ id x, s.orch.getTask id = some x → x.agentId = k.agentId → x.status ≠ .running :=
    fun _ _ hx hagent => h.not_running hk hw hidle hx hagent
  unfold TaskRunner.takeNext
  simp only [hb]
  split
  · next rest htake =>
      have hsub : ∀ e ∈ rest, e ∈ b := fun e he =>
        PriorityQueue.mem_of_mem_takeFirst (show e ∈ (b.takeFirst _).2 by rw [htake]; exact he)
      exact ⟨{ k with stage := .getting q },
        { source := hk, atWork := hw, workers := rfl, made := rfl, queues := rfl, drops := rfl, agent := rfl
          flag := rfl, stays := fun _ => ⟨nofun, hsame (.inr (.inl rfl))⟩, entries := hrest rest hsub
          orch := h.orch, writes := .refl _, others := fun _ _ _ _ => rfl, current := hother
          own := fun t v ht => nomatch hnone.symm.trans ht
          run := fun run hrun => nomatch hrun
          running := fun id x hx hagent hst => absurd hst (hidle' id x hx hagent) }⟩
  · next e rest htake =>
      have hsub : ∀ e' ∈ rest, e' ∈ b := fun e' he =>
        PriorityQueue.mem_of_mem_takeFirst (show e' ∈ (b.takeFirst _).2 by rw [htake]; exact he)
      obtain ⟨hpending, hmem, -⟩ :=
        PriorityQueue.takeFirst_eq_some (show (b.takeFirst _).1 = some e by rw [htake])
      obtain ⟨hknown, hentry⟩ := hentries e hmem
      refine ⟨{ k with stage := .waiting q { taskId := e.taskId } },
        { source := hk, atWork := hw, workers := rfl, made := rfl, queues := rfl, drops := rfl, agent := rfl
          flag := rfl, stays := fun _ => ⟨nofun, hsame (.inr (.inr ⟨_, rfl⟩))⟩, entries := hrest rest hsub
          orch := h.orch, writes := .refl _, others := fun _ _ _ _ => rfl, current := fun a ha => ?_
          own := fun t v ht => ?_, run := fun run hrun => ?_
          running := fun id x hx hagent hst => absurd hst (hidle' id x hx hagent) }⟩
      · exact (Dict.get?_set_ne _ _ (Ne.symm ha)).trans (hother a ha)
      · obtain ⟨rfl, rfl⟩ := Prod.mk.inj (Option.some.inj ((Dict.get?_set_self _ _ _).symm.trans ht))
        exact ⟨rfl, _, rfl, rfl⟩
      · obtain rfl := Option.some.inj hrun
        refine ⟨hknown, fun x hx => (hentry x hx).1, fun x hx _ => ⟨?_, Dict.get?_set_self _ _ _⟩,
          fun x hx hcancel => ?_⟩
        · have hx' : s.orch.getTask e.taskId = some x := hx
          simpa [isPending, hx'] using hpending
        · rcases hcancel with hcancel | hcancel
          · cases hcancel
          · exact nomatch hc.symm.trans hcancel

/-- A cancelled worker without a run in its agent's hands ends. -/
theorem moves_over (h : s.Inv) {c : Dict String (Nat × Nat)} (hk : s.madeWorkers[w]? = some k)
    (hw : k.stage ≠ .over) (hc : k.cancelled = true)
    (hother : ∀ a, a ≠ k.agentId → c.get? a = s.current.get? a) (hnone : c.get? k.agentId = none)
    (hidle : ∀ run, k.run? = some run → run.stage ≠ .begun) :
    s.Moves w k { k with stage := .over } (fun _ st => st)
      ({ s with current := c }.setWorker w { k with stage := .over }) where
  source := hk
  atWork := hw
  workers := rfl
  made := rfl
  queues := rfl
  drops := rfl
  agent := rfl
  flag := rfl
  stays hfalse := nomatch hfalse.symm.trans hc
  entries _ b hb := ⟨b, hb, fun _ he => he⟩
  orch := h.orch
  writes := .refl _
  others _ _ _ _ := rfl
  current := hother
  own _ _ ht := nomatch hnone.symm.trans ht
  run _ hrun := nomatch hrun
  running _ _ hx hagent hst := absurd hst (h.not_running hk hw hidle hx hagent)

/-- A cancelled worker cancels its run. -/
theorem moves_stopping (h : s.Inv) {run : TaskRun} (hk : s.madeWorkers[w]? = some k)
    (hstage : k.stage = .waiting q run) (hc : k.cancelled = true) :
    s.Moves w k { k with stage := .stopping { run with cancelled := true } } (fun _ st => st)
      (s.setWorker w { k with stage := .stopping { run with cancelled := true } }) := by
  have hrun : s.HasRun w k run := ⟨hk, by rw [Worker.run?, hstage]⟩
  have hw := not_over_of_run hrun.2
  have hok := h.run w k run hrun
  refine { source := hk, atWork := hw, workers := rfl, made := rfl, queues := rfl, drops := rfl, agent := rfl
           flag := rfl, stays := fun hfalse => nomatch hfalse.symm.trans hc
           entries := fun q b hb => ⟨b, hb, fun _ he => he⟩
           orch := h.orch, writes := .refl _, others := fun _ _ _ _ => rfl, current := fun _ _ => rfl
           own := fun t v ht => ?_, run := fun r hr => ?_, running := fun id x hx hagent hst => ?_ }
  · obtain ⟨j, p, hp, hagent, rfl⟩ := h.current _ t v ht
    obtain ⟨rfl, rfl, rfl⟩ := h.one_run hp hrun hagent
    exact ⟨rfl, _, rfl, rfl⟩
  · obtain rfl := Option.some.inj hr
    exact ⟨hok.known, hok.agent, fun x _ hready => (nomatch hready.2),
      fun x hx _ => hok.cancelled x hx (.inr hc)⟩
  · obtain ⟨v, j, p, hp, hbegun, rfl⟩ := h.running id x hx hst
    have hja := (h.run v j p hp).agent x hx
    obtain ⟨rfl, rfl, rfl⟩ := h.one_run hp hrun (hja.symm.trans hagent)
    exact ⟨_, rfl, hbegun, rfl⟩

theorem get?_pop_of_ne {d : Dict String (Nat × Nat)} {a b : String} (h : a ≠ b) : (d.pop b).get? a = d.get? a :=
  Dict.get?_pop_ne _ (Ne.symm h)

/-- What the next step of a worker is: it goes to the head of its loop, ends, or
cancels its run. -/
theorem work_cases (h : s.Inv) (hstep : s.work w = some u) : ∃ k, s.madeWorkers[w]? = some k ∧ k.stage ≠ .over ∧
    ((∃ c, (∀ a, a ≠ k.agentId → c.get? a = s.current.get? a) ∧ c.get? k.agentId = none ∧
        (∀ run, k.run? = some run → run.stage ≠ .begun) ∧
        ((k.cancelled = false ∧ ∃ q, s.queues.get? k.agentId = some q ∧
            u = { s with current := c }.takeNext w k q) ∨
          (k.cancelled = true ∧ u = { s with current := c }.setWorker w { k with stage := .over }))) ∨
      (k.cancelled = true ∧ ∃ q run, k.stage = .waiting q run ∧
        u = s.setWorker w { k with stage := .stopping { run with cancelled := true } })) := by
  unfold TaskRunner.work at hstep
  cases hk : s.madeWorkers[w]? with
  | none => simp [hk] at hstep
  | some k =>
    simp only [hk] at hstep
    refine ⟨k, rfl, ?_⟩
    -- a worker before its first run, or between two
    have hfree : k.stage ≠ .over → k.run? = none → ∀ q, (k.cancelled = false → s.queues.get? k.agentId = some q) →
        (if k.cancelled then some (s.setWorker w { k with stage := .over }) else some (s.takeNext w k q)) = some u →
        ∃ c, (∀ a, a ≠ k.agentId → c.get? a = s.current.get? a) ∧ c.get? k.agentId = none ∧
          (∀ run, k.run? = some run → run.stage ≠ .begun) ∧
          ((k.cancelled = false ∧ ∃ q, s.queues.get? k.agentId = some q ∧
              u = { s with current := c }.takeNext w k q) ∨
            (k.cancelled = true ∧ u = { s with current := c }.setWorker w { k with stage := .over })) := by
      intro hw hrun q hq hstep
      refine ⟨s.current, fun _ _ => rfl, h.current_eq_none hk hw hrun,
        fun run hr => (by cases hrun.symm.trans hr), ?_⟩
      by_cases hc : k.cancelled = true
      · rw [if_pos hc] at hstep
        exact .inr ⟨hc, (Option.some.inj hstep).symm⟩
      · rw [if_neg hc] at hstep
        have hc' : k.cancelled = false := by simpa using hc
        exact .inl ⟨hc', q, hq hc', (Option.some.inj hstep).symm⟩
    cases hstage : k.stage with
    | created =>
      have hw : k.stage ≠ .over := by simp [hstage]
      have hrun : k.run? = none := by simp [Worker.run?, hstage]
      simp only [hstage] at hstep
      refine ⟨by simp, .inl ?_⟩
      cases hq : s.queues.get? k.agentId with
      | none =>
        have hc : k.cancelled = true := by
          by_contra hc
          obtain ⟨q, hq', -⟩ := h.queue_of_at hk hw (by simpa using hc)
          cases hq.symm.trans hq'
        rw [if_pos hc] at hstep
        have hall := hfree hw hrun 0 (fun hfalse => by cases hfalse.symm.trans hc) (by rw [if_pos hc]; exact hstep)
        rwa [hq] at hall
      | some q =>
        simp only [hq] at hstep
        have hall := hfree hw hrun q (fun _ => hq) hstep
        rwa [hq] at hall
    | getting q =>
      have hw : k.stage ≠ .over := by simp [hstage]
      simp only [hstage] at hstep
      refine ⟨by simp, .inl (hfree hw (by simp [Worker.run?, hstage]) q (fun hc => ?_) hstep)⟩
      obtain ⟨q', hq', hat⟩ := h.queue_of_at hk hw hc
      obtain rfl : q = q' := by simpa [Worker.At, hstage] using hat
      exact hq'
    | waiting q run =>
      have hw : k.stage ≠ .over := by simp [hstage]
      simp only [hstage] at hstep
      refine ⟨by simp, ?_⟩
      split at hstep
      · next hc => exact .inr ⟨hc, q, run, rfl, (Option.some.inj hstep).symm⟩
      · next hc =>
          obtain ⟨hover, hstep⟩ := Option.ite_none_right_eq_some.mp hstep
          have hc' : k.cancelled = false := by simpa using hc
          obtain ⟨q', hq', hat⟩ := h.queue_of_at hk hw hc'
          obtain rfl : q = q' := by simpa [Worker.At, hstage] using hat
          refine .inl ⟨s.current.pop k.agentId, fun a ha => get?_pop_of_ne ha, Dict.get?_pop_self _ _,
            fun r hr => ?_, .inl ⟨hc', q, hq', (Option.some.inj hstep).symm⟩⟩
          obtain rfl : run = r := by simpa [Worker.run?, hstage] using hr
          simp [hover]
    | stopping run =>
      have hw : k.stage ≠ .over := by simp [hstage]
      simp only [hstage] at hstep
      obtain ⟨hover, hstep⟩ := Option.ite_none_right_eq_some.mp hstep
      have hc : k.cancelled = true := by
        by_contra hc
        obtain ⟨q, -, hat⟩ := h.queue_of_at hk hw (by simpa using hc)
        simp [Worker.At, hstage] at hat
      refine ⟨by simp, .inl ⟨s.current.pop k.agentId, fun a ha => get?_pop_of_ne ha, Dict.get?_pop_self _ _,
        fun r hr => ?_, .inr ⟨hc, (Option.some.inj hstep).symm⟩⟩⟩
      obtain rfl : run = r := by simpa [Worker.run?, hstage] using hr
      simp [hover]
    | «over» => simp [hstage] at hstep

theorem work_moves (h : s.Inv) (hstep : s.work w = some u) :
    ∃ k k' : Worker, s.Moves w k k' (fun _ st => st) u := by
  obtain ⟨k, hk, hw, ⟨c, hother, hnone, hidle, hnext | ⟨hc, rfl⟩⟩ | ⟨hc, q, run, hstage, rfl⟩⟩ := work_cases h hstep
  · obtain ⟨hc, q, hq, rfl⟩ := hnext
    exact ⟨k, moves_takeNext h hk hw hc hq hother hnone hidle⟩
  · exact ⟨k, _, moves_over h hk hw hc hother hnone hidle⟩
  · exact ⟨k, _, moves_stopping h hk hstage hc⟩

end Work

/-! ## The run -/

section Run

variable {w : Nat} {k : Worker} {run r : TaskRun}

@[simp] theorem agentId_setRun (k : Worker) (r : TaskRun) : (k.setRun r).agentId = k.agentId := by
  unfold Worker.setRun
  split <;> rfl

@[simp] theorem cancelled_setRun (k : Worker) (r : TaskRun) : (k.setRun r).cancelled = k.cancelled := by
  unfold Worker.setRun
  split <;> rfl

theorem run?_setRun (h : k.run? = some run) : (k.setRun r).run? = some r := by
  unfold Worker.run? at h
  unfold Worker.setRun Worker.run?
  cases hstage : k.stage <;> simp [hstage] at h ⊢

theorem at_setRun (h : k.run? = some run) {q : Nat} (hat : k.At q) : (k.setRun r).At q := by
  unfold Worker.run? at h
  unfold Worker.setRun
  unfold Worker.At at hat ⊢
  cases hstage : k.stage <;> simp [hstage] at h hat ⊢
  exact hat

/-- A run that goes on to something other than its start, with what this does
to its task. -/
theorem moves_run (h : s.Inv) (hrun : s.HasRun w k run) {o : Orchestrator}
    {f : Nat → TaskStatus → TaskStatus} (ht : r.taskId = run.taskId) (hr : ¬r.Ready) (ho : o.Ok)
    (hw : s.orch.Writes o f) (hf : ∀ id st, id ≠ run.taskId → f id st = st)
    (hcancelled : ∀ x, s.orch.getTask run.taskId = some x → r.cancelled = true ∨ k.cancelled = true →
      (f run.taskId x.status).Terminal)
    (hrunning : ∀ x, s.orch.getTask run.taskId = some x → f run.taskId x.status = .running →
      r.stage = .begun) :
    s.Moves w k (k.setRun r) f ({ s with orch := o }.setWorker w (k.setRun r)) := by
  have hok := h.run w k run hrun
  have hself := run?_setRun (r := r) hrun.2
  refine { source := hrun.1, atWork := not_over_of_run hrun.2, workers := rfl, made := rfl, queues := rfl
           drops := rfl, agent := agentId_setRun k r, flag := cancelled_setRun k r
           stays := fun _ => ⟨not_over_of_run hself, fun q _ hat => at_setRun hrun.2 hat⟩
           entries := fun q b hb => ⟨b, hb, fun _ he => he⟩
           orch := ho, writes := hw, others := fun id x hx hagent => hf id _ ?_, current := fun _ _ => rfl
           own := fun t v hc => ?_, run := fun p hp => ?_, running := fun id x hx hagent hst => ?_ }
  · rintro rfl
    exact hagent (hok.agent x hx)
  · obtain ⟨j, p, hp, hagent, rfl⟩ := h.current _ t v hc
    obtain ⟨rfl, rfl, rfl⟩ := h.one_run hp hrun hagent
    exact ⟨rfl, r, hself, ht⟩
  · obtain rfl := Option.some.inj (hself.symm.trans hp)
    refine ⟨?_, fun y hy => ?_, fun y _ hready => absurd hready hr, fun y hy hc => ?_⟩
    · rw [ht]
      exact hw.next ▸ hok.known
    · rw [ht] at hy
      obtain ⟨x, hx, hya, -, -⟩ := hw.tasks _ y hy
      exact hya.trans ((hok.agent x hx).trans (agentId_setRun k r).symm)
    · rw [ht] at hy
      obtain ⟨x, hx, -, -, hst⟩ := hw.tasks _ y hy
      rw [hst]
      exact hcancelled x hx (cancelled_setRun k r ▸ hc)
  · by_cases hid : id = run.taskId
    · subst hid
      exact ⟨r, hself, hrunning x hx hst, ht⟩
    · rw [hf id _ hid] at hst
      obtain ⟨v, j, p, hp, hbegun, rfl⟩ := h.running id x hx hst
      have hja := (h.run v j p hp).agent x hx
      obtain ⟨rfl, rfl, rfl⟩ := h.one_run hp hrun (hja.symm.trans hagent)
      exact absurd rfl hid

theorem Inv.not_running_of_created (h : s.Inv) (hrun : s.HasRun w k run) (hstage : run.stage = .created)
    {x : AgentTask} (hx : s.orch.getTask run.taskId = some x) : x.status ≠ .running := by
  refine h.not_running hrun.1 (not_over_of_run hrun.2) (fun r hr => ?_) hx ((h.run w k run hrun).agent x hx)
  obtain rfl := Option.some.inj (hrun.2.symm.trans hr)
  simp [hstage]

/-- What a run that ends does to its task: the task is not running any more. -/
def Settles (s : TaskRunner) (t : Nat) (u : TaskRunner) : Prop :=
  ∃ o f, u = { s with orch := o } ∧ o.Ok ∧ s.orch.Writes o f ∧ (∀ id st, id ≠ t → f id st = st) ∧
    ∀ x, s.orch.getTask t = some x → f t x.status = x.status ∧ x.status ≠ .running ∨
      (f t x.status).Terminal ∧ ¬x.status.Terminal

theorem Settles.refl (ho : s.orch.Ok) {t : Nat}
    (hnot : ∀ x, s.orch.getTask t = some x → x.status ≠ .running) : s.Settles t s :=
  ⟨s.orch, _, rfl, ho, .refl _, fun _ _ _ => rfl, fun x hx => .inl ⟨rfl, hnot x hx⟩⟩

theorem Settles.of_setTo {o : Orchestrator} {t : Nat} {st : TaskStatus}
    (hspec : o.Ok ∧ s.orch.Writes o (Orchestrator.setTo t st)) (hst : st.Terminal)
    (hopen : ∀ x, s.orch.getTask t = some x → ¬x.status.Terminal) : s.Settles t { s with orch := o } :=
  ⟨o, _, rfl, hspec.1, hspec.2, fun _ _ hid => Orchestrator.setTo_ne _ _ hid,
    fun x hx => .inr ⟨by rwa [Orchestrator.setTo_self], hopen x hx⟩⟩

theorem settles_fail (ho : s.orch.Ok) (t : Nat) (error : String) : s.Settles t (s.fail t error) := by
  unfold TaskRunner.fail
  split
  · next hopen =>
      refine .of_setTo (Orchestrator.failTask_spec ho t error) (.inr (.inl rfl)) fun x hx hterm => ?_
      have hstatus : x.status = .running ∨ x.status = .pending := by
        simpa [stillRunning, isPending, hx] using hopen
      exact hstatus.elim hterm.ne_running hterm.ne_pending
  · next hclosed =>
      refine .refl ho fun x hx hst => hclosed ?_
      simp [stillRunning, hx, hst]

theorem settles_settle (ho : s.orch.Ok) (t : Nat) {outcome : DispatchOutcome} (hout : outcome ≠ .cancelled) :
    s.Settles t (s.settle t outcome) := by
  cases outcome with
  | result r =>
    cases r with
    | none => exact settles_fail ho t _
    | some r =>
      simp only [TaskRunner.settle]
      split
      · next hrunning =>
          refine .of_setTo (Orchestrator.completeTask_spec ho t r) (.inl rfl) fun x hx hterm => ?_
          have hstatus : x.status = .running := by simpa [stillRunning, hx] using hrunning
          exact hterm.ne_running hstatus
      · next hclosed =>
          refine .refl ho fun x hx hst => hclosed ?_
          simp [stillRunning, hx, hst]
  | timeout => exact settles_fail ho t _
  | error kind text => exact settles_fail ho t _
  | cancelled => exact absurd rfl hout

/-- A run ends. -/
theorem Settles.spec {t : TaskRunner} (hset : s.Settles run.taskId t) (h : s.Inv) (hrun : s.HasRun w k run) :
    Inv (t.setWorker w (k.setRun { run with stage := .over })) ∧
      s.Evolves (t.setWorker w (k.setRun { run with stage := .over })) := by
  obtain ⟨o, f, rfl, ho, hw, hf, hself⟩ := hset
  have hok := h.run w k run hrun
  have hmoves := moves_run (r := { run with stage := .over }) h hrun rfl (fun hready => nomatch hready.1)
    ho hw hf (fun x hx hc => ?_) (fun x hx hst => ?_)
  · refine ⟨hmoves.inv h, hmoves.evolves fun id x hx => ?_⟩
    by_cases hid : id = run.taskId
    · subst hid
      rcases hself x hx with ⟨hsame, -⟩ | ⟨hterm, hopen⟩
      · exact .inl hsame
      · exact .inr ⟨hopen, hterm.ne_pending⟩
    · exact .inl (hf id _ hid)
  · rcases hself x hx with ⟨hsame, -⟩ | ⟨hterm, -⟩
    · rw [hsame]
      exact hok.cancelled x hx hc
    · exact hterm
  · rcases hself x hx with ⟨hsame, hnot⟩ | ⟨hterm, -⟩
    · exact absurd (hsame.symm.trans hst) hnot
    · exact absurd hst hterm.ne_running

theorem fail_setWorker (s : TaskRunner) (w : Nat) (k : Worker) (t : Nat) (error : String) :
    (s.setWorker w k).fail t error = (s.fail t error).setWorker w k := by
  have hsame : ((s.setWorker w k).stillRunning t || (s.setWorker w k).isPending t) =
      (s.stillRunning t || s.isPending t) := rfl
  unfold TaskRunner.fail
  rw [hsame]
  split <;> rfl

/-- What the first step of a run is. -/
theorem begin_cases {available : Bool} (hstep : s.begin w available = some u) :
    ∃ k run, s.HasRun w k run ∧ run.stage = .created ∧
      ((u = s.setWorker w (k.setRun { run with stage := .over }) ∧
          (run.cancelled = true ∨ s.orch.getTask run.taskId = none)) ∨
        (run.cancelled = false ∧ (s.orch.getTask run.taskId).isSome ∧
          ((available = true ∧ u = { s with orch := s.orch.startTask run.taskId }.setWorker w
              (k.setRun { run with stage := .begun })) ∨
            available = false ∧ ∃ error, u = (s.fail run.taskId error).setWorker w
              (k.setRun { run with stage := .over })))) := by
  unfold TaskRunner.begin at hstep
  cases hk : s.madeWorkers[w]? with
  | none => simp [hk] at hstep
  | some k =>
    cases hrun : k.run? with
    | none => simp [hk, hrun] at hstep
    | some run =>
      simp only [hk, hrun] at hstep
      obtain ⟨hstage, hstep⟩ := Option.ite_none_right_eq_some.mp hstep
      refine ⟨k, run, ⟨hk, hrun⟩, hstage, ?_⟩
      by_cases hc : run.cancelled = true
      · rw [if_pos hc] at hstep
        exact .inl ⟨(Option.some.inj hstep).symm, .inl hc⟩
      · rw [if_neg hc] at hstep
        cases hx : s.orch.getTask run.taskId with
        | none =>
          simp only [hx] at hstep
          exact .inl ⟨(Option.some.inj hstep).symm, .inr rfl⟩
        | some x =>
          simp only [hx] at hstep
          refine .inr ⟨by simpa using hc, rfl, ?_⟩
          cases available with
          | true => exact .inl ⟨rfl, (Option.some.inj hstep).symm⟩
          | false =>
            obtain rfl := Option.some.inj hstep
            exact .inr ⟨rfl, _, fail_setWorker s w _ _ _⟩

/-- The first step of a run. -/
theorem begin_spec (h : s.Inv) {available : Bool} (hstep : s.begin w available = some u) :
    u.Inv ∧ s.Evolves u := by
  obtain ⟨k, run, hrun, hstage, ⟨rfl, -⟩ | ⟨hc, -, ⟨-, rfl⟩ | ⟨-, error, rfl⟩⟩⟩ := begin_cases hstep
  · exact (Settles.refl h.orch fun x hx => h.not_running_of_created hrun hstage hx).spec h hrun
  · obtain ⟨ho, hw⟩ := Orchestrator.startTask_spec h.orch run.taskId
    have hok := h.run w k run hrun
    have hpending := fun x hx => (hok.ready x hx ⟨hstage, hc⟩).1
    have hmoves := moves_run (r := { run with stage := .begun }) h hrun rfl (fun hready => nomatch hready.1)
      ho hw (fun id st hid => Orchestrator.setTo_ne _ _ hid) (fun x hx hcancel => ?_) (fun _ _ _ => rfl)
    · refine ⟨hmoves.inv h, hmoves.evolves fun id x hx => ?_⟩
      by_cases hid : id = run.taskId
      · subst hid
        refine .inr ⟨fun hterm => hterm.ne_pending (hpending x hx), ?_⟩
        simp
      · exact .inl (Orchestrator.setTo_ne _ _ hid)
    · exact absurd (hpending x hx) (hok.cancelled x hx hcancel).ne_pending
  · exact (settles_fail h.orch run.taskId error).spec h hrun

/-- The last step of a run. -/
theorem finish_spec (h : s.Inv) {outcome : DispatchOutcome} (hstep : s.finish w outcome = some u) :
    u.Inv ∧ s.Evolves u := by
  unfold TaskRunner.finish at hstep
  cases hk : s.madeWorkers[w]? with
  | none => simp [hk] at hstep
  | some k =>
    cases hrun : k.run? with
    | none => simp [hk, hrun] at hstep
    | some run =>
      have hhas : s.HasRun w k run := ⟨hk, hrun⟩
      -- only a run that was asked to can end cancelled
      have hend : ∀ t, s.Settles run.taskId t →
          some (t.setWorker w (k.setRun { run with stage := .over })) = some u → u.Inv ∧ s.Evolves u := by
        intro t hset heq
        obtain rfl := Option.some.inj heq
        exact hset.spec h hhas
      cases outcome with
      | cancelled =>
        simp only [hk, hrun] at hstep
        obtain ⟨⟨-, hc⟩, hstep⟩ := Option.ite_none_right_eq_some.mp hstep
        exact hend s (.refl h.orch fun x hx => ((h.run w k run hhas).cancelled x hx (.inl hc)).ne_running) hstep
      | result r =>
        simp only [hk, hrun] at hstep
        exact hend (s.settle run.taskId (.result r)) (settles_settle h.orch _ nofun) (Option.ite_none_right_eq_some.mp hstep).2
      | timeout =>
        simp only [hk, hrun] at hstep
        exact hend (s.settle run.taskId (.timeout)) (settles_settle h.orch _ nofun) (Option.ite_none_right_eq_some.mp hstep).2
      | error kind text =>
        simp only [hk, hrun] at hstep
        exact hend (s.settle run.taskId (.error kind text)) (settles_settle h.orch _ nofun) (Option.ite_none_right_eq_some.mp hstep).2

end Run

/-! ## Ending tasks from outside -/

section Cancel

theorem not_terminal_of_open {st : TaskStatus} (h : st = .pending ∨ st = .running) : ¬st.Terminal := by
  rcases h with rfl | rfl <;> decide

/-- Cancelling some tasks, none of which is about to start. -/
theorem Ends.of_cancelled {o : Orchestrator} {l : Nat → Prop} [DecidablePred l]
    (hw : s.orch.Writes o fun id old => if l id then .cancelled else old)
    (hopen : ∀ id x, l id → s.orch.getTask id = some x → ¬x.status.Terminal)
    (hready : ∀ id x w k run, l id → s.orch.getTask id = some x → s.HasRun w k run → run.Ready →
      run.taskId ≠ id) : s.Ends o := by
  refine ⟨Nat.le_of_eq hw.next.symm, fun id y hy => .inr ?_⟩
  obtain ⟨x, hx, hya, hyp, hst⟩ := hw.tasks id y hy
  refine ⟨x, hx, hya, hyp, ?_⟩
  by_cases hl : l id
  · rw [if_pos hl] at hst
    have hterm : y.status.Terminal := .inr (.inr hst)
    exact .inr ⟨hopen id x hl hx, hterm, fun w k run => hready id x w k run hl hx⟩
  · rw [if_neg hl] at hst
    exact .inl hst

/-- `cancel`. -/
theorem cancel_spec (h : s.Inv) (t : Nat) : (s.cancel t).Inv ∧ s.Evolves (s.cancel t) ∧
    ∀ x, (s.cancel t).orch.getTask t = some x → x.status.Terminal := by
  unfold TaskRunner.cancel
  cases hx : s.orch.getTask t with
  | none => exact ⟨h, .refl s, fun x hx' => nomatch hx.symm.trans hx'⟩
  | some x =>
    simp only
    split
    · next hopen =>
        obtain ⟨ho, hw⟩ := Orchestrator.cancelTask_spec h.orch t
        have hterminal : ∀ y, (s.orch.cancelTask t).getTask t = some y → y.status.Terminal := by
          intro y hy
          obtain ⟨z, -, -, -, hst⟩ := hw.tasks t y hy
          rw [hst, Orchestrator.setTo_self]
          exact .inr (.inr rfl)
        -- the task has no run that is ready, or the agent's current run is its
        have hends : (∀ w k run, s.HasRun w k run → run.Ready → run.taskId ≠ t) →
            Inv { s with orch := s.orch.cancelTask t } ∧ s.Evolves { s with orch := s.orch.cancelTask t } := by
          intro hready
          have hends : s.Ends (s.orch.cancelTask t) := by
            refine .of_cancelled (l := fun id => id = t) (hw.of_eq fun _ _ => rfl) ?_ ?_
            · rintro id y rfl hy
              obtain rfl := Option.some.inj (hx.symm.trans hy)
              exact not_terminal_of_open hopen
            · rintro id y w k run rfl - hrun hr
              exact hready w k run hrun hr
          exact ⟨h.ends ho hends, hends.evolves⟩
        have hready : ∀ w k run, s.HasRun w k run → run.Ready → run.taskId = t →
            s.current.get? x.agentId = some (t, w) := by
          rintro w k run hrun hr rfl
          have hok := h.run w k run hrun
          rw [hok.agent x hx]
          exact (hok.ready x hx hr).2
        unfold TaskRunner.cancelRun
        cases hcurrent : s.current.get? x.agentId with
        | none =>
          simp only
          obtain ⟨hinv, hevolves⟩ := hends fun w k run hrun hr ht =>
            nomatch hcurrent.symm.trans (hready w k run hrun hr ht)
          exact ⟨hinv, hevolves, hterminal⟩
        | some e =>
          obtain ⟨t', w⟩ := e
          simp only
          split
          · next ht =>
              subst ht
              obtain ⟨k, run, hrun, hagent, rfl⟩ := h.current _ _ w hcurrent
              have hmoves := moves_run (r := { run with cancelled := true }) h hrun rfl
                (fun hr => nomatch hr.2) ho hw (fun id st hid => Orchestrator.setTo_ne _ _ hid)
                (fun _ _ _ => by rw [Orchestrator.setTo_self]; exact .inr (.inr rfl))
                (fun _ _ hst => by rw [Orchestrator.setTo_self] at hst; cases hst)
              simp only [hrun.1, hrun.2, Option.bind_some, Option.map_some]
              refine ⟨hmoves.inv h, hmoves.evolves fun id y hy => ?_, hterminal⟩
              by_cases hid : id = run.taskId
              · subst hid
                obtain rfl := Option.some.inj (hx.symm.trans hy)
                exact .inr ⟨not_terminal_of_open hopen, by simp⟩
              · exact .inl (Orchestrator.setTo_ne _ _ hid)
          · next ht =>
              obtain ⟨hinv, hevolves⟩ := hends fun w' k run hrun hr htask => by
                have heq := Option.some.inj (hcurrent.symm.trans (hready w' k run hrun hr htask))
                exact ht (Prod.mk.inj heq).1
              exact ⟨hinv, hevolves, hterminal⟩
    · next hclosed =>
        refine ⟨h, .refl s, fun y hy => ?_⟩
        obtain rfl := Option.some.inj (hx.symm.trans hy)
        unfold TaskStatus.Terminal
        cases hst : x.status <;> simp [hst] at hclosed ⊢

theorem nextId_cancel (s : TaskRunner) (t : Nat) :
    (s.cancel t).orch.taskStore.nextId = s.orch.taskStore.nextId := by
  have hcancelTask : (s.orch.cancelTask t).taskStore.nextId = s.orch.taskStore.nextId := by
    unfold Orchestrator.cancelTask
    split
    · rfl
    · exact TaskStore.nextId_update
  have hrun : ∀ (r : TaskRunner) a, (r.cancelRun a t).orch = r.orch := by
    intro r a
    unfold TaskRunner.cancelRun
    split
    · rfl
    · split
      · split <;> rfl
      · rfl
  unfold TaskRunner.cancel
  split
  · rfl
  · split
    · rw [hrun]
      exact hcancelTask
    · rfl

/-- Cancelling tasks one after another. -/
theorem cancelEach_spec (l : List Nat) : ∀ {s : TaskRunner}, s.Inv →
    (l.foldl cancel s).Inv ∧ s.Evolves (l.foldl cancel s) ∧
      (l.foldl cancel s).orch.taskStore.nextId = s.orch.taskStore.nextId ∧
      ∀ t ∈ l, ∀ x, (l.foldl cancel s).orch.getTask t = some x → x.status.Terminal := by
  induction l with
  | nil => exact fun h => ⟨h, .refl _, rfl, fun t ht => nomatch ht⟩
  | cons t l ih =>
    intro s h
    obtain ⟨hone, hevolves, hterminal⟩ := cancel_spec h t
    obtain ⟨hrest, hevolves', hnext, hterminal'⟩ := ih hone
    refine ⟨hrest, hevolves.trans hevolves', hnext.trans (nextId_cancel s t), fun t' ht' y hy => ?_⟩
    rcases List.mem_cons.mp ht' with rfl | ht'
    · rcases hevolves'.tasks _ y hy with hnew | ⟨x, hx, -, -, hst | ⟨hopen, -⟩⟩
      · exact absurd (hrest.orch.ids _ y hy).2 (by rw [hnext]; exact Nat.not_lt.mpr hnew)
      · exact hst ▸ hterminal x hx
      · exact absurd (hterminal x hx) hopen
    · exact hterminal' t' ht' y hy

/-- `Kernel.stop`, when no pending task is about to start. -/
theorem kernelStop_spec (h : s.Inv) (hg : s.Orderly .stop) (hstep : s.kernelStop = some u) :
    u.Inv ∧ s.Evolves u := by
  unfold TaskRunner.kernelStop at hstep
  obtain ⟨-, hstep⟩ := Option.ite_none_left_eq_some.mp hstep
  obtain rfl := Option.some.inj hstep
  obtain ⟨ho, hw⟩ := Orchestrator.cancelAll_spec (s.orch.getPendingTasks.map AgentTask.taskId) h.orch
  have hpending : ∀ id x, id ∈ s.orch.getPendingTasks.map AgentTask.taskId → s.orch.getTask id = some x →
      x.status = .pending := by
    intro id x hid hx
    obtain ⟨y, hy, rfl⟩ := List.mem_map.mp hid
    obtain ⟨hst, j, hj⟩ := TaskStore.of_mem_listByStatus hy
    obtain rfl := (h.orch.ids j y hj).1
    obtain rfl := Option.some.inj (hx.symm.trans hj)
    exact hst
  have hends : s.Ends ((s.orch.getPendingTasks.map AgentTask.taskId).foldl Orchestrator.cancelTask s.orch) := by
    refine .of_cancelled hw (fun id x hid hx hterm => hterm.ne_pending (hpending id x hid hx)) ?_
    rintro id x w k run hid hx hrun hr rfl
    have hnot := hg w k run hrun hr
    simp [isPending, hx, hpending _ x hid hx] at hnot
  have hinv := h.ends ho hends
  have hevolves := hends.evolves
  exact ⟨{ hinv with run := fun w k run hrun => (hinv.run w k run hrun).congr rfl rfl },
    ⟨hevolves.next, hevolves.tasks⟩⟩

/-- The end of `drop_agent`, for an agent none of whose tasks is about to start. -/
theorem forgetAgent_spec (h : s.Inv) {a : String}
    (hready : ∀ w k run, s.HasRun w k run → run.Ready → k.agentId = a → s.orch.getTask run.taskId = none)
    (hworker : s.workers.get? a = none) : (s.forgetAgent a).Inv ∧ s.Evolves (s.forgetAgent a) := by
  obtain ⟨ho, hw⟩ := Orchestrator.unregisterAgent_spec h.orch a
  have hends : s.Ends (s.orch.unregisterAgent a) := by
    refine .of_cancelled (l := fun id => s.orch.activeTasks.get? id = some a) hw
      (fun id x hid hx => ((h.orch.active id a hid).2 x hx).2) ?_
    rintro id x w k run hid hx hrun hr rfl
    have hagent := (h.run w k run hrun).agent x hx
    have hnone := hready w k run hrun hr (hagent.symm.trans ((h.orch.active _ a hid).2 x hx).1)
    cases hx.symm.trans hnone
  have hinv := h.ends ho hends
  have hevolves := hends.evolves
  have hqueue : ∀ {b q}, (s.queues.pop a).get? b = some q → b ≠ a ∧ s.queues.get? b = some q := by
    intro b q hq
    by_cases hb : a = b
    · subst hb
      simp at hq
    · exact ⟨Ne.symm hb, by rwa [Dict.get?_pop_ne _ hb] at hq⟩
  refine ⟨{ hinv with
    queue := fun b q hq => hinv.queue b q (hqueue hq).2
    apart := fun b c q hb hc => hinv.apart b c q (hqueue hb).2 (hqueue hc).2
    run := fun w k run hrun => (hinv.run w k run hrun).congr rfl rfl
    registered := fun b w hb => ?_ }, ⟨hevolves.next, hevolves.tasks⟩⟩
  obtain ⟨k, hk, hagent, hc, hover, hdrop, q, hq, hat⟩ := hinv.registered b w hb
  have hne : a ≠ b := by
    rintro rfl
    cases hworker.symm.trans hb
  exact ⟨k, hk, hagent, hc, hover, hdrop, q, (Dict.get?_pop_ne _ hne).trans hq, hat⟩

theorem getElem?_modify_cases {l : List Worker} {w v : Nat} {f : Worker → Worker} {k j : Worker}
    (hk : l[w]? = some k) :
    (l.modify w f)[v]? = some j ↔ (v = w ∧ j = f k) ∨ (v ≠ w ∧ l[v]? = some j) := by
  rw [List.getElem?_modify]
  by_cases hv : w = v
  · subst hv
    simp [hk, eq_comm]
  · simp [hv, Ne.symm hv]

/-- `drop_agent` marks the worker it will wait for. -/
theorem inv_markDropped (h : s.Inv) {a : String} {w : Nat} (hw : s.workers.get? a = some w)
    (hterminal : ∀ id x, s.orch.getTask id = some x → x.agentId = a → x.status.Terminal) :
    Inv { s with
      workers := s.workers.pop a
      madeWorkers := s.madeWorkers.modify w fun k => { k with cancelled := true }
      drops := s.drops ++ [(a, w)] } := by
  obtain ⟨k, hk, hagent, -, -, hdrop, -⟩ := h.registered a w hw
  have hget := fun v j => getElem?_modify_cases (v := v) (f := fun k : Worker => { k with cancelled := true })
    (j := j) hk
  have hpop : ∀ {b v}, (s.workers.pop a).get? b = some v → b ≠ a ∧ s.workers.get? b = some v := by
    intro b v hv
    by_cases hb : a = b
    · subst hb
      simp at hv
    · exact ⟨Ne.symm hb, by rwa [Dict.get?_pop_ne _ hb] at hv⟩
  -- a run of `s` is one after, of the same worker but for the mark
  have hback : ∀ {v j run}, s.HasRun v j run → ∃ j' : Worker, j'.agentId = j.agentId ∧
      (s.madeWorkers.modify w fun k => { k with cancelled := true })[v]? = some j' ∧ j'.run? = some run := by
    intro v j run hrun
    by_cases hv : v = w
    · subst hv
      obtain rfl := Option.some.inj (hk.symm.trans hrun.1)
      exact ⟨{ k with cancelled := true }, rfl, (hget v _).mpr (.inl ⟨rfl, rfl⟩), hrun.2⟩
    · exact ⟨j, rfl, (hget v j).mpr (.inr ⟨hv, hrun.1⟩), hrun.2⟩
  refine { h with registered := fun b v hb => ?_, alive := fun v j hj hover => ?_, nodup := ?_
                  run := fun v j run hrun => ?_, running := fun id x hx hst => ?_
                  current := fun b t v hc => ?_ }
  · obtain ⟨hne, hb⟩ := hpop hb
    obtain ⟨j, hj, hja, hjc, hover, hnot, q, hq, hat⟩ := h.registered b v hb
    have hv : v ≠ w := by
      rintro rfl
      obtain rfl := Option.some.inj (hk.symm.trans hj)
      exact hne (hja.symm.trans hagent)
    refine ⟨j, (hget v j).mpr (.inr ⟨hv, hj⟩), hja, hjc, hover, ?_, q, hq, hat⟩
    simp only [List.map_append, List.map_cons, List.map_nil, List.mem_append, List.mem_singleton, not_or]
    exact ⟨hnot, hne⟩
  · rcases (hget v j).mp hj with ⟨rfl, rfl⟩ | ⟨hv, hj⟩
    · exact .inr ⟨rfl, List.mem_append_right _ (List.mem_singleton.mpr (by rw [← hagent]))⟩
    · rcases h.alive v j hj hover with hreg | ⟨hc, hmem⟩
      · have hne : a ≠ j.agentId := by
          intro heq
          exact hv (Option.some.inj (hreg.symm.trans (heq ▸ hw)))
        exact .inl ((Dict.get?_pop_ne _ hne).trans hreg)
      · exact .inr ⟨hc, List.mem_append_left _ hmem⟩
  · rw [List.map_append, List.nodup_append]
    refine ⟨h.nodup, by simp, fun b hb c hc heq => hdrop ?_⟩
    obtain rfl : c = a := by simpa using hc
    exact heq ▸ hb
  · rcases (hget v j).mp hrun.1 with ⟨rfl, rfl⟩ | ⟨-, hj⟩
    · have hok := h.run v k run ⟨hk, hrun.2⟩
      exact ⟨hok.known, hok.agent, hok.ready, fun x hx _ => hterminal _ x hx ((hok.agent x hx).trans hagent)⟩
    · exact (h.run v j run ⟨hj, hrun.2⟩).congr rfl rfl
  · obtain ⟨v, j, run, hrun, hbegun, ht⟩ := h.running id x hx hst
    obtain ⟨j', -, hj'⟩ := hback hrun
    exact ⟨v, j', run, hj', hbegun, ht⟩
  · obtain ⟨j, run, hrun, hja, ht⟩ := h.current b t v hc
    obtain ⟨j', hagent', hj'⟩ := hback hrun
    exact ⟨j', run, hj', hagent'.trans hja, ht⟩

/-- `drop_agent`, up to where it awaits the worker. -/
theorem dropAgent_spec (h : s.Inv) (a : String) : (s.dropAgent a).Inv ∧ s.Evolves (s.dropAgent a) := by
  obtain ⟨hinv, hevolves, hnext, hterminal⟩ :=
    cancelEach_spec ((s.orch.getAgentTasks a).map AgentTask.taskId) h
  unfold TaskRunner.dropAgent
  generalize ((s.orch.getAgentTasks a).map AgentTask.taskId).foldl cancel s = c at *
  have hown : ∀ id x, c.orch.getTask id = some x → x.agentId = a → x.status.Terminal := by
    intro id y hy ha
    rcases hevolves.tasks id y hy with hnew | ⟨x, hx, hya, -, -⟩
    · exact absurd (hinv.orch.ids id y hy).2 (by rw [hnext]; exact Nat.not_lt.mpr hnew)
    · have hmem : x ∈ s.orch.getAgentTasks a := TaskStore.mem_listByAgent hx (hya.symm.trans ha)
      exact hterminal id (List.mem_map.mpr ⟨x, hmem, (h.orch.ids id x hx).1⟩) y hy
  cases hw : c.workers.get? a with
  | none =>
    have hready : ∀ w k run, c.HasRun w k run → run.Ready → k.agentId = a →
        c.orch.getTask run.taskId = none := by
      intro w k run hrun hr hagent
      by_contra hne
      obtain ⟨x, hx⟩ := Option.ne_none_iff_exists'.mp hne
      have hok := hinv.run w k run hrun
      exact (hown _ x hx ((hok.agent x hx).trans hagent)).ne_pending (hok.ready x hx hr).1
    obtain ⟨hforget, hevolves'⟩ := forgetAgent_spec hinv hready hw
    simp only [hw]
    exact ⟨hforget, hevolves.trans hevolves'⟩
  | some w =>
    simp only [hw]
    exact ⟨inv_markDropped hinv hw hown, hevolves.trans (.of_orch rfl)⟩

/-- The rest of `drop_agent`. -/
theorem dropped_spec (h : s.Inv) {a : String} {w : Nat} (hstep : s.dropped a w = some u) :
    u.Inv ∧ s.Evolves u := by
  unfold TaskRunner.dropped at hstep
  obtain ⟨⟨hmem, hall⟩, hstep⟩ := Option.ite_none_right_eq_some.mp hstep
  obtain rfl := Option.some.inj hstep
  have hover : ∀ k, s.madeWorkers[w]? = some k → k.stage = .over := by
    intro k hk
    simpa [hk] using hall
  have hdropped : a ∈ s.drops.map Prod.fst := List.mem_map.mpr ⟨(a, w), hmem, rfl⟩
  have hsub : ∀ b, b ∈ (s.drops.erase (a, w)).map Prod.fst → b ∈ s.drops.map Prod.fst := fun b hb =>
    (List.erase_sublist.map Prod.fst).subset hb
  -- the agent has no worker any more
  have hworker : s.workers.get? a = none := by
    by_contra hne
    obtain ⟨v, hv⟩ := Option.ne_none_iff_exists'.mp hne
    obtain ⟨-, -, -, -, -, hnot, -⟩ := h.registered a v hv
    exact hnot hdropped
  have hdone : ∀ (v : Nat) (k : Worker), s.madeWorkers[v]? = some k → k.stage ≠ .over → k.agentId ≠ a := by
    rintro v k hk hatWork rfl
    rcases h.alive v k hk hatWork with hreg | ⟨-, hmem'⟩
    · exact nomatch hworker.symm.trans hreg
    · have heq := List.inj_on_of_nodup_map h.nodup hmem hmem' rfl
      exact hatWork (hover k ((Prod.mk.inj heq).2 ▸ hk))
  have hinv : Inv { s with drops := s.drops.erase (a, w) } :=
    { h with
      registered := fun b v hb => by
        obtain ⟨k, hk, hagent, hc, hatWork, hnot, hq⟩ := h.registered b v hb
        exact ⟨k, hk, hagent, hc, hatWork, fun hin => hnot (hsub b hin), hq⟩
      alive := fun v k hk hatWork => by
        rcases h.alive v k hk hatWork with hreg | ⟨hc, hmem'⟩
        · exact .inl hreg
        · refine .inr ⟨hc, (List.mem_erase_of_ne fun heq => ?_).mpr hmem'⟩
          exact hdone v k hk hatWork (Prod.mk.inj heq).1
      nodup := h.nodup.sublist (List.erase_sublist.map Prod.fst)
      run := fun v k run hrun => (h.run v k run hrun).congr rfl rfl }
  obtain ⟨hforget, hevolves⟩ := forgetAgent_spec hinv (a := a)
    (fun v k run hrun _ hagent => absurd hagent (hdone v k hrun.1 (not_over_of_run hrun.2))) hworker
  exact ⟨hforget, ⟨hevolves.next, hevolves.tasks⟩⟩

end Cancel

/-! ## Submitting -/

section Submit

variable {a : String} {q : Nat}

/-- The agent's queue, found or made. -/
theorem queueFor_spec (h : s.Inv) (a : String) : (s.queueFor a).2.Inv ∧
    (s.queueFor a).2.queues.get? a = some (s.queueFor a).1 ∧ (s.queueFor a).2.orch = s.orch ∧
    (s.queueFor a).2.drops = s.drops := by
  cases hq : s.queues.get? a with
  | some q =>
    have hself : s.queueFor a = (q, s) := by
      unfold TaskRunner.queueFor
      rw [hq]
    rw [hself]
    exact ⟨h, hq, rfl, rfl⟩
  | none =>
    have hself : s.queueFor a = (s.madeQueues.length, { s with
        queues := s.queues.set a s.madeQueues.length
        madeQueues := s.madeQueues ++ [.empty] }) := by
      unfold TaskRunner.queueFor
      rw [hq]
    rw [hself]
    have hget : ∀ {b q}, (s.queues.set a s.madeQueues.length).get? b = some q →
        (b = a ∧ q = s.madeQueues.length) ∨ (b ≠ a ∧ s.queues.get? b = some q) := by
      intro b q hb
      by_cases hab : a = b
      · subst hab
        rw [Dict.get?_set_self] at hb
        exact .inl ⟨rfl, (Option.some.inj hb).symm⟩
      · rw [Dict.get?_set_ne _ _ hab] at hb
        exact .inr ⟨Ne.symm hab, hb⟩
    have hlt : ∀ {b q}, s.queues.get? b = some q → q < s.madeQueues.length := by
      intro b q hb
      obtain ⟨c, hc, -⟩ := h.queue b q hb
      exact (List.getElem?_eq_some_iff.mp hc).1
    refine ⟨{ h with queue := fun b q hb => ?_, apart := fun b c q hb hc => ?_
                     registered := fun b w hb => ?_
                     run := fun w k run hrun => (h.run w k run hrun).congr rfl rfl },
      Dict.get?_set_self _ _ _, rfl, rfl⟩
    · rcases hget hb with ⟨rfl, rfl⟩ | ⟨-, hb⟩
      · exact ⟨.empty, by simp, fun e he => absurd he (PriorityQueue.notMem_empty e)⟩
      · obtain ⟨c, hc, hentries⟩ := h.queue b q hb
        exact ⟨c, (List.getElem?_append_left (hlt hb)).trans hc, hentries⟩
    · rcases hget hb with ⟨rfl, rfl⟩ | ⟨-, hb'⟩ <;> rcases hget hc with ⟨rfl, hq'⟩ | ⟨-, hc'⟩
      · rfl
      · exact absurd (hlt hc') (Nat.lt_irrefl _)
      · exact absurd (hq' ▸ hlt hb') (Nat.lt_irrefl _)
      · exact h.apart b c q hb' hc'
    · obtain ⟨k, hk, hagent, hc, hover, hdrop, q, hq', hat⟩ := h.registered b w hb
      have hne : a ≠ b := by
        rintro rfl
        exact nomatch hq.symm.trans hq'
      exact ⟨k, hk, hagent, hc, hover, hdrop, q, (Dict.get?_set_ne _ _ hne).trans hq', hat⟩

theorem inv_putNowait (h : s.Inv) (hq : s.queues.get? a = some q) {e : QueueEntry} (he : s.EntryOk a e) :
    (s.putNowait q e).Inv := by
  refine { h with queue := fun b q' hb => ?_, run := fun w k run hrun => (h.run w k run hrun).congr rfl rfl }
  obtain ⟨c, hc, hentries⟩ := h.queue b q' hb
  by_cases hqq : q = q'
  · subst hqq
    obtain rfl := h.apart a b q hq hb
    refine ⟨c.put e, by simp [putNowait, hc], fun e' he' => ?_⟩
    rcases PriorityQueue.mem_put.mp he' with rfl | he'
    · exact he
    · exact hentries e' he'
  · exact ⟨c, by simpa [putNowait, List.getElem?_modify, hqq] using hc, hentries⟩

/-- An agent that no `drop_agent` works on, and that has a queue, gets a worker. -/
theorem inv_ensureWorker (h : s.Inv) (hq : s.queues.get? a = some q) (hdrop : a ∉ s.drops.map Prod.fst) :
    (s.ensureWorker a).Inv := by
  unfold TaskRunner.ensureWorker
  split
  · next hneeds =>
      have hnone : s.workers.get? a = none := by
        by_contra hne
        obtain ⟨w, hw⟩ := Option.ne_none_iff_exists'.mp hne
        obtain ⟨k, hk, -, -, hover, -⟩ := h.registered a w hw
        simp [needsWorker, hw, hk, hover] at hneeds
      have hlt : ∀ {v k}, s.madeWorkers[v]? = some k → v < s.madeWorkers.length := fun hk =>
        (List.getElem?_eq_some_iff.mp hk).1
      have hkeep : ∀ {v k}, s.madeWorkers[v]? = some k →
          (s.madeWorkers ++ [({ agentId := a } : Worker)])[v]? = some k := fun hk =>
        (List.getElem?_append_left (hlt hk)).trans hk
      have hnew : (s.madeWorkers ++ [({ agentId := a } : Worker)])[s.madeWorkers.length]? = some { agentId := a } := by
        simp
      have hget : ∀ {v k}, (s.madeWorkers ++ [({ agentId := a } : Worker)])[v]? = some k →
          (v = s.madeWorkers.length ∧ k = { agentId := a }) ∨ s.madeWorkers[v]? = some k := by
        intro v k hk
        by_cases hv : v < s.madeWorkers.length
        · exact .inr ((List.getElem?_append_left hv).symm.trans hk)
        · have hv' : v = s.madeWorkers.length := by
            have hlen := (List.getElem?_eq_some_iff.mp hk).1
            simp only [List.length_append, List.length_singleton] at hlen
            omega
          subst hv'
          exact .inl ⟨rfl, (Option.some.inj (hnew.symm.trans hk)).symm⟩
      have hrun : ∀ {v k run}, (s.madeWorkers ++ [({ agentId := a } : Worker)])[v]? = some k → k.run? = some run →
          s.HasRun v k run := by
        intro v k run hk hr
        rcases hget hk with ⟨-, rfl⟩ | hk
        · cases hr
        · exact ⟨hk, hr⟩
      refine { h with
        registered := fun b v hb => ?_, alive := fun v k hk hover => ?_
        run := fun v k run hr => (h.run v k run (hrun hr.1 hr.2)).congr rfl rfl
        running := fun id x hx hst => ?_, current := fun b t v hc => ?_ }
      · by_cases hab : a = b
        · subst hab
          obtain rfl := Option.some.inj ((Dict.get?_set_self _ _ _).symm.trans hb)
          exact ⟨_, hnew, rfl, rfl, by simp, hdrop, q, hq, .inl rfl⟩
        · rw [Dict.get?_set_ne _ _ hab] at hb
          obtain ⟨k, hk, hrest⟩ := h.registered b v hb
          exact ⟨k, hkeep hk, hrest⟩
      · rcases hget hk with ⟨rfl, rfl⟩ | hk
        · exact .inl (Dict.get?_set_self _ _ _)
        · rcases h.alive v k hk hover with hreg | hdropped
          · have hne : a ≠ k.agentId := by
              intro heq
              rw [← heq, hnone] at hreg
              cases hreg
            exact .inl ((Dict.get?_set_ne _ _ hne).trans hreg)
          · exact .inr hdropped
      · obtain ⟨v, k, run, hr, hbegun, ht⟩ := h.running id x hx hst
        exact ⟨v, k, run, ⟨hkeep hr.1, hr.2⟩, hbegun, ht⟩
      · obtain ⟨k, run, hr, hagent, ht⟩ := h.current b t v hc
        exact ⟨k, run, ⟨hkeep hr.1, hr.2⟩, hagent, ht⟩
  · exact h

theorem submit_spec (h : s.Inv) {t : Nat} (hg : s.Orderly (.submit t)) :
    (s.submit t).Inv ∧ s.Evolves (s.submit t) := by
  unfold TaskRunner.submit
  cases hx : s.orch.getTask t with
  | none => exact ⟨h, .refl s⟩
  | some x =>
    obtain ⟨hinv, hq, horch, hdrops⟩ := queueFor_spec h x.agentId
    have hentry : (s.queueFor x.agentId).2.EntryOk x.agentId (.make x.priority (s.queueFor x.agentId).2.seq t) := by
      refine ⟨?_, fun y hy => ?_⟩
      · rw [horch]
        exact (h.orch.ids t x hx).2
      · rw [horch] at hy
        obtain rfl := Option.some.inj (hx.symm.trans hy)
        exact ⟨rfl, Int.neg_neg _⟩
    have hput := inv_putNowait hinv hq hentry
    have hdrop : x.agentId ∉ ((s.queueFor x.agentId).2.putNowait (s.queueFor x.agentId).1
        (.make x.priority (s.queueFor x.agentId).2.seq t)).drops.map Prod.fst := by
      show x.agentId ∉ (s.queueFor x.agentId).2.drops.map Prod.fst
      rw [hdrops]
      exact hg x hx
    refine ⟨inv_ensureWorker hput hq hdrop, .of_orch ?_⟩
    simp only
    unfold TaskRunner.ensureWorker
    split <;> exact horch

end Submit

/-! ## Whole runs -/

/-- Every orderly step keeps the invariant. -/
theorem Inv.step (h : s.Inv) {e : TaskEvent} (hg : s.Orderly e) (hstep : s.step e = some u) :
    u.Inv ∧ s.Evolves u := by
  cases e with
  | registerAgent a =>
    obtain rfl := Option.some.inj hstep
    have hends : s.Ends (s.orch.registerAgent a) :=
      ⟨Nat.le_refl _, fun id y hy => .inr ⟨y, hy, rfl, rfl, .inl rfl⟩⟩
    exact ⟨h.ends (h.orch.congr rfl rfl) hends, hends.evolves⟩
  | assignTask a priority now =>
    obtain rfl := Option.some.inj hstep
    obtain ⟨ho, hnext, htasks⟩ := Orchestrator.assignTask_spec h.orch a priority now
    have hends : s.Ends (s.orch.assignTask a priority now) := by
      refine ⟨hnext, fun id y hy => ?_⟩
      rcases htasks id y hy with hnew | hold
      · exact .inl hnew
      · exact .inr ⟨y, hold, rfl, rfl, .inl rfl⟩
    exact ⟨h.ends ho hends, hends.evolves⟩
  | submit t =>
    obtain rfl := Option.some.inj hstep
    exact submit_spec h hg
  | cancel t =>
    obtain rfl := Option.some.inj hstep
    obtain ⟨hinv, hevolves, -⟩ := cancel_spec h t
    exact ⟨hinv, hevolves⟩
  | dropAgent a =>
    obtain rfl := Option.some.inj hstep
    exact dropAgent_spec h a
  | dropped a w => exact dropped_spec h hstep
  | work w =>
    obtain ⟨k, k', hmoves⟩ := work_moves h hstep
    exact ⟨hmoves.inv h, hmoves.evolves fun _ _ _ => .inl rfl⟩
  | begin w available => exact begin_spec h hstep
  | finish w outcome => exact finish_spec h hstep
  | stop => exact kernelStop_spec h hg hstep
  | stopped =>
    obtain ⟨-, hstep⟩ := Option.ite_none_right_eq_some.mp hstep
    obtain rfl := Option.some.inj hstep
    exact ⟨{ h with run := fun w k run hrun => (h.run w k run hrun).congr rfl rfl }, .of_orch rfl⟩

theorem Inv.of_fresh (h : Fresh s) : s.Inv := by
  obtain ⟨timeoutS, maxFinished, rfl⟩ := h
  exact { orch := ⟨nofun, nofun⟩, queue := nofun, apart := nofun, registered := nofun, alive := by simp
          nodup := .nil, run := fun w k run hrun => by simp [HasRun] at hrun, running := nofun, current := nofun }

theorem inv_of_reach (h : machine.Reach Orderly s) : s.Inv :=
  h.invariant (I := fun s => s.Inv) (fun _ hs => .of_fresh hs) fun _ _ _ h hstep hg => (h.step hg hstep).1

theorem inv_of_run {l : List (Machine.Step TaskRunner TaskEvent)} (h : machine.Run s l u) (hs : s.Inv)
    (hl : ∀ e ∈ l, Orderly e.source e.label) : u.Inv ∧ s.Evolves u := by
  induction h with
  | nil => exact ⟨hs, .refl _⟩
  | @snoc t u l i hr hstep ih =>
    obtain ⟨ht, hevolves⟩ := ih fun e he => hl e (List.mem_append_left _ he)
    obtain ⟨hu, hevolves'⟩ := ht.step (hl _ (List.mem_append_right _ List.mem_cons_self)) hstep
    exact ⟨hu, hevolves.trans hevolves'⟩

/-- A step that starts a task finds it pending and leaves it running. -/
theorem starts_spec (h : s.Inv) {e : TaskEvent} {id : Nat} (hstart : s.starts e = some id)
    (hstep : s.step e = some u) : (∃ x, s.orch.getTask id = some x ∧ x.status = .pending) ∧
      ∀ y, u.orch.getTask id = some y → y.status ≠ .pending := by
  cases e with
  | begin w available =>
    cases available with
    | false => cases hstart
    | true =>
      obtain ⟨k, run, hrun, hstage, hcases⟩ := begin_cases hstep
      simp only [starts, hrun.1, hrun.2, Option.bind_eq_bind, Option.bind_some,
        Option.ite_none_right_eq_some, Option.some.injEq] at hstart
      obtain ⟨⟨hready, hsome⟩, rfl⟩ := hstart
      obtain ⟨x, hx⟩ := Option.isSome_iff_exists.mp hsome
      refine ⟨⟨x, hx, ((h.run w k run hrun).ready x hx hready).1⟩, fun y hy => ?_⟩
      rcases hcases with ⟨-, hc | hnone⟩ | ⟨-, -, ⟨-, rfl⟩ | ⟨hfalse, -⟩⟩
      · exact nomatch hready.2.symm.trans hc
      · exact nomatch hx.symm.trans hnone
      · obtain ⟨z, -, -, -, hst⟩ := (Orchestrator.startTask_spec h.orch run.taskId).2.tasks _ y hy
        rw [hst, Orchestrator.setTo_self]
        decide
      · cases hfalse
  | _ => cases hstart

/-- How often the steps of a run start a task. -/
def timesStarted (id : Nat) (l : List (Machine.Step TaskRunner TaskEvent)) : Nat :=
  l.countP fun e => decide (e.source.starts e.label = some id)

theorem timesStarted_le_one {l : List (Machine.Step TaskRunner TaskEvent)} (h : machine.Run s l u) (hs : s.Inv)
    (hl : ∀ e ∈ l, Orderly e.source e.label) (id : Nat) : timesStarted id l = 0 ∨
      timesStarted id l = 1 ∧ id < u.orch.taskStore.nextId ∧
        ∀ y, u.orch.getTask id = some y → y.status ≠ .pending := by
  unfold timesStarted
  induction h with
  | nil => exact .inl rfl
  | @snoc t u l i hr hstep ih =>
    have hleft : ∀ e ∈ l, Orderly e.source e.label := fun e he => hl e (List.mem_append_left _ he)
    obtain ⟨ht, -⟩ := inv_of_run hr hs hleft
    obtain ⟨-, hevolves⟩ := ht.step (hl _ (List.mem_append_right _ List.mem_cons_self)) hstep
    rw [List.countP_append, List.countP_singleton]
    by_cases hstart : t.starts i = some id
    · rw [if_pos (by simpa using hstart)]
      obtain ⟨⟨x, hx, hpending⟩, hafter⟩ := starts_spec ht hstart hstep
      have hknown := Nat.lt_of_lt_of_le (ht.orch.ids id x hx).2 hevolves.next
      rcases ih hleft with hzero | ⟨-, -, hnot⟩
      · exact .inr ⟨by omega, hknown, hafter⟩
      · exact absurd hpending (hnot x hx)
    · rw [if_neg (by simpa using hstart), Nat.add_zero]
      rcases ih hleft with hzero | ⟨hone, hknown, hnot⟩
      · exact .inl hzero
      · refine .inr ⟨hone, Nat.lt_of_lt_of_le hknown hevolves.next, fun y hy => ?_⟩
        rcases hevolves.tasks id y hy with hnew | ⟨x, hx, -, -, hst | ⟨-, hst⟩⟩
        · exact absurd hknown (Nat.not_lt.mpr hnew)
        · exact hst ▸ hnot x hx
        · exact hst

/-! ## Which task is next -/

theorem QueueEntry.of_le {e f : QueueEntry} (h : e ≤ f) :
    QueueEntry.priority f < QueueEntry.priority e ∨
      QueueEntry.priority f = QueueEntry.priority e ∧ QueueEntry.seq e ≤ QueueEntry.seq f := by
  unfold QueueEntry.priority QueueEntry.seq
  rcases Prod.Lex.le_iff.mp h with hlt | ⟨heq, hle⟩
  · exact .inl (Int.neg_lt_neg hlt)
  · refine .inr ⟨by rw [heq], ?_⟩
    rcases Prod.Lex.le_iff.mp hle with hlt | ⟨heq, -⟩
    · exact Nat.le_of_lt hlt
    · exact Nat.le_of_eq heq

theorem takesFirst_takeNext (h : s.Inv) {w q : Nat} {k : Worker} {c : Dict String (Nat × Nat)}
    (hk : s.madeWorkers[w]? = some k) (hq : s.queues.get? k.agentId = some q) :
    s.TakesFirst w ({ s with current := c }.takeNext w k q) := by
  intro k' q' run hk' hstage hcreated
  obtain ⟨b, hb, hentries⟩ := h.queue _ q hq
  have hlt := (List.getElem?_eq_some_iff.mp hk).1
  unfold TaskRunner.takeNext at hk'
  simp only [hb] at hk'
  split at hk'
  · have hself : k' = { k with stage := .getting q } := by
      simpa [setWorker, hlt, eq_comm] using hk'
    subst hself
    cases hstage
  · next e rest htake =>
      have hself : k' = { k with stage := .waiting q { taskId := e.taskId } } := by
        simpa [setWorker, hlt, eq_comm] using hk'
      subst hself
      obtain ⟨rfl, rfl⟩ := WorkerStage.waiting.inj hstage
      obtain ⟨hpending, hmem, hleast⟩ :=
        PriorityQueue.takeFirst_eq_some (show (b.takeFirst _).1 = some e by rw [htake])
      obtain ⟨x, hx, hxp⟩ : ∃ x, s.orch.getTask e.taskId = some x ∧ x.status = .pending := by
        unfold isPending at hpending
        cases hx : s.orch.getTask e.taskId with
        | none => simp [hx] at hpending
        | some x => exact ⟨x, rfl, by simpa [hx] using hpending⟩
      refine ⟨e, x, ⟨q, b, hq, hb, hmem⟩, rfl, hx, hxp, fun e' x' hqueued hx' hxp' => ?_⟩
      obtain ⟨q', b', hq', hb', hmem'⟩ := hqueued
      obtain rfl := Option.some.inj (hq.symm.trans hq')
      obtain rfl := Option.some.inj (hb.symm.trans hb')
      have hpending' : isPending { s with current := c } e'.taskId = true := by
        have hx'' : ({ s with current := c } : TaskRunner).orch.getTask e'.taskId = some x' := hx'
        simp [isPending, hx'', hxp']
      have hle := QueueEntry.of_le (hleast e' hmem' hpending')
      rwa [((hentries e hmem).2 x hx).2, ((hentries e' hmem').2 x' hx').2] at hle

/-- A worker that takes a task takes the first. -/
theorem takesFirst_work (h : s.Inv) {w : Nat} (hstep : s.work w = some u) : s.TakesFirst w u := by
  -- a worker that does not end up waiting takes nothing
  have hother : ∀ {c : Dict String (Nat × Nat)} {k k' : Worker}, s.madeWorkers[w]? = some k →
      (∀ q run, k'.stage ≠ .waiting q run) → s.TakesFirst w ({ s with current := c }.setWorker w k') := by
    intro c k k' hk hnot j q run hj hstage
    have hlt := (List.getElem?_eq_some_iff.mp hk).1
    have hself : j = k' := by simpa [setWorker, hlt, eq_comm] using hj
    exact absurd (hself ▸ hstage) (hnot q run)
  obtain ⟨k, hk, -, ⟨c, -, -, -, hnext | ⟨-, rfl⟩⟩ | ⟨-, q, run, -, rfl⟩⟩ := work_cases h hstep
  · obtain ⟨-, q, hq, rfl⟩ := hnext
    exact takesFirst_takeNext h hk hq
  · exact hother hk nofun
  · exact hother (c := s.current) hk nofun

/-! ## The lifecycle -/

/-- **The lifecycle of a task**, over every orderly run from a state that an
orderly run reaches: a terminal status stays, a task is started once at most,
one task of an agent is running at a time, and a worker takes the first pending
task of its agent's queue. -/
theorem lifecycle {l : List (Machine.Step TaskRunner TaskEvent)} (hs : machine.Reach Orderly s)
    (h : machine.Run s l u) (hl : ∀ e ∈ l, Orderly e.source e.label) :
    (∀ id x y, s.orch.getTask id = some x → x.status.Terminal → u.orch.getTask id = some y →
      y.status = x.status) ∧
    (∀ id, timesStarted id l ≤ 1) ∧ u.OneAtATime ∧
    ∀ e ∈ l, ∀ w, e.label = .work w → e.source.TakesFirst w e.target := by
  have hinv := inv_of_reach hs
  obtain ⟨hu, hevolves⟩ := inv_of_run h hinv hl
  refine ⟨fun id x y hx hterm hy => ?_, fun id => ?_, hu.oneAtATime, fun e he w hw => ?_⟩
  · rcases hevolves.tasks id y hy with hnew | ⟨x', hx', -, -, hst | ⟨hopen, -⟩⟩
    · exact absurd (hinv.orch.ids id x hx).2 (Nat.not_lt.mpr hnew)
    · obtain rfl := Option.some.inj (hx.symm.trans hx')
      exact hst
    · obtain rfl := Option.some.inj (hx.symm.trans hx')
      exact absurd hterm hopen
  · rcases timesStarted_le_one h hinv hl id with hzero | ⟨hone, -⟩ <;> omega
  · obtain ⟨hstep, ⟨l₁, hbefore, hsub⟩, -⟩ := h.split he
    obtain ⟨hsource, -⟩ := inv_of_run hbefore hinv fun e' he' => hl e' (hsub e' he')
    have hstep' : e.source.step (.work w) = some e.target := hw ▸ hstep
    exact takesFirst_work hsource hstep'

theorem start_default : machine.start {} := ⟨120, 1000, rfl⟩

/-- A task that was completed and is cancelled too late. -/
theorem lifecycle_completed : ∃ s u l, machine.Run s l u ∧ u.OneAtATime ∧ timesStarted 0 l ≤ 1 ∧
    (s.orch.getTask 0).map AgentTask.status = some .completed ∧
    ∀ y, u.orch.getTask 0 = some y → y.status = .completed := by
  have hstep : ∀ {s u : TaskRunner} (e : TaskEvent), machine.Reach Orderly s → s.Orderly e → s.step e = some u →
      machine.Reach Orderly u := fun _ hs hg h => .step hs h hg
  have hassigned := hstep (.assignTask "a" 2 0) (hstep (.registerAgent "a") (.start start_default) trivial rfl)
    trivial rfl
  have hsubmitted := hstep (.submit 0) hassigned (fun _ _ => List.not_mem_nil) rfl
  have hbegun := hstep (.begin 0 true) (hstep (.work 0) hsubmitted trivial rfl) trivial rfl
  have hdone := hstep (.finish 0 (.result (some "done"))) hbegun trivial rfl
  have hcancel : ∀ s : TaskRunner, machine.Run s [⟨s, .cancel 0, s.cancel 0⟩] (s.cancel 0) := fun s =>
    Machine.Run.single rfl
  have hall := lifecycle hdone (hcancel _) fun e he => by
    rw [List.mem_singleton.mp he]
    trivial
  exact ⟨_, _, _, hcancel _, hall.2.2.1, hall.2.1 0, rfl, fun y hy => hall.1 0 _ y rfl (.inl rfl) hy⟩

/-- A worker makes a run for a task, the kernel stops and cancels the task, and
the run starts it all the same. -/
theorem revived : ∃ s u, machine.Reach Machine.free s ∧ machine.step s (.begin 0 true) u ∧
    (s.orch.getTask 0).map AgentTask.status = some .cancelled ∧
    (u.orch.getTask 0).map AgentTask.status = some .running := by
  have hrun : ((Machine.exec step {} [.registerAgent "a", .assignTask "a" 2 0, .submit 0, .work 0, .stop]).any
      fun s => (s.orch.getTask 0).map AgentTask.status == some .cancelled &&
        (s.step (.begin 0 true)).any fun u => (u.orch.getTask 0).map AgentTask.status == some .running) = true := by
    decide +kernel
  obtain ⟨s, hs, htest⟩ := Machine.exists_of_any hrun
  obtain ⟨hcancelled, hbegin⟩ := Bool.and_eq_true_iff.mp htest
  obtain ⟨u, hu, hrunning⟩ := Machine.exists_of_any hbegin
  have hreach := Machine.exec_reach (.start start_default) hs
  exact ⟨s, u, hreach, hu, by simpa using hcancelled, by simpa using hrunning⟩

/-- A task submitted while `drop_agent` waits for the worker is begun beside the
run that worker is still cancelling. -/
theorem overlap : ∃ s, machine.Reach Machine.free s ∧ ¬s.OneAtATime := by
  have hrun : ((Machine.exec step {} [.registerAgent "a", .assignTask "a" 2 0, .submit 0, .work 0, .begin 0 true,
      .dropAgent "a", .assignTask "a" 2 1, .submit 1, .work 1, .begin 1 true]).any fun s =>
        (s.madeWorkers.map fun k => (k.agentId, k.run?.map TaskRun.stage)) ==
          [("a", some .begun), ("a", some .begun)]) = true := by
    decide +kernel
  obtain ⟨s, hs, htest⟩ := Machine.exists_of_any hrun
  refine ⟨s, Machine.exec_reach (.start start_default) hs, fun hone => ?_⟩
  obtain ⟨k, l, hmade, hk, hl⟩ : ∃ k l, s.madeWorkers = [k, l] ∧
      (k.agentId = "a" ∧ k.run?.map TaskRun.stage = some .begun) ∧
      (l.agentId = "a" ∧ l.run?.map TaskRun.stage = some .begun) := by
    have htwo : (s.madeWorkers.map fun k => (k.agentId, k.run?.map TaskRun.stage)) =
        [("a", some .begun), ("a", some .begun)] := by simpa using htest
    obtain ⟨k, rest, hmade, hk, hrest⟩ := List.map_eq_cons_iff.mp htwo
    obtain ⟨l, rest', rfl, hl, hrest'⟩ := List.map_eq_cons_iff.mp hrest
    obtain rfl := List.map_eq_nil_iff.mp hrest'
    exact ⟨k, l, hmade, Prod.mk.inj hk, Prod.mk.inj hl⟩
  obtain ⟨p, hp, hpb⟩ := Option.map_eq_some_iff.mp hk.2
  obtain ⟨r, hr, hrb⟩ := Option.map_eq_some_iff.mp hl.2
  exact nomatch hone.begun 0 1 k l p r ⟨by simp [hmade], hp⟩ ⟨by simp [hmade], hr⟩ hpb hrb (hk.1.trans hl.1.symm)

end TaskRunner

end Caips.Coreai
