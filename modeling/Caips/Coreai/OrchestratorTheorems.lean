/-
Caips.Coreai.OrchestratorTheorems — what each method of `Orchestrator` writes.

A method writes one status to one task (`unregister_agent` to several), or
makes a pending task, and dropping finished tasks only removes. `Writes o o' f`
says of a method that a task stored after it was stored before, with the same
owner and priority, and that its status is `f` of the one it had. `Ok` is the order the methods keep in `active_tasks`, which is what
`unregister_agent` cancels.
-/
import Caips.Coreai.Orchestrator

namespace Caips.Coreai

open Caips.Logic

theorem TaskStatus.Terminal.ne_pending {st : TaskStatus} (h : st.Terminal) : st ≠ .pending := by
  rcases h with rfl | rfl | rfl <;> decide

theorem TaskStatus.Terminal.ne_running {st : TaskStatus} (h : st.Terminal) : st ≠ .running := by
  rcases h with rfl | rfl | rfl <;> decide

namespace TaskStore

variable {s : TaskStore} {task x : AgentTask} {id : Nat}

theorem of_get?_foldl_pop : ∀ {l : List Nat} {d : Dict Nat AgentTask},
    (l.foldl Dict.pop d).get? id = some x → d.get? id = some x
  | [], _, h => h
  | k :: l, d, h => by
      have hpop := of_get?_foldl_pop (l := l) h
      by_cases hk : k = id
      · subst hk
        simp at hpop
      · rwa [Dict.get?_pop_ne _ hk] at hpop

theorem of_get_prune (h : (s.prune task).get id = some x) : s.get id = some x := by
  unfold prune at h
  split at h
  · exact of_get?_foldl_pop h
  · exact h

theorem nextId_prune : (s.prune task).nextId = s.nextId := by
  unfold prune
  split <;> rfl

@[simp] theorem nextId_update : (s.update task).nextId = s.nextId := nextId_prune

theorem of_get_update (h : (s.update task).get id = some x) :
    (id = task.taskId ∧ x = task) ∨ (id ≠ task.taskId ∧ s.get id = some x) := by
  have hset : (s.tasks.set task.taskId task).get? id = some x := of_get_prune h
  by_cases hid : task.taskId = id
  · subst hid
    rw [Dict.get?_set_self] at hset
    exact .inl ⟨rfl, (Option.some.inj hset).symm⟩
  · rw [Dict.get?_set_ne _ _ hid] at hset
    exact .inr ⟨Ne.symm hid, hset⟩

theorem mem_listByAgent {a : String} (h : s.get id = some x) (ha : x.agentId = a) : x ∈ s.listByAgent a :=
  List.mem_filter.mpr ⟨Dict.mem_values h, by simpa using ha⟩

theorem of_mem_listByStatus {st : TaskStatus} (h : x ∈ s.listByStatus st) :
    x.status = st ∧ ∃ id, s.get id = some x := by
  obtain ⟨hvalue, hst⟩ := List.mem_filter.mp (List.mem_mergeSort.mp h)
  exact ⟨by simpa using hst, Dict.exists_of_mem_values hvalue⟩

end TaskStore

namespace Orchestrator

variable {o o' o'' : Orchestrator} {id : Nat} {x task : AgentTask}

/-- Ids are kept and handed out in order, and a task counts as active only under
its agent and only until it has ended. -/
structure Ok (o : Orchestrator) : Prop where
  ids : ∀ id x, o.getTask id = some x → x.taskId = id ∧ id < o.taskStore.nextId
  active : ∀ id a, o.activeTasks.get? id = some a →
    id < o.taskStore.nextId ∧ ∀ x, o.getTask id = some x → x.agentId = a ∧ ¬x.status.Terminal

/-- The tasks of `o'` are those of `o`, less some, with the statuses `f` gives. -/
structure Writes (o o' : Orchestrator) (f : Nat → TaskStatus → TaskStatus) : Prop where
  next : o'.taskStore.nextId = o.taskStore.nextId
  tasks : ∀ id y, o'.getTask id = some y →
    ∃ x, o.getTask id = some x ∧ y.agentId = x.agentId ∧ y.priority = x.priority ∧
      y.status = f id x.status

/-- One status to one task. -/
def setTo (id : Nat) (st : TaskStatus) : Nat → TaskStatus → TaskStatus :=
  fun j old => if j = id then st else old

@[simp] theorem setTo_self (id : Nat) (st old : TaskStatus) : setTo id st id old = st := if_pos rfl

theorem setTo_ne {id j : Nat} (st old : TaskStatus) (h : j ≠ id) : setTo id st j old = old := if_neg h

theorem Writes.refl (o : Orchestrator) : Writes o o fun _ st => st :=
  ⟨rfl, fun _ y h => ⟨y, h, rfl, rfl, rfl⟩⟩

theorem Writes.of_eq {f g : Nat → TaskStatus → TaskStatus} (h : Writes o o' f) (heq : ∀ j st, f j st = g j st) :
    Writes o o' g := by
  have hfg : f = g := funext fun j => funext (heq j)
  exact hfg ▸ h

theorem Writes.trans {f g : Nat → TaskStatus → TaskStatus} (h : Writes o o' f) (h' : Writes o' o'' g) :
    Writes o o'' fun j st => g j (f j st) := by
  refine ⟨h'.next.trans h.next, fun j z hz => ?_⟩
  obtain ⟨y, hy, hya, hyp, hyst⟩ := h'.tasks j z hz
  obtain ⟨x, hx, hxa, hxp, hxst⟩ := h.tasks j y hy
  exact ⟨x, hx, hya.trans hxa, hyp.trans hxp, by rw [hyst, hxst]⟩

theorem Writes.of_none (h : o.getTask id = none) (st : TaskStatus) : Writes o o (setTo id st) where
  next := rfl
  tasks j y hj := by
    have hne : j ≠ id := by
      rintro rfl
      exact nomatch h.symm.trans hj
    exact ⟨y, hj, rfl, rfl, (setTo_ne _ _ hne).symm⟩

@[simp] theorem taskStore_count (a : Option String) (f : AgentEntry → AgentEntry) :
    (o.count a f).taskStore = o.taskStore := by
  unfold count
  split <;> rfl

@[simp] theorem activeTasks_count (a : Option String) (f : AgentEntry → AgentEntry) :
    (o.count a f).activeTasks = o.activeTasks := by
  unfold count
  split <;> rfl

theorem Ok.congr (h : o.Ok) (hstore : o'.taskStore = o.taskStore)
    (hactive : o'.activeTasks = o.activeTasks) : o'.Ok := by
  refine ⟨fun id x hx => ?_, fun id a ha => ?_⟩
  · unfold getTask at hx
    rw [hstore] at hx ⊢
    exact h.ids id x hx
  · rw [hactive] at ha
    unfold getTask
    rw [hstore]
    exact h.active id a ha

theorem Writes.congr {f : Nat → TaskStatus → TaskStatus} (h : Writes o o' f)
    (hstore : o''.taskStore = o'.taskStore) : Writes o o'' f := by
  refine ⟨?_, fun id y hy => ?_⟩
  · rw [hstore, h.next]
  · unfold getTask at hy
    rw [hstore] at hy
    exact h.tasks id y hy

section Update

variable (ho : o.Ok) (ht : o.getTask id = some task) {t : AgentTask}
  (hid : t.taskId = task.taskId) (hagent : t.agentId = task.agentId)
  (hpriority : t.priority = task.priority)

include ho ht hid hagent hpriority

theorem writes_update (hstore : o'.taskStore = o.taskStore.update t) :
    Writes o o' (setTo id t.status) := by
  have hself := (ho.ids id task ht).1
  refine ⟨by rw [hstore, TaskStore.nextId_update], fun j y hy => ?_⟩
  unfold getTask at hy
  rw [hstore] at hy
  rcases TaskStore.of_get_update hy with ⟨rfl, rfl⟩ | ⟨hj, hy⟩
  · rw [hid, hself]
    exact ⟨task, ht, hagent, hpriority, (setTo_self _ _ _).symm⟩
  · rw [hid, hself] at hj
    exact ⟨y, hy, rfl, rfl, (setTo_ne _ _ hj).symm⟩

theorem ok_update (hstore : o'.taskStore = o.taskStore.update t)
    (hsub : ∀ j a, o'.activeTasks.get? j = some a → o.activeTasks.get? j = some a)
    (hended : t.status.Terminal → o'.activeTasks.get? id = none) : o'.Ok := by
  have hself := (ho.ids id task ht).1
  have hw := writes_update ho ht hid hagent hpriority hstore
  have hnext : o'.taskStore.nextId = o.taskStore.nextId := by rw [hstore, TaskStore.nextId_update]
  refine ⟨fun j y hy => ?_, fun j a ha => ?_⟩
  · unfold getTask at hy
    rw [hstore] at hy
    rw [hnext]
    rcases TaskStore.of_get_update hy with ⟨rfl, rfl⟩ | ⟨-, hy⟩
    · exact ⟨rfl, hid ▸ hself ▸ (ho.ids id task ht).2⟩
    · exact ho.ids j y hy
  · obtain ⟨hlt, hactive⟩ := ho.active j a (hsub j a ha)
    refine ⟨hnext ▸ hlt, fun y hy => ?_⟩
    obtain ⟨x, hx, hya, -, hst⟩ := hw.tasks j y hy
    obtain ⟨hxa, hopen⟩ := hactive x hx
    refine ⟨hya.trans hxa, ?_⟩
    rw [hst]
    by_cases hj : j = id
    · subst hj
      rw [setTo_self]
      exact fun hterm => nomatch (hended hterm).symm.trans ha
    · rwa [setTo_ne _ _ hj]

theorem update_spec (hstore : o'.taskStore = o.taskStore.update t)
    (hsub : ∀ j a, o'.activeTasks.get? j = some a → o.activeTasks.get? j = some a)
    (hended : t.status.Terminal → o'.activeTasks.get? id = none) :
    o'.Ok ∧ Writes o o' (setTo id t.status) :=
  ⟨ok_update ho ht hid hagent hpriority hstore hsub hended,
    writes_update ho ht hid hagent hpriority hstore⟩

end Update

theorem of_get?_pop {d : Dict Nat String} {j k : Nat} {a : String} (h : (d.pop k).get? j = some a) :
    d.get? j = some a := by
  by_cases hk : k = j
  · subst hk
    simp at h
  · rwa [Dict.get?_pop_ne _ hk] at h

/-! ## The methods -/

theorem startTask_spec (ho : o.Ok) (id : Nat) :
    (o.startTask id).Ok ∧ Writes o (o.startTask id) (setTo id .running) := by
  unfold startTask
  cases ht : o.getTask id with
  | none => exact ⟨ho, .of_none ht _⟩
  | some task =>
    exact update_spec (t := { task with status := .running }) ho ht rfl rfl rfl rfl (fun j a h => h)
      fun hterm => by simp [TaskStatus.Terminal] at hterm

theorem completeTask_spec (ho : o.Ok) (id : Nat) (result : String) :
    (o.completeTask id result).Ok ∧ Writes o (o.completeTask id result) (setTo id .completed) := by
  unfold completeTask
  cases ht : o.getTask id with
  | none => exact ⟨ho, .of_none ht _⟩
  | some task =>
    exact update_spec (t := { task with status := .completed, result := some result }) ho ht rfl rfl rfl
      (taskStore_count _ _) (fun j a h => of_get?_pop (activeTasks_count _ _ ▸ h)) fun _ => by simp

theorem failTask_spec (ho : o.Ok) (id : Nat) (error : String) :
    (o.failTask id error).Ok ∧ Writes o (o.failTask id error) (setTo id .failed) := by
  unfold failTask
  cases ht : o.getTask id with
  | none => exact ⟨ho, .of_none ht _⟩
  | some task =>
    exact update_spec (t := { task with status := .failed, error := some error }) ho ht rfl rfl rfl
      (taskStore_count _ _) (fun j a h => of_get?_pop (activeTasks_count _ _ ▸ h)) fun _ => by simp

theorem cancelTask_spec (ho : o.Ok) (id : Nat) :
    (o.cancelTask id).Ok ∧ Writes o (o.cancelTask id) (setTo id .cancelled) := by
  unfold cancelTask
  cases ht : o.getTask id with
  | none => exact ⟨ho, .of_none ht _⟩
  | some task =>
    exact update_spec (t := { task with status := .cancelled }) ho ht rfl rfl rfl rfl
      (fun j a h => of_get?_pop h) fun _ => by simp

/-- Cancelling tasks one after another. -/
theorem cancelAll_spec (l : List Nat) : ∀ {o : Orchestrator}, o.Ok →
    (l.foldl cancelTask o).Ok ∧
      Writes o (l.foldl cancelTask o) fun j old => if j ∈ l then .cancelled else old := by
  induction l with
  | nil => exact fun ho => ⟨ho, by simpa using Writes.refl _⟩
  | cons id l ih =>
    intro o ho
    obtain ⟨hone, hwone⟩ := cancelTask_spec ho id
    obtain ⟨hrest, hwrest⟩ := ih hone
    refine ⟨hrest, (hwone.trans hwrest).of_eq fun j st => ?_⟩
    by_cases hj : j = id
    · subst hj
      simp
    · simp [setTo_ne _ _ hj, hj]

theorem unregisterAgent_spec (ho : o.Ok) (a : String) :
    (o.unregisterAgent a).Ok ∧ Writes o (o.unregisterAgent a) fun j old =>
      if o.activeTasks.get? j = some a then .cancelled else old := by
  unfold unregisterAgent
  obtain ⟨hok, hw⟩ := cancelAll_spec ((o.activeTasks.entries.filter fun e => e.2 = a).map Prod.fst) ho
  have hmem : ∀ j, j ∈ (o.activeTasks.entries.filter fun e => e.2 = a).map Prod.fst ↔
      o.activeTasks.get? j = some a := by
    intro j
    rw [← Dict.mem_entries]
    constructor
    · intro h
      obtain ⟨⟨i, b⟩, he, rfl⟩ := List.mem_map.mp h
      obtain ⟨hentry, hb⟩ := List.mem_filter.mp he
      obtain rfl : b = a := by simpa using hb
      exact hentry
    · exact fun h => List.mem_map.mpr ⟨(j, a), List.mem_filter.mpr ⟨h, by simp⟩, rfl⟩
  simp only [hmem] at hw
  exact ⟨hok.congr rfl rfl, hw.congr rfl⟩

/-- `assign_task` makes one pending task at most, under a new id. -/
theorem assignTask_spec (ho : o.Ok) (a : String) (priority : Int) (now : Nat) :
    (o.assignTask a priority now).Ok ∧
      o.taskStore.nextId ≤ (o.assignTask a priority now).taskStore.nextId ∧
      ∀ id y, (o.assignTask a priority now).getTask id = some y →
        (o.taskStore.nextId ≤ id ∧ y.status = .pending) ∨ o.getTask id = some y := by
  unfold assignTask
  cases o.agents.get? a with
  | none => exact ⟨ho, Nat.le_refl _, fun id y hy => .inr hy⟩
  | some entry =>
    let task : AgentTask := { taskId := o.taskStore.nextId, agentId := a, priority, createdAt := now }
    have hget : ∀ j x, (o.taskStore.tasks.set o.taskStore.nextId task).get? j = some x →
        (j = o.taskStore.nextId ∧ x = task) ∨ o.getTask j = some x := by
      intro j x h
      by_cases hj : o.taskStore.nextId = j
      · subst hj
        rw [Dict.get?_set_self] at h
        exact .inl ⟨rfl, (Option.some.inj h).symm⟩
      · rw [Dict.get?_set_ne _ _ hj] at h
        exact .inr h
    refine ⟨Ok.congr (o := { o with
          taskStore := (o.taskStore.create a priority now).2
          activeTasks := o.activeTasks.set o.taskStore.nextId a }) ⟨fun j x hx => ?_, fun j b hb => ?_⟩
          (taskStore_count _ _) (activeTasks_count _ _), ?_, fun j y hy => ?_⟩
    · rcases hget j x hx with ⟨rfl, rfl⟩ | hx
      · exact ⟨rfl, Nat.lt_succ_self _⟩
      · exact ⟨(ho.ids j x hx).1, Nat.lt_succ_of_lt (ho.ids j x hx).2⟩
    · by_cases hj : o.taskStore.nextId = j
      · subst hj
        obtain rfl : a = b := by simpa using hb
        refine ⟨Nat.lt_succ_self _, fun x hx => ?_⟩
        rcases hget _ x hx with ⟨-, rfl⟩ | hx
        · exact ⟨rfl, by simp [task, TaskStatus.Terminal]⟩
        · exact absurd (ho.ids _ x hx).2 (Nat.lt_irrefl _)
      · rw [Dict.get?_set_ne _ _ hj] at hb
        obtain ⟨hlt, hactive⟩ := ho.active j b hb
        refine ⟨Nat.lt_succ_of_lt hlt, fun x hx => ?_⟩
        rcases hget j x hx with ⟨rfl, -⟩ | hx
        · exact absurd rfl hj
        · exact hactive x hx
    · rw [taskStore_count]
      exact Nat.le_succ _
    · unfold getTask at hy
      rw [taskStore_count] at hy
      rcases hget j y hy with ⟨rfl, rfl⟩ | hy
      · exact .inl ⟨Nat.le_refl _, rfl⟩
      · exact .inr hy

end Orchestrator

end Caips.Coreai
