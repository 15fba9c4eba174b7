/-
Caips.Harness.RunStreamTheorems — what a reader of a run's events gets.

Three things come together:

* the rows of the table are numbered from 1 without a gap, so a query for the rows
  after a number is a cut of the table (`events_eq`), and rows are only added;
* a burst of an execution that makes the status a final one, or one that waits for a
  human, also stores the event that says so (`Forward`): the two are separate writes,
  but nobody reads in between;
* a reader has yielded a prefix of the table, and what it is about to yield is the
  next piece of it (`Fed`).

A run that is paused stores no event of an ending, and a stream ends all the same.
-/
import Caips.Harness.RunStream
import Caips.Harness.RunnerTheorems
import Caips.Logic.CoroBurst

namespace Caips.Harness

open Caips.Logic Caips.Providers

/-! ## The table of events -/

theorem max?_range (n : ℕ) : (List.range' 1 n).max?.getD 0 = n := by
  cases n with
  | zero => rfl
  | succ n =>
    have hmax : (List.range' 1 (n + 1)).max? = some (n + 1) := by
      rw [List.max?_eq_some_iff]
      refine ⟨List.mem_range'_1.mpr ⟨by omega, by omega⟩, fun m hm => ?_⟩
      have hlt := (List.mem_range'_1.mp hm).2
      omega
    rw [hmax]
    rfl

theorem seqs_rows (J : List Entry) : (rows J).map (·.seq) = List.range' 1 (rows J).length := by
  induction J with
  | nil => rfl
  | cons e J ih =>
    cases e with
    | trace e =>
      simp only [rows, List.map_append, List.map_cons, List.map_nil, List.length_append,
        List.length_singleton, ih, max?_range, List.range'_concat]
      simp [Nat.add_comm]
    | _ => exact ih

theorem filter_drop {l : List Row} {k : ℕ} (n : ℕ) (h : l.map (·.seq) = List.range' (k + 1) l.length) :
    (l.filter fun r => decide (n < r.seq)) = l.drop (n - k) := by
  induction l generalizing k with
  | nil => simp
  | cons r l ih =>
    simp only [List.map_cons, List.length_cons, List.range'_succ] at h
    obtain ⟨hr, hl⟩ := List.cons.inj h
    have hrest := ih hl
    by_cases hn : n < r.seq
    · have hzero : n - (k + 1) = 0 ∧ n - k = 0 := by omega
      simp [hn, hrest, hzero.1, hzero.2]
    · have hsucc : n - k = n - (k + 1) + 1 := by omega
      simp [hn, hrest, hsucc]

theorem events_eq (J : List Entry) (n : ℕ) : events J n = (rows J).drop n := by
  have hsorted : ((rows J).map (·.seq)).Pairwise (· ≤ ·) := by
    rw [seqs_rows]
    exact List.pairwise_le_range'
  have hdrop : ((rows J).filter fun r => decide (n < r.seq)) = (rows J).drop n :=
    filter_drop n (seqs_rows J)
  rw [events, hdrop]
  refine List.mergeSort_of_pairwise (((List.pairwise_map.mp hsorted).drop).imp fun h => ?_)
  exact decide_eq_true h

theorem rows_prefix {J J' : List Entry} (h : J <:+ J') : rows J <+: rows J' := by
  obtain ⟨l, rfl⟩ := h
  induction l with
  | nil => exact List.prefix_rfl
  | cons e l ih =>
    cases e with
    | trace e => exact ih.trans (List.prefix_append _ _)
    | _ => exact ih

/-! ## The status and its event -/

/-- The trace events since the status changed last. -/
def sinceStatus : List Entry → List TraceEvent
  | [] => []
  | .became _ :: _ => []
  | .trace e :: J => e :: sinceStatus J
  | _ :: J => sinceStatus J

theorem mem_rows {J : List Entry} {e : TraceEvent} (h : e ∈ sinceStatus J) : ∃ r ∈ rows J, r.event = e := by
  induction J with
  | nil => exact absurd h List.not_mem_nil
  | cons x J ih =>
    cases x with
    | became status => exact absurd h List.not_mem_nil
    | trace e' =>
      rcases List.mem_cons.mp h with rfl | h
      · exact ⟨_, List.mem_append_right _ (List.mem_singleton.mpr rfl), rfl⟩
      · obtain ⟨r, hr, hre⟩ := ih h
        exact ⟨r, List.mem_append_left _ hr, hre⟩
    | _ => exact ih h

/-- The event that tells of a status: the final event of a run that has it. -/
def TraceEvent.tells : RunStatus → TraceEvent → Bool
  | .waitingApproval, .approvalRequested _ _ => true
  | .completed, .runFinished _ _ _ => true
  | .failed, .runFinished _ _ _ => true
  | .cancelled, .runFinished _ _ _ => true
  | _, _ => false

/-- The final event of a run that has ended or waits for a human is stored. -/
def Told (s : HarnessState) : Prop :=
  s.run.status = .running ∨ s.run.status = .paused ∨ ∃ e ∈ sinceStatus s.journal, e.tells s.run.status

/-- What a burst, or a request, does to the store: it adds to the trace, and where the final
event was stored, it is. -/
structure Forward (s s' : HarnessState) : Prop where
  journal : s.journal <:+ s'.journal
  told : Told s → Told s'

theorem Forward.refl (s : HarnessState) : Forward s s := ⟨List.suffix_rfl, id⟩

theorem Forward.trans {s t u : HarnessState} (h : Forward s t) (h' : Forward t u) : Forward s u :=
  ⟨h.journal.trans h'.journal, fun hs => h'.told (h.told hs)⟩

theorem forward_of_eq {s u : HarnessState} (hrun : u.run = s.run) (hjournal : u.journal = s.journal) : Forward s u := by
  refine ⟨hjournal ▸ List.suffix_rfl, fun h => ?_⟩
  rw [Told, hrun, hjournal]
  exact h

theorem told_note {s : HarnessState} (e : Entry) (he : ∀ status, e ≠ .became status) (h : Told s) : Told (s.note e) := by
  refine h.imp id fun h => h.imp id fun ⟨x, hx, htells⟩ => ⟨x, ?_, htells⟩
  cases e with
  | became status => exact absurd rfl (he status)
  | trace e => exact List.mem_cons_of_mem _ hx
  | _ => exact hx

theorem forward_note (s : HarnessState) (e : Entry) (he : ∀ status, e ≠ .became status) : Forward s (s.note e) :=
  ⟨List.suffix_cons e s.journal, told_note e he⟩

theorem suffix_write (s : HarnessState) (f : Run → Run) : s.journal <:+ (s.write f).journal := by
  unfold HarnessState.write
  dsimp only
  split
  · exact List.suffix_rfl
  · exact List.suffix_cons _ _

theorem forward_write (s : HarnessState) (f : Run → Run)
    (hf : (f s.run).status = s.run.status ∨ (f s.run).status = .running) : Forward s (s.write f) := by
  refine ⟨suffix_write s f, fun h => ?_⟩
  obtain hsame | hrunning := hf
  · have hjournal : (s.write f).journal = s.journal := if_pos hsame
    show (f s.run).status = .running ∨ (f s.run).status = .paused ∨
      ∃ e ∈ sinceStatus (s.write f).journal, e.tells (f s.run).status
    rw [hjournal, hsame]
    exact h
  · exact .inl hrunning

theorem forward_told {s u : HarnessState} (e : TraceEvent) (hsuffix : s.journal <:+ u.journal)
    (he : e.tells u.run.status) : Forward s (u.note (.trace e)) :=
  ⟨hsuffix.trans (List.suffix_cons _ _), fun _ => .inr (.inr ⟨e, List.mem_cons_self, he⟩)⟩

theorem tells_runFinished (reason : StopReason) (step : Option ℕ) (costUsd : Option ℚ) (r : StopReason) :
    (TraceEvent.runFinished reason step costUsd).tells r.status := by
  cases r <;> rfl

namespace HarnessRunner

open Coro

variable {R : HarnessRunner} {i : ℕ} {agent : AgentDef}

/-! ## Executions -/

theorem restores_update {f : HarnessState → HarnessState} (hf : ∀ s, Forward s (f s)) :
    (update f).Restores Forward := .sync fun _ s h => h.trans (hf s)

theorem restores_read {α : Type} (f : HarnessState → α) : (read f).Restores Forward := .sync fun _ _ h => h

theorem restores_query (q : Query) : (query q).Restores Forward := .ask Forward.refl

theorem restores_note (e : Entry) (he : ∀ status, e ≠ .became status) : (note e).Restores Forward :=
  restores_update fun s => forward_note s e he

theorem restores_event (e : TraceEvent) : (event e).Restores Forward := restores_note _ nofun

theorem restores_assign (f : Locals → Locals) : (assign i f).Restores Forward :=
  restores_update fun _ => forward_of_eq rfl rfl

theorem suffix_save (s : HarnessState) (i : ℕ) (f : Run → Run) : s.journal <:+ (s.save i f).journal :=
  (suffix_write s _).trans (List.suffix_cons _ _)

/-- What a checkpoint leaves. -/
def saved (s : HarnessState) (i : ℕ) (f : Run → Run) : HarnessState :=
  (s.save i f).note (.trace (.checkpoint ((s.save i f).locals i).step))

theorem suffix_saved (s : HarnessState) (i : ℕ) (f : Run → Run) : s.journal <:+ (saved s i f).journal :=
  (suffix_save s i f).trans (List.suffix_cons _ _)

section Steps

variable {α : Type} {N : HarnessState → HarnessState → Prop} {s₀ s : HarnessState}
  {Q : HarnessState → HarnessState → Except Exc α → Prop} {k : Unit → Async α}

theorem bursts_update {f : HarnessState → HarnessState} (h : (k ()).Bursts N Q s₀ (f s)) :
    (update f >>= k).Bursts N Q s₀ s := h

theorem bursts_event {e : TraceEvent} (h : (k ()).Bursts N Q s₀ (s.note (.trace e))) :
    (event e >>= k).Bursts N Q s₀ s := h

theorem bursts_locals {k : Locals → Async α} (h : (k (s.locals i)).Bursts N Q s₀ s) :
    (getLocals i >>= k).Bursts N Q s₀ s := h

theorem bursts_checkpoint {f : Run → Run} (h : (k ()).Bursts N Q s₀ (saved s i f)) :
    (checkpoint i f >>= k).Bursts N Q s₀ s := h

end Steps

theorem restores_checkpoint {f : Run → Run} (hf : ∀ r, (f r).status = r.status) : (checkpoint i f).Restores Forward := by
  have hsave (s : HarnessState) : Forward s (s.save i f) :=
    (forward_write s (fun r => f (r.save (s.locals i))) (.inl (hf _))).trans (forward_note _ (.saved _) nofun)
  exact (restores_update hsave).bind fun _ => (restores_read _).bind fun _ => restores_event _

theorem restores_wait (call : ToolCall) (rest : List ToolCall) : (wait i call rest).Restores Forward := fun _ s hs =>
  bursts_checkpoint (forward_told (.approvalRequested call.name call.id) (hs.journal.trans (suffix_saved s i _)) rfl)

theorem restores_finishRun (reason : StopReason) (result : Option String) :
    (finishRun i reason result).Restores Forward := by
  intro s₀ s hs
  unfold finishRun
  split
  · refine bursts_checkpoint (bursts_locals ⟨?_, fun _ => .inr (.inl rfl)⟩)
    exact (hs.journal.trans (suffix_saved s i _)).trans (List.suffix_cons _ _)
  · refine bursts_checkpoint (bursts_locals (bursts_event ?_))
    refine (forward_told _ (hs.journal.trans (suffix_saved s i _)) ?_).trans (forward_note _ _ nofun)
    exact tells_runFinished _ _ _ reason

theorem restores_limit : (limit i agent).Restores Forward :=
  (restores_read _).bind fun x => (restores_note (.checked x.2) nofun).bind fun _ => .ret

theorem restores_route (purpose : Purpose) (req : CompletionRequest) (timeout : Option ℚ) :
    (route purpose req timeout).Restores Forward := by
  refine (restores_note (.asked purpose (account req) req.messages) nofun).bind fun _ => ?_
  refine (restores_query _).bind fun resp => ?_
  exact (restores_note (.called _) (fun _ h => nomatch h)).bind fun _ => .ret

theorem restores_plan : (R.plan i agent).Restores Forward := by
  refine (restores_read _).bind fun l => ?_
  cases l.msgs with
  | nil => exact .fail
  | cons first rest =>
    dsimp only
    split
    · exact .ret
    · refine (restores_read _).bind fun ⟨req, timeout⟩ => ?_
      refine (restores_route .plan req timeout).bind fun resp => ?_
      -- the test is a computation on strings, which would be run to compare programs
      generalize decide (Coreai.Keystore.strip resp.content ≠ "") = b
      refine (restores_assign _).bind fun _ => (restores_event _).bind fun _ => ?_
      exact (Restores.when (restores_assign _)).bind fun _ => restores_checkpoint fun _ => rfl

theorem restores_noteOf (dropped : List Message) : (noteOf agent dropped).Restores Forward := by
  unfold noteOf
  split
  · refine Restores.tryCatch (Restores.bind ((restores_route _ _ _).bind fun _ => .ret) fun _ => .ret) fun e => ?_
    cases e with
    | cancelled => exact .fail
    | error name detail => exact .ret
  · exact .ret

theorem restores_compact (system : String) : (compact i agent system).Restores Forward := by
  have hchanged (msgs : List Message) (n : ℕ) :
      (assign i (fun l => { l with msgs := msgs }) >>= fun _ => event (.contextCompacted msgs.length n)).Restores Forward :=
    (restores_assign _).bind fun _ => restores_event _
  refine (restores_read _).bind fun l => ?_
  cases Context.compact estimateTokens l.msgs system agent.contextTokens agent.keepRecent with
  | error text => exact .fail
  | ok c =>
    cases c with
    | unchanged => exact .ret
    | shrunk msgs => exact hchanged _ _
    | condensed pinned dropped rest => exact (restores_noteOf dropped).bind fun _ => hchanged _ _

theorem restores_model : (R.model i agent).Restores Forward := by
  refine (restores_read _).bind fun _ => (restores_compact _).bind fun _ => (restores_read _).bind fun _ => ?_
  refine (restores_route _ _ _).bind fun _ => (restores_assign _).bind fun _ => ?_
  exact (restores_read _).bind fun _ => (restores_event _).bind fun _ => .ret

theorem restores_callTool (call : ToolCall) (args : Json) (decision : Option Bool) (approved : Bool) :
    (R.callTool agent call args decision approved).Restores Forward := by
  refine Restores.bind (Restores.sync fun _ _ h => h.trans (forward_of_eq rfl rfl)) fun answer => ?_
  cases answer with
  | error e => exact .ret
  | ok u => exact (restores_note (.handled _ _) nofun).bind fun _ => restores_query _

theorem restores_runOne (call : ToolCall) (decision : Option Bool) : (R.runOne agent call decision).Restores Forward := by
  unfold runOne
  split
  · exact .ret
  · split
    · exact .ret
    · refine (restores_callTool _ _ _ _).bind fun answer => ?_
      cases answer with
      | ok text => exact .ret
      | error e =>
        dsimp only
        split
        · exact (restores_callTool _ _ _ _).bind fun _ => .ret
        · exact .ret

theorem restores_append (m : Message) : (append i m).Restores Forward := restores_assign _

theorem restores_tools (calls : List ToolCall) :
    ∀ decision : Option Bool, (R.tools i agent calls decision).Restores Forward := by
  induction calls with
  | nil => exact fun _ => .ret
  | cons call rest ih =>
    intro decision
    have hanswer (m : Message) : (append i m >>= fun _ => R.tools i agent rest none).Restores Forward :=
      (restores_append m).bind fun _ => ih none
    have hwait : (wait i call rest >>= fun _ => (pure true : Async Bool)).Restores Forward :=
      (restores_wait call rest).bind fun _ => .ret
    unfold tools
    split
    · cases decision with
      | none => exact hwait
      | some approved => exact (restores_event _).bind fun _ => hanswer _
    · split
      · exact hwait
      · split
        · exact (restores_event _).bind fun _ => (restores_read _).bind fun _ => (restores_event _).bind fun _ => hanswer _
        · refine (restores_runOne call decision).bind fun step => ?_
          split
          · exact hwait
          · refine (Restores.when (restores_event _)).bind fun _ => (restores_read _).bind fun _ => ?_
            exact (restores_event _).bind fun _ => hanswer _

theorem restores_loop (n : ℕ) : (R.loop i agent n).Restores Forward := by
  induction n with
  | zero => exact .fail
  | succ n ih =>
    refine restores_limit.bind fun o => ?_
    cases o with
    | some reason => exact restores_finishRun _ _
    | none =>
      refine restores_model.bind fun resp => (restores_assign _).bind fun _ => ?_
      split
      · refine (restores_append _).bind fun _ => (restores_checkpoint ?_).bind fun _ => restores_finishRun _ _
        exact fun _ => rfl
      · refine (restores_append _).bind fun _ => (restores_tools _ _).bind fun waits => ?_
        cases waits with
        | true => exact .ret
        | false =>
          refine (restores_checkpoint fun _ => rfl).bind fun _ => (restores_read _).bind fun l => ?_
          split
          · exact restores_finishRun _ _
          · exact ih

theorem restores_goOn (pending : Option (List ToolCall)) : (R.goOn i agent pending).Restores Forward := by
  refine (restores_read _).bind fun left => (restores_read _).bind fun l => ?_
  split
  · refine restores_limit.bind fun o => ?_
    cases o with
    | some reason => exact restores_finishRun _ _
    | none => exact restores_plan.bind fun _ => restores_loop _
  · exact restores_loop _

theorem restores_attempt (pending : Option (List ToolCall)) (decision : Option Bool) :
    (R.attempt i agent pending decision).Restores Forward := by
  cases pending with
  | none => exact restores_goOn _
  | some calls =>
    refine (restores_tools calls decision).bind fun waits => ?_
    cases waits with
    | true => exact .ret
    | false => exact restores_goOn _

theorem restores_rescue (e : Exc) : (rescue i e).Restores Forward := by
  intro s₀ s hs
  cases e with
  | cancelled =>
    refine bursts_checkpoint ⟨hs.journal.trans (suffix_saved s i _), fun _ => .inr (.inl rfl)⟩
  | error name detail =>
    refine bursts_event (bursts_checkpoint (bursts_update (bursts_locals ?_)))
    have hsuffix := (hs.journal.trans (List.suffix_cons (.trace (.error name (slice 300 detail))) _))
    exact forward_told _ (hsuffix.trans ((suffix_saved (s.note _) i id).trans (suffix_write _ _))) rfl

theorem restores_body (i : ℕ) (c : Execution) : (R.body i c).Restores Forward := by
  obtain ⟨decision⟩ := c
  refine Restores.tryFinally ?_ (restores_update fun _ => forward_of_eq rfl rfl)
  refine (restores_read _).bind fun run => ?_
  refine (restores_note (.entered run.status run.pending decision) nofun).bind fun _ => ?_
  split
  · exact .ret
  · split
    · exact .fail
    · refine Restores.bind (restores_update ?_) fun _ => Restores.bind (restores_update ?_) fun _ => ?_
      · exact fun _ => forward_of_eq rfl rfl
      · exact fun s => forward_write s _ (.inr rfl)
      refine (restores_event _).bind fun _ => ?_
      exact (Restores.tryCatch (restores_attempt _ _) restores_rescue).bind fun _ => restores_read _

/-! ## Requests -/

theorem forward_request (s : HarnessState) (c : Control) : Forward s (s.request c) := by
  unfold HarnessState.request
  split
  · exact (forward_write s _ (.inl rfl)).trans (forward_note _ _ nofun)
  · exact .refl s

theorem forward_finish (s : HarnessState) {status : RunStatus} {reason : StopReason}
    (h : (TraceEvent.runFinished reason none none).tells status) : Forward s (s.finish status reason) := by
  unfold HarnessState.finish HarnessState.announce
  refine Forward.trans ?_ (forward_note _ _ nofun)
  exact forward_told _ (suffix_write s _) h

theorem forward_op (o : Op) (s : HarnessState) : Forward s (op o s) := by
  cases o with
  | pause => exact forward_request s _
  | cancel =>
    show Forward s s.cancel
    unfold HarnessState.cancel
    split
    · exact (forward_note s (.requested .cancel) nofun).trans (forward_finish _ rfl)
    · exact forward_request s _
  | kill owner =>
    show Forward s (s.kill owner)
    unfold HarnessState.kill
    split
    · dsimp only
      split
      · exact (forward_request s _).trans (forward_finish _ rfl)
      · exact forward_request s _
    · exact .refl s
  | clock now => exact forward_of_eq rfl rfl
  | registry r => exact forward_of_eq rfl rfl
  | memory found => exact forward_of_eq rfl rfl

theorem leaping : (R.program false).Leaping Forward fun _ _ => True where
  refl := Forward.refl
  body := restores_body
  enter c s s' h := by
    obtain rfl := Option.some.inj h
    exact forward_of_eq rfl rfl
  op p o s _ h := by
    obtain rfl := Option.some.inj h
    exact forward_op o p.state
  reboot _ := rfl

end HarnessRunner

/-! ## The reader -/

def Position.pending : Position → List Row
  | .yielding rest _ => rest
  | _ => []

def Position.closing : Position → Bool
  | .yielding _ last => last
  | .finished => true
  | _ => false

theorem seq_of_prefix {J : List Entry} {before rest : List Row} {r : Row} (h : before ++ r :: rest <+: rows J) :
    r.seq = before.length + 1 := by
  obtain ⟨after, hrows⟩ := h
  have hseqs := seqs_rows J
  rw [← hrows] at hseqs
  have hat := congrArg (·[before.length]?) hseqs
  simp only [List.map_append, List.append_assoc, List.map_cons, List.cons_append] at hat
  rw [List.getElem?_append_right (by simp), List.length_map, Nat.sub_self, List.getElem?_cons_zero,
    List.getElem?_range' (by simp)] at hat
  have := Option.some.inj hat
  omega

namespace Reader

variable {s : HarnessState} {r : Reader}

/-- What a reader holds of the table: a prefix of it, up to the number it has seen. -/
structure Holds (s : HarnessState) (r : Reader) : Prop where
  rows : r.yielded ++ r.position.pending <+: rows s.journal
  seen : r.position.closing = false → r.seen = r.yielded.length

theorem drain_all (r : Reader) (rest : List Row) :
    (r.drain rest).yielded ++ (r.drain rest).position.pending = r.yielded ++ rest ∧
      (r.drain rest).position.closing = true := by
  cases rest with
  | nil => exact ⟨rfl, rfl⟩
  | cons e rest => exact ⟨by simp [drain, Position.pending], rfl⟩

theorem yielded_append_events (hrows : r.yielded <+: Harness.rows s.journal) (hseen : r.seen = r.yielded.length) :
    r.yielded ++ events s.journal r.seen = Harness.rows s.journal := by
  obtain ⟨after, hafter⟩ := hrows
  rw [events_eq, hseen, ← hafter, List.drop_left]

/-- Reading alone. -/
def Reads (s : HarnessState) : Reader → Reader → Prop := Relation.ReflTransGen fun r r' => r.next s = some r'

/-- A stream of a run that is not running comes to its end. -/
theorem reads_end (hstatus : s.run.status ≠ .running) (r : Reader) : ∃ r', Reads s r r' ∧ r'.position = .finished := by
  have hdrain : ∀ (rest : List Row) (r : Reader), ∃ r', Reads s (r.drain rest) r' ∧ r'.position = .finished := by
    intro rest
    induction rest with
    | nil => exact fun r => ⟨_, .refl, rfl⟩
    | cons e rest ih =>
      intro r
      obtain ⟨r', hreads, hover⟩ := ih { r with yielded := r.yielded ++ [e], position := .yielding rest true }
      exact ⟨r', .head rfl hreads, hover⟩
  have hfeed : ∀ (rest : List Row) (r : Reader), ∃ r', Reads s (r.feed s rest) r' ∧ r'.position = .finished := by
    intro rest
    induction rest with
    | nil =>
      intro r
      simp only [feed, check, if_pos hstatus]
      exact hdrain _ r
    | cons e rest ih =>
      intro r
      obtain ⟨r', hreads, hover⟩ :=
        ih { r with seen := e.seq, yielded := r.yielded ++ [e], position := .yielding rest false }
      exact ⟨r', .head rfl hreads, hover⟩
  have hhead : ∀ {u : Reader}, r.next s = some u → (∃ r', Reads s u r' ∧ r'.position = .finished) →
      ∃ r', Reads s r r' ∧ r'.position = .finished := fun hnext ⟨r', hreads, hover⟩ => ⟨r', .head hnext hreads, hover⟩
  cases hposition : r.position with
  | opened => exact hhead (by rw [next, hposition]) (hfeed _ r)
  | asleep => exact hhead (by rw [next, hposition]) (hfeed _ r)
  | finished => exact ⟨r, .refl, hposition⟩
  | yielding rest last =>
    cases last with
    | false => exact hhead (by rw [next, hposition]) (hfeed _ r)
    | true => exact hhead (by rw [next, hposition]) (hdrain _ r)

/-- A reader goes on: it holds more, and if it has found the run not running, it will have
yielded all there is. -/
theorem holds_feed {rest : List Row} (hrows : r.yielded ++ rest <+: Harness.rows s.journal)
    (hseen : r.seen = r.yielded.length) :
    Holds s (r.feed s rest) ∧ ((r.feed s rest).position.closing = true →
      s.run.status ≠ .running ∧
        (r.feed s rest).yielded ++ (r.feed s rest).position.pending = Harness.rows s.journal) := by
  cases rest with
  | nil =>
    rw [List.append_nil] at hrows
    simp only [feed, check]
    split
    · next hstatus =>
        obtain ⟨hall, hclosing⟩ := drain_all r (events s.journal r.seen)
        rw [yielded_append_events hrows hseen] at hall
        exact ⟨⟨hall ▸ List.prefix_rfl, fun h => absurd (hclosing.symm.trans h) (by decide)⟩, fun _ => ⟨hstatus, hall⟩⟩
    · exact ⟨⟨by simpa [Position.pending] using hrows, fun _ => hseen⟩, fun h => nomatch h⟩
  | cons e rest =>
    refine ⟨⟨by simpa [feed, Position.pending] using hrows, fun _ => ?_⟩, fun h => nomatch h⟩
    simp [feed, seq_of_prefix hrows]

end Reader

namespace HarnessRunner

variable {R : HarnessRunner}

/-- A look at the store that found the run not running. -/
structure Last (x : Machine.Step Watched Act) (yielded : List Row) : Prop where
  label : x.label = .read
  status : x.source.pool.state.run.status ≠ .running
  rows : yielded = rows x.source.pool.state.journal
  told : Told x.source.pool.state

/-- What is known of a run with a reader, after the steps `l`. -/
structure Fed (l : List (Machine.Step Watched Act)) (w : Watched) : Prop where
  paced : Program.Paced Forward w.pool
  told : Told w.pool.state
  holds : w.reader.Holds w.pool.state
  last : w.reader.position.closing = true → ∃ x ∈ l, Last x (w.reader.yielded ++ w.reader.position.pending)

/-- **What one step keeps**, of the run or of the reader. -/
theorem Fed.step {l : List (Machine.Step Watched Act)} {w w' : Watched} {m : Act} (h : Fed l w)
    (hstep : R.watched.step w m w') : Fed (l ++ [⟨w, m, w'⟩]) w' := by
  have hold : ∀ {yielded : List Row}, (∃ x ∈ l, Last x yielded) → ∃ x ∈ l ++ [⟨w, m, w'⟩], Last x yielded :=
    fun ⟨x, hx, hlast⟩ => ⟨x, List.mem_append_left _ hx, hlast⟩
  cases m with
  | move m =>
    obtain ⟨⟨hmove, -⟩, hreader⟩ := hstep
    obtain ⟨hforward, hpaced⟩ := leaping.step h.paced trivial hmove
    have hrows := rows_prefix hforward.journal
    refine ⟨hpaced, hforward.told h.told, ?_, ?_⟩
    · rw [hreader]
      exact ⟨h.holds.rows.trans hrows, h.holds.seen⟩
    · rw [hreader]
      exact fun hclosing => hold (h.last hclosing)
  | read =>
    obtain ⟨hpool, hnext⟩ := hstep
    have hfeed : ∀ {rest : List Row}, w.reader.yielded ++ rest <+: rows w.pool.state.journal →
        w.reader.seen = w.reader.yielded.length → w'.reader = w.reader.feed w.pool.state rest →
        Fed (l ++ [⟨w, .read, w'⟩]) w' := by
      intro rest hrows hseen hreader
      obtain ⟨hholds, hlast⟩ := Reader.holds_feed hrows hseen
      rw [← hreader] at hholds hlast
      refine ⟨hpool ▸ h.paced, hpool ▸ h.told, hpool ▸ hholds, fun hclosing => ?_⟩
      obtain ⟨hstatus, hall⟩ := hlast hclosing
      exact ⟨_, List.mem_append_right _ List.mem_cons_self, rfl, hstatus, hall, h.told⟩
    have hrows := h.holds.rows
    have hquery : w.reader.position.pending = [] → w.reader.position.closing = false →
        w.reader.yielded ++ events w.pool.state.journal w.reader.seen <+: rows w.pool.state.journal := by
      intro hpending hclosing
      rw [hpending, List.append_nil] at hrows
      have hall := Reader.yielded_append_events hrows (h.holds.seen hclosing)
      exact hall ▸ List.prefix_rfl
    unfold Reader.next at hnext
    cases hposition : w.reader.position with
    | opened =>
      rw [hposition] at hnext
      exact hfeed (hquery (by rw [hposition]; rfl) (by rw [hposition]; rfl)) (h.holds.seen (by rw [hposition]; rfl))
        (Option.some.inj hnext).symm
    | asleep =>
      rw [hposition] at hnext
      exact hfeed (hquery (by rw [hposition]; rfl) (by rw [hposition]; rfl)) (h.holds.seen (by rw [hposition]; rfl))
        (Option.some.inj hnext).symm
    | finished =>
      rw [hposition] at hnext
      exact nomatch hnext
    | yielding rest last =>
      rw [hposition] at hrows hnext
      cases last with
      | false => exact hfeed hrows (h.holds.seen (by rw [hposition]; rfl)) (Option.some.inj hnext).symm
      | true =>
        have hreader : w'.reader = w.reader.drain rest := (Option.some.inj hnext).symm
        obtain ⟨hall, hclosing⟩ := Reader.drain_all w.reader rest
        have hlast := h.last (by rw [hposition]; rfl)
        rw [← hreader] at hall hclosing
        rw [hposition] at hlast
        refine ⟨hpool ▸ h.paced, hpool ▸ h.told, ⟨?_, fun hopen => ?_⟩, fun _ => ?_⟩
        · rw [hall, hpool]
          exact hrows
        · exact absurd (hclosing.symm.trans hopen) (by decide)
        · rw [hall]
          exact hold hlast

/-- **What whole runs keep**. -/
theorem fed_run {w₀ w : Watched} {l : List (Machine.Step Watched Act)} (h : R.watched.Run w₀ l w)
    (hstart : R.watched.start w₀) : Fed l w := by
  induction h with
  | nil =>
    obtain ⟨⟨hcreated, htasks⟩, hreader⟩ := hstart
    obtain ⟨⟨name, agent, task, owner, -, hrun⟩, -⟩ := hcreated
    refine ⟨Program.paced_nil htasks, .inl (by rw [hrun]; rfl), ?_, ?_⟩
    · rw [hreader]
      exact ⟨List.nil_prefix, fun _ => rfl⟩
    · rw [hreader]
      exact fun hclosing => nomatch hclosing
  | snoc _ hstep ih => exact ih.step hstep

/-! ## What a stream yields -/

/-- A stream after the steps `l`: it has yielded the rows of the table in their order, from the first
one on and each once, up to some row. When it is over, these are all rows that were there when it
found the run not running; and the final event of a run that was not paused then is among them. -/
structure Streamed (l : List (Machine.Step Watched Act)) (w : Watched) : Prop where
  inOrder : w.reader.yielded.map (·.seq) = List.range' 1 w.reader.yielded.length
  stored : w.reader.yielded <+: rows w.pool.state.journal
  ended : w.reader.position = .finished → ∃ x ∈ l, x.label = .read ∧ x.source.pool.state.run.status ≠ .running ∧
    w.reader.yielded = rows x.source.pool.state.journal ∧
      (x.source.pool.state.run.status = .paused ∨
        ∃ r ∈ w.reader.yielded, r.event.tells x.source.pool.state.run.status)
  ends : w.pool.state.run.status ≠ .running → ∃ r, w.reader.Reads w.pool.state r ∧ r.position = .finished

theorem seqs_initial {J : List Entry} {l : List Row} (h : l <+: rows J) : l.map (·.seq) = List.range' 1 l.length := by
  obtain ⟨after, hrows⟩ := h
  have hseqs := seqs_rows J
  rw [← hrows, List.map_append, List.length_append, ← List.range'_append_1] at hseqs
  exact (List.append_inj hseqs (by simp)).1

/-- **The stream of a run** loses nothing and repeats nothing, whatever the order of the steps. -/
theorem streamed {w₀ w : Watched} {l : List (Machine.Step Watched Act)} (h : R.watched.Run w₀ l w)
    (hstart : R.watched.start w₀) : Streamed l w := by
  have hfed := fed_run h hstart
  have hstored : w.reader.yielded <+: rows w.pool.state.journal := (List.prefix_append _ _).trans hfed.holds.rows
  refine ⟨seqs_initial hstored, hstored, fun hover => ?_, fun hstatus => Reader.reads_end hstatus w.reader⟩
  obtain ⟨x, hx, hlabel, hstatus, hrows, htold⟩ := hfed.last (by rw [hover]; rfl)
  have hpending : Position.finished.pending = [] := rfl
  rw [hover, hpending, List.append_nil] at hrows
  refine ⟨x, hx, hlabel, hstatus, hrows, ?_⟩
  rcases htold with hrunning | hpaced | ⟨e, he, htells⟩
  · exact absurd hrunning hstatus
  · exact .inl hpaced
  · obtain ⟨r, hr, rfl⟩ := mem_rows he
    exact .inr ⟨r, hrows ▸ hr, htells⟩

theorem watched_moves {p p' : Pool Γ} {l : List (Machine.Step (Pool Γ) (Move Γ Op))}
    (h : (R.machine false).Run p l p') (r : Reader) : ∃ l', R.watched.Run ⟨p, r⟩ l' ⟨p', r⟩ := by
  induction h with
  | nil => exact ⟨_, .nil _⟩
  | @snoc t u _ m _ hstep ih =>
    obtain ⟨l', hrun⟩ := ih
    have hmove : R.watched.step ⟨t, r⟩ (.move m) ⟨u, r⟩ := ⟨hstep, rfl⟩
    exact ⟨_, hrun.snoc hmove⟩

theorem watched_reads {p : Pool Γ} {r r' : Reader} (h : r.Reads p.state r') :
    ∃ l', R.watched.Run ⟨p, r⟩ l' ⟨p, r'⟩ := by
  induction h with
  | refl => exact ⟨_, .nil _⟩
  | @tail u v _ hnext ih =>
    obtain ⟨l', hrun⟩ := ih
    have hread : R.watched.step ⟨p, u⟩ .read ⟨p, v⟩ := ⟨rfl, hnext⟩
    exact ⟨_, hrun.snoc hread⟩

theorem watched_end {p₀ p : Pool Γ} {l : List (Machine.Step (Pool Γ) (Move Γ Op))}
    (h : (R.machine false).Run p₀ l p) (hstatus : p.state.run.status ≠ .running) :
    ∃ l' r, R.watched.Run ⟨p₀, {}⟩ l' ⟨p, r⟩ ∧ r.position = .finished := by
  obtain ⟨l₁, hmoves⟩ := watched_moves h {}
  obtain ⟨r, hreads, hover⟩ := Reader.reads_end hstatus {}
  obtain ⟨l₂, hrun⟩ := watched_reads (R := R) hreads
  exact ⟨_, r, hmoves.append hrun, hover⟩

/-- The stream of a run that is completed by the first answer of the model. -/
theorem streamed_once : ∃ (l : List (Machine.Step Watched Act)) (w : Watched),
    w.pool.state.run.status = .completed ∧ w.reader.position = .finished ∧ Streamed l w := by
  have htest : (((harnessOf plainAgent).program false).replay Machine.free (opened plainAgent) oneStep).any
      (fun p => decide (p.state.run.status = .completed)) = true := by decide +kernel
  obtain ⟨p, hp, hp'⟩ := Machine.exists_of_any htest
  have hcompleted : p.state.run.status = .completed := of_decide_eq_true hp'
  obtain ⟨l, hrun, -⟩ := exists_run hp
  obtain ⟨l', r, hwatched, hover⟩ := watched_end hrun (by rw [hcompleted]; decide)
  exact ⟨l', ⟨p, r⟩, hcompleted, hover, streamed hwatched ⟨opened_start plainAgent, rfl⟩⟩

def TraceEvent.final : TraceEvent → Bool
  | .runFinished _ _ _ => true
  | .approvalRequested _ _ => true
  | _ => false

/-- The stream of a run that is paused ends without a final event. -/
theorem paused_unfinished : ∃ w l, (harnessOf plainAgent).watched.Run ⟨opened plainAgent, {}⟩ l w ∧
    w.pool.state.run.status = .paused ∧ w.reader.position = .finished ∧
      ∀ r ∈ w.reader.yielded, TraceEvent.final r.event = false := by
  have htest : (((harnessOf plainAgent).program false).replay Machine.free (opened plainAgent)
      [.op .pause, .spawn (.execute none), .start 0]).any (fun p =>
        decide (p.state.run.status = .paused) && (rows p.state.journal).all fun r => !TraceEvent.final r.event) = true := by
    decide +kernel
  obtain ⟨p, hp, hp'⟩ := Machine.exists_of_any htest
  simp only [Bool.and_eq_true, decide_eq_true_eq, List.all_eq_true, Bool.not_eq_true'] at hp'
  obtain ⟨hpaused, hrows⟩ := hp'
  obtain ⟨l, hrun, -⟩ := exists_run hp
  obtain ⟨l', reader, hwatched, hover⟩ := watched_end hrun (by rw [hpaused]; decide)
  have hstart : (harnessOf plainAgent).watched.start ⟨opened plainAgent, {}⟩ := ⟨opened_start plainAgent, rfl⟩
  refine ⟨⟨p, reader⟩, l', hwatched, hpaused, hover, fun r hr => ?_⟩
  exact hrows r ((fed_run hwatched hstart).holds.rows.subset (List.mem_append_left _ hr))

end HarnessRunner

end Caips.Harness
