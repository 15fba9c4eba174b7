/-
Caips.Agents.ShutdownTheorems — what a shutdown guarantees, in any order of requests,
triggers, interrupts and time-outs.

* `intake_closed` — from the first trigger on, only probes and the admin paths are let
  in, no subsystem is touched before, and after a shutdown has seen the event set, no
  other request is in the server any more.
* `exits_once` — every shutdown asks the process to exit once at most, with 0 only
  after the database was closed, its error was logged or a forced shutdown's task that
  closes it was cancelled, and with 1 only in the graceful mode.

A task holds what it may rely on as tokens: its turn to shut down, the licence of a child
to call a subsystem, the state of the event it waits for (`Licence`).
-/
import Caips.Agents.DrainTheorems
import Caips.Logic.CoroFrame

namespace Caips.Agents.Server

open Caips.Logic Caips.Coreai

/-! ## The contract -/

inductive Tok where
  /-- The shutdown is there. -/
  | known (j : ℕ)
  /-- Shutdown `j` is this task's. -/
  | turn (j : ℕ) (mode : ShutdownMode)
  /-- The task is a child of a forced shutdown. -/
  | crew (j : ℕ)
  | closed (j : ℕ)
  /-- The event had been set so often when the task began to wait. -/
  | waiting (seen : ℕ)
  | inside (path : String)
  deriving DecidableEq

/-- The token of the task that shuts down. -/
def Tok.owns (j : ℕ) : Tok → Bool
  | .turn j' _ => j' = j
  | _ => false

def progress (s : Server) (j : ℕ) : Bool := (s.shutdowns[j]?).any (·.inProgress)

def modeOf (s : Server) (j : ℕ) : Option ShutdownMode := ((s.shutdowns[j]?).bind (·.event)).map (·.mode)

/-- The shutdown has begun, in this mode. -/
def Begun (s : Server) (j : ℕ) (mode : ShutdownMode) : Prop := progress s j = true ∧ modeOf s j = some mode

/-- The tasks a shutdown belongs to. -/
def turns (held : Multiset Tok) (j : ℕ) : ℕ := held.countP fun t => t.owns j = true

def exits (s : Server) (j : ℕ) : ℕ := s.journal.countP fun e => e = .exited j 0 ∨ e = .exited j 1

/-- Only requests that are always let in are in the server. -/
def Calm (s : Server) : Prop := ∀ path ∈ s.inside, allowedPath path = true

def Drained (s : Server) : Prop := s.drain.accepting = false ∧ Calm s

/-- The database was closed, or an error of closing it was logged. -/
def Closed (s : Server) (j : ℕ) : Prop := .closed j ∈ s.journal ∨ .closeError j ∈ s.journal

/-- Nothing is left to do for the database: it is closed, or the task that closes it was cancelled. -/
def Settled (s : Server) (j : ℕ) : Prop := Closed s j ∨ .closeCancelled j ∈ s.journal

/-- What a token says of the state. -/
def Licence (s : Server) : Tok → Prop
  | .known j => j < s.shutdowns.length
  | .turn j mode => s.drain.accepting = false ∧ Begun s j mode
  | .crew j => s.drain.accepting = false ∧ .killing j ∈ s.journal
  | .closed j => Settled s j
  | .waiting seen => s.drain.accepting = false ∧ seen ≤ s.drain.releases ∧ (seen < s.drain.releases → Calm s)
  | .inside _ => True

/-- What an entry of the journal says of the state. -/
def Fits (s : Server) : ServerEvent → Prop
  | .entered path false => allowedPath path = true
  | .refused path => allowedPath path = false ∧ s.drain.accepting = false
  | .calls _ _ true => False
  | .waited _ true => Drained s
  | .closeCancelled j => .killing j ∈ s.journal
  | .exited j 0 => Settled s j
  | .exited j 1 => Begun s j .graceful
  | _ => True

structure Watched (s : Server) (held : Multiset Tok) : Prop where
  counted : Counted s
  told : ∀ e ∈ s.journal, Fits s e
  inside : ∀ path, held.count (.inside path) ≤ s.inside.count path
  licence : ∀ t ∈ held, Licence s t
  once : ∀ j, exits s j + turns held j ≤ (progress s j).toNat
  stopped : ∀ j, progress s j = true → s.drain.accepting = false

/-- The contract of the requests and the shutdowns. -/
def watch : Contract program where
  Tok := Tok
  inv := Watched
  gives
    | .request _ => 0
    | .trigger j _ _ _ _ => {.known j}
    | .killAgents j => {.crew j}
    | .killKernel j => {.crew j}
    | .closeDb j => {.crew j}
  starts _ := True
  begins _ _ := True
  Own := Unit
  own _ _ := ()
  asks _ _ := True
  rely
    | _, .call q, s, r => answers q s r
    | _, .wait _ _, s, .ok (l : List Γ.Ending) => ∀ x ∈ l, ∀ j, x.1.2 = .closeDb j → Settled s j
    | _, _, _, _ => True
  post me _ h _ _ := ∀ j, me.2 = .closeDb j → (.closed j : Tok) ∈ h

/-- The task holds a token. -/
def Has (t : Tok) : watch.Assn := fun _ h _ => t ∈ h

/-- No exception that `except Exception` would catch. -/
def Sober {α : Type} (r : Except Exc α) : Prop := ∀ e, r = .error e → e.isException = false

/-- Code that keeps what it needs, and raises no such exception. -/
abbrev Soberly {α : Type} (N : watch.Assn) (r : Except Exc α) : watch.Assn := fun s h l => N s h l ∧ Sober r

theorem sober_error {α : Type} {e : Exc} (he : e.isException = false) : Sober (.error e : Except Exc α) := by
  rintro _ ⟨⟩
  exact he

theorem Sober.error {α β : Type} {e : Exc} (h : Sober (.error e : Except Exc α)) :
    Sober (.error e : Except Exc β) := sober_error (h e rfl)

/-! ## Steps -/

/-- A later state: what was granted stays granted. -/
structure Later (s u : Server) : Prop where
  length : s.shutdowns.length ≤ u.shutdowns.length
  begun : ∀ j mode, Begun s j mode → Begun u j mode
  accepting : s.drain.accepting = false → u.drain.accepting = false
  stopped : ∀ j, progress u j = true → progress s j = true ∨ u.drain.accepting = false
  /-- Waiters are let go when nothing but what is always let in is left. -/
  releases : s.drain.accepting = false → s.drain.releases = u.drain.releases ∨
    s.drain.releases < u.drain.releases ∧ Calm u
  calm : s.drain.accepting = false → Calm s → Calm u
  journal : s.journal ⊆ u.journal

section

variable {s u : Server} {held F : Multiset Tok} {t : Tok} {j : ℕ} {α β : Type} {me : Γ.Handle}

theorem Later.refl (s : Server) : Later s s :=
  ⟨le_refl _, fun _ _ h => h, id, fun _ => .inl, fun _ => .inl rfl, fun _ h => h, List.Subset.refl _⟩

theorem Later.closed (h : Later s u) (hs : Settled s j) : Settled u j :=
  hs.imp (.imp (h.journal ·) (h.journal ·)) (h.journal ·)

theorem Later.licence (h : Later s u) (hs : Licence s t) : Licence u t := by
  cases t with
  | known j => exact lt_of_lt_of_le hs h.length
  | turn j mode => exact ⟨h.accepting hs.1, h.begun j mode hs.2⟩
  | crew j => exact ⟨h.accepting hs.1, h.journal hs.2⟩
  | closed j => exact h.closed hs
  | waiting seen =>
    obtain ⟨haccepting, hle, hcalm⟩ := hs
    refine ⟨h.accepting haccepting, ?_⟩
    obtain hsame | ⟨hlt, hquiet⟩ := h.releases haccepting
    · rw [← hsame]
      exact ⟨hle, fun hlt => h.calm haccepting (hcalm hlt)⟩
    · exact ⟨hle.trans hlt.le, fun _ => hquiet⟩
  | inside path => trivial

variable {e : ServerEvent} {path : String}

theorem Later.fits (h : Later s u) (hs : Fits s e) : Fits u e := by
  cases e with
  | refused path => exact ⟨hs.1, h.accepting hs.2⟩
  | entered path accepting => cases accepting <;> exact hs
  | left path => trivial
  | waited j idle =>
    cases idle with
    | false => trivial
    | true => exact ⟨h.accepting hs.1, h.calm hs.1 hs.2⟩
  | calls j what accepting => cases accepting <;> exact hs
  | killing j => trivial
  | closed j => trivial
  | closeError j => trivial
  | closeCancelled j => exact h.journal hs
  | exited j code =>
    match code with
    | 0 => exact h.closed hs
    | 1 => exact h.begun j _ hs
    | _ + 2 => trivial

theorem Watched.later {held' : Multiset Tok} (h : Watched s held) (hl : Later s u) (hcounted : Counted u)
    (htold : ∀ e ∈ u.journal, e ∈ s.journal ∨ Fits u e)
    (hinside : ∀ path, held'.count (.inside path) ≤ u.inside.count path)
    (hheld : ∀ t ∈ held', t ∈ held ∨ Licence u t)
    (honce : ∀ j, exits u j + turns held' j ≤ (progress u j).toNat) :
    Watched u held' where
  counted := hcounted
  told e he := (htold e he).elim (fun he => hl.fits (h.told e he)) id
  inside := hinside
  licence t ht := (hheld t ht).elim (fun ht => hl.licence (h.licence t ht)) id
  once := honce
  stopped j hj := (hl.stopped j hj).elim (fun hj => hl.accepting (h.stopped j hj)) id

theorem count_cons_inside (ht : ∀ path, t ≠ .inside path) (path : String) (held : Multiset Tok) :
    (t ::ₘ held).count (.inside path) = held.count (.inside path) :=
    Multiset.count_cons_of_ne (ht path).symm _

theorem mem_cons_or {held' : Multiset Tok} (ht : Licence s t) :
    ∀ t' ∈ t ::ₘ held', t' ∈ held' ∨ Licence s t' := by
  intro t' ht'
  obtain rfl | ht' := Multiset.mem_cons.mp ht'
  · exact .inr ht
  · exact .inl ht'

theorem Watched.add (h : Watched s held) (ht : Licence s t) (howns : ∀ j, t.owns j = false)
    (hinside : ∀ path, t ≠ .inside path) :
    Watched s (t ::ₘ held) := by
  refine h.later (.refl s) h.counted (fun _ => .inl) (fun path => ?_) (mem_cons_or ht) fun j => ?_
  · rw [count_cons_inside hinside]
    exact h.inside path
  · have hturns : turns (t ::ₘ held) j = turns held j := Multiset.countP_cons_of_neg _ (by simp [howns])
    rw [hturns]
    exact h.once j

theorem later_note (s : Server) (e : ServerEvent) : Later s (s.note e) :=
  ⟨le_refl _, fun _ _ h => h, id, fun _ => .inl, fun _ => .inl rfl, fun _ h => h, List.subset_cons_self e s.journal⟩

theorem note_or (he : Fits s e) : ∀ e' ∈ (s.note e).journal, e' ∈ s.journal ∨
    Fits (s.note e) e' := by
  intro e' he'
  obtain rfl | he' := List.mem_cons.mp he'
  · exact .inr ((later_note s e').fits he)
  · exact .inl he'

/-- An entry that fits, and is no exit. -/
structure Plain (s : Server) (e : ServerEvent) : Prop where
  fits : Fits s e
  exited : ∀ j code, e ≠ .exited j code

theorem exits_note (he : ∀ code, e ≠ .exited j code) : exits (s.note e) j = exits s j := by
  unfold exits Server.note
  rw [List.countP_cons_of_neg]
  simpa using ⟨he 0, he 1⟩

theorem Watched.note (h : Watched s held) (he : Plain s e) : Watched (s.note e) held := by
  refine h.later (later_note s e) ⟨h.counted.inFlight, h.counted.idle⟩ (note_or he.fits) h.inside
    (fun _ => .inl) fun j => ?_
  rw [exits_note (he.exited j)]
  exact h.once j

theorem Watched.single (h : Watched s (held + F)) (ht : t ∈ held) : Licence s t :=
  h.licence t (Multiset.mem_add.mpr (.inl ht))

theorem plain_calls (haccepting : s.drain.accepting = false) (j : ℕ) (what : Teardown) :
    Plain s (.calls j what s.drain.accepting) := by
  rw [haccepting]
  exact ⟨trivial, nofun⟩

variable {φ : Server → Prop} {N : watch.Assn} {mode : ShutdownMode}

theorem holds_note_has {e : Server → ServerEvent}
    (he : ∀ s, Licence s t → φ s → Plain s (e s)) :
    watch.Holds me (fun s h _ => t ∈ h ∧ φ s) (update fun s => s.note (e s))
      (watch.returns fun _ => Has t) := by
  rintro s h F l hinv ⟨ht, hφ⟩
  have hw : Watched s (h + F) := hinv
  exact ⟨fun _ _ => rfl, h, hw.note (he s (hw.single ht) hφ), (), rfl, ht⟩

theorem holds_note_closed {e : Server → ServerEvent} (he : ∀ s, Licence s t → Plain s (e s))
    (hclosed : ∀ s, Licence s t → Settled (s.note (e s)) j) :
    watch.Holds me (Has t) (update fun s => s.note (e s))
      (watch.returns fun _ _ h _ => t ∈ h ∧ (.closed j : Tok) ∈ h) := by
  intro s (h : Multiset Tok) (F : Multiset Tok) l hinv ht
  have hw : Watched s (h + F) := hinv
  have hlicence := hw.single ht
  have hadd : Watched (s.note (e s)) (Tok.closed j ::ₘ h + F) := by
    rw [Multiset.cons_add]
    exact (hw.note (he s hlicence)).add (hclosed s hlicence) (fun _ => rfl) nofun
  exact ⟨fun _ _ => rfl, Tok.closed j ::ₘ h, hadd, (), rfl, Multiset.mem_cons_of_mem ht,
    Multiset.mem_cons_self _ _⟩

/-! ## Subsystems -/

/-- The token licenses calls into the subsystems. -/
def Licensed (t : Tok) : Prop := ∀ s, Licence s t → s.drain.accepting = false

theorem licensed_turn (j : ℕ) (mode : ShutdownMode) : Licensed (.turn j mode) := fun _ h => h.1

theorem licensed_crew (j : ℕ) : Licensed (.crew j) := fun _ h => h.1

theorem holds_call (ht : Licensed t) (what : Teardown) : watch.Holds me (Has t) (call j what) fun r s h l =>
    Has t s h l ∧ ∀ e, r = .error e → ∃ s', answers (.teardown j what) s' (.error e) := by
  have hnote : watch.Holds me (Has t) (update fun s => s.note (.calls j what s.drain.accepting))
      (watch.returns fun _ => Has t) :=
    (holds_note_has (φ := fun _ => True) fun s hs _ => plain_calls (ht s hs) j what).weaken_pre
      fun _ _ _ _ _ hp => ⟨hp, trivial⟩
  refine hnote.bind_returns fun _ => ?_
  refine Contract.Holds.ask (fun _ _ _ _ _ _ => ⟨trivial, trivial⟩) ?_
  rintro r s h F l - ⟨_, _, ⟨_, _, hp⟩, -, hrely⟩
  refine ⟨hp, ?_⟩
  rintro e rfl
  exact ⟨s, hrely⟩

theorem holds_except {c h : Async Unit} (hc : watch.Holds me N c fun _ => N)
    (hh : watch.Holds me N h (Soberly N)) : watch.Holds me N (except c h) (Soberly N) := by
  refine Contract.Holds.tryCatch hc (fun _ _ _ _ _ _ hp => ⟨hp, nofun⟩) fun e => ?_
  split
  · exact hh
  · rename_i he
    exact .fail fun _ _ _ _ _ hp => ⟨hp, sober_error (by simpa using he)⟩

theorem holds_pass : watch.Holds me N (pure () : Async Unit) (Soberly N) :=
  .ret fun _ _ _ _ _ hp => ⟨hp, nofun⟩

theorem holds_read {f : Server → α} {k : α → Async β} {post : Except Exc β → watch.Assn}
    (hk : ∀ a, watch.Holds me N (k a) post) : watch.Holds me N (read f >>= k) post :=
  fun s h F l hinv hp => ⟨fun _ _ => rfl, h, hinv, hk _ s h F l hinv hp⟩

theorem holds_stopTasks (ht : Licensed t) : watch.Holds me (Has t) (stopTasks j) (Soberly (Has t)) := by
  refine holds_read fun tasks => ?_
  split
  · exact holds_except ((holds_call ht _).weaken_post fun _ _ _ _ _ _ hp => hp.1) holds_pass
  · exact holds_pass

theorem holds_runHooks (ht : Licensed t) (hooks : List String) :
    watch.Holds me (Has t) (runHooks j hooks) (Soberly (Has t)) := by
  induction hooks with
  | nil => exact holds_pass
  | cons name rest ih =>
    have hhook : watch.Holds me (Has t) (call j (.hook name)) fun _ => Has t :=
      (holds_call ht _).weaken_post fun _ _ _ _ _ _ hp => hp.1
    exact (holds_except hhook holds_pass).bind (fun _ => ih.weaken_pre fun _ _ _ _ _ hp => hp.1)
      fun _ _ _ _ _ _ hp => ⟨hp.1, hp.2.error⟩

/-- `_close_db`: it ends with the database closed or an error of it logged, or passes on an exception that is
none of the database. -/
theorem holds_closeDb (ht : Licensed t) (flush : Bool) :
    watch.Holds me (Has t) (closeDb j flush) fun r _ h _ => t ∈ h ∧ (r = .ok () → (.closed j : Tok) ∈ h) ∧ Sober r := by
  have hflush : watch.Holds me (Has t) (Coro.when flush (call j .flushWrites)) fun _ => Has t :=
    .when (fun _ => (holds_call ht _).weaken_post fun _ _ _ _ _ _ hp => hp.1) fun _ _ _ _ _ _ hp => hp
  have hcall : watch.Holds me (Has t) (call j .closeDb) fun _ => Has t :=
    (holds_call ht _).weaken_post fun _ _ _ _ _ _ hp => hp.1
  have hclosed : watch.Holds me (Has t) (record (.closed j))
      (watch.returns fun _ _ h _ => t ∈ h ∧ (.closed j : Tok) ∈ h) :=
    holds_note_closed (e := fun _ => .closed j) (fun _ _ => ⟨trivial, nofun⟩) fun _ _ =>
      .inl (.inl List.mem_cons_self)
  have hdone : watch.Holds me (Has t) (record (.closed j)) fun r _ h _ => t ∈ h ∧ (r = .ok () → (.closed j : Tok) ∈ h) := by
    refine hclosed.weaken_post ?_
    rintro _ _ _ _ _ _ ⟨_, rfl, hp⟩
    exact ⟨hp.1, fun _ => hp.2⟩
  have hclose := hflush.bind (fun _ => hcall.bind (fun _ => hdone) fun _ _ _ _ _ _ hp => ⟨hp, nofun⟩)
    fun _ _ _ _ _ _ hp => ⟨hp, nofun⟩
  refine Contract.Holds.tryCatch hclose (fun _ _ _ _ _ _ hp => ⟨hp.1, hp.2, nofun⟩) fun e => ?_
  split
  · have herror : watch.Holds me (Has t) (record (.closeError j))
        (watch.returns fun _ _ h _ => t ∈ h ∧ (.closed j : Tok) ∈ h) :=
      holds_note_closed (e := fun _ => .closeError j) (fun _ _ => ⟨trivial, nofun⟩) fun _ _ =>
        .inl (.inr List.mem_cons_self)
    refine herror.conseq (fun _ _ _ _ _ hp => hp.1) ?_
    rintro _ _ _ _ _ _ ⟨_, rfl, hp⟩
    exact ⟨hp.1, fun _ => hp.2, nofun⟩
  · rename_i he
    exact .fail fun _ _ _ _ _ hp => ⟨hp.1, nofun, sober_error (by simpa using he)⟩

theorem holds_killDb :
    watch.Holds me (Has (.crew j)) (killDb j) fun _ _ h _ => .crew j ∈ h ∧ (.closed j : Tok) ∈ h := by
  refine Contract.Holds.tryCatch (holds_closeDb (licensed_crew j) false) (fun _ _ _ _ _ _ hp => ⟨hp.1, hp.2.1 rfl⟩) fun e => ?_
  have hcancelled : watch.Holds me (Has (.crew j)) (record (.closeCancelled j))
      (watch.returns fun _ _ h _ => .crew j ∈ h ∧ (.closed j : Tok) ∈ h) :=
    holds_note_closed (e := fun _ => .closeCancelled j) (fun _ hl => ⟨hl.2, nofun⟩) fun _ _ =>
      .inr List.mem_cons_self
  exact (hcancelled.weaken_pre fun _ _ _ _ _ hp => hp.1).bind_returns fun _ => .fail fun _ _ _ _ _ hp => hp

/-! ## The wait for the requests in flight -/

/-- The wait for the event: it was set at some time since it began, and then nothing was in flight. -/
theorem holds_waitEvent (ht : Licensed t) : watch.Holds me (Has t)
    (do let d ← read (·.drain); if d.idle then pure () else query (.idle d.releases))
    fun r s h _ => t ∈ h ∧ (r = .ok () → Drained s) ∧ Sober r := by
  intro s (h : Multiset Tok) (F : Multiset Tok) l hinv hmem
  have hw : Watched s (h + F) := hinv
  have haccepting := ht s (hw.single hmem)
  by_cases hidle : s.drain.idle = true
  · have hnone : s.inside = [] := by
      rw [hw.counted.idle, decide_eq_true_iff, hw.counted.inFlight] at hidle
      exact List.length_eq_zero_iff.mp hidle
    refine ⟨fun _ _ => rfl, h, hinv, ?_⟩
    show watch.wp me _ (if s.drain.idle then pure () else query (.idle s.drain.releases)) s h F l
    rw [if_pos hidle]
    exact ⟨hmem, fun _ => ⟨haccepting, fun path hpath => absurd (hnone ▸ hpath) List.not_mem_nil⟩, nofun⟩
  · have hlicence : Licence s (.waiting s.drain.releases) :=
      ⟨haccepting, le_refl _, fun h => absurd h (lt_irrefl _)⟩
    have hadd : Watched s (Tok.waiting s.drain.releases ::ₘ h + F) := by
      rw [Multiset.cons_add]
      exact hw.add hlicence (fun _ => rfl) nofun
    refine ⟨fun _ _ => rfl, Tok.waiting s.drain.releases ::ₘ h, hadd, ?_⟩
    show watch.wp me _ (if s.drain.idle then pure () else query (.idle s.drain.releases)) s _ F l
    rw [if_neg hidle]
    have hask : watch.Holds me (fun _ h _ => (.waiting s.drain.releases : Tok) ∈ h ∧ t ∈ h)
      (query (.idle s.drain.releases))
        fun r s h _ => t ∈ h ∧ (r = .ok () → Drained s) ∧ Sober r := by
      refine Contract.Holds.ask (fun _ _ _ _ _ _ => ⟨trivial, trivial⟩) ?_
      rintro r u h F l hinv ⟨_, _, ⟨_, _, hwaiting, hmem⟩, -, hrely⟩
      have hu : Watched u (h + F) := hinv
      obtain ⟨haccepting, -, hcalm⟩ := hu.single hwaiting
      refine ⟨hmem, ?_, ?_⟩
      · rintro rfl
        exact ⟨haccepting, hcalm hrely⟩
      · rintro e rfl
        exact hrely
    exact hask s _ F l hadd ⟨Multiset.mem_cons_self _ _, Multiset.mem_cons_of_mem hmem⟩

theorem holds_waitFor {N : α → watch.Assn} {M : watch.Assn} {c : Async α} {pre : watch.Assn} (depth : ℕ)
    (hc : watch.Holds me pre c fun r s h l => (∀ a, r = .ok a → N a s h l) ∧ M s h l ∧ Sober r) :
    watch.Holds me pre (waitFor depth c) fun r s h l => (∀ a, r = .ok a → N a s h l) ∧ M s h l ∧
      ∀ e, r = .error e → e = .timeout ∨ e.isException = false := by
  refine Contract.Holds.tryCatch hc (fun a _ _ _ _ _ hp => ⟨hp.1, hp.2.1, nofun⟩) fun e => ?_
  split
  · refine .fail fun _ _ _ _ _ hp => ⟨nofun, hp.2.1, ?_⟩
    rintro _ ⟨⟩
    exact .inl rfl
  · refine .fail fun _ _ _ _ _ hp => ⟨nofun, hp.2.1, ?_⟩
    rintro _ ⟨⟩
    exact .inr (hp.2.2 e rfl)

/-- `_wait_for_in_flight`. -/
theorem holds_waitForInFlight (ht : Licensed t) :
    watch.Holds me (Has t) (waitForInFlight j) (Soberly (Has t)) := by
  have hidle : watch.Holds me (Has t) (waitIdle 1) fun r s h _ =>
      t ∈ h ∧ (r = .ok true → Drained s) ∧ Sober r := by
    have hevent : watch.Holds me (Has t) _ _ :=
      holds_waitFor (N := fun _ : Unit => fun s _ _ => Drained s) (M := Has t) 1
      ((holds_waitEvent ht).weaken_post fun r _ _ _ _ _ hp => ⟨fun _ h => hp.2.1 h, hp.1, hp.2.2⟩)
    refine Contract.Holds.tryCatch (N := fun r s h _ => t ∈ h ∧ (r = .ok true → Drained s) ∧
      ∀ e, r = .error e → e = .timeout ∨ e.isException = false) ?_
        (fun _ _ _ _ _ _ hp => ⟨hp.1, hp.2.1, nofun⟩) fun e => ?_
    · refine hevent.bind (fun _ => .ret fun _ _ _ _ _ hp => ⟨hp.2.1, fun _ => hp.1 () rfl, nofun⟩)
        fun e _ _ _ _ _ hp => ⟨hp.2.1, nofun, ?_⟩
      rintro _ ⟨⟩
      exact hp.2.2 e rfl
    · split
      · exact .ret fun _ _ _ _ _ hp => ⟨hp.1, nofun, nofun⟩
      · rename_i hne
        exact .fail fun _ _ _ _ _ hp => ⟨hp.1, nofun, sober_error ((hp.2.2 e rfl).resolve_left hne)⟩
  refine hidle.bind (fun idle => ?_) fun _ _ _ _ _ _ hp => ⟨hp.1, hp.2.2.error⟩
  have hwaited : watch.Holds me (fun s h _ => t ∈ h ∧ (idle = true → Drained s)) (record (.waited j idle))
      (watch.returns fun _ => Has t) := by
    refine holds_note_has (e := fun _ => .waited j idle) fun s _ hcalm => ⟨?_, nofun⟩
    cases idle with
    | false => trivial
    | true => exact hcalm rfl
  refine hwaited.conseq (fun _ _ _ _ _ hp => ⟨hp.1, fun h => hp.2.1 (by rw [h])⟩) ?_
  rintro _ _ _ _ _ _ ⟨_, rfl, hp⟩
  exact ⟨hp, nofun⟩

/-! ## The modes -/

/-- The part of a mode that a time limit is set to. -/
def Flushed (t : Tok) (j : ℕ) (r : Except Exc Unit) : watch.Assn := fun _ h _ =>
    t ∈ h ∧ (r = .ok () → (.closed j : Tok) ∈ h)

/-- The end of a mode: the database is closed, or an exception is on its way. -/
def Down (t : Tok) (j : ℕ) (r : Except Exc Unit) : watch.Assn := fun s h _ =>
    t ∈ h ∧ (r = .ok () → Settled s j)

theorem closed_of_flushed {s : Server} {h F : Multiset Tok} (hinv : Watched s (h + F))
    (hclosed : (.closed j : Tok) ∈ h) : Settled s j := hinv.single hclosed

theorem holds_then {c : Async Unit} {k : Unit → Async Unit} {post : Except Exc Unit → watch.Assn}
    (hc : watch.Holds me (Has t) c (Soberly (Has t))) (hk : watch.Holds me (Has t) (k ()) post)
    (he : ∀ e s h l, t ∈ h → e.isException = false → post (.error e) s h l) :
    watch.Holds me (Has t) (c >>= k) post :=
  hc.bind (fun _ => hk.weaken_pre fun _ _ _ _ _ hp => hp.1) fun e _ _ _ _ _ hp => he e _ _ _ hp.1 (hp.2 e rfl)

theorem holds_stopAndFlush (ht : Licensed t) :
    watch.Holds me (Has t) (stopAndFlush j) fun r s h l => Flushed t j r s h l ∧ Sober r := by
  have hgather : watch.Holds me (Has t) (call j .agentsAndKernel) (Soberly (Has t)) :=
    (holds_call ht _).weaken_post fun _ _ _ _ _ _ hp => ⟨hp.1, fun e he => (hp.2 e he).elim fun _ h => h⟩
  refine holds_then (holds_waitForInFlight ht)
    (holds_then (holds_stopTasks ht) (holds_then hgather ?_ ?_) ?_) ?_
  · exact (holds_closeDb ht true).weaken_post fun _ _ _ _ _ _ hp => ⟨⟨hp.1, hp.2.1⟩, hp.2.2⟩
  all_goals exact fun _ _ _ _ hmem he => ⟨⟨hmem, nofun⟩, sober_error he⟩

theorem holds_drainAndFlush (ht : Licensed t) : watch.Holds me (Has t) (drainAndFlush j) (Flushed t j) := by
  have hcall {what : Teardown} {k : Unit → Async Unit} (hk : watch.Holds me (Has t) (k ()) (Flushed t j)) :
      watch.Holds me (Has t) (call j what >>= k) (Flushed t j) :=
    (holds_call ht what).bind (fun _ => hk.weaken_pre fun _ _ _ _ _ hp => hp.1)
      fun _ _ _ _ _ _ hp => ⟨hp.1, nofun⟩
  refine holds_then (holds_waitForInFlight ht) (holds_then (holds_stopTasks ht) ?_ ?_) ?_
  · refine hcall (hcall (holds_read fun hooks => holds_then (holds_runHooks ht hooks) ?_ ?_))
    · exact (holds_closeDb ht true).weaken_post fun _ _ _ _ _ _ hp => ⟨hp.1, hp.2.1⟩
    · exact fun _ _ _ _ hmem _ => ⟨hmem, nofun⟩
  all_goals exact fun _ _ _ _ hmem _ => ⟨hmem, nofun⟩

/-- The tokens of the children of a forced shutdown. -/
def Crewed (j : ℕ) (mode : ShutdownMode) (n : ℕ) : watch.Assn :=
  fun _ h _ => ∃ h₀, (.turn j mode : Tok) ∈ h₀ ∧ h = Multiset.replicate n (.crew j) + h₀

theorem replicate_crew (j n : ℕ) (h : Multiset Tok) :
    Multiset.replicate (n + 1) (.crew j) + h = {Tok.crew j} + (Multiset.replicate n (.crew j) + h) := by
  rw [Multiset.replicate_succ, Multiset.cons_add]
  rfl

theorem holds_start_crew {n : ℕ} {c : Job} (hc : watch.gives c = {Tok.crew j})
    {k : Γ.Handle → Async Unit}
    {post : Except Exc Unit → watch.Assn} (hk : ∀ i, watch.Holds me (Crewed j mode n) (k (i, c)) post) :
    watch.Holds me (Crewed j mode (n + 1)) (Coro.start c >>= k) post := by
  intro s (h : Multiset Tok) (F : Multiset Tok) l hinv hcrewed
  obtain ⟨(h₀ : Multiset Tok), hmem, hh⟩ := hcrewed
  have hh : h = {Tok.crew j} + (Multiset.replicate n (.crew j) + h₀) := hh.trans (replicate_crew j n h₀)
  subst hh
  refine ⟨trivial, (Multiset.replicate n (.crew j) + h₀ : Multiset Tok), hc ▸ rfl, fun i => ?_⟩
  have hw : Watched s ({Tok.crew j} + (Multiset.replicate n (.crew j) + h₀) + F) := hinv
  have hnext : Watched s (Multiset.replicate n (.crew j) + h₀ + ({Tok.crew j} + F)) := by
    have heq : Multiset.replicate n (Tok.crew j) + h₀ + ({Tok.crew j} + F) = {Tok.crew j} +
      (Multiset.replicate n (.crew j) + h₀) + F := by abel
    rw [heq]
    exact hw
  rw [hc]
  exact hk i s _ _ l hnext ⟨h₀, hmem, rfl⟩

/-- `_forced_shutdown`: the child that closes the database has ended. -/
theorem holds_forcedShutdown (mode : ShutdownMode) : watch.Holds me (Has (.turn j mode)) (forcedShutdown j)
    fun r s h l => Down (.turn j mode) j r s h l ∧ Sober r := by
  have hcrew : watch.Holds me (Has (.turn j mode)) (record (.killing j))
      (watch.returns fun _ => Crewed j mode 3) := by
    intro s (h : Multiset Tok) (F : Multiset Tok) l hinv hmem
    have hw : Watched s (h + F) := hinv
    have hnote : Watched (s.note (.killing j)) (h + F) := hw.note ⟨trivial, nofun⟩
    have hcrew : Licence (s.note (.killing j)) (.crew j) := ⟨(hw.single hmem).1, List.mem_cons_self⟩
    have hadd : Watched (s.note (.killing j)) (Multiset.replicate 3 (.crew j) + h + F) := by
      have hthree := ((hnote.add hcrew (fun _ => rfl) nofun).add hcrew (fun _ => rfl) nofun).add
        hcrew (fun _ => rfl) nofun
      simpa [Multiset.replicate_succ, Multiset.cons_add] using hthree
    exact ⟨fun _ _ => rfl, (Multiset.replicate 3 (Tok.crew j) + h : Multiset Tok), hadd, (), rfl, h,
      hmem, rfl⟩
  refine hcrew.bind_returns fun _ => ?_
  refine holds_start_crew rfl fun agents => holds_start_crew rfl fun kernel =>
    holds_start_crew rfl fun db => ?_
  have hwait : watch.Holds me (Crewed j mode 0)
    (Coro.wait .all [(agents, .killAgents j), (kernel, .killKernel j), (db, .closeDb j)])
      fun r s h _ => (.turn j mode : Tok) ∈ h ∧ (∀ a, r = .ok a → Settled s j) ∧ Sober r := by
    refine Contract.Holds.ask (fun _ _ _ _ _ _ => ⟨trivial, trivial⟩) ?_
    rintro r s h F l - ⟨_, _, ⟨_, _, h₀, hmem, rfl⟩, hchildren, hrely⟩
    refine ⟨Multiset.mem_add.mpr (.inr hmem), ?_, ?_⟩
    · rintro (a : List Γ.Ending) rfl
      obtain ⟨o, ho⟩ := hchildren.2.2.2 rfl (db, .closeDb j) (by simp)
      exact hrely _ ho j rfl
    · rintro e rfl
      obtain rfl : e = .cancelled := hchildren
      rfl
  exact hwait.bind (fun _ => .ret fun _ _ _ _ _ hp => ⟨⟨hp.1, fun _ => hp.2.1 _ rfl⟩, nofun⟩)
    fun _ _ _ _ _ _ hp => ⟨⟨hp.1, nofun⟩, hp.2.2.error⟩

/-- `_immediate_shutdown`. -/
theorem holds_immediateShutdown (mode : ShutdownMode) :
    watch.Holds me (Has (.turn j mode)) (immediateShutdown j)
    fun r s h l => Down (.turn j mode) j r s h l ∧ Sober r := by
  have hflush : watch.Holds me (Has (.turn j mode)) _ _ :=
    holds_waitFor (N := fun _ : Unit => fun _ h _ => (.closed j : Tok) ∈ h)
    (M := Has (.turn j mode)) 0
    ((holds_stopAndFlush (j := j) (licensed_turn j mode)).weaken_post fun _ _ _ _ _ _ hp =>
      ⟨fun _ h => hp.1.2 h, hp.1.1, hp.2⟩)
  refine Contract.Holds.tryCatch hflush (fun _ _ _ _ _ hinv hp =>
    ⟨⟨hp.2.1, fun _ => closed_of_flushed hinv (hp.1 () rfl)⟩, nofun⟩) fun e => ?_
  split
  · exact (holds_forcedShutdown mode).weaken_pre fun _ _ _ _ _ hp => hp.2.1
  · rename_i hne
    exact .fail fun _ _ _ _ _ hp => ⟨⟨hp.2.1, nofun⟩, sober_error ((hp.2.2 e rfl).resolve_left hne)⟩

theorem holds_gracefulShutdown (mode : ShutdownMode) :
    watch.Holds me (Has (.turn j mode)) (gracefulShutdown j) (Down (.turn j mode) j) := by
  have hflush : watch.Holds me (Has (.turn j mode)) (waitFor 0 (drainAndFlush j))
      (Flushed (.turn j mode) j) := by
    refine Contract.Holds.tryCatch (holds_drainAndFlush (licensed_turn j mode)) (fun _ => .rfl) fun e => ?_
    split <;> exact .fail fun _ _ _ _ _ hp => ⟨hp.1, nofun⟩
  refine Contract.Holds.tryCatch hflush (fun _ _ _ _ _ hinv hp =>
    ⟨hp.1, fun _ => closed_of_flushed hinv (hp.2 rfl)⟩) fun e => ?_
  split
  · exact (holds_immediateShutdown mode).conseq (fun _ _ _ _ _ hp => hp.1) fun _ _ _ _ _ _ hp => hp.1
  · exact .fail fun _ _ _ _ _ hp => ⟨hp.1, nofun⟩

theorem holds_teardown (mode : ShutdownMode) : watch.Holds me (Has (.turn j mode)) (teardown j mode)
    fun r s h l => Down (.turn j mode) j r s h l ∧ (mode = .graceful ∨ Sober r) := by
  cases mode with
  | graceful => exact (holds_gracefulShutdown _).weaken_post fun _ _ _ _ _ _ hp => ⟨hp, .inl rfl⟩
  | immediate => exact (holds_immediateShutdown _).weaken_post fun _ _ _ _ _ _ hp => ⟨hp.1, .inr hp.2⟩
  | forced => exact (holds_forcedShutdown _).weaken_post fun _ _ _ _ _ _ hp => ⟨hp.1, .inr hp.2⟩

/-! ## One shutdown -/

/-- A change of the shutdowns that is no business of the contract. -/
structure Same (s u : Server) : Prop where
  drain : u.drain = s.drain
  inside : u.inside = s.inside
  journal : u.journal = s.journal
  progress : ∀ j, progress u j = progress s j
  mode : ∀ j m, modeOf s j = some m → modeOf u j = some m
  length : s.shutdowns.length ≤ u.shutdowns.length

theorem Same.later (h : Same s u) : Later s u where
  length := h.length
  begun j mode hs := ⟨(h.progress j).trans hs.1, h.mode j mode hs.2⟩
  accepting hs := (congrArg DrainController.accepting h.drain).trans hs
  stopped j hj := .inl ((h.progress j).symm.trans hj)
  releases _ := .inl (congrArg DrainController.releases h.drain).symm
  calm _ hs path hpath := hs path (h.inside ▸ hpath)
  journal := h.journal ▸ List.Subset.refl _

theorem Same.watched (h : Same s u) (hs : Watched s held) : Watched u held := by
  have hapart : Apart s u := ⟨h.inside, congrArg DrainController.inFlight h.drain,
    congrArg DrainController.idle h.drain⟩
  refine hs.later h.later (hapart.counted hs.counted) (fun e he => .inl (h.journal ▸ he))
    (fun path => h.inside ▸ hs.inside path) (fun _ => .inl) fun j => ?_
  have hexits : exits u j = exits s j := congrArg _ h.journal
  rw [hexits, h.progress]
  exact hs.once j

theorem getElem?_setShutdown (s : Server) (j i : ℕ) (f : EmergencyShutdown → EmergencyShutdown) :
    (s.setShutdown j f).shutdowns[i]? = if j = i then (s.shutdowns[i]?).map f else s.shutdowns[i]? := by
  simp only [setShutdown, List.getElem?_modify]
  split_ifs <;> simp

/-- The end of the event leaves the mode and the progress. -/
theorem same_complete (s : Server) (j : ℕ) (ms : ℤ) : Same s (s.complete j ms) := by
  refine ⟨rfl, rfl, rfl, fun i => ?_, fun i m hm => ?_, ?_⟩
  · unfold progress complete
    rw [getElem?_setShutdown]
    split_ifs
    · cases s.shutdowns[i]? <;> rfl
    · rfl
  · unfold modeOf complete at *
    rw [getElem?_setShutdown]
    split_ifs
    · cases hx : s.shutdowns[i]? with
      | none =>
        rw [hx] at hm
        exact hm
      | some x =>
        rw [hx] at hm
        cases he : x.event with
        | none =>
          simp only [Option.bind_some, he, Option.map_none] at hm
          exact nomatch hm
        | some e => simpa [he] using hm
    · exact hm
  · simp [complete, setShutdown]

theorem same_writeAuditLog (s : Server) (j : ℕ) : Same s (s.writeAuditLog j) := by
  have hrefl : Same s s := ⟨rfl, rfl, rfl, fun _ => rfl, fun _ _ h => h, le_refl _⟩
  unfold writeAuditLog
  split
  · exact hrefl
  · split
    · exact hrefl
    · exact ⟨rfl, rfl, rfl, fun _ => rfl, fun _ _ h => h, le_refl _⟩

/-- One more shutdown, which is not in progress. -/
theorem same_append (s : Server) {x : EmergencyShutdown} (hx : x.inProgress = false) (current : Option ℕ) :
    Same s { s with shutdowns := s.shutdowns ++ [x], current := current } := by
  have hget (i : ℕ) : (s.shutdowns ++ [x])[i]? = s.shutdowns[i]? ∨ s.shutdowns[i]? = none ∧
      ((s.shutdowns ++ [x])[i]? = some x ∨ (s.shutdowns ++ [x])[i]? = none) := by
    obtain hlt | hge := Nat.lt_or_ge i s.shutdowns.length
    · exact .inl (List.getElem?_append_left hlt)
    · refine .inr ⟨List.getElem?_eq_none hge, ?_⟩
      rw [List.getElem?_append_right hge]
      cases i - s.shutdowns.length with
      | zero => exact .inl rfl
      | succ n => exact .inr rfl
  refine ⟨rfl, rfl, rfl, fun i => ?_, fun i m hm => ?_, ?_⟩
  · unfold progress
    obtain h | ⟨hnone, h | h⟩ := hget i
    · rw [h]
    · rw [h, hnone]
      exact hx
    · rw [h, hnone]
  · unfold modeOf at *
    obtain h | ⟨hnone, -⟩ := hget i
    · rw [h]
      exact hm
    · rw [hnone] at hm
      exact nomatch hm
  · simp

theorem turns_cons (t : Tok) (held : Multiset Tok) (j : ℕ) :
    turns (t ::ₘ held) j = turns held j + (t.owns j).toNat := by
  unfold turns
  cases h : t.owns j with
  | false => rw [Multiset.countP_cons_of_neg _ (by simp [h])]; rfl
  | true => exact Multiset.countP_cons_of_pos (p := fun t : Tok => t.owns j = true) held h

/-- The shutdown is this task's, where none has begun, and the intake is closed. -/
theorem Watched.begin {event : ShutdownEvent} (h : Watched s held) (hlt : j < s.shutdowns.length)
    (hprogress : progress s j = false) :
    Watched (s.begin j event) (.turn j event.mode ::ₘ held) := by
  have hset (i : ℕ) : (s.begin j event).shutdowns[i]? =
      if j = i then (s.shutdowns[i]?).map fun x =>
        { x with inProgress := true, event := some event } else s.shutdowns[i]? :=
    getElem?_setShutdown s j i _
  have hbegun : Begun (s.begin j event) j event.mode := by
    constructor <;> simp [progress, modeOf, hset, List.getElem?_eq_getElem hlt]
  have hclosed : (s.begin j event).drain.accepting = false := DrainController.beginDrain_accepting _
  have hlater : Later s (s.begin j event) := by
    refine ⟨by simp [Server.begin, setShutdown], fun i mode hi => ?_, fun _ => hclosed, fun _ _ => .inr hclosed,
      fun _ => .inl (DrainController.beginDrain_releases _).symm, fun _ h => h, List.Subset.refl _⟩
    by_cases hij : j = i
    · subst hij
      exact absurd (hprogress.symm.trans hi.1) nofun
    · simpa [Begun, progress, modeOf, hset, hij] using hi
  have hapart : Apart s (s.begin j event) :=
    ⟨rfl, DrainController.beginDrain_inFlight _, DrainController.beginDrain_idle _⟩
  refine h.later hlater (hapart.counted h.counted) (fun _ => .inl) (fun path => ?_) (fun t ht => ?_) fun i => ?_
  · rw [count_cons_inside (t := .turn j event.mode) nofun]
    exact h.inside path
  · exact (Multiset.mem_cons.mp ht).elim (fun ht => .inr (ht ▸ ⟨hclosed, hbegun⟩)) .inl
  · have honce := h.once i
    rw [turns_cons]
    show exits s i + _ ≤ _
    by_cases hi : j = i
    · subst hi
      rw [hprogress, Bool.toNat_false] at honce
      rw [hbegun.1]
      simp only [Tok.owns, decide_true, Bool.toNat_true]
      omega
    · have hsame : progress (s.begin j event) i = progress s i := by
        rw [progress, hset, if_neg hi]
        rfl
      rw [hsame]
      simpa [Tok.owns, hi] using honce

/-- The process is asked to exit. -/
theorem Watched.exit {code : ℕ} (h : Watched s (.turn j mode ::ₘ held))
    (hcode : code = 0 ∧ Settled s j ∨ code = 1 ∧ mode = .graceful) :
    Watched (s.note (.exited j code)) held := by
  have hturn : Licence s (.turn j mode) := h.licence _ (Multiset.mem_cons_self _ _)
  have hfits : Fits s (.exited j code) := by
    obtain ⟨rfl, hclosed⟩ | ⟨rfl, rfl⟩ := hcode
    · exact hclosed
    · exact hturn.2
  refine h.later (later_note s _) ⟨h.counted.inFlight, h.counted.idle⟩ (note_or hfits) (fun path => ?_)
    (fun t ht => .inl (Multiset.mem_cons_of_mem ht)) fun i => ?_
  · have hinside := h.inside path
    rwa [count_cons_inside (t := .turn j mode) nofun] at hinside
  · have honce := h.once i
    rw [turns_cons] at honce
    have hcount : exits (s.note (.exited j code)) i = exits s i + (decide (j = i)).toNat := by
      by_cases hj : j = i
      · subst hj
        obtain ⟨rfl, -⟩ | ⟨rfl, -⟩ := hcode <;> simp [exits, Server.note]
      · simpa [hj] using exits_note (s := s) (e := .exited j code) fun code' h =>
          hj (ServerEvent.exited.inj h).1
    have howns : (Tok.turn j mode).owns i = decide (j = i) := rfl
    rw [howns] at honce
    rw [hcount]
    show _ ≤ (progress s i).toNat
    omega

theorem holds_exited {code : ℕ}
    (hcode : ∀ s, φ s → code = 0 ∧ Settled s j ∨ code = 1 ∧ mode = .graceful) :
    watch.Holds me (fun s h _ => (.turn j mode : Tok) ∈ h ∧ φ s) (record (.exited j code))
      fun _ _ _ _ => True := by
  intro s (h : Multiset Tok) (F : Multiset Tok) l hinv hp
  obtain ⟨hmem, hφ⟩ := hp
  obtain ⟨(h₀ : Multiset Tok), rfl⟩ := Multiset.exists_cons_of_mem hmem
  have hw : Watched s (.turn j mode ::ₘ (h₀ + F)) := by
    rw [← Multiset.cons_add]
    exact hinv
  exact ⟨fun _ _ => rfl, h₀, hw.exit (hcode s hφ), trivial⟩

theorem holds_look {f : Server → α} {k : α → Async β} {pre : watch.Assn} {post : Except Exc β → watch.Assn}
    (hk : ∀ a, watch.Holds me (fun s h l => pre s h l ∧ a = f s) (k a) post) :
    watch.Holds me pre (read f >>= k) post :=
  fun s h F l hinv hp => ⟨fun _ _ => rfl, h, hinv, hk _ s h F l hinv ⟨hp, rfl⟩⟩

theorem holds_same {f : Server → Server} (hf : ∀ s, Same s (f s))
    (hφ : ∀ s, φ s → φ (f s)) :
    watch.Holds me (fun s h _ => t ∈ h ∧ φ s) (update f) (watch.returns fun _ s h _ => t ∈ h ∧ φ s) := by
  rintro s h F l hinv ⟨hmem, hp⟩
  exact ⟨fun _ _ => rfl, h, (hf s).watched hinv, (), rfl, hmem, hφ s hp⟩

theorem holds_begin {event : ShutdownEvent} :
    watch.Holds me (fun s h _ => (.known j : Tok) ∈ h ∧ progress s j = false)
      (update (·.begin j event))
      (watch.returns fun _ => Has (.turn j event.mode)) := by
  intro s (h : Multiset Tok) (F : Multiset Tok) l hinv hp
  obtain ⟨hmem, hprogress⟩ := hp
  have hw : Watched s (h + F) := hinv
  have hnext : Watched (s.begin j event) (.turn j event.mode ::ₘ h + F) := by
    rw [Multiset.cons_add]
    exact hw.begin (hw.single hmem) hprogress
  exact ⟨fun _ _ => rfl, (Tok.turn j event.mode ::ₘ h : Multiset Tok), hnext, (), rfl,
    Multiset.mem_cons_self _ _⟩

/-- `trigger`. -/
theorem holds_trigger (mode : ShutdownMode) (reason : ShutdownReason) (triggeredBy message : String) :
    watch.Holds me (Has (.known j)) (trigger j mode reason triggeredBy message) fun _ _ _ _ => True := by
  refine holds_look fun inProgress => ?_
  split
  · exact .ret fun _ _ _ _ _ _ => trivial
  · rename_i hprogress
    refine holds_read fun start => Contract.Holds.bind_returns
      (holds_begin.weaken_pre fun s h F l _ hp => ⟨hp.1, ?_⟩) fun _ => ?_
    · rw [Bool.not_eq_true] at hprogress
      exact hp.2.symm.trans hprogress
    have hbody : watch.Holds me (Has (.turn j mode)) (do
        teardown j mode
        update fun s => s.complete j ((s.now - start) * 1000).floor
        update (·.writeAuditLog j))
      fun r s h l => Down (.turn j mode) j r s h l ∧ (mode = .graceful ∨ Sober r) := by
      refine Contract.Holds.bind (N := fun r s h l =>
        Down (.turn j mode) j r s h l ∧ (mode = .graceful ∨ Sober r))
        (holds_teardown mode) (fun _ => ?_)
          fun e _ _ _ _ _ hp => ⟨⟨hp.1.1, nofun⟩, hp.2.imp id Sober.error⟩
      have hcomplete : watch.Holds me _ _ _ := holds_same (t := .turn j mode) (φ := (Settled · j))
        (fun s => same_complete s j ((s.now - start) * 1000).floor)
        fun s hs => (same_complete s j _).later.closed hs
      have haudit : watch.Holds me _ _ _ := holds_same (t := .turn j mode) (φ := (Settled · j))
        (fun s => same_writeAuditLog s j)
        fun s hs => (same_writeAuditLog s j).later.closed hs
      refine Contract.Holds.bind_returns (hcomplete.weaken_pre fun _ _ _ _ _ hp =>
        ⟨hp.1.1, hp.1.2 rfl⟩) fun _ => haudit.weaken_post ?_
      rintro _ _ _ _ _ _ ⟨_, rfl, hmem, hclosed⟩
      exact ⟨⟨hmem, fun _ => hclosed⟩, .inr nofun⟩
    refine Contract.Holds.handle hbody (fun _ => ?_) fun e => ?_
    · exact (holds_exited (φ := (Settled · j)) fun s hs => .inl ⟨rfl, hs⟩).weaken_pre
        fun _ _ _ _ _ hp => ⟨hp.1.1, hp.1.2 rfl⟩
    · split
      · rename_i he
        refine (holds_exited (φ := fun _ => mode = .graceful) fun s hs => .inr ⟨rfl, hs⟩).weaken_pre
          fun _ _ _ _ _ hp => ⟨hp.1.1, ?_⟩
        exact hp.2.resolve_right fun h => absurd (he.symm.trans (h e rfl)) nofun
      · exact .fail fun _ _ _ _ _ _ => trivial

/-! ## Requests -/

theorem calm_enter (hpath : allowedPath path = true) (h : Calm s) : Calm (s.enter path) := by
  intro p hp
  obtain rfl | hp := List.mem_cons.mp hp
  · exact hpath
  · exact h p hp

theorem calm_leave (h : Calm s) : Calm (s.leave path) := fun p hp =>
    h p (List.mem_of_mem_erase hp)

/-- A request is let in. -/
theorem Watched.enter (h : Watched s held)
    (hpath : s.drain.accepting = true ∨ allowedPath path = true) :
    Watched (s.enter path) (.inside path ::ₘ held) := by
  have hopen (hclosed : s.drain.accepting = false) : allowedPath path = true :=
    hpath.resolve_left fun h => nomatch h.symm.trans hclosed
  have hlater : Later s (s.enter path) :=
    ⟨le_refl _, fun _ _ h => h, id, fun _ => .inl, fun _ => .inl rfl, fun hclosed =>
      calm_enter (hopen hclosed), List.subset_cons_self _ _⟩
  have hfits : Fits (s.enter path) (.entered path s.drain.accepting) := by
    cases haccepting : s.drain.accepting with
    | false => exact hopen haccepting
    | true => trivial
  refine h.later hlater ⟨congrArg (· + 1) h.counted.inFlight, rfl⟩ (fun e he => ?_) (fun p => ?_)
    (mem_cons_or trivial) fun i => ?_
  · exact (List.mem_cons.mp he).elim (fun he => .inr (he ▸ hfits)) .inl
  · have hinside := h.inside p
    show (Tok.inside path ::ₘ held).count (.inside p) ≤ (path :: s.inside).count p
    by_cases hp : path = p
    · subst hp
      rw [Multiset.count_cons_self, List.count_cons_self]
      omega
    · rw [Multiset.count_cons_of_ne fun h => hp (Tok.inside.inj h).symm, List.count_cons_of_ne hp]
      exact hinside
  · rw [turns_cons]
    have hexits : exits (s.enter path) i = exits s i := List.countP_cons_of_neg (by simp)
    rw [hexits]
    exact h.once i

/-- A request is over: if it was the last one, only requests that are always let in can follow. -/
theorem Watched.leave (h : Watched s (.inside path ::ₘ held)) :
    Watched (s.leave path) held := by
  have hmem : path ∈ s.inside := by
    have hinside := h.inside path
    rw [Multiset.count_cons_self] at hinside
    exact List.count_pos_iff.mp (by omega)
  have hpos : 0 < s.drain.inFlight := by
    rw [h.counted.inFlight]
    exact List.length_pos_of_mem hmem
  have hleft : (s.leave path).drain.inFlight = (s.inside.erase path).length := by
    show s.drain.leave.inFlight = (s.inside.erase path).length
    rw [DrainController.leave_inFlight, List.length_erase_of_mem hmem, h.counted.inFlight]
  have hlater : Later s (s.leave path) := by
    refine ⟨le_refl _, fun _ _ h => h, DrainController.leave_accepting.trans, fun _ => .inl, fun _ => ?_, fun _ =>
      calm_leave, List.subset_cons_self _ _⟩
    refine (DrainController.leave_releases hpos h.counted.idle).imp Eq.symm ?_
    rintro ⟨hone, hmore⟩
    refine ⟨hmore ▸ Nat.lt_succ_self _, fun p hp => ?_⟩
    have hnone : (s.inside.erase path).length = 0 := by rw [List.length_erase_of_mem hmem, ← h.counted.inFlight, hone]
    have hp : p ∈ s.inside.erase path := hp
    rw [List.eq_nil_of_length_eq_zero hnone] at hp
    exact nomatch hp
  refine h.later hlater ⟨hleft, DrainController.leave_idle hpos h.counted.idle⟩ (fun e he => ?_) (fun p => ?_)
    (fun t ht => .inl (Multiset.mem_cons_of_mem ht)) fun i => ?_
  · exact (List.mem_cons.mp he).elim (fun he => .inr (he ▸ trivial)) .inl
  · have hinside := h.inside p
    show held.count (.inside p) ≤ (s.inside.erase path).count p
    by_cases hp : path = p
    · subst hp
      rw [Multiset.count_cons_self] at hinside
      rw [List.count_erase_self]
      omega
    · rw [Multiset.count_cons_of_ne fun h => hp (Tok.inside.inj h).symm] at hinside
      rw [List.count_erase_of_ne (Ne.symm hp)]
      exact hinside
  · have hexits : exits (s.leave path) i = exits s i := List.countP_cons_of_neg (by simp)
    have honce := h.once i
    rw [turns_cons] at honce
    rw [hexits]
    exact honce

/-- The request's token, if it has one. -/
def Keeps (o : Option Tok) : watch.Assn := fun _ h _ => ∀ t ∈ o, t ∈ h

variable {o : Option Tok}

theorem holds_request_query (q : Query) : watch.Holds me (Keeps o) (query q) fun _ => Keeps o := by
  refine Contract.Holds.ask (fun _ _ _ _ _ _ => ⟨trivial, trivial⟩) ?_
  rintro r s h F l - ⟨_, _, ⟨_, _, hp⟩, -, -⟩
  exact hp

/-- `POST /admin/shutdown`. -/
theorem holds_triggerShutdown (order : ShutdownOrder) : watch.Holds me (Keeps o) (triggerShutdown order) fun _ => Keeps o := by
  refine holds_read fun busy => ?_
  split
  · exact .ret fun _ _ _ _ _ hp => hp
  · refine holds_look fun n => ?_
    have happend : watch.Holds me (fun s h l => Keeps o s h l ∧ n = s.shutdowns.length)
        (update fun s => { s with shutdowns := s.shutdowns ++ [{}], current := some n })
        (watch.returns fun _ _ h _ => ∃ h₀, h = Tok.known n ::ₘ h₀ ∧ ∀ t ∈ o, t ∈ h₀) := by
      intro s (h : Multiset Tok) (F : Multiset Tok) l hinv hp
      obtain ⟨hkeeps, rfl⟩ := hp
      have hw : Watched s (h + F) := hinv
      have hnext : Watched { s with shutdowns := s.shutdowns ++ [{}], current := some s.shutdowns.length } (Tok.known s.shutdowns.length ::ₘ h + F) := by
        rw [Multiset.cons_add]
        refine ((same_append s rfl _).watched hw).add ?_ (fun _ => rfl) nofun
        show s.shutdowns.length < (s.shutdowns ++ [({} : EmergencyShutdown)]).length
        simp
      exact ⟨fun _ _ => rfl, (Tok.known s.shutdowns.length ::ₘ h : Multiset Tok), hnext, (), rfl, h,
        rfl, hkeeps⟩
    refine happend.bind_returns fun _ => ?_
    intro s (h : Multiset Tok) (F : Multiset Tok) l hinv hp
    obtain ⟨(h₀ : Multiset Tok), rfl, hkeeps⟩ := hp
    refine ⟨trivial, h₀, rfl, fun i => ?_⟩
    exact hkeeps

theorem holds_app (scope : Scope) : watch.Holds me (Keeps o) (app scope) fun _ => Keeps o := by
  refine (holds_request_query _).bind (fun _ => ?_) fun _ => .rfl
  split
  · exact (holds_triggerShutdown _).bind (fun _ => holds_request_query _) fun _ => .rfl
  · exact .ret fun _ _ _ _ _ hp => hp

/-- `DrainMiddleware.__call__`. -/
theorem holds_serve (scope : Scope) : watch.Holds me (fun _ _ _ => True) (serve scope)
    fun _ _ _ _ => True := by
  unfold serve
  split
  · exact (holds_app (o := none) scope).conseq (fun _ _ _ _ _ _ => nofun) fun _ _ _ _ _ _ _ => trivial
  · refine holds_look fun accepting => ?_
    split
    · rename_i hrefused
      obtain ⟨hclosed, hpath⟩ : accepting = false ∧ allowedPath scope.path = false := by simpa using hrefused
      have hnote : watch.Holds me (fun s _ _ => True ∧ accepting = s.drain.accepting)
        (record (.refused scope.path))
          (watch.returns fun _ => Keeps none) := by
        rintro s h F l hinv ⟨-, haccepting⟩
        have hw : Watched s (h + F) := hinv
        have hplain : Plain s (.refused scope.path) := by
          exact ⟨⟨hpath, haccepting.symm.trans hclosed⟩, nofun⟩
        exact ⟨fun _ _ => rfl, h, hw.note hplain, (), rfl, nofun⟩
      refine hnote.bind_returns fun _ => (holds_request_query _).bind (fun _ => ?_)
        fun _ _ _ _ _ _ _ => trivial
      exact (holds_request_query _).weaken_post fun _ _ _ _ _ _ _ => trivial
    · rename_i hadmitted
      have hpath : accepting = true ∨ allowedPath scope.path = true := by
        cases accepting <;> simp_all
      have henter : watch.Holds me (fun s _ _ => True ∧ accepting = s.drain.accepting)
        (update (·.enter scope.path))
          (watch.returns fun _ => Keeps (some (.inside scope.path))) := by
        intro s (h : Multiset Tok) (F : Multiset Tok) l hinv hp
        have hw : Watched s (h + F) := hinv
        have hnext : Watched (s.enter scope.path) (Tok.inside scope.path ::ₘ h + F) := by
          rw [Multiset.cons_add]
          exact hw.enter (hpath.imp (fun h => hp.2.symm.trans h) id)
        refine ⟨fun _ _ => rfl, (Tok.inside scope.path ::ₘ h : Multiset Tok), hnext, (), rfl, ?_⟩
        rintro _ ⟨⟩
        exact Multiset.mem_cons_self _ _
      refine henter.bind_returns fun _ => Contract.Holds.tryFinally (V := fun _ _ _ _ _ => True)
        (holds_app scope) (fun r => ?_)
        (fun _ _ _ _ _ _ _ => trivial) fun _ _ _ _ _ _ _ _ => trivial
      intro s (h : Multiset Tok) (F : Multiset Tok) l hinv hkeeps
      obtain ⟨(h₀ : Multiset Tok), rfl⟩ := Multiset.exists_cons_of_mem (hkeeps _ rfl)
      have hw : Watched s (.inside scope.path ::ₘ (h₀ + F)) := by
        rw [← Multiset.cons_add]
        exact hinv
      exact ⟨fun _ _ => rfl, h₀, hw.leave, trivial⟩

/-! ## Every run -/

/-- A task at its beginning. -/
abbrev Fresh (i : ℕ) (c : Job) : watch.Assn := fun s h l => h = watch.gives c ∧ l = [] ∧ watch.begins (i, c) s

theorem holds_job (i : ℕ) (c : Job) : watch.Holds (i, c) (Fresh i c) (body i c) (watch.ends (i, c)) := by
  have hother {c : Job} {d : Async Unit} {N : Except Exc Unit → watch.Assn}
    (hc : ∀ j, c ≠ .closeDb j) (hd : watch.Holds (i, c) (Fresh i c) d N) :
      watch.Holds (i, c) (Fresh i c) d (watch.ends (i, c)) :=
    hd.weaken_post fun _ _ _ _ _ _ _ j hj => absurd hj (hc j)
  have hhas {c : Job} {t : Tok} (ht : watch.gives c = {t}) : watch.Entails (Fresh i c) (Has t) := by
    rintro s h F l - ⟨rfl, -, -⟩
    rw [ht]
    exact Multiset.mem_singleton_self t
  cases c with
  | request scope => exact hother nofun ((holds_serve scope).weaken_pre fun _ _ _ _ _ _ => trivial)
  | trigger j mode reason triggeredBy message => exact hother nofun ((holds_trigger mode reason triggeredBy message).weaken_pre (hhas rfl))
  | killAgents j =>
    refine hother (N := fun _ => Has (.crew j)) nofun ?_
    have hpart {c : Async Unit} (hc : watch.Holds (i, .killAgents j) (Has (.crew j)) c fun _ =>
      Has (.crew j)) :
        watch.Holds (i, .killAgents j) (Has (.crew j)) (except (waitFor 0 c) (pure ())) fun _ =>
          Has (.crew j) := by
      refine (holds_except (Contract.Holds.tryCatch hc (fun _ => .rfl) fun e =>
        ?_) holds_pass).weaken_post fun _ _ _ _ _ _ hp => hp.1
      split <;> exact .fail fun _ _ _ _ _ hp => hp
    refine Contract.Holds.bind ((hpart ?_).weaken_pre (hhas rfl)) (fun _ => hpart ?_) fun _ => .rfl
    · exact (holds_stopTasks (licensed_crew j)).weaken_post fun _ _ _ _ _ _ hp => hp.1
    · exact (holds_call (licensed_crew j) _).weaken_post fun _ _ _ _ _ _ hp => hp.1
  | killKernel j =>
    refine hother (N := fun _ => Has (.crew j)) nofun ?_
    refine ((holds_except (Contract.Holds.tryCatch (N := fun _ => Has (.crew j)) ?_
      (fun _ => .rfl) fun e => ?_) holds_pass).weaken_post
      fun _ _ _ _ _ _ hp => hp.1).weaken_pre (hhas rfl)
    · exact (holds_call (licensed_crew j) _).weaken_post fun _ _ _ _ _ _ hp => hp.1
    · split <;> exact .fail fun _ _ _ _ _ hp => hp
  | closeDb j =>
    refine holds_killDb.conseq (hhas rfl) ?_
    rintro _ _ _ _ _ _ hp _ ⟨⟩
    exact hp.2

theorem watched_start {s : Server} (hs : Started s) : Watched s 0 := by
  obtain ⟨now, fails, log, rfl⟩ := hs
  exact ⟨⟨rfl, rfl⟩, nofun, fun _ => le_refl _, fun t ht =>
    absurd ht (Multiset.notMem_zero t), fun _ => Nat.zero_le _, nofun⟩

/-- The contract is kept. -/
theorem sound_watch : watch.Sound Started fun _ _ => True where
  start _ hs := watched_start hs
  body i c _ := holds_job i c
  enter p c s _ _ hs := by
    refine ⟨trivial, fun _ => rfl, fun (T : Multiset Tok) hT => ?_⟩
    have hw : Watched p.state T := hT
    cases c with
    | request scope =>
      obtain rfl := Option.some.inj hs
      have hnext : Watched p.state (0 + T) := by
        rw [zero_add]
        exact hw
      exact hnext
    | trigger j mode reason triggeredBy message =>
      obtain ⟨hlt, hs⟩ := Option.ite_none_right_eq_some.mp hs
      obtain rfl := Option.some.inj hs
      have hnext : Watched p.state ({Tok.known j} + T) := hw.add (t := .known j) hlt (fun _ => rfl) nofun
      exact hnext
    | killAgents j => nomatch hs
    | killKernel j => nomatch hs
    | closeDb j => nomatch hs
  op p o s _ _ hs := by
    have hsame : Same p.state s := by
      cases o with
      | clock now =>
        obtain ⟨-, hs⟩ := Option.ite_none_right_eq_some.mp hs
        obtain rfl := Option.some.inj hs
        exact ⟨rfl, rfl, rfl, fun _ => rfl, fun _ _ h => h, le_refl _⟩
      | audit fails =>
        obtain rfl := Option.some.inj hs
        exact ⟨rfl, rfl, rfl, fun _ => rfl, fun _ _ h => h, le_refl _⟩
      | make x =>
        obtain ⟨hx, hs⟩ := Option.ite_none_left_eq_some.mp hs
        obtain rfl := Option.some.inj hs
        exact same_append p.state (by simpa using hx) p.state.current
    exact ⟨fun _ => rfl, fun T hT => hsame.watched hT⟩
  reboot _ _ _ _ hs := nomatch hs
  begins _ _ _ _ _ _ _ := trivial
  rely p i a t q k hp ht hq hanswers _ := by
    cases q with
    | call q => exact hanswers
    | join h => trivial
    | wait m hs =>
      cases ha : a (.wait m hs) with
      | error e => trivial
      | ok x =>
        rw [ha] at hanswers
        intro y hy j hj
        obtain ⟨hist, htask⟩ := (hanswers.1 y hy).2
        obtain ⟨z, hz, hinv, hok⟩ := hp
        rw [← hz, List.getElem?_map] at htask
        obtain ⟨⟨t', h⟩, hget, rfl⟩ := Option.map_eq_some_iff.mp htask
        have hclosed : (.closed j : Tok) ∈ h := (hok _ _ hget).2 j hj
        have hw : Watched p.state (z.map Prod.snd).sum := hinv
        exact hw.licence _ (Contract.mem_tokens (List.mem_of_getElem? hget) hclosed)

theorem watched_reach {p : Pool Γ} (h : machine.Reach (fun _ _ => True) p) :
    ∃ held, Watched p.state held := by
  obtain ⟨held, hinv, -⟩ := (sound_watch.good h).held
  exact ⟨_, hinv⟩

end

/-- An order to shut down. -/
def orderTo (mode : ShutdownMode) : Job :=
  .request { type := "http", path := "/v1/admin/shutdown", order := some { mode := mode, message := "", subject := "root" } }

/-- A graceful shutdown while a request is in the server, and another one comes. -/
def gracefully : List (Move Γ Op) :=
  [.spawn (get "/a"), .start 0, .spawn (orderTo .graceful), .start 1, .resume 1 fine, .resume 1 fine, .start 2, .spawn (get "/b"), .start 3,
    .resume 0 fine] ++ List.replicate 6 (.resume 2 fine)

theorem gracefully_exits : (program.replay (fun _ _ => True) idleServer gracefully).any (fun p =>
    .refused "/b" ∈ p.state.journal ∧ .waited 0 true ∈ p.state.journal ∧ .closed 0 ∈ p.state.journal ∧
      .exited 0 0 ∈ p.state.journal) = true := by decide +kernel

/-- What a shutdown guarantees of the exit of the process. -/
structure ExitsOnce (s : Server) : Prop where
  once : ∀ j, exits s j ≤ 1
  completed : ∀ j, .exited j 0 ∈ s.journal → Closed s j ∨ .killing j ∈ s.journal ∧ .closeCancelled j ∈ s.journal
  failed : ∀ j, .exited j 1 ∈ s.journal → modeOf s j = some .graceful

/-- **A shutdown exits once at most**, however often it is triggered; with 0 only if the database was
closed or its error logged, or a forced shutdown's task that closes it was cancelled, and with 1 only
in the graceful mode. -/
theorem exits_once {p : Pool Γ} (h : machine.Reach (fun _ _ => True) p) : ExitsOnce p.state := by
  obtain ⟨held, hw⟩ := watched_reach h
  have hkilling : ∀ j, .closeCancelled j ∈ p.state.journal → .killing j ∈ p.state.journal := fun j hj => hw.told _ hj
  refine ⟨fun j => ?_, fun j hj => (hw.told _ hj).imp_right fun hc => ⟨hkilling j hc, hc⟩, fun j hj => (hw.told _ hj).2⟩
  have honce := hw.once j
  have hle : (progress p.state j).toNat ≤ 1 := Bool.toNat_le _
  omega

theorem exits_once_gracefully : ∃ p : Pool Γ, .closed 0 ∈ p.state.journal ∧ .exited 0 0 ∈ p.state.journal ∧
    ExitsOnce p.state := by
  obtain ⟨p, hp, htest⟩ := Machine.exists_of_any gracefully_exits
  obtain ⟨-, -, hclosed, hexited⟩ := of_decide_eq_true htest
  exact ⟨p, hclosed, hexited, exits_once (Program.replay_reach (.start idleServer_start) hp)⟩

end Caips.Agents.Server
