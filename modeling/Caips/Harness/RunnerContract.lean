/-
Caips.Harness.RunnerContract — what an execution of a run keeps, and the rules
the proofs about its coroutines use.

There is one token for the one execution that is under way, and it says how far
the row and the journal agree with the local variables: `ready` before the
first action, `settled` while it waits, `moving` in between, where the assertion
of the execution says it. A second execution has no token to start with.

* `Going P c` is the usual assertion between two actions: everything is booked,
  the step counter meets `P`, and if `c` the last check of the limits found room.
* `Stopped` is the assertion after the run has stopped: the row is booked.
* `Raised e` is that of an exception on its way.
-/
import Caips.Harness.Journal
import Caips.Harness.Runner
import Caips.Logic.CoroLogic

namespace Caips.Harness.HarnessRunner

open Caips.Logic Caips.Providers

/-! ## The contract -/

/-- How far an execution is. -/
inductive Phase where
  | ready
  | settled
  | moving
  deriving DecidableEq

section Invariant

variable (T : Terms)

/-- What no write changes. -/
structure Fixed (s : HarnessState) : Prop where
  name : s.run.agent = T.name
  owner : s.run.owner = T.owner
  deadline : s.run.deadline = T.deadline

/-- Execution `i` is the only one with local variables. -/
def Only (s : HarnessState) (i : ℕ) (l : Locals) : Prop := s.frames i = some l ∧ ∀ j ≠ i, s.frames j = none

/-- Nothing executes the run. -/
structure Idle (s : HarnessState) : Prop where
  frames : ∀ i, s.frames i = none
  booked : Booked T [] s.journal s.run.locals

/-- An execution with these variables waits. -/
structure Settled (s : HarnessState) (l : Locals) : Prop where
  booked : Booked T [] s.journal l
  running : s.run.status = .running

/-- What holds in a phase. -/
def Holding (s : HarnessState) : Phase → Prop
  | .ready => Idle T s
  | .settled => ∃ i l, Only s i l ∧ Settled T s l
  | .moving => True

/-- The invariant: at most one execution. -/
structure Inv (s : HarnessState) (held : Multiset Phase) : Prop where
  fixed : Fixed T s
  phase : (held = 0 ∧ s.live = 0 ∧ Idle T s) ∨ ∃ p, held = {p} ∧ s.live = 1 ∧ Holding T s p

end Invariant

/-- The answers the terms allow. -/
def Allowed (T : Terms) : (q : Ask Γ) → Except Exc q.Reply → Prop
  | .call (.route .summary _ _), .ok _ => ¬T.unsummarized
  | .call (.route .plan _ _), .error (.error _ _) => ¬T.calm
  | .call (.route .step _ _), .error (.error _ _) => ¬T.calm
  | .call (.handler _ _), .error e => e = .cancelled
  | _, _ => True

/-- What an execution knows of the journal: the last check of the limits, and the
model call that was started last. -/
structure Known where
  reading : Option Reading
  asked : Option (Purpose × String)

def known (J : List Entry) : Known := ⟨lastReading J, lastAsked J⟩

/-- What of the state an execution knows to be its own. -/
def ownOf (i : ℕ) (s : HarnessState) : Option (Locals × Known) := (s.frames i).map fun l => (l, known s.journal)

variable (R : HarnessRunner) (crashes : Bool) (T : Terms)

def contract : Contract (R.program crashes) where
  Tok := Phase
  inv := Inv T
  gives _ := {.ready}
  starts _ := True
  begins _ _ := True
  Own := Option (Locals × Known)
  own := ownOf
  asks _ _ := True
  rests h := h ≠ {.moving}
  rely _ q _ r := Allowed T q r
  post _ _ h _ _ := h = 0

/-! ## Assertions -/

/-- Execution `me` with its local variables, between two actions. -/
def At (me : Γ.Handle) (φ : HarnessState → Locals → Prop) : (contract R crashes T).Assn :=
  fun s h _ => (h = ({.settled} : Multiset Phase) ∨ h = ({.moving} : Multiset Phase)) ∧ ∃ l, Only s me.1 l ∧ φ s l

/-- Execution `me` before and after an await: what it knows of its variables and the
journal. -/
def Rest (me : Γ.Handle) (φ : Locals → Known → Prop) : (contract R crashes T).Assn :=
  fun s h _ => h = ({.settled} : Multiset Phase) ∧ ∃ l, Only s me.1 l ∧ φ l (known s.journal)

/-- The last check of the limits found room. -/
def Room (o : Option Reading) : Prop := ∃ r, o = some r ∧ Below T.agent T.deadline r

/-- Between two actions, with everything booked. -/
def Going (me : Γ.Handle) (P : ℕ → Prop) (c : Prop) : (contract R crashes T).Assn :=
  At R crashes T me fun s l => Settled T s l ∧ P l.step ∧ (c → Room T (lastReading s.journal))

/-- The run has stopped. -/
def Stopped (me : Γ.Handle) : (contract R crashes T).Assn :=
  At R crashes T me fun s _ => Booked T [] s.journal s.run.locals

/-- An exception is on its way. -/
def Raised (me : Γ.Handle) (e : Exc) : (contract R crashes T).Assn :=
  fun s h l => (e ≠ .cancelled → ¬T.calm) ∧ Going R crashes T me (fun _ => True) False s h l

/-- A result with `N`, or an exception on its way. -/
def orRaised {α : Type} (me : Γ.Handle) (N : α → (contract R crashes T).Assn) : Except Exc α → (contract R crashes T).Assn
  | .ok a => N a
  | .error e => Raised R crashes T me e

section Rules

variable {R : HarnessRunner} {crashes : Bool} {T : Terms} {me : Γ.Handle} {α β : Type}
  {φ : HarnessState → Locals → Prop} {p : Phase}

/-! ## Rules -/

variable {s : HarnessState}

theorem Inv.holding {F : Multiset Phase} (h : Inv T s ({p} + F)) :
    F = 0 ∧ s.live = 1 ∧ Holding T s p := by
  obtain ⟨hzero, -⟩ | ⟨p₁, hp₁, hlive, hholding⟩ := h.phase
  · exact absurd hzero (by simp)
  · have hcard := congrArg Multiset.card hp₁
    have hF : F = 0 := Multiset.card_eq_zero.mp (by simpa using hcard)
    subst hF
    obtain rfl := Multiset.singleton_inj.mp (by simpa using hp₁)
    exact ⟨rfl, hlive, hholding⟩

theorem Only.unique {i j : ℕ} {l l' : Locals} (h : Only s i l) (h' : Only s j l') : i = j ∧ l = l' := by
  by_cases hij : i = j
  · subst hij
    exact ⟨rfl, Option.some.inj (h.1.symm.trans h'.1)⟩
  · exact nomatch (h.2 j (Ne.symm hij)).symm.trans h'.1

theorem Only.locals {i : ℕ} {l : Locals} (h : Only s i l) : s.locals i = l := by
  rw [HarnessState.locals, h.1]
  rfl

theorem Inv.settled {F : Multiset Phase} {i : ℕ} {l : Locals} (h : Inv T s ({.settled} + F)) (hl : Only s i l) :
    Settled T s l := by
  obtain ⟨-, -, j, l', hl', hsettled⟩ := h.holding
  rw [(hl.unique hl').2]
  exact hsettled

/-- An action of an execution: what it does to the variables, and to the rest. -/
structure Acts (f : HarnessState → HarnessState) (i : ℕ) (g : Locals → Locals) : Prop where
  run : ∀ s, (f s).run.agent = s.run.agent ∧ (f s).run.owner = s.run.owner ∧ (f s).run.deadline = s.run.deadline
  live : ∀ s, (f s).live = s.live
  frames : ∀ s l, Only s i l → Only (f s) i (g l)

/-- A change that is no business of an execution. -/
structure Keeps (T : Terms) (s u : HarnessState) : Prop where
  fixed : Fixed T s → Fixed T u
  frames : u.frames = s.frames
  live : u.live = s.live
  known : known u.journal = known s.journal
  idle : Booked T [] s.journal s.run.locals → Booked T [] u.journal u.run.locals
  settled : ∀ l, Settled T s l → Settled T u l

theorem keeps_of_eq {s u : HarnessState} (hrun : u.run = s.run) (hjournal : u.journal = s.journal) (hframes : u.frames = s.frames)
    (hlive : u.live = s.live) : Keeps T s u where
  fixed h := ⟨hrun ▸ h.name, hrun ▸ h.owner, hrun ▸ h.deadline⟩
  frames := hframes
  live := hlive
  known := by rw [hjournal]
  idle h := by rw [hjournal, hrun]; exact h
  settled l h := ⟨hjournal ▸ h.booked, hrun ▸ h.running⟩

theorem Keeps.only {s u : HarnessState} {i : ℕ} {l : Locals} (hu : Keeps T s u) (h : Only s i l) : Only u i l := by
  rw [Only, hu.frames]
  exact h

theorem Keeps.own {s u : HarnessState} (hu : Keeps T s u) (i : ℕ) : ownOf i u = ownOf i s := by
  rw [ownOf, ownOf, hu.frames, hu.known]

theorem Keeps.inv {s u : HarnessState} {held : Multiset Phase} (hu : Keeps T s u) (h : Inv T s held) : Inv T u held := by
  have hidle : Idle T s → Idle T u := fun h => ⟨hu.frames ▸ h.frames, hu.idle h.booked⟩
  refine ⟨hu.fixed h.fixed, h.phase.imp (fun ⟨hheld, hlive, h⟩ => ⟨hheld, hu.live.trans hlive, hidle h⟩) ?_⟩
  rintro ⟨p, hheld, hlive, hholding⟩
  refine ⟨p, hheld, hu.live.trans hlive, ?_⟩
  cases p with
  | ready => exact hidle hholding
  | settled =>
    obtain ⟨i, l, hl, hsettled⟩ := hholding
    exact ⟨i, l, hu.only hl, hu.settled l hsettled⟩
  | moving => trivial

theorem Inv.alone {h F : Multiset Phase} (hinv : Inv T s (h + F)) (hh : h = {.settled} ∨ h = {.moving}) :
    F = 0 ∧ s.live = 1 := by
  obtain rfl | rfl := hh
  · exact ⟨hinv.holding.1, hinv.holding.2.1⟩
  · exact ⟨hinv.holding.1, hinv.holding.2.1⟩

/-- **The rule of an action**, to the phase `p`. -/
theorem holds_act {f : HarnessState → HarnessState} {g : Locals → Locals} (hf : Acts f me.1 g) (hp : p = .settled ∨ p = .moving)
    {post : Except Exc Unit → (contract R crashes T).Assn} :
    (contract R crashes T).Holds me
      (At R crashes T me fun s l => (p = .settled → Settled T (f s) (g l)) ∧
        (Only (f s) me.1 (g l) → ∀ t, post (.ok ()) (f s) ({p} : Multiset Phase) t)) (update f) post := by
  apply Contract.Holds.sync
  rintro s h F t hinv ⟨hh, x, hx, hset, hpost⟩
  obtain ⟨rfl, hlive⟩ := hinv.alone hh
  obtain ⟨hagent, howner, hdeadline⟩ := hf.run s
  have hfixed := hinv.fixed
  have hx' := hf.frames s x hx
  refine ⟨fun j hj => ?_, ({p} : Multiset Phase), ⟨⟨hagent.trans hfixed.name, howner.trans hfixed.owner, hdeadline.trans hfixed.deadline⟩, ?_⟩,
    hpost hx' t⟩
  · show ownOf j (f s) = ownOf j s
    rw [ownOf, ownOf, hx'.2 j hj, hx.2 j hj]
    rfl
  · refine .inr ⟨p, Multiset.add_zero _, (hf.live s).trans hlive, ?_⟩
    obtain rfl | rfl := hp
    · exact ⟨me.1, g x, hx', hset rfl⟩
    · trivial

theorem acts_note (e : Entry) (i : ℕ) : Acts (·.note e) i id := ⟨fun _ => ⟨rfl, rfl, rfl⟩, fun _ => rfl, fun _ _ h => h⟩

theorem acts_write {f : Run → Run} (hf : ∀ r, (f r).agent = r.agent ∧ (f r).owner = r.owner ∧ (f r).deadline = r.deadline) (i : ℕ) :
    Acts (·.write f) i id := ⟨fun s => hf s.run, fun _ => rfl, fun _ _ h => h⟩

theorem acts_assign (f : Locals → Locals) (i : ℕ) : Acts (fun s => s.setFrame i (some (f (s.locals i)))) i f where
  run _ := ⟨rfl, rfl, rfl⟩
  live _ := rfl
  frames s l h := by
    refine ⟨?_, fun j hj => ?_⟩
    · simp [HarnessState.setFrame, h.locals]
    · simpa [HarnessState.setFrame, hj] using h.2 j hj

theorem holds_moving {f : HarnessState → HarnessState} {g : Locals → Locals} (hf : Acts f me.1 g) :
    (contract R crashes T).Holds me (At R crashes T me fun s l => φ (f s) (g l)) (update f)
      ((contract R crashes T).returns fun _ => At R crashes T me φ) := by
  refine (holds_act hf (.inr rfl)).weaken_pre ?_
  rintro s h F t - ⟨hh, x, hx, hφ⟩
  exact ⟨hh, x, hx, nofun, fun hx' _ => ⟨(), rfl, .inr rfl, g x, hx', hφ⟩⟩

theorem holds_note (e : Entry) :
    (contract R crashes T).Holds me (At R crashes T me fun s l => φ (s.note e) l) (note e)
      ((contract R crashes T).returns fun _ => At R crashes T me φ) := holds_moving (acts_note e me.1)

theorem holds_write {f : Run → Run} (hf : ∀ r, (f r).agent = r.agent ∧ (f r).owner = r.owner ∧ (f r).deadline = r.deadline) :
    (contract R crashes T).Holds me (At R crashes T me fun s l => φ (s.write f) l) (write f)
      ((contract R crashes T).returns fun _ => At R crashes T me φ) := holds_moving (acts_write hf me.1)

theorem holds_assign (f : Locals → Locals) :
    (contract R crashes T).Holds me (At R crashes T me fun s l => φ (s.setFrame me.1 (some (f (s.locals me.1)))) (f l))
      (assign me.1 f) ((contract R crashes T).returns fun _ => At R crashes T me φ) := holds_moving (acts_assign f me.1)

theorem holds_note_rest {e : Entry} {φ : Locals → Known → Prop} :
    (contract R crashes T).Holds me
      (At R crashes T me fun s l => Settled T (s.note e) l ∧ φ l (known (s.note e).journal)) (note e)
      ((contract R crashes T).returns fun _ => Rest R crashes T me φ) := by
  refine (holds_act (acts_note e me.1) (.inl rfl)).weaken_pre ?_
  rintro s h F t - ⟨hh, x, hx, hsettled, hφ⟩
  exact ⟨hh, x, hx, fun _ => hsettled, fun hx' _ => ⟨(), rfl, rfl, x, hx', hφ⟩⟩

theorem rest_booked {φ : Locals → Known → Prop} : (contract R crashes T).Entails (Rest R crashes T me φ)
    (At R crashes T me fun s l => Settled T s l ∧ φ l (known s.journal)) := by
  rintro s h F t hinv ⟨rfl, x, hx, hφ⟩
  exact ⟨.inl rfl, x, hx, Inv.settled hinv hx, hφ⟩

/-- **The rule of an await.** What an execution knows of its variables and the journal, it
still knows after the answer. -/
theorem holds_query {q : Query} {φ : Locals → Known → Prop} :
    (contract R crashes T).Holds me (Rest R crashes T me φ) (query q)
      fun r s h l => Rest R crashes T me φ s h l ∧ Allowed T (.call q) r := by
  refine Contract.Holds.ask (fun _ _ _ _ _ hp => ⟨trivial, ?_⟩) fun r s h F l hinv => ?_
  · rw [hp.1]
    exact fun h => nomatch Multiset.singleton_inj.mp h
  rintro ⟨l', rfl, ⟨s', hown, rfl, x, hx, hφ⟩, -, hrely⟩
  have hsome : ownOf me.1 s = some (x, known s'.journal) := by
    show ownOf me.1 s = _
    rw [show ownOf me.1 s = ownOf me.1 s' from hown, ownOf, hx.1]
    rfl
  obtain ⟨y, hy, hpair⟩ := Option.map_eq_some_iff.mp hsome
  obtain ⟨rfl, hknown⟩ := Prod.mk.inj hpair
  obtain ⟨-, -, i, z, hz, -⟩ := Inv.holding hinv
  have hi : i = me.1 := by
    by_contra hne
    exact nomatch (hz.2 me.1 (Ne.symm hne)).symm.trans hy
  subst hi
  obtain rfl := Option.some.inj (hz.1.symm.trans hy)
  exact ⟨⟨rfl, z, hz, hknown ▸ hφ⟩, hrely⟩

theorem holds_read {f : HarnessState → α} (pre : (contract R crashes T).Assn) :
    (contract R crashes T).Holds me pre (read f) ((contract R crashes T).returns fun a s h l => pre s h l ∧ a = f s) :=
  .sync fun s h _ _ hi hp => ⟨fun _ _ => rfl, h, hi, f s, rfl, hp, rfl⟩

end Rules

end Caips.Harness.HarnessRunner
