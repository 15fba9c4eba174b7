/-
Caips.Harness.RunnerCancel — what an accepted cancel or kill stops.

A request only writes the `control` column; the execution reads it when it next
checks the limits. So a request may come between a check and the model call that the
check was for. It is read at the check after that, and the run then ends as
cancelled within the same burst. `Watch` follows the journal through this: from an
accepted request on there is at most one more model call until the run ends, and a
check of the limits ends it (`cancel_dominates`).

A pause that is requested later overwrites the column, so the runs are those in
which nobody asks for a pause.
-/
import Caips.Harness.RunnerSteps
import Caips.Harness.RunnerTheorems

namespace Caips.Harness

open Caips.Logic Caips.Providers

/-! ## The journal, followed -/

/-- A model call is started that the limits are checked for. -/
def Entry.asks : Entry → Bool
  | .asked purpose _ _ => purpose ≠ .summary
  | _ => false

/-- Where a journal stands: no request is due; one is, and so many model calls were started
since; the limits were checked and the run is about to end. -/
inductive Watch where
  | fine
  | due (asked : ℕ)
  | closing
  | broken

namespace Watch

def next : Watch → Entry → Watch
  | fine, .requested c => if c = .pause then fine else due 0
  | fine, _ => fine
  | due n, .asked purpose _ _ => if purpose = .summary then due n else due (n + 1)
  | due _, .checked _ => closing
  | due _, .trace (.runFinished _ _ _) => fine
  | due n, _ => due n
  | closing, .trace (.runFinished reason _ _) => if reason.status = .cancelled then fine else broken
  | closing, .asked purpose _ _ => if purpose = .summary then closing else broken
  | closing, .checked _ => broken
  | closing, .requested _ => broken
  | closing, _ => closing
  | broken, _ => broken

/-- The journal is followed from its first entry on. -/
def of : List Entry → Watch
  | [] => fine
  | e :: J => (of J).next e

@[simp] theorem of_cons (e : Entry) (J : List Entry) : of (e :: J) = (of J).next e := rfl

@[simp] theorem broken_next (e : Entry) : broken.next e = broken := by
  cases e <;> rfl

variable {J : List Entry}

theorem of_append_broken (l : List Entry) (h : of J = broken) : of (l ++ J) = broken := by
  induction l with
  | nil => exact h
  | cons e l ih => rw [List.cons_append, of_cons, ih, broken_next]

/-- An entry that neither asks nor ends nor checks nor requests. -/
def plain : Entry → Bool
  | .asked purpose _ _ => purpose = .summary
  | .checked _ => false
  | .requested _ => false
  | .trace (.runFinished _ _ _) => false
  | _ => true

theorem next_plain {e : Entry} (h : plain e) (w : Watch) : w.next e = w := by
  cases e with
  | asked purpose account messages =>
    obtain rfl : purpose = .summary := of_decide_eq_true h
    cases w <;> rfl
  | checked r => exact nomatch h
  | requested c => exact nomatch h
  | trace t =>
    cases t with
    | runFinished reason step cost => exact nomatch h
    | _ => cases w <;> rfl
  | _ => cases w <;> rfl

/-- What follows a due request without an ending. -/
theorem of_due {n : ℕ} (h : of J = due n) {l : List Entry} (hends : ∀ e ∈ l, ¬e.ends) :
    of (l ++ J) = broken ∨ of (l ++ J) = closing ∨ of (l ++ J) = due (n + l.countP Entry.asks) ∧
      ∀ r, Entry.checked r ∉ l := by
  induction l with
  | nil => exact .inr (.inr ⟨h, nofun⟩)
  | cons e l ih =>
    rw [List.cons_append, of_cons]
    obtain hw | hw | ⟨hw, hchecked⟩ := ih fun e' he' => hends e' (List.mem_cons_of_mem _ he')
    · exact .inl (by rw [hw, broken_next])
    · rw [hw]
      cases e with
      | asked purpose account messages =>
        by_cases hp : purpose = .summary
        · exact .inr (.inl (if_pos hp))
        · exact .inl (if_neg hp)
      | checked r => exact .inl rfl
      | requested c => exact .inl rfl
      | trace t =>
        cases t with
        | runFinished reason step cost => exact absurd rfl (hends _ List.mem_cons_self)
        | _ => exact .inr (.inl rfl)
      | _ => exact .inr (.inl rfl)
    · rw [hw]
      have hrest {e : Entry} (hplain : ∀ r, e ≠ .checked r) : ∀ r, Entry.checked r ∉ e :: l := by
        intro r hmem
        obtain heq | hmem := List.mem_cons.mp hmem
        · exact hplain r heq.symm
        · exact hchecked r hmem
      cases e with
      | asked purpose account messages =>
        refine .inr (.inr ⟨?_, hrest nofun⟩)
        by_cases hp : purpose = .summary
        · simp [next, Entry.asks, hp]
        · simp [next, Entry.asks, hp, Nat.add_assoc]
      | checked r => exact .inr (.inl rfl)
      | trace t =>
        cases t with
        | runFinished reason step cost => exact absurd rfl (hends _ List.mem_cons_self)
        | _ => exact .inr (.inr ⟨by simp [next, Entry.asks], hrest nofun⟩)
      | _ => exact .inr (.inr ⟨by simp [next, Entry.asks], hrest nofun⟩)

/-- What follows a check that has found a request. -/
theorem of_closing (h : of J = closing) (l : List Entry) :
    of (l ++ J) = broken ∨ of (l ++ J) = closing ∧ (∀ e ∈ l, ¬e.ends ∧ ¬e.asks) ∨
      ∃ a reason step cost b, l = a ++ .trace (.runFinished reason step cost) :: b ∧
        reason.status = .cancelled ∧
        ∀ e ∈ b, ¬e.ends ∧ ¬e.asks := by
  induction l with
  | nil => exact .inr (.inl ⟨h, nofun⟩)
  | cons e l ih =>
    rw [List.cons_append, of_cons]
    obtain hw | ⟨hw, hb⟩ | ⟨a, reason, step, cost, b, rfl, hreason, hb⟩ := ih
    · exact .inl (by rw [hw, broken_next])
    · rw [hw]
      have hrest {e : Entry} (he : ¬e.ends ∧ ¬e.asks) : ∀ e' ∈ e :: l, ¬e'.ends ∧ ¬e'.asks :=
        List.forall_mem_cons.mpr ⟨he, hb⟩
      cases e with
      | asked purpose account messages =>
        by_cases hp : purpose = .summary
        · exact .inr (.inl ⟨if_pos hp, hrest (by simp [Entry.ends, Entry.asks, hp])⟩)
        · exact .inl (if_neg hp)
      | checked r => exact .inl rfl
      | requested c => exact .inl rfl
      | trace t =>
        cases t with
        | runFinished reason step cost =>
          by_cases hreason : reason.status = .cancelled
          · exact .inr (.inr ⟨[], reason, step, cost, l, rfl, hreason, hb⟩)
          · exact .inl (if_neg hreason)
        | _ => exact .inr (.inl ⟨rfl, hrest (by simp [Entry.ends, Entry.asks])⟩)
      | _ => exact .inr (.inl ⟨rfl, hrest (by simp [Entry.ends, Entry.asks])⟩)
    · exact .inr (.inr ⟨e :: a, reason, step, cost, b, rfl, hreason, hb⟩)

end Watch

/-- What an accepted cancel or kill means for what the journal has after it. -/
structure Dominates (J : List Entry) : Prop where
  /-- Until the run ends, one model call may follow: the one its last check found room for. The
  limits are not checked again. -/
  calls : ∀ l₁ c l₂, J = l₁ ++ .requested c :: l₂ → c ≠ .pause → (∀ e ∈ l₁, ¬e.ends) →
    l₁.countP Entry.asks ≤ 1 ∧ ∀ r, Entry.checked r ∉ l₁
  /-- The next check of the limits ends the run as cancelled, before any other model call. -/
  cancels : ∀ l₁ r m c l₂, J = l₁ ++ .checked r :: (m ++ .requested c :: l₂) → c ≠ .pause → (∀ e ∈ m, ¬e.ends) →
    ∃ a reason step cost b, l₁ = a ++ .trace (.runFinished reason step cost) :: b ∧ reason.status = .cancelled ∧
      ∀ e ∈ b, ¬e.ends ∧ ¬e.asks

theorem Watch.next_requested {w : Watch} (hclosing : w ≠ .closing) (hbroken : w ≠ .broken)
    {c : Control} (hc : c ≠ .pause) :
    ∃ n, w.next (.requested c) = .due n := by
  cases w with
  | fine => exact ⟨0, if_neg hc⟩
  | due n => exact ⟨n, rfl⟩
  | closing => exact absurd rfl hclosing
  | broken => exact absurd rfl hbroken

theorem Watch.of_requested {c : Control} (hc : c ≠ .pause) {J : List Entry}
    (h : of (.requested c :: J) ≠ broken) :
    ∃ n, of (.requested c :: J) = due n := by
  rw [of_cons] at h ⊢
  refine next_requested (fun hw => ?_) (fun hw => ?_) hc
  · rw [hw] at h
    exact h rfl
  · rw [hw, broken_next] at h
    exact h rfl

theorem dominates_of_watch {J : List Entry} (hbroken : Watch.of J ≠ .broken) (hclosing : Watch.of J ≠ .closing)
    (hdue : ∀ n, Watch.of J = .due n → n ≤ 1) : Dominates J where
  calls := by
    rintro l₁ c l₂ rfl hc hends
    have hpart : Watch.of (.requested c :: l₂) ≠ .broken := fun h => hbroken (Watch.of_append_broken l₁ h)
    obtain ⟨n, hn⟩ := Watch.of_requested hc hpart
    obtain hw | hw | ⟨hw, hchecked⟩ := Watch.of_due hn hends
    · exact absurd hw hbroken
    · exact absurd hw hclosing
    · have hle := hdue _ hw
      exact ⟨by omega, hchecked⟩
  cancels := by
    rintro l₁ r m c l₂ rfl hc hends
    have hpart : Watch.of (.requested c :: l₂) ≠ .broken := fun h =>
      hbroken (Watch.of_append_broken l₁ (Watch.of_append_broken (.checked r :: m) h))
    obtain ⟨n, hn⟩ := Watch.of_requested hc hpart
    have hcheck : Watch.of (.checked r :: (m ++ .requested c :: l₂)) = .closing := by
      rw [Watch.of_cons]
      obtain hw | hw | ⟨hw, -⟩ := Watch.of_due hn hends
      · exact absurd (Watch.of_append_broken l₁ (by rw [Watch.of_cons, hw, Watch.broken_next])) hbroken
      · exact absurd (Watch.of_append_broken l₁ (by rw [Watch.of_cons, hw]; rfl)) hbroken
      · rw [hw]
        rfl
    obtain hw | ⟨hw, -⟩ | hsplit := Watch.of_closing hcheck l₁
    · exact absurd hw hbroken
    · exact absurd hw hclosing
    · exact hsplit

namespace HarnessRunner

/-! ## The contract -/

/-- How far the one execution is: nothing is checked, a check found room for a model call, or
the run is about to end. -/
inductive Grip where
  | idle
  | cleared
  | ending (reason : StopReason)
  deriving DecidableEq

/-- The stop for a control. -/
def Bound (s : HarnessState) (held : Multiset Grip) : Watch → Prop
  | .fine => True
  | .due n => n + held.count .cleared ≤ 1 ∧ (s.run.control ≠ none ∨ ∃ reason, Grip.ending reason ∈ held)
  | .closing => ∃ reason, Grip.ending reason ∈ held ∧ reason.status = .cancelled
  | .broken => False

/-- At most one execution; nobody has asked for a pause; a request is in the row until the
run ends. -/
structure Controlled (s : HarnessState) (held : Multiset Grip) : Prop where
  live : held.card = s.live
  alone : s.live ≤ 1
  control : s.run.control ≠ some .pause
  bound : Bound s held (Watch.of s.journal)

variable (R : HarnessRunner)

def controls : Contract (R.program false) where
  Tok := Grip
  inv := Controlled
  gives _ := {.idle}
  starts _ := True
  begins _ _ := True
  Own := Unit
  own _ _ := ()
  asks _ _ := True
  rests h := h = ({.idle} : Multiset Grip) ∨ h = {.cleared}
  rely _ _ _ _ := True
  post _ _ h _ _ := h = 0

/-- No check, no model call but for a summary, no request and no ending; the control is left alone. -/
def neutral : Scope where
  entry e := Watch.plain e
  row f := ∀ r, (f r).control = r.control
  locals _ := True

/-- What the execution owns. -/
abbrev Gripping (t : Grip) : (controls R).Assn := fun _ h _ => h = ({t} : Multiset Grip)

def Awake : (controls R).Assn := fun _ h _ => h = ({.idle} : Multiset Grip) ∨ h = {.cleared}

section

variable {R : HarnessRunner} {α β : Type} {i : ℕ} {agent : AgentDef} {me : Γ.Handle}

variable (R me) in
/-- Code that ends where the limits may be checked. -/
abbrev Wakes (pre : (controls R).Assn) (c : Async α) : Prop := (controls R).Holds me pre c fun _ => Awake R

/-! ## Steps that leave a request alone -/

variable {held : Multiset Grip} {s : HarnessState} {c : Async α} {reason : StopReason}

theorem Bound.of_eq {s u : HarnessState}
    {w : Watch} (hcontrol : u.run.control = s.run.control)
    (h : Bound s held w) : Bound u held w := by
  cases w with
  | fine => trivial
  | due n => exact ⟨h.1, hcontrol ▸ h.2⟩
  | closing => exact h
  | broken => exact h

theorem controlled_note (hs : Controlled s held)
    {e : Entry} (he : Watch.plain e) :
    Controlled (s.note e) held := by
  refine ⟨hs.live, hs.alone, hs.control, ?_⟩
  show Bound (s.note e) held ((Watch.of s.journal).next e)
  rw [Watch.next_plain he]
  exact hs.bound.of_eq rfl

theorem controlled_write (hs : Controlled s held) {f : Run → Run}
    (hf : (f s.run).control = s.run.control) : Controlled (s.write f) held := by
  have hrow : Controlled { s with run := f s.run } held :=
    ⟨hs.live, hs.alone, fun h => hs.control (hf ▸ h), hs.bound.of_eq hf⟩
  unfold HarnessState.write
  split
  · exact hrow
  · exact controlled_note (s := { s with run := f s.run }) hrow (e := .became _) rfl

theorem controlled_step {s u : HarnessState} (h : Step neutral s u)
    (hs : Controlled s held) : Controlled u held := by
  cases h with
  | none => exact hs
  | note e he => exact controlled_note hs he
  | assign i f _ => exact ⟨hs.live, hs.alone, hs.control, hs.bound.of_eq rfl⟩
  | write f hf => exact controlled_write hs (hf _)
  | save i f hf => exact controlled_note (controlled_write hs (f := fun r => f (r.save (s.locals i))) (hf _)) rfl
  | rates r hr => exact ⟨hs.live, hs.alone, hs.control, hs.bound.of_eq rfl⟩

theorem respects_neutral (φ : Multiset Grip → Prop) : (controls R).Respects me φ (Step neutral) where
  inv _ _ h _ _ _ hs := controlled_step h hs
  own _ _ _ _ _ := rfl

theorem open_neutral : neutral.Open where
  trace e he := by
    cases e with
    | runFinished reason step cost => exact nomatch he
    | _ => rfl
  called _ := rfl
  summary _ _ := rfl
  id _ := rfl
  add _ := trivial

theorem free_neutral (f : Locals → Locals) : neutral.locals f := trivial

/-! ## Rules -/

variable {t : Grip} {k : α → Async β}

theorem Controlled.single {F : Multiset Grip}
    (hs : Controlled s ({t} + F)) : F = 0 := by
  have hlive := hs.live
  have hone := hs.alone
  rw [Multiset.card_add, Multiset.card_singleton] at hlive
  exact Multiset.card_eq_zero.mp (by omega)

theorem Controlled.bound_of {w : Watch} (hs : Controlled s held) (hw : Watch.of s.journal = w) :
    Bound s held w := hw ▸ hs.bound

theorem Controlled.not_broken (hs : Controlled s held) :
    Watch.of s.journal ≠ .broken := by
  intro hw
  exact hs.bound_of hw

theorem Controlled.swap {s u : HarnessState} {t t' : Grip} (hs : Controlled s {t}) (hlive : u.live = s.live)
    (hcontrol : u.run.control ≠ some .pause) (hbound : Bound u {t'} (Watch.of u.journal)) : Controlled u {t'} :=
  ⟨hs.live.trans hlive.symm, hlive.trans_le hs.alone, hcontrol, hbound⟩

/-- An execution that is about to do something finds the journal at no check, and a due request
in the row. -/
theorem Controlled.awake (hs : Controlled s {t}) (ht : t = .idle ∨ t = .cleared) :
    Watch.of s.journal = .fine ∨ ∃ n, Watch.of s.journal = .due n ∧ n + Multiset.count .cleared
      {t} ≤ 1 ∧ s.run.control ≠ none := by
  have hno (reason : StopReason) : Grip.ending reason ∉ ({t} : Multiset Grip) := by
    obtain rfl | rfl := ht <;> simp
  cases hw : Watch.of s.journal with
  | fine => exact .inl rfl
  | due n =>
    have hbound := hs.bound_of hw
    exact .inr ⟨n, rfl, hbound.1, hbound.2.resolve_right fun ⟨reason, h⟩ => hno reason h⟩
  | closing =>
    obtain ⟨reason, h, -⟩ := hs.bound_of hw
    exact absurd h (hno reason)
  | broken => exact absurd hw hs.not_broken

theorem rests_awake {h : Multiset Grip} (hh : h = {.idle} ∨ h = {.cleared}) : (controls R).rests h := hh

theorem neutral_keeps {φ : Multiset Grip → Prop}
    (hφ : ∀ h, φ h → h = {.idle} ∨ h = {.cleared}) (hc : Does neutral c) :
    (controls R).Holds me (fun _ h _ => φ h) c fun _ _ h _ => φ h :=
  .of_within (respects_neutral φ) (fun _ _ => trivial) (fun h hh => rests_awake (hφ h hh)) hc

theorem neutral_seq {φ : Multiset Grip → Prop}
    (hφ : ∀ h, φ h → h = {.idle} ∨ h = {.cleared})
    (hc : Does neutral c) (hk : ∀ a, Wakes R me (fun _ h _ => φ h) (k a)) :
    Wakes R me (fun _ h _ => φ h) (c >>= k) :=
  (neutral_keeps hφ hc).bind hk fun _ _ h _ _ _ hh => hφ h hh

theorem awake_seq (hc : Does neutral c) (hk : ∀ a, Wakes R me (Awake R) (k a)) :
    Wakes R me (Awake R) (c >>= k) := neutral_seq (fun _ h => h) hc hk

theorem awake_keeps (hc : Does neutral c) : Wakes R me (Awake R) c :=
  neutral_keeps (fun _ h => h) hc

theorem holds_swap {f : HarnessState → HarnessState} {t' : Grip} {pre : Grip → Prop}
    (hlive : ∀ s, (f s).live = s.live)
    (hf : ∀ s t, pre t → Controlled s {t} → (f s).run.control ≠ some .pause ∧
    Bound (f s) {t'} (Watch.of (f s).journal)) :
    (controls R).Holds me (fun _ h _ => ∃ t, h = ({t} : Multiset Grip) ∧ pre t) (update f)
      ((controls R).returns fun _ => Gripping R t') := by
  apply Contract.Holds.sync
  rintro s h F l hinv ⟨t, rfl, ht⟩
  obtain rfl := Controlled.single hinv
  have hs : Controlled s {t} := hinv
  obtain ⟨hcontrol, hbound⟩ := hf s t ht hs
  exact ⟨fun _ _ => rfl, ({t'} : Multiset Grip), hs.swap (hlive s) hcontrol hbound, (), rfl, rfl⟩

/-! ## The check of the limits -/

def Checked : Option StopReason → Multiset Grip → Prop
  | none, h => h = {.cleared}
  | some reason, h => h = {.ending reason} ∧ reason ≠ .paused

theorem limitOf_control (agent : AgentDef) {run : Run} (r : Reading) (hpause : run.control ≠ some .pause) :
    (limitOf agent run r = none → run.control = none) ∧
      ∀ reason, limitOf agent run r = some reason →
        reason ≠ .paused ∧ (run.control ≠ none → reason.status = .cancelled) := by
  unfold limitOf
  cases hcontrol : run.control with
  | none =>
    refine ⟨fun _ => rfl, fun reason h => ⟨?_, fun hne => absurd rfl hne⟩⟩
    dsimp only at h
    split_ifs at h <;> (obtain rfl := Option.some.inj h; nofun)
  | some c =>
    refine ⟨nofun, fun reason h => ?_⟩
    obtain rfl := Option.some.inj h
    cases c with
    | pause => exact absurd hcontrol hpause
    | cancel => exact ⟨nofun, fun _ => rfl⟩
    | kill => exact ⟨nofun, fun _ => rfl⟩

/-- `_limit`: a request that is due is found. -/
theorem holds_limit_watched : (controls R).Holds me (Awake R) (limit i agent)
    ((controls R).returns fun o _ h _ => Checked o h) := by
  refine Contract.Holds.bind_returns (N := fun x s h l => Awake R s h l ∧ x.1 = s.run)
    (Contract.Holds.sync ?_) fun ⟨run, r⟩ => ?_
  · exact fun s h F l hinv hh => ⟨fun _ _ => rfl, h, hinv, _, rfl, hh, rfl⟩
  refine Contract.Holds.bind_returns (N := fun _ _ h _ => Checked (limitOf agent run r) h)
    (Contract.Holds.sync ?_)
    fun _ => Contract.Holds.ret fun _ _ _ _ _ hh => ⟨_, rfl, hh⟩
  rintro s h F l hinv ⟨hh, rfl⟩
  obtain ⟨t, rfl, ht⟩ : ∃ t : Grip, h = ({t} : Multiset Grip) ∧ (t = .idle ∨ t = .cleared) := by
    obtain rfl | rfl := hh
    · exact ⟨_, rfl, .inl rfl⟩
    · exact ⟨_, rfl, .inr rfl⟩
  obtain rfl := Controlled.single hinv
  have hs : Controlled s {t} := hinv
  obtain ⟨hroom, hstop⟩ := limitOf_control agent r hs.control
  have hwatch := hs.awake ht
  cases ho : limitOf agent s.run r with
  | none =>
    obtain hw | ⟨n, -, -, hcontrol⟩ := hwatch
    · refine ⟨fun _ _ => rfl, ({.cleared} : Multiset Grip), hs.swap rfl hs.control ?_, (), rfl, ?_⟩
      swap
      · exact rfl
      show Bound _ _ ((Watch.of s.journal).next (.checked r))
      rw [hw]
      trivial
    · exact absurd (hroom ho) hcontrol
  | some reason =>
    obtain ⟨hpaused, hcancelled⟩ := hstop reason ho
    refine ⟨fun _ _ => rfl, ({.ending reason} : Multiset Grip), hs.swap rfl hs.control ?_, (),
      rfl, ⟨rfl, hpaused⟩⟩
    show Bound _ _ ((Watch.of s.journal).next (.checked r))
    obtain hw | ⟨n, hw, -, hcontrol⟩ := hwatch
    · rw [hw]
      trivial
    · rw [hw]
      exact ⟨reason, Multiset.mem_singleton_self _, hcancelled hcontrol⟩

/-! ## Endings -/

/-- The event of an ending. -/
theorem holds_note_end (reason : StopReason) (step : Option ℕ) (costUsd : Option ℚ)
    (ht : ∀ reason', t = .ending reason' → reason' = reason) :
    (controls R).Holds me (Gripping R t) (event (.runFinished reason step costUsd))
      ((controls R).returns fun _ => Gripping R .idle) := by
  refine (holds_swap (f := (·.note (.trace (.runFinished reason step costUsd))))
    (fun _ => rfl) ?_).weaken_pre fun _ _ _ _ _ hh => ⟨t, hh, rfl⟩
  rintro s _ rfl hs
  refine ⟨hs.control, ?_⟩
  show Bound _ _ ((Watch.of s.journal).next (.trace (.runFinished reason step costUsd)))
  cases hw : Watch.of s.journal with
  | fine => trivial
  | due n => trivial
  | closing =>
    obtain ⟨reason', hmem, hcancelled⟩ := hs.bound_of hw
    have hcancelled' : reason.status = .cancelled := by
      rw [← ht reason' (Multiset.mem_singleton.mp hmem).symm]
      exact hcancelled
    rw [show Watch.next .closing (.trace (.runFinished reason step costUsd)) = .fine from if_pos hcancelled']
    trivial
  | broken => exact absurd hw hs.not_broken

theorem holds_note_neutral {e : Entry} (he : Watch.plain e) :
    (controls R).Holds me (Gripping R t) (note e) ((controls R).returns fun _ => Gripping R t) :=
  Contract.Holds.sync fun _ h _ _ hinv hh => ⟨fun _ _ => rfl, h, controlled_note hinv he, (), rfl, hh⟩

theorem bound_ending (ht : (t = .idle ∨ t = .cleared) ∨ t = .ending reason)
    (hs : Controlled s {t}) : Bound s {.ending reason} (Watch.of s.journal) := by
  obtain ht | rfl := ht
  · obtain hw | ⟨n, hw, hle, -⟩ := hs.awake ht
    · rw [hw]
      trivial
    · rw [hw]
      exact ⟨by simpa using (Nat.le_add_right _ _).trans hle, .inr ⟨reason, Multiset.mem_singleton_self _⟩⟩
  · exact hs.bound

/-- The execution may end the run for this reason. -/
def Closes (reason : StopReason) (h : Multiset Grip) : Prop :=
  ∃ t : Grip, h = {t} ∧ ((t = .idle ∨ t = .cleared) ∨ t = .ending reason)

/-- The checkpoint of an ending. -/
theorem holds_save_end {f : Run → Run} (hf : ∀ r, (f r).control = none) :
    (controls R).Holds me (fun _ h _ => Closes reason h) (update (·.save i f))
      ((controls R).returns fun _ => Gripping R (.ending reason)) := by
  refine holds_swap (fun _ => rfl) fun s t ht hs => ?_
  have hnone : (s.save i f).run.control = none := hf _
  refine ⟨by simp [hnone], ?_⟩
  have hwatch : Watch.of (s.save i f).journal = Watch.of s.journal := by
    show ((Watch.of (s.write fun r => f (r.save (s.locals i))).journal).next (.saved (s.locals i))) = _
    rw [Watch.next_plain rfl]
    unfold HarnessState.write
    split
    · rfl
    · exact Watch.next_plain rfl _
  rw [hwatch]
  have hbound := bound_ending ht hs
  cases hw : Watch.of s.journal with
  | due n =>
    rw [hw] at hbound
    exact ⟨hbound.1, .inr ⟨reason, Multiset.mem_singleton_self _⟩⟩
  | fine => trivial
  | closing =>
    rw [hw] at hbound
    exact hbound
  | broken => exact absurd hw hs.not_broken

/-- `_end`, for any reason but a pause. -/
theorem holds_finishRun_watched (hreason : reason ≠ .paused) (result : Option String) :
    (controls R).Holds me (fun _ h _ => Closes reason h) (finishRun i reason result)
      ((controls R).returns fun _ => Gripping R .idle) := by
  have hread {t : Grip} {α : Type} (f : HarnessState → α) : (controls R).Holds me (Gripping R t) (read f)
      ((controls R).returns fun _ => Gripping R t) :=
    Contract.Holds.sync fun _ h _ _ hinv hh => ⟨fun _ _ => rfl, h, hinv, _, rfl, hh⟩
  unfold finishRun
  rw [if_neg hreason]
  refine Contract.Holds.bind_returns (N := fun _ => Gripping R (.ending reason)) ?_ fun _ => ?_
  · refine Contract.Holds.bind_returns (holds_save_end ?_) fun _ =>
      Contract.Holds.bind_returns (hread _) fun _ => holds_note_neutral rfl
    exact fun _ => rfl
  refine Contract.Holds.bind_returns (hread _) fun l => ?_
  refine Contract.Holds.bind_returns (holds_note_end reason _ _ fun _ h => (Grip.ending.inj h).symm) fun _ => ?_
  exact Contract.Holds.sync fun s h _ _ hinv hh => ⟨fun _ _ => rfl, h, controlled_note hinv rfl, (), rfl, hh⟩

/-! ## Model calls -/

theorem cleared_seq (hc : Does neutral c)
    (hk : ∀ a, Wakes R me (Gripping R .cleared) (k a)) :
    Wakes R me (Gripping R .cleared) (c >>= k) :=
  neutral_seq (fun _ hh => .inr hh) hc hk

theorem awake_of_cleared {pre : (controls R).Assn}
    (hpre : ∀ s h l, pre s h l → h = ({.cleared} : Multiset Grip))
    (hc : Wakes R me (Awake R) c) : Wakes R me pre c :=
  hc.weaken_pre fun s h _ l _ hp => .inr (hpre s h l hp)

/-- A model call that the limits were checked for. -/
theorem holds_route_watched {p : Purpose} (hpurpose : p ≠ .summary) (req : CompletionRequest)
    (timeout : Option ℚ) :
    (controls R).Holds me (Gripping R .cleared) (route p req timeout)
      fun _ => Gripping R .idle := by
  have hidle : ∀ h : Multiset Grip, h = {.idle} → h = {.idle} ∨ h = {.cleared} := fun _ hh => .inl hh
  refine Contract.Holds.bind_returns (N := fun _ => Gripping R .idle) ?_ fun _ => ?_
  · refine (holds_swap (f := (·.note (.asked p (account req) req.messages))) (fun _ => rfl) ?_).weaken_pre
      fun _ _ _ _ _ hh => ⟨.cleared, hh, rfl⟩
    rintro s _ rfl hs
    refine ⟨hs.control, ?_⟩
    show Bound _ _ ((Watch.of s.journal).next (.asked p (account req) req.messages))
    obtain hw | ⟨n, hw, hle, hcontrol⟩ := hs.awake (.inr rfl)
    · rw [hw]
      trivial
    · rw [hw, show Watch.next (.due n) (.asked p (account req) req.messages) =
        .due (n + 1) from if_neg hpurpose]
      exact ⟨by simpa using hle, .inl hcontrol⟩
  · refine (neutral_keeps hidle (.query _)).bind (fun resp => ?_) fun _ => .rfl
    exact neutral_keeps hidle ((Does.note rfl).bind fun _ => .ret)

theorem routed_seq {p : Purpose} (hpurpose : p ≠ .summary) {req : CompletionRequest} {timeout : Option ℚ}
    {k : ModelResponse → Async α} (hk : ∀ resp, Wakes R me (Awake R) (k resp)) :
    Wakes R me (Gripping R .cleared) (route p req timeout >>= k) :=
  (holds_route_watched hpurpose req timeout).bind
    (fun resp => (hk resp).weaken_pre fun _ _ _ _ _ hh => .inl hh) fun _ _ _ _ _ _ hh => .inl hh

theorem holds_plan_watched : Wakes R me (Gripping R .cleared) (R.plan i agent) := by
  refine cleared_seq (.read _) fun l => ?_
  cases l.msgs with
  | nil => exact awake_of_cleared (fun _ _ _ hh => hh) (awake_keeps .fail)
  | cons first rest =>
    dsimp only
    split
    · exact awake_of_cleared (fun _ _ _ hh => hh) (awake_keeps .ret)
    · refine cleared_seq (.read _) fun ⟨req, timeout⟩ => routed_seq (p := .plan) (by decide) fun resp => ?_
      -- the test is a computation on strings, which would be run to compare programs
      generalize decide (Coreai.Keystore.strip resp.content ≠ "") = b
      refine awake_seq (.assign trivial) fun _ => awake_seq (.event open_neutral rfl) fun _ => ?_
      exact awake_seq (.when (.assign trivial)) fun _ =>
        awake_keeps (.checkpoint open_neutral open_neutral.id)

theorem holds_model_watched : Wakes R me (Gripping R .cleared) (R.model i agent) := by
  refine cleared_seq (.read _) fun _ => cleared_seq (.compact open_neutral free_neutral _) fun _ =>
    cleared_seq (.read _) fun _ => ?_
  refine routed_seq (p := .step) (by decide) fun resp => awake_seq (.assign trivial) fun _ =>
    awake_seq (.read _) fun _ => ?_
  exact awake_seq (.event open_neutral rfl) fun _ => awake_keeps .ret

/-! ## Executions -/

theorem limit_seq {k : Option StopReason → Async α}
    (hstop : ∀ reason, reason ≠ .paused → Wakes R me (Gripping R (.ending reason)) (k (some reason)))
    (hroom : Wakes R me (Gripping R .cleared) (k none)) :
    Wakes R me (Awake R) (limit i agent >>= k) := by
  refine holds_limit_watched.bind_returns fun o => ?_
  cases o with
  | none => exact hroom
  | some reason => exact .assume (fun _ _ _ _ _ hp => hp.2) fun hreason => (hstop reason hreason).weaken_pre fun _ _ _ _ _ hp => hp.1

theorem holds_stop (hreason : reason ≠ .paused) (result : Option String)
    {pre : (controls R).Assn}
    (hpre : ∀ s h l, pre s h l → Closes reason h) :
    Wakes R me pre (finishRun i reason result) :=
  ((holds_finishRun_watched hreason result).weaken_pre fun s h _ l _ hp =>
    hpre s h l hp).weaken_post fun _ _ _ _ _ _ ⟨_, _, hh⟩ => .inl hh

theorem token_of_awake {h : Multiset Grip} {l : List (Logic.Event Γ)}
    (hh : Awake R s h l) (reason : StopReason) :
    Closes reason h := by
  obtain rfl | rfl := hh
  · exact ⟨_, rfl, .inl (.inl rfl)⟩
  · exact ⟨_, rfl, .inl (.inr rfl)⟩

theorem holds_tools_watched (calls : List ToolCall) (decision : Option Bool) :
    Wakes R me (Awake R) (R.tools i agent calls decision) := by
  refine awake_keeps (.tools open_neutral free_neutral ?_ ?_ calls decision)
  · exact fun _ _ => rfl
  · exact fun _ _ _ => rfl

theorem holds_loop_watched (n : ℕ) : Wakes R me (Awake R) (R.loop i agent n) := by
  induction n with
  | zero => exact awake_keeps .fail
  | succ n ih =>
    refine limit_seq (fun reason hreason => ?_) ?_
    · exact holds_stop hreason none fun _ _ _ hh => ⟨_, hh, .inr rfl⟩
    · refine Contract.Holds.bind holds_model_watched (fun resp => ?_) fun _ => .rfl
      refine awake_seq (.assign trivial) fun _ => ?_
      split
      · refine awake_seq (.append free_neutral _) fun _ => awake_seq (.checkpoint open_neutral ?_) fun _ => ?_
        · exact fun _ => rfl
        · exact holds_stop (by decide) _ fun _ _ _ hh => token_of_awake hh _
      · refine awake_seq (.append free_neutral _) fun _ =>
          (holds_tools_watched resp.toolCalls none).bind (fun waits => ?_) fun _ => .rfl
        cases waits with
        | true => exact awake_keeps .ret
        | false =>
          refine awake_seq (.checkpoint open_neutral open_neutral.id) fun _ =>
            awake_seq (.read _) fun l => ?_
          split
          · exact holds_stop (by decide) none fun _ _ _ hh => token_of_awake hh _
          · exact ih

theorem holds_goOn_watched (pending : Option (List ToolCall)) :
    Wakes R me (Awake R) (R.goOn i agent pending) := by
  refine awake_seq (.read _) fun left => awake_seq (.read _) fun l => ?_
  split
  · refine limit_seq (fun reason hreason => ?_) ?_
    · exact holds_stop hreason none fun _ _ _ hh => ⟨_, hh, .inr rfl⟩
    · exact Contract.Holds.bind holds_plan_watched (fun _ => holds_loop_watched _) fun _ => .rfl
  · exact holds_loop_watched _

theorem holds_attempt_watched (pending : Option (List ToolCall)) (decision : Option Bool) :
    Wakes R me (Awake R) (R.attempt i agent pending decision) := by
  cases pending with
  | none => exact holds_goOn_watched none
  | some calls =>
    refine (holds_tools_watched calls decision).bind (fun waits => ?_) fun _ => .rfl
    cases waits with
    | true => exact awake_keeps .ret
    | false => exact holds_goOn_watched _

/-- An error ends the run too, but leaves the control as it is. -/
theorem holds_rescue_watched (e : Exc) : Wakes R me (Awake R) (rescue i e) := by
  cases e with
  | cancelled =>
    refine awake_seq (.checkpoint open_neutral ?_) fun _ => awake_keeps .fail
    exact fun _ => rfl
  | error name detail =>
    refine awake_seq (.event open_neutral rfl) fun _ =>
      awake_seq (.checkpoint open_neutral open_neutral.id) fun _ => ?_
    refine awake_seq (.write ?_) fun _ => awake_seq (.read _) fun l => ?_
    · exact fun _ => rfl
    intro s h F t hinv hh
    obtain ⟨g, rfl, hg⟩ := token_of_awake hh .error
    refine ((holds_note_end .error _ _ ?_).weaken_post ?_) s {g} F t hinv rfl
    · rintro reason' rfl
      exact hg.elim (fun h => nomatch h) fun h => (Grip.ending.inj h)
    · exact fun _ _ _ _ _ _ ⟨_, _, hh⟩ => .inl hh

/-- `_execute`. -/
theorem holds_execute_watched (decision : Option Bool) : Wakes R me (Awake R) (R.execute i decision) := by
  refine awake_seq (.read _) fun run => awake_seq (.note rfl) fun _ => ?_
  split
  · exact awake_keeps .ret
  · split
    · exact awake_keeps .fail
    · refine awake_seq (.assign (f := fun _ => run.locals) trivial) fun _ => awake_seq (.write ?_) fun _ => ?_
      · exact fun _ => rfl
      refine awake_seq (.note ?_) fun _ => ?_
      · split <;> rfl
      refine Contract.Holds.bind (N := fun _ => Awake R) ?_ (fun _ => awake_keeps (.read _)) fun _ => .rfl
      exact Contract.Holds.tryCatch (holds_attempt_watched run.pending decision)
        (fun _ => .rfl) holds_rescue_watched

/-- The end of an execution. -/
theorem holds_leave_watched : (controls R).Holds me (Awake R) (leave i) fun r _ h _ => r = .ok () ∧ h = 0 := by
  refine Contract.Holds.sync fun s h F l hinv hh => ?_
  obtain ⟨t, rfl, ht⟩ := token_of_awake hh .error
  obtain rfl := Controlled.single hinv
  have hs : Controlled s {t} := hinv
  have hlive : s.live = 1 := hs.live.symm
  refine ⟨fun _ _ => rfl, (0 : Multiset Grip), ⟨?_, ?_, hs.control, ?_⟩, rfl, rfl⟩
  · show 0 = s.live - 1
    omega
  · show s.live - 1 ≤ 1
    omega
  · show Bound _ (0 : Multiset Grip) (Watch.of s.journal)
    have hawake : t = .idle ∨ t = .cleared := by
      obtain hg | hg := hh
      · exact .inl (Multiset.singleton_inj.mp hg)
      · exact .inr (Multiset.singleton_inj.mp hg)
    obtain hw | ⟨n, hw, hle, hcontrol⟩ := hs.awake hawake
    · rw [hw]
      trivial
    · rw [hw]
      exact ⟨by simpa using (Nat.le_add_right _ _).trans hle, .inl hcontrol⟩

theorem holds_body_watched (c : Execution) :
    (controls R).Holds me (Gripping R .idle) (R.body i c) fun _ _ h _ => h = 0 := by
  obtain ⟨decision⟩ := c
  refine Contract.Holds.tryFinally ((holds_execute_watched decision).weaken_pre fun _ _ _ _ _ hh =>
    .inl hh) (fun _ => holds_leave_watched) ?_ ?_
  · exact fun _ _ _ _ _ _ hp => hp.2
  · exact fun _ _ _ _ _ _ _ hp => hp.2

/-! ## The outside world -/

theorem notMem_sum {held : List (Multiset Grip)}
    (h : ∀ x ∈ held, Grip.ending reason ∉ x) :
    Grip.ending reason ∉ held.sum := by
  induction held with
  | nil => exact Multiset.notMem_zero _
  | cons x held ih =>
    rw [List.sum_cons, Multiset.mem_add, not_or]
    exact ⟨h x List.mem_cons_self, ih fun y hy => h y (List.mem_cons_of_mem _ hy)⟩

/-- No execution is about to end the run between two bursts. -/
theorem not_closing {p : Pool Γ} (hp : (controls R).Good p) : Watch.of p.state.journal ≠ .closing := by
  intro hw
  obtain ⟨held, hinv, hheld⟩ := hp.held
  obtain ⟨reason, hmem, -⟩ := Controlled.bound_of hinv hw
  have hno : ∀ h ∈ held, Grip.ending reason ∉ h := by
    intro h hh
    obtain ⟨-, rfl⟩ | (rfl | rfl) | ⟨_, _, _, _, rfl⟩ := hheld h hh
    · show Grip.ending reason ∉ ({.idle} : Multiset Grip)
      simp
    · show Grip.ending reason ∉ ({.idle} : Multiset Grip)
      simp
    · show Grip.ending reason ∉ ({.cleared} : Multiset Grip)
      simp
    · exact Multiset.notMem_zero _
  exact notMem_sum hno hmem

theorem journal_control (s : HarnessState) (c : Control) :
    (s.write fun r => { r with control := some c }).journal = s.journal := if_pos rfl

/-- A request other than a pause. -/
theorem controlled_request (hs : Controlled s held)
    (hw : Watch.of s.journal ≠ .closing)
    {c : Control} (hc : c ≠ .pause) : Controlled (s.request c) held := by
  unfold HarnessState.request
  split
  · refine ⟨hs.live, hs.alone, fun h => hc (Option.some.inj h), ?_⟩
    show Bound _ held ((Watch.of (s.write fun r => { r with control := some c }).journal).next (.requested c))
    rw [journal_control]
    have hcount : held.count .cleared ≤ 1 := (Multiset.count_le_card _ _).trans (hs.live.trans_le hs.alone)
    cases hwatch : Watch.of s.journal with
    | fine =>
      rw [show Watch.next .fine (.requested c) = .due 0 from if_neg hc]
      exact ⟨by omega, .inl nofun⟩
    | due n =>
      exact ⟨(hs.bound_of hwatch).1, .inl nofun⟩
    | closing => exact absurd hwatch hw
    | broken => exact absurd hwatch hs.not_broken
  · exact hs

/-- An ending from outside: no request is due after it. -/
theorem controlled_finish (hlive : held.card = s.live)
    (halone : s.live ≤ 1)
    (hclosing : Watch.of s.journal ≠ .closing) (hbroken : Watch.of s.journal ≠ .broken)
    (status : RunStatus) (reason : StopReason) :
    Controlled (s.finish status reason) held := by
  refine ⟨hlive, halone, nofun, ?_⟩
  have hwrite : Watch.of (s.write fun r => { r with status := status, stopReason := some reason, control := none }).journal =
      Watch.of s.journal := by
    unfold HarnessState.write
    split
    · rfl
    · exact Watch.next_plain rfl _
  show Bound _ held (((Watch.of (s.write fun r =>
    { r with status := status, stopReason := some reason, control := none }).journal).next
    (.trace (.runFinished reason none none))).next (.finished _ _ status reason _))
  rw [hwrite, Watch.next_plain rfl]
  cases hwatch : Watch.of s.journal with
  | fine => trivial
  | due n => trivial
  | closing => exact absurd hwatch hclosing
  | broken => exact absurd hwatch hbroken

def unpaused : Move Γ Op → Bool
  | .op .pause => false
  | _ => true

theorem controlled_op {p : Pool Γ} (hp : (controls R).Good p) {o : Op} (ho : o ≠ .pause)
    (hs : Controlled p.state held) :
    Controlled (op o p.state) held := by
  have hw := not_closing hp
  have hbroken := hs.not_broken
  cases o with
  | pause => exact absurd rfl ho
  | cancel =>
    show Controlled p.state.cancel held
    unfold HarnessState.cancel
    split
    · obtain ⟨n, hn⟩ := Watch.next_requested hw hbroken (c := .cancel) (by decide)
      have hnote : Watch.of (p.state.note (.requested .cancel)).journal = .due n := hn
      exact controlled_finish (s := p.state.note (.requested .cancel)) hs.live hs.alone
        (by simp only [hnote]; nofun) (by simp only [hnote]; nofun) _ _
    · exact controlled_request hs hw (by decide)
  | kill owner =>
    show Controlled (p.state.kill owner) held
    have hrequest : Controlled (p.state.request .kill) held := controlled_request hs hw (by decide)
    have hwrequest : Watch.of (p.state.request .kill).journal ≠ .closing := by
      unfold HarnessState.request
      split
      · obtain ⟨n, hn⟩ := Watch.next_requested hw hbroken (c := .kill) (by decide)
        show (Watch.of (p.state.write fun r => { r with control := some .kill }).journal).next
          (.requested .kill) ≠ .closing
        rw [journal_control, hn]
        nofun
      · exact hw
    unfold HarnessState.kill
    split
    · dsimp only
      split
      · exact controlled_finish hrequest.live hrequest.alone hwrequest hrequest.not_broken _ _
      · exact hrequest
    · exact hs
  | clock now => exact ⟨hs.live, hs.alone, hs.control, hs.bound.of_eq rfl⟩
  | registry r => exact ⟨hs.live, hs.alone, hs.control, hs.bound.of_eq rfl⟩
  | memory found => exact ⟨hs.live, hs.alone, hs.control, hs.bound.of_eq rfl⟩

/-! ## Every run -/

theorem sound_controls : (controls R).Sound R.Created fun p m => Alone p m ∧ unpaused m where
  start s hs := by
    obtain ⟨⟨name, agent, task, owner, -, hrun⟩, hjournal, hlive, -⟩ := hs
    refine ⟨hlive.symm, hlive.trans_le (Nat.zero_le 1), by simp [hrun, newRun], ?_⟩
    rw [hjournal]
    trivial
  body i c _ := (holds_body_watched c).weaken_pre fun _ _ _ _ _ hp => hp.1
  enter p c s _ hG hs := by
    obtain rfl := Option.some.inj hs
    refine ⟨trivial, fun _ => rfl, fun (held : Multiset Grip) hheld => ?_⟩
    have hs : Controlled p.state held := hheld
    have hlive : p.state.live = 0 := hG.1
    obtain rfl : held = 0 := Multiset.card_eq_zero.mp (hs.live.trans hlive)
    have hnext : Controlled { p.state with live := p.state.live + 1 } {.idle} := by
      refine ⟨by simp [hlive], by simp [hlive], hs.control, ?_⟩
      cases hwatch : Watch.of p.state.journal with
      | fine => trivial
      | due n =>
        obtain ⟨hle, hcontrol⟩ := hs.bound_of hwatch
        exact ⟨by simpa using hle, .inl (hcontrol.resolve_right fun ⟨_, h⟩ => Multiset.notMem_zero _ h)⟩
      | closing =>
        obtain ⟨_, h, -⟩ := hs.bound_of hwatch
        exact absurd h (Multiset.notMem_zero _)
      | broken => exact absurd hwatch hs.not_broken
    exact hnext
  op p o s hp hG hs := by
    obtain rfl := Option.some.inj hs
    refine ⟨fun _ => rfl, fun _ hheld => controlled_op hp ?_ hheld⟩
    rintro rfl
    exact Bool.false_ne_true hG.2
  reboot _ _ _ _ hs := nomatch hs
  begins _ _ _ _ _ _ _ := trivial
  rely _ _ _ _ _ _ _ _ _ _ _ := trivial

/-- **An accepted cancel or kill stops the run**: at most one more model call is started, and the
next check of the limits ends it. -/
theorem cancel_dominates {p : Pool Γ} (h : (R.machine false).Reach (fun p m => Alone p m ∧ unpaused m) p) :
    Dominates p.state.journal := by
  have hp := sound_controls.good h
  obtain ⟨held, hinv, -⟩ := hp.held
  refine dominates_of_watch (Controlled.not_broken hinv) (not_closing hp) fun n hn => ?_
  exact (Nat.le_add_right _ _).trans (Controlled.bound_of hinv hn).1

/-- A run that is cancelled while it waits for the model, which calls a tool that does not exist. -/
def cancelledStep : List (Move Γ Op) :=
  [.spawn (.execute none), .start 0, .op .cancel, .resume 0 (reply [⟨"1", "tool", "1"⟩])]

theorem cancel_dominates_step : ∃ p : Pool Γ, p.state.run.status = .cancelled ∧
    p.state.journal.countP Entry.asks = 1 ∧
    Dominates p.state.journal := by
  have htest : (((harnessOf plainAgent).program false).replay (fun p m => Alone p m ∧ unpaused m)
    (opened plainAgent) cancelledStep).any
      (fun p => p.state.run.status = .cancelled ∧ p.state.journal.countP Entry.asks =
        1) = true := by decide +kernel
  obtain ⟨p, hp, htest⟩ := Machine.exists_of_any htest
  obtain ⟨hstatus, hasks⟩ := of_decide_eq_true htest
  exact ⟨p, hstatus, hasks, cancel_dominates (Program.replay_reach (.start (opened_start plainAgent)) hp)⟩

end

end HarnessRunner

end Caips.Harness
