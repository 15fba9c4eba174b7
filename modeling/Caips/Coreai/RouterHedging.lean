/-
Caips.Coreai.RouterHedging — the legs of a hedged call do not outlive it.

`_call_hedged` starts the call of the primary as a task, waits for it up to the
hedge delay, and may then start a second one. From there on every way out
passes by an await that ends when both legs have: the loser of the race is
gathered, and so are both legs where the request is interrupted.

The first wait is outside of that `try`. An interrupt there is not passed on,
and the leg of the primary goes on alone. Requests that are not interrupted at
that wait, while their leg is running, leave nothing running.
-/
import Caips.Logic.CoroChildren
import Caips.Coreai.RouterDeadline

namespace Caips.Coreai

open Caips.Logic Caips.Providers

namespace Router

open RouterState

variable {S : Setup}

/-! ## What the event loop does, and what the caller does -/

/-- An interrupt of an awaited task, or of a `gather`, is passed on to the tasks
awaited, and the await goes on when they have ended. -/
abbrev PassedOn (p : Pool Γ) : (q : Ask Γ) → Except Exc q.Reply → Prop := Passed p (· = .all)

/-- A request is not interrupted while it waits for the first leg alone, unless
that leg is over. -/
def Undisturbed (p : Pool Γ) : (q : Ask Γ) → Except Exc q.Reply → Prop
  | .wait .upTo hs, .error _ => ∀ h ∈ hs, p.Over h.1
  | _, _ => True

/-- No provider is added, replaced or dropped; interrupts are passed on; and
none reaches the first wait of a hedged call. -/
def Hedges (p : Pool Γ) : Move Γ Op → Prop
  | .resume i a => p.AtResume i a fun _ q r => PassedOn p q r ∧ Undisturbed p q r
  | m => FixedRegistry p m

variable {p : Pool Γ}

theorem Hedges.fixed {m : Move Γ Op} (h : Hedges p m) : FixedRegistry p m := by
  cases m with
  | resume i a => trivial
  | _ => exact h

theorem hedges_passed {i : Nat} {a : Oracle Γ} {t : Task Γ} {q : Ask Γ}
    {k : Except Exc q.Reply → Coro Γ (Γ.Out t.child)} (h : Hedges p (.resume i a))
    (ht : p.tasks[i]? = some t) (hq : t.status = .suspended q k) :
    Passed p (· ≠ .first) q (a q) := by
  have hresume : p.AtResume i a fun _ q r => PassedOn p q r ∧ Undisturbed p q r := h
  obtain ⟨hpassed, hcalm⟩ := hresume.of ht hq
  cases q with
  | call q => trivial
  | wait m hs =>
    cases hr : a (.wait m hs) with
    | ok l => trivial
    | error e =>
      rw [hr] at hpassed hcalm
      intro hm
      cases m with
      | upTo => exact hcalm
      | first => exact absurd rfl hm
      | all => exact hpassed rfl
  | join h =>
    cases hr : a (.join h) with
    | ok x => trivial
    | error e =>
      rw [hr] at hpassed
      exact hpassed

/-! ## Where the legs are over -/

/-- From here on the task ends with all its legs over but these. -/
abbrev Leaves (S : Setup) {α : Type} (c : Async α) (s : RouterState) (l : Trail Γ)
    (Q : Except Exc α → List Γ.Handle) (s₀ : RouterState) : Prop :=
  c.Follows (frozen S) (fun _ _ _ => True) (fun s l o => Frozen s₀ s ∧ Clean (Q o) l) s l

def Calls : Ask Γ → Prop
  | .call _ => True
  | _ => False

theorem Silent.calls {q : Ask Γ} (h : Silent q) : Calls q := by
  cases q with
  | call q => trivial
  | wait m hs => exact h.elim
  | join hd => exact h.elim

section Rules

variable {α β : Type} {s₀ s : RouterState} {l : Trail Γ} {hs : List Γ.Handle}

theorem leaves_calls {c : Async α} (hc : Scope Calls c) (hs : Frozen s₀ s) {hs' : List Γ.Handle}
    (hl : Clean hs' l) : Leaves S c s l (fun _ => hs') s₀ := by
  refine Coro.Follows.within (I := fun s l => Frozen s₀ s ∧ Clean hs' l)
    (fun s s' l h hN => ⟨h.1.trans (Quiet.frozen hN), h.2⟩) ?_ ?_ hc ⟨hs, hl⟩
  · intro s l q h hq
    exact ⟨trivial, fun r s' hr => ⟨h.1.trans (Program.world_step hr), h.2.other _⟩⟩
  · exact fun _ _ _ _ hq => hq.elim

theorem leaves_bind {c : Async β} {k : β → Async α} {Q : Except Exc α → List Γ.Handle}
    (hc : Scope Calls c) (hs : Frozen s₀ s) {hs' : List Γ.Handle} (hl : Clean hs' l)
    (herror : ∀ e, ∀ x ∈ hs', x ∈ Q (.error e))
    (hk : ∀ a s l, Frozen s₀ s → Clean hs' l → Leaves S (k a) s l Q s₀) :
    Leaves S (c >>= k) s l Q s₀ := by
  refine .bind ((leaves_calls hc hs hl).mono fun s l o ho => ?_)
  cases o with
  | ok a => exact hk a s l ho.1 ho.2
  | error e => exact ⟨ho.1, ho.2.mono (herror e)⟩

theorem leaves_awaitAll (hs : Frozen s₀ s) {legs : List Γ.Handle} (hl : Clean legs l) :
    (awaitAll legs).Follows (frozen S) (fun _ _ _ => True)
      (fun s l o => Frozen s₀ s ∧ Clean [] l ∧ ∀ e, o = .error e → e = .cancelled) s l := by
  refine .ask_handle (q := (.wait .all legs : Ask Γ)) trivial (fun ended s' hr => ?_) fun e s' hr => ?_
  · refine ⟨hs.trans hr.1, hl.event fun x hx => .inr ?_, nofun⟩
    obtain ⟨o, ho⟩ := hr.2.2.2 rfl x hx
    exact ⟨_, ho, rfl⟩
  · refine ⟨hs.trans hr.1, hl.event fun x hx => .inr ⟨nofun, x, hx, rfl⟩, fun e' he => ?_⟩
    rw [← Except.error.inj he]
    exact hr.2

/-- The legs that have not ended yet. -/
def running (pending : List Γ.Handle) (ended : List Γ.Ending) : List Γ.Handle :=
  pending.filter fun h => !(ended.any fun x => x.1.1 = h.1)

variable {pending : List Γ.Handle} {ended : List Γ.Ending}

theorem mem_of_mem_running {x : Γ.Handle}
    (h : x ∈ running pending ended) : x ∈ pending := (List.mem_filter.mp h).1

theorem clean_running {m : Wait}
    (hl : Clean pending l) : Clean (running pending ended) (.inl ⟨.wait m pending, .ok ended⟩ :: l) := by
  refine hl.event fun x hx => ?_
  by_cases hover : ended.any (fun y => y.1.1 = x.1) = true
  · obtain ⟨y, hy, heq⟩ := List.any_eq_true.mp hover
    exact .inr ⟨y, hy, of_decide_eq_true heq⟩
  · rw [Bool.not_eq_true] at hover
    exact .inl (List.mem_filter.mpr ⟨hx, by rw [hover]; rfl⟩)

theorem running_length (hmem : ∀ x ∈ ended, x.1 ∈ pending) (hsome : ended ≠ []) :
    (running pending ended).length < pending.length := by
  obtain ⟨y, hy⟩ := List.exists_mem_of_ne_nil _ hsome
  refine List.length_filter_lt_length_iff_exists.mpr ⟨y.1, hmem y hy, ?_⟩
  have hover : ended.any (fun x => decide (x.1.1 = y.1.1)) = true :=
    List.any_eq_true.mpr ⟨y, hy, decide_eq_true rfl⟩
  rw [hover]
  exact Bool.false_ne_true

/-- The race goes on while a leg is running; it ends with both over, or is
interrupted. -/
theorem leaves_hedgeLoop {nameOf : Γ.Handle → String} {legs : List Γ.Handle} :
    ∀ {rounds : Nat} {pending : List Γ.Handle} {errors : List (String × Exc)} {s : RouterState}
      {l : Trail Γ}, pending.length ≤ rounds → (∀ x ∈ pending, x ∈ legs) → Frozen s₀ s →
      Clean pending l →
      (hedgeLoop nameOf rounds pending errors).Follows (frozen S) (fun _ _ _ => True)
        (fun s l o => Frozen s₀ s ∧ match o with
          | .ok _ => Clean [] l
          | .error e => e = .cancelled ∧ Clean legs l) s l
  | 0, pending, _, _, _, hlen, _, hs, hl => by
      obtain rfl := List.length_eq_zero_iff.mp (Nat.le_zero.mp hlen)
      exact ⟨hs, hl⟩
  | rounds + 1, pending, errors, s, l, hlen, hlegs, hs, hl => by
      unfold hedgeLoop
      split
      · rename_i hempty
        obtain rfl := List.isEmpty_iff.mp hempty
        exact ⟨hs, hl⟩
      refine .ask_handle (q := (.wait .first pending : Ask Γ)) trivial ?_ fun e s' hr =>
        ⟨hs.trans hr.1, hr.2, (hl.mono hlegs).other _⟩
      · intro (ended : List Γ.Ending) s' hr
        have hfrozen := hs.trans hr.1
        obtain ⟨hmem, hfirst, -⟩ := hr.2
        have hclean : Clean (running pending ended) _ := clean_running (m := .first) hl
        have hshort := running_length hmem (hfirst rfl)
        have hfew : ∀ x ∈ running pending ended, x ∈ legs := fun x hx => hlegs x (mem_of_mem_running hx)
        dsimp only
        split
        · rename_i e he
          exact ⟨hfrozen, firstSuccess_error he, hclean.mono hfew⟩
        · refine .when_bind (fun _ => ?_) fun hnone => ?_
          · refine .bind ((leaves_awaitAll hfrozen hclean).mono fun s l o ho => ?_)
            cases o with
            | ok u => exact ⟨ho.1, ho.2.1⟩
            | error e => exact ⟨ho.1, ho.2.2 e rfl, ho.2.1.mono fun _ h => absurd h List.not_mem_nil⟩
          · rw [Bool.not_eq_false'] at hnone
            have hempty : running pending ended = [] := List.isEmpty_iff.mp hnone
            rw [hempty] at hclean
            exact ⟨hfrozen, hclean⟩
        · exact leaves_hedgeLoop (Nat.le_of_lt_succ (Nat.lt_of_lt_of_le hshort hlen)) hfew hfrozen hclean

/-- Every way out of a hedged call is behind the end of both legs. -/
theorem leaves_callHedged {primary partner : String} {r partnerReq : CompletionRequest}
    {deadline : Deadline} {attempts partnerAttempts probe : Nat} (hs₀ : Consistent s₀)
    (hpartner : partner ∈ s₀.providers.keys) (hs : Frozen s₀ s) (hl : Clean [] l) :
    Leaves S (callHedged primary partner r partnerReq deadline attempts partnerAttempts probe) s l
      (fun _ => []) s₀ := by
  refine .start_bind fun n => ?_
  set t₁ : Γ.Handle := (n, Call.leg primary r deadline attempts probe)
  have hfirst := hl.start t₁
  refine .ask_handle (q := (.wait .upTo [t₁] : Ask Γ)) trivial ?_ fun e s' hr =>
    ⟨hs.trans hr.1, hfirst.event fun x hx => .inr ⟨nofun, x, hx, rfl⟩⟩
  intro (ended : List Γ.Ending) s' hr
  have hfrozen := hs.trans hr.1
  cases ended with
  | cons x ended =>
    have hclean : Clean [] (.inl ⟨.wait .upTo [t₁], .ok (x :: ended)⟩ :: .inr t₁ :: l) := by
      refine hfirst.event fun y hy => .inr ⟨x, List.mem_cons_self, ?_⟩
      rw [List.mem_singleton.mp hy, List.mem_singleton.mp (hr.2.1 x List.mem_cons_self)]
    show ((Coro.ofExcept (result x) : Async CompletionResponse).handle _ _).Follows _ _ _ _ _
    cases result x with
    | ok response => exact ⟨hfrozen, hclean⟩
    | error e => exact ⟨hfrozen, hclean⟩
  | nil =>
    have hwaiting : Clean [t₁] (.inl ⟨.wait .upTo [t₁], .ok []⟩ :: .inr t₁ :: l) := hfirst.other _
    obtain ⟨b, hb⟩ := Dict.mem_keys.mp (((hfrozen.consistent hs₀).breakers partner).mpr
      (by rw [hfrozen.names]; exact hpartner))
    refine .sync_bind (fun e he => nomatch (lookup_of_get? hb).symm.trans he) fun b' _ => ?_
    refine .sync_bind (fun e he => nomatch he) fun partnerProbe hallow => ?_
    have hallowed := hfrozen.trans (quiet_allow s' b').frozen
    cases partnerProbe with
    | none =>
      exact .ask_handle (q := (.join t₁ : Ask Γ)) trivial
        (fun a s'' hr => ⟨hallowed.trans hr, hwaiting.event fun x hx => .inr (List.mem_singleton.mp hx ▸ rfl)⟩)
        fun e s'' hr => ⟨hallowed.trans hr, hwaiting.event fun x hx => .inr (List.mem_singleton.mp hx ▸ rfl)⟩
    | some partnerProbe =>
      refine .start_bind fun n' => .sync_bind (fun e he => nomatch he) fun u _ => ?_
      set t₂ : Γ.Handle := (n', Call.leg partner partnerReq deadline partnerAttempts partnerProbe)
      have hboth : Clean [t₁, t₂] (.inr t₂ :: .inl ⟨.wait .upTo [t₁], .ok []⟩ :: .inr t₁ :: l) :=
        (hwaiting.start t₂).mono fun x hx => by simpa [or_comm] using hx
      have hcounted : Frozen s₀ { (allow s' b').2 with hedgeCount := (allow s' b').2.hedgeCount + 1 } :=
        hallowed.trans ⟨rfl, rfl, rfl, rfl, rfl⟩
      refine .bind (.tryCatch ((leaves_hedgeLoop (Nat.le_refl 2) (fun x hx => hx) hcounted hboth).mono
        fun s l o ho => ?_))
      obtain ⟨hs, ho⟩ := ho
      cases o with
      | ok hedged =>
        refine .when_bind (fun _ => ?_) fun _ => ⟨hs, ho⟩
        exact .sync_bind (fun e he => nomatch he) fun u _ => ⟨hs.trans ⟨rfl, rfl, rfl, rfl, rfl⟩, ho⟩
      | error e =>
        obtain ⟨rfl, hl⟩ := ho
        refine .bind ((leaves_awaitAll hs hl).mono fun s l o ho => ?_)
        cases o with
        | ok u => exact ⟨ho.1, ho.2.1⟩
        | error e => exact ⟨ho.1, ho.2.1⟩

theorem leaves_goOn {b isLast : Bool} {e : Exc} {k : Async α} (hs : Frozen s₀ s) (hl : Clean [] l)
    (hk : ∀ s l, Frozen s₀ s → Clean [] l → Leaves S k s l (fun _ => []) s₀) :
    Leaves S (do
      Coro.when b (Coro.fail e)
      countFailover isLast
      k) s l (fun _ => []) s₀ := by
  refine .when_bind (fun _ => ⟨hs, hl⟩) fun _ => ?_
  exact leaves_bind scope_countFailover hs hl (fun _ _ hx => hx) fun u s l => hk s l

/-- No leg is left behind by the candidates. -/
theorem leaves_routeLoop (hs₀ : Consistent s₀) {i : Nat} {r : CompletionRequest} {deadline : Deadline}
    {hedging single : Bool} :
    ∀ {plan : List (String × CompletionRequest)} {g : Progress} {s : RouterState} {l : Trail Γ},
      (∀ c ∈ plan, c.1 ∈ s₀.providers.keys) → Frozen s₀ s → Clean [] l →
      Leaves S (routeLoop S i r deadline hedging single plan g) s l (fun _ => []) s₀
  | [], _, _, _, _, hs, hl => leaves_calls scope_exhausted hs hl
  | (name, req) :: rest, g, s, l, hnames, hs, hl => by
      have hrest : ∀ c ∈ rest, c.1 ∈ s₀.providers.keys := fun c hc => hnames c (List.mem_cons_of_mem _ hc)
      have hnext : ∀ g s l, Frozen s₀ s → Clean [] l →
          Leaves S (routeLoop S i r deadline hedging single rest g) s l (fun _ => []) s₀ :=
        fun g s l hs hl => leaves_routeLoop hs₀ hrest hs hl
      have hfail : ∀ e s l, Frozen s₀ s → Clean [] l → Leaves S (do
            Coro.when (!e.isException || givesUp S e) (Coro.fail e)
            countFailover rest.isEmpty
            routeLoop S i r deadline hedging single rest (g.add name e)) s l (fun _ => []) s₀ :=
        fun e s l hs hl => leaves_goOn hs hl (hnext _)
      unfold routeLoop
      split
      · exact hnext g s l hs hl
      refine .sync_bind (fun e he => by cases he) fun u _ => ?_
      have hturn : Frozen s₀ (s.turnTo i (name :: (rest.map Prod.fst).filter fun n => !g.skip.contains n)) :=
        hs.trans ⟨rfl, rfl, rfl, rfl, rfl⟩
      refine leaves_bind scope_allowCandidate hturn hl (fun _ _ hx => hx) fun x s l hs hl => ?_
      obtain ⟨b, x⟩ := x
      cases x with
      | error e => exact hnext _ s l hs hl
      | ok probe =>
        dsimp only
        split
        · have hscope : Scope Calls (callProvider S name req deadline (attemptsFor S rest.isEmpty) probe) :=
            scope_callProvider (fun q => Silent.calls) fun _ _ => trivial
          refine .handle ((leaves_calls hscope hs hl).mono fun s l o ho => ?_)
          cases o with
          | ok response => exact leaves_calls scope_succeed ho.1 ho.2
          | error e => exact hfail e s l ho.1 ho.2
        · rename_i partner partnerReq hpartner
          obtain ⟨rest', rfl, -⟩ := partnerOf_some hpartner
          have hregistered : partner ∈ s₀.providers.keys := hrest _ List.mem_cons_self
          refine .handle ((leaves_callHedged hs₀ hregistered hs hl).mono fun s l o ho => ?_)
          obtain ⟨hs, hl⟩ := ho
          cases o with
          | error e => exact hfail e s l hs hl
          | ok hedged =>
            cases hedged with
            | won winner response launched => exact leaves_calls scope_succeed hs hl
            | failed errors =>
              refine .bind (Coro.follows_ofExcept.mpr ?_)
              cases lookup (Dict.ofList errors) name with
              | error e => exact ⟨hs, hl⟩
              | ok last => exact leaves_goOn hs hl (hnext _)

/-- A request leaves no leg behind. -/
theorem leaves_route {i : Nat} {r : CompletionRequest} {preferred : Option String} {d : Option ℚ}
    (hs : Consistent s) : Leaves S (route S i r preferred d) s [] (fun _ => []) s := by
  have hquiet := quiet_prepare S r preferred d s
  have hplans := plans_prepare S r preferred d s hs rfl
  refine .sync_bind (fun e _ => ⟨hquiet.frozen, clean_nil⟩) fun x hx => ?_
  obtain ⟨r', deadline, plan⟩ := x
  rw [hx] at hplans
  refine leaves_bind (scope_yields fun s => quiet_cacheLookup s _ _) hquiet.frozen clean_nil
    (fun _ _ hx => hx) fun hit s' l hs' hl => ?_
  cases hit with
  | some hit => exact ⟨hs', hl⟩
  | none =>
    refine leaves_bind scope_reads hs' hl (fun _ _ hx => hx) fun delay s'' l hs'' hl => ?_
    exact leaves_routeLoop hs (fun c hc => (hplans.serves c hc).mem_keys) hs'' hl

end Rules

/-! ## Requests -/

/-- Who the admissions of breakers and limiters still out belong to: each to a
call that has not ended, or to an embedding call. -/
def OwnedByCalls (p : Pool Γ) : Prop :=
  ∃ l : List (Task Γ × Multiset Tok), l.map Prod.fst = p.tasks ∧
    p.state.probes.outstanding = ((l.map Prod.snd).sum.filterMap Tok.probe?).map
      (fun x => (x.1, ref p.state.breakers x.2)) ∧
    p.state.admitted.outstanding = (l.map Prod.snd).sum.filterMap Tok.active? ∧
    ∀ x ∈ l, x.1.isDone = true → x.1.child.isEmbed = false → x.2 = 0

/-- The mode of a fixed registry that accounts for slots, too. -/
abbrev exactMode : Mode := { fixed := True, careful := True }

theorem good_of_exact (hp : (system S).Reach FixedRegistry p) :
    (contract S exactMode).Good p := by
  refine (sound fun s hs => inv_fresh hs).good (hp.mono_step fun p m p' hstep hG => ?_)
  refine allows_of_step id hstep ?_ ?_ fun _ _ _ => Pool.AtResume.intro fun _ _ _ _ hfixed => absurd trivial hfixed
  · rintro name q rfl
    exact hG.elim
  · rintro name rfl
    exact hG.elim

theorem owned_of_fixed (hp : (system S).Reach FixedRegistry p) : OwnedByCalls p := by
  obtain ⟨l, hl, hinv, hok⟩ := good_of_exact hp
  refine ⟨l, hl, (hinv.probes trivial).outstanding, (hinv.slots trivial).outstanding, ?_⟩
  intro x hx hdone hembed
  obtain ⟨i, hi⟩ := List.mem_iff_getElem?.mp hx
  obtain ⟨-, hpost⟩ := hok i x hi
  obtain ⟨⟨c, status, hist⟩, h⟩ := x
  cases status with
  | ready => cases hdone
  | suspended q k => cases hdone
  | done o =>
    have hspent : if c.isEmbed then _ else _ := hpost
    rw [show c.isEmbed = false from hembed] at hspent
    exact hspent.1.none_of_sure (.inl trivial)

/-- **Hedging leaves nothing running.** While no provider is added or removed,
interrupts of a race are passed on, and no request is interrupted while it waits
for its first leg alone: whenever a request has ended, in whatever way, every
leg it started has ended, and neither it nor any leg owns a slot or a probe. -/
theorem hedges_settled {p p' p'' : Pool Γ} (hp : (system S).Reach Hedges p) {i : Nat}
    {r : CompletionRequest} {preferred : Option String} {d : Option ℚ} {l hist : List (Event Γ)}
    (hi : p.tasks[i]? = some ⟨.route r preferred d, .ready, l⟩)
    (hstep : (program S).step p (.start i) = some p')
    {z : List (Machine.Step (Pool Γ) (Move Γ Op))} (hrun : (system S).Run p' z p'')
    (hhedges : ∀ e ∈ z, Hedges e.source e.label) {o : Except Exc CompletionResponse}
    (hdone : p''.tasks[i]? = some ⟨.route r preferred d, .done o, hist⟩) :
    (∀ j, (program S).StartedBy (⟨p, .start i, p'⟩ :: z) i j → p''.Over j) ∧ OwnedByCalls p'' := by
  obtain rfl : l = [] := Program.hist_of_ready (fun _ => rfl) hp _ (List.mem_of_getElem? hi) rfl
  have hfixed : (system S).Reach FixedRegistry p := hp.mono fun _ _ => Hedges.fixed
  have hend : (system S).Reach Hedges p'' := (hp.step ⟨hstep, trivial⟩ trivial).run hrun hhedges
  refine ⟨fun j hj => ?_, owned_of_fixed (hend.mono fun _ _ => Hedges.fixed)⟩
  obtain ⟨t, trail, ht, -, ⟨s, htraced, -⟩, hlists⟩ :=
    tame_frozen.traced_from (tame_frozen.scoped_reach hfixed) hi hstep hrun fun e he => (hhedges e he).fixed
  obtain rfl := Option.some.inj (hdone.symm.trans ht)
  have hclean := htraced.ends (leaves_route (consistent_reach (hfixed.mono fun _ _ _ => trivial))) rfl
  obtain ⟨h, hh, rfl⟩ := hlists.listed j hj
  rcases hclean.2 h hh with hnone | ⟨e, he, hshown⟩
  · exact absurd hnone List.not_mem_nil
  · rw [← htraced.1] at he
    exact Program.shown_over (fun _ => rfl) (fun p i a t q k => hedges_passed) hend
      (List.mem_of_getElem? hdone) he hshown

instance (p : Pool Γ) : (q : Ask Γ) → (r : Except Exc q.Reply) →
    Decidable (PassedOn p q r ∧ Undisturbed p q r)
  | .wait .upTo hs, .error _ => decidable_of_iff (∀ h ∈ hs, p.Over h.1)
      ⟨fun h => ⟨fun _ => h, h⟩, And.right⟩
  | .wait .first _, .error _ => .isTrue ⟨nofun, trivial⟩
  | .wait .all hs, .error _ => decidable_of_iff (∀ h ∈ hs, p.Over h.1)
      ⟨fun h => ⟨fun _ => h, trivial⟩, fun h => h.1 rfl⟩
  | .wait .upTo _, .ok _ => .isTrue ⟨trivial, trivial⟩
  | .wait .first _, .ok _ => .isTrue ⟨trivial, trivial⟩
  | .wait .all _, .ok _ => .isTrue ⟨trivial, trivial⟩
  | .join h, .error _ => decidable_of_iff (p.Over h.1) ⟨fun h => ⟨h, trivial⟩, And.left⟩
  | .join _, .ok _ => .isTrue ⟨trivial, trivial⟩
  | .call _, .ok _ => .isTrue ⟨trivial, trivial⟩
  | .call _, .error _ => .isTrue ⟨trivial, trivial⟩

instance (p : Pool Γ) : (m : Move Γ Op) → Decidable (Hedges p m)
  | .op (.setProvider _ _) | .op (.dropProvider _) => inferInstanceAs (Decidable False)
  | .op (.tick _) | .op (.provider _ _) | .op (.report _ _ _ _) | .op (.policies _) | .op (.modelGate _) | .spawn _
  | .start _ => inferInstanceAs (Decidable True)
  | .resume i a =>
    inferInstanceAs (Decidable (p.AtResume i a fun _ q r => PassedOn p q r ∧ Undisturbed p q r))
  | .crash _ _ _ => inferInstanceAs (Decidable True)

def hedgingSetup : Setup where
  config := { enableCache := false, enableRetry := false, hedgeAfterSeconds := some 1 }

/-- A request to `a` and `b` is about to start. -/
def hedgingPool : Pool Γ :=
  ⟨RouterState.init hedgingSetup pair, [⟨.route greeting none none, .ready, []⟩]⟩

theorem hedgingPool_reach {G : Pool Γ → Move Γ Op → Prop}
    (hG : G ⟨RouterState.init hedgingSetup pair, []⟩ (.spawn (.route greeting none none))) :
    (system hedgingSetup).Reach G hedgingPool :=
  .step (s := ⟨RouterState.init hedgingSetup pair, []⟩) (i := .spawn (.route greeting none none))
    (.start ⟨⟨pair, rfl⟩, rfl⟩) ⟨rfl, trivial⟩ hG

/-- The hedge delay has passed; everything else is as with `upstream`. -/
def delayed : Oracle Γ
  | .wait .upTo _ => .ok []
  | q => upstream none q

/-- The first leg is under way when the request is next resumed. -/
def underWay : List (Move Γ Op) := [.start 1, .resume 1 (upstream none)]

/-- Both legs are under way, and the request is interrupted. -/
def interrupted : List (Move Γ Op) :=
  [.resume 0 delayed, .start 2, .resume 2 (upstream none), .resume 0 (upstream none),
    .resume 1 (upstream (some .cancelled)), .resume 2 (upstream (some .cancelled)),
    .resume 0 (upstream none)]

theorem starts_leg {p' : Pool Γ} (hlen : p'.tasks.length = 2)
    (z : List (Machine.Step (Pool Γ) (Move Γ Op))) :
    (program hedgingSetup).StartedBy (⟨hedgingPool, .start 0, p'⟩ :: z) 0 1 := by
  refine ⟨_, List.mem_cons_self, rfl, Nat.le_refl 1, ?_⟩
  show 1 < p'.tasks.length
  rw [hlen]
  exact Nat.lt_succ_self 1

theorem hedges_settled_interrupted :
    ∃ p'' : Pool Γ, p''.tasks.length = 3 ∧ p''.Over 1 ∧ OwnedByCalls p'' := by
  have hrun : (((program hedgingSetup).step hedgingPool (.start 0)).bind fun p' =>
      if p'.tasks.length = 2 then (program hedgingSetup).replay Hedges p' (underWay ++ interrupted)
      else none).any (fun p => decide (p.tasks.length = 3) && decide (p.Over 0)) = true := by
    decide +kernel
  obtain ⟨p'', hp'', htest⟩ := Machine.exists_of_any hrun
  obtain ⟨p', hstep, hreplay⟩ := Option.bind_eq_some_iff.mp hp''
  rw [Option.ite_none_right_eq_some] at hreplay
  simp only [Bool.and_eq_true, decide_eq_true_eq] at htest
  obtain ⟨z, hz, hhedges⟩ : ∃ z, (system hedgingSetup).Run p' z p'' ∧ ∀ e ∈ z, Hedges e.source e.label :=
    Program.exists_run_of_replay hreplay.2
  obtain ⟨o, hist, hdone⟩ := Program.done_of_over (fun _ => rfl) rfl hstep hz htest.2
  obtain ⟨hover, howned⟩ := hedges_settled (hedgingPool_reach trivial) rfl hstep hz hhedges hdone
  exact ⟨p'', htest.1, hover 1 (starts_leg hreplay.1 z), howned⟩

/-- The request is interrupted while it waits for its first leg alone: it has
ended, and the provider call goes on. -/
theorem leg_outlives :
    ∃ (p' p'' : Pool Γ) (z : List (Machine.Step (Pool Γ) (Move Γ Op))),
      (system hedgingSetup).Reach FixedRegistry hedgingPool ∧
      (program hedgingSetup).step hedgingPool (.start 0) = some p' ∧
      (system hedgingSetup).Run p' z p'' ∧ (∀ e ∈ z, FixedRegistry e.source e.label) ∧ p''.Over 0 ∧
      (program hedgingSetup).StartedBy (⟨hedgingPool, .start 0, p'⟩ :: z) 0 1 ∧ ¬ p''.Over 1 := by
  have hrun : (((program hedgingSetup).step hedgingPool (.start 0)).bind fun p' =>
      if p'.tasks.length = 2 then
        (program hedgingSetup).replay FixedRegistry p' (underWay ++ [.resume 0 (upstream none)])
      else none).any (fun p => decide (p.Over 0) && !decide (p.Over 1)) = true := by decide +kernel
  obtain ⟨p'', hp'', htest⟩ := Machine.exists_of_any hrun
  obtain ⟨p', hstep, hreplay⟩ := Option.bind_eq_some_iff.mp hp''
  rw [Option.ite_none_right_eq_some] at hreplay
  simp only [Bool.and_eq_true, Bool.not_eq_true', decide_eq_true_eq, decide_eq_false_iff_not] at htest
  obtain ⟨z, hz, hfixed⟩ : ∃ z, (system hedgingSetup).Run p' z p'' ∧
      ∀ e ∈ z, FixedRegistry e.source e.label := Program.exists_run_of_replay hreplay.2
  exact ⟨p', p'', z, hedgingPool_reach trivial, hstep, hz, hfixed, htest.1, starts_leg hreplay.1 z, htest.2⟩

end Router

end Caips.Coreai
