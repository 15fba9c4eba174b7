/-
Caips.Coreai.RouterRequests — the contract of the tasks of a router: `route`
with its hedged calls, `stream`, `embed`, and the legs.

The candidate loops are inductions over the candidates left. Between two of
them a request owns nothing, nothing was delivered, and the candidates it may
still turn to are registered (`remaining`); how the loop can end is `Closes`,
and every way out of it has one lemma: a success, a failure that gives up, a
failure that goes on to the next candidate, and no candidate left.
-/
import Caips.Coreai.RouterCalls

namespace Caips.Coreai

open Caips.Logic Caips.Providers

namespace Router

open RouterState

/-! ## Planning -/

section Prepare

variable (S : Setup) {R : Dict String Provider} (r : CompletionRequest)
  (preferred : Option String) (deadlineSeconds : Option ℚ)

/-- The checks before a plan raise `ValueError`s. -/
theorem plans_prepare :
    Plans R (prepare S r preferred deadlineSeconds) fun x => Candidates R x.1 x.2.2 := by
  refine .update (fun s hs => ⟨hs.1, hs.2, hs.3, hs.4⟩) (fun _ => rfl) ?_
  refine .bind (Q := fun _ => True) (.reads fun _ _ _ => trivial) (.reads _) fun r' _ => ?_
  refine .bind (Q := fun _ => ∀ n ∈ preferred, n ∈ R.keys) ?_ (.reads _) fun _ hp => ?_
  · refine .reads fun s _ hR => ?_
    subst hR
    unfold checkPreferred
    split
    · split
      · rename_i name hc
        rintro n ⟨⟩
        exact Dict.mem_keys.mpr (Option.isSome_iff_exists.mp hc)
      · exact rfl
    · rintro n ⟨⟩
  refine .bind (Q := fun _ => True) ?_ (.reads _) fun _ _ => ?_
  · refine .reads fun s _ _ => ?_
    unfold checkConversation
    split
    · exact rfl
    · trivial
  refine .bind (Q := fun _ => True) (.reads fun _ _ _ => trivial) (.reads _) fun d _ => ?_
  refine .bind (plans_screen S r' preferred hp) (keeps_screen S r' preferred) fun l hl => ?_
  exact .pure hl

theorem keeps_prepare : Sync.Keeps Same (prepare S r preferred deadlineSeconds) := by
  refine .bind (.update fun s => .of_frame rfl rfl rfl rfl) fun _ => ?_
  refine .bind (.reads _) fun r' => .bind (.reads _) fun _ => .bind (.reads _) fun _ => ?_
  refine .bind (.reads _) fun d => .bind (fun s => .of_peeks ?_) fun l => .pure _
  exact keeps_screen S r' preferred s

end Prepare

/-! ## The ways out of a request -/

/-- How a request ends: with a result that `ok` is known of, or as a failed
request. It owns nothing any more. -/
def Closes {α : Type} (S : Setup) (M : Mode) (me : Γ.Handle) (ok : α → List (Event Γ) → Prop) :
    Except Exc α → RouterState → Multiset Tok → List (Event Γ) → Prop
  | .ok a => fun s h l => ∃ o, At M me (ok a) 0 o [] s h l
  | .error e => fun s h l =>
    ∃ o : Own M, At M me (fun l => M.keeps me.2 → Failed S e o.1 l) 0 o [] s h l

section Parts

variable {S : Setup} {M : Mode} {me : Γ.Handle} {H : Multiset Tok} {o : Own M} {α : Type}
  {W : List (Event Γ) → Prop} {K : List String} {ok : α → List (Event Γ) → Prop}

/-- The candidates of a request that was prepared are registered. -/
theorem holds_prepare {r : CompletionRequest} {preferred : Option String}
    {deadlineSeconds : Option ℚ} :
    (contract S M).Holds me (At M me W H o K) (Coro.sync (prepare S r preferred deadlineSeconds))
      fun x s h l => match x with
        | .ok y => At M me W H o (y.2.2.map Prod.fst) s h l
        | .error e => At M me W H o [] s h l ∧ e.isKeyError = false := by
  refine holds_sync fun s t F l hi hat => ?_
  have hs := keeps_prepare S r preferred deadlineSeconds s
  have hplan := plans_prepare S r preferred deadlineSeconds s hi.consistent rfl
  have hsteady : Steady s (prepare S r preferred deadlineSeconds s).2 :=
    ⟨hs.focus_eq, hs.breakers_eq, hs.providers_eq, hs.limiters_eq⟩
  refine ⟨fun j _ => hsteady.own j, t, hi.same hs, ?_⟩
  have hown := (hsteady.own (M := M) me.1).trans hat.own
  cases hx : (prepare S r preferred deadlineSeconds s).1 with
  | error e =>
    rw [hx] at hplan
    exact ⟨⟨hat.tokens, hown, fun _ _ h => absurd h List.not_mem_nil, hat.hist⟩, hplan⟩
  | ok y =>
    rw [hx] at hplan
    refine ⟨hat.tokens, hown, fun _ n hn => ?_, hat.hist⟩
    rw [hsteady.providers]
    obtain ⟨c, hc, rfl⟩ := List.mem_map.mp hn
    exact (hplan.serves c hc).mem_keys

/-- What `allow` of a candidate leaves: the ticket of a probe, or the exception
that stands for a refusal. -/
theorem holds_allowCandidate {name : String} (hname : name ∈ K) :
    (contract S M).Holds me (At M me W H o K) (allowCandidate name) fun x s h l => match x with
      | .ok (b, .ok t) => At M me W ({Tok.probe t name} + H) o K s h l ∧
          ∀ hf : M.fixed, (o.2 hf).1.get? name = some b
      | .ok (_, .error e) => At M me W H o K s h l ∧ e.isKeyError = false
      | .error _ => At M me W H o K s h l ∧ ¬ M.sure me.2 := by
  unfold allowCandidate
  refine .bind (holds_lookup (fun s hs h => (hs.breakers name).mpr h) hname) ?_
    fun e s h F l _ hm => hm
  intro b
  refine .bind_returns holds_allow fun x => ?_
  cases x with
  | some t => exact .ret fun _ _ _ _ _ h => h
  | none => exact .bind_returns holds_value fun w => .ret fun _ _ _ _ _ h => ⟨h.1, rfl⟩

variable {l : List (Event Γ)} {e : Exc}

theorem closes_of_unsure {s : RouterState} {h : Multiset Tok}
    (hat : At M me W 0 o K s h l) (hsure : ¬ M.sure me.2) : Closes S M me ok (.error e) s h l :=
  ⟨o, hat.tokens, hat.own, fun hs => absurd hs hsure, fun hk => absurd (.inr hk) hsure⟩

theorem holds_failed (hW : ∀ l, W l → M.keeps me.2 → Failed S e o.1 l) :
    (contract S M).Holds me (At M me W 0 o K) (Coro.fail e) (Closes S M me ok) :=
  .fail fun _ _ _ _ _ h => ⟨o, h.mono hW fun _ hn => absurd hn List.not_mem_nil⟩

theorem holds_countFailover {last : Bool} :
    (contract S M).Holds me (At M me W H o K) (countFailover last)
      ((contract S M).returns fun _ => At M me W H o K) := by
  unfold countFailover
  split
  · exact .ret fun _ _ _ _ _ h => ⟨(), rfl, h⟩
  · exact holds_update fun s => .of_frame rfl rfl rfl rfl

/-- A failed candidate ends the request, or leaves it where the next one
starts. -/
theorem holds_next {stop last : Bool} {N : List String} {c : Async α}
    (hstop : stop = true → ∀ l, W l → M.keeps me.2 → Failed S e o.1 l)
    (hgo : stop = false → (∀ l, W l → Unserved l) ∧ ∀ n ∈ N, n ∈ K)
    (hc : (contract S M).Holds me (At M me Unserved 0 o N) c (Closes S M me ok)) :
    (contract S M).Holds me (At M me W 0 o K)
      (Coro.when stop (Coro.fail e) >>= fun _ => countFailover last >>= fun _ => c)
      (Closes S M me ok) := by
  cases stop with
  | true => exact holds_failed (hstop rfl)
  | false =>
    refine .bind_returns (N := fun _ => At M me W 0 o K) (.ret fun _ _ _ _ _ h => ⟨(), rfl, h⟩)
      fun _ => .bind_returns holds_countFailover fun _ => hc.weaken_pre ?_
    exact fun _ _ _ _ _ h => h.mono (hgo rfl).1 (hgo rfl).2

theorem failed_of_stop {focus : List String}
    (he : e.isKeyError = false) (hstop : (!e.isException || givesUp S e) = true)
    (hl : e.isException = true → Unserved l) : Failed S e focus l := by
  refine ⟨he, hl, fun hexc => .inl ?_⟩
  rw [hexc] at hstop
  exact hstop

theorem failed_of_cut {focus : List String}
    (h : e.isException = false) : Failed S e focus l := by
  refine ⟨no_keyError_of_cut h, fun hexc => ?_, fun hexc => ?_⟩
  · rw [h] at hexc; cases hexc
  · rw [h] at hexc; cases hexc

/-- What an exception of a candidate leaves: nothing was delivered, unless the
request was cut off. -/
def Raised (M : Mode) (me : Γ.Handle) (o : Own M) (e : Exc) (s : RouterState) (h : Multiset Tok)
    (l : List (Event Γ)) : Prop :=
  At M me (fun l => e.isException = true → Unserved l) 0 o
      (if e.isException then near me o else []) s h l ∧ (M.keeps me.2 → e.isKeyError = false)

theorem raised_of_ends {ok : α → RouterState → Multiset Tok → List (Event Γ) → Prop}
    {s : RouterState} {h : Multiset Tok}
    (hend : Ends M me 0 o ok (.error e) s h l) : Raised M me o e s h l := by
  refine ⟨hend.1.mono (fun _ hl _ => hl) fun n hn => ?_, hend.2⟩
  split at hn
  · exact hn
  · exact absurd hn List.not_mem_nil

/-- A candidate that raised: the request ends with the exception or turns to
the next one. -/
theorem holds_failover {last : Bool} {N : List String} {c : Async α}
    (hN : ∀ n ∈ N, n ∈ near me o)
    (hc : (M.keeps me.2 → e.isKeyError = false) →
      (contract S M).Holds me (At M me Unserved 0 o N) c (Closes S M me ok)) :
    (contract S M).Holds me (Raised M me o e)
      (Coro.when (!e.isException || givesUp S e) (Coro.fail e) >>= fun _ =>
        countFailover last >>= fun _ => c) (Closes S M me ok) := by
  refine .given fun he => holds_next ?_ ?_ (hc he)
  · exact fun hstop l hl hk => failed_of_stop (he hk) hstop hl
  · intro hgo
    obtain ⟨hexc, -⟩ := Bool.or_eq_false_iff.mp hgo
    rw [Bool.not_eq_false'] at hexc
    rw [hexc]
    exact ⟨fun l hl => hl rfl, hN⟩

/-- No candidate is left. -/
theorem holds_exhausted {single : Bool} {g : Progress}
    (hlast : M.keeps me.2 → ∀ e ∈ g.lastExc, e.isKeyError = false) :
    (contract S M).Holds me (At M me Unserved 0 o K) (exhausted me.1 single g)
      (Closes S M me ok) := by
  refine .bind_returns (holds_turnTo (f := id) fun s => ⟨⟨rfl, rfl, rfl, rfl⟩, fun _ h => h⟩) fun _ => ?_
  split
  · rename_i e hsome
    refine holds_failed fun l hl hk => ⟨hlast hk e hsome, fun _ => hl, fun _ => ?_⟩
    exact .inr (.inr (.inl rfl))
  · refine .bind_returns holds_value fun wait => ?_
    refine (holds_failed fun l hl _ => ⟨rfl, fun _ => hl, fun _ => ?_⟩).weaken_pre
      fun _ _ _ _ _ h => h.1
    exact .inr (.inr (.inl rfl))

end Parts

/-! ## Hedged calls -/

/-- What `firstSuccess` says about the finished legs. -/
theorem firstSuccess_cases : ∀ l : List Γ.Ending,
    match firstSuccess l with
    | .error e => e = .cancelled
    | .ok (.inl x) => ∃ y ∈ l, y.1 = x.1 ∧ result y = .ok x.2
    | .ok (.inr errors) => (∀ y ∈ l, ∃ e, result y = .error e ∧ (y.1, e) ∈ errors) ∧
        ∀ z ∈ errors, ∃ y ∈ l, y.1 = z.1 ∧ result y = .error z.2
  | [] => ⟨fun y hy => absurd hy List.not_mem_nil, fun z hz => absurd hz List.not_mem_nil⟩
  | x :: rest => by
      have ih := firstSuccess_cases rest
      unfold firstSuccess
      cases hx : result x with
      | ok response => exact ⟨x, List.mem_cons_self, rfl, hx⟩
      | error e =>
        dsimp only
        by_cases hc : e = .cancelled
        · rw [if_pos hc]
          exact hc
        rw [if_neg hc]
        cases hr : firstSuccess rest with
        | error e' =>
          rw [hr] at ih
          exact ih
        | ok z =>
          rw [hr] at ih
          cases z with
          | inl winner =>
            obtain ⟨y, hy, hw⟩ := ih
            exact ⟨y, List.mem_cons_of_mem _ hy, hw⟩
          | inr errors =>
            obtain ⟨hall, hback⟩ := ih
            refine ⟨fun y hy => ?_, fun z hz => ?_⟩
            · rcases List.mem_cons.mp hy with rfl | hy
              · exact ⟨e, hx, List.mem_cons_self⟩
              · obtain ⟨e', he', hmem⟩ := hall y hy
                exact ⟨e', he', List.mem_cons_of_mem _ hmem⟩
            · rcases List.mem_cons.mp hz with rfl | hz
              · exact ⟨x, List.mem_cons_self, rfl, hx⟩
              · obtain ⟨y, hy, hres⟩ := hback z hz
                exact ⟨y, List.mem_cons_of_mem _ hy, hres⟩

theorem result_error {x : Γ.Ending} {e : Exc} (h : result x = .error e) :
    x.2 = .error e ∧ success? x = none ∧ failure? x = some e := by
  refine ⟨?_, by rw [success?, h], by rw [failure?, h]⟩
  obtain ⟨hd, o⟩ := x
  cases o with
  | ok a => cases h
  | error e' => exact congrArg Except.error (Except.error.inj h)

theorem success?_of_result {x : Γ.Ending} {r : CompletionResponse} (h : result x = .ok r) :
    success? x = some (.response r) := by rw [success?, h]

/-- The handle of a leg: a call of one provider. -/
def Leg (h : Γ.Handle) : Prop := ∃ name r deadline attempts probe, h.2 = .leg name r deadline attempts probe

section Hedging

variable {S : Setup} {M : Mode} {me : Γ.Handle} {H : Multiset Tok} {o : Own M} {α : Type}
  {W : List (Event Γ) → Prop} {K : List String}

theorem Leg.no_keyError {h : Γ.Handle} {e : Exc} (hleg : Leg h)
    (hend : (contract S M).HasEnded h (.error e)) (hk : M.keeps me.2) : e.isKeyError = false := by
  obtain ⟨n, c⟩ := h
  obtain ⟨name, r, d, a, t, rfl⟩ := hleg
  obtain ⟨T, own, hist, hpost⟩ := hend
  exact (hpost.2 ⟨hk.1, rfl⟩).1

theorem holds_startLeg {name : String} {r : CompletionRequest} {deadline : Deadline}
    {attempts probe : Nat} :
    (contract S M).Holds me (At M me W ({Tok.probe probe name} + H) o K)
      (Coro.start (.leg name r deadline attempts probe))
      ((contract S M).returns fun h s t l => At M me W H o K s t l ∧ Leg h) := by
  refine .start fun s t F l _ hat => ⟨trivial, ?_⟩
  obtain ⟨⟨g, hg, rfl⟩, hown, hhere, hhist⟩ := hat
  refine ⟨H + g, add_assoc _ _ _, fun n => ⟨_, rfl, ⟨⟨g, hg, rfl⟩, hown, hhere, hhist⟩, ?_⟩⟩
  exact ⟨name, r, deadline, attempts, probe, rfl⟩

variable {legs : List Γ.Handle} {primary partner : String} {rest : List String}

/-- Waiting for the legs to end, whatever they end with. -/
theorem holds_awaitAll (hW : ∀ (r : Except Exc (List Γ.Ending)) l, W l → W (⟨.wait .all legs, r⟩ :: l))
    (hK : ∀ n ∈ K, n ∈ (near me o).take 2) :
    (contract S M).Holds me (At M me W 0 o K) (awaitAll legs)
      fun r s h l => At M me W 0 o K s h l ∧ ∀ e, r = .error e → e = .cancelled := by
  have hmono : ∀ (r : Except Exc (List Γ.Ending)) s h l,
      At M me (fun l => ∃ l', l = ⟨.wait .all legs, r⟩ :: l' ∧ W l') 0 o K s h l →
        At M me W 0 o K s h l := by
    intro r s h l hat
    refine hat.mono ?_ fun _ h => h
    rintro l ⟨l', rfl, hl⟩
    exact hW r l' hl
  refine .bind (holds_askFor (N := fun _ => K) (fun _ => hK) fun _ _ h => h) ?_ ?_
  · intro (x : List Γ.Ending)
    exact .ret fun s h F l _ hat => ⟨hmono (.ok x) s h l hat.1, fun e he => by cases he⟩
  · rintro e s h F l - ⟨hat, hkids, -⟩
    refine ⟨hmono (.error e) s h l hat, ?_⟩
    rintro e' ⟨⟩
    exact hkids

/-- How a hedged call ends. Nothing was delivered by legs that failed, unless
the request itself was cut off. -/
def HedgeEnds (M : Mode) (me : Γ.Handle) (o : Own M) (primary : String) :
    Except Exc Hedged → RouterState → Multiset Tok → List (Event Γ) → Prop
  | .ok (.won w r _) => At M me (Served (.response r)) 0 o [w]
  | .ok (.failed errors) => fun s h l =>
    At M me (fun l => Unserved l ∧ ∀ x ∈ errors, LegFailed x.2 l) 0 o (near me o) s h l ∧
      primary ∈ errors.map Prod.fst ∧ (M.keeps me.2 → ∀ x ∈ errors, x.2.isKeyError = false)
  | .error e => Raised M me o e

theorem hedgeEnds_cancelled {primary : String} {s : RouterState} {h : Multiset Tok}
    {l : List (Event Γ)} (hat : At M me W 0 o K s h l) :
    HedgeEnds M me o primary (.error .cancelled) s h l :=
  ⟨hat.mono (fun _ _ h => by cases h) fun _ h => absurd h List.not_mem_nil, fun _ => rfl⟩

variable {done : List Γ.Ending}

theorem pending_shrinks {pending : List Γ.Handle} (hne : done ≠ [])
    (hmem : ∀ x ∈ done, x.1 ∈ pending) :
    (pending.filter fun h => !(done.any fun x => x.1.1 = h.1)).length < pending.length := by
  obtain ⟨x, rest, rfl⟩ := List.exists_cons_of_ne_nil hne
  refine List.length_filter_lt_length_iff_exists.mpr ⟨x.1, hmem x List.mem_cons_self, ?_⟩
  simp

/-- A round none of whose legs succeeded. -/
theorem firstSuccess_failed {failed : List (Γ.Handle × Exc)}
    (h : firstSuccess done = .ok (.inr failed)) :
    List.filterMap success? done = [] ∧ (∀ y ∈ done, ∃ e, (y.1, e) ∈ failed) ∧
      ∀ z ∈ failed, ⟨z.1, .error z.2⟩ ∈ done ∧ z.2 ∈ List.filterMap failure? done := by
  have hcases := firstSuccess_cases done
  rw [h] at hcases
  obtain ⟨hall, hback⟩ := hcases
  refine ⟨?_, fun y hy => (hall y hy).imp fun e he => he.2, ?_⟩
  · rw [List.filterMap_eq_nil_iff]
    intro y hy
    obtain ⟨e, he, -⟩ := hall y hy
    exact (result_error he).2.1
  · rintro ⟨z, e⟩ hz
    obtain ⟨⟨hd, o⟩, hy, rfl, hres⟩ := hback _ hz
    obtain ⟨ho, -, hfail⟩ := result_error hres
    obtain rfl : o = .error e := ho
    exact ⟨hy, List.mem_filterMap.mpr ⟨_, hy, hfail⟩⟩

/-- The end of a round with a winner: the other leg is cancelled and awaited. -/
theorem holds_hedgeWon {primary w : String} {response : CompletionResponse}
    {b launched : Bool} (hw : w ∈ (near me o).take 2) :
    (contract S M).Holds me (At M me (Served (.response response)) 0 o [w])
      (Coro.when b (awaitAll legs) >>= fun _ => pure (.won w response launched))
      (HedgeEnds M me o primary) := by
  have hK : ∀ n ∈ [w], n ∈ (near me o).take 2 := by
    intro n hn
    rw [List.mem_singleton.mp hn]
    exact hw
  refine .bind (N := fun r s h l => At M me (Served (.response response)) 0 o [w] s h l ∧
    ∀ e, r = .error e → e = .cancelled) ?_ (fun _ => ?_) ?_
  · refine .when (fun _ => holds_awaitAll ?_ hK) fun _ _ _ _ _ _ h => ⟨h, ?_⟩
    · exact fun r l hl => List.mem_append_right _ hl
    · exact fun e he => by cases he
  · exact .ret fun _ _ _ _ _ h => h.1
  · rintro e s h F l - ⟨hat, he⟩
    obtain rfl := he e rfl
    exact hedgeEnds_cancelled hat

/-- The candidates needed after a round: the first two, and all of them if no
leg succeeded. -/
theorem mem_needed_round {m : Wait} (hm : m ≠ .all)
    {N : List String} {n : String}
    (h : n ∈ N.take 2 ∨ List.filterMap success? done = [] ∧ n ∈ N) :
    n ∈ needed (.wait m legs) (.ok done) N := by
  have hneeded : n ∈ if (List.filterMap success? done).isEmpty then N else N.take 2 := by
    split
    · exact h.elim List.mem_of_mem_take And.right
    · rename_i hne
      exact h.resolve_right fun ⟨hnone, _⟩ => hne (by rw [hnone]; rfl)
  cases m with
  | upTo => exact hneeded
  | first => exact hneeded
  | all => exact absurd rfl hm

/-- The rounds of a hedged call: a leg that is no longer pending has its
exception among the errors. -/
theorem holds_hedgeLoop
    (hnear : near me o = primary :: partner :: rest) {nameOf : Γ.Handle → String} {n : Nat}
    (hfirst : ∀ h, h.1 = n → nameOf h = primary)
    (hname : ∀ h, nameOf h = primary ∨ nameOf h = partner) :
    ∀ (rounds : Nat) (pending : List Γ.Handle) (errors : List (String × Exc)),
      pending.length ≤ rounds → (∀ h ∈ pending, Leg h) →
      ((∃ h ∈ pending, h.1 = n) ∨ primary ∈ errors.map Prod.fst) →
      (M.keeps me.2 → ∀ x ∈ errors, x.2.isKeyError = false) →
      (contract S M).Holds me
        (At M me (fun l => Unserved l ∧ ∀ x ∈ errors, LegFailed x.2 l) 0 o (near me o))
        (hedgeLoop nameOf rounds pending errors) (HedgeEnds M me o primary)
  | 0, pending, errors, hlen, _, hprim, hkey => by
      refine .ret fun s h F l _ hat => ⟨hat, ?_, hkey⟩
      obtain rfl := List.length_eq_zero_iff.mp (Nat.le_zero.mp hlen)
      exact hprim.resolve_left fun ⟨h, hh, _⟩ => absurd hh List.not_mem_nil
  | rounds + 1, pending, errors, hlen, hlegs, hprim, hkey => by
      unfold hedgeLoop
      split
      · rename_i hempty
        refine .ret fun s h F l _ hat => ⟨hat, ?_, hkey⟩
        obtain rfl := List.isEmpty_iff.mp hempty
        exact hprim.resolve_left fun ⟨h, hh, _⟩ => absurd hh List.not_mem_nil
      have hleft : ∀ done : List Γ.Ending,
          ∀ h ∈ pending.filter (fun h => !(done.any fun x => x.1.1 = h.1)), Leg h :=
        fun done h hh => hlegs h (List.mem_filter.mp hh).1
      refine .bind (holds_ask fun r n h => mem_of_mem_needed h) ?_ ?_
      · intro (done : List Γ.Ending)
        have hcases := firstSuccess_cases done
        cases hf : firstSuccess done with
        | error e =>
          rw [hf] at hcases
          obtain rfl := hcases
          exact .fail fun s h F l _ hat => hedgeEnds_cancelled hat.1
        | ok z =>
          rw [hf] at hcases
          cases z with
          | inl winner =>
            obtain ⟨y, hy, -, hres⟩ := hcases
            have hw : nameOf winner.1 ∈ (near me o).take 2 := by
              rw [hnear]
              rcases hname winner.1 with h | h <;> simp [h]
            refine (holds_hedgeWon hw).weaken_pre ?_
            rintro s h F l - ⟨hat, -⟩
            refine hat.mono ?_ fun n hn => ?_
            · rintro l ⟨l', rfl, -⟩
              exact List.mem_append_left _
                (List.mem_filterMap.mpr ⟨y, hy, success?_of_result hres⟩)
            · rw [List.mem_singleton.mp hn]
              exact mem_needed_round (by decide) (.inl hw)
          | inr failed =>
            obtain ⟨hnone, hall, hback⟩ := firstSuccess_failed hf
            refine .assume (φ := (∀ x ∈ done, x.1 ∈ pending ∧ (contract S M).HasEnded x.1 x.2) ∧
              done ≠ []) (fun s h F l _ hat => ⟨hat.2.1.1, hat.2.1.2.2.1 rfl⟩) ?_
            rintro ⟨hmem, hne⟩
            refine (holds_hedgeLoop hnear hfirst hname rounds _ _ ?_ (hleft done) ?_ ?_).weaken_pre ?_
            · have := pending_shrinks hne fun x hx => (hmem x hx).1
              omega
            · -- the first leg is still pending, or it has failed in this round or before
              rw [List.map_append]
              rcases hprim with ⟨h, hh, heq⟩ | hprim
              · by_cases hin : ∃ x ∈ done, x.1.1 = h.1
                · obtain ⟨x, hx, hxh⟩ := hin
                  obtain ⟨e, he⟩ := hall x hx
                  refine .inr (List.mem_append_right _ (List.mem_map.mpr ⟨(nameOf x.1, e), ?_, ?_⟩))
                  · exact List.mem_map.mpr ⟨_, he, rfl⟩
                  · exact hfirst x.1 (hxh.trans heq)
                · refine .inl ⟨h, List.mem_filter.mpr ⟨hh, ?_⟩, heq⟩
                  simpa using fun x hx heq => hin ⟨x, hx, heq⟩
              · exact .inr (List.mem_append_left _ hprim)
            · intro hk x hx
              rcases List.mem_append.mp hx with hx | hx
              · exact hkey hk x hx
              · obtain ⟨z, hz, rfl⟩ := List.mem_map.mp hx
                obtain ⟨hleg, hend⟩ := hmem _ (hback z hz).1
                exact (hlegs z.1 hleg).no_keyError hend hk
            · rintro s h F l - ⟨hat, -⟩
              refine hat.mono ?_ fun n hn => mem_needed_round (by decide) (.inr ⟨hnone, hn⟩)
              rintro l ⟨l', rfl, hl, hfail⟩
              refine ⟨?_, fun x hx => ?_⟩
              · show List.filterMap success? done ++ served l' = []
                rw [hnone]
                exact hl
              · rcases List.mem_append.mp hx with hx | hx
                · obtain ⟨v, hv, he⟩ := hfail x hx
                  exact ⟨v, List.mem_cons_of_mem _ hv, he⟩
                · obtain ⟨z, hz, rfl⟩ := List.mem_map.mp hx
                  exact ⟨_, List.mem_cons_self, (hback z hz).2⟩
      · rintro e s h F l - ⟨hat, hkids, -⟩
        obtain rfl : e = .cancelled := hkids
        exact hedgeEnds_cancelled hat

/-- Waiting for the first leg alone: it may have ended, in one way. -/
theorem holds_awaitFirst (hnear : near me o = primary :: partner :: rest) {leg : Γ.Handle} (hleg : Leg leg)
    {k : Async Hedged} (hk : (contract S M).Holds me (Idle M me 0 o) k (HedgeEnds M me o primary)) :
    (contract S M).Holds me (Idle M me 0 o)
      (Coro.wait .upTo [leg] >>= fun l => match (l : List Γ.Ending) with
        | x :: _ => Coro.ofExcept (result x) >>= fun r => pure (.won primary r false)
        | [] => k) (HedgeEnds M me o primary) := by
  refine .bind (holds_ask fun r n h => mem_of_mem_needed h) ?_ ?_
  · intro (l : List Γ.Ending)
    cases l with
    | nil =>
      refine hk.weaken_pre ?_
      rintro s h F l - ⟨hat, -⟩
      refine hat.mono ?_ fun n hn => mem_needed_round (by decide) (.inr ⟨rfl, hn⟩)
      rintro l ⟨l', rfl, hl⟩
      exact hl
    | cons x xs =>
      refine .assume (φ := (∀ y ∈ x :: xs, y = x) ∧ x.1 = leg ∧ (contract S M).HasEnded x.1 x.2)
        ?_ ?_
      · rintro s h F l - ⟨-, ⟨hmem, huniq, -⟩, -⟩
        have hx := List.mem_singleton.mp (hmem x List.mem_cons_self).1
        refine ⟨fun y hy => ?_, hx, (hmem x List.mem_cons_self).2⟩
        have hy' := List.mem_singleton.mp (hmem y hy).1
        exact huniq y hy x List.mem_cons_self (hy'.trans hx.symm)
      rintro ⟨hsame, rfl, hend⟩
      dsimp only
      cases hres : result x with
      | ok response =>
        refine .ret ?_
        rintro s h F l - ⟨hat, -⟩
        refine hat.mono ?_ fun n hn => mem_needed_round (by decide) (.inl ?_)
        · rintro l ⟨l', rfl, -⟩
          exact List.mem_append_left _
            (List.mem_filterMap.mpr ⟨x, List.mem_cons_self, success?_of_result hres⟩)
        · rw [List.mem_singleton.mp hn]
          show primary ∈ (near me o).take 2
          rw [hnear]
          exact List.mem_cons_self
      | error e =>
        obtain ⟨hx, hsucc, -⟩ := result_error hres
        have hnone : List.filterMap success? (x :: xs) = [] := by
          rw [List.filterMap_eq_nil_iff]
          intro y hy
          rw [hsame y hy]
          exact hsucc
        rw [hx] at hend
        refine .fail ?_
        rintro s h F l - ⟨hat, -⟩
        refine ⟨hat.mono ?_ fun n hn => mem_needed_round (by decide) (.inr ⟨hnone, ?_⟩),
          hleg.no_keyError hend⟩
        · rintro l ⟨l', rfl, hl⟩ -
          show List.filterMap success? (x :: xs) ++ served l' = []
          rw [hnone]
          exact hl
        · split at hn
          · exact hn
          · exact absurd hn List.not_mem_nil
  · rintro e s h F l - ⟨hat, hkids, -⟩
    obtain rfl : e = .cancelled := hkids
    exact hedgeEnds_cancelled hat

/-- The partner's breaker refused: the first leg decides. -/
theorem holds_joinFirst {primary : String}
    (hnear : near me o = primary :: rest) {leg : Γ.Handle} (hleg : Leg leg) :
    (contract S M).Holds me (Idle M me 0 o)
      (Coro.join leg >>= fun a => pure (.won primary (legResponse leg.2 a) false))
      (HedgeEnds M me o primary) := by
  refine .bind (holds_ask (q := .join leg) fun r n h => mem_of_mem_needed h) ?_ ?_
  · intro (a : Call.Out leg.2)
    refine .ret ?_
    rintro s h F l - ⟨hat, -⟩
    refine hat.mono ?_ fun n hn => ?_
    · rintro l ⟨l', rfl, -⟩
      exact List.mem_append_left _ List.mem_cons_self
    · rw [List.mem_singleton.mp hn]
      show primary ∈ (near me o).take 1
      rw [hnear]
      exact List.mem_cons_self
  · rintro e s h F l - ⟨hat, hkids, -⟩
    refine ⟨hat.mono ?_ fun n hn => ?_, fun hk => ?_⟩
    · rintro l ⟨l', rfl, hl⟩ -
      exact hl
    · split at hn
      · exact hn
      · exact absurd hn List.not_mem_nil
    · rcases hkids with rfl | hend
      · rfl
      · exact hleg.no_keyError hend hk

theorem holds_hedgeWin {hedged : Hedged} :
    (contract S M).Holds me (HedgeEnds M me o primary (.ok hedged))
      (Coro.when (hedged.wonBy partner) (update fun s => { s with hedgeWins := s.hedgeWins + 1 }) >>=
        fun _ => pure hedged) (HedgeEnds M me o primary) := by
  refine .bind_returns (N := fun _ => HedgeEnds M me o primary (.ok hedged)) ?_ fun _ =>
    .ret fun _ _ _ _ _ h => h
  refine .when (fun hw => ?_) fun _ _ _ _ _ _ h => ⟨(), rfl, h⟩
  cases hedged with
  | won w r launched => exact holds_update fun s => .of_frame rfl rfl rfl rfl
  | failed errors => cases hw

/-- An interrupt reaches the legs too, and they are awaited. -/
theorem holds_hedgeInterrupt {primary : String} {e : Exc} :
    (contract S M).Holds me (HedgeEnds M me o primary (.error e))
      (Coro.when (e = .cancelled) (awaitAll legs) >>= fun _ => Coro.fail e)
      (HedgeEnds M me o primary) := by
  by_cases he : e = .cancelled
  · subst he
    have hnil : ∀ n ∈ ([] : List String), n ∈ (near me o).take 2 :=
      fun n hn => absurd hn List.not_mem_nil
    refine .bind ((holds_awaitAll (o := o) (W := fun _ => True) (fun _ _ h => h)
      hnil).weaken_pre ?_) (fun _ => .fail fun s h F l _ hat => hedgeEnds_cancelled hat.1) ?_
    · exact fun s h F l _ hat => hat.1.mono (fun _ _ => trivial) fun n hn => absurd hn List.not_mem_nil
    · rintro e s h F l - ⟨hat, he⟩
      obtain rfl := he e rfl
      exact hedgeEnds_cancelled hat
  · rw [decide_eq_false he]
    exact .fail fun _ _ _ _ _ h => h

/-- **A hedged call.** -/
theorem holds_callHedged (hnear : near me o = primary :: partner :: rest) {r partnerReq : CompletionRequest}
    {deadline : Deadline} {attempts partnerAttempts probe : Nat} :
    (contract S M).Holds me (Idle M me ({Tok.probe probe primary} + 0) o)
      (callHedged primary partner r partnerReq deadline attempts partnerAttempts probe)
      (HedgeEnds M me o primary) := by
  refine .bind_returns holds_startLeg fun t1 => .given fun hleg => ?_
  refine holds_awaitFirst hnear hleg ?_
  have hmem : partner ∈ near me o := by
    rw [hnear]
    exact List.mem_cons_of_mem _ List.mem_cons_self
  refine .bind (holds_lookup (fun s hs h => (hs.breakers partner).mpr h) hmem) ?_ ?_
  · intro b
    refine .bind_returns holds_allow fun x => ?_
    cases x with
    | none => exact holds_joinFirst hnear hleg
    | some partnerProbe =>
      refine .bind_returns (holds_startLeg.weaken_pre fun _ _ _ _ _ h => h.1) fun t2 =>
        .given fun hleg' => ?_
      refine .bind_returns (holds_update fun s => .of_frame rfl rfl rfl rfl) fun _ => ?_
      have hlegs : ∀ h ∈ [t1, t2], Leg h := by
        intro h hh
        rcases List.mem_pair.mp hh with rfl | rfl
        · exact hleg
        · exact hleg'
      refine .bind (N := HedgeEnds M me o primary) (.tryCatch (N := HedgeEnds M me o primary)
        ?_ (fun _ _ _ _ _ _ h => h) fun e => ?_) (fun hedged => holds_hedgeWin)
        fun e s h F l _ hm => hm
      · refine (holds_hedgeLoop (n := t1.1) hnear (fun h hh => if_pos hh) (fun h => ?_) 2 _ []
          (le_refl 2) hlegs (.inl ⟨t1, List.mem_cons_self, rfl⟩) ?_).weaken_pre ?_
        · by_cases hh : h.1 = t1.1
          · exact .inl (if_pos hh)
          · exact .inr (if_neg hh)
        · exact fun _ x hx => absurd hx List.not_mem_nil
        · exact fun s h F l _ hat => hat.mono
            (fun l hl => ⟨hl, fun x hx => absurd hx List.not_mem_nil⟩) fun _ h => h
      · exact holds_hedgeInterrupt
  · rintro e s h F l - ⟨hat, hsure⟩
    exact ⟨⟨hat.tokens, hat.own, fun hs => absurd hs hsure, fun _ => hat.hist⟩,
      fun hk => absurd (.inr hk) hsure⟩

end Hedging

/-! ## `route` -/

/-- How a request is answered: from the cache, or with the response of its
upstream call. -/
def Responds (response : CompletionResponse) (l : List (Event Γ)) : Prop :=
  Unserved l ∨ ∃ r g, Served (.response r) l ∧ response = annotate g r

/-- The candidates a request may still turn to. -/
def remaining (g : Progress) (l : List (String × CompletionRequest)) : List String :=
  (l.map Prod.fst).filter fun n => !g.skip.contains n

variable {g : Progress}

variable {l : List (String × CompletionRequest)} {c : String × CompletionRequest}

theorem remaining_cons (h : ¬ g.skip.contains c.1 = true) :
    remaining g (c :: l) = c.1 :: remaining g l := by
  rw [Bool.not_eq_true] at h
  rw [remaining, List.map_cons, List.filter_cons, h]
  rfl

theorem remaining_tail : ∀ n ∈ remaining g l, n ∈ remaining g (c :: l) :=
  (List.Sublist.filter _ (List.sublist_cons_self c.1 (l.map Prod.fst))).subset

theorem remaining_skip {failures : List (String × ErrorKind)} {e : Option Exc}
    {partner : String} {n : String}
    (h : n ∈ remaining ⟨failures, e, partner :: g.skip⟩ l) : n ∈ remaining g l := by
  obtain ⟨hl, hskip⟩ := List.mem_filter.mp h
  refine List.mem_filter.mpr ⟨hl, ?_⟩
  simp only [List.contains_cons, Bool.not_or, Bool.and_eq_true] at hskip
  exact hskip.2

/-- The partner of a hedged call is the next candidate. -/
theorem partnerOf_eq_some {hedging : Bool} {r : CompletionRequest} {name : String}
    {rest : List (String × CompletionRequest)}
    (h : partnerOf hedging r name g rest = some c) :
    ∃ rest', rest = c :: rest' ∧ ¬ g.skip.contains c.1 = true := by
  cases rest with
  | nil => cases h
  | cons next rest' =>
    simp only [partnerOf] at h
    split at h
    · rename_i hc
      obtain rfl := Option.some.inj h
      refine ⟨rest', rfl, ?_⟩
      simp only [Bool.and_eq_true, Bool.not_eq_true'] at hc
      rw [hc.1.2]
      exact Bool.false_ne_true
    · cases h

section Route

variable {S : Setup} {M : Mode} {me : Γ.Handle} {o : Own M} {K : List String}

/-- The end of a successful request. -/
theorem holds_succeed {name : String} (hname : name ∈ K) {req : CompletionRequest}
    {response : CompletionResponse} {g : Progress} :
    (contract S M).Holds me (At M me (Served (.response response)) 0 o K)
      (succeed S name req response g) (Closes S M me Responds) := by
  refine .bind_returns (holds_update fun s => ?_) fun _ => ?_
  · unfold cacheResponse
    split
    · split
      · exact .of_frame rfl rfl rfl rfl
      · exact Std.Refl.refl s
    · exact Std.Refl.refl s
  refine .bind (holds_books (books_recordSuccess _ _) hname) (fun _ => ?_) ?_
  · refine Contract.Holds.given fun _ => ?_
    refine .bind_returns (holds_update fun s => .of_frame rfl rfl rfl rfl) fun _ =>
      .ret fun s h F l _ hat => ?_
    exact ⟨o, hat.mono (fun l hl => .inr ⟨response, g, hl, rfl⟩) fun _ hn => absurd hn List.not_mem_nil⟩
  · rintro e s h F l - ⟨hat, hsure⟩
    exact closes_of_unsure hat hsure

/-- The candidate loop of `route`. -/
theorem holds_routeLoop (hme : ∀ focus, candidates me.2 focus = focus) {r : CompletionRequest}
    {deadline : Deadline} {hedging single : Bool} :
    ∀ (l : List (String × CompletionRequest)) (g : Progress) (o : Own M),
      (M.keeps me.2 → ∀ e ∈ g.lastExc, e.isKeyError = false) →
      (contract S M).Holds me (At M me Unserved 0 o (remaining g l))
        (routeLoop S me.1 r deadline hedging single l g) (Closes S M me Responds)
  | [], g, o, hlast => holds_exhausted hlast
  | (name, req) :: rest, g, o, hlast => by
      have hadd : ∀ e, (M.keeps me.2 → e.isKeyError = false) →
          M.keeps me.2 → ∀ e' ∈ (g.add name e).lastExc, e'.isKeyError = false := by
        rintro e he hk e' ⟨⟩
        exact he hk
      rw [routeLoop]
      split
      · exact (holds_routeLoop hme rest g o hlast).weaken_pre
          fun _ _ _ _ _ h => h.mono (fun _ h => h) remaining_tail
      rename_i hskip
      refine .bind_returns (holds_turnTo (f := id) fun s => ⟨⟨rfl, rfl, rfl, rfl⟩, fun _ h => h⟩)
        fun _ => ?_
      have hnear : near me (name :: remaining g rest, o.2) = name :: remaining g rest := hme _
      rw [remaining_cons hskip, ← hnear]
      have htail : ∀ n ∈ remaining g rest, n ∈ near me (name :: remaining g rest, o.2) := by
        rw [hnear]
        exact fun n hn => List.mem_cons_of_mem _ hn
      have hname : (near me (name :: remaining g rest, o.2)).head? = some name := by rw [hnear]; rfl
      refine .bind (holds_allowCandidate (List.mem_of_mem_head? hname)) ?_
        fun e s h F l _ hm => closes_of_unsure hm.1 hm.2
      rintro ⟨b, e | probe⟩
      · refine .given fun he => ?_
        exact (holds_routeLoop hme rest (g.add name e) _ (hadd e fun _ => he)).weaken_pre
          fun _ _ _ _ _ h => h.mono (fun _ h => h) htail
      have hgo : ∀ e, (M.keeps me.2 → e.isKeyError = false) →
          (contract S M).Holds me
            (At M me Unserved 0 (name :: remaining g rest, o.2) (remaining (g.add name e) rest))
            (routeLoop S me.1 r deadline hedging single rest (g.add name e)) (Closes S M me Responds) :=
        fun e he => holds_routeLoop hme rest (g.add name e) _ (hadd e he)
      refine .given fun _ => ?_
      dsimp only
      split
      · refine .handle (holds_callProvider hname) (fun response => ?_) fun e => ?_
        · refine (holds_succeed (K := [name]) List.mem_cons_self).weaken_pre fun _ _ _ _ _ h =>
            h.mono (fun _ h => h) fun n hn => ?_
          rw [List.mem_singleton.mp hn, hnear]
          exact List.mem_cons_self
        · exact (holds_failover htail (hgo e)).weaken_pre fun _ _ _ _ _ hm => raised_of_ends hm
      · rename_i partner partnerReq hpartner
        obtain ⟨rest', rfl, hfree⟩ := partnerOf_eq_some hpartner
        have hnear' : near me (name :: remaining g ((partner, partnerReq) :: rest'), o.2) =
            name :: partner :: remaining g rest' := by rw [hnear, remaining_cons hfree]
        refine .handle (holds_callHedged hnear') ?_ fun e => ?_
        · rintro (⟨winner, response, launched⟩ | errors)
          · exact holds_succeed List.mem_cons_self
          · refine Contract.Holds.given fun ⟨hmem, hkey⟩ => ?_
            obtain ⟨last, hlast'⟩ := Dict.get?_ofList_of_mem hmem
            have hin := Dict.mem_of_get?_ofList hlast'
            dsimp only
            rw [lookup_of_get? hlast']
            refine holds_next (fun hstop l hl hk => ?_) (fun _ => ⟨fun l hl => hl.1, ?_⟩)
              (holds_routeLoop hme _ _ _ fun hk e he => ?_)
            · refine ⟨hkey hk _ hin, fun _ => hl.1, fun _ => ?_⟩
              rcases Bool.or_eq_true _ _ |>.mp hstop with hany | hstop
              · obtain ⟨x, hx, hdead⟩ := List.any_eq_true.mp hany
                exact .inr (.inl ⟨x.2, hl.2 x hx, of_decide_eq_true hdead⟩)
              · exact .inl hstop
            · exact fun n hn => htail n (remaining_skip hn)
            · obtain rfl := Option.some.inj he
              exact hkey hk _ hin
        · exact holds_failover htail (hgo e)

theorem yields_hedgeDelay (s : RouterState) (r : CompletionRequest) (preferred : Option String) :
    Yields (fun _ => True) (s.hedgeDelay S r preferred) := by
  unfold RouterState.hedgeDelay
  split
  · trivial
  · refine (yields_policyFor r s).bind fun policy _ => ?_
    split <;> trivial

theorem failed_of_nil {e : Exc} {focus : List String} {l : List (Event Γ)}
    (he : e.isKeyError = false) (hl : l = []) : Failed S e focus l := by
  subst hl
  exact ⟨he, fun _ => rfl, fun _ => .inr (.inr (.inr rfl))⟩

/-- **`route`.** -/
theorem holds_route (hme : ∀ focus, candidates me.2 focus = focus) {r : CompletionRequest}
    {preferred : Option String} {deadlineSeconds : Option ℚ} :
    (contract S M).Holds me (At M me (· = []) 0 o []) (route S me.1 r preferred deadlineSeconds)
      (Closes S M me Responds) := by
  refine .bind holds_prepare ?_ ?_
  · rintro ⟨r', deadline, screened⟩
    dsimp only
    refine .bind_returns (holds_through (fun s => ?_) fun s T hi => ?_) fun x => ?_
    · unfold cacheLookup
      split <;> try split
      all_goals exact ⟨rfl, rfl, rfl, rfl⟩
    · refine hi.same ?_
      unfold cacheLookup
      split <;> try split
      all_goals exact .of_frame rfl rfl rfl rfl
    cases x with
    | some hit =>
      refine .ret fun s h F l _ hat => ⟨o, hat.mono ?_ fun _ hn => absurd hn List.not_mem_nil⟩
      rintro l rfl
      exact .inl rfl
    | none =>
      refine .bind holds_reads (fun delay => ?_) ?_
      · refine (holds_routeLoop hme screened {} o fun _ e he => by cases he).weaken_pre
          fun s h F l _ hat => hat.1.mono ?_ fun n hn => (List.mem_filter.mp hn).1
        rintro l rfl
        rfl
      · rintro e s h F l - ⟨hat, he⟩
        have hy := yields_hedgeDelay (S := S) s r' preferred
        rw [← he] at hy
        exact ⟨o, hat.mono (fun l hl _ => failed_of_nil hy hl) fun _ hn =>
          absurd hn List.not_mem_nil⟩
  · rintro e s h F l - ⟨hat, he⟩
    exact ⟨o, hat.mono (fun l hl _ => failed_of_nil he hl) fun _ hn => hn⟩

end Route

/-! ## `stream` -/

section Stream

variable {S : Setup} {M : Mode} {me : Γ.Handle} {H : Multiset Tok} {o : Own M} {K : List String}

/-- How the delivery of a stream ends: nothing else was delivered before an
exception, unless the stream was cut off. -/
def Delivered (M : Mode) (me : Γ.Handle) (H : Multiset Tok) (o : Own M) (x : Nat × Except Exc Unit)
    (s : RouterState) (h : Multiset Tok) (l : List (Event Γ)) : Prop :=
  At M me (fun l => ∀ e, x.2 = .error e → e.isException = true → Unserved l) H o
      ((near me o).take 1) s h l ∧
    (M.keeps me.2 → ∀ e, x.2 = .error e → e.isKeyError = false)

theorem delivered_ok {W : List (Event Γ) → Prop} {n : Nat} {s : RouterState} {h : Multiset Tok}
    {l : List (Event Γ)} (hat : At M me W H o ((near me o).take 1) s h l) :
    Delivered M me H o (n, .ok ()) s h l :=
  ⟨hat.mono (fun _ _ e he => by cases he) fun _ h => h, fun _ e he => by cases he⟩

theorem delivered_error {n : Nat} {e : Exc} {s : RouterState} {h : Multiset Tok}
    {l : List (Event Γ)} (hat : At M me Unserved H o ((near me o).take 1) s h l)
    (hkey : M.keeps me.2 → e.isKeyError = false) : Delivered M me H o (n, .error e) s h l := by
  refine ⟨hat.mono (fun _ hl _ _ _ => hl) fun _ h => h, fun hk e' he => ?_⟩
  rw [← Except.error.inj he]
  exact hkey hk

theorem nextChunk_error {w : ℚ} {e : Exc} (he : e ≠ .stopAsyncIteration) :
    successes ⟨.call (.nextChunk w), .error e⟩ = [] := by
  cases e <;> first | exact absurd rfl he | exact rfl

theorem holds_yieldChunk {chunk : String} {n : Nat}
    {k : Async (Nat × Except Exc Unit)}
    (hk : (contract S M).Holds me (At M me Unserved H o ((near me o).take 1)) k
      ((contract S M).returns (Delivered M me H o))) :
    (contract S M).Holds me (At M me Unserved H o ((near me o).take 1))
      (Coro.handle (query (.yieldChunk chunk)) (fun _ => k) fun e => pure (n, .error e))
      ((contract S M).returns (Delivered M me H o)) := by
  refine .handle (holds_await (fun _ _ hl => hl) fun _ _ h => h)
    (fun _ => hk.weaken_pre fun _ _ _ _ _ h => h.1) fun e => ?_
  exact .ret fun s h F l _ hat => ⟨_, rfl, delivered_error hat.1 hat.2.keyError⟩

variable {name : String}

theorem holds_deliverRest :
    ∀ chunks chars, (contract S M).Holds me (At M me Unserved H o ((near me o).take 1))
      (deliverRest S name chunks chars) ((contract S M).returns (Delivered M me H o))
  | 0, chars => .ret fun _ _ _ _ _ hat => ⟨_, rfl, delivered_ok hat⟩
  | chunks + 1, chars => by
      refine .handle (holds_askFor (q := .call (.nextChunk (S.config.timeoutFor name)))
        (N := fun _ => (near me o).take 1) (fun _ _ h => h)
        fun _ _ h => h) ?_ ?_
      · intro (chunk : String)
        refine (holds_yieldChunk (holds_deliverRest chunks _)).weaken_pre ?_
        rintro s h F l - ⟨hat, -⟩
        refine hat.mono ?_ fun _ h => h
        rintro l ⟨l', rfl, hl⟩
        exact hl
      · intro e
        split
        · exact .ret fun s h F l _ hat => ⟨_, rfl, delivered_ok hat.1⟩
        · rename_i hstop
          have hquiet : ∀ s h l, At M me (fun l => ∃ l', l = ⟨.call (.nextChunk
              (S.config.timeoutFor name)), .error e⟩ :: l' ∧ Unserved l') H o
                ((near me o).take 1) s h l → At M me Unserved H o ((near me o).take 1) s h l := by
            intro s h l hat
            refine hat.mono ?_ fun _ h => h
            rintro l ⟨l', rfl, hl⟩
            rw [Unserved, served_cons, nextChunk_error hstop]
            exact hl
          split
          · exact .ret fun s h F l _ hat =>
              ⟨_, rfl, delivered_error (hquiet s h l hat.1) fun _ => rfl⟩
          · exact .ret fun s h F l _ hat =>
              ⟨_, rfl, delivered_error (hquiet s h l hat.1) hat.2.2.keyError⟩

variable {chunks : Nat} {r : CompletionRequest} {ticket : Option Nat} {X : Multiset Tok}

theorem holds_deliver {first : Option String} :
    (contract S M).Holds me (At M me (Opened first) H o ((near me o).take 1))
      (deliver S name first chunks) ((contract S M).returns (Delivered M me H o)) := by
  cases first with
  | none => exact .ret fun _ _ _ _ _ hat => ⟨_, rfl, delivered_ok hat⟩
  | some chunk => exact holds_yieldChunk (holds_deliverRest chunks _)

theorem keeps_settleStreamRaw {u chars : Nat}
    {completed : Bool} : Sync.Keeps Same (settleStreamRaw name r u chars completed) := by
  refine .bind (.reads _) fun p => .bind (.reads _) fun usage => ?_
  refine .bind (.update fun s => .of_frame rfl rfl rfl rfl) fun _ => ?_
  refine .bind (books_onStats _).keeps fun _ => .update fun s => .of_frame rfl rfl rfl rfl

/-- Between the end of a delivery and the end of the request. -/
def Concluded (M : Mode) (me : Γ.Handle) (H : Multiset Tok) (o : Own M) (r : Except Exc Unit)
    (s : RouterState) (h : Multiset Tok) (l : List (Event Γ)) : Prop :=
  At M me (fun l => M.keeps me.2 → ∀ e, r = .error e → e.isKeyError = false ∧
    (e.isException = true → Unserved l)) H o [] s h l

/-- The breaker learns how a delivery ended. -/
theorem holds_concludeStream (hname : name ∈ (near me o).take 1) {b probe : Nat}
    (hb : ∀ hf : M.fixed, (o.2 hf).1.get? name = some b)
    (hX : Admitted M name ticket X) {x : Nat × Except Exc Unit} :
    (contract S M).Holds me (Delivered M me ({Tok.probe probe name} + (X + H)) o x)
      (concludeStream name b probe x.2) (Concluded M me (X + H) o) := by
  obtain ⟨n, e | a⟩ := x
  · refine .given fun hkey => .bind (holds_settleFailure hname hb hX) ?_ ?_
    · refine fun _ => .fail fun s h F l _ hat => hat.1.mono (fun l hl hk e' he => ?_)
        fun _ hn => absurd hn List.not_mem_nil
      obtain rfl := Except.error.inj he
      exact ⟨hkey hk e rfl, hl e rfl⟩
    · rintro e' s h F l - ⟨hat, hr⟩
      exact hat.mono (fun l _ hk => absurd (.inr hk) (hr e' rfl).1)
        fun _ hn => absurd hn List.not_mem_nil
  · refine .given fun _ => ?_
    refine .bind_returns (holds_settle hb fun s => settles_success s b probe) fun _ => ?_
    rw [← zero_add (X + H)]
    refine (holds_booksHeld (books_onStats _) hname hX).weaken_post ?_
    rintro r s h F l - ⟨hat, hr⟩
    exact hat.mono (fun l _ hk e he => absurd (.inr hk) (hr e he).1)
      fun _ hn => absurd hn List.not_mem_nil

/-- The `finally` of an open stream: the slot is given back, and the request
turns to no candidate any more. -/
theorem holds_finishStream {req : CompletionRequest} {u chars : Nat}
    {delivered completed : Bool}
    (hX : Admitted M name ticket X) {r : Except Exc Unit} :
    (contract S M).Holds me (Concluded M me (X + 0) o r)
      (settleStream name req u chars delivered completed >>= fun _ =>
        update (fun s => s.limiterRelease name ticket) >>= fun _ =>
          update (fun s => s.turnTo me.1 []) >>= fun _ => closeStream)
      fun x s h l => Concluded M me 0 ([], o.2) r s h l ∧ ∀ e, x = .error e → e.isException = false := by
  refine .bind_returns (N := fun _ => Concluded M me (X + 0) o r) ?_ fun _ => ?_
  · unfold settleStream
    split
    · exact holds_update fun s => keeps_settleStreamRaw s
    · exact .ret fun _ _ _ _ _ hat => ⟨(), rfl, hat⟩
  refine .bind_returns (holds_limiterRelease hX) fun _ => ?_
  refine .bind_returns (holds_turnTo (f := id) fun s => ⟨⟨rfl, rfl, rfl, rfl⟩, fun _ h => h⟩) fun _ => ?_
  exact holds_closeStream (fun _ _ hl => hl) fun _ hn => absurd hn List.not_mem_nil

/-- **An open stream.** -/
theorem holds_runStream (hname : name ∈ (near me o).take 1)
    {u b probe chunks : Nat} (hb : ∀ hf : M.fixed, (o.2 hf).1.get? name = some b)
    (hX : Admitted M name ticket X)
    {first : Option String} :
    (contract S M).Holds me
      (At M me (Opened first) ({Tok.probe probe name} + (X + 0)) o ((near me o).take 1))
      (runStream S me.1 name r u b probe ticket first chunks) (Closes S M me fun _ _ => True) := by
  have hmodel : Books name (Sync.reads fun s =>
      if orElse r.model "" = "" then (lookup s.providers name).map Provider.defaultModel
      else .ok (orElse r.model "")) := by
    refine ⟨.reads _, fun s _ hreg => ?_⟩
    obtain ⟨p, hp⟩ := Dict.mem_keys.mp hreg
    rw [Sync.reads_run, lookup_of_get? hp]
    split
    · exact ⟨_, rfl⟩
    · exact ⟨_, rfl⟩
  refine .bind (holds_booksHeld hmodel hname hX) (fun model => .given fun _ => ?_) ?_
  · refine .bind_returns (holds_update fun s => .of_frame rfl rfl rfl rfl) fun _ => ?_
    refine .bind_returns holds_deliver fun x => ?_
    refine .tryFinally (holds_concludeStream hname hb hX) (fun _ => holds_finishStream hX) ?_ ?_
    · rintro (e | a) s h F l - ⟨hat, -⟩
      · refine ⟨([], o.2), hat.mono (fun l hl hk => ?_) fun _ hn => hn⟩
        obtain ⟨hkey, hserved⟩ := hl hk e rfl
        exact ⟨hkey, hserved, fun _ => .inr (.inr (.inl rfl))⟩
      · exact ⟨_, hat.mono (fun _ _ => trivial) fun _ hn => hn⟩
    · rintro r e s h F l - ⟨hat, hcut⟩
      have hexc := hcut e rfl
      exact ⟨_, hat.mono (fun l _ _ => failed_of_cut hexc) fun _ hn => hn⟩
  · rintro e s h F l - ⟨hat, hr⟩
    obtain ⟨hsure, hcare⟩ := hr e rfl
    rw [← add_assoc] at hat
    have hlost : At M me (Opened first) 0 o [] s h l := hat.lose hsure fun hc => absurd hc hcare
    exact closes_of_unsure hlost hsure

/-- The candidate loop of `stream`. -/
theorem holds_streamLoop (hme : ∀ focus, candidates me.2 focus = focus) {deadline : Deadline}
    {single : Bool} :
    ∀ (l : List (String × CompletionRequest)) (g : Progress) (o : Own M),
      (M.keeps me.2 → ∀ e ∈ g.lastExc, e.isKeyError = false) →
      (contract S M).Holds me (At M me Unserved 0 o (l.map Prod.fst))
        (streamLoop S me.1 deadline single chunks l g) (Closes S M me fun _ _ => True)
  | [], g, o, hlast => holds_exhausted hlast
  | (name, req) :: rest, g, o, hlast => by
      have hadd : ∀ e, (M.keeps me.2 → e.isKeyError = false) →
          M.keeps me.2 → ∀ e' ∈ (g.add name e).lastExc, e'.isKeyError = false := by
        rintro e he hk e' ⟨⟩
        exact he hk
      rw [streamLoop]
      refine .bind_returns (holds_turnTo (f := id) fun s => ⟨⟨rfl, rfl, rfl, rfl⟩, fun _ h => h⟩)
        fun _ => ?_
      have hnear : near me (name :: rest.map Prod.fst, o.2) = name :: rest.map Prod.fst := hme _
      refine Contract.Holds.weaken_pre
        (?_ : (contract S M).Holds me (Idle M me 0 (name :: rest.map Prod.fst, o.2)) _ _)
        fun _ _ _ _ _ h => h.mono (fun _ h => h) (by rw [hnear]; exact fun _ h => h)
      have htail : ∀ n ∈ rest.map Prod.fst, n ∈ near me (name :: rest.map Prod.fst, o.2) := by
        rw [hnear]
        exact fun n hn => List.mem_cons_of_mem _ hn
      have hname : (near me (name :: rest.map Prod.fst, o.2)).head? = some name := by rw [hnear]; rfl
      have htake : name ∈ (near me (name :: rest.map Prod.fst, o.2)).take 1 := by
        rw [hnear]
        exact List.mem_cons_self
      refine .bind (holds_allowCandidate (List.mem_of_mem_head? hname)) ?_
        fun e s h F l _ hm => closes_of_unsure hm.1 hm.2
      rintro ⟨b, e | probe⟩
      · refine .given fun he => ?_
        exact (holds_streamLoop hme rest (g.add name e) _ (hadd e fun _ => he)).weaken_pre
          fun _ _ _ _ _ h => h.mono (fun _ h => h) htail
      refine .given fun hb => ?_
      refine .bind_returns (holds_through (fun s => ⟨rfl, rfl, rfl, rfl⟩)
        fun s T hi => hi.same (.of_frame rfl rfl rfl rfl)) fun u => ?_
      refine .handle (holds_openStream hname hb) ?_ fun e => ?_
      · intro x s h F l hi hm
        obtain ⟨X, hX, hat⟩ := hm
        exact holds_runStream htake hb hX s h F l hi hat
      · refine (holds_failover htail fun he => ?_).weaken_pre fun _ _ _ _ _ hm => raised_of_ends hm
        exact holds_streamLoop hme rest (g.add name e) _ (hadd e he)

/-- **`stream`.** -/
theorem holds_stream (hme : ∀ focus, candidates me.2 focus = focus)
    {preferred : Option String} {deadlineSeconds : Option ℚ} :
    (contract S M).Holds me (At M me (· = []) 0 o [])
      (stream S me.1 r preferred deadlineSeconds chunks) (Closes S M me fun _ _ => True) := by
  refine .bind holds_prepare ?_ ?_
  · rintro ⟨r', deadline, screened⟩
    refine (holds_streamLoop hme screened {} o fun _ e he => by cases he).weaken_pre ?_
    intro s h F l _ hat
    refine hat.mono ?_ fun _ hn => hn
    rintro l rfl
    rfl
  · rintro e s h F l - ⟨hat, he⟩
    exact ⟨o, hat.mono (fun l hl _ => failed_of_nil he hl) fun _ hn => hn⟩

end Stream

/-! ## `embed` -/

section Embed

variable {S : Setup} {M : Mode} {me : Γ.Handle} {H : Multiset Tok} {o : Own M} {K : List String}
  {W : List (Event Γ) → Prop} {name : String}

/-- No call was cancelled at its provider so far. -/
def Unlost (l : List (Event Γ)) : Prop := l.any isLost = false

/-- What an embedding call leaves: nothing, or the probe of the call it was
cancelled at. -/
def EmbedEnds (M : Mode) (h : Multiset Tok) (l : List (Event Γ)) : Prop :=
  (M.careful → ∀ x ∈ h, x.holder? = none) ∧
    (M.fixed → if l.any isLost then ∃ t n, h = {Tok.probe t n} else h = 0)

variable {l : List (Event Γ)} {h : Multiset Tok} {s : RouterState}

theorem embedEnds (hat : At M me Unlost 0 o K s h l) : EmbedEnds M h l := by
  obtain ⟨⟨g, hg, rfl⟩, -, -, hl⟩ := hat
  rw [zero_add]
  refine ⟨hg.slotless, fun hf => ?_⟩
  rw [hg.none_of_sure (.inl hf), hl, if_neg Bool.false_ne_true]

theorem embedEnds_of_unsure {t : Nat}
    (hat : At M me W ({Tok.probe t name} + 0) o K s h l) (hsure : ¬ M.sure me.2) :
    EmbedEnds M h l := by
  have hlost : At M me W 0 o K s h l := hat.lose hsure fun _ => slotless_probe
  obtain ⟨⟨g, hg, rfl⟩, -⟩ := hlost
  rw [zero_add]
  exact ⟨hg.slotless, fun hf => absurd (.inl hf) hsure⟩

theorem embedEnds_of_lost {t : Nat}
    (hat : At M me W ({Tok.probe t name} + 0) o K s h l) (hl : l.any isLost = true) :
    EmbedEnds M h l := by
  obtain ⟨⟨g, hg, rfl⟩, -⟩ := hat
  rw [add_zero]
  refine ⟨fun hc x hx => ?_, fun hf => ?_⟩
  · rcases Multiset.mem_add.mp hx with hx | hx
    · exact slotless_probe x hx
    · exact hg.slotless hc x hx
  · rw [hl, if_pos rfl, hg.none_of_sure (.inl hf), add_zero]
    exact ⟨t, name, rfl⟩

theorem At.recall (hat : At M me W H o K s h l) (hme : me.2.isEmbed = true)
    (hreg : ∀ hf : M.fixed, name ∈ (o.2 hf).2.1) : At M me W H o [name] s h l := by
  refine ⟨hat.tokens, hat.own, fun hs n hn => ?_, hat.hist⟩
  rw [List.mem_singleton.mp hn]
  rcases hs with hf | hk
  · have hin := hreg hf
    rw [hat.fixed hf] at hin
    exact hin
  · have hne := hk.2
    rw [hme] at hne
    cases hne

variable {texts : List String}

theorem isLost_of_exception {p : Provider} {model : Option String}
    {w : ℚ} {e : Exc} (he : e.isException = true) :
    isLost ⟨.call (.embed name p texts model w), .error e⟩ = false := by
  cases e <;> first | rfl | cases he

/-- The probe of an embedding call is settled, with the breaker looked up again
by name. -/
theorem holds_embedSettle {probe : Nat} {α : Type} {k : Async α} {f : Nat → RouterState → RouterState}
    (hf : ∀ b s, ∃ g, f b s = s.settle b probe g ∧ ∀ c : CircuitBreaker, c.Single → c.Settles (g c))
    (hk : (contract S M).Holds me (At M me Unlost 0 o [name]) k fun _ _ h l => EmbedEnds M h l) :
    (contract S M).Holds me (At M me Unlost ({Tok.probe probe name} + 0) o [name])
      (reads (fun s => lookup s.breakers name) >>= fun b => update (f b) >>= fun _ => k)
      fun _ _ h l => EmbedEnds M h l := by
  refine .bind (holds_lookup (fun s hs h => (hs.breakers name).mpr h) List.mem_cons_self) ?_ ?_
  · intro b
    refine .assume (φ := ∀ hf : M.fixed, (o.2 hf).1.get? name = some b) ?_ fun hb => ?_
    · rintro s h F l - ⟨hat, hget⟩ hfix
      rw [hat.fixed hfix]
      exact hget
    · exact .bind_returns ((holds_settle hb (hf b)).weaken_pre fun _ _ _ _ _ h => h.1) fun _ => hk
  · exact fun e s h F l _ hat => embedEnds_of_unsure hat.1 hat.2

/-- The loop of `embed`. -/
theorem holds_embedLoop (hme : me.2.isEmbed = true) {model : Option String} :
    ∀ (names : List String) (errors : List (String × ErrorKind)) (last : Option Exc),
      (contract S M).Holds me (At M me Unlost 0 o []) (embedLoop S texts model names errors last)
        fun _ _ h l => EmbedEnds M h l
  | [], errors, last => by
      have hend : ∀ e : Exc, (contract S M).Holds me (At M me Unlost 0 o [])
          (Coro.fail e : Async (Embedding × String)) fun _ _ h l => EmbedEnds M h l :=
        fun e => .fail fun _ _ _ _ _ h => embedEnds h
      unfold embedLoop
      split
      · exact hend _
      · exact hend _
      · exact .bind_returns holds_value fun wait => (hend _).weaken_pre fun _ _ _ _ _ h => h.1
  | name :: rest, errors, last => by
      have hloop : ∀ errors last, (contract S M).Holds me (At M me Unlost 0 o [])
          (embedLoop S texts model rest errors last) fun _ _ h l => EmbedEnds M h l :=
        holds_embedLoop hme rest
      rw [embedLoop]
      refine .bind_returns holds_value fun x => ?_
      cases x with
      | none => exact .fail fun _ _ _ _ _ h => embedEnds h.1
      | some p =>
        refine .assume (φ := ∀ hf : M.fixed, name ∈ (o.2 hf).2.1) ?_ fun hreg => ?_
        · rintro s h F l - ⟨hat, hget⟩ hf
          rw [hat.fixed hf]
          exact Dict.mem_keys.mpr ⟨p, hget.symm⟩
        dsimp only
        split
        · exact (hloop errors last).weaken_pre fun _ _ _ _ _ h => h.1
        refine Contract.Holds.weaken_pre (?_ : (contract S M).Holds me (At M me Unlost 0 o [name]) _ _)
          fun _ _ _ _ _ h => h.1.recall hme hreg
        refine .bind (holds_lookup (fun s hs h => (hs.breakers name).mpr h) List.mem_cons_self) ?_ ?_
        · intro b
          refine .bind_returns holds_allow fun x => ?_
          cases x with
          | none =>
            refine (hloop _ last).weaken_pre fun _ _ _ _ _ h => h.mono (fun _ h => h) ?_
            exact fun _ hn => absurd hn List.not_mem_nil
          | some probe =>
            refine .handle (holds_askFor
              (q := .call (.embed name p texts model (S.config.timeoutFor name)))
              (N := fun _ => []) (fun _ _ hn => absurd hn List.not_mem_nil)
              (fun _ _ hn => absurd hn List.not_mem_nil) |>.weaken_pre
                fun _ _ _ _ _ h => h.1) ?_ ?_
            · intro (v : Embedding)
              refine Contract.Holds.weaken_pre (?_ : (contract S M).Holds me
                (At M me Unlost ({Tok.probe probe name} + 0) o [name]) _ _) ?_
              · refine holds_embedSettle (fun b s => settles_success s b probe) ?_
                refine .bind_returns (holds_update fun s => .of_frame rfl rfl rfl rfl) fun _ => ?_
                exact .ret fun _ _ _ _ _ h => embedEnds h
              · rintro s h F l - ⟨hat, -⟩
                refine (hat.mono ?_ fun _ h => h).recall hme hreg
                rintro l ⟨l', rfl, hl⟩
                exact hl
            · intro e
              refine .assume (φ := e ≠ .generatorExit) (fun s h F l _ hat => hat.2.2.given)
                fun hgen => ?_
              cases hexc : e.isException with
              | false =>
                have he : e = .cancelled := by
                  cases e <;> first | rfl | exact absurd rfl hgen | cases hexc
                subst he
                refine .fail ?_
                rintro s h F l - ⟨hat, -⟩
                obtain ⟨l', rfl, -⟩ := hat.hist
                exact embedEnds_of_lost hat rfl
              | true =>
                refine Contract.Holds.weaken_pre (?_ : (contract S M).Holds me
                  (At M me Unlost ({Tok.probe probe name} + 0) o [name]) _ _) ?_
                · refine .bind_returns (N := fun _ => At M me Unlost ({Tok.probe probe name} + 0)
                    o [name]) (.ret fun _ _ _ _ _ h => ⟨(), rfl, h⟩) fun _ => ?_
                  refine .bind (holds_books (books_recordError _ _) List.mem_cons_self)
                    (fun _ => .given fun _ => ?_) fun e' s h F l _ hat =>
                      embedEnds_of_unsure hat.1 hat.2
                  refine holds_embedSettle (fun b s => ?_) ?_
                  · split
                    · exact settles_failure s b probe
                    · exact settles_release s b probe
                  refine .bind (N := fun _ => At M me Unlost 0 o []) ?_
                    (fun _ => hloop _ _) fun _ _ _ _ _ _ h => embedEnds h
                  have hnil : ∀ n ∈ ([] : List String), n ∈ [name] :=
                    fun n hn => absurd hn List.not_mem_nil
                  exact .when (fun _ => .fail fun _ _ _ _ _ h => h.mono (fun _ h => h) hnil)
                    fun _ _ _ _ _ _ h => h.mono (fun _ h => h) hnil
                · rintro s h F l - ⟨hat, -⟩
                  refine (hat.mono ?_ fun _ h => h).recall hme hreg
                  rintro l ⟨l', rfl, hl⟩
                  exact Bool.or_eq_false_iff.mpr ⟨isLost_of_exception hexc, hl⟩
        · refine fun e s h F l _ hat => ?_
          obtain ⟨⟨g, hg, rfl⟩, -⟩ := hat.1
          rw [zero_add]
          exact ⟨hg.slotless, fun hf => absurd (.inl hf) hat.2⟩

/-- **`embed`.** -/
theorem holds_embed (hme : me.2.isEmbed = true)
    {model preferred : Option String} :
    (contract S M).Holds me (At M me Unlost 0 o []) (embed S texts model preferred)
      fun _ _ h l => EmbedEnds M h l :=
  .bind_returns holds_value fun names =>
    (holds_embedLoop hme names [] none).weaken_pre fun _ _ _ _ _ h => h.1

end Embed

/-! ## The tasks -/

section Tasks

variable {S : Setup} {M : Mode} {i : Nat}

/-- What a request that closes leaves is what its contract says. -/
theorem ends_of_closes (c : Call) {ok : c.Out → List (Event Γ) → Prop} (hc : c.isEmbed = false)
    (hok : ∀ a focus l, ok a l → Answered S c (.ok a) focus l)
    (herr : ∀ e focus l, Failed S e focus l → Answered S c (.error e) focus l)
    (r : Except Exc c.Out) :
    (contract S M).Entails (Closes S M (i, c) ok r) ((contract S M).ends (i, c) r) := by
  have hpost : ∀ (o : Own M) (W : List (Event Γ) → Prop) s h l, At M (i, c) W 0 o [] s h l →
      (∀ l, W l → M.keeps c → Answered S c r o.1 l) → post S M (i, c) r h (ownOf M i s) l := by
    intro o W s h l hat hW
    obtain ⟨⟨g, hg, rfl⟩, hown, -, hl⟩ := hat
    show if c.isEmbed = true then _ else _
    rw [hc, if_neg Bool.false_ne_true, zero_add, hown]
    exact ⟨hg, hW l hl⟩
  cases r with
  | ok a =>
    rintro s h F l - ⟨o, hat⟩
    exact hpost o _ s h l hat fun l hl _ => hok a o.1 l hl
  | error e =>
    rintro s h F l - ⟨o, hat⟩
    exact hpost o _ s h l hat fun l hl hk => herr e o.1 l (hl hk)

theorem at_start {me : Γ.Handle} {W : List (Event Γ) → Prop} {s : RouterState} {h : Multiset Tok}
    {l : List (Event Γ)} (hh : h = 0) (hl : W l) : At M me W 0 (ownOf M me.1 s) [] s h l :=
  ⟨⟨0, spent_zero, by rw [hh, add_zero]⟩, rfl, fun _ _ hn => absurd hn List.not_mem_nil, hl⟩

theorem at_startLeg {name : String} {r : CompletionRequest} {deadline : Deadline}
    {attempts probe : Nat} {s : RouterState} {F : Multiset Tok}
    (hi : Inv M s ({Tok.probe probe name} + F)) (hbegins : M.kept → name ∈ s.providers.keys) :
    Idle M (i, .leg name r deadline attempts probe) ({Tok.probe probe name} + 0) (ownOf M i s) s
      {Tok.probe probe name} [] := by
  refine ⟨⟨0, spent_zero, rfl⟩, rfl, fun hs n hn => ?_, rfl⟩
  rw [List.mem_singleton.mp hn]
  rcases hs with hf | hk
  · have hheld := (hi.probes hf).held (probe, name)
    rw [Multiset.singleton_add, probe_probes] at hheld
    exact (hi.consistent.breakers name).mp (hheld (Multiset.mem_cons_self _ _))
  · exact hbegins hk.1

/-- Every task keeps to the contract. -/
theorem holds_body (c : Call) :
    (contract S M).Holds (i, c)
      (fun s h l => h = (contract S M).gives c ∧ l = [] ∧ (contract S M).begins (i, c) s)
      ((program S).body i c) ((contract S M).ends (i, c)) := by
  cases c with
  | route r preferred deadlineSeconds =>
    rintro s h F l hi ⟨hh, hl, -⟩
    refine Contract.Holds.weaken_post (holds_route ?_)
      (ends_of_closes (.route r preferred deadlineSeconds) ?_ ?_ ?_) s h F l hi (at_start hh hl)
    · exact fun _ => rfl
    · exact rfl
    · exact fun _ _ _ hok => hok
    · exact fun _ _ _ herr => herr
  | stream r preferred deadlineSeconds chunks =>
    rintro s h F l hi ⟨hh, hl, -⟩
    refine Contract.Holds.weaken_post (holds_stream ?_)
      (ends_of_closes (.stream r preferred deadlineSeconds chunks) ?_ ?_ ?_) s h F l hi
      (at_start hh hl)
    · exact fun _ => rfl
    · exact rfl
    · exact fun _ _ _ _ => trivial
    · exact fun _ _ _ herr => herr
  | embed texts model preferred =>
    rintro s h F l hi ⟨hh, rfl, -⟩
    exact Contract.Holds.weaken_post (holds_embed rfl) (fun r s h F l _ hend => hend)
      s h F [] hi (at_start hh rfl)
  | leg name r deadline attempts probe =>
    rintro s h F l hi ⟨rfl, rfl, hbegins⟩
    have hname : ∀ n ∈ [name], n = name := fun n hn => List.mem_singleton.mp hn
    refine Contract.Holds.weaken_post (holds_callProvider rfl)
      ?_ s _ F [] hi (at_startLeg hi fun hk => hbegins hk name List.mem_cons_self)
    rintro (e | response) s h F l -
    · rintro ⟨⟨⟨g, hg, rfl⟩, -, -, hl⟩, hkey⟩
      rw [zero_add]
      exact ⟨hg, fun hk => ⟨hkey hk, hl⟩⟩
    · rintro ⟨⟨g, hg, rfl⟩, -, -, hl⟩
      rw [zero_add]
      exact ⟨hg, fun _ => hl⟩

end Tasks

end Router

end Caips.Coreai
