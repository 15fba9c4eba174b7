/-
Caips.Coreai.RouterContract — what the tasks of a router promise each other,
for each mode of the outside world, and the rules the proofs about its
coroutines use.

A task's own part of the router is its `focus`: the candidate it is at and
those still before it. What a task needs to be registered when it goes on
depends on the answer it goes on with (`needed`): after a success only its
candidate, after a failure also the later ones. In a fixed registry this holds
by itself; a `kept` registry is one where it holds at every resumption.

* `At M me W H o K` is the assertion of task `me` between two actions: it owns
  the tokens `H`, its own part is `o`, the names `K` are registered, and its
  answers so far meet `W`. Where lookups may fail it may have lost probes
  besides (`Spent`).
* `post` is what a finished task has done: given back what it owned, and for a
  kept registry ended without a `KeyError`, with the response of its upstream
  call if there was one, and with no candidate left to fail over to.
-/
import Caips.Coreai.RouterInvariant

namespace Caips.Coreai

open Caips.Logic Caips.Providers

namespace Router

open RouterState

/-! ## Answers -/

/-- What the upstream delivered: a whole response, or the end of a stream. -/
inductive Success where
  | response (r : CompletionResponse)
  | streamEnd

/-- The response a leg ended with. -/
def success? (x : Γ.Ending) : Option Success :=
  match result x with
  | .ok r => some (.response r)
  | .error _ => none

/-- The exception a leg ended with. -/
def failure? (x : Γ.Ending) : Option Exc :=
  match result x with
  | .ok _ => none
  | .error e => some e

def successes : Event Γ → List Success
  | ⟨.call (.complete _ _ _ _), .ok r⟩ => [.response r]
  | ⟨.call (.firstChunk _ _ _ _), .error .stopAsyncIteration⟩ => [.streamEnd]
  | ⟨.call (.nextChunk _), .error .stopAsyncIteration⟩ => [.streamEnd]
  | ⟨.wait _ _, .ok l⟩ => List.filterMap success? l
  | ⟨.join h, .ok a⟩ => [.response (legResponse h.2 a)]
  | _ => []

/-- What the upstream delivered to a task. -/
def served (l : List (Event Γ)) : List Success := l.flatMap successes

/-- Nothing yet. -/
def Unserved (l : List (Event Γ)) : Prop := served l = []

/-- The upstream delivered `x`. -/
def Served (x : Success) (l : List (Event Γ)) : Prop := x ∈ served l

@[simp] theorem served_cons (e : Event Γ) (l : List (Event Γ)) :
    served (e :: l) = successes e ++ served l := rfl

/-- The candidates a task has to find registered when it goes on with an
answer, of those it is at. -/
def needed : (q : Ask Γ) → Except Exc q.Reply → List String → List String
  | .call (.complete _ _ _ _), .ok _, N => N.take 1
  | .call (.firstChunk _ _ _ _), .ok _, N => N.take 1
  | .call (.firstChunk _ _ _ _), .error .stopAsyncIteration, N => N.take 1
  | .call (.nextChunk _), _, N => N.take 1
  | .call (.yieldChunk _), _, N => N.take 1
  | .wait .all _, _, N => N.take 2
  | .wait _ _, .ok l, N => if (List.filterMap success? l).isEmpty then N else N.take 2
  | .join _, .ok _, N => N.take 1
  | _, _, N => N

theorem mem_of_mem_needed {q : Ask Γ} {r : Except Exc q.Reply} {N : List String} {n : String}
    (h : n ∈ needed q r N) : n ∈ N := by
  unfold needed at h
  split at h
  all_goals first | exact List.mem_of_mem_take h | exact h | skip
  split at h
  · exact h
  · exact List.mem_of_mem_take h

theorem firstChunk_error {name : String} {p : Provider} {r : CompletionRequest} {w : Option ℚ}
    {e : Exc} (he : e ≠ .stopAsyncIteration) :
    successes ⟨.call (.firstChunk name p r w), .error e⟩ = [] ∧
      ∀ N, needed (.call (.firstChunk name p r w)) (.error e) N = N := by
  cases e <;> first | exact absurd rfl he | exact ⟨rfl, fun _ => rfl⟩

/-- The candidates of a task: its own for a leg, those of its focus for the
others. -/
def candidates (c : Call) (focus : List String) : List String :=
  match c with
  | .leg name _ _ _ _ => [name]
  | .embed _ _ _ => []
  | _ => focus

/-- The answer is no `KeyError` of the upstream's own. -/
def Foreign : (q : Ask Γ) → Except Exc q.Reply → Prop
  | .call _, .error e => e.isKeyError = false
  | _, _ => True

/-- A request that goes on finds what it needs registered, and no provider has
raised a `KeyError` of its own. -/
structure Unbroken (me : Γ.Handle) (q : Ask Γ) (s : RouterState) (r : Except Exc q.Reply) : Prop where
  registered : ∀ n ∈ needed q r (candidates me.2 (s.focus me.1)), n ∈ s.providers.keys
  upstream : Foreign q r

/-- A waiter is given a slot of `l` only while `l` is the limiter of its
candidate. -/
def Granted (me : Γ.Handle) (s : RouterState) : (q : Ask Γ) → Except Exc q.Reply → Prop
  | .call (.slotLocked l), .ok (locked : Bool) => locked = false →
      s.limiters.get? ((candidates me.2 (s.focus me.1)).headD "") = some l
  | .call (.slot l _), .ok _ =>
    s.limiters.get? ((candidates me.2 (s.focus me.1)).headD "") = some l
  | _, _ => True

/-- The answer is one the event loop gives. -/
def Given (s : RouterState) : (q : Ask Γ) → Except Exc q.Reply → Prop
  | .call q, r => answers q s r
  | _, _ => True

/-- What a task may assume of an answer in a mode. -/
structure Fair (M : Mode) (me : Γ.Handle) (q : Ask Γ) (s : RouterState) (r : Except Exc q.Reply) :
    Prop where
  given : Given s q r
  unbroken : M.keeps me.2 → Unbroken me q s r
  granted : M.careful → ¬ M.fixed → Granted me s q r

/-! ## The contract -/

/-- Tokens that are lost for good. A request that finds its candidates
registered loses none, and one of a careful registry no slot. -/
structure Spent (M : Mode) (c : Call) (g : Multiset Tok) : Prop where
  none_of_sure : M.sure c → g = 0
  slotless : M.careful → ∀ x ∈ g, x.holder? = none

/-- An embedding call was cancelled while it waited for its provider. -/
def isLost : Event Γ → Bool
  | ⟨.call (.embed _ _ _ _ _), .error .cancelled⟩ => true
  | _ => false

/-- What a task owns of the router, and what is fixed of it. -/
abbrev Own (M : Mode) : Type :=
  List String × (M.fixed → Dict String Nat × List String × Dict String Nat)

/-- The own part of task `i`. -/
def ownOf (M : Mode) (i : Nat) (s : RouterState) : Own M :=
  (s.focus i, fun _ => (s.breakers, s.providers.keys, s.limiters))

variable (S : Setup)

def legFailures : Event Γ → List Exc
  | ⟨.wait _ _, .ok l⟩ => List.filterMap failure? l
  | _ => []

/-- A leg of the task has failed with `e`. -/
def LegFailed (e : Exc) (l : List (Event Γ)) : Prop := ∃ v ∈ l, e ∈ legFailures v

/-- A request fails where nothing is left to fail over to: with an exception
that gives up, after a leg that ran out of time, at its last candidate, or
before it turned to one. It has not dropped what the upstream delivered. A
request that was cut off (cancelled, or its stream closed) is excused. -/
structure Failed (e : Exc) (focus : List String) (l : List (Event Γ)) : Prop where
  no_keyError : e.isKeyError = false
  undelivered : e.isException = true → Unserved l
  exhausted : e.isException = true → givesUp S e = true ∨
    (∃ e', LegFailed e' l ∧ (classify e').kind = .deadline) ∨ focus = [] ∨ l = []

/-- How a request ends: with the response of its upstream call, or as a failed
one. -/
def Answered (c : Call) (o : Except Exc c.Out) (focus : List String) (l : List (Event Γ)) : Prop :=
  match c, o with
  | .route _ _ _, .ok response =>
    Unserved l ∨ ∃ r g, Served (.response r) l ∧ response = annotate g r
  | .leg _ _ _ _ _, .ok response => Served (.response response) l
  | .leg _ _ _ _ _, .error e => e.isKeyError = false ∧ Unserved l
  | _, .ok _ => True
  | _, .error e => Failed S e focus l

/-- What a finished task leaves. -/
def post (M : Mode) (me : Γ.Handle) (o : Except Exc (Γ.Out me.2)) (h : Multiset Tok)
    (own : Own M) (l : List (Event Γ)) : Prop :=
  if me.2.isEmbed then
    (M.careful → ∀ x ∈ h, x.holder? = none) ∧
      (M.fixed → if l.any isLost then ∃ t n, h = {Tok.probe t n} else h = 0)
  else Spent M me.2 h ∧ (M.keeps me.2 → Answered S me.2 o own.1 l)

/-- The contract of the router's tasks. -/
def contract (M : Mode) : Contract (program S) where
  Tok := Tok
  inv := Inv M
  gives
    | .leg name _ _ _ probe => {Tok.probe probe name}
    | _ => 0
  starts _ := True
  begins me s := M.kept → ∀ n ∈ candidates me.2 [], n ∈ s.providers.keys
  Own := Own M
  own := ownOf M
  asks _ _ := True
  rely me q s r := Fair M me q s r
  post := post S M

/-! ## Assertions and rules -/

/-- The assertion of a task between two actions. -/
structure At (M : Mode) (me : Γ.Handle) (W : List (Event Γ) → Prop) (H : Multiset Tok) (o : Own M)
    (K : List String) (s : RouterState) (h : Multiset Tok) (l : List (Event Γ)) : Prop where
  tokens : ∃ g, Spent M me.2 g ∧ h = H + g
  own : ownOf M me.1 s = o
  here : M.sure me.2 → ∀ n ∈ K, n ∈ s.providers.keys
  hist : W l

section Rules

variable {S : Setup} {M : Mode} {me : Γ.Handle} {W W' : List (Event Γ) → Prop} {H : Multiset Tok}
  {o : Own M} {K K' : List String} {α : Type}

theorem spent_zero {c : Call} : Spent M c 0 := ⟨fun _ => rfl, fun _ _ h => absurd h (Multiset.notMem_zero _)⟩

variable {l : List (Event Γ)} {h : Multiset Tok} {s : RouterState} {pre : (contract S M).Assn}

theorem At.mono (hat : At M me W H o K s h l) (hW : ∀ l, W l → W' l) (hK : ∀ n ∈ K', n ∈ K) :
    At M me W' H o K' s h l :=
  ⟨hat.tokens, hat.own, fun hs n hn => hat.here hs n (hK n hn), hW l hat.hist⟩

theorem At.fixed (hat : At M me W H o K s h l) (hf : M.fixed) :
    o.2 hf = (s.breakers, s.providers.keys, s.limiters) := by
  rw [← hat.own]
  rfl

theorem At.lose {Y : Multiset Tok}
    (hat : At M me W (Y + H) o K s h l) (hsure : ¬ M.sure me.2)
    (hY : M.careful → ∀ x ∈ Y, x.holder? = none) : At M me W H o K' s h l := by
  obtain ⟨⟨g, hg, rfl⟩, hown, -, hhist⟩ := hat
  refine ⟨⟨Y + g, ⟨fun hs => absurd hs hsure, fun hc x hx => ?_⟩, ?_⟩, hown,
    fun hs => absurd hs hsure, hhist⟩
  · rcases Multiset.mem_add.mp hx with hx | hx
    · exact hY hc x hx
    · exact hg.slotless hc x hx
  · abel

variable {name : String} {f : RouterState → RouterState}

theorem slotless_probe {t : Nat} :
    ∀ x ∈ ({Tok.probe t name} : Multiset Tok), x.holder? = none := by
  intro x hx
  rw [Multiset.mem_singleton.mp hx]
  rfl

theorem holds_sync {m : Routing α}
    {post : Except Exc α → (contract S M).Assn}
    (h : ∀ s (t F : Multiset Tok) l, Inv M s (t + F) → pre s t l →
      (∀ j ≠ me.1, ownOf M j (m s).2 = ownOf M j s) ∧
        ∃ t' : Multiset Tok, Inv M (m s).2 (t' + F) ∧ post (m s).1 (m s).2 t' l) :
    (contract S M).Holds me pre (Coro.sync m) post := .sync h

theorem holds_reads {f : RouterState → Except Exc α} :
    (contract S M).Holds me pre (reads f) fun r s h l => pre s h l ∧ r = f s :=
  .sync fun _ t _ _ hi hp => ⟨fun _ _ => rfl, t, hi, hp, rfl⟩

theorem holds_value {f : RouterState → α} :
    (contract S M).Holds me pre (reads fun s => .ok (f s))
      ((contract S M).returns fun a s h l => pre s h l ∧ a = f s) :=
  .sync fun s t _ _ hi hp => ⟨fun _ _ => rfl, t, hi, f s, rfl, hp, rfl⟩

/-- Changes that do not matter. -/
theorem holds_same {m : Routing α} (hm : Sync.Keeps Same m) {Q : Except Exc α → Prop}
    (hQ : ∀ s, Consistent s → (M.sure me.2 → ∀ n ∈ K, n ∈ s.providers.keys) → Q (m s).1) :
    (contract S M).Holds me (At M me W H o K) (Coro.sync m)
      fun r s h l => At M me W H o K s h l ∧ Q r := by
  refine holds_sync fun s t F l hi hat => ?_
  have hs := hm s
  have hown : ∀ j, ownOf M j (m s).2 = ownOf M j s := by
    intro j
    simp only [ownOf, hs.focus_eq, hs.breakers_eq, hs.providers_eq, hs.limiters_eq]
  refine ⟨fun j _ => hown j, t, hi.same hs, ⟨hat.tokens, (hown _).trans hat.own, ?_, hat.hist⟩,
    hQ s hi.consistent hat.here⟩
  rw [hs.providers_eq]
  exact hat.here

theorem holds_update (hf : ∀ s, Same s (f s)) :
    (contract S M).Holds me (At M me W H o K) (update f)
      ((contract S M).returns fun _ => At M me W H o K) :=
  (holds_same (Q := (· = .ok ())) (.update hf) fun _ _ _ => rfl).weaken_post
    fun _ _ _ _ _ _ h => ⟨(), h.2, h.1⟩

/-- What a lookup leaves: the entry, or an exception no kept or fixed registry
lets happen. -/
def Found {ν : Type} (M : Mode) (me : Γ.Handle) (W : List (Event Γ) → Prop) (H : Multiset Tok)
    (o : Own M) (K : List String) (P : ν → RouterState → Prop) (r : Except Exc ν) (s : RouterState)
    (h : Multiset Tok) (l : List (Event Γ)) : Prop :=
  At M me W H o K s h l ∧
    match r with
    | .ok v => P v s
    | .error _ => ¬ M.sure me.2

/-- A lookup in one of the tables. -/
theorem holds_lookup {ν : Type} {table : RouterState → Dict String ν}
    (ht : ∀ s, Consistent s → name ∈ s.providers.keys → name ∈ (table s).keys) (hn : name ∈ K) :
    (contract S M).Holds me (At M me W H o K) (reads fun s => lookup (table s) name)
      (Found M me W H o K fun v s => (table s).get? name = some v) := by
  refine holds_sync fun s t F l hi hat => ⟨fun _ _ => rfl, t, hi, hat, ?_⟩
  show match lookup (table s) name with
    | .ok v => (table s).get? name = some v
    | .error _ => ¬ M.sure me.2
  cases hl : lookup (table s) name with
  | ok v => exact get?_of_lookup hl
  | error e =>
    intro hs
    obtain ⟨v, hv⟩ := Dict.mem_keys.mp (ht s hi.consistent (hat.here hs name hn))
    rw [lookup_of_get? hv] at hl
    cases hl

/-- An await: of the names needed for the answer, those registered before
are. -/
theorem holds_askFor {q : Ask Γ} {N : Except Exc q.Reply → List String}
    (hN : ∀ r, ∀ n ∈ N r, n ∈ needed q r (candidates me.2 o.1)) (hK : ∀ r, ∀ n ∈ N r, n ∈ K) :
    (contract S M).Holds me (At M me W H o K) (Coro.ask q) fun r s h l =>
      At M me (fun l => ∃ l', l = ⟨q, r⟩ :: l' ∧ W l') H o (N r) s h l ∧
        (contract S M).Rely me s q r := by
  refine .ask (fun _ _ _ _ _ _ => ⟨trivial, trivial⟩) fun r s h F l hi hans => ?_
  obtain ⟨l', rfl, ⟨s', hown, hat⟩, hrely⟩ := hans
  have hown' : ownOf M me.1 s = o := (hown : ownOf M me.1 s = ownOf M me.1 s').trans hat.own
  refine ⟨⟨hat.tokens, hown', fun hs n hn => ?_, l', rfl, hat.hist⟩, hrely⟩
  rcases hs with hf | hk
  · have hkeys : s.providers.keys = s'.providers.keys := by
      have h1 := hat.fixed hf
      rw [← hown'] at h1
      exact congrArg (fun x => x.2.1) h1
    rw [hkeys]
    exact hat.here (.inl hf) n (hK r n hn)
  · have hreg := (hrely.2.unbroken hk).registered n
    have hfocus : s.focus me.1 = o.1 := congrArg Prod.fst hown'
    rw [hfocus] at hreg
    exact hreg (hN r n hn)

theorem holds_ask {q : Ask Γ} (hK : ∀ r, ∀ n ∈ needed q r (candidates me.2 o.1), n ∈ K) :
    (contract S M).Holds me (At M me W H o K) (Coro.ask q) fun r s h l =>
      At M me (fun l => ∃ l', l = ⟨q, r⟩ :: l' ∧ W l') H o (needed q r (candidates me.2 o.1)) s h l ∧
        (contract S M).Rely me s q r := holds_askFor (fun _ _ h => h) hK

/-- The registry and the focus of every task are left alone. -/
structure Steady (s s' : RouterState) : Prop where
  focus : s'.focus = s.focus
  breakers : s'.breakers = s.breakers
  providers : s'.providers = s.providers
  limiters : s'.limiters = s.limiters

theorem Steady.own {s s' : RouterState} (h : Steady s s') (j : Nat) : ownOf M j s' = ownOf M j s := by
  simp only [ownOf, h.focus, h.breakers, h.providers, h.limiters]

/-- An action that trades tokens, under a condition on the router. -/
theorem holds_trade {f : RouterState → α × RouterState} {P : RouterState → Prop}
    {J : α → Multiset Tok} (hm : ∀ s, Steady s (f s).2)
    (hinv : ∀ s F, P s → Inv M s (H + F) → Inv M (f s).2 (J (f s).1 + F)) :
    (contract S M).Holds me (fun s h l => At M me W H o K s h l ∧ P s) (yields f)
      ((contract S M).returns fun a => At M me W (J a) o K) := by
  refine holds_sync fun s t F l hi hat => ?_
  obtain ⟨⟨⟨g, hg, rfl⟩, hown, hhere, hhist⟩, hP⟩ := hat
  have hi' : Inv M (f s).2 (J (f s).1 + (g + F)) := by
    refine hinv s (g + F) hP ?_
    rw [← add_assoc]
    exact hi
  rw [← add_assoc] at hi'
  refine ⟨fun j _ => (hm s).own j, _, hi', _, rfl, ⟨g, hg, rfl⟩, ((hm s).own _).trans hown, ?_, hhist⟩
  show M.sure me.2 → ∀ n ∈ K, n ∈ (f s).2.providers.keys
  rw [(hm s).providers]
  exact hhere

theorem holds_trade_update {P : RouterState → Prop}
    {J : Multiset Tok} (hm : ∀ s, Steady s (f s))
    (hinv : ∀ s F, P s → Inv M s (H + F) → Inv M (f s) (J + F)) :
    (contract S M).Holds me (fun s h l => At M me W H o K s h l ∧ P s) (update f)
      ((contract S M).returns fun _ => At M me W J o K) :=
  holds_trade (f := fun s => ((), f s)) (J := fun _ => J) hm hinv

theorem holds_through {f : RouterState → α × RouterState} (hm : ∀ s, Steady s (f s).2)
    (hinv : ∀ s T, Inv M s T → Inv M (f s).2 T) :
    (contract S M).Holds me (At M me W H o K) (yields f)
      ((contract S M).returns fun _ => At M me W H o K) := by
  exact (holds_trade (P := fun _ => True) (J := fun _ => H) hm
    fun s F _ hi => hinv s _ hi).weaken_pre fun _ _ _ _ _ h => ⟨h, trivial⟩

/-- A method of a breaker settles the probe of its candidate. -/
theorem holds_settle {b t : Nat}
    (hb : ∀ hf : M.fixed, (o.2 hf).1.get? name = some b)
    (hf : ∀ s, ∃ g, f s = s.settle b t g ∧ ∀ c : CircuitBreaker, c.Single → c.Settles (g c)) :
    (contract S M).Holds me (At M me W ({Tok.probe t name} + H) o K) (update f)
      ((contract S M).returns fun _ => At M me W H o K) := by
  refine holds_sync fun s t' F l hi hat => ?_
  have hsteady : Steady s (f s) := by
    obtain ⟨g, hg, -⟩ := hf s
    rw [hg]
    exact ⟨rfl, rfl, rfl, rfl⟩
  have href : M.fixed → s.breakers.get? name = some b := fun hfix => by
    rw [← hb hfix, hat.fixed hfix]
  obtain ⟨⟨g, hg, rfl⟩, hown, hhere, hhist⟩ := hat
  have hi' : Inv M (f s) (H + g + F) := by
    obtain ⟨m, hm, hs⟩ := hf s
    rw [hm]
    refine Inv.settle ?_ href hs
    rw [← add_assoc, ← add_assoc]
    exact hi
  refine ⟨fun j _ => hsteady.own j, _, hi', (), rfl, ⟨g, hg, rfl⟩, (hsteady.own _).trans hown, ?_,
    hhist⟩
  show M.sure me.2 → ∀ n ∈ K, n ∈ (f s).providers.keys
  rw [hsteady.providers]
  exact hhere

theorem settles_release (s : RouterState) (b t : Nat) :
    ∃ g, s.breakerRelease b t = s.settle b t g ∧ ∀ c : CircuitBreaker, c.Single → c.Settles (g c) :=
  ⟨_, rfl, fun _ h => h.release⟩

theorem settles_success (s : RouterState) (b t : Nat) :
    ∃ g, s.recordProbeSuccess b t = s.settle b t g ∧
      ∀ c : CircuitBreaker, c.Single → c.Settles (g c) :=
  ⟨_, rfl, fun _ h => h.recordSuccess _⟩

theorem settles_failure (s : RouterState) (b t : Nat) :
    ∃ g, s.recordProbeFailure b t = s.settle b t g ∧
      ∀ c : CircuitBreaker, c.Single → c.Settles (g c) :=
  ⟨_, rfl, fun _ h => h.recordFailure _ _⟩

/-- What `allow` of the breaker `b` of `name` leaves. -/
def Allowed (M : Mode) (me : Γ.Handle) (W : List (Event Γ) → Prop) (H : Multiset Tok) (o : Own M)
    (K : List String) (name : String) (b : Nat) (x : Option Nat) (s : RouterState)
    (h : Multiset Tok) (l : List (Event Γ)) : Prop :=
  match x with
  | some t => At M me W ({Tok.probe t name} + H) o K s h l ∧
      ∀ hf : M.fixed, (o.2 hf).1.get? name = some b
  | none => At M me W H o K s h l

/-- `breaker.allow()` of the candidate's own breaker. -/
theorem holds_allow {b : Nat} :
    (contract S M).Holds me
      (fun s h l => At M me W H o K s h l ∧ s.breakers.get? name = some b)
      (yields fun s => s.allow b)
      ((contract S M).returns fun x => Allowed M me W H o K name b x) := by
  refine holds_sync fun s t' F l hi ⟨hat, hn⟩ => ?_
  have hsteady : Steady s (s.allow b).2 := by
    unfold RouterState.allow
    dsimp only
    split <;> exact ⟨rfl, rfl, rfl, rfl⟩
  have hb : ∀ hf : M.fixed, (o.2 hf).1.get? name = some b := fun hf => by rw [hat.fixed hf, hn]
  obtain ⟨⟨g, hg, rfl⟩, hown, hhere, hhist⟩ := hat
  have hhere' : M.sure me.2 → ∀ n ∈ K, n ∈ (s.allow b).2.providers.keys := by
    rw [hsteady.providers]
    exact hhere
  refine ⟨fun j _ => hsteady.own j, ?_⟩
  show ∃ t', Inv M (s.allow b).2 (t' + F) ∧ _
  cases ha : (s.allow b).1 with
  | some t =>
    refine ⟨{Tok.probe t name} + (H + g), ?_, ?_⟩
    · rw [add_assoc]
      exact Inv.allow_some hi hn ha
    · refine ⟨_, rfl, ?_⟩
      show Allowed M me W H o K name b (s.allow b).1 _ _ _
      rw [ha]
      exact ⟨⟨⟨g, hg, (add_assoc _ _ _).symm⟩, (hsteady.own _).trans hown, hhere', hhist⟩, hb⟩
  | none =>
    refine ⟨H + g, Inv.allow_none hi ha, _, rfl, ?_⟩
    show Allowed M me W H o K name b (s.allow b).1 _ _ _
    rw [ha]
    exact ⟨⟨g, hg, rfl⟩, (hsteady.own _).trans hown, hhere', hhist⟩

/-- The task turns to its next candidates. -/
theorem holds_turnTo {names : List String}
    (hf : ∀ s, Steady s (f s) ∧ ∀ T, Inv M s T → Inv M (f s) T) :
    (contract S M).Holds me (At M me W H o K) (update fun s => (f s).turnTo me.1 names)
      ((contract S M).returns fun _ => At M me W H (names, o.2) K) := by
  refine holds_sync fun s t F l hi hat => ?_
  obtain ⟨htok, hown, hhere, hhist⟩ := hat
  obtain ⟨hsteady, hinv⟩ := hf s
  refine ⟨fun j hj => ?_, t, (hinv _ hi).turnTo me.1 names, (), rfl, htok, ?_, ?_, hhist⟩
  · refine Eq.trans ?_ (hsteady.own j)
    show (Function.update (f s).focus me.1 names j, _) = ownOf M j (f s)
    rw [Function.update_of_ne hj]
    rfl
  · have hown' := (hsteady.own (M := M) me.1).trans hown
    refine Prod.ext ?_ (congrArg Prod.snd hown' :)
    exact Function.update_self _ _ _
  · show M.sure me.2 → ∀ n ∈ K, n ∈ (f s).providers.keys
    rw [hsteady.providers]
    exact hhere

end Rules

end Router

end Caips.Coreai
