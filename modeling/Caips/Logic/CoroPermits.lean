/-
Caips.Logic.CoroPermits — uses that are counted against grants.

The tasks of a program may use something of a kind `k` only as often as it was
granted. Both are counted in the shared state (`spent`, `granted`), and what a
task was granted and has not used yet are the tokens it holds. A token may be
lost, with an interrupted task or a crash, but none is made by anything but a
grant.

* `Permits.contract` is the contract of `Caips.Logic.CoroLogic` of these tokens,
  beside an invariant `keeps` of the state.
* `holds_quiet` is the rule of code that neither grants nor uses, `holds_grant`
  and `holds_spend` those of an action that does.
* `Kept.reach` is the law of whole runs: no more uses than grants.
-/
import Caips.Logic.CoroFrame
import Caips.Logic.Sync

namespace Caips.Logic

variable {Γ : Sig} {P : Program Γ}

/-- What is counted, and what holds of the state besides. `rely` is what the tasks may
assume of an answer. -/
structure Permits (P : Program Γ) where
  Kind : Type
  granted : Γ.State → Kind → Nat
  spent : Γ.State → Kind → Nat
  keeps : Γ.State → Prop
  rely : (q : Ask Γ) → Except Γ.Exc q.Reply → Prop

namespace Permits

variable (M : Permits P)

/-- A step that neither grants nor uses. -/
structure Quiet (s u : Γ.State) : Prop where
  keeps : M.keeps s → M.keeps u
  granted : ∀ k, M.granted u k = M.granted s k
  spent : ∀ k, M.spent u k = M.spent s k

variable {M} in
theorem Quiet.refl (s : Γ.State) : M.Quiet s s := ⟨id, fun _ => rfl, fun _ => rfl⟩

variable {M} in
theorem Quiet.trans {s t u : Γ.State} (h : M.Quiet s t) (h' : M.Quiet t u) : M.Quiet s u :=
  ⟨fun hs => h'.keeps (h.keeps hs), fun k => (h'.granted k).trans (h.granted k), fun k => (h'.spent k).trans (h.spent k)⟩

variable [DecidableEq M.Kind]

/-- The grants pay for the uses and for the tokens. -/
structure Paid (s : Γ.State) (held : Multiset M.Kind) : Prop where
  keeps : M.keeps s
  paid : ∀ k, M.spent s k + held.count k ≤ M.granted s k

/-- The contract: a task starts without a token. -/
def contract : Contract P where
  Tok := M.Kind
  inv := M.Paid
  gives _ := 0
  starts _ := True
  begins _ _ := True
  Own := Unit
  own _ _ := ()
  asks _ _ := True
  rely _ q _ r := M.rely q r
  post _ _ _ _ _ := True

/-- The task holds `n` tokens of the kind `k` at least. -/
def Has (n : Nat) (k : M.Kind) : M.contract.Assn := fun _ h _ => n ≤ h.count k

variable {M} {me : Γ.Handle} {α β : Type}

variable {s u : Γ.State} {k : M.Kind}

theorem Quiet.paid {held : Multiset M.Kind} (h : M.Quiet s u) (hs : M.Paid s held) : M.Paid u held := by
  refine ⟨h.keeps hs.keeps, fun k => ?_⟩
  rw [h.granted, h.spent]
  exact hs.paid k

theorem Paid.mono {s : Γ.State} {held held' : Multiset M.Kind} (hs : M.Paid s held) (hle : held' ≤ held) : M.Paid s held' := by
  refine ⟨hs.keeps, fun k => ?_⟩
  have hcount : held'.count k ≤ held.count k := Multiset.count_le_of_le k hle
  have hpaid := hs.paid k
  omega

/-- A grant pays for as many tokens. -/
theorem Paid.grant {t F : Multiset M.Kind} {n : Nat} (hs : M.Paid s (t + F))
    (hkeeps : M.keeps s → M.keeps u) (hspent : ∀ k', M.spent u k' = M.spent s k')
    (hgranted : ∀ k', M.granted u k' = M.granted s k' + if k' = k then n else 0) :
    M.Paid u (Multiset.replicate n k + F) := by
  refine ⟨hkeeps hs.keeps, fun k' => ?_⟩
  have hpaid := hs.paid k'
  rw [Multiset.count_add] at hpaid ⊢
  rw [Multiset.count_replicate, hspent, hgranted]
  by_cases hk : k' = k
  · subst hk
    simp only [if_true]
    omega
  · simp only [if_neg hk, if_neg (Ne.symm hk)]
    omega

/-- A use takes a token away. -/
theorem Paid.spend {t F : Multiset M.Kind} (hs : M.Paid s (t + F)) (hpos : 0 < t.count k)
    (hkeeps : M.keeps s → M.keeps u) (hgranted : ∀ k', M.granted u k' = M.granted s k')
    (hspent : ∀ k', M.spent u k' = M.spent s k' + if k' = k then 1 else 0) : M.Paid u (t.erase k + F) := by
  refine ⟨hkeeps hs.keeps, fun k' => ?_⟩
  have hpaid := hs.paid k'
  rw [Multiset.count_add] at hpaid ⊢
  rw [hgranted, hspent]
  by_cases hk : k' = k
  · subst hk
    rw [Multiset.count_erase_self]
    simp only [if_true]
    omega
  · rw [Multiset.count_erase_of_ne hk]
    simp only [if_neg hk]
    omega

/-! ## Rules -/

theorem respects_quiet (φ : Multiset M.Kind → Prop) : M.contract.Respects me φ M.Quiet where
  inv _ _ h _ _ _ hs := h.paid hs
  own _ _ _ _ _ := rfl

theorem holds_quiet {c : Coro Γ α} {φ : Multiset M.Kind → Prop} (hc : c.Within Ask.isCall M.Quiet) :
    M.contract.Holds me (fun _ h _ => φ h) c fun _ _ h _ => φ h :=
  .of_within (respects_quiet φ) (fun _ _ => trivial) (fun _ _ => trivial) hc

theorem holds_grant {f : Γ.State → Γ.State} {n : Nat} (hkeeps : ∀ s, M.keeps s → M.keeps (f s))
    (hspent : ∀ s k', M.spent (f s) k' = M.spent s k')
    (hgranted : ∀ s k', M.granted (f s) k' = M.granted s k' + if k' = k then n else 0) :
    M.contract.Holds me (fun _ _ _ => True) (Coro.sync (Sync.update f)) fun _ => M.Has n k := by
  apply Contract.Holds.sync
  intro s t F l hi _
  have hcount : n ≤ (Multiset.replicate n k).count k := by rw [Multiset.count_replicate_self]
  exact ⟨fun _ _ => rfl, Multiset.replicate n k, Paid.grant hi (hkeeps s) (hspent s) (hgranted s), hcount⟩

theorem holds_spend {f : Γ.State → Γ.State} {n : Nat} (hkeeps : ∀ s, M.keeps s → M.keeps (f s))
    (hgranted : ∀ s k', M.granted (f s) k' = M.granted s k')
    (hspent : ∀ s k', M.spent (f s) k' = M.spent s k' + if k' = k then 1 else 0) :
    M.contract.Holds me (M.Has (n + 1) k) (Coro.sync (Sync.update f)) fun _ => M.Has n k := by
  apply Contract.Holds.sync
  intro s (t : Multiset M.Kind) F l hi (hhas : n + 1 ≤ t.count k)
  have hcount : n ≤ (t.erase k).count k := by
    rw [Multiset.count_erase_self]
    omega
  have hpos : 0 < t.count k := by omega
  exact ⟨fun _ _ => rfl, t.erase k, Paid.spend hi hpos (hkeeps s) (hgranted s) (hspent s), hcount⟩

/-! ## Whole runs -/

/-- The contract is kept by the bodies, the outside world and the crashes, for the moves
the guard allows. -/
structure Kept (M : Permits P) [DecidableEq M.Kind] (init : Γ.State → Prop) (G : Pool Γ → Move Γ P.Op → Prop) : Prop where
  start : ∀ s, init s → M.Paid s 0
  body : ∀ i c, M.contract.Holds (i, c) (fun _ _ _ => True) (P.body i c) fun _ _ _ _ => True
  enter : ∀ p c s, G p (.spawn c) → P.enter c p.state = some s → M.Quiet p.state s
  op : ∀ p o s, G p (.op o) → P.op o p.state = some s → M.Quiet p.state s
  reboot : ∀ s s', P.reboot s = some s' → M.Quiet s s'
  rely : ∀ p i a t q k, p.tasks[i]? = some t → t.status = .suspended q k → P.Answers p q (a q) →
    (G p (.resume i a) ∨ ∃ n, G p (.crash i a n)) → M.rely q (a q)

variable {init : Γ.State → Prop} {G : Pool Γ → Move Γ P.Op → Prop}

theorem Kept.sound (h : M.Kept init G) : M.contract.Sound init G where
  start := h.start
  body i c _ := (h.body i c).weaken_pre fun _ _ _ _ _ _ => trivial
  enter p c s _ hG hs := by
    refine ⟨trivial, fun _ => rfl, fun (held : Multiset M.Kind) hheld => ?_⟩
    show M.Paid s (0 + held)
    rw [zero_add]
    exact (h.enter p c s hG hs).paid hheld
  op p o s _ hG hs := ⟨fun _ => rfl, fun _ hheld => (h.op p o s hG hs).paid hheld⟩
  reboot s s' held hheld hs := ((h.reboot s s' hs).paid hheld).mono (Multiset.zero_le held)
  begins _ _ _ _ _ _ _ := trivial
  rely p i a t q k _ ht hq ha hG := h.rely p i a t q k ht hq ha hG

/-- **No more uses than grants**, in every pool the event loop reaches. -/
theorem Kept.reach (h : M.Kept init G) {p : Pool Γ} (hp : (P.machine init).Reach G p) :
    M.keeps p.state ∧ ∀ k, M.spent p.state k ≤ M.granted p.state k := by
  obtain ⟨held, hinv, -⟩ := (h.sound.good hp).held
  have hpaid : M.Paid p.state 0 := Paid.mono hinv (Multiset.zero_le _)
  exact ⟨hpaid.keeps, fun k => by simpa using hpaid.paid k⟩

end Permits

end Caips.Logic
