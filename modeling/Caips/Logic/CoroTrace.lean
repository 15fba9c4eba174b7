/-
Caips.Logic.CoroTrace — what one coroutine does, apart from the others.

Two views of a coroutine of `Caips.Logic.Coro` that need no pool:

* `Within φ N` is structure: every await it can come to is one of `φ` and every
  action takes the state to an `N`-related one, whatever the states and the
  answers. One rule for each way to build a coroutine.
* `Exec E` is behaviour: from a state and by answers the environment `E` allows,
  to what is left of the coroutine. A run to the end (`Runs`) can be taken apart
  along the program text: what `handle c k h` did is what `c` did, and then what
  `k` or `h` did.

`Caips.Logic.CoroPool` connects both to the event loop.
-/
import Caips.Logic.Coro

namespace Caips.Logic

variable {Γ : Sig} {α β : Type}

namespace Coro

/-! ## Structure -/

/-- Every await is one of `φ`, and every action an `N`-step. A child is started
only where it may be awaited. -/
def Within (φ : Ask Γ → Prop) (N : Γ.State → Γ.State → Prop) : Coro Γ α → Prop
  | ret _ => True
  | fail _ => True
  | act f k => ∀ s, N s (f s) ∧ Within φ N (k s)
  | await q k => φ q ∧ ∀ r, Within φ N (k r)
  | fork d k => ∀ n, φ (.join (n, d)) ∧ Within φ N (k n)

namespace Within

variable {φ ψ : Ask Γ → Prop} {N M : Γ.State → Γ.State → Prop}

variable {c : Coro Γ α}

theorem mono (hφ : ∀ q, φ q → ψ q) (hN : ∀ s s', N s s' → M s s')
    (h : c.Within φ N) : c.Within ψ M := by
  induction c with
  | ret a => trivial
  | fail e => trivial
  | act f k ih => exact fun s => ⟨hN _ _ (h s).1, ih s (h s).2⟩
  | await q k ih => exact ⟨hφ q h.1, fun r => ih r (h.2 r)⟩
  | fork d k ih => exact fun n => ⟨hφ _ (h n).1, ih n (h n).2⟩

theorem unbounded (c : Coro Γ α) : c.Within (fun _ => True) fun _ _ => True := by
  induction c with
  | ret a => trivial
  | fail e => trivial
  | act f k ih => exact fun s => ⟨trivial, ih s⟩
  | await q k ih => exact ⟨trivial, ih⟩
  | fork d k ih => exact fun n => ⟨trivial, ih n⟩

theorem handle {k : α → Coro Γ β} {g : Γ.Exc → Coro Γ β} (hc : c.Within φ N)
    (hk : ∀ a, (k a).Within φ N) (hg : ∀ e, (g e).Within φ N) : (c.handle k g).Within φ N := by
  induction c with
  | ret a => exact hk a
  | fail e => exact hg e
  | act f k' ih => exact fun s => ⟨(hc s).1, ih s (hc s).2⟩
  | await q k' ih => exact ⟨hc.1, fun r => ih r (hc.2 r)⟩
  | fork d k' ih => exact fun n => ⟨(hc n).1, ih n (hc n).2⟩

theorem bind {k : α → Coro Γ β} (hc : c.Within φ N)
    (hk : ∀ a, (k a).Within φ N) : (c >>= k).Within φ N := hc.handle hk fun _ => trivial

theorem tryCatch {g : Γ.Exc → Coro Γ α} (hc : c.Within φ N)
    (hg : ∀ e, (g e).Within φ N) : (c.tryCatch g).Within φ N := hc.handle (fun _ => trivial) hg

theorem tryFinally {f : Coro Γ Unit} (hc : c.Within φ N) (hf : f.Within φ N) :
    (c.tryFinally f).Within φ N :=
  hc.handle (fun _ => hf.handle (fun _ => trivial) fun _ => trivial) fun _ =>
    hf.handle (fun _ => trivial) fun _ => trivial

theorem when {b : Bool} {c : Coro Γ Unit} (hc : b = true → c.Within φ N) :
    (Coro.when b c).Within φ N := by
  cases b with
  | false => trivial
  | true => exact hc rfl

theorem ofExcept (r : Except Γ.Exc α) : (Coro.ofExcept r).Within φ N := by
  cases r with
  | ok a => trivial
  | error e => trivial

theorem sync {m : ExceptT Γ.Exc (StateM Γ.State) α} (h : ∀ s, N s (m s).2) :
    (Coro.sync m).Within φ N := fun s => ⟨h s, .ofExcept _⟩

theorem ask {q : Ask Γ} (h : φ q) : (Coro.ask q).Within φ N := ⟨h, fun r => .ofExcept r⟩

theorem start_bind {d : Γ.Child} {k : Γ.Handle → Coro Γ β}
    (h : ∀ n, φ (.join (n, d)) ∧ (k (n, d)).Within φ N) : (Coro.start d >>= k).Within φ N := h

end Within

/-- Where `J` holds: every await is one of `φ`, and no action breaks `J`. -/
def Under (J : Γ.State → Prop) (φ : Ask Γ → Prop) : Coro Γ α → Prop
  | ret _ => True
  | fail _ => True
  | act f k => ∀ s, J s → J (f s) ∧ Under J φ (k s)
  | await q k => φ q ∧ ∀ r, Under J φ (k r)
  | fork d k => ∀ n, φ (.join (n, d)) ∧ Under J φ (k n)

namespace Under

variable {J : Γ.State → Prop} {φ : Ask Γ → Prop}

variable {c : Coro Γ α} {k : α → Coro Γ β}

theorem of_within {N : Γ.State → Γ.State → Prop} (hJ : ∀ s s', N s s' → J s → J s')
    (h : c.Within φ N) : c.Under J φ := by
  induction c with
  | ret a => trivial
  | fail e => trivial
  | act f k ih => exact fun s hs => ⟨hJ _ _ (h s).1 hs, ih s (h s).2⟩
  | await q k ih => exact ⟨h.1, fun r => ih r (h.2 r)⟩
  | fork d k ih => exact fun n => ⟨(h n).1, ih n (h n).2⟩

theorem handle {g : Γ.Exc → Coro Γ β} (hc : c.Under J φ)
    (hk : ∀ a, (k a).Under J φ) (hg : ∀ e, (g e).Under J φ) : (c.handle k g).Under J φ := by
  induction c with
  | ret a => exact hk a
  | fail e => exact hg e
  | act f k' ih => exact fun s hs => ⟨(hc s hs).1, ih s (hc s hs).2⟩
  | await q k' ih => exact ⟨hc.1, fun r => ih r (hc.2 r)⟩
  | fork d k' ih => exact fun n => ⟨(hc n).1, ih n (hc n).2⟩

theorem bind (hc : c.Under J φ) (hk : ∀ a, (k a).Under J φ) :
    (c >>= k).Under J φ := hc.handle hk fun _ => trivial

theorem sync_bind {m : ExceptT Γ.Exc (StateM Γ.State) α}
    (h : ∀ s, J s → J (m s).2 ∧ ∀ a, (m s).1 = .ok a → (k a).Under J φ) : (Coro.sync m >>= k).Under J φ := by
  intro s hs
  obtain ⟨hJ, hk⟩ := h s hs
  refine ⟨hJ, ?_⟩
  show ((Coro.ofExcept (m s).1).handle k fail).Under J φ
  cases hm : (m s).1 with
  | ok a => exact hk a hm
  | error e => trivial

end Under

/-! ## Behaviour -/

end Coro

/-- What a coroutine has met: the answers it was given and the children it
started, the latest first. -/
abbrev Trail (Γ : Sig) : Type := List (Event Γ ⊕ Γ.Handle)

namespace Trail

/-- The answers of a trail. -/
def events (l : Trail Γ) : List (Event Γ) := l.filterMap Sum.getLeft?

/-- The children of a trail. -/
def started (l : Trail Γ) : List Γ.Handle := l.filterMap Sum.getRight?

@[simp] theorem events_nil : events ([] : Trail Γ) = [] := rfl

@[simp] theorem started_nil : started ([] : Trail Γ) = [] := rfl

@[simp] theorem events_inl (e : Event Γ) (l : Trail Γ) : events (.inl e :: l) = e :: events l := rfl

@[simp] theorem events_inr (h : Γ.Handle) (l : Trail Γ) : events (.inr h :: l) = events l := rfl

@[simp] theorem started_inl (e : Event Γ) (l : Trail Γ) : started (.inl e :: l) = started l := rfl

@[simp] theorem started_inr (h : Γ.Handle) (l : Trail Γ) : started (.inr h :: l) = h :: started l :=
  rfl

@[simp] theorem events_append (l l' : Trail Γ) : events (l ++ l') = events l ++ events l' :=
  List.filterMap_append

@[simp] theorem started_append (l l' : Trail Γ) : started (l ++ l') = started l ++ started l' :=
  List.filterMap_append

end Trail

namespace Coro

/-- What may happen while a coroutine waits: the state it waits in, the await,
the answer, and the state it goes on in. -/
abbrev Env (Γ : Sig) : Type := Γ.State → (q : Ask Γ) → Except Γ.Exc q.Reply → Γ.State → Prop

/-- From a coroutine and a state, along a trail, to what is left of it and the
state then. -/
inductive Exec (E : Env Γ) : Coro Γ α → Γ.State → Trail Γ → Coro Γ α → Γ.State → Prop
  | refl (c : Coro Γ α) (s : Γ.State) : Exec E c s [] c s
  | act {f : Γ.State → Γ.State} {k : Γ.State → Coro Γ α} {s s' : Γ.State} {l : Trail Γ}
      {c : Coro Γ α} : Exec E (k s) (f s) l c s' → Exec E (.act f k) s l c s'
  | await {q : Ask Γ} {k : Except Γ.Exc q.Reply → Coro Γ α} {r : Except Γ.Exc q.Reply}
      {s s₁ s' : Γ.State} {l : Trail Γ} {c : Coro Γ α} :
      E s q r s₁ → Exec E (k r) s₁ l c s' → Exec E (.await q k) s (l ++ [.inl ⟨q, r⟩]) c s'
  | fork {d : Γ.Child} {k : Nat → Coro Γ α} {n : Nat} {s s' : Γ.State} {l : Trail Γ}
      {c : Coro Γ α} : Exec E (k n) s l c s' → Exec E (.fork d k) s (l ++ [.inr (n, d)]) c s'

/-- The coroutine runs to its end, with the outcome `o`. -/
def Runs (E : Env Γ) (c : Coro Γ α) (s : Γ.State) (l : Trail Γ) (o : Except Γ.Exc α)
    (s' : Γ.State) : Prop := Exec E c s l (ofExcept o) s'

variable {E : Env Γ} {s s₁ s' : Γ.State} {l : Trail Γ}

theorem Exec.trans {c c₁ c' : Coro Γ α} {l₁ : Trail Γ} (h : Exec E c s l₁ c₁ s₁)
    (h' : Exec E c₁ s₁ l c' s') : Exec E c s (l ++ l₁) c' s' := by
  induction h with
  | refl => rw [List.append_nil]; exact h'
  | act _ ih => exact .act (ih h')
  | await he _ ih => rw [← List.append_assoc]; exact .await he (ih h')
  | fork _ ih => rw [← List.append_assoc]; exact .fork (ih h')

theorem Exec.resume {c : Coro Γ α} {q : Ask Γ} {k : Except Γ.Exc q.Reply → Coro Γ α}
    {r : Except Γ.Exc q.Reply} (h : Exec E c s l (.await q k) s₁) (hr : E s₁ q r s') :
    Exec E c s (.inl ⟨q, r⟩ :: l) (k r) s' := h.trans (.await hr (.refl _ _))

/-- Taking an execution of `handle` apart: it is still within its first part, or
that has ended and it goes on from there. -/
theorem Exec.of_handle {c : Coro Γ α} {k : α → Coro Γ β} {g : Γ.Exc → Coro Γ β} {c' : Coro Γ β} :
    ∀ {s : Γ.State} {l : Trail Γ}, Exec E (c.handle k g) s l c' s' →
      (∃ d, Exec E c s l d s' ∧ c' = d.handle k g) ∨
        ∃ r s₁ l₁ l₂, Runs E c s l₁ r s₁ ∧ l = l₂ ++ l₁ ∧
          Exec E (match r with | .ok a => k a | .error e => g e) s₁ l₂ c' s' := by
  induction c with
  | ret a => exact fun h => .inr ⟨.ok a, _, [], _, .refl _ _, (List.append_nil _).symm, h⟩
  | fail e => exact fun h => .inr ⟨.error e, _, [], _, .refl _ _, (List.append_nil _).symm, h⟩
  | act f k' ih =>
    intro s l h
    cases h with
    | refl => exact .inl ⟨_, .refl _ _, rfl⟩
    | act h =>
      rcases ih s h with ⟨d, hd, heq⟩ | ⟨r, s₁, l₁, l₂, hr, hl, hrest⟩
      · exact .inl ⟨d, .act hd, heq⟩
      · exact .inr ⟨r, s₁, l₁, l₂, .act hr, hl, hrest⟩
  | await q k' ih =>
    intro s l h
    cases h with
    | refl => exact .inl ⟨_, .refl _ _, rfl⟩
    | await he h =>
      rcases ih _ h with ⟨d, hd, heq⟩ | ⟨r, s₁, l₁, l₂, hr, rfl, hrest⟩
      · exact .inl ⟨d, .await he hd, heq⟩
      · exact .inr ⟨r, s₁, _, l₂, .await he hr, List.append_assoc _ _ _, hrest⟩
  | fork d k' ih =>
    intro s l h
    cases h with
    | refl => exact .inl ⟨_, .refl _ _, rfl⟩
    | fork h =>
      rcases ih _ h with ⟨d, hd, heq⟩ | ⟨r, s₁, l₁, l₂, hr, rfl, hrest⟩
      · exact .inl ⟨d, .fork hd, heq⟩
      · exact .inr ⟨r, s₁, _, l₂, .fork hr, List.append_assoc _ _ _, hrest⟩

/-- An execution that is past code without an await in front: the code raised, or
it went on with the rest. -/
theorem Exec.of_sync_bind {m : ExceptT Γ.Exc (StateM Γ.State) α} {k : α → Coro Γ β} {c' : Coro Γ β}
    (hc : ∀ f g, c' ≠ .act f g) (h : Exec E (Coro.sync m >>= k) s l c' s') :
    (∃ e, (m s).1 = .error e ∧ l = [] ∧ c' = .fail e ∧ s' = (m s).2) ∨
      ∃ a, (m s).1 = .ok a ∧ Exec E (k a) (m s).2 l c' s' := by
  have hrest : ∀ {c : Coro Γ β}, Exec E c s l c' s' → c = (Coro.sync m >>= k) →
      Exec E ((Coro.ofExcept (m s).1).handle k fail) (m s).2 l c' s' := by
    intro c h heq
    cases h with
    | refl => exact absurd heq (hc _ _)
    | act h =>
      injection heq with hf hg
      rw [hf, hg] at h
      exact h
    | await he h => cases heq
    | fork h => cases heq
  have hrest := hrest h rfl
  cases hm : (m s).1 with
  | error e =>
    rw [hm] at hrest
    cases hrest with
    | refl => exact .inl ⟨e, rfl, rfl, rfl, rfl⟩
  | ok a =>
    rw [hm] at hrest
    exact .inr ⟨a, rfl, hrest⟩

/-- What is left of a coroutine keeps within its bounds, what it has awaited did,
and all in all it took an `N`-step, if the environment takes `N`-steps. -/
theorem Exec.within {φ : Ask Γ → Prop} {N : Γ.State → Γ.State → Prop} (hrefl : ∀ s, N s s)
    (htrans : ∀ s s' s'', N s s' → N s' s'' → N s s'') (hE : ∀ s q r s', E s q r s' → N s s')
    {c c' : Coro Γ α} (h : Exec E c s l c' s') (hc : c.Within φ N) :
    c'.Within φ N ∧ N s s' ∧ (∀ e ∈ l.events, φ e.1) ∧ ∀ h ∈ l.started, φ (.join h) := by
  induction h with
  | refl c s =>
    exact ⟨hc, hrefl s, fun e he => absurd he List.not_mem_nil, fun h hh => absurd hh List.not_mem_nil⟩
  | act _ ih =>
    obtain ⟨hc', hN, hl⟩ := ih (hc _).2
    exact ⟨hc', htrans _ _ _ (hc _).1 hN, hl⟩
  | await he _ ih =>
    obtain ⟨hc', hN, hl, hstarted⟩ := ih (hc.2 _)
    refine ⟨hc', htrans _ _ _ (hE _ _ _ _ he) hN, fun e hmem => ?_, fun h hmem => ?_⟩
    · rw [Trail.events_append] at hmem
      rcases List.mem_append.mp hmem with hmem | hmem
      · exact hl e hmem
      · rw [List.mem_singleton.mp hmem]
        exact hc.1
    · rw [Trail.started_append, Trail.started_inl, Trail.started_nil, List.append_nil] at hmem
      exact hstarted h hmem
  | fork _ ih =>
    obtain ⟨hc', hN, hl, hstarted⟩ := ih (hc _).2
    refine ⟨hc', hN, fun e hmem => ?_, fun h hmem => ?_⟩
    · rw [Trail.events_append, Trail.events_inr, Trail.events_nil, List.append_nil] at hmem
      exact hl e hmem
    · rw [Trail.started_append] at hmem
      rcases List.mem_append.mp hmem with hmem | hmem
      · exact hstarted h hmem
      · rw [List.mem_singleton.mp hmem]
        exact (hc _).1

theorem Exec.under {J : Γ.State → Prop} {φ : Ask Γ → Prop} (hE : ∀ s q r s', E s q r s' → J s → J s')
    {c c' : Coro Γ α} (h : Exec E c s l c' s') (hc : c.Under J φ) (hs : J s) : c'.Under J φ ∧ J s' := by
  induction h with
  | refl => exact ⟨hc, hs⟩
  | act _ ih => exact ih (hc _ hs).2 (hc _ hs).1
  | await he _ ih => exact ih (hc.2 _) (hE _ _ _ _ he hs)
  | fork _ ih => exact ih (hc _).2 hs

/-! ### Coroutines that run to their end -/

namespace Runs

variable {o : Except Γ.Exc α} {o' : Except Γ.Exc β}

theorem of_ret {a : α} (h : Runs E (.ret a) s l o s') : o = .ok a ∧ l = [] ∧ s' = s := by
  cases o with
  | ok b => cases h; exact ⟨rfl, rfl, rfl⟩
  | error e => cases h

theorem of_fail {e : Γ.Exc} (h : Runs E (.fail e) s l o s') : o = .error e ∧ l = [] ∧ s' = s := by
  cases o with
  | ok b => cases h
  | error e => cases h; exact ⟨rfl, rfl, rfl⟩

theorem of_ofExcept {r : Except Γ.Exc α} (h : Runs E (Coro.ofExcept r) s l o s') :
    o = r ∧ l = [] ∧ s' = s := by
  cases r with
  | ok a => exact of_ret h
  | error e => exact of_fail h

theorem of_sync {m : ExceptT Γ.Exc (StateM Γ.State) α} (h : Runs E (Coro.sync m) s l o s') :
    o = (m s).1 ∧ l = [] ∧ s' = (m s).2 := by
  cases o with
  | ok b => cases h with | act h => exact of_ofExcept (o := .ok b) h
  | error e => cases h with | act h => exact of_ofExcept (o := .error e) h

theorem of_ask {q : Ask Γ} {r : Except Γ.Exc q.Reply} (h : Runs E (Coro.ask q) s l r s') :
    E s q r s' ∧ l = [.inl ⟨q, r⟩] := by
  have hend : ∀ {k}, Exec E (.await q Coro.ofExcept) s l k s' → k = Coro.ofExcept r →
      E s q r s' ∧ l = [.inl ⟨q, r⟩] := by
    intro k h hk
    cases h with
    | refl => cases r <;> cases hk
    | @await q k r' s s₁ s' l c he h =>
      obtain ⟨rfl, rfl, rfl⟩ := of_ofExcept (E := E) (o := r) (hk ▸ h)
      exact ⟨he, rfl⟩
  exact hend h rfl

variable {k : α → Coro Γ β} {c : Coro Γ α}

/-- What `handle c k g` did is what `c` did, and then what `k` or `g` did. -/
theorem of_handle {g : Γ.Exc → Coro Γ β}
    (h : Runs E (c.handle k g) s l o' s') :
    ∃ r s₁ l₁ l₂, Runs E c s l₁ r s₁ ∧ l = l₂ ++ l₁ ∧
      Runs E (match r with | .ok a => k a | .error e => g e) s₁ l₂ o' s' := by
  rcases Exec.of_handle h with ⟨d, hd, heq⟩ | h
  · cases d with
    | ret a =>
      refine ⟨.ok a, s', l, [], hd, rfl, ?_⟩
      rw [Runs, heq]
      exact .refl _ _
    | fail e =>
      refine ⟨.error e, s', l, [], hd, rfl, ?_⟩
      rw [Runs, heq]
      exact .refl _ _
    | act f k' => cases o' <;> cases heq
    | await q k' => cases o' <;> cases heq
    | fork d k' => cases o' <;> cases heq
  · exact h

theorem of_bind (h : Runs E (c >>= k) s l o' s') :
    (∃ e, o' = .error e ∧ Runs E c s l (.error e) s') ∨
      ∃ a s₁ l₁ l₂, Runs E c s l₁ (.ok a) s₁ ∧ l = l₂ ++ l₁ ∧ Runs E (k a) s₁ l₂ o' s' := by
  obtain ⟨r, s₁, l₁, l₂, hc, rfl, hk⟩ := of_handle h
  cases r with
  | ok a => exact .inr ⟨a, s₁, l₁, l₂, hc, rfl, hk⟩
  | error e =>
    obtain ⟨rfl, rfl, rfl⟩ := of_fail hk
    exact .inl ⟨e, rfl, hc⟩

theorem of_sync_bind {m : ExceptT Γ.Exc (StateM Γ.State) α}
    (h : Runs E (Coro.sync m >>= k) s l o' s') :
    (∃ e, (m s).1 = .error e ∧ o' = .error e ∧ l = [] ∧ s' = (m s).2) ∨
      ∃ a, (m s).1 = .ok a ∧ Runs E (k a) (m s).2 l o' s' := by
  rcases of_bind h with ⟨e, rfl, hm⟩ | ⟨a, s₁, l₁, l₂, hm, rfl, hk⟩
  · obtain ⟨he, rfl, rfl⟩ := of_sync hm
    exact .inl ⟨e, he.symm, rfl, rfl, rfl⟩
  · obtain ⟨ha, rfl, rfl⟩ := of_sync hm
    rw [List.append_nil]
    exact .inr ⟨a, ha.symm, hk⟩

theorem of_when {b : Bool} {c : Coro Γ Unit} {o : Except Γ.Exc Unit}
    (h : Runs E (Coro.when b c) s l o s') :
    (b = true ∧ Runs E c s l o s') ∨ (b = false ∧ o = .ok () ∧ l = [] ∧ s' = s) := by
  cases b with
  | true => exact .inl ⟨rfl, h⟩
  | false => exact .inr ⟨rfl, of_ret h⟩

theorem of_tryCatch {g : Γ.Exc → Coro Γ α} (h : Runs E (c.tryCatch g) s l o s') :
    (∃ a, o = .ok a ∧ Runs E c s l (.ok a) s') ∨
      ∃ e s₁ l₁ l₂, Runs E c s l₁ (.error e) s₁ ∧ l = l₂ ++ l₁ ∧ Runs E (g e) s₁ l₂ o s' := by
  obtain ⟨r, s₁, l₁, l₂, hc, rfl, hk⟩ := of_handle h
  cases r with
  | ok a =>
    obtain ⟨rfl, rfl, rfl⟩ := of_ret hk
    exact .inl ⟨a, rfl, hc⟩
  | error e => exact .inr ⟨e, s₁, l₁, l₂, hc, rfl, hk⟩

end Runs

end Coro

end Caips.Logic
