/-
Caips.Logic.Sync — code that runs without suspending.

`Sync ε σ α` changes a state and may raise; what it changed before an
exception stays changed. It is the code between two awaits of a coroutine
(`Coro.sync`). What such code does to the state whatever its outcome composes (`Keeps`, for a
reflexive and transitive relation).
-/
import Mathlib.Data.List.Forall2
import Mathlib.Order.Defs.Unbundled

namespace Caips.Logic

section Except

variable {ε α β : Type}

variable {f : α → Except ε β} {x : Except ε α}

theorem ok_of_bind {b : β} (h : x >>= f = .ok b) :
    ∃ a, x = .ok a ∧ f a = .ok b := by
  cases x with
  | ok a => exact ⟨a, rfl, h⟩
  | error e => cases h

theorem bind_ok_iff {b : β} :
    x >>= f = .ok b ↔ ∃ a, x = .ok a ∧ f a = .ok b := by
  cases x <;> simp [bind, Except.bind]

theorem map_ok_iff {f : α → β} {b : β} : x.map f = .ok b ↔ ∃ a, x = .ok a ∧ f a = b := by
  cases x <;> simp [Except.map]

theorem mapError_ok_iff {ε' : Type} {f : ε → ε'} {a : α} : x.mapError f = .ok a ↔ x = .ok a := by
  cases x <;> simp [Except.mapError]

theorem forall₂_of_mapM :
    ∀ {l : List α} {rows : List β}, l.mapM f = .ok rows → List.Forall₂ (fun a b => f a = .ok b) l rows
  | [], rows, h => by
      rw [List.mapM_nil] at h
      obtain rfl := Except.ok.inj h
      exact .nil
  | a :: l, rows, h => by
      rw [List.mapM_cons] at h
      obtain ⟨b, hb, h⟩ := ok_of_bind h
      obtain ⟨bs, hbs, h⟩ := ok_of_bind h
      obtain rfl := Except.ok.inj h
      exact .cons hb (forall₂_of_mapM hbs)

/-- The rows of a list, where it is known when one is made and which one. -/
theorem mapM_ok_iff {P : α → Prop} {g : α → β} {l : List α}
    (h : ∀ a ∈ l, ∀ b, f a = .ok b ↔ P a ∧ b = g a) {rows : List β} :
    l.mapM f = .ok rows ↔ (∀ a ∈ l, P a) ∧ rows = l.map g := by
  induction l generalizing rows with
  | nil => simp [pure, Except.pure, eq_comm]
  | cons a l ih =>
    have ha := h a List.mem_cons_self
    have hrest := fun rows => @ih (fun a ha => h a (List.mem_cons_of_mem _ ha)) rows
    rw [List.mapM_cons, bind_ok_iff]
    simp only [bind_ok_iff, ha, hrest, List.forall_mem_cons, List.map_cons]
    constructor
    · rintro ⟨b, ⟨hpa, rfl⟩, bs, ⟨hpl, rfl⟩, hrows⟩
      exact ⟨⟨hpa, hpl⟩, (Except.ok.inj hrows).symm⟩
    · rintro ⟨⟨hpa, hpl⟩, rfl⟩
      exact ⟨_, ⟨hpa, rfl⟩, _, ⟨hpl, rfl⟩, rfl⟩

theorem exists_of_forall₂ {α β : Type} {R : α → β → Prop} {as : List α} {bs : List β} (h : List.Forall₂ R as bs) :
    ∀ a ∈ as, ∃ b ∈ bs, R a b := by
  induction h with
  | nil => exact fun _ ha => nomatch ha
  | cons hab _ ih =>
    intro a ha
    rcases List.mem_cons.mp ha with rfl | ha
    · exact ⟨_, List.mem_cons_self, hab⟩
    · obtain ⟨b, hb, hr⟩ := ih a ha
      exact ⟨b, List.mem_cons_of_mem _ hb, hr⟩

theorem exists_of_mapM {l : List α} {rows : List β} (h : l.mapM f = .ok rows)
    {b : β} (hb : b ∈ rows) : ∃ a ∈ l, f a = .ok b :=
  exists_of_forall₂ (forall₂_of_mapM h).flip b hb

end Except

/-- A computation over the state `σ` that may raise an `ε`. -/
abbrev Sync (ε σ α : Type) : Type := ExceptT ε (StateM σ) α

namespace Sync

variable {ε σ α β : Type}

/-- Read the state; an `Except.error` is raised. -/
def reads (f : σ → Except ε α) : Sync ε σ α := fun s => (f s, s)

/-- Change the state. -/
def update (f : σ → σ) : Sync ε σ Unit := fun s => (.ok (), f s)

/-- Change the state and return what the change yields. -/
def yields (f : σ → α × σ) : Sync ε σ α := fun s => (.ok (f s).1, (f s).2)

@[simp] theorem reads_run (f : σ → Except ε α) (s : σ) : reads f s = (f s, s) := rfl

@[simp] theorem update_run (f : σ → σ) (s : σ) :
    (update f : Sync ε σ Unit) s = (.ok (), f s) := rfl

@[simp] theorem yields_run (f : σ → α × σ) (s : σ) :
    (yields f : Sync ε σ α) s = (.ok (f s).1, (f s).2) := rfl

@[simp] theorem pure_run (a : α) (s : σ) : (pure a : Sync ε σ α) s = (.ok a, s) := rfl

@[simp] theorem throw_run (e : ε) (s : σ) : (throw e : Sync ε σ α) s = (.error e, s) := rfl

theorem bind_run (m : Sync ε σ α) (k : α → Sync ε σ β) (s : σ) :
    (m >>= k) s =
      match (m s).1 with
      | .ok a => k a (m s).2
      | .error e => (.error e, (m s).2) := by
  show ExceptT.bindCont k (m s).1 (m s).2 = _
  cases (m s).1 <;> rfl

theorem bind_run_ok {m : Sync ε σ α} {k : α → Sync ε σ β} {s : σ} {a : α}
    (h : (m s).1 = .ok a) : (m >>= k) s = k a (m s).2 := by rw [bind_run, h]

theorem ok_of_bind {m : Sync ε σ α} {k : α → Sync ε σ β} {s : σ} {b : β}
    (h : ((m >>= k) s).1 = .ok b) : ∃ a, (m s).1 = .ok a ∧ (k a (m s).2).1 = .ok b := by
  rw [bind_run] at h
  cases hm : (m s).1 with
  | ok a =>
    rw [hm] at h
    exact ⟨a, rfl, h⟩
  | error e =>
    rw [hm] at h
    cases h

/-! ## What the code does to the state -/

/-- Whatever the outcome, the state afterwards is `R`-related to the one
before. -/
def Keeps (R : σ → σ → Prop) (m : Sync ε σ α) : Prop := ∀ s, R s (m s).2

namespace Keeps

variable {R : σ → σ → Prop}

theorem pure [Std.Refl R] (a : α) : Keeps R (Pure.pure a : Sync ε σ α) := fun s => Std.Refl.refl s

theorem throw [Std.Refl R] (e : ε) : Keeps R (MonadExcept.throw e : Sync ε σ α) := fun s => Std.Refl.refl s

theorem reads [Std.Refl R] (f : σ → Except ε α) : Keeps R (Sync.reads f) := fun s => Std.Refl.refl s

theorem update {f : σ → σ} (h : ∀ s, R s (f s)) : Keeps R (Sync.update f : Sync ε σ Unit) := h

theorem yields {f : σ → α × σ} (h : ∀ s, R s (f s).2) : Keeps R (Sync.yields f : Sync ε σ α) := h

theorem bind [IsTrans σ R] {m : Sync ε σ α} {k : α → Sync ε σ β} (hm : Keeps R m)
    (hk : ∀ a, Keeps R (k a)) : Keeps R (m >>= k) := by
  intro s
  rw [bind_run]
  cases h : (m s).1 with
  | ok a => exact IsTrans.trans _ _ _ (hm s) (hk a _)
  | error e => exact hm s

end Keeps

/-! ## Runs from related states -/

/-- From related states the code yields the same value, or raises from both, and
the states afterwards are related. -/
def Alike (R : σ → σ → Prop) (m : Sync ε σ α) : Prop :=
  ∀ s s', R s s' → (m s).1.toOption = (m s').1.toOption ∧ R (m s).2 (m s').2

namespace Alike

variable {R : σ → σ → Prop}

theorem pure (a : α) : Alike R (Pure.pure a : Sync ε σ α) := fun _ _ h => ⟨rfl, h⟩

theorem throw (e : ε) : Alike R (MonadExcept.throw e : Sync ε σ α) := fun _ _ h => ⟨rfl, h⟩

theorem reads {f : σ → Except ε α} (h : ∀ s s', R s s' → (f s).toOption = (f s').toOption) :
    Alike R (Sync.reads f) := fun s s' hs => ⟨h s s' hs, hs⟩

theorem update {f : σ → σ} (h : ∀ s s', R s s' → R (f s) (f s')) :
    Alike R (Sync.update f : Sync ε σ Unit) := fun s s' hs => ⟨rfl, h s s' hs⟩

theorem yields {f : σ → α × σ} (h : ∀ s s', R s s' → (f s).1 = (f s').1 ∧ R (f s).2 (f s').2) :
    Alike R (Sync.yields f : Sync ε σ α) := fun s s' hs =>
  ⟨congrArg some (h s s' hs).1, (h s s' hs).2⟩

theorem bind {m : Sync ε σ α} {k : α → Sync ε σ β} (hm : Alike R m) (hk : ∀ a, Alike R (k a)) :
    Alike R (m >>= k) := by
  intro s s' hs
  obtain ⟨hout, hstate⟩ := hm s s' hs
  rw [bind_run, bind_run]
  cases h : (m s).1 with
  | ok a =>
    cases h' : (m s').1 with
    | ok a' =>
      rw [h, h'] at hout
      rw [← Option.some.inj hout]
      exact hk a _ _ hstate
    | error e' => rw [h, h'] at hout; cases hout
  | error e =>
    cases h' : (m s').1 with
    | ok a' => rw [h, h'] at hout; cases hout
    | error e' => exact ⟨rfl, hstate⟩

end Alike

end Sync

end Caips.Logic
