/-
Caips.Logic.Commit — a connection with one open transaction: what is committed,
and what the connection sees of its own changes.

Operations that leave a view of the data alone may still commit, and then what
they commit of the view is what the connection saw. `reopen_eq_iff` puts the
two together: after every run of such operations and a reopening the view is
the one given exactly when both sides have it already.

Nothing in this file knows what is being verified.
-/
import Mathlib.Data.List.Basic

namespace Caips.Logic

universe u v

/-- The committed data, and the data with the changes of the open transaction. -/
structure Commit (σ : Type u) where
  committed : σ
  working : σ

namespace Commit

variable {σ : Type u} {α : Type v}

/-- A statement of the open transaction. -/
def change (s : Commit σ) (f : σ → σ) : Commit σ := { s with working := f s.working }

def commit (s : Commit σ) : Commit σ := { s with committed := s.working }

/-- A connection that is closed rolls back; the next one sees what is committed. -/
def reopen (s : Commit σ) : Commit σ := { s with working := s.committed }

@[simp] theorem change_committed (s : Commit σ) (f : σ → σ) : (s.change f).committed = s.committed := rfl

@[simp] theorem change_working (s : Commit σ) (f : σ → σ) : (s.change f).working = f s.working := rfl

@[simp] theorem commit_committed (s : Commit σ) : s.commit.committed = s.working := rfl

@[simp] theorem commit_working (s : Commit σ) : s.commit.working = s.working := rfl

@[simp] theorem reopen_working (s : Commit σ) : s.reopen.working = s.committed := rfl

/-- The step leaves alone what the view shows; it may commit what the connection sees of it. -/
def Leaves (view : σ → α) (s t : Commit σ) : Prop :=
  view t.working = view s.working ∧ (view t.committed = view s.committed ∨ view t.committed = view s.working)

theorem Leaves.refl (view : σ → α) (s : Commit σ) : Leaves view s s := ⟨rfl, .inl rfl⟩

variable {view : σ → α}

theorem Leaves.trans {s t r : Commit σ} (hst : Leaves view s t) (htr : Leaves view t r) :
    Leaves view s r := by
  refine ⟨htr.1.trans hst.1, ?_⟩
  rcases htr.2 with h | h
  · exact hst.2.imp h.trans h.trans
  · exact .inr (h.trans hst.1)

theorem Leaves.commit (view : σ → α) (s : Commit σ) : Leaves view s s.commit := ⟨rfl, .inr rfl⟩

theorem Leaves.change {f : σ → σ} (s : Commit σ) (h : view (f s.working) = view s.working) :
    Leaves view s (s.change f) := ⟨h, .inl rfl⟩

theorem leaves_foldl {ι : Type*} {op : Commit σ → ι → Commit σ} {l : List ι}
    (h : ∀ i ∈ l, ∀ s, Leaves view s (op s i)) (s : Commit σ) : Leaves view s (l.foldl op s) := by
  induction l generalizing s with
  | nil => exact .refl view s
  | cons i l ih =>
    have hhead := h i List.mem_cons_self s
    exact hhead.trans (ih (fun j hj => h j (List.mem_cons_of_mem _ hj)) _)

/-- **Reopening.** Whatever operations of a kind follow that leave the view alone, one of which can commit
it, the next connection sees `x` exactly when `x` is committed and is what this one sees. -/
theorem reopen_eq_iff {ι : Type*} {op : Commit σ → ι → Commit σ} {p : ι → Prop}
    (h : ∀ i, p i → ∀ s, Leaves view s (op s i)) {s : Commit σ} {i : ι} (hi : p i)
    (hcommits : view (op s i).committed = view s.working) (x : α) :
    (∀ l : List ι, (∀ i ∈ l, p i) → view (l.foldl op s).reopen.working = x) ↔
      view s.committed = x ∧ view s.working = x := by
  constructor
  · intro hall
    have hnone := hall [] fun _ hmem => absurd hmem List.not_mem_nil
    have hone := hall [i] fun j hj => List.mem_singleton.mp hj ▸ hi
    exact ⟨hnone, hcommits ▸ hone⟩
  · intro hx l hl
    have hleaves := leaves_foldl (fun i hi => h i (hl i hi)) s
    rw [reopen_working]
    rcases hleaves.2 with hsame | hsame
    · exact hsame.trans hx.1
    · exact hsame.trans hx.2

end Commit

end Caips.Logic
