/-
Caips.Logic.Window — a sliding window of admissions, kept as a log that
drops at its front what has become too old.

The log is `recent`: what is younger than `w`. `Holds w A l now` says that
`l` is what is left of the admissions `A` at time `now`, where everything
missing is already too old. A log may be trimmed at any time and thrown away
once its last entry is too old (`Thinned`); both leave exactly the same answer
to the only question a limiter asks, how many of the admissions are younger
than `w` (`Holds.recent_eq`).

`Sparse n w A`: at most `n` of the admissions lie in any half-open window of
length `w`. One admission keeps it if the log has room (`Sparse.admitted`): a
window that contains the new admission contains only older ones that are still
in the log. Nothing in this file knows what is being verified.
-/
import Mathlib.Algebra.Order.Field.Basic
import Mathlib.Data.Finset.Max
import Mathlib.Data.List.Pairwise
import Mathlib.Data.List.TakeWhile
import Mathlib.Tactic.Linarith

namespace Caips.Logic

namespace Window

variable {K : Type*} [Field K] [LinearOrder K] {w now now' : K} {A l : List K} {n : ℕ}

/-- The entries that are younger than `w`. -/
def recent (w : K) (l : List K) (now : K) : List K := l.dropWhile fun a => w ≤ now - a

/-- `l` is what is left of the admissions `A` at time `now`. -/
structure Holds (w : K) (A l : List K) (now : K) : Prop where
  sorted : A.Pairwise (· ≤ ·)
  le_now : ∀ a ∈ A, a ≤ now
  dropped : ∃ d, A = d ++ l ∧ ∀ a ∈ d, w ≤ now - a

/-- What can happen to a log without a new admission. -/
inductive Thinned (w now : K) (l : List K) : List K → Prop
  | same : Thinned w now l l
  | trimmed : Thinned w now l (recent w l now)
  | forgotten : (∀ a ∈ l.getLast?, w ≤ now - a) → Thinned w now l []

/-- At most `n` admissions in any window of length `w`. -/
def Sparse (n : ℕ) (w : K) (A : List K) : Prop :=
  ∀ t, A.countP (fun a => t ≤ a ∧ a < t + w) ≤ n

theorem sparse_nil : Sparse n w [] := fun _ => Nat.zero_le _

theorem holds_nil : Holds w [] [] now := ⟨.nil, nofun, [], rfl, nofun⟩

theorem Holds.sublist (h : Holds w A l now) : l.Sublist A := by
  obtain ⟨d, rfl, -⟩ := h.dropped
  exact List.sublist_append_right d l

theorem Holds.sorted_log (h : Holds w A l now) : l.Pairwise (· ≤ ·) := h.sorted.sublist h.sublist

theorem Holds.admitted (h : Holds w A l now) : Holds w (A ++ [now]) (l ++ [now]) now := by
  obtain ⟨d, hA, hd⟩ := h.dropped
  refine ⟨List.pairwise_append.mpr ⟨h.sorted, List.pairwise_singleton _ _, ?_⟩, ?_, d, ?_, hd⟩
  · intro a ha b hb
    rw [List.mem_singleton.mp hb]
    exact h.le_now a ha
  · intro a ha
    rcases List.mem_append.mp ha with ha | ha
    · exact h.le_now a ha
    · exact (List.mem_singleton.mp ha).le
  · rw [hA, List.append_assoc]

theorem Holds.trim (h : Holds w A l now) : Holds w A (recent w l now) now := by
  obtain ⟨d, hA, hd⟩ := h.dropped
  refine ⟨h.sorted, h.le_now, d ++ l.takeWhile (fun a => w ≤ now - a), ?_, fun a ha => ?_⟩
  · rw [List.append_assoc]
    exact hA.trans (congrArg (d ++ ·) List.takeWhile_append_dropWhile.symm)
  · rcases List.mem_append.mp ha with ha | ha
    · exact hd a ha
    · simpa using List.mem_takeWhile_imp ha

variable [IsStrictOrderedRing K]

theorem recent_eq_dropWhile (w : K) (l : List K) (now : K) :
    recent w l now = l.dropWhile fun a => a ≤ now - w := by
  unfold recent
  congr
  funext a
  exact decide_eq_decide.mpr le_sub_comm

/-- In a sorted log the entries that are too old stand in front. -/
theorem recent_eq_filter (h : l.Pairwise (· ≤ ·)) :
    recent w l now = l.filter fun a => decide (now - a < w) := by
  induction l with
  | nil => rfl
  | cons a l ih =>
    obtain ⟨ha, hl⟩ := List.pairwise_cons.mp h
    by_cases hold : w ≤ now - a
    · have hrest := ih hl
      unfold recent at hrest ⊢
      rw [List.dropWhile_cons_of_pos (by simpa using hold), hrest,
        List.filter_cons_of_neg (by simpa using hold)]
    · have hyoung : ∀ b ∈ a :: l, now - b < w := by
        intro b hb
        rcases List.mem_cons.mp hb with rfl | hb
        · exact not_le.mp hold
        · have hle := ha b hb
          linarith
      unfold recent
      rw [List.dropWhile_cons_of_neg (by simpa using hold), List.filter_eq_self.mpr]
      exact fun b hb => decide_eq_true (hyoung b hb)

theorem Holds.later (h : Holds w A l now) (hle : now ≤ now') : Holds w A l now' := by
  obtain ⟨d, hA, hd⟩ := h.dropped
  refine ⟨h.sorted, fun a ha => (h.le_now a ha).trans hle, d, hA, fun a ha => ?_⟩
  have hold := hd a ha
  linarith

theorem Holds.forget (h : Holds w A l now) (hlast : ∀ a ∈ l.getLast?, w ≤ now - a) :
    Holds w A [] now := by
  obtain ⟨d, hA, hd⟩ := h.dropped
  refine ⟨h.sorted, h.le_now, A, (List.append_nil A).symm, fun a ha => ?_⟩
  rw [hA] at ha
  rcases List.mem_append.mp ha with ha | ha
  · exact hd a ha
  · have hne : l ≠ [] := List.ne_nil_of_mem ha
    have hold := hlast (l.getLast hne) (List.getLast?_eq_some_getLast hne)
    have hle : a ≤ l.getLast hne := h.sorted_log.rel_getLast ha
    linarith

theorem Thinned.holds {l' : List K} (ht : Thinned w now l l') (h : Holds w A l now) : Holds w A l' now := by
  cases ht with
  | same => exact h
  | trimmed => exact h.trim
  | forgotten hlast => exact h.forget hlast

theorem Holds.recent_eq (h : Holds w A l now) :
    recent w l now = A.filter fun a => decide (now - a < w) := by
  rw [recent_eq_filter h.sorted_log]
  obtain ⟨d, hA, hd⟩ := h.dropped
  have hnone : d.filter (fun a => decide (now - a < w)) = [] :=
    List.filter_eq_nil_iff.mpr fun a ha => by simpa using hd a ha
  rw [hA, List.filter_append, hnone, List.nil_append]

theorem Holds.length_recent (h : Holds w A l now) :
    (recent w l now).length = A.countP fun a => now - a < w := by
  rw [h.recent_eq, List.countP_eq_length_filter]

/-- **One admission.** A window that holds the new admission holds only older ones that the
log still counts. -/
theorem Sparse.admitted (hs : Sparse n w A) (h : Holds w A l now) (hroom : (recent w l now).length < n) :
    Sparse n w (A ++ [now]) := by
  intro t
  rw [List.countP_append, List.countP_singleton]
  by_cases hin : t ≤ now ∧ now < t + w
  · have hcount : A.countP (fun a => t ≤ a ∧ a < t + w) ≤ A.countP fun a => now - a < w := by
      refine List.countP_mono_left fun a _ ha => ?_
      simp only [decide_eq_true_eq] at ha ⊢
      linarith [ha.1, hin.2]
    rw [h.length_recent] at hroom
    simp only [hin, and_self, decide_true, if_true]
    omega
  · simp only [hin, decide_false, Bool.false_eq_true, if_false]
    exact hs t

/-- Where admissions less than `w'` apart are less than `w` apart, the window may be as long as `w'`. -/
theorem Sparse.of_gaps {w' t : K} (hs : Sparse n w A)
    (hgaps : ∀ a ∈ A, ∀ b ∈ A, t ≤ a → t ≤ b → b - a < w' → b - a < w) :
    A.countP (fun a => t ≤ a ∧ a < t + w') ≤ n := by
  by_cases hnone : ∃ a ∈ A, t ≤ a ∧ a < t + w'
  · -- a window that starts at the first admission holds the others
    obtain ⟨a, ha, hfirst⟩ := Finset.exists_min_image (A.filter fun a => t ≤ a ∧ a < t + w').toFinset id
      (by obtain ⟨a, ha, h⟩ := hnone; exact ⟨a, by simpa using ⟨ha, h⟩⟩)
    simp only [List.mem_toFinset, List.mem_filter, decide_eq_true_eq, id] at ha hfirst
    refine le_trans (List.countP_mono_left fun b hb hin => ?_) (hs a)
    simp only [decide_eq_true_eq] at hin ⊢
    have hle := hfirst b ⟨hb, hin⟩
    have hgap := hgaps a ha.1 b hb ha.2.1 hin.1 (by linarith [ha.2.1, hin.2])
    exact ⟨hle, by linarith⟩
  · rw [List.countP_eq_zero.mpr fun a ha h => hnone ⟨a, ha, of_decide_eq_true h⟩]
    exact Nat.zero_le n

end Window

end Caips.Logic
