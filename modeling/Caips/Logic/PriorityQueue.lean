/-
Caips.Logic.PriorityQueue — a queue that gives its least element first.

The elements are kept in order, and the order is part of the type: a queue
that would give elements out of turn cannot be built. `put` inserts,
`takeFirst` gives elements one after another until one passes a test, which
is what a consumer that skips stale entries does.
-/
import Mathlib.Data.List.Sort
import Mathlib.Order.Defs.LinearOrder

namespace Caips.Logic

universe u

/-- Elements in the order in which they are given out. -/
structure PriorityQueue (α : Type u) [LinearOrder α] where
  entries : List α
  sorted : entries.Pairwise (· ≤ ·)

namespace PriorityQueue

variable {α : Type u} [LinearOrder α]

def empty : PriorityQueue α := ⟨[], .nil⟩

instance : Inhabited (PriorityQueue α) := ⟨empty⟩

instance : Membership α (PriorityQueue α) := ⟨fun q a => a ∈ q.entries⟩

/-- `q.put(a)`. -/
def put (q : PriorityQueue α) (a : α) : PriorityQueue α :=
  ⟨q.entries.orderedInsert (· ≤ ·) a, q.sorted.orderedInsert a q.entries⟩

/-- The first element of a list that passes the test, and what comes after it. -/
def skipTo (p : α → Bool) : List α → Option (α × List α)
  | [] => none
  | a :: rest => if p a then some (a, rest) else skipTo p rest

variable {p : α → Bool}

omit [LinearOrder α] in
theorem skipTo_eq_some {a : α} {rest : List α} :
    ∀ {l : List α}, skipTo p l = some (a, rest) →
      ∃ skipped, l = skipped ++ a :: rest ∧ p a = true ∧ ∀ b ∈ skipped, ¬p b = true
  | [], h => by cases h
  | b :: l, h => by
      by_cases hb : p b = true
      · rw [skipTo, if_pos hb] at h
        obtain ⟨rfl, rfl⟩ := Prod.mk.inj (Option.some.inj h)
        exact ⟨[], rfl, hb, fun c hc => nomatch hc⟩
      · rw [skipTo, if_neg hb] at h
        obtain ⟨skipped, rfl, ha, hskipped⟩ := skipTo_eq_some h
        refine ⟨b :: skipped, rfl, ha, fun c hc => ?_⟩
        rcases List.mem_cons.mp hc with rfl | hc
        · exact hb
        · exact hskipped c hc

theorem pairwise_of_skipTo {a : α} {l rest : List α} (hl : l.Pairwise (· ≤ ·))
    (h : skipTo p l = some (a, rest)) : rest.Pairwise (· ≤ ·) := by
  obtain ⟨skipped, rfl, -, -⟩ := skipTo_eq_some h
  exact (List.pairwise_cons.mp (List.pairwise_append.mp hl).2.1).2

/-- `q.get()` until an element passes the test: that element, if there is one,
and what is left. -/
def takeFirst (p : α → Bool) (q : PriorityQueue α) : Option α × PriorityQueue α :=
  match h : skipTo p q.entries with
  | none => (none, empty)
  | some (a, rest) => (some a, ⟨rest, pairwise_of_skipTo q.sorted h⟩)

@[simp] theorem notMem_empty (a : α) : a ∉ (empty : PriorityQueue α) := List.not_mem_nil

variable {q : PriorityQueue α}

@[simp] theorem mem_put {a b : α} : b ∈ q.put a ↔ b = a ∨ b ∈ q :=
  List.mem_orderedInsert (· ≤ ·)

theorem mem_of_mem_takeFirst {b : α} (h : b ∈ (q.takeFirst p).2) :
    b ∈ q := by
  unfold takeFirst at h
  split at h
  · exact absurd h (notMem_empty b)
  · next a rest heq =>
      obtain ⟨skipped, hentries, -, -⟩ := skipTo_eq_some heq
      show b ∈ q.entries
      rw [hentries]
      exact List.mem_append_right _ (List.mem_cons_of_mem _ h)

/-- What is taken passes the test, was in the queue, and comes before all that
pass it. -/
theorem takeFirst_eq_some {a : α} (h : (q.takeFirst p).1 = some a) :
    p a = true ∧ a ∈ q ∧ ∀ b ∈ q, p b = true → a ≤ b := by
  unfold takeFirst at h
  split at h
  · cases h
  · next c rest heq =>
      obtain rfl := Option.some.inj h
      obtain ⟨skipped, hentries, hc, hskipped⟩ := skipTo_eq_some heq
      have hsorted := (List.pairwise_append.mp (hentries ▸ q.sorted)).2.1
      have hmem : ∀ b, b ∈ q ↔ b ∈ skipped ∨ b = c ∨ b ∈ rest := by
        intro b
        show b ∈ q.entries ↔ _
        rw [hentries, List.mem_append, List.mem_cons]
      refine ⟨hc, (hmem c).mpr (.inr (.inl rfl)), fun b hb hpb => ?_⟩
      rcases (hmem b).mp hb with hb | rfl | hb
      · exact absurd hpb (hskipped b hb)
      · exact le_refl b
      · exact (List.pairwise_cons.mp hsorted).1 b hb

end PriorityQueue

end Caips.Logic
