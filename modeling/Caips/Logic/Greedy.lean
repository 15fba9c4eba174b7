/-
Caips.Logic.Greedy — a greedy choice: candidates are taken in order, and each
that clashes with one taken before is left out.

* `select_pairwise` — no two chosen ones clash.
* `select_sublist` — the chosen ones are candidates, in their order.
* `mem_select_or_clash` — a candidate is left out only for one chosen before it.

Nothing in this file knows what is being verified.
-/
import Mathlib.Data.List.Induction

namespace Caips.Logic.Greedy

universe u

variable {α : Type u} (clash : α → α → Bool)

/-- One more candidate. -/
def add (chosen : List α) (a : α) : List α := if chosen.any (clash · a) then chosen else chosen ++ [a]

/-- The chosen candidates. -/
def select (candidates : List α) : List α := candidates.foldl (add clash) []

theorem select_concat (candidates : List α) (a : α) :
    select clash (candidates ++ [a]) = add clash (select clash candidates) a := by
  simp [select]

theorem prefix_add (chosen : List α) (a : α) : chosen <+: add clash chosen a := by
  unfold add
  split
  · exact List.prefix_rfl
  · exact List.prefix_append _ _

theorem prefix_select (before after : List α) : select clash before <+: select clash (before ++ after) := by
  induction after using List.reverseRecOn with
  | nil => simp
  | append_singleton after a ih =>
    rw [← List.append_assoc, select_concat]
    exact ih.trans (prefix_add clash _ a)

theorem select_sublist (candidates : List α) : (select clash candidates).Sublist candidates := by
  induction candidates using List.reverseRecOn with
  | nil => simp [select]
  | append_singleton candidates a ih =>
    rw [select_concat]
    unfold add
    split
    · exact ih.trans (List.sublist_append_left _ _)
    · exact ih.append (List.Sublist.refl _)

theorem select_pairwise (candidates : List α) :
    (select clash candidates).Pairwise fun a b => clash a b = false := by
  induction candidates using List.reverseRecOn with
  | nil => simp [select]
  | append_singleton candidates a ih =>
    rw [select_concat]
    unfold add
    split
    · exact ih
    · next hfree =>
        simp only [List.any_eq_true, not_exists, not_and, Bool.not_eq_true] at hfree
        rw [List.pairwise_append]
        refine ⟨ih, List.pairwise_singleton _ _, ?_⟩
        intro b hb c hc
        rw [List.mem_singleton.mp hc]
        exact hfree b hb

/-- **A candidate is chosen, or it clashes with one that was chosen before it.** -/
theorem mem_select_or_clash (before after : List α) (a : α) :
    a ∈ select clash (before ++ a :: after) ∨ ∃ b ∈ select clash before, clash b a = true := by
  by_cases hclash : (select clash before).any (clash · a) = true
  · exact .inr (List.any_eq_true.mp hclash)
  · have hadd : a ∈ select clash (before ++ [a]) := by
      rw [select_concat, add, if_neg hclash]
      simp
    have hinit := prefix_select clash (before ++ [a]) after
    rw [List.append_assoc] at hinit
    exact .inl (hinit.subset hadd)

end Caips.Logic.Greedy
