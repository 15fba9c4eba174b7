/-
Caips.Logic.Text — texts as lists of characters: what trimming takes away, and
replacing one text by another from left to right.

Nothing in this file knows what is being verified.
-/
import Mathlib.Data.List.Induction

namespace Caips.Logic.Text

universe u

section Trim

variable {α : Type u} (p : α → Bool)

/-- The list without the `p`s at its two ends. -/
def trim (l : List α) : List α := ((l.dropWhile p).reverse.dropWhile p).reverse

variable {p}

theorem of_mem_takeWhile {l : List α} {a : α} (h : a ∈ l.takeWhile p) : p a = true :=
  List.all_eq_true.mp (List.all_takeWhile (l := l)) a h

theorem trim_split (l : List α) : ∃ before after, l = before ++ trim p l ++ after ∧
    (∀ a ∈ before, p a = true) ∧ ∀ a ∈ after, p a = true := by
  refine ⟨l.takeWhile p, ((l.dropWhile p).reverse.takeWhile p).reverse, ?_, ?_, ?_⟩
  · have hback : trim p l ++ ((l.dropWhile p).reverse.takeWhile p).reverse = l.dropWhile p := by
      unfold trim
      rw [← List.reverse_append, List.takeWhile_append_dropWhile, List.reverse_reverse]
    rw [List.append_assoc, hback, List.takeWhile_append_dropWhile]
  · intro a ha
    exact of_mem_takeWhile ha
  · intro a ha
    exact of_mem_takeWhile (List.mem_reverse.mp ha)

theorem mem_trim {l : List α} {a : α} (h : a ∈ l) (hp : p a = false) : a ∈ trim p l := by
  obtain ⟨before, after, hsplit, hbefore, hafter⟩ := trim_split (p := p) l
  rw [hsplit, List.mem_append, List.mem_append] at h
  rcases h with (h | h) | h
  · rw [hbefore a h] at hp
    exact absurd hp.symm Bool.false_ne_true
  · exact h
  · rw [hafter a h] at hp
    exact absurd hp.symm Bool.false_ne_true

/-- Trimming at the end leaves what stands before something that stays. -/
theorem rtrim_append_cons (l : List α) {a : α} (ha : p a = false) (r : List α) :
    ∃ s, ((l ++ a :: r).reverse.dropWhile p).reverse = l ++ a :: s := by
  induction r using List.reverseRecOn with
  | nil => exact ⟨[], by simp [ha]⟩
  | append_singleton r b ih =>
    obtain ⟨s, hs⟩ := ih
    by_cases hb : p b = true
    · refine ⟨s, ?_⟩
      rw [← List.cons_append, ← List.append_assoc, List.reverse_append, List.reverse_singleton,
        List.singleton_append, List.dropWhile_cons_of_pos hb, hs]
    · refine ⟨r ++ [b], ?_⟩
      rw [← List.cons_append, ← List.append_assoc, List.reverse_append, List.reverse_singleton,
        List.singleton_append, List.dropWhile_cons_of_neg hb, List.reverse_cons, List.reverse_reverse]

/-- Two lists with a common beginning that is not trimmed away are told apart by what follows it: an
element that stays, and in the other list not that one. -/
theorem trim_append_ne {l : List α} (hl : ∃ a ∈ l, p a = false) {c : α} (hc : p c = false) {r e : List α}
    (he : e.head? ≠ some c) : trim p (l ++ c :: r) ≠ trim p (l ++ e) := by
  have hne : (l.dropWhile p).isEmpty = false := by
    obtain ⟨a, ha, hp⟩ := hl
    rw [List.isEmpty_eq_false_iff, ne_eq]
    intro hnil
    have hsplit := @List.takeWhile_append_dropWhile _ p l
    rw [hnil, List.append_nil] at hsplit
    rw [← hsplit] at ha
    rw [of_mem_takeWhile ha] at hp
    exact Bool.noConfusion hp
  have hdrop : ∀ x, (l ++ x).dropWhile p = l.dropWhile p ++ x := by
    intro x
    rw [List.dropWhile_append, if_neg (by simp [hne])]
  intro heq
  unfold trim at heq
  rw [hdrop, hdrop] at heq
  obtain ⟨s, hs⟩ := rtrim_append_cons (l.dropWhile p) hc r
  have hle : ((l.dropWhile p ++ e).reverse.dropWhile p).reverse <+: l.dropWhile p ++ e := by
    have hsuffix := List.dropWhile_suffix p (l := (l.dropWhile p ++ e).reverse)
    rwa [← List.reverse_prefix, List.reverse_reverse] at hsuffix
  rw [← heq, hs, List.prefix_append_right_inj] at hle
  obtain ⟨rest, rfl⟩ := hle
  exact he rfl

end Trim

/-- `text.replace(old, new)`, after a match that has so many characters left. -/
def replaceFrom (old new : List Char) : ℕ → List Char → List Char
  | _, [] => []
  | n + 1, _ :: l => replaceFrom old new n l
  | 0, c :: l =>
    if old.isPrefixOf (c :: l) then new ++ replaceFrom old new (old.length - 1) l
    else c :: replaceFrom old new 0 l

/-- `text.replace(old, new)`, for an `old` that is not empty. -/
def replace (old new text : List Char) : List Char := replaceFrom old new 0 text

theorem replace_singleton (c : Char) (new text : List Char) :
    replace [c] new text = text.flatMap fun x => if x = c then new else [x] := by
  unfold replace
  induction text with
  | nil => rfl
  | cons x text ih =>
    rw [replaceFrom, List.flatMap_cons]
    by_cases hx : x = c
    · subst hx
      simp [ih]
    · have hne : ¬ c = x := fun h => hx h.symm
      simp [ih, hx, hne]

end Caips.Logic.Text
