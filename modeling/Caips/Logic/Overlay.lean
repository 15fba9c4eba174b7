/-
Caips.Logic.Overlay — a map that is replaced from outside, under local edits.

Three layers: the base, the keys of it that are hidden, and the edits over
both. A new base leaves the two other layers alone.
-/
import Mathlib.Data.Set.Insert
import Mathlib.Tactic.Tauto

namespace Caips.Logic

universe u v

/-- A base map, the keys hidden in it, and what is put over it. -/
structure Overlay (κ : Type u) (ν : Type v) where
  base : κ → Option ν
  hidden : Set κ
  edits : κ → Option ν

namespace Overlay

variable {κ : Type u} {ν : Type v} (o : Overlay κ ν)

open Classical in
/-- What the three layers show under a key. -/
noncomputable def view (k : κ) : Option ν :=
  (o.edits k).or (if k ∈ o.hidden then none else o.base k)

/-- A new base. -/
def reload (base : κ → Option ν) : Overlay κ ν := { o with base := base }

/-- Put a value over the base; its key is no longer hidden. -/
def edit [DecidableEq κ] (k : κ) (v : ν) : Overlay κ ν :=
  { o with edits := fun k' => if k' = k then some v else o.edits k', hidden := o.hidden \ {k} }

/-- Take a key away: its edit is gone, and if the base has it, it is hidden. -/
def drop [DecidableEq κ] (k : κ) : Overlay κ ν :=
  { o with
    edits := fun k' => if k' = k then none else o.edits k'
    hidden := if (o.base k).isSome then insert k o.hidden else o.hidden }

variable {o}

theorem view_of_edit {k : κ} {v : ν} (h : o.edits k = some v) : o.view k = some v := by
  simp [view, h]

theorem view_of_hidden {k : κ} (h : o.edits k = none) (hk : k ∈ o.hidden) : o.view k = none := by
  simp [view, h, hk]

theorem view_of_base {k : κ} (h : o.edits k = none) (hk : k ∉ o.hidden) : o.view k = o.base k := by
  simp [view, h, hk]

variable [DecidableEq κ]

@[simp] theorem view_edit_self (k : κ) (v : ν) : (o.edit k v).view k = some v :=
  view_of_edit (by simp [edit])

theorem mem_hidden_drop {k k' : κ} :
    k' ∈ (o.drop k).hidden ↔ k' ∈ o.hidden ∨ k' = k ∧ (o.base k).isSome := by
  unfold drop
  by_cases hb : (o.base k).isSome
  · simp only [hb, if_true, Set.mem_insert_iff]
    tauto
  · rw [if_neg hb]
    exact ⟨.inl, fun h => h.elim id fun h => absurd h.2 hb⟩

end Overlay

end Caips.Logic
