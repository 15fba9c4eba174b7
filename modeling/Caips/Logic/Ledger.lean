/-
Caips.Logic.Ledger — a record of what was taken and what was given back.

A program that takes a resource now and gives it back later (a probe slot, a
concurrency slot) keeps at most a counter of it. The ledger is the bookkeeping
a statement about such a program needs: every take is an entry with a ticket
of its own, and every return is written to the entry it is made for, together
with the resource it was made TO. So "each take is followed by exactly one
return, on the same resource" is a statement about one entry (`Entry.Exact`),
and the takes still out are a multiset (`outstanding`) that can be compared
with who holds them.
-/
import Mathlib.Data.Multiset.Count
import Mathlib.Data.List.Nodup

namespace Caips.Logic

/-- One take, and the resources its returns were made to. -/
structure Entry (ρ : Type) where
  ticket : Nat
  resource : ρ
  returns : List ρ
  deriving DecidableEq

/-- Not returned, or returned once and to the resource it was taken from. -/
def Entry.Exact {ρ : Type} (e : Entry ρ) : Prop := e.returns = [] ∨ e.returns = [e.resource]

/-- The entries, the latest first; the tickets are distinct. -/
structure Ledger (ρ : Type) where
  entries : List (Entry ρ)
  below : ∀ e ∈ entries, e.ticket < entries.length
  nodup : (entries.map Entry.ticket).Nodup

namespace Ledger

variable {ρ : Type}

/-- Nothing taken yet. -/
def empty : Ledger ρ := ⟨[], by simp, by simp⟩

instance : Inhabited (Ledger ρ) := ⟨empty⟩

/-- A take: its ticket and the ledger with its entry. -/
def take (l : Ledger ρ) (r : ρ) : Nat × Ledger ρ :=
  (l.entries.length,
    { entries := ⟨l.entries.length, r, []⟩ :: l.entries
      below := fun e he => by
        rcases List.mem_cons.mp he with rfl | he
        · simp
        · exact Nat.lt_succ_of_lt (l.below e he)
      nodup := by
        refine List.nodup_cons.mpr ⟨fun hm => ?_, l.nodup⟩
        obtain ⟨e, he, heq⟩ := List.mem_map.mp hm
        exact absurd heq (Nat.ne_of_lt (l.below e he)) })

/-- Write a return to the entry of a ticket. -/
def note (t : Nat) (r : ρ) (e : Entry ρ) : Entry ρ :=
  if e.ticket = t then { e with returns := r :: e.returns } else e

@[simp] theorem note_ticket (t : Nat) (r : ρ) (e : Entry ρ) : (note t r e).ticket = e.ticket := by
  rw [note]; split <;> rfl

variable {t : Nat} {l : Ledger ρ}

variable {r : ρ}

theorem note_of_ne {e : Entry ρ} (h : e.ticket ≠ t) : note t r e = e :=
  if_neg h

/-- A return, made to the resource `r` for the take with ticket `t`. -/
def giveBack (l : Ledger ρ) (t : Nat) (r : ρ) : Ledger ρ where
  entries := l.entries.map (note t r)
  below := by
    intro e he
    obtain ⟨d, hd, rfl⟩ := List.mem_map.mp he
    simpa using l.below d hd
  nodup := by
    have hmap : (l.entries.map (note t r)).map Entry.ticket = l.entries.map Entry.ticket := by
      simp [Function.comp_def]
    rw [hmap]
    exact l.nodup

/-- The takes of a list of entries that have no return yet. -/
def out : List (Entry ρ) → List (Nat × ρ)
  | [] => []
  | e :: r => if e.returns.isEmpty then (e.ticket, e.resource) :: out r else out r

/-- The takes that have no return yet: ticket and resource. -/
def outstanding (l : Ledger ρ) : Multiset (Nat × ρ) := out l.entries

/-- Every take has at most one return, to its own resource. -/
def Exact (l : Ledger ρ) : Prop := ∀ e ∈ l.entries, e.Exact

@[simp] theorem outstanding_empty : (empty : Ledger ρ).outstanding = 0 := rfl

theorem exact_empty : (empty : Ledger ρ).Exact := by simp [Exact, empty]

@[simp] theorem outstanding_take (l : Ledger ρ) (r : ρ) :
    (l.take r).2.outstanding = ((l.take r).1, r) ::ₘ l.outstanding := rfl

theorem Exact.take (h : l.Exact) (r : ρ) : (l.take r).2.Exact := by
  intro e he
  rcases List.mem_cons.mp he with rfl | he
  · exact .inl rfl
  · exact h e he

theorem mem_out :
    ∀ {l : List (Entry ρ)}, (t, r) ∈ out l ↔ ⟨t, r, []⟩ ∈ l
  | [] => by simp [out]
  | e :: l => by
      obtain ⟨t', r', ret⟩ := e
      cases ret with
      | nil => simp [out, mem_out]
      | cons x ret => simp [out, mem_out]

theorem map_note_of_notMem :
    ∀ {l : List (Entry ρ)}, t ∉ l.map Entry.ticket → l.map (note t r) = l
  | [], _ => rfl
  | e :: l, h => by
      rw [List.map_cons, List.mem_cons, not_or] at h
      rw [List.map_cons, note_of_ne (Ne.symm h.1), map_note_of_notMem h.2]

theorem out_map_note {r u : ρ} :
    ∀ {l : List (Entry ρ)}, (l.map Entry.ticket).Nodup → (t, r) ∈ out l →
      (out l : Multiset (Nat × ρ)) = (t, r) ::ₘ out (l.map (note t u))
  | [], _, h => by simp [out] at h
  | e :: l, hn, h => by
      rw [List.map_cons, List.nodup_cons] at hn
      obtain ⟨t', q, ret⟩ := e
      by_cases ht : t' = t
      · subst ht
        have hrest : l.map (note t' u) = l := map_note_of_notMem hn.1
        cases ret with
        | nil =>
          have hq : q = r := by
            have hcases : r = q ∨ (t', r) ∈ out l := by simpa [out] using h
            rcases hcases with heq | hmem
            · exact heq.symm
            · exact absurd (List.mem_map.mpr ⟨_, mem_out.mp hmem, rfl⟩) hn.1
          subst hq
          simp [out, note, hrest]
        | cons x ret =>
          have hmem : (t', r) ∈ out l := by simpa [out] using h
          exact absurd (List.mem_map.mpr ⟨_, mem_out.mp hmem, rfl⟩) hn.1
      · have hmem : (t, r) ∈ out l := by
          cases ret with
          | nil => simpa [out, Ne.symm ht] using h
          | cons x ret => simpa [out] using h
        have ih := out_map_note (u := u) hn.2 hmem
        cases ret with
        | nil =>
          rw [List.map_cons, note_of_ne ht]
          simp only [out, List.isEmpty_nil, if_true, ← Multiset.cons_coe]
          rw [ih, Multiset.cons_swap]
        | cons x ret =>
          rw [List.map_cons, note_of_ne ht]
          simpa [out] using ih

theorem outstanding_giveBack (r' : ρ)
    (h : (t, r) ∈ l.outstanding) :
    l.outstanding = (t, r) ::ₘ (l.giveBack t r').outstanding :=
  out_map_note l.nodup h

theorem Exact.giveBack (hl : l.Exact)
    (h : (t, r) ∈ l.outstanding) : (l.giveBack t r).Exact := by
  intro e he
  obtain ⟨d, hd, rfl⟩ := List.mem_map.mp he
  by_cases ht : d.ticket = t
  · have hopen : (⟨t, r, []⟩ : Entry ρ) ∈ l.entries := mem_out.mp h
    have heq : d = ⟨t, r, []⟩ := List.inj_on_of_nodup_map l.nodup hd hopen ht
    subst heq
    exact .inr (by simp [note])
  · rw [note_of_ne ht]
    exact hl d hd

theorem Exact.all_returned (hl : l.Exact) (h : l.outstanding = 0) :
    ∀ e ∈ l.entries, e.returns = [e.resource] := by
  intro e he
  refine (hl e he).resolve_left fun hret => ?_
  have hmem : (e.ticket, e.resource) ∈ l.outstanding := by
    obtain ⟨t, r, ret⟩ := e
    obtain rfl : ret = [] := hret
    exact mem_out.mpr he
  rw [h] at hmem
  exact absurd hmem (Multiset.notMem_zero _)

theorem outstanding_eq_zero (h : ∀ e ∈ l.entries, e.returns = [e.resource]) :
    l.outstanding = 0 := by
  refine Multiset.eq_zero_of_forall_notMem fun x hx => ?_
  obtain ⟨t, r⟩ := x
  cases h _ (mem_out.mp hx)

end Ledger

end Caips.Logic
