/-
Caips.Logic.Leases — a map whose entries hold for a limited time and leave
in the order of their last use, told by its history.

The history is a list of events, the latest first: a key was put until some
time, a lookup found it, it was removed, or everything was. A put names
the keys it pushed out. Two readings of a history say what the map is for:

* `lease`: what a key was last put with, unless it has been removed or pushed
  out since. `Kept` says the same by splitting the history at the put.
* `lastUse`: how old the history was at the last put or successful lookup.

`Follows h now l`: the list `l` is a store for the history. It holds every
lease that still runs, holds nothing but leases (some may have run out), and
is ordered by last use. Each thing a cache does to its store keeps the
relation (`Follows.put`, `Follows.hit`, `Follows.remove`, `Follows.keep`,
`Follows.evict`), so a cache that follows its history answers lookups by the
running lease (`Follows.find`) and has as many entries as leases run once
those that have run out are gone (`Follows.ncard`). Nothing in this file
knows what is being verified.
-/
import Mathlib.Algebra.Order.Field.Basic
import Mathlib.Data.List.Nodup
import Mathlib.Data.Set.Card

namespace Caips.Logic

/-- What happened to a map of leases at one moment. -/
inductive LeaseEvent (κ ν K : Type) where
  | put (k : κ) (v : ν) (expiry : K) (out : List κ)
  | hit (k : κ)
  | remove (k : κ)
  | clear

/-- What a key was put with, and until when. -/
structure Lease (ν K : Type) where
  value : ν
  expiry : K

/-- The lease has not run out. -/
def Lease.Runs {ν K : Type} [LT K] (l : Lease ν K) (now : K) : Prop := now < l.expiry

namespace LeaseEvent

variable {κ ν K : Type}

/-- The events that end an earlier lease of a key. -/
def Ends (k : κ) : LeaseEvent κ ν K → Prop
  | put k' _ _ out => k' = k ∨ k ∈ out
  | hit _ => False
  | remove k' => k' = k
  | clear => True

/-- The history has a put of this lease that did not push its own key out, and
nothing since has ended it. -/
def Kept (h : List (LeaseEvent κ ν K)) (k : κ) (l : Lease ν K) : Prop :=
  ∃ later before out, h = later ++ put k l.value l.expiry out :: before ∧ k ∉ out ∧
    ∀ e ∈ later, ¬ e.Ends k

theorem kept_cons_of_not_ends {h : List (LeaseEvent κ ν K)} {e : LeaseEvent κ ν K} {k : κ}
    (l : Lease ν K) (he : ¬ e.Ends k) : Kept (e :: h) k l ↔ Kept h k l := by
  constructor
  · intro hk
    obtain ⟨later, before, out, hcons, hout, hlater⟩ := hk
    cases later with
    | nil =>
      simp only [List.nil_append, List.cons.injEq] at hcons
      exact absurd (by simp [hcons.1, Ends]) he
    | cons e' later =>
      simp only [List.cons_append, List.cons.injEq] at hcons
      exact ⟨later, before, out, hcons.2, hout, fun x hx => hlater x (by simp [hx])⟩
  · intro hk
    obtain ⟨later, before, out, rfl, hout, hlater⟩ := hk
    refine ⟨e :: later, before, out, rfl, hout, ?_⟩
    intro x hx
    rcases List.mem_cons.mp hx with rfl | hx
    · exact he
    · exact hlater x hx

/-- An event that ends the lease of its key leaves the lease it puts, if it is a
put that does not push its own key out. -/
theorem kept_cons_of_ends {h : List (LeaseEvent κ ν K)} {e : LeaseEvent κ ν K} {k : κ}
    {l : Lease ν K} (he : e.Ends k) :
    Kept (e :: h) k l ↔ ∃ out, e = put k l.value l.expiry out ∧ k ∉ out := by
  constructor
  · intro hk
    obtain ⟨later, before, out, hcons, hout, hlater⟩ := hk
    cases later with
    | nil => exact ⟨out, (List.cons.inj hcons).1, hout⟩
    | cons e' later =>
      simp only [List.cons_append, List.cons.injEq] at hcons
      exact absurd (hcons.1 ▸ he) (hlater e' (by simp))
  · intro hk
    obtain ⟨out, rfl, hout⟩ := hk
    exact ⟨[], h, out, rfl, hout, by simp⟩

section Reading

variable [DecidableEq κ]

/-- The lease of a key after a history. -/
def lease (k : κ) : List (LeaseEvent κ ν K) → Option (Lease ν K)
  | [] => none
  | put k' v expiry out :: h =>
    if k ∈ out then none else if k' = k then some ⟨v, expiry⟩ else lease k h
  | hit _ :: h => lease k h
  | remove k' :: h => if k' = k then none else lease k h
  | clear :: _ => none

/-- The age of the history at the last use of a key, 0 if it was never used. -/
def lastUse (k : κ) : List (LeaseEvent κ ν K) → Nat
  | [] => 0
  | put k' _ _ _ :: h => if k' = k then h.length + 1 else lastUse k h
  | hit k' :: h => if k' = k then h.length + 1 else lastUse k h
  | remove _ :: h => lastUse k h
  | clear :: h => lastUse k h

/-- The two readings of a history agree. -/
theorem lease_eq_some_iff {h : List (LeaseEvent κ ν K)} {k : κ} {l : Lease ν K} :
    lease k h = some l ↔ Kept h k l := by
  induction h with
  | nil => simp [lease, Kept]
  | cons e h ih =>
    by_cases he : e.Ends k
    · rw [kept_cons_of_ends he]
      cases e with
      | put k' v expiry out =>
        by_cases hout : k ∈ out
        · simp [lease, hout]
        · obtain rfl : k' = k := he.resolve_right hout
          obtain ⟨v', expiry'⟩ := l
          simp [lease, hout]
      | hit k' => exact absurd he id
      | remove k' => simp [lease, show k' = k from he]
      | clear => simp [lease]
    · rw [kept_cons_of_not_ends l he, ← ih]
      cases e with
      | put k' v expiry out =>
        simp only [Ends, not_or] at he
        simp [lease, he]
      | hit k' => rfl
      | remove k' => simp [lease, show k' ≠ k from he]
      | clear => exact absurd trivial he

theorem lastUse_le (k : κ) (h : List (LeaseEvent κ ν K)) : lastUse k h ≤ h.length := by
  induction h with
  | nil => simp [lastUse]
  | cons e h ih =>
    cases e <;> simp only [lastUse, List.length_cons] <;> grind

end Reading

/-! ## Stores that follow a history -/

section Stores

variable [DecidableEq κ] [LinearOrder K] {h : List (LeaseEvent κ ν K)} {now : K}
  {l : List (κ × ν × K)}

/-- The key has a lease that still runs. -/
def Unexpired (h : List (LeaseEvent κ ν K)) (now : K) (k : κ) : Prop :=
  ∃ ls, Kept h k ls ∧ ls.Runs now

/-- The list of keys, values and expiry times is a store for the history. -/
structure Follows (h : List (LeaseEvent κ ν K)) (now : K) (l : List (κ × ν × K)) : Prop where
  sorted : l.Pairwise fun a b => lastUse a.1 h < lastUse b.1 h
  sound : ∀ e ∈ l, ∃ ls, lease e.1 h = some ls ∧ e.2 = (ls.value, ls.expiry)
  complete : ∀ k ls, lease k h = some ls → ls.Runs now → (k, ls.value, ls.expiry) ∈ l

theorem follows_nil : Follows (κ := κ) (ν := ν) [] now [] :=
  ⟨.nil, by simp, by simp [lease]⟩

namespace Follows

theorem nodup (hl : Follows h now l) : (l.map Prod.fst).Nodup := by
  unfold List.Nodup
  rw [List.pairwise_map]
  exact hl.sorted.imp fun hab heq => absurd (heq ▸ hab) (lt_irrefl _)

/-- An event that leaves the other keys alone, for the part of the store that
belongs to them. -/
theorem others (hl : Follows h now l) {e : LeaseEvent κ ν K} {k : κ}
    (hlease : ∀ k' ≠ k, lease k' (e :: h) = lease k' h)
    (huse : ∀ k' ≠ k, lastUse k' (e :: h) = lastUse k' h) :
    (l.filter fun x => decide (x.1 ≠ k)).Pairwise
        (fun a b => lastUse a.1 (e :: h) < lastUse b.1 (e :: h)) ∧
      (∀ x ∈ l.filter fun x => decide (x.1 ≠ k),
        ∃ ls, lease x.1 (e :: h) = some ls ∧ x.2 = (ls.value, ls.expiry)) ∧
      ∀ k' ≠ k, ∀ ls, lease k' (e :: h) = some ls → ls.Runs now →
        (k', ls.value, ls.expiry) ∈ l.filter fun x => decide (x.1 ≠ k) := by
  have hne : ∀ x ∈ l.filter (fun x => decide (x.1 ≠ k)), x.1 ≠ k := fun x hx => by
    simpa using (List.mem_filter.mp hx).2
  refine ⟨?_, ?_, ?_⟩
  · refine (hl.sorted.sublist List.filter_sublist).imp_of_mem ?_
    intro a b ha hb hab
    rwa [huse _ (hne a ha), huse _ (hne b hb)]
  · intro x hx
    rw [hlease _ (hne x hx)]
    exact hl.sound x (List.mem_of_mem_filter hx)
  · intro k' hk' ls hls hruns
    rw [hlease k' hk'] at hls
    exact List.mem_filter.mpr ⟨hl.complete k' ls hls hruns, by simpa using hk'⟩

theorem remove (hl : Follows h now l) (k : κ) :
    Follows (.remove k :: h) now (l.filter fun x => decide (x.1 ≠ k)) := by
  obtain ⟨hsorted, hsound, hcomplete⟩ := hl.others (e := .remove k) (k := k)
    (fun k' hk' => by simp [lease, Ne.symm hk']) (fun _ _ => rfl)
  refine ⟨hsorted, hsound, ?_⟩
  intro k' ls hls hruns
  refine hcomplete k' ?_ ls hls hruns
  rintro rfl
  simp [lease] at hls

theorem clear (h : List (LeaseEvent κ ν K)) (now : K) : Follows (.clear :: h) now [] :=
  ⟨.nil, by simp, by simp [lease]⟩

/-- A key that is used goes to the end. -/
theorem used (hl : Follows h now l) {e : LeaseEvent κ ν K} {k : κ} (ls : Lease ν K)
    (hlease : ∀ k' ≠ k, lease k' (e :: h) = lease k' h) (hself : lease k (e :: h) = some ls)
    (huse : ∀ k' ≠ k, lastUse k' (e :: h) = lastUse k' h)
    (hlast : lastUse k (e :: h) = h.length + 1) :
    Follows (e :: h) now
      ((l.filter fun x => decide (x.1 ≠ k)) ++ [(k, ls.value, ls.expiry)]) := by
  obtain ⟨hsorted, hsound, hcomplete⟩ := hl.others hlease huse
  refine ⟨List.pairwise_append.mpr ⟨hsorted, List.pairwise_singleton _ _, ?_⟩, ?_, ?_⟩
  · intro a ha b hb
    obtain rfl := List.mem_singleton.mp hb
    have hne : a.1 ≠ k := by simpa using (List.mem_filter.mp ha).2
    rw [hlast, huse _ hne]
    exact Nat.lt_succ_of_le (lastUse_le a.1 h)
  · intro x hx
    rcases List.mem_append.mp hx with hx | hx
    · exact hsound x hx
    · obtain rfl := List.mem_singleton.mp hx
      exact ⟨ls, hself, rfl⟩
  · intro k' ls' hls' hruns
    by_cases hk : k' = k
    · subst hk
      obtain rfl := Option.some.inj (hself.symm.trans hls')
      simp
    · exact List.mem_append_left _ (hcomplete k' hk ls' hls' hruns)

theorem put (hl : Follows h now l) (k : κ) (v : ν) (expiry : K) :
    Follows (.put k v expiry [] :: h) now
      ((l.filter fun x => decide (x.1 ≠ k)) ++ [(k, v, expiry)]) :=
  hl.used ⟨v, expiry⟩ (fun k' hk' => by simp [lease, Ne.symm hk']) (by simp [lease])
    (fun k' hk' => by simp [lastUse, Ne.symm hk']) (by simp [lastUse])

theorem hit (hl : Follows h now l) {e : κ × ν × K} (he : e ∈ l) :
    Follows (.hit e.1 :: h) now ((l.filter fun x => decide (x.1 ≠ e.1)) ++ [e]) := by
  obtain ⟨ls, hls, heq⟩ := hl.sound e he
  have hentry : e = (e.1, ls.value, ls.expiry) := Prod.ext rfl heq
  have := hl.used (e := .hit e.1) (k := e.1) ls (fun _ _ => rfl) hls
    (fun k' hk' => by simp [lastUse, Ne.symm hk']) (by simp [lastUse])
  rwa [← hentry] at this

/-- The first entries leave, and the put says so. -/
theorem evict {k : κ} {v : ν} {expiry : K} {l₁ l₂ : List (κ × ν × K)}
    (hl : Follows (.put k v expiry [] :: h) now (l₁ ++ l₂)) :
    Follows (.put k v expiry (l₁.map Prod.fst) :: h) now l₂ := by
  have hnodup := hl.nodup
  rw [List.map_append, List.nodup_append] at hnodup
  have hkeep : ∀ k', k' ∉ l₁.map Prod.fst →
      lease k' (.put k v expiry (l₁.map Prod.fst) :: h) = lease k' (.put k v expiry [] :: h) :=
    fun k' hk' => by simp only [lease, if_neg hk', List.not_mem_nil, if_false]
  refine ⟨(List.pairwise_append.mp hl.sorted).2.1, ?_, ?_⟩
  · intro e he
    have hnot : e.1 ∉ l₁.map Prod.fst := fun hin => hnodup.2.2 _ hin _ (List.mem_map_of_mem he) rfl
    rw [hkeep _ hnot]
    exact hl.sound e (List.mem_append_right _ he)
  · intro k' ls hls hruns
    have hnot : k' ∉ l₁.map Prod.fst := fun hin => by simp only [lease, if_pos hin, reduceCtorEq] at hls
    rw [hkeep _ hnot] at hls
    rcases List.mem_append.mp (hl.complete k' ls hls hruns) with hmem | hmem
    · exact absurd (List.mem_map_of_mem hmem) hnot
    · exact hmem

theorem ncard_keys (hl : Follows h now l) : Set.ncard {k | k ∈ l.map Prod.fst} = l.length := by
  have hset : {k | k ∈ l.map Prod.fst} = ((l.map Prod.fst).toFinset : Set κ) := by
    ext k
    simp
  rw [hset, Set.ncard_coe_finset, List.toFinset_card_of_nodup hl.nodup, List.length_map]

theorem unexpired_subset (hl : Follows h now l) :
    {k | Unexpired h now k} ⊆ {k | k ∈ l.map Prod.fst} := by
  intro k hk
  obtain ⟨ls, hls, hruns⟩ := hk
  exact List.mem_map.mpr ⟨_, hl.complete k ls (lease_eq_some_iff.mpr hls) hruns, rfl⟩

theorem ncard_le (hl : Follows h now l) : Set.ncard {k | Unexpired h now k} ≤ l.length := by
  rw [← hl.ncard_keys]
  exact Set.ncard_le_ncard hl.unexpired_subset (List.finite_toSet _)

/-! ### What a store that follows its history knows -/

theorem later (hl : Follows h now l) {now' : K} (hnow : now ≤ now') : Follows h now' l := by
  refine ⟨hl.sorted, hl.sound, ?_⟩
  intro k ls hls hruns
  exact hl.complete k ls hls (lt_of_le_of_lt hnow hruns)

theorem keep (hl : Follows h now l) (p : κ × ν × K → Bool)
    (hp : ∀ e ∈ l, p e = false → e.2.2 ≤ now) : Follows h now (l.filter p) := by
  refine ⟨hl.sorted.sublist List.filter_sublist, fun e he => hl.sound e (List.mem_of_mem_filter he), ?_⟩
  intro k ls hls hruns
  have hmem := hl.complete k ls hls hruns
  refine List.mem_filter.mpr ⟨hmem, ?_⟩
  by_contra hpe
  have hle := hp _ hmem (by simpa using hpe)
  exact absurd hruns (not_lt.mpr hle)

/-- A lookup of a running lease finds its value; any other key is missing or
has run out. -/
theorem find (hl : Follows h now l) {k : κ} {v : ν} :
    (∃ expiry, (k, v, expiry) ∈ l ∧ now < expiry) ↔ ∃ ls, Kept h k ls ∧ ls.value = v ∧ ls.Runs now := by
  constructor
  · intro hmem
    obtain ⟨expiry, hmem, hlt⟩ := hmem
    obtain ⟨ls, hls, heq⟩ := hl.sound _ hmem
    rw [Prod.mk.injEq] at heq
    refine ⟨ls, lease_eq_some_iff.mp hls, heq.1.symm, ?_⟩
    rw [heq.2] at hlt
    exact hlt
  · intro hkept
    obtain ⟨ls, hls, rfl, hruns⟩ := hkept
    exact ⟨_, hl.complete k ls (lease_eq_some_iff.mpr hls) hruns, hruns⟩

theorem unexpired_eq (hl : Follows h now l) (hlive : ∀ e ∈ l, now < e.2.2) :
    {k | Unexpired h now k} = {k | k ∈ l.map Prod.fst} := by
  refine Set.Subset.antisymm hl.unexpired_subset ?_
  intro k hk
  obtain ⟨⟨k', v, expiry⟩, hmem, rfl⟩ := List.mem_map.mp hk
  obtain ⟨ls, hkept, -, hruns⟩ := hl.find.mp ⟨expiry, hmem, hlive _ hmem⟩
  exact ⟨ls, hkept, hruns⟩

theorem ncard (hl : Follows h now l) (hlive : ∀ e ∈ l, now < e.2.2) :
    Set.ncard {k | Unexpired h now k} = l.length := by
  rw [hl.unexpired_eq hlive, hl.ncard_keys]

end Follows

end Stores

end LeaseEvent

end Caips.Logic
