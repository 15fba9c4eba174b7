/-
Caips.Logic.Dict — insertion-ordered dictionaries.

`Dict κ ν` is the mapping type of the modelled language: an assignment to
an existing key keeps its place, a new key goes to the end, and iteration
follows the order of first insertion. Distinctness of the keys is a field,
so a dictionary with a repeated key cannot be built.

The three operations (`set`, `pop`, `get?`) each come with the read-back
lemmas at the written key and at every other key; those and `mem_values`
are all that proofs use.
-/
import Mathlib.Data.List.Basic
import Mathlib.Data.List.Induction
import Mathlib.Data.List.Nodup

namespace Caips.Logic

universe u v

variable {κ : Type u} {ν : Type v}

/-- Texts are compared with a lawful equality. -/
instance instLawfulBEqText : LawfulBEq (List Char) := inferInstance

/-- An insertion-ordered dictionary. -/
structure Dict (κ : Type u) (ν : Type v) where
  entries : List (κ × ν)
  nodup : (entries.map Prod.fst).Nodup

namespace Dict

/-- The empty dictionary. -/
def empty : Dict κ ν := ⟨[], by simp⟩

instance : Inhabited (Dict κ ν) := ⟨empty⟩

/-- The keys, in insertion order. -/
def keys (d : Dict κ ν) : List κ := d.entries.map Prod.fst

/-- The values, in insertion order of their keys. -/
def values (d : Dict κ ν) : List ν := d.entries.map Prod.snd

/-- The entries whose values pass a test. -/
def filter (d : Dict κ ν) (p : ν → Bool) : Dict κ ν :=
  ⟨d.entries.filter fun e => p e.2, d.nodup.sublist (List.filter_sublist.map Prod.fst)⟩

/-- `len(d)`. -/
def size (d : Dict κ ν) : Nat := d.entries.length

/-- Only the last `n` entries: the oldest go first. -/
def keepLast (d : Dict κ ν) (n : Nat) : Dict κ ν :=
  ⟨d.entries.drop (d.size - n), d.nodup.sublist ((List.drop_sublist _ _).map Prod.fst)⟩

/-- How many values pass a test. -/
def count (d : Dict κ ν) (p : ν → Bool) : Nat := d.values.countP p

theorem count_filter_le (d : Dict κ ν) (p q : ν → Bool) : (d.filter q).count p ≤ d.count p :=
  List.Sublist.countP_le (List.filter_sublist.map Prod.snd)

theorem size_filter_le (d : Dict κ ν) (p : ν → Bool) : (d.filter p).size ≤ d.size :=
  List.filter_sublist.length_le

variable [DecidableEq κ]

/-- The first value stored under a key of an entry list. -/
def find (k : κ) : List (κ × ν) → Option ν
  | [] => none
  | e :: r => if e.1 = k then some e.2 else find k r

/-- Overwrite in place, or append. -/
def assign (k : κ) (v : ν) : List (κ × ν) → List (κ × ν)
  | [] => [(k, v)]
  | e :: r => if e.1 = k then (k, v) :: r else e :: assign k v r

theorem mem_keys_assign {k k' : κ} {v : ν} :
    ∀ {l : List (κ × ν)}, k' ∈ (assign k v l).map Prod.fst ↔ k' = k ∨ k' ∈ l.map Prod.fst
  | [] => by simp [assign]
  | e :: r => by
      by_cases he : e.1 = k
      · subst he
        simp [assign]
      · simp only [assign, if_neg he, List.map_cons, List.mem_cons, mem_keys_assign]
        tauto

theorem nodup_assign {k : κ} {v : ν} :
    ∀ {l : List (κ × ν)}, (l.map Prod.fst).Nodup → ((assign k v l).map Prod.fst).Nodup
  | [], _ => by simp [assign]
  | e :: r, h => by
      simp only [List.map_cons, List.nodup_cons] at h
      by_cases he : e.1 = k
      · subst he
        simpa [assign] using h
      · simp only [assign, if_neg he, List.map_cons, List.nodup_cons, mem_keys_assign]
        exact ⟨fun hm => hm.elim he h.1, nodup_assign h.2⟩

/-- `d.get(k)`. -/
def get? (d : Dict κ ν) (k : κ) : Option ν := find k d.entries

/-- `k in d`. -/
def contains (d : Dict κ ν) (k : κ) : Bool := (d.get? k).isSome

/-- `d[k] = v`. -/
def set (d : Dict κ ν) (k : κ) (v : ν) : Dict κ ν := ⟨assign k v d.entries, nodup_assign d.nodup⟩

/-- `d.pop(k, None)`, as the dictionary it leaves. -/
def pop (d : Dict κ ν) (k : κ) : Dict κ ν :=
  ⟨d.entries.filter fun e => decide (e.1 ≠ k),
    d.nodup.sublist (List.filter_sublist.map Prod.fst)⟩

/-- The dictionary of these assignments, in order. -/
def ofList (l : List (κ × ν)) : Dict κ ν := l.foldl (fun d e => d.set e.1 e.2) empty

theorem find_assign {k k' : κ} {v : ν} :
    ∀ {l : List (κ × ν)}, find k' (assign k v l) = if k = k' then some v else find k' l
  | [] => by simp [assign, find]
  | e :: r => by
      by_cases he : e.1 = k
      · subst he
        by_cases hk : e.1 = k' <;> simp [assign, find, hk]
      · by_cases hk : e.1 = k'
        · subst hk
          simp [assign, find, he, Ne.symm he]
        · simp only [assign, if_neg he, find, if_neg hk, find_assign]

theorem find_filter_ne {k k' : κ} :
    ∀ {l : List (κ × ν)}, find k' (l.filter fun e => decide (e.1 ≠ k)) =
      if k = k' then none else find k' l
  | [] => by simp [find]
  | e :: r => by
      by_cases he : e.1 = k
      · subst he
        have ih : find k' (r.filter fun e' => decide (e'.1 ≠ e.1)) = _ := find_filter_ne
        by_cases hk : e.1 = k' <;> simp_all [find]
      · have ih : find k' (r.filter fun e' => decide (e'.1 ≠ k)) = _ := find_filter_ne
        simp only [List.filter_cons, ne_eq, he, not_false_eq_true, decide_true, if_true, find]
        by_cases hk : e.1 = k'
        · subst hk
          simp [Ne.symm he]
        · simpa [hk] using ih

@[simp] theorem get?_empty (k : κ) : (empty : Dict κ ν).get? k = none := rfl

@[simp] theorem get?_set_self (d : Dict κ ν) (k : κ) (v : ν) : (d.set k v).get? k = some v := by
  simp [get?, set, find_assign]

theorem get?_set_ne (d : Dict κ ν) {k k' : κ} (v : ν) (h : k ≠ k') :
    (d.set k v).get? k' = d.get? k' := by
  simp [get?, set, find_assign, h]

@[simp] theorem get?_pop_self (d : Dict κ ν) (k : κ) : (d.pop k).get? k = none := by
  rw [get?, pop, find_filter_ne, if_pos rfl]

theorem get?_pop_ne (d : Dict κ ν) {k k' : κ} (h : k ≠ k') : (d.pop k).get? k' = d.get? k' := by
  rw [get?, pop, find_filter_ne, if_neg h, get?]

theorem mem_entries_of_find {k : κ} {v : ν} :
    ∀ {l : List (κ × ν)}, find k l = some v → (k, v) ∈ l
  | [], h => by simp [find] at h
  | e :: r, h => by
      by_cases he : e.1 = k
      · simp only [find, if_pos he, Option.some.injEq] at h
        exact List.mem_cons.mpr (.inl (Prod.ext he.symm h.symm))
      · simp only [find, if_neg he] at h
        exact List.mem_cons_of_mem _ (mem_entries_of_find h)

theorem mem_keys {d : Dict κ ν} {k : κ} : k ∈ d.keys ↔ ∃ v, d.get? k = some v := by
  have hfind : ∀ l : List (κ × ν), k ∈ l.map Prod.fst ↔ ∃ v, find k l = some v := by
    intro l
    induction l with
    | nil => simp [find]
    | cons e r ih =>
      by_cases he : e.1 = k
      · simp [find, he]
      · rw [List.map_cons, List.mem_cons, ih, find, if_neg he]
        simp [Ne.symm he]
  exact hfind d.entries

theorem mem_keys_set {d : Dict κ ν} {k k' : κ} {v : ν} :
    k' ∈ (d.set k v).keys ↔ k' = k ∨ k' ∈ d.keys := mem_keys_assign

theorem mem_keys_pop {d : Dict κ ν} {k k' : κ} : k' ∈ (d.pop k).keys ↔ k' ≠ k ∧ k' ∈ d.keys := by
  rw [mem_keys, mem_keys]
  by_cases h : k' = k
  · subst h; simp
  · rw [get?_pop_ne d (Ne.symm h)]; simp [h]

/-- Assigning to an existing key adds none. -/
theorem keys_set_of_mem {d : Dict κ ν} {k : κ} (v : ν) (h : k ∈ d.keys) :
    (d.set k v).keys = d.keys := by
  have hassign : ∀ l : List (κ × ν), k ∈ l.map Prod.fst →
      (assign k v l).map Prod.fst = l.map Prod.fst := by
    intro l
    induction l with
    | nil => exact fun h => absurd h List.not_mem_nil
    | cons e r ih =>
      intro h
      by_cases he : e.1 = k
      · simp [assign, he]
      · have hr : k ∈ r.map Prod.fst := (List.mem_cons.mp h).resolve_left (Ne.symm he)
        simp [assign, he, ih hr]
  exact hassign d.entries h

theorem mem_values {d : Dict κ ν} {k : κ} {v : ν} (h : d.get? k = some v) : v ∈ d.values :=
  List.mem_map.mpr ⟨(k, v), mem_entries_of_find h, rfl⟩

theorem get?_foldl_set_of_notMem {k : κ} : ∀ {l : List (κ × ν)} (_ : k ∉ l.map Prod.fst) (d : Dict κ ν),
    (l.foldl (fun d e => d.set e.1 e.2) d).get? k = d.get? k
  | [], _, _ => rfl
  | e :: l, h, d => by
      rw [List.map_cons, List.mem_cons, not_or] at h
      rw [List.foldl_cons, get?_foldl_set_of_notMem h.2, get?_set_ne _ _ (Ne.symm h.1)]

/-- The dictionary of these assignments holds the last to each key. -/
theorem get?_ofList_iff {l : List (κ × ν)} {k : κ} {v : ν} :
    (ofList l).get? k = some v ↔ ∃ l₁ l₂, l = l₁ ++ (k, v) :: l₂ ∧ k ∉ l₂.map Prod.fst := by
  constructor
  · intro h
    induction l using List.reverseRecOn with
    | nil => exact nomatch h
    | append_singleton l e ih =>
      rw [ofList, List.foldl_append] at h
      change ((ofList l).set e.1 e.2).get? k = some v at h
      by_cases he : e.1 = k
      · subst he
        rw [get?_set_self] at h
        exact ⟨l, [], by rw [← Option.some.inj h], by simp⟩
      · rw [get?_set_ne _ _ he] at h
        obtain ⟨l₁, l₂, rfl, hl₂⟩ := ih h
        exact ⟨l₁, l₂ ++ [e], by simp, by simpa [Ne.symm he] using hl₂⟩
  · rintro ⟨l₁, l₂, rfl, h⟩
    rw [ofList, List.foldl_append, List.foldl_cons, get?_foldl_set_of_notMem h, get?_set_self]

theorem mem_of_get?_ofList {l : List (κ × ν)} {k : κ} {v : ν} (h : (ofList l).get? k = some v) :
    (k, v) ∈ l := by
  obtain ⟨l₁, l₂, rfl, -⟩ := get?_ofList_iff.mp h
  exact List.mem_append_right l₁ List.mem_cons_self

/-- Every assigned key is in the dictionary. -/
theorem get?_ofList_of_mem {l : List (κ × ν)} {k : κ} (h : k ∈ l.map Prod.fst) :
    ∃ v, (ofList l).get? k = some v := by
  have hfold : ∀ (l : List (κ × ν)) (d : Dict κ ν), k ∈ l.map Prod.fst ∨ k ∈ d.keys →
      k ∈ (l.foldl (fun d e => d.set e.1 e.2) d).keys := by
    intro l
    induction l with
    | nil => exact fun d h => h.resolve_left List.not_mem_nil
    | cons e l ih =>
      intro d h
      refine ih (d.set e.1 e.2) ?_
      rw [mem_keys_set]
      rcases h with h | h
      · rcases List.mem_cons.mp h with rfl | h
        · exact .inr (.inl rfl)
        · exact .inl h
      · exact .inr (.inr h)
  exact mem_keys.mp (hfold l empty (.inl h))

/-- The entries are what the dictionary holds. -/
theorem mem_entries {d : Dict κ ν} {k : κ} {v : ν} : (k, v) ∈ d.entries ↔ d.get? k = some v := by
  have hfind : ∀ l : List (κ × ν), (l.map Prod.fst).Nodup → (k, v) ∈ l → find k l = some v := by
    intro l
    induction l with
    | nil => exact fun _ h => nomatch h
    | cons e r ih =>
      intro hnodup h
      obtain ⟨hnot, hrest⟩ := List.nodup_cons.mp hnodup
      rcases List.mem_cons.mp h with rfl | h
      · simp [find]
      · have hne : e.1 ≠ k := fun he => hnot (he ▸ List.mem_map.mpr ⟨(k, v), h, rfl⟩)
        simp [find, hne, ih hrest h]
  exact ⟨hfind d.entries d.nodup, mem_entries_of_find⟩

theorem get?_filter (d : Dict κ ν) (p : ν → Bool) (k : κ) :
    (d.filter p).get? k = (d.get? k).filter p := by
  ext v
  rw [← mem_entries, Option.filter_eq_some_iff, ← mem_entries]
  exact List.mem_filter

theorem exists_of_mem_values {d : Dict κ ν} {v : ν} (h : v ∈ d.values) : ∃ k, d.get? k = some v := by
  obtain ⟨⟨k, w⟩, hmem, rfl⟩ := List.mem_map.mp h
  exact ⟨k, mem_entries.mp hmem⟩

/-! ## Counting values -/

theorem count_set_of_some {d : Dict κ ν} {k : κ} {u v : ν} (p : ν → Bool) (h : d.get? k = some u) :
    (d.set k v).count p + (p u).toNat = d.count p + (p v).toNat := by
  have hassign : ∀ l : List (κ × ν), find k l = some u →
      ((assign k v l).map Prod.snd).countP p + (p u).toNat =
        (l.map Prod.snd).countP p + (p v).toNat := by
    intro l
    induction l with
    | nil => exact fun h => nomatch h
    | cons e r ih =>
      intro h
      by_cases he : e.1 = k
      · have hu : e.2 = u := by simpa [find, he] using h
        subst hu
        simp only [assign, he, if_true, List.map_cons, List.countP_cons]
        cases p v <;> cases p e.2 <;> simp
      · have hrest := ih (by simpa [find, he] using h)
        simp only [assign, he, if_false, List.map_cons, List.countP_cons]
        omega
  exact hassign d.entries h

theorem assign_of_notMem {k : κ} {v : ν} : ∀ {l : List (κ × ν)}, find k l = none →
    assign k v l = l ++ [(k, v)]
  | [], _ => rfl
  | e :: r, h => by
      by_cases he : e.1 = k
      · simp [find, he] at h
      · have hrest := assign_of_notMem (v := v) (l := r) (by simpa [find, he] using h)
        simp [assign, he, hrest]

theorem count_set_of_none {d : Dict κ ν} {k : κ} {v : ν} (p : ν → Bool) (h : d.get? k = none) :
    (d.set k v).count p = d.count p + (p v).toNat := by
  have hentries : (d.set k v).entries = d.entries ++ [(k, v)] := assign_of_notMem h
  unfold count values
  rw [hentries, List.map_append, List.countP_append]
  cases hp : p v <;> simp [hp]

theorem count_pop_le (d : Dict κ ν) (p : ν → Bool) (k : κ) : (d.pop k).count p ≤ d.count p :=
  List.Sublist.countP_le (List.filter_sublist.map Prod.snd)

theorem size_pop_le (d : Dict κ ν) (k : κ) : (d.pop k).size ≤ d.size :=
  List.filter_sublist.length_le

theorem size_set_of_some {d : Dict κ ν} {k : κ} {u : ν} (v : ν) (h : d.get? k = some u) :
    (d.set k v).size = d.size := by
  have hkeys := congrArg List.length (keys_set_of_mem v (mem_keys.mpr ⟨u, h⟩))
  simpa [keys, size] using hkeys

theorem size_set_le (d : Dict κ ν) (k : κ) (v : ν) : (d.set k v).size ≤ d.size + 1 := by
  cases h : d.get? k with
  | some u =>
    rw [size_set_of_some v h]
    exact Nat.le_succ _
  | none =>
    have hentries : (d.set k v).entries = d.entries ++ [(k, v)] := assign_of_notMem h
    unfold size
    rw [hentries, List.length_append]
    exact Nat.le_refl _

/-! ## Recency -/

/-- `d[k] = v; d.move_to_end(k)`. -/
def setLast (d : Dict κ ν) (k : κ) (v : ν) : Dict κ ν := (d.pop k).set k v

theorem entries_setLast (d : Dict κ ν) (k : κ) (v : ν) :
    (d.setLast k v).entries = (d.entries.filter fun e => decide (e.1 ≠ k)) ++ [(k, v)] :=
  assign_of_notMem (get?_pop_self d k)

theorem of_get?_keepLast {d : Dict κ ν} {n : Nat} {k : κ} {v : ν} (h : (d.keepLast n).get? k = some v) :
    d.get? k = some v :=
  mem_entries.mp (List.mem_of_mem_drop (mem_entries.mpr h))

theorem get?_setLast_keepLast (d : Dict κ ν) (k : κ) (v : ν) {n : Nat} (hn : 1 ≤ n) :
    ((d.setLast k v).keepLast n).get? k = some v := by
  have hentries : (d.setLast k v).entries = (d.pop k).entries ++ [(k, v)] := entries_setLast d k v
  have hsize : (d.setLast k v).size - n ≤ (d.pop k).entries.length := by
    unfold size
    rw [hentries, List.length_append, List.length_singleton]
    omega
  rw [← mem_entries]
  show (k, v) ∈ (d.setLast k v).entries.drop _
  rw [hentries, List.drop_append_of_le_length hsize]
  exact List.mem_append_right _ List.mem_cons_self

theorem of_get?_setLast_keepLast {d : Dict κ ν} {k k' : κ} {u v : ν} {n : Nat} (hk : k ≠ k')
    (h : ((d.setLast k u).keepLast n).get? k' = some v) : d.get? k' = some v := by
  have hset := of_get?_keepLast h
  unfold setLast at hset
  rwa [get?_set_ne _ _ hk, get?_pop_ne _ hk] at hset

/-- `d.update(e)`, as the dictionary it leaves. -/
def update (d e : Dict κ ν) : Dict κ ν := e.entries.foldl (fun d e => d.set e.1 e.2) d

theorem get?_update (d e : Dict κ ν) (k : κ) : (d.update e).get? k = (e.get? k).or (d.get? k) := by
  have hfold : ∀ (l : List (κ × ν)) (d : Dict κ ν), (l.map Prod.fst).Nodup →
      (l.foldl (fun d e => d.set e.1 e.2) d).get? k = (find k l).or (d.get? k) := by
    intro l
    induction l with
    | nil => intro d _; rfl
    | cons a l ih =>
      intro d hnodup
      obtain ⟨hnot, hnodup⟩ := List.nodup_cons.mp hnodup
      rw [List.foldl_cons, ih _ hnodup, find]
      by_cases ha : a.1 = k
      · have hnone : find k l = none := Option.eq_none_iff_forall_ne_some.mpr fun v hv =>
          hnot (ha ▸ List.mem_map.mpr ⟨(k, v), mem_entries_of_find hv, rfl⟩)
        rw [if_pos ha, hnone, ← ha, get?_set_self]
        rfl
      · rw [if_neg ha, get?_set_ne _ _ ha]
  exact hfold e.entries d e.nodup

theorem get?_foldl_pop (k : κ) : ∀ (l : List κ) (d : Dict κ ν),
    (l.foldl (fun d k => d.pop k) d).get? k = if k ∈ l then none else d.get? k
  | [], d => by simp
  | a :: l, d => by
      rw [List.foldl_cons, get?_foldl_pop k l]
      by_cases ha : a = k
      · subst ha
        simp
      · rw [get?_pop_ne _ ha]
        simp [Ne.symm ha]

theorem entries_foldl_pop : ∀ (l : List κ) (d : Dict κ ν),
    (l.foldl (fun d k => d.pop k) d).entries = d.entries.filter fun e => decide (e.1 ∉ l)
  | [], d => by simp
  | a :: l, d => by
      rw [List.foldl_cons, entries_foldl_pop l, pop, List.filter_filter]
      refine List.filter_congr fun e _ => ?_
      simp [Bool.and_comm]

/-- Popping the keys of the entries that pass a test leaves the others. -/
theorem entries_pop_filter (d : Dict κ ν) (p : κ × ν → Bool) :
    ((d.entries.filter p).foldl (fun d e => d.pop e.1) d).entries =
      d.entries.filter fun e => !p e := by
  have hmap : ∀ (l : List (κ × ν)) (d : Dict κ ν), l.foldl (fun d e => d.pop e.1) d =
      (l.map Prod.fst).foldl (fun d k => d.pop k) d := fun l d => (List.foldl_map ..).symm
  rw [hmap, entries_foldl_pop]
  refine List.filter_congr fun e he => ?_
  cases hp : p e with
  | true =>
    have hin : e.1 ∈ (d.entries.filter p).map Prod.fst :=
      List.mem_map_of_mem (List.mem_filter.mpr ⟨he, hp⟩)
    simpa using hin
  | false =>
    have hnot : e.1 ∉ (d.entries.filter p).map Prod.fst := by
      intro hin
      obtain ⟨e', he', heq⟩ := List.mem_map.mp hin
      obtain ⟨hmem, hp'⟩ := List.mem_filter.mp he'
      have hsame := List.inj_on_of_nodup_map d.nodup hmem he heq
      simp [hsame, hp] at hp'
    simpa using hnot

/-- Popping the first keys leaves the entries behind them. -/
theorem entries_pop_take (d : Dict κ ν) (n : Nat) :
    ((d.keys.take n).foldl (fun d k => d.pop k) d).entries = d.entries.drop n := by
  rw [entries_foldl_pop, keys, ← List.map_take]
  have hsplit := List.take_append_drop n d.entries
  have hnodup := d.nodup
  rw [← hsplit, List.map_append, List.nodup_append] at hnodup
  have hfirst : (d.entries.take n).filter (fun e => decide (e.1 ∉ (d.entries.take n).map Prod.fst)) = [] := by
    rw [List.filter_eq_nil_iff]
    intro e he
    have hin := List.mem_map_of_mem (f := Prod.fst) he
    simp only [hin, not_true_eq_false, decide_false, Bool.false_eq_true, not_false_eq_true]
  have hrest : (d.entries.drop n).filter (fun e => decide (e.1 ∉ (d.entries.take n).map Prod.fst)) =
      d.entries.drop n := by
    rw [List.filter_eq_self]
    intro e he
    have hnot := fun hin => hnodup.2.2 e.1 hin e.1 (List.mem_map_of_mem he) rfl
    exact decide_eq_true hnot
  calc d.entries.filter (fun e => decide (e.1 ∉ (d.entries.take n).map Prod.fst))
      = (d.entries.take n ++ d.entries.drop n).filter
          (fun e => decide (e.1 ∉ (d.entries.take n).map Prod.fst)) := by rw [hsplit]
    _ = d.entries.drop n := by rw [List.filter_append, hfirst, hrest, List.nil_append]

theorem get?_foldl_set_of_nodup {k : κ} {v : ν} : ∀ {l : List (κ × ν)} (_ : (l.map Prod.fst).Nodup) (_ : (k, v) ∈ l)
    (d : Dict κ ν), (l.foldl (fun d e => d.set e.1 e.2) d).get? k = some v
  | e :: l, h, hv, d => by
      rw [List.map_cons, List.nodup_cons] at h
      rcases List.mem_cons.mp hv with rfl | hv
      · rw [List.foldl_cons, get?_foldl_set_of_notMem h.1, get?_set_self]
      · exact get?_foldl_set_of_nodup h.2 hv _

theorem get?_ofList_of_nodup {l : List (κ × ν)} (h : (l.map Prod.fst).Nodup) {k : κ} {v : ν} (hv : (k, v) ∈ l) :
    (ofList l).get? k = some v :=
  get?_foldl_set_of_nodup h hv empty

end Dict

end Caips.Logic
