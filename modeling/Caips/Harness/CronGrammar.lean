/-
Caips.Harness.CronGrammar — the grammar of a cron field, and what `_field` accepts.

An item is `*`, `n` or `a-b`, with or without a step behind a slash; with a step a
single value goes on to the end of the range. The grammar is stated for any reading
of numbers: for numerals in plain writing it is the documented one (`Written`), and
for what `int` reads, with nothing behind the slash allowed, it is the one that the
parser follows (`bounds_ok_iff`). So the parser is right about a field as soon as the
numbers in it are numerals that `int` does not refuse for their length
(`field_exact_iff`).
-/
import Caips.Harness.CronTheorems
import Caips.Logic.IntLiteral

namespace Caips.Harness.Cron

open Caips.Logic

section Grammar

variable (number : List Char → ℤ → Prop) (lo hi : ℕ)

/-- What stands before a step, with its first and last value. -/
inductive Span (stepped : Prop) [Decidable stepped] : List Char → ℤ → ℤ → Prop where
  | all : Span stepped ['*'] lo hi
  | one {n : List Char} {a : ℤ} (hall : n ≠ ['*']) (hn : '-' ∉ n) (ha : number n a) :
      Span stepped n a (if stepped then hi else a)
  | range {m n : List Char} {a b : ℤ} (hm : '-' ∉ m) (ha : number m a) (hb : number n b) :
      Span stepped (m ++ '-' :: n) a b

/-- An item, with its first and last value and its step. Where `bare` holds, nothing
need stand behind the slash. -/
inductive Item (bare : Prop) : List Char → ℤ → ℤ → ℤ → Prop where
  | plain {t : List Char} {a b : ℤ} (ht : '/' ∉ t) (hspan : Span number lo hi False t a b) : Item bare t a b 1
  | stepped {t n : List Char} {a b k : ℤ} (ht : '/' ∉ t) (hspan : Span number lo hi True t a b) (hne : n ≠ [])
      (hk : number n k) : Item bare (t ++ '/' :: n) a b k
  | bare {t : List Char} {a b : ℤ} (hbare : bare) (ht : '/' ∉ t) (hspan : Span number lo hi False t a b) :
      Item bare (t ++ ['/']) a b 1

/-- A part of a field is an item with its values in the range. -/
structure Stands (bare : Prop) (part : String) (a b k : ℕ) : Prop where
  item : Item number lo hi bare part.toList a b k
  first : lo ≤ a
  ordered : a ≤ b
  last : b ≤ hi
  step : 1 ≤ k

/-- The field is a list of items. -/
def Lists (bare : Prop) (text : String) : Prop := ∀ part ∈ parts text, ∃ a b k, Stands number lo hi bare part a b k

end Grammar

/-- A numeral of the documented grammar. -/
def Numeral (t : List Char) (z : ℤ) : Prop := IntLiteral.Plain t ∧ z = IntLiteral.value t

/-- The field is written as documented. -/
def Written (lo hi : ℕ) (text : String) : Prop := Lists Numeral lo hi False text

/-- A value is in the set that the field denotes. -/
def Denotes (lo hi : ℕ) (text : String) (v : ℕ) : Prop :=
  ∃ part ∈ parts text, ∃ a b k, Stands Numeral lo hi False part a b k ∧ a ≤ v ∧ v ≤ b ∧ k ∣ v - a

/-- A number that `int` reads. -/
def Read (L : CronLib) (t : List Char) (z : ℤ) : Prop := L.int (String.ofList t) = some z

/-- The texts of a part where there is to be a number. -/
def spanNumbers (t : List Char) : List (List Char) :=
  if t = ['*'] then []
  else if '-' ∈ t then [t.takeWhile (· ≠ '-'), (t.dropWhile (· ≠ '-')).tail]
  else [t]

def numbers (part : List Char) : List (List Char) :=
  if '/' ∈ part then (part.dropWhile (· ≠ '/')).tail :: spanNumbers (part.takeWhile (· ≠ '/')) else spanNumbers part

variable {L : CronLib} {lo hi : ℕ} {number number' : List Char → ℤ → Prop} {bare bare' : Prop}

/-! ## Cutting a text at a character -/

section Cut

variable {c : Char} {s : List Char}

theorem takeWhile_cut (h : c ∉ s) (t : List Char) : (s ++ c :: t).takeWhile (· ≠ c) = s := by
  rw [List.takeWhile_append_of_pos fun x hx => decide_eq_true (ne_of_mem_of_not_mem hx h)]
  simp

theorem dropWhile_cut (h : c ∉ s) (t : List Char) : (s ++ c :: t).dropWhile (· ≠ c) = c :: t := by
  rw [List.dropWhile_append_of_pos fun x hx => decide_eq_true (ne_of_mem_of_not_mem hx h)]
  simp

theorem partition_cut (h : c ∉ s) (t : List Char) :
    partition c (String.ofList (s ++ c :: t)) = (String.ofList s, String.ofList t) := by
  simp only [partition, String.toList_ofList, takeWhile_cut h, dropWhile_cut h, List.drop_succ_cons, List.drop_zero]

theorem partition_uncut (h : c ∉ s) : partition c (String.ofList s) = (String.ofList s, "") := by
  have hpass : ∀ x ∈ s, decide (x ≠ c) = true := fun x hx => decide_eq_true (ne_of_mem_of_not_mem hx h)
  simp only [partition, String.toList_ofList, List.takeWhile_eq_self_iff.mpr hpass, List.dropWhile_eq_nil_iff.mpr hpass,
    List.drop_nil, String.ofList_nil]

theorem cut_cases (c : Char) (t : List Char) : c ∉ t ∨ ∃ s r, t = s ++ c :: r ∧ c ∉ s := by
  by_cases h : c ∈ t
  · exact .inr (List.eq_append_cons_of_mem h)
  · exact .inl h

theorem cut_unique {s' t t' : List Char} (h : c ∉ s) (h' : c ∉ s') (heq : s ++ c :: t = s' ++ c :: t') : s = s' ∧ t = t' := by
  have hfront := takeWhile_cut h t
  have hback := dropWhile_cut h t
  rw [heq, takeWhile_cut h'] at hfront
  rw [heq, dropWhile_cut h', List.cons.injEq] at hback
  exact ⟨hfront.symm, hback.2.symm⟩

theorem spanNumbers_cut {m : List Char} (h : '-' ∉ m) (n : List Char) : spanNumbers (m ++ '-' :: n) = [m, n] := by
  have hall : m ++ '-' :: n ≠ ['*'] := by
    intro heq
    have hmem : '-' ∈ ['*'] := heq ▸ List.mem_append_right m List.mem_cons_self
    simp at hmem
  simp only [spanNumbers, if_neg hall, takeWhile_cut h, dropWhile_cut h, List.mem_append, List.mem_cons, true_or, or_true,
    if_true, List.tail_cons]

theorem numbers_cut {t : List Char} (h : '/' ∉ t) (n : List Char) : numbers (t ++ '/' :: n) = n :: spanNumbers t := by
  simp only [numbers, takeWhile_cut h, dropWhile_cut h, List.mem_append, List.mem_cons, true_or, or_true, if_true,
    List.tail_cons]

theorem numbers_uncut {t : List Char} (h : '/' ∉ t) : numbers t = spanNumbers t := if_neg h

end Cut

/-! ## The grammar over its numbers -/

variable {t : List Char}

theorem Span.numbers {stepped : Prop} [Decidable stepped] {a b : ℤ}
    (h : Span number lo hi stepped t a b) : ∀ n ∈ spanNumbers t, ∃ z, number n z := by
  cases h with
  | all => simp [spanNumbers]
  | one hall hn ha =>
    intro n hmem
    rw [spanNumbers, if_neg hall, if_neg hn, List.mem_singleton] at hmem
    exact ⟨a, hmem ▸ ha⟩
  | range hm ha hb =>
    intro n hmem
    rw [spanNumbers_cut hm, List.mem_pair] at hmem
    obtain rfl | rfl := hmem
    · exact ⟨a, ha⟩
    · exact ⟨b, hb⟩

theorem Span.mono {stepped : Prop} [Decidable stepped] {a b : ℤ}
    (h : Span number lo hi stepped t a b) (hnum : ∀ n ∈ spanNumbers t, ∀ z, number n z → number' n z) :
    Span number' lo hi stepped t a b := by
  cases h with
  | all => exact .all
  | one hall hn ha =>
    rw [spanNumbers, if_neg hall, if_neg hn] at hnum
    exact .one hall hn (hnum _ (List.mem_singleton_self _) _ ha)
  | range hm ha hb =>
    rw [spanNumbers_cut hm] at hnum
    exact .range hm (hnum _ (by simp) _ ha) (hnum _ (by simp) _ hb)

/-- Where an item has a number there is one, or nothing behind the slash. -/
theorem Item.numbers {part : List Char} {a b k : ℤ} (h : Item number lo hi bare part a b k) :
    ∀ n ∈ Cron.numbers part, (∃ z, number n z) ∨ bare ∧ n = [] := by
  cases h with
  | plain ht hspan =>
    intro n hn
    rw [numbers_uncut ht] at hn
    exact .inl (hspan.numbers n hn)
  | stepped ht hspan hne hk =>
    intro n hn
    rw [numbers_cut ht, List.mem_cons] at hn
    obtain rfl | hn := hn
    · exact .inl ⟨k, hk⟩
    · exact .inl (hspan.numbers n hn)
  | bare hbare ht hspan =>
    intro n hn
    rw [numbers_cut ht, List.mem_cons] at hn
    obtain rfl | hn := hn
    · exact .inr ⟨hbare, rfl⟩
    · exact .inl (hspan.numbers n hn)

/-- An item stays one if its numbers are read in the same way. -/
theorem Item.mono {part : List Char} {a b k : ℤ} (h : Item number lo hi bare part a b k)
    (hnum : ∀ n ∈ Cron.numbers part, ∀ z, number n z → number' n z) (hbare : bare → [] ∈ Cron.numbers part → bare') :
    Item number' lo hi bare' part a b k := by
  cases h with
  | plain ht hspan =>
    rw [numbers_uncut ht] at hnum
    exact .plain ht (hspan.mono hnum)
  | stepped ht hspan hne hk =>
    rw [numbers_cut ht] at hnum
    exact .stepped ht (hspan.mono fun n hn => hnum n (List.mem_cons_of_mem _ hn)) hne (hnum _ List.mem_cons_self _ hk)
  | bare hb ht hspan =>
    rw [numbers_cut ht] at hnum hbare
    exact .bare (hbare hb List.mem_cons_self) ht (hspan.mono fun n hn => hnum n (List.mem_cons_of_mem _ hn))

/-! ## What the parser reads -/

theorem int_ok_iff {z : ℤ} : int L (String.ofList t) = .ok z ↔ Read L t z := by
  unfold int Read
  cases L.int (String.ofList t) with
  | none => simp
  | some n => simp

theorem ofList_eq_star : String.ofList t = "*" ↔ t = ['*'] := by
  rw [← String.toList_inj, String.toList_ofList]
  rfl

theorem ofList_eq_empty : String.ofList t = "" ↔ t = [] := by
  rw [← String.toList_inj, String.toList_ofList]
  rfl

/-- The first and the last value, as the parser reads them. -/
theorem ends_ok_iff {t n : List Char} {a b : ℤ} :
    ends L lo hi (String.ofList t) (String.ofList n) = .ok (a, b) ↔ Span (Read L) lo hi (n ≠ []) t a b := by
  unfold ends
  by_cases hall : t = ['*']
  · subst hall
    rw [if_pos rfl]
    constructor
    · intro h
      obtain ⟨rfl, rfl⟩ := Prod.mk.inj (Except.ok.inj h)
      exact .all
    · intro h
      generalize ht : ['*'] = t at h
      cases h with
      | all => rfl
      | one hne => exact absurd ht.symm hne
      | @range m n _ _ hm =>
        have hmem : '-' ∈ ['*'] := ht ▸ List.mem_append_right m List.mem_cons_self
        simp at hmem
  · rw [if_neg (ofList_eq_star.not.mpr hall)]
    obtain hcut | ⟨m, r, rfl, hm⟩ := cut_cases '-' t
    · rw [if_neg (by rwa [String.toList_ofList])]
      constructor
      · intro h
        obtain ⟨x, hx, hpair⟩ := ok_of_bind h
        obtain ⟨rfl, rfl⟩ := Prod.mk.inj (Except.ok.inj hpair)
        have hspan : Span (Read L) lo hi (n ≠ []) t x (if n ≠ [] then (hi : ℤ) else x) := .one hall hcut (int_ok_iff.mp hx)
        simpa [ofList_eq_empty] using hspan
      · intro h
        cases h with
        | all => exact absurd rfl hall
        | one _ _ ha =>
          rw [int_ok_iff.mpr ha]
          simp [bind, Except.bind, pure, Except.pure]
        | @range m r => exact absurd (List.mem_append_right m List.mem_cons_self) hcut
    · rw [String.toList_ofList, if_pos (List.mem_append_right m List.mem_cons_self), partition_cut hm]
      constructor
      · intro h
        obtain ⟨x, hx, h⟩ := ok_of_bind h
        obtain ⟨y, hy, hpair⟩ := ok_of_bind h
        obtain ⟨rfl, rfl⟩ := Prod.mk.inj (Except.ok.inj hpair)
        exact .range hm (int_ok_iff.mp hx) (int_ok_iff.mp hy)
      · intro h
        generalize ht : m ++ '-' :: r = t at h
        cases h with
        | all => exact absurd ht hall
        | one _ hn => exact absurd (ht ▸ List.mem_append_right m List.mem_cons_self) hn
        | @range m' r' _ _ hm' ha hb =>
          obtain ⟨rfl, rfl⟩ := cut_unique hm hm' ht
          rw [int_ok_iff.mpr ha, int_ok_iff.mpr hb]
          rfl

theorem bounds_of_partition {part : String} {t n : List Char} {a b k : ℕ}
    (h : partition '/' part = (String.ofList t, String.ofList n)) :
    bounds L lo hi part = .ok (a, b, k) ↔ stepOf L (String.ofList n) = .ok (k : ℤ) ∧
      Span (Read L) lo hi (n ≠ []) t a b ∧ lo ≤ a ∧ a ≤ b ∧ b ≤ hi ∧ 1 ≤ k := by
  rw [← ends_ok_iff]
  simp only [bounds, h, bind, Except.bind, pure, Except.pure, throw, throwThe, MonadExceptOf.throw]
  cases hstep : stepOf L (String.ofList n) with
  | error e => simp
  | ok z =>
    cases hends : ends L lo hi (String.ofList t) (String.ofList n) with
    | error e =>
      dsimp only
      split_ifs <;> simp
    | ok pair =>
      obtain ⟨x, y⟩ := pair
      simp only [Except.ok.injEq, Prod.mk.injEq]
      by_cases hz : z < 1
      · rw [if_pos hz]
        simp only [reduceCtorEq, false_iff]
        omega
      · rw [if_neg hz]
        by_cases hrange : ↑lo ≤ x ∧ x ≤ y ∧ y ≤ ↑hi
        · rw [if_neg (not_not.mpr hrange)]
          simp only [Except.ok.injEq, Prod.mk.injEq]
          omega
        · rw [if_pos hrange]
          simp only [reduceCtorEq, false_iff]
          omega

theorem stepOf_some {n : List Char} (h : n ≠ []) {z : ℤ} : stepOf L (String.ofList n) = .ok z ↔ Read L n z := by
  rw [stepOf, if_neg (ofList_eq_empty.not.mpr h), int_ok_iff]

/-- A part is accepted exactly if it is an item in the reading of `int`, in the range. -/
theorem bounds_ok_iff {part : String} {a b k : ℕ} :
    bounds L lo hi part = .ok (a, b, k) ↔ Stands (Read L) lo hi True part a b k := by
  have hpart : part = String.ofList part.toList := String.ofList_toList.symm
  generalize part.toList = p at hpart
  subst hpart
  obtain hp | ⟨t, n, rfl, ht⟩ := cut_cases '/' p
  · rw [bounds_of_partition (n := []) (partition_uncut hp)]
    constructor
    · intro h
      obtain ⟨hstep, hspan, hfirst, hordered, hlast, hk⟩ := h
      have hone : (1 : ℤ) = k := Except.ok.inj hstep
      obtain rfl : k = 1 := by omega
      refine ⟨?_, hfirst, hordered, hlast, hk⟩
      rw [String.toList_ofList]
      exact .plain hp (by simpa using hspan)
    · intro h
      have hitem := h.item
      rw [String.toList_ofList] at hitem
      generalize hk : (k : ℤ) = z at hitem
      cases hitem with
      | plain _ hspan =>
        obtain rfl : k = 1 := by omega
        exact ⟨rfl, by simpa using hspan, h.first, h.ordered, h.last, le_rfl⟩
      | @stepped t n => exact absurd (List.mem_append_right t List.mem_cons_self) hp
      | @bare t => exact absurd (List.mem_append_right t List.mem_cons_self) hp
  · rw [bounds_of_partition (partition_cut ht n)]
    constructor
    · intro h
      obtain ⟨hstep, hspan, hfirst, hordered, hlast, hk⟩ := h
      refine ⟨?_, hfirst, hordered, hlast, hk⟩
      rw [String.toList_ofList]
      by_cases hn : n = []
      · subst hn
        have hone : (1 : ℤ) = k := Except.ok.inj hstep
        obtain rfl : k = 1 := by omega
        exact .bare trivial ht (by simpa using hspan)
      · exact .stepped ht (by simpa [hn] using hspan) hn ((stepOf_some hn).mp hstep)
    · intro h
      have hitem := h.item
      rw [String.toList_ofList] at hitem
      generalize hp : t ++ '/' :: n = p at hitem
      generalize hk : (k : ℤ) = z at hitem
      cases hitem with
      | plain hmem => exact absurd (hp ▸ List.mem_append_right t List.mem_cons_self) hmem
      | @stepped t' n' _ _ _ ht' hspan hne hstep =>
        obtain ⟨rfl, rfl⟩ := cut_unique ht ht' hp
        rw [stepOf_some hne]
        exact ⟨hk ▸ hstep, by simpa [hne] using hspan, h.first, h.ordered, h.last, h.step⟩
      | bare _ ht' hspan =>
        obtain ⟨rfl, rfl⟩ := cut_unique ht ht' hp
        obtain rfl : k = 1 := by omega
        exact ⟨rfl, by simpa using hspan, h.first, h.ordered, h.last, le_rfl⟩

/-- A field is accepted exactly if it is a list of such items. -/
theorem field_accepts_iff {text : String} : (∃ l, field L text lo hi = .ok l) ↔ Lists (Read L) lo hi True text := by
  have hparts : (∃ found, (parts text).mapM (bounds L lo hi) = .ok found) ↔ Lists (Read L) lo hi True text := by
    unfold Lists
    generalize parts text = texts
    induction texts with
    | nil => simp [pure, Except.pure]
    | cons part rest ih =>
      rw [List.forall_mem_cons, ← ih]
      constructor
      · intro h
        obtain ⟨found, h⟩ := h
        rw [List.mapM_cons] at h
        obtain ⟨bound, hbound, h⟩ := ok_of_bind h
        obtain ⟨found', hfound', -⟩ := ok_of_bind h
        obtain ⟨a, b, k⟩ := bound
        exact ⟨⟨a, b, k, bounds_ok_iff.mp hbound⟩, found', hfound'⟩
      · intro h
        obtain ⟨⟨a, b, k, hitem⟩, found, hfound⟩ := h
        refine ⟨(a, b, k) :: found, ?_⟩
        rw [List.mapM_cons, bounds_ok_iff.mpr hitem, hfound]
        rfl
  rw [← hparts]
  constructor
  · intro h
    obtain ⟨l, hl⟩ := h
    obtain ⟨found, hfound, -⟩ := ok_of_bind hl
    exact ⟨found, hfound⟩
  · intro h
    obtain ⟨found, hfound⟩ := h
    exact ⟨_, by rw [field, hfound]; rfl⟩

/-! ## The parser and the documented grammar -/

section Exact

variable (U : IntLiteral.CharData) (repr : String → String) {text : String}

/-- The parser with the language's own `int`. -/
def lib : CronLib where
  int text := IntLiteral.int U text.toList
  repr := repr

/-- Where the field has a number there is a numeral, and it is not too long for `int`. -/
def Plainly (text : String) : Prop :=
  ∀ part ∈ parts text, ∀ n ∈ numbers part.toList, IntLiteral.Plain n ∧ n.length ≤ IntLiteral.maxDigits

theorem read_iff {n : List Char} {z : ℤ} : Read (lib U repr) n z ↔ IntLiteral.int U n = some z := by
  simp [Read, lib]

/-- A plainly written part means the same to the parser and in the grammar. -/
theorem stands_iff {part : String} {a b k : ℕ}
    (h : ∀ n ∈ numbers part.toList, IntLiteral.Plain n ∧ n.length ≤ IntLiteral.maxDigits) :
    Stands (Read (lib U repr)) lo hi True part a b k ↔ Stands Numeral lo hi False part a b k := by
  have hnumber : ∀ n ∈ numbers part.toList, ∀ z, Read (lib U repr) n z ↔ Numeral n z := by
    intro n hn z
    obtain ⟨hplain, hlen⟩ := h n hn
    rw [read_iff, IntLiteral.int_plain_iff U hplain]
    exact ⟨fun hread => ⟨hplain, hread.2⟩, fun hnumeral => ⟨hlen, hnumeral.2⟩⟩
  constructor
  · intro hs
    have hempty : True → [] ∈ numbers part.toList → False := fun _ hmem => absurd rfl (h [] hmem).1.1
    exact ⟨hs.item.mono (fun n hn z => (hnumber n hn z).mp) hempty, hs.first, hs.ordered, hs.last, hs.step⟩
  · intro hs
    exact ⟨hs.item.mono (fun n hn z => (hnumber n hn z).mpr) fun hfalse => hfalse.elim, hs.first, hs.ordered, hs.last,
      hs.step⟩

theorem Stands.plain {part : String} {a b k : ℕ} (h : Stands Numeral lo hi False part a b k) :
    ∀ n ∈ numbers part.toList, IntLiteral.Plain n := by
  intro n hn
  obtain ⟨z, hplain, -⟩ | ⟨hfalse, -⟩ := h.item.numbers n hn
  · exact hplain
  · exact hfalse.elim

theorem plainly_of_accepted (hwritten : Written lo hi text) (hread : Lists (Read (lib U repr)) lo hi True text) :
    Plainly text := by
  intro part hpart n hn
  obtain ⟨a, b, k, hstands⟩ := hwritten part hpart
  obtain ⟨a', b', k', hitem⟩ := hread part hpart
  have hplain := hstands.plain n hn
  obtain ⟨z, hz⟩ | ⟨-, hempty⟩ := hitem.item.numbers n hn
  · exact ⟨hplain, ((IntLiteral.int_plain_iff U hplain z).mp ((read_iff U repr).mp hz)).1⟩
  · exact absurd hempty hplain.1

theorem lists_iff (h : Plainly text) : Lists (Read (lib U repr)) lo hi True text ↔ Written lo hi text :=
  forall₂_congr fun part hpart => exists₃_congr fun _ _ _ => stands_iff U repr (h part hpart)

theorem mem_field_iff (h : Plainly text) {l : List ℕ} (hl : field (lib U repr) text lo hi = .ok l) (v : ℕ) :
    v ∈ l ↔ Denotes lo hi text v := by
  rw [mem_field hl]
  refine exists_congr fun part => and_congr_right fun hpart => exists₃_congr fun a b k => ?_
  rw [bounds_ok_iff, stands_iff U repr (h part hpart)]

/-- The parser accepts what is written as documented, with the set it denotes, and
nothing else, exactly if a field that is so written or that `int` can read is plainly
written. -/
theorem field_exact_iff (text : String) (lo hi : ℕ) :
    ((∀ l, field (lib U repr) text lo hi = .ok l → Written lo hi text ∧ ∀ v, v ∈ l ↔ Denotes lo hi text v) ∧
      (Written lo hi text → ∃ l, field (lib U repr) text lo hi = .ok l)) ↔
    (Lists (Read (lib U repr)) lo hi True text ∨ Written lo hi text → Plainly text) := by
  constructor
  · intro h hor
    obtain ⟨hsound, hcomplete⟩ := h
    have haccepted : ∃ l, field (lib U repr) text lo hi = .ok l := by
      obtain hread | hwritten := hor
      · exact field_accepts_iff.mpr hread
      · exact hcomplete hwritten
    have hread := field_accepts_iff.mp haccepted
    obtain ⟨l, hl⟩ := haccepted
    exact plainly_of_accepted U repr (hsound l hl).1 hread
  · intro h
    constructor
    · intro l hl
      have hread := field_accepts_iff.mp ⟨l, hl⟩
      have hplain := h (.inl hread)
      exact ⟨(lists_iff U repr hplain).mp hread, mem_field_iff U repr hplain hl⟩
    · intro hwritten
      exact field_accepts_iff.mpr ((lists_iff U repr (h (.inr hwritten))).mpr hwritten)

/-- A sign is accepted. -/
theorem sign_accepted : field (lib ⟨fun _ => false, fun _ => none⟩ id) "+5" 0 59 = .ok [5] ∧ ¬Written 0 59 "+5" := by
  refine ⟨by decide, fun hwritten => ?_⟩
  obtain ⟨a, b, k, hstands⟩ := hwritten "+5" (by decide)
  have hplain := hstands.plain "+5".toList (by decide)
  exact absurd (hplain.2 '+' (by decide)) (by decide)

end Exact

end Caips.Harness.Cron
