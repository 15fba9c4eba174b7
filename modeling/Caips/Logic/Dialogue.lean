/-
Caips.Logic.Dialogue — conversations in which results answer calls, and messages
that hold several entries of one.

A format writes a dialogue as entries. An entry that speaks may make calls, each under
a key; a result names the key of the call it answers, and answers the earliest call
with that key that has no answer yet. What the entries mean (`read`) is a list of turns
in which a result points at its call.

* `turns_forget` — where every call is answered at once and in order (`Answered`), the
  keys do not matter. Two formats with different keys then mean the same.
* `grouped_of_built` — where results that follow each other share a message, a message
  holds the results of one turn, and all of them.

Nothing in this file knows what is being verified.
-/
import Mathlib.Data.List.Chain
import Mathlib.Data.List.Infix
import Mathlib.Tactic.Basic

namespace Caips.Logic.Dialogue

variable {K K' S C T : Type}

/-- What a format writes: speech with the calls it makes, or the result of a call. -/
inductive Entry (K S C T : Type) where
  | said (speech : S) (calls : List (K × C))
  | result (key : K) (text : T)
  deriving DecidableEq

/-- What it means. A result points at a call by the number of its turn and its place there. -/
inductive Turn (S C T : Type) where
  | said (speech : S) (calls : List C)
  | result (call : Option (ℕ × ℕ)) (text : T)
  deriving DecidableEq

def Entry.isResult : Entry K S C T → Bool
  | said _ _ => false
  | result _ _ => true

def Turn.isResult : Turn S C T → Bool
  | said _ _ => false
  | result _ _ => true

/-! ## Reading -/

/-- The turns read so far, and the calls without an answer. -/
structure Reading (K S C T : Type) where
  turns : List (Turn S C T) := []
  pending : List (K × ℕ × ℕ) := []

/-- The calls of turn `n`, as they are waited for. -/
def waits (n : ℕ) (calls : List (K × C)) : List (K × ℕ × ℕ) := calls.zipIdx.map fun c => (c.1.1, n, c.2)

def Reading.step [DecidableEq K] (r : Reading K S C T) : Entry K S C T → Reading K S C T
  | .said speech calls =>
    { turns := r.turns ++ [.said speech (calls.map Prod.snd)]
      pending := r.pending ++ waits r.turns.length calls }
  | .result key text =>
    { turns := r.turns ++ [.result ((r.pending.find? fun p => p.1 = key).map Prod.snd) text]
      pending := r.pending.eraseP fun p => p.1 = key }

def readFrom [DecidableEq K] (r : Reading K S C T) (l : List (Entry K S C T)) : Reading K S C T :=
  l.foldl Reading.step r

/-- The turns of a dialogue. -/
def read [DecidableEq K] (l : List (Entry K S C T)) : List (Turn S C T) := (readFrom {} l).turns

/-- From these pending keys on, every call is answered before anything else is said, in order. -/
def Answered : List K → List (Entry K S C T) → Prop
  | [], [] => True
  | _ :: _, [] => False
  | k :: ks, .result key _ :: l => key = k ∧ Answered ks l
  | _ :: _, .said _ _ :: _ => False
  | [], .said _ calls :: l => Answered (calls.map Prod.fst) l
  | [], .result _ _ :: l => Answered [] l

/-- An entry without its keys. -/
def Entry.forget : Entry K S C T → Entry Unit S C T
  | said speech calls => .said speech (calls.map fun c => ((), c.2))
  | result _ text => .result () text

@[simp] theorem map_fst_waits (n : ℕ) (calls : List (K × C)) : (waits n calls).map Prod.fst = calls.map Prod.fst := by
  unfold waits
  rw [List.map_map]
  calc calls.zipIdx.map (Prod.fst ∘ fun c => (c.1.1, n, c.2))
      = (calls.zipIdx.map Prod.fst).map Prod.fst := by rw [List.map_map]; rfl
    _ = calls.map Prod.fst := by rw [List.zipIdx_map_fst]

@[simp] theorem map_snd_waits_forget (n : ℕ) (calls : List (K × C)) :
    (waits n (calls.map fun c => ((), c.2))).map Prod.snd = (waits n calls).map Prod.snd := by
  unfold waits
  rw [List.zipIdx_map, List.map_map, List.map_map, List.map_map]
  rfl

theorem mem_waits {n : ℕ} {calls : List (K × C)} {p : K × ℕ × ℕ} (h : p ∈ waits n calls) : p.2.1 = n := by
  unfold waits at h
  obtain ⟨c, -, rfl⟩ := List.mem_map.mp h
  rfl

variable [DecidableEq K]

theorem step_head (r : Reading K S C T) {p : K × ℕ × ℕ} {ps : List (K × ℕ × ℕ)} (h : r.pending = p :: ps) (text : T) :
    r.step (.result p.1 text) = { turns := r.turns ++ [.result (some p.2) text], pending := ps } := by
  simp [Reading.step, h]

theorem step_stray (r : Reading K S C T) (h : r.pending = []) (key : K) (text : T) :
    r.step (.result key text) = { turns := r.turns ++ [.result none text], pending := [] } := by
  simp [Reading.step, h]

variable {l : List (Entry K S C T)}

/-- Where every call is answered at once, the turns do not depend on the keys. -/
theorem turns_forget : ∀ {r : Reading K S C T} {u : Reading Unit S C T},
    Answered (r.pending.map Prod.fst) l → r.pending.map Prod.snd = u.pending.map Prod.snd → r.turns = u.turns →
      (readFrom r l).turns = (readFrom u (l.map Entry.forget)).turns := by
  induction l with
  | nil => exact fun _ _ h => h
  | cons e l ih =>
    intro r u hanswered hpending hturns
    cases hr : r.pending with
    | nil =>
      rw [hr] at hanswered hpending
      have hu : u.pending = [] := List.map_eq_nil_iff.mp hpending.symm
      cases e with
      | said speech calls =>
        refine ih (r := r.step (.said speech calls)) (u := u.step (Entry.said speech calls).forget) ?_ ?_ ?_
        · simpa [Reading.step, hr, Answered] using hanswered
        · simp [Reading.step, Entry.forget, hr, hu, hturns]
        · simp [Reading.step, Entry.forget, hturns, Function.comp_def]
      | result key text =>
        refine ih (r := r.step (.result key text)) (u := u.step (.result () text)) ?_ ?_ ?_
        · rw [step_stray r hr]
          exact hanswered
        · rw [step_stray r hr, step_stray u hu]
          rfl
        · rw [step_stray r hr, step_stray u hu, hturns]
    | cons p ps =>
      rw [hr] at hanswered hpending
      cases e with
      | said speech calls => exact hanswered.elim
      | result key text =>
        obtain ⟨rfl, hrest⟩ := hanswered
        cases hu : u.pending with
        | nil =>
          rw [hu] at hpending
          cases hpending
        | cons q qs =>
          rw [hu, List.map_cons, List.map_cons, List.cons.injEq] at hpending
          refine ih (r := r.step (.result p.1 text)) (u := u.step (.result q.1 text)) ?_ ?_ ?_
          · rw [step_head r hr]
            exact hrest
          · rw [step_head r hr, step_head u hu]
            exact hpending.2
          · rw [step_head r hr, step_head u hu, hturns, hpending.1]

theorem read_forget (h : Answered [] l) : read l = read (l.map Entry.forget) :=
  turns_forget h rfl rfl

/-! ## Where results stand -/

/-- A result stands behind its turn, with results only in between. -/
def Placed (turns : List (Turn S C T)) (a n : ℕ) : Prop :=
  a < n ∧ (∃ speech calls, turns[a]? = some (.said speech calls)) ∧
    ∀ m, a < m → m < n → ∃ t, turns[m]? = some t ∧ t.isResult = true

/-- Every result that answers a call stands behind the turn of the call. -/
def AllPlaced (turns : List (Turn S C T)) : Prop :=
  ∀ n a c text, turns[n]? = some (.result (some (a, c)) text) → Placed turns a n

variable {turns : List (Turn S C T)} {t : Turn S C T} {messages : List (List (Entry K S C T))}

theorem Placed.append {a n : ℕ} (h : Placed turns a n) (hn : n ≤ turns.length)
    (l : List (Turn S C T)) : Placed (turns ++ l) a n := by
  obtain ⟨hlt, ⟨speech, calls, hsaid⟩, hbetween⟩ := h
  refine ⟨hlt, ⟨speech, calls, ?_⟩, fun m ham hmn => ?_⟩
  · rw [List.getElem?_append_left (by omega)]
    exact hsaid
  · rw [List.getElem?_append_left (by omega)]
    exact hbetween m ham hmn

theorem Placed.next {a : ℕ} (h : Placed turns a turns.length) (call : Option (ℕ × ℕ))
    (text : T) : Placed (turns ++ [.result call text]) a (turns.length + 1) := by
  obtain ⟨hlt, hsaid, hbetween⟩ := h.append le_rfl [.result call text]
  refine ⟨by omega, hsaid, fun m ham hmn => ?_⟩
  by_cases hm : m < turns.length
  · exact hbetween m ham hm
  · have hlast : m = turns.length := by omega
    subst hlast
    exact ⟨_, List.getElem?_concat_length, rfl⟩

theorem AllPlaced.concat (h : AllPlaced turns)
    (ht : ∀ a c text, t = .result (some (a, c)) text → Placed turns a turns.length) : AllPlaced (turns ++ [t]) := by
  intro n a c text hn
  by_cases hlt : n < turns.length
  · rw [List.getElem?_append_left hlt] at hn
    exact (h n a c text hn).append hlt.le _
  · have hlen := (List.getElem?_eq_some_iff.mp hn).1
    have hn' : n = turns.length := by
      rw [List.length_append, List.length_singleton] at hlen
      omega
    subst hn'
    rw [List.getElem?_concat_length, Option.some_inj] at hn
    exact (ht a c text hn).append le_rfl _

/-- The invariant of a reading: results are placed, and so are the answers it waits for. -/
structure Reading.Placing (r : Reading K S C T) : Prop where
  turns : AllPlaced r.turns
  pending : ∀ p ∈ r.pending, Placed r.turns p.2.1 r.turns.length

theorem placing_readFrom : ∀ {r : Reading K S C T},
    Answered (r.pending.map Prod.fst) l → r.Placing → (readFrom r l).Placing := by
  induction l with
  | nil => exact fun _ h => h
  | cons e l ih =>
    intro r hanswered h
    cases hr : r.pending with
    | nil =>
      rw [hr] at hanswered
      cases e with
      | said speech calls =>
        refine ih (r := r.step (.said speech calls)) ?_ ⟨?_, ?_⟩
        · simpa [Reading.step, hr, Answered] using hanswered
        · exact h.turns.concat fun a c text h => nomatch h
        · intro p hp
          simp only [Reading.step, hr, List.nil_append] at hp
          have hturn := mem_waits hp
          refine ⟨?_, ⟨speech, calls.map Prod.snd, ?_⟩, fun m ham hmn => ?_⟩
          · simp [Reading.step, hturn]
          · rw [hturn]
            exact List.getElem?_concat_length
          · simp only [Reading.step, List.length_append, List.length_singleton] at hmn
            omega
      | result key text =>
        refine ih (r := r.step (.result key text)) ?_ ?_
        · rw [step_stray r hr]
          exact hanswered
        · rw [step_stray r hr]
          exact ⟨h.turns.concat fun a c text h => (nomatch h), fun p hp => nomatch hp⟩
    | cons p ps =>
      rw [hr] at hanswered
      cases e with
      | said speech calls => exact hanswered.elim
      | result key text =>
        obtain ⟨rfl, hrest⟩ := hanswered
        have hhead := h.pending p (hr ▸ List.mem_cons_self)
        refine ih (r := r.step (.result p.1 text)) ?_ ?_
        · rw [step_head r hr]
          exact hrest
        · rw [step_head r hr]
          refine ⟨h.turns.concat fun a c text' heq => ?_, fun q hq => ?_⟩
          · obtain ⟨hcall, -⟩ := Turn.result.inj heq
            rw [Option.some_inj.mp hcall] at hhead
            exact hhead
          · have hplaced := (h.pending q (hr ▸ List.mem_cons_of_mem _ hq)).next (some p.2) text
            simpa using hplaced

theorem allPlaced_read (h : Answered [] l) : AllPlaced (read l) :=
  (placing_readFrom h ⟨fun _ _ _ _ hn => (nomatch hn), fun _ hp => nomatch hp⟩ : (readFrom {} l).Placing).turns

theorem isResult_readFrom (l : List (Entry K S C T)) : ∀ r : Reading K S C T,
    (readFrom r l).turns.map Turn.isResult = r.turns.map Turn.isResult ++ l.map Entry.isResult := by
  induction l with
  | nil => exact fun r => (List.append_nil _).symm
  | cons e l ih =>
    intro r
    have hstep : (r.step e).turns.map Turn.isResult = r.turns.map Turn.isResult ++ [e.isResult] := by
      cases e <;> simp [Reading.step, Turn.isResult, Entry.isResult]
    show (readFrom (r.step e) l).turns.map Turn.isResult = _
    rw [ih, hstep, List.map_cons, List.append_assoc]
    rfl

theorem isResult_read (l : List (Entry K S C T)) : (read l).map Turn.isResult = l.map Entry.isResult :=
  isResult_readFrom l {}

/-! ## Messages -/

/-- The entries of messages: the number of the message, and whether it is a result. -/
def marks (messages : List (List (Entry K S C T))) : List (ℕ × Bool) :=
  messages.zipIdx.flatMap fun m => m.1.map fun e => (m.2, e.isResult)

/-- The number of its message, for each entry. -/
def numbers (messages : List (List (Entry K S C T))) : List ℕ := (marks messages).map Prod.fst

/-- All results of one turn are in one message, and results of different turns are not. -/
def Grouped (messages : List (List (Entry K S C T))) : Prop :=
  ∀ (i j a b c d : ℕ) (text text' : T) (k l : ℕ),
    (read messages.flatten)[i]? = some (Turn.result (some (a, c)) text) →
    (read messages.flatten)[j]? = some (Turn.result (some (b, d)) text') →
    (numbers messages)[i]? = some k → (numbers messages)[j]? = some l → (k = l ↔ a = b)

/-- The messages with one more entry: in a message of its own, or, when it is a result, in the
last. A result after a result goes with it. -/
inductive Adds (messages : List (List (Entry K S C T))) (e : Entry K S C T) : List (List (Entry K S C T)) → Prop where
  | fresh (h : e.isResult = true → ∀ x ∈ messages.flatten.getLast?, x.isResult = false) :
      Adds messages e (messages ++ [[e]])
  | join (rest : List (List (Entry K S C T))) (g : List (Entry K S C T)) (hmessages : messages = rest ++ [g])
      (hg : g ≠ []) (h : e.isResult = true) : Adds messages e (rest ++ [g ++ [e]])

/-- Messages made by adding these entries. -/
inductive Built : List (Entry K S C T) → List (List (Entry K S C T)) → Prop where
  | nil : Built [] []
  | add {l : List (Entry K S C T)} {messages messages' : List (List (Entry K S C T))} {e : Entry K S C T}
      (h : Built l messages) (hadd : Adds messages e messages') : Built (l ++ [e]) messages'

section Built

omit [DecidableEq K]

variable {messages messages' : List (List (Entry K S C T))} {l : List (Entry K S C T)}

theorem Adds.flatten {e : Entry K S C T} (h : Adds messages e messages') :
    messages'.flatten = messages.flatten ++ [e] := by
  cases h with
  | fresh _ => simp
  | join rest g hmessages _ _ => simp [hmessages]

theorem Built.flatten (h : Built l messages) : messages.flatten = l := by
  induction h with
  | nil => rfl
  | add _ hadd ih => rw [hadd.flatten, ih]

theorem marks_concat (messages : List (List (Entry K S C T))) (g : List (Entry K S C T)) :
    marks (messages ++ [g]) = marks messages ++ g.map fun e => (messages.length, e.isResult) := by
  simp [marks, List.zipIdx_append]

theorem map_snd_marks (messages : List (List (Entry K S C T))) :
    (marks messages).map Prod.snd = messages.flatten.map Entry.isResult := by
  induction messages using List.reverseRecOn with
  | nil => rfl
  | append_singleton messages g ih => simp [marks_concat, ih]

/-- How two entries in a row stand in their messages: what is said opens a message, and a result
after a result stays in it. -/
def Tied (x y : ℕ × Bool) : Prop :=
  x.1 ≤ y.1 ∧ (y.2 = false → x.1 < y.1) ∧ (x.2 = true → y.2 = true → x.1 = y.1)

/-- The invariant of messages that are built: the last entry is in the last message. -/
structure Tidy (messages : List (List (Entry K S C T))) : Prop where
  chain : (marks messages).IsChain Tied
  last : ∀ x ∈ (marks messages).getLast?, x.1 + 1 = messages.length

theorem Adds.tidy {e : Entry K S C T} (hadd : Adds messages e messages') (h : Tidy messages) : Tidy messages' := by
  cases hadd with
  | fresh hfresh =>
    have hmarks := marks_concat messages [e]
    refine ⟨?_, ?_⟩
    · rw [hmarks]
      refine h.chain.append (List.isChain_singleton _) fun x hx y hy => ?_
      obtain rfl : (messages.length, e.isResult) = y := by simpa using hy
      have hlast := h.last x hx
      refine ⟨by dsimp only; omega, fun _ => by dsimp only; omega, fun hresult he => ?_⟩
      have hkind : x.2 ∈ (messages.flatten.map Entry.isResult).getLast? := by
        rw [← map_snd_marks, List.getLast?_map]
        exact Option.mem_map_of_mem _ hx
      rw [List.getLast?_map] at hkind
      obtain ⟨y, hy, hyx⟩ := Option.map_eq_some_iff.mp hkind
      rw [← hyx, hfresh he y hy] at hresult
      cases hresult
    · rw [hmarks]
      simp
  | join rest g hmessages hg he =>
    subst hmessages
    have hmarks : marks (rest ++ [g ++ [e]]) = marks (rest ++ [g]) ++ [(rest.length, true)] := by
      simp [marks_concat, he]
    refine ⟨?_, ?_⟩
    · rw [hmarks]
      refine h.chain.append (List.isChain_singleton _) fun x hx y hy => ?_
      obtain rfl : (rest.length, true) = y := by simpa using hy
      have hlast := h.last x hx
      rw [List.length_append, List.length_singleton] at hlast
      exact ⟨by dsimp only; omega, fun h => (nomatch h), fun _ _ => by dsimp only; omega⟩
    · rw [hmarks]
      simp

theorem Built.tidy (h : Built l messages) : Tidy messages := by
  induction h with
  | nil => exact ⟨List.isChain_nil, fun x hx => nomatch hx⟩
  | add _ hadd ih => exact hadd.tidy ih

theorem Tidy.mono (h : Tidy messages) {i j : ℕ} {x y : ℕ × Bool} (hij : i ≤ j) (hx : (marks messages)[i]? = some x)
    (hy : (marks messages)[j]? = some y) : x.1 ≤ y.1 := by
  induction j, hij using Nat.le_induction generalizing y with
  | base =>
    obtain rfl := Option.some.inj (hx.symm.trans hy)
    exact le_rfl
  | succ j hij ih =>
    obtain ⟨hlt, rfl⟩ := List.getElem?_eq_some_iff.mp hy
    have htied := List.isChain_iff_getElem.mp h.chain j hlt
    exact (ih (List.getElem?_eq_getElem (by omega))).trans htied.1

/-- Results in a row are in one message. -/
theorem Tidy.same (h : Tidy messages) {i j : ℕ} {x y : ℕ × Bool} (hij : i ≤ j) (hx : (marks messages)[i]? = some x)
    (hy : (marks messages)[j]? = some y)
    (hresults : ∀ n z, i ≤ n → n ≤ j → (marks messages)[n]? = some z → z.2 = true) : x.1 = y.1 := by
  induction j, hij using Nat.le_induction generalizing y with
  | base =>
    obtain rfl := Option.some.inj (hx.symm.trans hy)
    rfl
  | succ j hij ih =>
    obtain ⟨hlt, rfl⟩ := List.getElem?_eq_some_iff.mp hy
    have htied := List.isChain_iff_getElem.mp h.chain j hlt
    have hprev : (marks messages)[j]? = some (marks messages)[j] := List.getElem?_eq_getElem (by omega)
    rw [ih hprev fun n z hin hnj => hresults n z hin (by omega)]
    exact htied.2.2 (hresults j _ hij (by omega) hprev) (hresults (j + 1) _ (by omega) le_rfl hy)

theorem Tidy.lt (h : Tidy messages) {i n j : ℕ} {x z y : ℕ × Bool} (hin : i < n) (hnj : n ≤ j)
    (hx : (marks messages)[i]? = some x) (hz : (marks messages)[n]? = some z) (hsaid : z.2 = false)
    (hy : (marks messages)[j]? = some y) : x.1 < y.1 := by
  obtain ⟨m, rfl⟩ : ∃ m, n = m + 1 := ⟨n - 1, by omega⟩
  obtain ⟨hlt, rfl⟩ := List.getElem?_eq_some_iff.mp hz
  have hprev : (marks messages)[m]? = some (marks messages)[m] := List.getElem?_eq_getElem (by omega)
  have htied := List.isChain_iff_getElem.mp h.chain m hlt
  exact lt_of_le_of_lt (h.mono (by omega) hx hprev) (lt_of_lt_of_le (htied.2.1 hsaid) (h.mono hnj hz hy))

end Built

theorem mark_of_turn {n : ℕ}
    (ht : (read messages.flatten)[n]? = some t) : ∃ x, (marks messages)[n]? = some x ∧ x.2 = t.isResult := by
  have hkind : ((marks messages).map Prod.snd)[n]? = some t.isResult := by
    rw [map_snd_marks, ← isResult_read, List.getElem?_map, ht]
    rfl
  rw [List.getElem?_map] at hkind
  obtain ⟨x, hx, hxt⟩ := Option.map_eq_some_iff.mp hkind
  exact ⟨x, hx, hxt⟩

theorem marks_of_read {n k : ℕ}
    (ht : (read messages.flatten)[n]? = some t) (hk : (numbers messages)[n]? = some k) :
    (marks messages)[n]? = some (k, t.isResult) := by
  obtain ⟨x, hx, hxt⟩ := mark_of_turn ht
  unfold numbers at hk
  rw [List.getElem?_map, hx] at hk
  rw [hx, ← hxt, ← Option.some.inj hk]

/-- **Messages that are built group the results by turn.** -/
theorem grouped_of_built (h : Built l messages)
    (hanswered : Answered [] l) : Grouped messages := by
  have hplaced := allPlaced_read hanswered
  rw [← h.flatten] at hplaced
  have htidy := h.tidy
  -- of two results the later one is looked at: its turn is before both, or between them
  suffices hle : ∀ (i j a b c d : ℕ) (text text' : T) (k l : ℕ), i ≤ j →
      (read messages.flatten)[i]? = some (Turn.result (some (a, c)) text) →
      (read messages.flatten)[j]? = some (Turn.result (some (b, d)) text') →
      (numbers messages)[i]? = some k → (numbers messages)[j]? = some l → (k = l ↔ a = b) by
    intro i j a b c d text text' k l hi hj hk hl
    rcases le_total i j with hij | hji
    · exact hle i j a b c d text text' k l hij hi hj hk hl
    · rw [eq_comm, hle j i b a d c text' text l k hji hj hi hl hk, eq_comm]
  intro i j a b c d text text' k l hij hi hj hk hl
  have hki := marks_of_read hi hk
  have hlj := marks_of_read hj hl
  obtain ⟨hai, ⟨speech, calls, ha⟩, hbetweenA⟩ := hplaced i a c text hi
  obtain ⟨hbj, ⟨speech', calls', hb⟩, hbetweenB⟩ := hplaced j b d text' hj
  obtain ⟨xb, hxb, hsaidB⟩ := mark_of_turn hb
  by_cases hbi : i < b
  · -- a turn in between: another message, and another turn
    have hlt := htidy.lt hbi hbj.le hki hxb hsaidB hlj
    constructor
    · intro heq
      dsimp only at hlt
      omega
    · rintro rfl
      omega
  · have hab : a = b := by
      have hbi' : b ≠ i := by
        rintro rfl
        exact nomatch hi.symm.trans hb
      rcases Nat.lt_trichotomy a b with hlt | heq | hgt
      · obtain ⟨t, ht, hresult⟩ := hbetweenA b hlt (by omega)
        obtain rfl := Option.some.inj (hb.symm.trans ht)
        cases hresult
      · exact heq
      · obtain ⟨t, ht, hresult⟩ := hbetweenB a hgt (by omega)
        obtain rfl := Option.some.inj (ha.symm.trans ht)
        cases hresult
    refine ⟨fun _ => hab, fun _ => ?_⟩
    refine htidy.same hij hki hlj fun n z hin hnj hz => ?_
    obtain rfl | hlt := Nat.eq_or_lt_of_le hnj
    · obtain rfl := Option.some.inj (hlj.symm.trans hz)
      rfl
    · obtain ⟨t, ht, hresult⟩ := hbetweenB n (by omega) hlt
      obtain ⟨x, hx, hxt⟩ := mark_of_turn ht
      obtain rfl := Option.some.inj (hx.symm.trans hz)
      rw [hxt, hresult]

end Caips.Logic.Dialogue
