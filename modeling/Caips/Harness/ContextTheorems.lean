/-
Caips.Harness.ContextTheorems — what compaction keeps of a conversation.

A history is a first user message and then turns: a message on its own, or an
assistant message with tool calls and the tool messages that answer them
(`Turns`). Compaction cuts such a history between two turns only
(`compact_cases`), so what it returns is one again (`compaction_keeps`). It does
not stop at the recent messages (`recent_kept`), and the room it leaves for the
note is a fixed one (`note_fits`).
-/
import Caips.Harness.Context
import Caips.Providers.BaseTheorems
import Mathlib.Algebra.Order.BigOperators.Group.List
import Mathlib.Algebra.Order.Ring.Nat
import Mathlib.Data.List.Forall2
import Mathlib.Tactic.Tauto

namespace Caips.Harness.Context

open Caips.Coreai Caips.Providers

/-! ## Turns -/

/-- A message that asks for tools. -/
def asks (m : Message) : Prop := m.role = "assistant" ∧ nonempty m.toolCalls = true

instance (m : Message) : Decidable (asks m) := inferInstanceAs (Decidable (_ ∧ _))

/-- The answers to tool calls: one tool message for each, in any order. -/
def Answers (calls : List ToolCall) (answers : List Message) : Prop :=
  (∀ m ∈ answers, m.role = "tool") ∧ (answers.map (·.toolCallId)).Perm (calls.map fun c => some c.id)

/-- Messages in turns: each message that asks for tools is directly followed by
the answers, and there are no other tool messages. -/
inductive Turns : List Message → Prop where
  | nil : Turns []
  | plain {m : Message} {rest : List Message} : m.role ≠ "tool" → ¬asks m → Turns rest → Turns (m :: rest)
  | calls {m : Message} {answers rest : List Message} : asks m → Answers (m.toolCalls.getD []) answers → Turns rest →
      Turns (m :: (answers ++ rest))

/-- A history: the task, and turns. -/
def History (messages : List Message) : Prop :=
  ∃ task rest, messages = task :: rest ∧ task.role = "user" ∧ Turns rest

/-- No turn starts with a tool message. -/
def Heads (l : List Message) : Prop := ∀ m ∈ l.head?, m.role ≠ "tool"

theorem Turns.heads {l : List Message} (h : Turns l) : Heads l := by
  intro m hm
  cases h with
  | nil => exact nomatch hm
  | plain hrole _ _ =>
    obtain rfl := Option.some.inj hm
    exact hrole
  | calls hasks _ _ =>
    obtain rfl := Option.some.inj hm
    rw [hasks.1]
    decide

/-- A part that starts where a turn may start is in turns. -/
theorem Turns.of_append {a b : List Message} (h : Turns (a ++ b)) (hb : Heads b) : Turns b := by
  generalize hl : a ++ b = l at h
  induction h generalizing a with
  | nil =>
    obtain ⟨-, rfl⟩ := List.append_eq_nil_iff.mp hl
    exact .nil
  | @plain m rest hrole hasks hrest ih =>
    cases a with
    | nil =>
      obtain rfl : b = m :: rest := hl
      exact .plain hrole hasks hrest
    | cons x a => exact ih (List.cons.inj hl).2
  | @calls m answers rest hasks hanswers hrest ih =>
    cases a with
    | nil =>
      obtain rfl : b = m :: (answers ++ rest) := hl
      exact .calls hasks hanswers hrest
    | cons x a =>
      -- the part cannot start within the answers
      obtain ⟨-, hl⟩ := List.cons.inj hl
      obtain ⟨c, hc, rfl⟩ | ⟨c, -, rfl⟩ := List.append_eq_append_iff.mp hl
      · cases c with
        | nil => exact hrest
        | cons y c =>
          have hy : y ∈ answers := by simp [hc]
          exact absurd (hanswers.1 y hy) (hb y rfl)
      · exact ih rfl

/-- What compaction leaves of a message whose text it shortens. -/
def shape (m : Message) : String × Option (List ToolCall) × Option String := (m.role, m.toolCalls, m.toolCallId)

theorem shape_shrink (m : Message) : shape (shrink m) = shape m := by
  unfold shrink
  split
  · rfl
  · rfl

theorem Answers.alike {calls : List ToolCall} {answers answers' : List Message} (h : Answers calls answers)
    (hshape : answers'.map shape = answers.map shape) : Answers calls answers' := by
  have hroles : answers'.map (·.role) = answers.map (·.role) := by
    have h := congrArg (List.map (·.1)) hshape
    simpa only [List.map_map, Function.comp_def, shape] using h
  have hids : answers'.map (·.toolCallId) = answers.map (·.toolCallId) := by
    have h := congrArg (List.map (·.2.2)) hshape
    simpa only [List.map_map, Function.comp_def, shape] using h
  refine ⟨fun m hm => ?_, hids ▸ h.2⟩
  have hrole : m.role ∈ answers.map (·.role) := hroles ▸ List.mem_map_of_mem hm
  obtain ⟨x, hx, heq⟩ := List.mem_map.mp hrole
  exact heq.symm.trans (h.1 x hx)

/-- Turns stay turns where texts are shortened. -/
theorem Turns.alike {l l' : List Message} (h : Turns l) (hshape : l'.map shape = l.map shape) : Turns l' := by
  induction h generalizing l' with
  | nil =>
    obtain rfl := List.map_eq_nil_iff.mp hshape
    exact .nil
  | @plain m rest hrole hasks hrest ih =>
    obtain ⟨m', rest', rfl, hm, hrest'⟩ := List.map_eq_cons_iff.mp hshape
    obtain ⟨hrole', hcalls', -⟩ : m'.role = m.role ∧ m'.toolCalls = m.toolCalls ∧ _ := by simpa [shape] using hm
    refine .plain (hrole' ▸ hrole) ?_ (ih hrest')
    rwa [asks, hrole', hcalls']
  | @calls m answers rest hasks hanswers hrest ih =>
    obtain ⟨m', tail, rfl, hm, htail⟩ := List.map_eq_cons_iff.mp hshape
    rw [List.map_append] at htail
    obtain ⟨answers', rest', rfl, hanswers', hrest'⟩ := List.map_eq_append_iff.mp htail
    obtain ⟨hrole', hcalls', -⟩ : m'.role = m.role ∧ m'.toolCalls = m.toolCalls ∧ _ := by simpa [shape] using hm
    refine .calls ?_ (hcalls' ▸ hanswers.alike hanswers') (ih hrest')
    rwa [asks, hrole', hcalls']

/-! ## Dropping turns -/

theorem addToTurns_flatten (ts : List (List Message)) (m : Message) : (addToTurns ts m).flatten = ts.flatten ++ [m] := by
  unfold addToTurns
  split
  · rename_i h
    obtain ⟨ts, t, rfl⟩ := (List.eq_nil_or_concat ts).resolve_left h.2
    simp
  · simp

theorem turns_flatten (l : List Message) : (turns l).flatten = l := by
  have hfold : ∀ ts : List (List Message), (l.foldl addToTurns ts).flatten = ts.flatten ++ l := by
    induction l with
    | nil => simp
    | cons m l ih => simp [ih, addToTurns_flatten]
  simpa [turns] using hfold []

/-- A turn: a message that is no tool message, and tool messages. -/
def IsTurn (t : List Message) : Prop := ∃ m answers, t = m :: answers ∧ m.role ≠ "tool" ∧ ∀ a ∈ answers, a.role = "tool"

variable {ts : List (List Message)} {rest : List Message} {maxTokens keepRecent : ℤ} {estimate : String → ℕ}
  {system : String} {task : Message}

theorem IsTurn.addToTurns (h : ∀ t ∈ ts, IsTurn t) {m : Message} (hm : m.role = "tool" → ts ≠ []) :
    ∀ t ∈ addToTurns ts m, IsTurn t := by
  unfold Context.addToTurns
  split
  · rename_i htool
    obtain ⟨ts, t, rfl⟩ := (List.eq_nil_or_concat ts).resolve_left htool.2
    intro u hu
    simp only [List.concat_eq_append, List.dropLast_concat, List.getLastD_concat, List.mem_append, List.mem_singleton] at hu h
    obtain hu | rfl := hu
    · exact h u (.inl hu)
    · obtain ⟨x, answers, rfl, hx, hanswers⟩ := h t (.inr rfl)
      refine ⟨x, answers ++ [m], rfl, hx, fun a ha => ?_⟩
      obtain ha | ha := List.mem_append.mp ha
      · exact hanswers a ha
      · rw [List.mem_singleton.mp ha]
        exact htool.1
  · rename_i hplain
    intro u hu
    obtain hu | hu := List.mem_append.mp hu
    · exact h u hu
    · rw [List.mem_singleton.mp hu]
      refine ⟨m, [], rfl, fun htool => hplain ⟨htool, hm htool⟩, by simp⟩

/-- Every turn is one, where the first message is no tool message. -/
theorem isTurn_of_mem_turns {l : List Message} (hl : Heads l) : ∀ t ∈ turns l, IsTurn t := by
  have hfold : ∀ (l : List Message) (ts : List (List Message)), (∀ t ∈ ts, IsTurn t) → (ts = [] → Heads l) →
      ∀ t ∈ l.foldl addToTurns ts, IsTurn t := by
    intro l
    induction l with
    | nil => exact fun _ h _ => h
    | cons m l ih =>
      intro ts hts hl
      refine ih _ (IsTurn.addToTurns hts fun htool hts => hl hts m rfl htool) fun hnil => ?_
      have hm := addToTurns_flatten ts m
      simp [hnil] at hm
  exact hfold l [] (by simp) fun _ => hl

/-- Putting a turn together again, after others. -/
theorem foldl_addToTurns_turn {t : List Message} (ht : IsTurn t) (ts : List (List Message)) :
    t.foldl addToTurns ts = ts ++ [t] := by
  obtain ⟨m, answers, rfl, hm, hanswers⟩ := ht
  have hfirst : addToTurns ts m = ts ++ [[m]] := if_neg fun h => hm h.1
  rw [List.foldl_cons, hfirst]
  have hfold : ∀ (t : List Message), answers.foldl addToTurns (ts ++ [t]) = ts ++ [t ++ answers] := by
    induction answers with
    | nil => simp
    | cons a answers ih =>
      intro t
      have hstep : addToTurns (ts ++ [t]) a = ts ++ [t ++ [a]] := by
        rw [addToTurns, if_pos ⟨hanswers a (List.mem_cons_self ..), by simp⟩]
        simp
      rw [List.foldl_cons, hstep, ih fun a ha => hanswers a (List.mem_cons_of_mem _ ha)]
      simp
  exact hfold [m]

theorem turns_of_flatten (hts : ∀ t ∈ ts, IsTurn t) : turns ts.flatten = ts := by
  have hfold : ∀ us : List (List Message), ts.flatten.foldl addToTurns us = us ++ ts := by
    induction ts with
    | nil => simp
    | cons t ts ih =>
      intro us
      rw [List.flatten_cons, List.foldl_append, foldl_addToTurns_turn (hts t (List.mem_cons_self ..)),
        ih fun t ht => hts t (List.mem_cons_of_mem _ ht)]
      simp
  exact hfold []

theorem heads_flatten (h : ∀ t ∈ ts, IsTurn t) : Heads ts.flatten := by
  cases ts with
  | nil => exact fun m hm => nomatch hm
  | cons t ts =>
    obtain ⟨m, answers, rfl, hm, -⟩ := h t (List.mem_cons_self ..)
    intro x hx
    obtain rfl := Option.some.inj hx
    exact hm

theorem flatten_ne_nil (hts : ts ≠ []) (h : ∀ t ∈ ts, IsTurn t) : ts.flatten ≠ [] := by
  obtain ⟨t, ts, rfl⟩ := List.exists_cons_of_ne_nil hts
  obtain ⟨m, answers, rfl, -⟩ := h t (List.mem_cons_self ..)
  simp

/-- What is dropped: turns from the front, each while there were too many tokens; at
least one turn is left, and if there are more, there are few enough tokens. -/
structure Dropped (tooMany : List (List Message) → Bool) (ts : List (List Message)) (dropped : List Message)
    (left : List (List Message)) (front : List (List Message)) : Prop where
  split : ts = front ++ left
  dropped : dropped = front.flatten
  remains : front ≠ [] → left ≠ []
  stop : left.length ≤ 1 ∨ tooMany left = false
  drop : ∀ b c, front = b ++ c → c ≠ [] → tooMany (c ++ left) = true

theorem dropTurns_cases (tooMany : List (List Message) → Bool) (keepRecent : ℤ) (hts : ∀ t ∈ ts, IsTurn t) :
    ∃ front, Dropped tooMany ts (dropTurns tooMany keepRecent ts).1 (dropTurns tooMany keepRecent ts).2 front := by
  induction ts with
  | nil => exact ⟨[], rfl, rfl, fun h => absurd rfl h, .inl (Nat.zero_le _), by simp⟩
  | cons t ts ih =>
    cases ts with
    | nil => exact ⟨[], rfl, rfl, fun h => absurd rfl h, .inl (le_refl _), by simp⟩
    | cons u rest =>
      have hsize : ((u :: rest).flatten.length : ℤ) ≥ min keepRecent 1 := by
        obtain ⟨m, answers, rfl, -⟩ := hts u (by simp)
        simp only [List.flatten_cons, List.length_append, List.length_cons]
        push_cast
        omega
      by_cases hover : tooMany (t :: u :: rest) = true
      · obtain ⟨front, h⟩ := ih fun t ht => hts t (List.mem_cons_of_mem _ ht)
        have heq : dropTurns tooMany keepRecent (t :: u :: rest) =
            (t ++ (dropTurns tooMany keepRecent (u :: rest)).1, (dropTurns tooMany keepRecent (u :: rest)).2) := by
          rw [dropTurns, if_pos ⟨hsize, hover⟩]
        rw [heq]
        refine ⟨t :: front, by simp [← h.split], by simp [h.dropped], fun _ hnil => ?_, h.stop, fun b c hbc hc => ?_⟩
        · have hfront : front = [] := by
            by_contra hne
            exact h.remains hne hnil
          have hsplit := h.split
          simp only [hfront] at hsplit
          exact absurd (hsplit.trans hnil) (by simp)
        · cases b with
          | nil =>
            obtain rfl : t :: front = c := hbc
            rw [List.cons_append, ← h.split]
            exact hover
          | cons x b => exact h.drop b c (List.cons.inj hbc).2 hc
      · have heq : dropTurns tooMany keepRecent (t :: u :: rest) = ([], t :: u :: rest) := by
          rw [dropTurns, if_neg fun h => hover h.2]
        rw [heq]
        exact ⟨[], rfl, rfl, fun h => absurd rfl h, .inr (by simpa using hover), by simp⟩

/-! ## Compaction -/

section Compact

variable {estimate : String → ℕ} {task : Message} {rest : List Message} {system : String} {maxTokens keepRecent : ℤ} {o : Outcome}

/-- The messages after the task, with the outputs shortened that are not recent. -/
def shortened (keepRecent : ℤ) (rest : List Message) : List Message :=
  (rest.take (rest.length - keepRecent.toNat)).map shrink ++ rest.drop (rest.length - keepRecent.toNat)

theorem shape_shortened (keepRecent : ℤ) (rest : List Message) : (shortened keepRecent rest).map shape = rest.map shape := by
  have hshape : shape ∘ shrink = shape := funext shape_shrink
  rw [shortened, List.map_append, List.map_map, hshape, ← List.map_append, List.take_append_drop]

theorem length_shortened (keepRecent : ℤ) (rest : List Message) : (shortened keepRecent rest).length = rest.length := by
  have h := congrArg List.length (shape_shortened keepRecent rest)
  simpa only [List.length_map] using h

/-- The turns that are dropped, and those that are left. -/
def dropOld (estimate : String → ℕ) (task : Message) (system : String) (maxTokens keepRecent : ℤ) (rest : List Message) :
    List Message × List (List Message) :=
  dropTurns (isOver estimate [task] system maxTokens) keepRecent (turns (shortened keepRecent rest))

theorem compact_cons (estimate : String → ℕ) (task : Message) (rest : List Message) (system : String) (maxTokens keepRecent : ℤ) :
    compact estimate (task :: rest) system maxTokens keepRecent =
      if (count estimate (task :: rest) system : ℤ) ≤ maxTokens then .ok .unchanged
      else if keepRecent < 0 then .error "list index out of range"
      else if (count estimate (task :: shortened keepRecent rest) system : ℤ) ≤ maxTokens then
        .ok (.shrunk (task :: shortened keepRecent rest))
      else if (dropOld estimate task system maxTokens keepRecent rest).1.isEmpty then
        .ok (.shrunk (task :: (dropOld estimate task system maxTokens keepRecent rest).2.flatten.dropWhile (·.role = "tool")))
      else .ok (.condensed [task] (dropOld estimate task system maxTokens keepRecent rest).1
        (dropOld estimate task system maxTokens keepRecent rest).2.flatten) := rfl

theorem dropWhile_of_heads {l : List Message} (h : Heads l) : l.dropWhile (·.role = "tool") = l := by
  cases l with
  | nil => rfl
  | cons m l => simp [h m rfl]

/-- What compaction comes to, for a history. -/
theorem compact_cases (h : compact estimate (task :: rest) system maxTokens keepRecent = .ok o) (hrest : Turns rest) :
    (o = .unchanged ∧ (count estimate (task :: rest) system : ℤ) ≤ maxTokens) ∨
    o = .shrunk (task :: shortened keepRecent rest) ∨
    ∃ front left, o = .condensed [task] front.flatten left.flatten ∧ front ≠ [] ∧
      maxTokens < count estimate (task :: rest) system ∧ maxTokens < count estimate (task :: shortened keepRecent rest) system ∧
      Dropped (isOver estimate [task] system maxTokens) (turns (shortened keepRecent rest)) front.flatten left front := by
  have hturns : Turns (shortened keepRecent rest) := hrest.alike (shape_shortened keepRecent rest)
  obtain ⟨front, hdropped⟩ :=
    dropTurns_cases (isOver estimate [task] system maxTokens) keepRecent (isTurn_of_mem_turns hturns.heads)
  rw [compact_cons] at h
  change Dropped _ _ (dropOld estimate task system maxTokens keepRecent rest).1
    (dropOld estimate task system maxTokens keepRecent rest).2 front at hdropped
  generalize dropOld estimate task system maxTokens keepRecent rest = result at h hdropped
  obtain ⟨dropped, left⟩ := result
  dsimp only at h hdropped
  obtain rfl : dropped = front.flatten := hdropped.dropped
  split_ifs at h with hfits hnegative hshort hempty
  · exact .inl ⟨(Except.ok.inj h).symm, hfits⟩
  · exact .inr (.inl (Except.ok.inj h).symm)
  · have hleft : left.flatten = shortened keepRecent rest := by
      rw [← turns_flatten (shortened keepRecent rest), hdropped.split, List.flatten_append, List.isEmpty_iff.mp hempty,
        List.nil_append]
    refine .inr (.inl ?_)
    rw [← Except.ok.inj h, hleft, dropWhile_of_heads hturns.heads]
  · refine .inr (.inr ⟨front, left, (Except.ok.inj h).symm, ?_, Int.not_le.mp hfits, Int.not_le.mp hshort, hdropped⟩)
    rintro rfl
    exact hempty rfl

/-- The messages after the task, as compaction leaves them: those in front are dropped, of
those that are not recent the outputs are shortened. -/
structure Kept (keepRecent : ℤ) (rest dropped kept : List Message) : Prop where
  parts : ∃ old recent, rest = dropped ++ (old ++ recent) ∧ kept = old.map shrink ++ recent ∧
    (old ≠ [] → recent.length = keepRecent.toNat)

/-- A part of the shortened messages from some place on. -/
theorem kept_of_append {front left : List Message} (h : front ++ left = shortened keepRecent rest) :
    ∃ dropped, dropped.length = front.length ∧ Kept keepRecent rest dropped left := by
  have hsplit := (List.take_append_drop (rest.length - keepRecent.toNat) rest).symm
  have hlength : rest.take (rest.length - keepRecent.toNat) ≠ [] →
      (rest.drop (rest.length - keepRecent.toNat)).length = keepRecent.toNat := by
    intro hne
    have hpos : 0 < (rest.take (rest.length - keepRecent.toNat)).length := List.length_pos_iff.mpr hne
    rw [List.length_take] at hpos
    rw [List.length_drop]
    omega
  rw [shortened] at h
  generalize rest.take (rest.length - keepRecent.toNat) = first at h hsplit hlength
  generalize rest.drop (rest.length - keepRecent.toNat) = recent at h hsplit hlength
  obtain ⟨c, hc, rfl⟩ | ⟨c, rfl, rfl⟩ := List.append_eq_append_iff.mp h
  · -- the part starts among the shortened ones
    obtain ⟨gone, old, rfl, rfl, rfl⟩ := List.map_eq_append_iff.mp hc
    refine ⟨gone, by simp, ⟨old, recent, by rw [hsplit, List.append_assoc], rfl, fun hold => hlength (by simp [hold])⟩⟩
  · exact ⟨first ++ c, by simp, ⟨[], left, by simp [hsplit], rfl, fun h => absurd rfl h⟩⟩

theorem Kept.shape {dropped kept : List Message} (h : Kept keepRecent rest dropped kept) :
    ∃ l, rest = dropped ++ l ∧ kept.map shape = l.map shape := by
  obtain ⟨old, recent, hrest, rfl, -⟩ := h.parts
  have hshape : Context.shape ∘ shrink = Context.shape := funext shape_shrink
  exact ⟨old ++ recent, hrest, by rw [List.map_append, List.map_map, hshape, List.map_append]⟩

theorem turnsOf_shape (l : List Message) : (turnsOf l).map shape = (l.map shape).filter fun x => x.1 ≠ "system" := by
  rw [List.filter_map]
  rfl

theorem getLast?_turnsOf_append (a b : List Message) :
    (turnsOf (a ++ b)).getLast? = (turnsOf b).getLast?.or (turnsOf a).getLast? := by
  simp only [turnsOf, List.filter_append, List.getLast?_append]

/-- The parts of an accepted history are accepted, with a note of the user's between them. -/
theorem valid_of_kept {dropped note kept : List Message} (htask : task.role = "user") (hkept : Kept keepRecent rest dropped kept)
    (hnote : ∀ m ∈ note, m.role = "user") (h : Valid (task :: rest)) : Valid (task :: (note ++ kept)) := by
  obtain ⟨l, rfl, hshape⟩ := hkept.shape
  have hlike : ∀ m ∈ kept, ∃ x ∈ l, x.role = m.role ∧ x.toolCallId = m.toolCallId := by
    intro m hm
    have hmem : shape m ∈ l.map shape := hshape ▸ List.mem_map_of_mem hm
    obtain ⟨x, hx, heq⟩ := List.mem_map.mp hmem
    simp only [shape, Prod.mk.injEq] at heq
    exact ⟨x, hx, heq.1, heq.2.2⟩
  have hfirst : ∀ l, (turnsOf (task :: l)).head? = some task := by
    intro l
    simp [turnsOf, htask]
  refine ⟨?_, ⟨task, hfirst _, htask⟩, ?_, ?_⟩
  · intro m hm
    simp only [List.mem_cons, List.mem_append] at hm
    obtain rfl | hm | hm := hm
    · exact h.roles _ (List.mem_cons_self ..)
    · rw [hnote m hm]
      decide
    · obtain ⟨x, hx, hrole, -⟩ := hlike m hm
      exact hrole ▸ h.roles x (by simp [hx])
  · have hlast : (turnsOf kept).getLast?.map shape = (turnsOf l).getLast?.map shape := by
      rw [← List.getLast?_map, ← List.getLast?_map, turnsOf_shape, turnsOf_shape, hshape]
    rw [← List.cons_append, getLast?_turnsOf_append]
    cases hk : (turnsOf kept).getLast? with
    | some m =>
      obtain ⟨x, hx, heq⟩ : ∃ x, (turnsOf l).getLast? = some x ∧ shape x = shape m := by
        rw [hk] at hlast
        exact Option.map_eq_some_iff.mp hlast.symm
      obtain ⟨y, hy, hend⟩ := h.last
      rw [← List.cons_append, getLast?_turnsOf_append, hx, Option.some_or] at hy
      obtain rfl := Option.some.inj hy
      simp only [shape, Prod.mk.injEq] at heq
      exact ⟨m, rfl, heq.1 ▸ hend⟩
    | none =>
      -- only the task and the note are left, and they are the user's
      have hne : turnsOf (task :: note) ≠ [] := by simp [turnsOf, htask]
      obtain ⟨m, hm⟩ := Option.ne_none_iff_exists'.mp (mt List.getLast?_eq_none_iff.mp hne)
      refine ⟨m, hm, .inl ?_⟩
      have hmem : m ∈ task :: note := List.mem_of_mem_filter (List.mem_of_getLast? hm)
      obtain rfl | hmem := List.mem_cons.mp hmem
      · exact htask
      · exact hnote m hmem
  · intro m hm htool
    simp only [List.mem_cons, List.mem_append] at hm
    obtain rfl | hm | hm := hm
    · exact h.ids _ (List.mem_cons_self ..) htool
    · rw [hnote m hm] at htool
      exact absurd htool (by decide)
    · obtain ⟨x, hx, hrole, hid⟩ := hlike m hm
      exact hid ▸ h.ids x (by simp [hx]) (hrole.trans htool)

/-- What compaction makes of a history: the task stays in front, messages after it are dropped
from the front, and a note takes their place; of the others only old tool outputs are
changed, to a shorter text. The result is a history, and one that was accepted still is. -/
structure Compacted (keepRecent : ℤ) (messages out : List Message) : Prop where
  parts : ∃ task rest dropped note kept, messages = task :: rest ∧ out = task :: (note ++ kept) ∧
    Kept keepRecent rest dropped kept ∧ (dropped = [] ∧ note = [] ∨ dropped ≠ [] ∧ ∃ text, note = [noteMessage text])
  history : History out
  valid : validateConversation messages = .ok () → validateConversation out = .ok ()

/-- The parts that are kept make up a history. -/
theorem Compacted.of_parts {dropped note kept : List Message} (htask : task.role = "user") (hkept : Kept keepRecent rest dropped kept)
    (hturns : Turns kept) (hnote : dropped = [] ∧ note = [] ∨ dropped ≠ [] ∧ ∃ text, note = [noteMessage text]) :
    Compacted keepRecent (task :: rest) (task :: (note ++ kept)) := by
  have huser : ∀ m ∈ note, m.role = "user" := by
    obtain ⟨-, rfl⟩ | ⟨-, text, rfl⟩ := hnote
    · simp
    · simp [noteMessage]
  refine ⟨⟨task, rest, dropped, note, kept, rfl, rfl, hkept, hnote⟩, ⟨task, note ++ kept, rfl, htask, ?_⟩, fun h => ?_⟩
  · obtain ⟨-, rfl⟩ | ⟨-, text, rfl⟩ := hnote
    · exact hturns
    · exact .plain (by simp [noteMessage]) (fun h => by simp [asks, noteMessage] at h) hturns
  · exact validateConversation_ok_iff.mpr (valid_of_kept htask hkept huser (validateConversation_ok_iff.mp h))

theorem Dropped.kept {front left : List (List Message)} {tooMany : List (List Message) → Bool} {dropped : List Message}
    (h : Dropped tooMany (turns (shortened keepRecent rest)) dropped left front) :
    ∃ gone, gone.length = front.flatten.length ∧ Kept keepRecent rest gone left.flatten := by
  refine kept_of_append ?_
  rw [← List.flatten_append, ← h.split, turns_flatten]

end Compact

/-- **Compaction keeps the conversation well formed**, for every estimate of tokens, every
limit and every summarizer. -/
theorem compaction_keeps {estimate : String → ℕ} {messages : List Message} {system : String} {maxTokens keepRecent : ℤ}
    {summarizer : Option (List Message → Option String)} {o : Outcome} (hmessages : History messages)
    (h : compact estimate messages system maxTokens keepRecent = .ok o) :
    Compacted keepRecent messages (o.messages messages (note summarizer)) := by
  obtain ⟨task, rest, rfl, htask, hrest⟩ := hmessages
  have hturns : Turns (shortened keepRecent rest) := hrest.alike (shape_shortened keepRecent rest)
  obtain ⟨rfl, -⟩ | rfl | ⟨front, left, rfl, hfront, -, -, hdropped⟩ := compact_cases h hrest
  · exact .of_parts htask ⟨[], rest, rfl, rfl, fun h => absurd rfl h⟩ hrest (.inl ⟨rfl, rfl⟩)
  · obtain ⟨dropped, hlength, hkept⟩ := kept_of_append (List.nil_append (shortened keepRecent rest))
    obtain rfl := List.eq_nil_of_length_eq_zero hlength
    have hnothing : Compacted keepRecent (task :: rest) (task :: ([] ++ shortened keepRecent rest)) :=
      .of_parts htask hkept hturns (.inl ⟨rfl, rfl⟩)
    exact hnothing
  · have hisTurn := isTurn_of_mem_turns hturns.heads
    rw [hdropped.split] at hisTurn
    have hsplit : front.flatten ++ left.flatten = shortened keepRecent rest := by
      rw [← List.flatten_append, ← hdropped.split, turns_flatten]
    obtain ⟨dropped, hlength, hkept⟩ := hdropped.kept
    have hsome : dropped ≠ [] := by
      rintro rfl
      exact flatten_ne_nil hfront (fun t ht => hisTurn t (List.mem_append_left _ ht)) (List.eq_nil_of_length_eq_zero hlength.symm)
    have hleft : Turns left.flatten :=
      (hsplit ▸ hturns).of_append (heads_flatten fun t ht => hisTurn t (List.mem_append_right _ ht))
    have hnote : Compacted keepRecent (task :: rest)
        (task :: ([noteMessage (note summarizer front.flatten)] ++ left.flatten)) :=
      .of_parts htask hkept hleft (.inr ⟨hsome, _, rfl⟩)
    exact hnote

/-- A task, two tool calls with their answers, and a question. -/
def toolChat : List Message :=
  [{ role := "user", content := "compare the files" },
    { role := "assistant", content := "", toolCalls := some [⟨"c1", "read", "{}"⟩] },
    { role := "tool", content := "first", toolCallId := some "c1" },
    { role := "assistant", content := "", toolCalls := some [⟨"c2", "read", "{}"⟩] },
    { role := "tool", content := "second", toolCallId := some "c2" },
    { role := "user", content := "and now?" }]

theorem Turns.call {m a : Message} (hasks : asks m) (hanswer : Answers (m.toolCalls.getD []) [a])
    (hrest : Turns rest) : Turns (m :: a :: rest) := .calls hasks hanswer hrest

theorem toolChat_history : History toolChat := by
  refine ⟨_, _, rfl, rfl, .call (by decide) ?_ (.call (by decide) ?_ ?_)⟩
  · exact ⟨by simp, .refl _⟩
  · exact ⟨by simp, .refl _⟩
  · exact .plain (by decide) (by decide) .nil

theorem compaction_keeps_toolChat : ∃ o, compact (fun _ => 1) toolChat "" 40 1 = .ok o ∧
    Compacted 1 toolChat (o.messages toolChat (note none)) :=
  ⟨_, rfl, compaction_keeps toolChat_history (show compact (fun _ => 1) toolChat "" 40 1 = .ok _ from rfl)⟩

/-! ## Recent messages -/

/-- The last `keepRecent` messages. -/
def recent (keepRecent : ℤ) (messages : List Message) : List Message := messages.drop (messages.length - keepRecent.toNat)

/-- The recent messages stand at the end of what compaction returns. -/
def RecentKept (estimate : String → ℕ) (summarizer : Option (List Message → Option String)) (messages : List Message)
    (system : String) (maxTokens keepRecent : ℤ) : Prop :=
  ∀ o, compact estimate messages system maxTokens keepRecent = .ok o →
    recent keepRecent messages <:+ o.messages messages (note summarizer)

/-- The messages fit, with the old outputs shortened if need be, or the dropping of turns
stops at some place before the recent messages. -/
def WindowFits (estimate : String → ℕ) (messages : List Message) (system : String) (maxTokens keepRecent : ℤ) : Prop :=
  (count estimate messages system : ℤ) ≤ maxTokens ∨
  (count estimate (messages.take 1 ++ shortened keepRecent (messages.drop 1)) system : ℤ) ≤ maxTokens ∨
  ∃ front left, turns (shortened keepRecent (messages.drop 1)) = front ++ left ∧
    min keepRecent.toNat (messages.drop 1).length ≤ left.flatten.length ∧ (left.length ≤ 1 ∨ isOver estimate (messages.take 1) system maxTokens left = false)

theorem length_recent (keepRecent : ℤ) (messages : List Message) :
    (recent keepRecent messages).length = min keepRecent.toNat messages.length := by
  rw [recent, List.length_drop]
  omega

theorem recent_suffix (keepRecent : ℤ) (a : List Message) {b : List Message} (h : keepRecent.toNat ≤ b.length) :
    recent keepRecent (a ++ b) <:+ b := by
  have hlength : (a ++ b).length - keepRecent.toNat = a.length + (b.length - keepRecent.toNat) := by
    rw [List.length_append]
    omega
  rw [recent, hlength, List.drop_length_add_append]
  exact List.drop_suffix _ _

theorem Kept.recent {keepRecent : ℤ} {rest dropped kept : List Message} (task : Message) (h : Kept keepRecent rest dropped kept)
    (hlength : keepRecent.toNat ≤ kept.length) : Context.recent keepRecent (task :: rest) <:+ kept := by
  obtain ⟨old, last, rfl, rfl, hold⟩ := h.parts
  by_cases hnil : old = []
  · subst hnil
    exact recent_suffix keepRecent (task :: dropped) hlength
  · have hlast := recent_suffix keepRecent (task :: (dropped ++ old)) (hold hnil).ge
    rw [List.cons_append, List.append_assoc] at hlast
    exact hlast.trans (List.suffix_append _ _)

/-- Where the dropping does not stop before the recent messages, turns are dropped and fewer
messages are left than should be. -/
theorem condensed_of_not_windowFits
    (hrest : Turns rest) (h : ¬WindowFits estimate (task :: rest) system maxTokens keepRecent) :
    ∃ dropped left, compact estimate (task :: rest) system maxTokens keepRecent = .ok (.condensed [task] dropped left) ∧
      left.length < keepRecent.toNat ∧ left.length < rest.length := by
  obtain ⟨hfits, hshort, hwindow⟩ := by simpa only [WindowFits, not_or] using h
  have hturns : Turns (shortened keepRecent rest) := hrest.alike (shape_shortened keepRecent rest)
  obtain ⟨front, hdropped⟩ := dropTurns_cases (isOver estimate [task] system maxTokens) keepRecent
    (isTurn_of_mem_turns hturns.heads)
  change Dropped _ _ (dropOld estimate task system maxTokens keepRecent rest).1
    (dropOld estimate task system maxTokens keepRecent rest).2 front at hdropped
  have hsign : ¬keepRecent < 0 := by
    intro hneg
    refine hwindow ⟨front, _, hdropped.split, ?_, hdropped.stop⟩
    simp [Int.toNat_of_nonpos (Int.le_of_lt hneg)]
  have hleft : (dropOld estimate task system maxTokens keepRecent rest).2.flatten.length < min keepRecent.toNat rest.length := by
    by_contra hlong
    exact hwindow ⟨front, _, hdropped.split, Nat.not_lt.mp hlong, hdropped.stop⟩
  have hfront : (dropOld estimate task system maxTokens keepRecent rest).1.isEmpty = false := by
    rw [List.isEmpty_eq_false_iff]
    intro hnil
    -- else all of the messages after the task are left
    have hall := congrArg List.flatten hdropped.split
    rw [turns_flatten, List.flatten_append, ← hdropped.dropped, hnil, List.nil_append] at hall
    rw [← hall, length_shortened] at hleft
    exact absurd hleft (Nat.not_lt.mpr (Nat.min_le_right _ _))
  refine ⟨(dropOld estimate task system maxTokens keepRecent rest).1, _, ?_, (Nat.lt_min.mp hleft).1, (Nat.lt_min.mp hleft).2⟩
  rw [compact_cons, if_neg hfits, if_neg hsign, if_neg (show ¬(count estimate (task :: shortened keepRecent rest) system : ℤ) ≤ maxTokens from hshort),
    hfront]
  rfl

variable {tooMany : List (List Message) → Bool}

/-- Where a turn is dropped, the recent messages are kept if the dropping may stop before them. -/
theorem Dropped.recent_le {keepRecent : ℤ} {rest dropped : List Message}
    {front left front' left' : List (List Message)} (h : Dropped tooMany (turns (shortened keepRecent rest)) dropped left front)
    (hfront : front ≠ []) (hsplit : turns (shortened keepRecent rest) = front' ++ left')
    (hstop : left'.length ≤ 1 ∨ tooMany left' = false) : left'.flatten.length ≤ left.flatten.length := by
  have hboth : front' ++ left' = front ++ left := hsplit.symm.trans h.split
  obtain ⟨c, rfl, rfl⟩ | ⟨c, rfl, rfl⟩ := List.append_eq_append_iff.mp hboth
  · by_cases hc : c = []
    · subst hc
      exact Nat.le_refl _
    · -- it would have dropped these turns too
      have htwo : 1 < (c ++ left).length := by
        have hleft := List.length_pos_iff.mpr (h.remains hfront)
        have hc' := List.length_pos_iff.mpr hc
        rw [List.length_append]
        omega
      obtain hone | hroom := hstop
      · exact absurd hone (Nat.not_le.mpr htwo)
      · exact absurd ((h.drop front' c rfl hc).symm.trans hroom) (by decide)
  · rw [List.flatten_append, List.length_append]
    exact Nat.le_add_left _ _

/-- The recent messages are kept where the dropping may stop before them. -/
theorem recentKept_of_windowFits {summarizer : Option (List Message → Option String)} (hrest : Turns rest)
    (hfits : WindowFits estimate (task :: rest) system maxTokens keepRecent) :
    RecentKept estimate summarizer (task :: rest) system maxTokens keepRecent := by
  intro o ho
  obtain ⟨rfl, -⟩ | rfl | ⟨front, left, rfl, hfront, hlong, hlong', hdropped⟩ := compact_cases ho hrest
  · exact List.drop_suffix _ _
  · by_cases hk : keepRecent.toNat ≤ rest.length
    · obtain ⟨gone, -, hkept⟩ := kept_of_append (List.nil_append (shortened keepRecent rest))
      exact (hkept.recent task ((length_shortened keepRecent rest).symm ▸ hk)).trans (List.suffix_cons _ _)
    · have hall : shortened keepRecent rest = rest := by
        have hcut : rest.length - keepRecent.toNat = 0 := by omega
        simp [shortened, hcut]
      show recent keepRecent (task :: rest) <:+ task :: shortened keepRecent rest
      rw [hall]
      exact List.drop_suffix _ _
  · obtain ⟨gone, -, hkept⟩ := hdropped.kept
    refine (hkept.recent task ?_).trans ((List.suffix_cons _ _).trans (List.suffix_cons _ _))
    obtain hfits | hfits | ⟨front', left', hsplit, hk, hstop⟩ := hfits
    · exact absurd hfits (Int.not_le.mpr hlong)
    · exact absurd hfits (Int.not_le.mpr hlong')
    · have hless : left.flatten.length < rest.length := by
        have hall := congrArg List.length (congrArg List.flatten hdropped.split)
        rw [turns_flatten, length_shortened, List.flatten_append, List.length_append] at hall
        have hhead : Heads (shortened keepRecent rest) := (hrest.alike (shape_shortened keepRecent rest)).heads
        have hsome : 0 < front.flatten.length :=
          List.length_pos_iff.mpr (flatten_ne_nil hfront fun t ht =>
            isTurn_of_mem_turns hhead t (hdropped.split ▸ List.mem_append_left _ ht))
        omega
      have hle := hdropped.recent_le hfront hsplit hstop
      simp only [List.drop_succ_cons, List.drop_zero] at hk
      omega

/-- A summary that is longer than all messages. -/
theorem exists_new_note (messages : List Message) :
    ∃ summarizer, ∀ dropped, noteMessage (note summarizer dropped) ∉ messages := by
  let text := String.ofList (List.replicate ((messages.map fun m => m.content.length).sum + 1) 'x')
  have hstrip : Keystore.strip text = text := by
    have hspace : Keystore.isSpace 'x' = false := by decide
    have hdrop : ∀ n, (List.replicate n 'x').dropWhile Keystore.isSpace = List.replicate n 'x' := by
      intro n
      cases n with
      | zero => rfl
      | succ n => rw [List.replicate_succ, List.dropWhile_cons_of_neg (by simp [hspace])]
    simp [text, Keystore.strip, Keystore.rstrip, hdrop]
  refine ⟨some fun _ => some text, fun dropped hmem => ?_⟩
  have hle : (summaryPrefix ++ text).length ≤ (messages.map fun m => m.content.length).sum := by
    have hlength := List.mem_map_of_mem (f := fun m => m.content.length) hmem
    have hnote : note (some fun _ => some text) dropped = summaryPrefix ++ text := by simp [note, hstrip]
    rw [hnote] at hlength
    exact List.single_le_sum (fun _ _ => Nat.zero_le _) _ hlength
  simp [text] at hle
  omega

/-- A recent message is gone where the dropping may not stop before it, unless the note is the same message. -/
theorem not_recentKept {summarizer : Option (List Message → Option String)} (hrest : Turns rest)
    (hfits : ¬WindowFits estimate (task :: rest) system maxTokens keepRecent)
    (hnote : ∀ dropped, noteMessage (note summarizer dropped) ∉ task :: rest) :
    ¬RecentKept estimate summarizer (task :: rest) system maxTokens keepRecent := by
  intro hkept
  obtain ⟨dropped, left, hcompact, hk, hlength⟩ := condensed_of_not_windowFits hrest hfits
  have hsuffix : recent keepRecent (task :: rest) <:+ task :: noteMessage (note summarizer dropped) :: left := hkept _ hcompact
  -- the recent messages begin at the note or before it
  have hreach : noteMessage (note summarizer dropped) :: left <:+ recent keepRecent (task :: rest) := by
    refine List.suffix_of_suffix_length_le (List.suffix_cons _ _) hsuffix ?_
    rw [length_recent, List.length_cons, List.length_cons]
    omega
  exact hnote dropped (List.mem_of_mem_drop (hreach.subset (List.mem_cons_self ..)))

/-- **Recent messages survive compaction**, whatever the summarizer, where and only where the
dropping of turns may stop before them. Otherwise one of them is gone with any summarizer whose
note is not itself among the messages. -/
theorem recent_kept {estimate : String → ℕ} {messages : List Message} {system : String} {maxTokens keepRecent : ℤ}
    (hmessages : History messages) :
    ((∀ summarizer, RecentKept estimate summarizer messages system maxTokens keepRecent) ↔
      WindowFits estimate messages system maxTokens keepRecent) ∧
    (¬WindowFits estimate messages system maxTokens keepRecent →
      ∀ summarizer, (∀ dropped, noteMessage (note summarizer dropped) ∉ messages) →
        ¬RecentKept estimate summarizer messages system maxTokens keepRecent) := by
  obtain ⟨task, rest, rfl, -, hrest⟩ := hmessages
  refine ⟨⟨fun h => ?_, fun hfits summarizer => recentKept_of_windowFits hrest hfits⟩,
    fun hfits summarizer hnote => not_recentKept hrest hfits hnote⟩
  by_contra hfits
  obtain ⟨summarizer, hnote⟩ := exists_new_note (task :: rest)
  exact not_recentKept hrest hfits hnote (h summarizer)

/-- A task and three more messages of the user's. -/
def shortChat : List Message :=
  [{ role := "user", content := "compare the files" }, { role := "user", content := "a" },
    { role := "user", content := "b" }, { role := "user", content := "c" }]

theorem shortChat_history : History shortChat :=
  ⟨_, _, rfl, rfl, .plain (by decide) (by decide) (.plain (by decide) (by decide) (.plain (by decide) (by decide) .nil))⟩

theorem recent_kept_shortChat :
    ((∀ summarizer, RecentKept estimateTokens summarizer shortChat "" 10 2) ↔ WindowFits estimateTokens shortChat "" 10 2) ∧
    (¬WindowFits estimateTokens shortChat "" 10 2 →
      ∀ summarizer, (∀ dropped, noteMessage (note summarizer dropped) ∉ shortChat) →
        ¬RecentKept estimateTokens summarizer shortChat "" 10 2) :=
  recent_kept shortChat_history

/-- Of the last two messages one is dropped, where only ten tokens are allowed. -/
theorem recent_dropped : History shortChat ∧ ¬RecentKept estimateTokens none shortChat "" 10 2 := by
  refine ⟨shortChat_history, fun h => ?_⟩
  have hrecent := h (.condensed (shortChat.take 1) ((shortChat.drop 1).take 2) (shortChat.drop 3)) (by decide +kernel)
  exact absurd hrecent (by decide +kernel)

/-! ## The limit -/

theorem count_note (estimate : String → ℕ) (pinned l : List Message) (system text : String) :
    count estimate (pinned ++ noteMessage text :: l) system = count estimate (pinned ++ l) system + (estimate text + 4) := by
  have hnote : countMessage estimate (noteMessage text) = estimate text + 4 := by simp [countMessage, noteMessage]
  simp only [count, List.map_append, List.map_cons, List.sum_append, List.sum_cons, hnote]
  omega

/-- The messages do not fit, and the dropping of turns stops at this place, with more than one turn left. -/
structure Stops (estimate : String → ℕ) (messages : List Message) (system : String) (maxTokens keepRecent : ℤ)
    (front left : List (List Message)) : Prop where
  window : 0 ≤ keepRecent
  full : maxTokens < count estimate messages system
  full' : maxTokens < count estimate (messages.take 1 ++ shortened keepRecent (messages.drop 1)) system
  place : Dropped (isOver estimate (messages.take 1) system maxTokens) (turns (shortened keepRecent (messages.drop 1)))
    front.flatten left front
  some : front ≠ []
  more : 1 < left.length

/-- The tokens that are not used when the dropping stops. -/
def room (estimate : String → ℕ) (messages : List Message) (system : String) (maxTokens : ℤ) (left : List (List Message)) : ℤ :=
  maxTokens - count estimate (messages.take 1 ++ noteMessage placeholder :: left.flatten) system

/-- The note is not longer than the placeholder by more than the tokens that are not used. -/
def NoteFits (estimate : String → ℕ) (summarizer : Option (List Message → Option String)) (messages : List Message)
    (system : String) (maxTokens keepRecent : ℤ) : Prop :=
  ∀ front left, Stops estimate messages system maxTokens keepRecent front left →
    (estimate (note summarizer front.flatten) : ℤ) ≤ estimate placeholder + room estimate messages system maxTokens left

/-- What compaction returns is within the limit, if turns were dropped and more than one is left. -/
def LimitMet (estimate : String → ℕ) (summarizer : Option (List Message → Option String)) (messages : List Message)
    (system : String) (maxTokens keepRecent : ℤ) : Prop :=
  ∀ pinned dropped left, compact estimate messages system maxTokens keepRecent = .ok (.condensed pinned dropped left) →
    1 < (turns left).length →
      (count estimate ((Outcome.condensed pinned dropped left).messages messages (note summarizer)) system : ℤ) ≤ maxTokens

theorem Dropped.turns_left {keepRecent : ℤ} {rest dropped : List Message}
    {front left : List (List Message)} (h : Dropped tooMany (turns (shortened keepRecent rest)) dropped left front)
    (hrest : Turns rest) : turns left.flatten = left := by
  have hisTurn := isTurn_of_mem_turns (hrest.alike (shape_shortened keepRecent rest)).heads
  exact turns_of_flatten fun t ht => hisTurn t (h.split ▸ List.mem_append_right _ ht)

/-- There is one place where the dropping can stop. -/
theorem Dropped.unique {ts front left front' left' : List (List Message)}
    {dropped dropped' : List Message} (h : Dropped tooMany ts dropped left front) (h' : Dropped tooMany ts dropped' left' front')
    (hmore : 1 < left.length) : front' = front ∧ left' = left := by
  have hroom : tooMany left = false := h.stop.resolve_left (Nat.not_le.mpr hmore)
  obtain ⟨c, rfl, rfl⟩ | ⟨c, rfl, rfl⟩ := List.append_eq_append_iff.mp (h.split.symm.trans h'.split)
  · by_cases hc : c = []
    · simp [hc]
    · exact absurd ((h'.drop front c rfl hc).symm.trans hroom) (by decide)
  · by_cases hc : c = []
    · simp [hc]
    · -- the other one would have gone on
      have htwo : 1 < (c ++ left).length := by
        rw [List.length_append]
        omega
      have hroom' : tooMany (c ++ left) = false := h'.stop.resolve_left (Nat.not_le.mpr htwo)
      exact absurd ((h.drop front' c rfl hc).symm.trans hroom') (by decide)

/-- Compaction drops the turns in front of that place. -/
theorem compact_of_stops {front left : List (List Message)} (hrest : Turns rest)
    (h : Stops estimate (task :: rest) system maxTokens keepRecent front left) :
    compact estimate (task :: rest) system maxTokens keepRecent = .ok (.condensed [task] front.flatten left.flatten) := by
  have hisTurn := isTurn_of_mem_turns (hrest.alike (shape_shortened keepRecent rest)).heads
  obtain ⟨front', hplace⟩ := dropTurns_cases (isOver estimate [task] system maxTokens) keepRecent hisTurn
  obtain ⟨rfl, hleft⟩ := h.place.unique hplace h.more
  have hfront : front'.flatten ≠ [] :=
    flatten_ne_nil h.some fun t ht => hisTurn t (hplace.split ▸ List.mem_append_left _ ht)
  have hfull : ¬(count estimate (task :: rest) system : ℤ) ≤ maxTokens := Int.not_le.mpr h.full
  have hfull' : ¬(count estimate (task :: shortened keepRecent rest) system : ℤ) ≤ maxTokens := Int.not_le.mpr h.full'
  rw [compact_cons, if_neg hfull, if_neg (Int.not_lt.mpr h.window), if_neg hfull', dropOld, hplace.dropped, hleft,
    if_neg (by simpa using hfront)]

/-- **Compaction reaches its limit** where and only where the note takes no more than the room that was counted for it. -/
theorem note_fits {estimate : String → ℕ} {summarizer : Option (List Message → Option String)} {messages : List Message}
    {system : String} {maxTokens keepRecent : ℤ} (hmessages : History messages) :
    LimitMet estimate summarizer messages system maxTokens keepRecent ↔
      NoteFits estimate summarizer messages system maxTokens keepRecent := by
  obtain ⟨task, rest, rfl, -, hrest⟩ := hmessages
  have hcount : ∀ front left : List (List Message),
      (count estimate ([task] ++ noteMessage (note summarizer front.flatten) :: left.flatten) system : ℤ) ≤ maxTokens ↔
        (estimate (note summarizer front.flatten) : ℤ) ≤
          estimate placeholder + room estimate (task :: rest) system maxTokens left := by
    intro front left
    simp only [room, List.take_succ_cons, List.take_zero, count_note]
    omega
  constructor
  · intro h front left hstops
    have hleft : turns left.flatten = left := hstops.place.turns_left hrest
    exact (hcount front left).mp (h _ _ _ (compact_of_stops hrest hstops) (hleft.symm ▸ hstops.more))
  · intro h pinned dropped kept hcompact hmore
    obtain ⟨hnot, -⟩ | hnot | ⟨front, left, hcondensed, hfront, hfull, hfull', hplace⟩ := compact_cases hcompact hrest
    · cases hnot
    · cases hnot
    · obtain ⟨rfl, rfl, rfl⟩ := Outcome.condensed.inj hcondensed
      have hleft : turns left.flatten = left := hplace.turns_left hrest
      have hwindow : 0 ≤ keepRecent := by
        by_contra hneg
        rw [compact_cons, if_neg (Int.not_le.mpr hfull), if_pos (Int.not_le.mp hneg)] at hcompact
        cases hcompact
      exact (hcount front left).mpr (h front left ⟨hwindow, hfull, hfull', hplace, hfront, hleft ▸ hmore⟩)

/-- A task and three more messages of the user's, the first of them long. -/
def longChat : List Message :=
  [{ role := "user", content := "compare the files" }, { role := "user", content := String.ofList (List.replicate 120 'a') },
    { role := "user", content := "first" }, { role := "user", content := "second" }]

theorem longChat_history : History longChat :=
  ⟨_, _, rfl, rfl, .plain (by decide) (by decide) (.plain (by decide) (by decide) (.plain (by decide) (by decide) .nil))⟩

theorem note_fits_longChat :
    LimitMet estimateTokens none longChat "" 48 2 ↔ NoteFits estimateTokens none longChat "" 48 2 :=
  note_fits longChat_history

/-- A summary of 100 characters is more than what was counted for the note. -/
theorem limit_missed : History longChat ∧
    ¬LimitMet estimateTokens (some fun _ => some (String.ofList (List.replicate 100 'y'))) longChat "" 48 2 := by
  refine ⟨longChat_history, fun h => ?_⟩
  have hlimit := h (longChat.take 1) ((longChat.drop 1).take 1) (longChat.drop 2) (by decide +kernel) (by decide +kernel)
  exact absurd hlimit (by decide +kernel)

end Caips.Harness.Context
