/-
Caips.Providers.Pool — several keys behind one provider name, after
`providers/pool.py`.

A call tries the members in rotation, without those whose key is parked, or all
of them if every key is. A member that fails with an auth, quota or rate-limit
error is parked and the next one is tried; any other end of a member's call is
the end of the pool's. `complete` and `embed` are the same loop over different
methods of the members.

The loop suspends while a member works, and other calls of the same pool run
then: `Meanwhile` says what they do to the two fields all calls share. What the
loop tries was settled before.

`failsOver_iff`: a call keeps every promise of the class except when some
members are not parked, all of those fail with key errors, and a parked member
would have served. The parked ones are not tried then, although they are tried
when all members are parked from the start.
-/
import Caips.Coreai.Errors
import Caips.Logic.Dict
import Caips.Providers.Base
import Mathlib.Data.Nat.ModEq

namespace Caips.Providers

open Caips.Logic Caips.Coreai

/-- `_key_errors`. -/
def keyErrors : List ErrorKind := [.auth, .quota, .rateLimit]

/-- What the `except` clause parks a member for. `asyncio.CancelledError` and its
like are no `Exception`s and pass it by. -/
def isKeyFailure (e : Exc) : Bool := e.isException && decide ((classify e).kind ∈ keyErrors)

/-- A member of the pool, by what its methods answer. -/
structure PoolMember where
  complete : CompletionRequest → Except Exc CompletionResponse
  embed : List String → Option String → Except Exc (List (List ℚ))

/-- A `KeyPoolProvider`. Its constructor refuses an empty list of members. -/
structure KeyPool where
  name : String
  members : List PoolMember
  labels : List String
  cooldown : ℚ
  parked : Dict ℕ ℚ := Dict.empty
  next : ℕ := 0
  members_ne : members ≠ []

/-- What happens around the steps of a call: the clock reading of `_order`, the
one that parks a member, and what other calls do to `_parked` and `_next` while a
member works. -/
structure Meanwhile where
  now : ℚ
  parkedAt : ℕ → ℚ
  others : ℕ → Dict ℕ ℚ × ℕ → Dict ℕ ℚ × ℕ

/-- How a call can end. -/
inductive PoolOutcome (R : Type) where
  | returned (r : R)
  | raised (e : Exc)
  | assertionError
  deriving DecidableEq

/-- A call: its end, the members it tried, what it wrote into `_parked`, and the
pool it leaves. -/
structure PoolCall (R : Type) where
  outcome : PoolOutcome R
  tried : List ℕ
  parks : List (ℕ × ℚ)
  pool : KeyPool

namespace KeyPool

variable {R : Type}

/-- `KeyPoolProvider.__init__`. -/
def init (name : String) (members : List PoolMember) (labels : List String) (cooldown : ℚ) :
    Except String KeyPool :=
  if h : members ≠ [] ∧ members.length = labels.length then
    .ok { name, members, labels, cooldown, members_ne := h.1 }
  else .error "a key pool needs one label per member"

/-- `self.members[i]`. -/
def member (p : KeyPool) (i : ℕ) : PoolMember := p.members.getD i (p.members.head p.members_ne)

/-- Whether a key is not parked. -/
def live (p : KeyPool) (now : ℚ) (i : ℕ) : Bool := decide ((p.parked.get? i).getD 0 ≤ now)

/-- All members, from the one whose turn it is. -/
def rotation (p : KeyPool) : List ℕ :=
  (List.range p.members.length).map fun i => (p.next % p.members.length + i) % p.members.length

/-- `_order`. -/
def order (p : KeyPool) (now : ℚ) : List ℕ × KeyPool :=
  let live := p.rotation.filter (p.live now)
  (if live = [] then p.rotation else live,
    { p with next := (p.next + 1) % p.members.length })

/-- The pool after other calls have run. -/
def beside (p : KeyPool) (o : Dict ℕ ℚ × ℕ → Dict ℕ ℚ × ℕ) : KeyPool :=
  { p with parked := (o (p.parked, p.next)).1, next := (o (p.parked, p.next)).2 }

/-- `_park`. -/
def park (p : KeyPool) (i : ℕ) (now : ℚ) : KeyPool :=
  { p with parked := p.parked.set i (now + p.cooldown) }

/-- The loop over the members; `last` is the last key error. -/
def tryEach (w : Meanwhile) (ask : ℕ → Except Exc R) (p : KeyPool) (last : Option Exc) :
    List ℕ → PoolCall R
  | [] =>
    match last with
    | some e => ⟨.raised e, [], [], p⟩
    | none => ⟨.assertionError, [], [], p⟩
  | i :: rest =>
    let p := p.beside (w.others i)
    match ask i with
    | .ok r => ⟨.returned r, [i], [], p⟩
    | .error e =>
      if isKeyFailure e then
        let c := tryEach w ask (p.park i (w.parkedAt i)) (some e) rest
        { c with tried := i :: c.tried, parks := (i, w.parkedAt i + p.cooldown) :: c.parks }
      else ⟨.raised e, [i], [], p⟩

/-- The call of one method of the members. -/
def call (p : KeyPool) (w : Meanwhile) (method : PoolMember → Except Exc R) : PoolCall R :=
  let order := p.order w.now
  tryEach w (fun i => method (p.member i)) order.2 none order.1

/-- `complete`. -/
def complete (p : KeyPool) (w : Meanwhile) (request : CompletionRequest) :
    PoolCall CompletionResponse :=
  p.call w fun m => m.complete request

/-- `embed`. -/
def embed (p : KeyPool) (w : Meanwhile) (texts : List String) (model : Option String) :
    PoolCall (List (List ℚ)) :=
  p.call w fun m => m.embed texts model

/-! ## The order of a call -/

theorem mem_rotation {p : KeyPool} {i : ℕ} : i ∈ p.rotation ↔ i < p.members.length := by
  have hpos : 0 < p.members.length := List.length_pos_iff.mpr p.members_ne
  have hstart := Nat.mod_lt p.next hpos
  simp only [rotation, List.mem_map, List.mem_range]
  constructor
  · intro h
    obtain ⟨j, -, rfl⟩ := h
    exact Nat.mod_lt _ hpos
  · intro hi
    by_cases hle : p.next % p.members.length ≤ i
    · refine ⟨i - p.next % p.members.length, by omega, ?_⟩
      rw [Nat.add_sub_cancel' hle, Nat.mod_eq_of_lt hi]
    · refine ⟨i + p.members.length - p.next % p.members.length, by omega, ?_⟩
      rw [Nat.add_sub_cancel' (by omega), Nat.add_mod_right, Nat.mod_eq_of_lt hi]

theorem nodup_rotation (p : KeyPool) : p.rotation.Nodup := by
  refine List.Nodup.map_on ?_ List.nodup_range
  intro i hi j hj heq
  rw [List.mem_range] at hi hj
  have hmod : i % p.members.length = j % p.members.length :=
    Nat.ModEq.add_left_cancel' (p.next % p.members.length) heq
  rwa [Nat.mod_eq_of_lt hi, Nat.mod_eq_of_lt hj] at hmod

theorem nodup_order (p : KeyPool) (now : ℚ) : (p.order now).1.Nodup := by
  unfold order
  dsimp only
  split
  · exact p.nodup_rotation
  · exact p.nodup_rotation.filter _

theorem order_ne_nil (p : KeyPool) (now : ℚ) : (p.order now).1 ≠ [] := by
  unfold order
  dsimp only
  split
  · intro h
    have hpos : 0 < p.members.length := List.length_pos_iff.mpr p.members_ne
    have hmem := mem_rotation.mpr hpos
    rw [h] at hmem
    exact List.not_mem_nil hmem
  · next h => exact h

/-- A call tries the members that are not parked, or all if there is none. -/
theorem mem_order {p : KeyPool} {now : ℚ} {i : ℕ} : i ∈ (p.order now).1 ↔
    i < p.members.length ∧ (p.live now i ∨ ∀ j < p.members.length, p.live now j = false) := by
  unfold order
  dsimp only
  have hnone : p.rotation.filter (p.live now) = [] ↔
      ∀ j < p.members.length, p.live now j = false := by
    simp [List.filter_eq_nil_iff, mem_rotation]
  split
  · next h =>
    have hall := hnone.mp h
    rw [mem_rotation]
    exact ⟨fun hi => ⟨hi, .inr hall⟩, And.left⟩
  · next h =>
    rw [List.mem_filter, mem_rotation]
    exact and_congr_right fun _ => ⟨.inl, fun hi => hi.resolve_right fun hall => h (hnone.mpr hall)⟩

/-! ## The loop -/

/-- The member fails with an error that parks its key. -/
def keyFails (ask : ℕ → Except Exc R) (i : ℕ) : Bool :=
  match ask i with
  | .error e => isKeyFailure e
  | .ok _ => false

/-- The loop goes through members that fail with key errors, and ends at the
first that does not, or with the last key error. -/
theorem tryEach_cases (w : Meanwhile) (ask : ℕ → Except Exc R) (l : List ℕ) (p : KeyPool)
    (last : Option Exc) :
    (tryEach w ask p last l).parks.map Prod.fst = (tryEach w ask p last l).tried.filter (keyFails ask) ∧
    ((∃ failed i rest r, l = failed ++ i :: rest ∧ (∀ j ∈ failed, keyFails ask j) ∧ ask i = .ok r ∧
        (tryEach w ask p last l).tried = failed ++ [i] ∧
        (tryEach w ask p last l).outcome = .returned r) ∨
      (∃ failed i rest e, l = failed ++ i :: rest ∧ (∀ j ∈ failed, keyFails ask j) ∧
        ask i = .error e ∧ isKeyFailure e = false ∧
        (tryEach w ask p last l).tried = failed ++ [i] ∧
        (tryEach w ask p last l).outcome = .raised e) ∨
      ((∀ j ∈ l, keyFails ask j) ∧ (tryEach w ask p last l).tried = l ∧
          ((l = [] → ∃ e ∈ last, isKeyFailure e) →
          ∃ e, isKeyFailure e ∧ (tryEach w ask p last l).outcome = .raised e))) := by
  induction l generalizing p last with
  | nil => cases last with
    | none => simp [tryEach]
    | some e => simp [tryEach]
  | cons i rest ih =>
    cases hask : ask i with
    | ok r =>
      have hkey : keyFails ask i = false := by simp [keyFails, hask]
      refine ⟨by simp [tryEach, hask, hkey], .inl ⟨[], i, rest, r, ?_⟩⟩
      simp [tryEach, hask]
    | error e =>
      cases hkind : isKeyFailure e with
      | false =>
        have hkey : keyFails ask i = false := by simp [keyFails, hask, hkind]
        refine ⟨by simp [tryEach, hask, hkind, hkey], .inr (.inl ⟨[], i, rest, e, ?_⟩)⟩
        simp [tryEach, hask, hkind]
      | true =>
        have hkey : keyFails ask i = true := by simp [keyFails, hask, hkind]
        have hrest := ih ((p.beside (w.others i)).park i (w.parkedAt i)) (some e)
        have hstep : tryEach w ask p last (i :: rest) =
            let c := tryEach w ask ((p.beside (w.others i)).park i (w.parkedAt i)) (some e) rest
            { c with
              tried := i :: c.tried
              parks := (i, w.parkedAt i + (p.beside (w.others i)).cooldown) :: c.parks } := by
          simp [tryEach, hask, hkind]
        rw [hstep]
        generalize tryEach w ask ((p.beside (w.others i)).park i (w.parkedAt i)) (some e) rest = c
          at hrest
        obtain ⟨hparks, hend⟩ := hrest
        have hcons : ∀ {failed : List ℕ}, (∀ j ∈ failed, keyFails ask j) →
            ∀ j ∈ i :: failed, keyFails ask j := by
          intro failed hfailed j hj
          rcases List.mem_cons.mp hj with rfl | hj
          · exact hkey
          · exact hfailed j hj
        refine ⟨by simp [hparks, hkey], ?_⟩
        rcases hend with ⟨failed, k, rest', r, rfl, hfailed, hk, htried, hout⟩ |
          ⟨failed, k, rest', e', rfl, hfailed, hk, hother, htried, hout⟩ | ⟨hfailed, htried, hout⟩
        · exact .inl ⟨i :: failed, k, rest', r, rfl, hcons hfailed, hk, by simp [htried], hout⟩
        · exact .inr (.inl ⟨i :: failed, k, rest', e', rfl, hcons hfailed, hk, hother,
            by simp [htried], hout⟩)
        · exact .inr (.inr ⟨hcons hfailed, by simp [htried], fun _ => hout fun _ => ⟨e, rfl, hkind⟩⟩)

/-- The table of parked keys after a call that no other call ran beside. -/
theorem parked_tryEach {w : Meanwhile} (hw : ∀ i, w.others i = id) (ask : ℕ → Except Exc R) (l : List ℕ)
    (p : KeyPool) (last : Option Exc) (i : ℕ) :
    (tryEach w ask p last l).pool.parked.get? i =
      if i ∈ (tryEach w ask p last l).parks.map Prod.fst then some (w.parkedAt i + p.cooldown)
      else p.parked.get? i := by
  induction l generalizing p last with
  | nil => cases last <;> simp [tryEach]
  | cons j rest ih =>
    have hbeside : p.beside (w.others j) = p := by rw [hw j]; rfl
    cases hask : ask j with
    | ok r => simp [tryEach, hask, hbeside]
    | error e =>
      cases hkind : isKeyFailure e with
      | false => simp [tryEach, hask, hkind, hbeside]
      | true =>
        have hrest := ih (p.park j (w.parkedAt j)) (some e)
        have hcooldown : (p.park j (w.parkedAt j)).cooldown = p.cooldown := rfl
        simp only [tryEach, hask, hkind, if_true, hbeside, List.map_cons, List.mem_cons]
        rw [hrest, hcooldown]
        by_cases hij : j = i
        · subst hij
          have hself : (p.park j (w.parkedAt j)).parked.get? j = some (w.parkedAt j + p.cooldown) :=
            Dict.get?_set_self _ _ _
          rw [hself, ite_self, if_pos (.inl rfl)]
        · have hne : (p.park j (w.parkedAt j)).parked.get? i = p.parked.get? i :=
            Dict.get?_set_ne _ _ hij
          rw [hne]
          exact if_congr (by rw [or_iff_right (Ne.symm hij)]) rfl rfl

/-! ## What a call of the pool promises -/

/-- The promises of the class for one call: no member is tried twice; the call
parks the members that failed with a key error, for the cooldown; any other
error ends it unchanged; and it fails with a key error only if no member would
have served. -/
structure FailsOver (p : KeyPool) (w : Meanwhile) (method : PoolMember → Except Exc R)
    (c : PoolCall R) : Prop where
  once : c.tried.Nodup
  parks : c.parks.map Prod.fst = c.tried.filter (keyFails fun i => method (p.member i))
  table : (∀ i, w.others i = id) → ∀ i, c.pool.parked.get? i =
    if i ∈ c.parks.map Prod.fst then some (w.parkedAt i + p.cooldown) else p.parked.get? i
  others : ∀ i ∈ c.tried, ∀ e, method (p.member i) = .error e → isKeyFailure e = false →
    c.outcome = .raised e ∧ c.tried.getLast? = some i
  serves : ∀ e, c.outcome = .raised e → isKeyFailure e →
    ∀ i < p.members.length, ∀ r, method (p.member i) ≠ .ok r

/-- Some members are not parked and all of them fail with key errors, while a
parked member would serve. -/
def Strands (p : KeyPool) (now : ℚ) (method : PoolMember → Except Exc R) : Prop :=
  (∃ i < p.members.length, p.live now i) ∧
  (∀ i < p.members.length, p.live now i → keyFails (fun i => method (p.member i)) i) ∧
  ∃ i < p.members.length, ∃ r, method (p.member i) = .ok r

/-- A call keeps its promises exactly if it strands no parked member. -/
theorem failsOver_call_iff (p : KeyPool) (w : Meanwhile) (method : PoolMember → Except Exc R) :
    FailsOver p w method (p.call w method) ↔ ¬ p.Strands w.now method := by
  obtain ⟨hparks, hend⟩ := tryEach_cases w (fun i => method (p.member i)) (p.order w.now).1
    (p.order w.now).2 none
  constructor
  · intro hfails hstrands
    obtain ⟨⟨j, hj, hlive⟩, hall, k, hk, r, hserves⟩ := hstrands
    -- a member that is tried is not parked, so it fails with a key error
    have hkey : ∀ i ∈ (p.order w.now).1, keyFails (fun i => method (p.member i)) i := by
      intro i hi
      obtain ⟨hlt, hi⟩ := mem_order.mp hi
      refine hall i hlt (hi.resolve_right fun hnone => ?_)
      rw [hnone j hj] at hlive
      cases hlive
    rcases hend with ⟨failed, i, rest, r', hl, -, hi, -⟩ | ⟨failed, i, rest, e, hl, -, hi, hother, -⟩ |
      ⟨-, -, hout⟩
    · have hmem := hkey i (by simp [hl])
      simp [keyFails, hi] at hmem
    · have hmem := hkey i (by simp [hl])
      simp [keyFails, hi, hother] at hmem
    · obtain ⟨e, hkind, hout⟩ := hout fun hnil => absurd hnil (p.order_ne_nil w.now)
      exact hfails.serves e hout hkind k hk r hserves
  · intro hstrands
    have hnodup := p.nodup_order w.now
    refine ⟨?_, hparks, fun hw i => parked_tryEach hw _ _ (p.order w.now).2 none i, ?_, ?_⟩
    · show (tryEach w _ (p.order w.now).2 none (p.order w.now).1).tried.Nodup
      rcases hend with ⟨failed, i, rest, r, hl, -, -, htried, -⟩ |
        ⟨failed, i, rest, e, hl, -, -, -, htried, -⟩ | ⟨-, htried, -⟩
      · rw [hl, List.append_cons] at hnodup
        rw [htried]
        exact hnodup.of_append_left
      · rw [hl, List.append_cons] at hnodup
        rw [htried]
        exact hnodup.of_append_left
      · rw [htried]
        exact hnodup
    · intro i hi e he hother
      have hnot : ¬ keyFails (fun i => method (p.member i)) i := by simp [keyFails, he, hother]
      change i ∈ (tryEach w _ (p.order w.now).2 none (p.order w.now).1).tried at hi
      rcases hend with ⟨failed, k, rest, r, hl, hfailed, hk, htried, -⟩ |
        ⟨failed, k, rest, e', hl, hfailed, hk, -, htried, hout⟩ | ⟨hall, htried, -⟩
      · rw [htried] at hi
        rcases List.mem_append.mp hi with hi | hi
        · exact absurd (hfailed i hi) hnot
        · obtain rfl := List.mem_singleton.mp hi
          rw [he] at hk
          cases hk
      · rw [htried] at hi
        rcases List.mem_append.mp hi with hi | hi
        · exact absurd (hfailed i hi) hnot
        · obtain rfl := List.mem_singleton.mp hi
          have hsame : e = e' := Except.error.inj (he.symm.trans hk)
          refine ⟨by rw [hsame]; exact hout, ?_⟩
          show (tryEach w _ (p.order w.now).2 none (p.order w.now).1).tried.getLast? = some i
          rw [htried]
          simp
      · rw [htried] at hi
        exact absurd (hall i hi) hnot
    · intro e hout hkind i hi r hserves
      have hnot : ¬ keyFails (fun i => method (p.member i)) i := by simp [keyFails, hserves]
      change (tryEach w _ (p.order w.now).2 none (p.order w.now).1).outcome = .raised e at hout
      rcases hend with ⟨_, _, _, _, _, _, _, _, hret⟩ | ⟨_, _, _, e', _, _, _, hother, _, hraised⟩ |
        ⟨hall, _, _⟩
      · rw [hret] at hout
        cases hout
      · rw [hraised] at hout
        rw [PoolOutcome.raised.inj hout] at hother
        rw [hother] at hkind
        cases hkind
      · -- all tried members failed with key errors, so the one that serves was parked
        have hparked : i ∉ (p.order w.now).1 := fun hmem => hnot (hall i hmem)
        rw [mem_order, not_and, not_or] at hparked
        obtain ⟨-, hsome⟩ := hparked hi
        have hlive : ∃ j < p.members.length, p.live w.now j := by
          by_contra hno
          refine hsome fun j hj => ?_
          by_contra hj'
          exact hno ⟨j, hj, by simpa using hj'⟩
        exact hstrands ⟨hlive, fun j hj hj' => hall j (mem_order.mpr ⟨hj, .inl hj'⟩), i, hi, r, hserves⟩

/-- `complete` and `embed` keep the promises of the class exactly if the call
strands no parked member. -/
theorem failsOver_iff (p : KeyPool) (w : Meanwhile) :
    (∀ request : CompletionRequest,
      FailsOver p w (fun m => m.complete request) (p.complete w request) ↔
        ¬ p.Strands w.now fun m => m.complete request) ∧
    ∀ (texts : List String) (model : Option String),
      FailsOver p w (fun m => m.embed texts model) (p.embed w texts model) ↔
        ¬ p.Strands w.now fun m => m.embed texts model :=
  ⟨fun _ => p.failsOver_call_iff w _, fun _ _ => p.failsOver_call_iff w _⟩

/-- Two keys: the first is parked for another minute although it would serve,
the second is rejected. -/
def twoKeys : KeyPool where
  name := "openai"
  members :=
    [{ complete := fun _ => .error (.upstream { status := some 401 }), embed := fun _ _ => .ok [[1]] },
      { complete := fun _ => .error (.upstream { status := some 401 })
        embed := fun _ _ => .error (.upstream { status := some 401 }) }]
  labels := ["a", "b"]
  cooldown := 60
  parked := Dict.ofList [(0, 70)]
  members_ne := by simp

/-- The request fails with the error of the second key. -/
theorem twoKeys_stranded :
    let w : Meanwhile := { now := 10, parkedAt := fun _ => 11, others := fun _ => id }
    (twoKeys.embed w ["hi"] none).tried = [1] ∧
    (twoKeys.embed w ["hi"] none).outcome = .raised (.upstream { status := some 401 }) ∧
    ¬ FailsOver twoKeys w (fun m => m.embed ["hi"] none) (twoKeys.embed w ["hi"] none) := by
  intro w
  have hout : (twoKeys.embed w ["hi"] none).outcome = .raised (.upstream { status := some 401 }) := by
    decide +kernel
  refine ⟨by decide +kernel, hout, ?_⟩
  intro h
  exact h.serves _ hout (by decide +kernel) 0 (by decide +kernel) [[1]] rfl

end KeyPool

end Caips.Providers
