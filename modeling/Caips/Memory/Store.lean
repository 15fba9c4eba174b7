/-
Caips.Memory.Store — long-term memory, after `MemoryStore` of `memory/store.py`.

The table is the list of its rows. What `pii_redact`, `str.lower` and `str.split` make
of a text is given, and so is which of the rows with the least time SQLite deletes.

* `bounded` — a key is stored once, and no scope outgrows its bound.
* `nothing_shared` — what an owner is told is what he would be told without the others,
  but for the number of rows that `forget` has deleted (`forget_shared`).
-/
import Mathlib.Algebra.Order.Field.Rat
import Mathlib.Data.List.Infix
import Mathlib.Data.List.MinMax
import Mathlib.Data.List.Nodup

namespace Caips.Memory

/-- `MAX_VALUE_CHARS`. -/
def maxValueChars : ℕ := 8000

/-- `MAX_ITEMS_PER_SCOPE`. -/
def maxItemsPerScope : ℕ := 1000

/-- A row of `memory`. -/
structure Row where
  owner : String
  ns : String
  key : String
  value : String
  created : ℚ
  updated : ℚ
  deriving DecidableEq

/-- The primary key. -/
def Row.id (r : Row) : String × String × String := (r.owner, r.ns, r.key)

/-- A `MemoryStore`, but for its table. -/
structure MemoryStore where
  retention : ℚ
  redact : Bool
  piiRedact : String → String
  lower : String → String
  split : String → List String
  /-- `ORDER BY updated LIMIT 1`. -/
  oldest : List Row → Option Row
  oldest_spec : ∀ rows ≠ [], ∃ r ∈ rows, oldest rows = some r ∧ ∀ r' ∈ rows, r.updated ≤ r'.updated

/-- A question to the table. -/
inductive Query where
  | recall (key ns : String)
  | view (ns : Option String)
  | search (text : String) (ns : Option String) (limit : ℤ)

inductive Call where
  /-- The clock is read twice. -/
  | remember (owner key value ns : String) (now later : ℚ)
  | ask (owner : String) (q : Query) (now : ℚ)
  | forget (owner : String) (key ns : Option String)

def Call.owner : Call → String
  | remember owner _ _ _ _ _ => owner
  | ask owner _ _ => owner
  | forget owner _ _ => owner

def Call.readings : Call → List ℚ
  | remember _ _ _ _ now later => [now, later]
  | ask _ _ now => [now]
  | forget _ _ _ => []

inductive Answer where
  | raised (text : String)
  | stored
  | value (v : Option String)
  | items (rows : List Row)
  | deleted (n : ℕ)
  deriving DecidableEq

/-- The answer without the number of deleted rows. -/
def Answer.blur : Answer → Answer
  | deleted _ => deleted 0
  | a => a

/-- `ORDER BY ns, key`. -/
def before (a b : Row) : Bool := a.ns < b.ns ∨ a.ns = b.ns ∧ a.key ≤ b.key

/-- The condition of a statement. -/
def selects (owner : String) (key ns : Option String) (r : Row) : Bool :=
  r.owner = owner ∧ (∀ n ∈ ns, r.ns = n) ∧ ∀ k ∈ key, r.key = k

/-- `ON CONFLICT DO UPDATE`. -/
def Row.overwrite (owner ns key value : String) (now : ℚ) (r : Row) : Row :=
  if selects owner (some key) (some ns) r then { r with value := value, updated := now } else r

@[simp] theorem Row.overwrite_id (owner ns key value : String) (now : ℚ) (r : Row) :
    (r.overwrite owner ns key value now).id = r.id := by
  unfold overwrite
  split <;> rfl

@[simp] theorem Row.overwrite_owner (owner ns key value : String) (now : ℚ) (r : Row) :
    (r.overwrite owner ns key value now).owner = r.owner :=
  congrArg Prod.fst (r.overwrite_id owner ns key value now)

namespace MemoryStore

variable (M : MemoryStore)

def expire (now : ℚ) (rows : List Row) : List Row :=
  if M.retention = 0 then rows else rows.filter fun r => ¬r.updated < now - M.retention

/-- The table with room for another item. -/
def evict (owner ns : String) (rows : List Row) : List Row :=
  let scope := rows.filter (selects owner none (some ns))
  if maxItemsPerScope ≤ scope.length then rows.filter fun r =>
    (M.oldest scope).map Row.id ≠ some r.id else rows

/-- The statements of `remember`. -/
def store (owner ns key value : String) (now : ℚ) (rows : List Row) : List Row :=
  if rows.any (selects owner (some key) (some ns)) then rows.map (Row.overwrite owner ns key value now)
  else M.evict owner ns rows ++ [⟨owner, ns, key, value, now, now⟩]

/-- What is stored of a value. -/
def cleaned (value : String) : String := if M.redact then M.piiRedact value else value

def view (owner : String) (ns : Option String) (rows : List Row) : List Row :=
  (rows.filter (selects owner none ns)).mergeSort before

/-- `items[:limit]`: a negative limit leaves out that many at the end. -/
def upTo (limit : ℤ) (items : List Row) : List Row :=
  items.take (if 0 ≤ limit then limit else items.length + limit).toNat

def search (text : String) (limit : ℤ) (items : List Row) : List Row :=
  let words := (M.split (M.lower text)).filter fun w => 2 < w.length
  let score (r : Row) := words.countP fun w => w.toList <:+: (M.lower s!"{r.key} {r.value}").toList
  upTo limit ((items.filter (score · ≠ 0)).mergeSort fun a b =>
    score b < score a ∨ score a = score b ∧ b.updated ≤ a.updated)

/-- `recall`, `view` and `search`, after `expire`. -/
def answer (owner : String) (rows : List Row) : Query → Answer
  | .recall key ns => .value ((rows.find? (selects owner (some key) (some ns))).map Row.value)
  | .view ns => .items (view owner ns rows)
  | .search text ns limit => .items (M.search text limit (view owner ns rows))

def perform : Call → List Row → List Row × Answer
  | .remember owner key value ns now later, rows =>
    if owner = "" ∨ key = "" then (rows, .raised "owner and key are required")
    else if maxValueChars < value.length then (rows, .raised s!"value exceeds {maxValueChars} characters")
    else (M.store owner ns key (M.cleaned value) now (M.expire later rows), .stored)
  | .ask owner q now, rows => (M.expire now rows, M.answer owner (M.expire now rows) q)
  | .forget owner key ns, rows => (rows.filter (!selects owner key ns ·), .deleted (rows.countP (selects owner key ns)))

/-- The table after some calls. -/
def run (l : List Call) : List Row := l.foldl (fun rows c => (M.perform c rows).1) []

def answers : List Row → List Call → List (Call × Answer)
  | _, [] => []
  | rows, c :: l => (c, (M.perform c rows).2) :: answers (M.perform c rows).1 l

variable {M} {rows T U : List Row} {o owner ns key value : String} {now t : ℚ} {c : Call}

theorem selects_owner {key ns : Option String} {r : Row} (h : selects o key ns r = true) : r.owner = o := by
  simp only [selects, decide_eq_true_eq] at h
  exact h.1

theorem oldest_scope (h : maxItemsPerScope ≤ (rows.filter (selects owner none (some ns))).length) :
    ∃ r ∈ rows.filter (selects owner none (some ns)),
      M.oldest (rows.filter (selects owner none (some ns))) = some r := by
  have hsome : rows.filter (selects owner none (some ns)) ≠ [] := by
    intro hnone
    simp [hnone, maxItemsPerScope] at h
  obtain ⟨r, hr, holdest, -⟩ := M.oldest_spec _ hsome
  exact ⟨r, hr, holdest⟩

/-! ## Bounds -/

/-- What holds of the table. -/
structure Bounded (M : MemoryStore) (rows : List Row) : Prop where
  once : (rows.map Row.id).Nodup
  room : ∀ owner ns, rows.countP (selects owner none (some ns)) ≤ maxItemsPerScope
  stored : ∀ r ∈ rows, r.owner ≠ "" ∧ r.key ≠ "" ∧ ∃ v, v.length ≤ maxValueChars ∧ r.value = M.cleaned v

theorem Bounded.sublist (h : M.Bounded rows) (hT : T.Sublist rows) : M.Bounded T where
  once := h.once.sublist (hT.map _)
  room owner ns := hT.countP_le.trans (h.room owner ns)
  stored r hr := h.stored r (hT.mem hr)

theorem expire_sublist (now : ℚ) (rows : List Row) : (M.expire now rows).Sublist rows := by
  unfold expire
  split
  · exact .refl _
  · exact List.filter_sublist

theorem evict_sublist (owner ns : String) (rows : List Row) : (M.evict owner ns rows).Sublist rows := by
  unfold evict
  dsimp only
  split
  · exact List.filter_sublist
  · exact .refl _

/-- There is room for another item. -/
theorem Bounded.evict_lt (h : M.Bounded rows) (owner ns : String) :
    (M.evict owner ns rows).countP (selects owner none (some ns)) < maxItemsPerScope := by
  have hroom := h.room owner ns
  rw [List.countP_eq_length_filter] at hroom ⊢
  unfold evict
  dsimp only
  split
  · next hfull =>
    obtain ⟨r, hr, holdest⟩ := oldest_scope (M := M) hfull
    have hcomm : (rows.filter fun r' => some r.id ≠ some r'.id).filter (selects owner none (some ns)) =
        (rows.filter (selects owner none (some ns))).filter fun r' => some r.id ≠ some r'.id := by
      simp [List.filter_filter, Bool.and_comm]
    rw [holdest, Option.map_some, hcomm]
    exact (List.length_filter_lt_length_iff_exists.mpr ⟨r, hr, by simp⟩).trans_le hroom
  · next hroom => exact Nat.not_le.mp hroom

theorem Bounded.store (h : M.Bounded rows) (howner : owner ≠ "") (hkey : key ≠ "") (hvalue : value.length ≤ maxValueChars) :
    M.Bounded (M.store owner ns key (M.cleaned value) now rows) := by
  unfold MemoryStore.store
  split
  · refine ⟨?_, fun owner' ns' => ?_, fun r hr => ?_⟩
    · simpa [Function.comp_def] using h.once
    · have hsame : selects owner' none (some ns') ∘ Row.overwrite owner ns key
          (M.cleaned value) now = selects owner' none (some ns') := by
        funext r
        unfold Row.overwrite
        simp only [Function.comp_apply]
        split <;> rfl
      rw [List.countP_map, hsame]
      exact h.room owner' ns'
    · obtain ⟨r', hr', rfl⟩ := List.mem_map.mp hr
      obtain ⟨hr₁, hr₂, hr₃⟩ := h.stored r' hr'
      unfold Row.overwrite
      split
      · exact ⟨hr₁, hr₂, value, hvalue, rfl⟩
      · exact ⟨hr₁, hr₂, hr₃⟩
  · next hnew =>
    have hleft : M.Bounded (M.evict owner ns rows) := h.sublist (evict_sublist owner ns rows)
    refine ⟨?_, fun owner' ns' => ?_, fun r hr => ?_⟩
    · rw [List.map_append, List.nodup_append]
      refine ⟨hleft.once, by simp, ?_⟩
      rintro _ hmem _ hlast rfl
      obtain ⟨r, hr, hid⟩ := List.mem_map.mp hmem
      refine hnew (List.any_eq_true.mpr ⟨r, (evict_sublist owner ns rows).mem hr, ?_⟩)
      simp_all [selects, Row.id]
    · rw [List.countP_append]
      by_cases hscope : owner = owner' ∧ ns = ns'
      · obtain ⟨rfl, rfl⟩ := hscope
        have hone : [(⟨owner, ns, key, M.cleaned value, now, now⟩ : Row)].countP
          (selects owner none (some ns)) ≤ 1 := List.countP_le_length
        have hroom := h.evict_lt owner ns
        omega
      · rw [List.countP_cons_of_neg (by simpa [selects] using hscope)]
        exact hleft.room owner' ns'
    · obtain hr | hr := List.mem_append.mp hr
      · exact hleft.stored r hr
      · obtain rfl := List.mem_singleton.mp hr
        exact ⟨howner, hkey, value, hvalue, rfl⟩

theorem Bounded.perform (h : M.Bounded rows) (c : Call) : M.Bounded (M.perform c rows).1 := by
  cases c with
  | remember owner key value ns now later =>
    dsimp only [MemoryStore.perform]
    split_ifs with hempty hlong
    · exact h
    · exact h
    · obtain ⟨howner, hkey⟩ := not_or.mp hempty
      exact (h.sublist (expire_sublist later rows)).store howner hkey (Nat.not_lt.mp hlong)
  | ask owner q now => exact h.sublist (expire_sublist now rows)
  | forget owner key ns => exact h.sublist List.filter_sublist

/-- **The memory is bounded**: in every run a key of a scope is stored once, a scope has no more items
than its bound, and what is stored is what became of a value of an allowed length. -/
theorem bounded (M : MemoryStore) (l : List Call) : M.Bounded (M.run l) := by
  induction l using List.reverseRecOn with
  | nil => exact ⟨List.nodup_nil, fun _ _ => Nat.zero_le _, nofun⟩
  | append_singleton l c ih =>
    rw [run, List.foldl_append]
    exact ih.perform c

/-! ## Owners -/

/-- The rows of an owner. -/
def own (o : String) (rows : List Row) : List Row := rows.filter (·.owner = o)

theorem own_filter (p : Row → Bool) : own o (rows.filter p) = (own o rows).filter p := by
  simp [own, List.filter_filter, Bool.and_comm]

theorem filter_own {p : Row → Bool} (h : ∀ r, p r = true → r.owner = o) :
    (own o rows).filter p = rows.filter p := by
  rw [own, List.filter_filter]
  refine List.filter_congr fun r _ => ?_
  cases hp : p r <;> simp [h, hp]

theorem own_filter_of_ne {p : Row → Bool} (h : ∀ r, r.owner = o → p r = true) :
    own o (rows.filter p) = own o rows := by
  rw [own_filter, List.filter_eq_self]
  exact fun r hr => h r (by simpa using (List.mem_filter.mp hr).2)

theorem own_expire : own o (M.expire now rows) = M.expire now (own o rows) := by
  unfold expire
  split
  · rfl
  · exact own_filter _

theorem expire_expire (h : now ≤ t) : M.expire t (M.expire now rows) = M.expire t rows := by
  unfold expire
  split
  · rfl
  · rw [List.filter_filter]
    refine List.filter_congr fun r _ => ?_
    have hle : now - M.retention ≤ t - M.retention := sub_le_sub_right h _
    rw [← Bool.decide_and, decide_eq_decide]
    exact ⟨And.left, fun hr => ⟨hr, fun hlt => hr (hlt.trans_le hle)⟩⟩

theorem own_store : own o (M.store o ns key value now rows) = M.store o ns key value now (own o rows) := by
  have hany : (own o rows).any (selects o (some key) (some ns)) =
      rows.any (selects o (some key) (some ns)) := by
    rw [own, List.any_filter]
    refine congrArg _ (funext fun r => ?_)
    cases hsel : selects o (some key) (some ns) r with
    | false => exact Bool.and_false _
    | true => simp [selects_owner hsel]
  unfold store
  rw [hany]
  split
  · simp [own, List.filter_map, Function.comp_def]
  · have hevict : own o (M.evict o ns rows) = M.evict o ns (own o rows) := by
      unfold evict
      rw [filter_own fun _ => selects_owner]
      dsimp only
      split
      · exact own_filter _
      · rfl
    rw [← hevict]
    simp [own]

theorem own_store_of_ne (h : owner ≠ o) : own o (M.store owner ns key value now rows) = own o rows := by
  unfold store
  split
  · simp only [own, List.filter_map, Function.comp_def, Row.overwrite_owner]
    refine (List.map_congr_left fun r hr => if_neg fun hsel => h ?_).trans (List.map_id' _)
    exact (selects_owner hsel).symm.trans (by simpa using (List.mem_filter.mp hr).2)
  · have hevict : own o (M.evict owner ns rows) = own o rows := by
      unfold evict
      dsimp only
      split
      · next hfull =>
        obtain ⟨r, hr, holdest⟩ := oldest_scope (M := M) hfull
        refine own_filter_of_ne fun r' hr' => ?_
        have hne : r.owner ≠ r'.owner := by
          rw [selects_owner (List.mem_filter.mp hr).2, hr']
          exact h
        simp [holdest, Row.id, hne]
      · rfl
    rw [own, List.filter_append, List.filter_cons_of_neg (by simpa using h), List.filter_nil, List.append_nil]
    exact hevict

theorem answer_own (q : Query) : M.answer o (own o rows) q = M.answer o rows q := by
  have hview (ns : Option String) : view o ns (own o rows) = view o ns rows := by
    rw [view, filter_own fun _ => selects_owner, view]
  rcases q with ⟨key, ns⟩ | ns | ⟨text, ns, limit⟩
  · dsimp only [answer]
    rw [← List.head?_filter, filter_own fun _ => selects_owner, List.head?_filter]
  · exact congrArg _ (hview ns)
  · exact congrArg _ (congrArg _ (hview ns))

/-- Two tables that an owner cannot tell apart: his rows are the same but for some that are over. -/
def Alike (M : MemoryStore) (o : String) (later : List ℚ) (T U : List Row) : Prop :=
  ∀ r ∈ later, M.expire r (own o T) = M.expire r U

theorem Alike.own {later : List ℚ} (h : M.Alike o (c.readings ++ later) T U) (hc : c.owner = o) :
    M.Alike o later (M.perform c T).1 (M.perform c U).1 ∧
      (M.perform c T).2.blur = (M.perform c U).2.blur := by
  subst hc
  cases c with
  | remember owner key value ns now time =>
    have htime := h time (by simp [Call.readings])
    dsimp only [Call.owner, MemoryStore.perform] at *
    split_ifs
    · exact ⟨fun r hr => h r (List.mem_append_right _ hr), rfl⟩
    · exact ⟨fun r hr => h r (List.mem_append_right _ hr), rfl⟩
    · refine ⟨fun r hr => ?_, rfl⟩
      rw [own_store, own_expire, htime]
  | ask owner q now =>
    have hnow := h now (by simp [Call.readings])
    dsimp only [Call.owner, MemoryStore.perform] at *
    rw [← own_expire] at hnow
    refine ⟨fun r hr => ?_, ?_⟩
    · rw [hnow]
    · rw [← hnow, answer_own]
  | forget owner key ns =>
    refine ⟨fun r hr => ?_, rfl⟩
    have hr := h r (List.mem_append_right _ hr)
    dsimp only [Call.owner, MemoryStore.perform] at *
    have hcomm (X : List Row) : M.expire r (X.filter (!selects owner key ns ·)) =
        (M.expire r X).filter (!selects owner key ns ·) := by
      unfold expire
      split
      · rfl
      · simp [List.filter_filter, Bool.and_comm]
    rw [own_filter, hcomm, hr, hcomm]

/-- The calls of the others. -/
theorem Alike.other {later : List ℚ} (h : M.Alike o (c.readings ++ later) T U) (hc : c.owner ≠ o)
    (hlater : ∀ r ∈ c.readings, ∀ r' ∈ later, r ≤ r') : M.Alike o later (M.perform c T).1 U := by
  intro r hr
  rw [← h r (List.mem_append_right _ hr)]
  cases c with
  | remember owner key value ns now time =>
    dsimp only [MemoryStore.perform]
    split_ifs
    · rfl
    · rfl
    · have hne : owner ≠ o := hc
      rw [own_store_of_ne hne, own_expire]
      exact expire_expire (hlater time (by simp [Call.readings]) r hr)
  | ask owner q now =>
    rw [MemoryStore.perform, own_expire]
    exact expire_expire (hlater now (by simp [Call.readings]) r hr)
  | forget owner key ns =>
    rw [MemoryStore.perform, own_filter_of_ne]
    intro r hr
    cases hsel : selects owner key ns r with
    | false => rfl
    | true => exact absurd ((selects_owner hsel).symm.trans hr) hc

theorem answers_alike {l : List Call} (hl : (l.flatMap Call.readings).Pairwise (· ≤ ·))
    (h : M.Alike o (l.flatMap Call.readings) T U) :
    ((M.answers T l).filter (·.1.owner = o)).map (·.2.blur) =
    (M.answers U (l.filter (·.owner = o))).map (·.2.blur) := by
  induction l generalizing T U with
  | nil => rfl
  | cons c l ih =>
    rw [List.flatMap_cons] at hl h
    obtain ⟨-, hrest, hlater⟩ := List.pairwise_append.mp hl
    by_cases hc : c.owner = o
    · obtain ⟨hnext, hanswer⟩ := h.own hc
      rw [List.filter_cons_of_pos (by simpa using hc), answers, answers,
        List.filter_cons_of_pos (by simpa using hc),
        List.map_cons, List.map_cons, ih hrest hnext, hanswer]
    · rw [List.filter_cons_of_neg (by simpa using hc), answers,
        List.filter_cons_of_neg (by simpa using hc), ih hrest (h.other hc hlater)]

/-- **Nothing is shared across owners**: on a clock that is not set back, the answers to an owner are those
he would get if he were the only one, but for the number of rows that `forget` deletes. -/
theorem nothing_shared {l : List Call} (h : (l.flatMap Call.readings).Pairwise (· ≤ ·)) (o : String) :
    ((M.answers [] l).filter (·.1.owner = o)).map (·.2.blur) =
    (M.answers [] (l.filter (·.owner = o))).map (·.2.blur) :=
  answers_alike h fun _ _ => rfl

def tenSeconds : MemoryStore where
  retention := 10
  redact := false
  piiRedact := id
  lower := id
  split text := [text]
  oldest rows := rows.argmin Row.updated
  oldest_spec rows hrows := by
    obtain ⟨r, hr⟩ : ∃ r, rows.argmin Row.updated = some r :=
      Option.ne_none_iff_exists'.mp fun hnone => hrows (List.argmin_eq_none.mp hnone)
    exact ⟨r, List.argmin_mem hr, hr, fun r' hmem => List.le_of_mem_argmin (f := Row.updated) hmem hr⟩

/-- A visit of `b` between two of `a`. -/
def visited : List Call := [.remember "a" "k" "v" "default" 0 0, .ask "b" (.recall "k" "default") 20, .forget "a" none none]

theorem nothing_shared_visited :
    ((tenSeconds.answers [] visited).filter (·.1.owner = "a")).map (·.2.blur) =
      (tenSeconds.answers [] (visited.filter (·.owner = "a"))).map (·.2.blur) := nothing_shared (by decide +kernel) "a"

theorem forget_shared :
    ((tenSeconds.answers [] visited).filter (·.1.owner = "a")).map (·.2) = [.stored, .deleted 0] ∧
      (tenSeconds.answers [] (visited.filter (·.owner = "a"))).map (·.2) = [.stored, .deleted 1] := by
  decide +kernel

end MemoryStore

end Caips.Memory
