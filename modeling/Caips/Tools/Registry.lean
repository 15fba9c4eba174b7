/-
Caips.Tools.Registry — the tools and the checks every call passes, after
`tools/registry.py`.

`check` is `_call` up to the line that invokes the handler: its answer is the
tool whose handler is invoked, or the error the call is refused with. It runs
without an await. `jsonschema.validate` is a parameter (the message of its
error, if it raises one). Spans and the audit hook are left out: nothing here
reads them, and the hook's exceptions are swallowed. The clock's readings are
the numbers its doubles stand for, and their differences are rounded.
-/
import Caips.Logic.Dict
import Caips.Logic.Json
import Caips.Logic.Rounding

namespace Caips.Tools

open Caips.Logic

/-- `Permission`. -/
inductive Permission where
  | readOnly
  | write
  | destructive
  deriving DecidableEq

namespace Permission

/-- `IntEnum`: the value. -/
def value : Permission → Nat
  | .readOnly => 0
  | .write => 1
  | .destructive => 2

def name : Permission → String
  | .readOnly => "READ_ONLY"
  | .write => "WRITE"
  | .destructive => "DESTRUCTIVE"

end Permission

/-- `ToolError`: its code and its text. -/
structure ToolError where
  code : String
  message : String
  deriving DecidableEq

/-- `ApprovalRequired`. -/
def approvalRequired (tool : String) : ToolError :=
  { code := "approval_required", message := s!"Tool '{tool}' needs human approval." }

/-- `Tool`, without its handler. -/
structure Tool where
  name : String
  parameters : Json
  permission : Permission := .readOnly
  ratePerMinute : Nat := 0

/-- `MAX_RATE_LIMIT_KEYS`. -/
def maxRateLimitKeys : Nat := 10000

/-- `ToolRegistry`: the tools by name, and the calls of the last minute by
caller and tool. -/
structure ToolRegistry where
  tools : Dict String Tool := .empty
  hits : Dict (String × String) (List ℚ) := .empty

/-- One call of a tool. -/
structure ToolCall where
  name : String
  arguments : Json
  allowed : List String
  caller : String
  maxPermission : Permission

namespace ToolRegistry

/-! ## The rate of a tool -/

/-- The hits that are younger than a minute. -/
def recent (hits : List ℚ) (now : ℚ) : List ℚ := hits.dropWhile fun h => 60 ≤ nearestDouble (now - h)

/-- The table without the keys nobody used for a minute. -/
def purge (r : ToolRegistry) (now : ℚ) : Dict (String × String) (List ℚ) :=
  r.hits.filter fun hits => !(hits.getLast?.all fun h => 60 ≤ nearestDouble (now - h))

def rateLimited (t : Tool) : ToolError :=
  { code := "rate_limited"
    message := s!"Tool '{t.name}' is limited to {t.ratePerMinute} calls/minute." }

def rateLimitCapacity : ToolError :=
  { code := "rate_limit_capacity"
    message := "Rate-limit tracking is at capacity; try again shortly." }

/-- The window of a key, once its row is found. -/
def hit (r : ToolRegistry) (t : Tool) (key : String × String) (hits : List ℚ) (now : ℚ) :
    Except ToolError Unit × ToolRegistry :=
  if t.ratePerMinute ≤ (recent hits now).length then
    (.error (rateLimited t), { r with hits := r.hits.set key (recent hits now) })
  else (.ok (), { r with hits := r.hits.set key (recent hits now ++ [now]) })

/-- `_check_rate`. -/
def checkRate (r : ToolRegistry) (t : Tool) (caller : String) (now : ℚ) :
    Except ToolError Unit × ToolRegistry :=
  if t.ratePerMinute = 0 then (.ok (), r)
  else
    match r.hits.get? (caller, t.name) with
    | some hits => r.hit t (caller, t.name) hits now
    | none =>
      if maxRateLimitKeys ≤ r.hits.size then
        if maxRateLimitKeys ≤ (r.purge now).size then
          (.error rateLimitCapacity, { r with hits := r.purge now })
        else { r with hits := r.purge now }.hit t (caller, t.name) [] now
      else r.hit t (caller, t.name) [] now

/-! ## The checks of a call -/

/-- `isinstance(arguments, dict)`. -/
def isDict : Json → Bool
  | .obj _ => true
  | _ => false

/-- The checks that come before the approval. -/
def precheck (validate : Json → Json → Option String) (r : ToolRegistry) (c : ToolCall) :
    Except ToolError Tool :=
  match r.tools.get? c.name with
  | none => .error { code := "unknown_tool", message := s!"No such tool '{c.name}'." }
  | some t =>
    if !c.allowed.contains "*" && !c.allowed.contains c.name then
      .error
        { code := "not_allowed"
          message := s!"Tool '{c.name}' is not allowed for this caller." }
    else if c.maxPermission.value < t.permission.value then
      .error
        { code := "permission_denied"
          message := s!"Tool '{c.name}' needs {t.permission.name} permission." }
    else if !isDict c.arguments then
      .error { code := "invalid_arguments", message := "Arguments must be a JSON object." }
    else match validate c.arguments t.parameters with
      | some message => .error { code := "invalid_arguments", message }
      | none => .ok t

/-- `_call` up to the handler. -/
def check (validate : Json → Json → Option String) (r : ToolRegistry) (c : ToolCall) (approved : Bool)
    (now : ℚ) : Except ToolError Tool × ToolRegistry :=
  match precheck validate r c with
  | .error e => (.error e, r)
  | .ok t =>
    if t.permission = .destructive ∧ approved = false then (.error (approvalRequired c.name), r)
    else match r.checkRate t c.caller now with
      | (.error e, r) => (.error e, r)
      | (.ok _, r) => (.ok t, r)

/-! ## Which calls pass -/

/-- The caller's window for a tool has room for one more call. -/
def rateRoom (r : ToolRegistry) (t : Tool) (caller : String) (now : ℚ) : Prop :=
  t.ratePerMinute = 0 ∨
    match r.hits.get? (caller, t.name) with
    | some hits => (recent hits now).length < t.ratePerMinute
    | none => r.hits.size < maxRateLimitKeys ∨ (r.purge now).size < maxRateLimitKeys

variable {r : ToolRegistry} {now : ℚ}

variable {t : Tool} {e : ToolError}

theorem hit_ok_iff {key : String × String} {hits : List ℚ} :
    (r.hit t key hits now).1 = .ok () ↔ (recent hits now).length < t.ratePerMinute := by
  unfold hit
  by_cases hfull : t.ratePerMinute ≤ (recent hits now).length
  · simp [hfull]
  · simp [if_neg hfull, not_le.mp hfull]

theorem checkRate_ok_iff {caller : String} :
    (r.checkRate t caller now).1 = .ok () ↔ r.rateRoom t caller now := by
  unfold checkRate rateRoom
  by_cases hzero : t.ratePerMinute = 0
  · simp [hzero]
  · rw [if_neg hzero]
    cases r.hits.get? (caller, t.name) with
    | some hits => simp [hzero, hit_ok_iff]
    | none =>
      have hempty : (recent [] now).length < t.ratePerMinute := Nat.pos_of_ne_zero hzero
      dsimp only
      by_cases hfull : maxRateLimitKeys ≤ r.hits.size
      · by_cases hpurged : maxRateLimitKeys ≤ (r.purge now).size
        · simp [hzero, hfull, hpurged]
        · simp [hzero, hfull, hpurged, hit_ok_iff, hempty, not_le.mp hpurged]
      · simp [hzero, hfull, hit_ok_iff, hempty, not_le.mp hfull]

theorem hit_code {key : String × String} {hits : List ℚ}
    (h : (r.hit t key hits now).1 = .error e) : e.code ≠ "approval_required" := by
  unfold hit at h
  by_cases hfull : t.ratePerMinute ≤ (recent hits now).length
  · rw [if_pos hfull] at h
    obtain rfl := Except.error.inj h
    simp [rateLimited]
  · rw [if_neg hfull] at h
    cases h

/-- A refusal for the rate is no request for an approval. -/
theorem checkRate_code {caller : String}
    (h : (r.checkRate t caller now).1 = .error e) : e.code ≠ "approval_required" := by
  unfold checkRate at h
  by_cases hzero : t.ratePerMinute = 0
  · rw [if_pos hzero] at h
    cases h
  · rw [if_neg hzero] at h
    cases hhits : r.hits.get? (caller, t.name) with
    | some hits =>
      rw [hhits] at h
      exact hit_code h
    | none =>
      rw [hhits] at h
      dsimp only at h
      by_cases hfull : maxRateLimitKeys ≤ r.hits.size
      · rw [if_pos hfull] at h
        by_cases hpurged : maxRateLimitKeys ≤ (r.purge now).size
        · rw [if_pos hpurged] at h
          obtain rfl := Except.error.inj h
          simp [rateLimitCapacity]
        · rw [if_neg hpurged] at h
          exact hit_code h
      · rw [if_neg hfull] at h
        exact hit_code h

/-- Nor is a refusal before the approval. -/
theorem precheck_code {validate : Json → Json → Option String} {c : ToolCall}
    (h : precheck validate r c = .error e) : e.code ≠ "approval_required" := by
  unfold precheck at h
  split at h
  · obtain rfl := Except.error.inj h
    simp
  · split_ifs at h
    · obtain rfl := Except.error.inj h
      simp
    · obtain rfl := Except.error.inj h
      simp
    · obtain rfl := Except.error.inj h
      simp
    · split at h
      · obtain rfl := Except.error.inj h
        simp
      · cases h

/-- A call without an approval: it needs one, or its approval does not matter. -/
theorem check_unapproved_cases (validate : Json → Json → Option String) (r : ToolRegistry) (c : ToolCall)
    (now : ℚ) :
    (∃ t, precheck validate r c = .ok t ∧ t.permission = .destructive ∧
      r.check validate c false now = (.error (approvalRequired c.name), r)) ∨
    ((∀ t, precheck validate r c = .ok t → t.permission ≠ .destructive) ∧
      ∀ e, (r.check validate c false now).1 = .error e → e.code ≠ "approval_required") := by
  unfold check
  cases hpre : precheck validate r c with
  | error e =>
    refine .inr ⟨fun t h => (nomatch h), fun e' h => ?_⟩
    obtain rfl := Except.error.inj h
    exact precheck_code hpre
  | ok t =>
    by_cases hdestructive : t.permission = .destructive
    · exact .inl ⟨t, rfl, hdestructive, if_pos ⟨hdestructive, rfl⟩⟩
    · refine .inr ⟨fun u h => Except.ok.inj h ▸ hdestructive, fun e h => ?_⟩
      dsimp only at h
      rw [if_neg fun hboth => hdestructive hboth.1] at h
      cases hrate : r.checkRate t c.caller now with
      | mk answer r' =>
        rw [hrate] at h
        cases answer with
        | error e' =>
          obtain rfl := Except.error.inj h
          exact checkRate_code (congrArg Prod.fst hrate)
        | ok _ => cases h

/-- A call with an approval goes through when all checks pass. -/
theorem check_approved_iff (validate : Json → Json → Option String) {c : ToolCall}
    :
    (r.check validate c true now).1 = .ok t ↔
      precheck validate r c = .ok t ∧ r.rateRoom t c.caller now := by
  unfold check
  cases hpre : precheck validate r c with
  | error e => simp
  | ok u =>
    simp only [Bool.true_eq_false, and_false, if_false]
    rw [← checkRate_ok_iff]
    cases hrate : r.checkRate u c.caller now with
    | mk answer r' =>
      cases answer with
      | error e =>
        simp only [reduceCtorEq, false_iff, Except.ok.injEq, not_and]
        rintro rfl
        rw [hrate]
        simp
      | ok _ =>
        simp only [Except.ok.injEq]
        constructor
        · rintro rfl
          exact ⟨rfl, by rw [hrate]⟩
        · exact And.left

end ToolRegistry

end Caips.Tools
