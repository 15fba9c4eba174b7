/-
Caips.Coreai.Errors — the exceptions the gateway meets and their
classification, after `coreai/errors.py`.

`Exc` lists the exceptions the router raises or handles by name, and
`upstream` for what a provider raises. Of an upstream exception it keeps what
`classify` looks at; the HTTP status and the Retry-After hint are taken as
`_status_of` and `_retry_after_of` read them off the SDK's exception object.
-/
import Mathlib.Data.Rat.Defs
import Mathlib.Data.List.Infix

namespace Caips.Coreai

/-- `ErrorKind`. -/
inductive ErrorKind where
  | rateLimit
  | overloaded
  | serverError
  | timeout
  | connection
  | auth
  | quota
  | badRequest
  | deadline
  | circuitOpen
  | unknown
  deriving DecidableEq, Repr

namespace ErrorKind

def value : ErrorKind → String
  | rateLimit => "rate_limit"
  | overloaded => "overloaded"
  | serverError => "server_error"
  | timeout => "timeout"
  | connection => "connection"
  | auth => "auth"
  | quota => "quota"
  | badRequest => "bad_request"
  | deadline => "deadline"
  | circuitOpen => "circuit_open"
  | unknown => "unknown"

/-- `RETRYABLE`: the same call may succeed if repeated shortly. -/
def retryable : List ErrorKind := [rateLimit, overloaded, serverError, timeout, connection]

/-- `FAILOVER`: another provider may well succeed. -/
def failover : List ErrorKind := retryable ++ [auth, quota, circuitOpen]

/-- `BREAKER_COUNTED`: counts against a provider's circuit breaker. -/
def breakerCounted : List ErrorKind := retryable ++ [auth, quota]

end ErrorKind

/-- `ErrorInfo`. -/
structure ErrorInfo where
  kind : ErrorKind
  status : Option Nat := none
  retryAfter : Option ℚ := none
  deriving DecidableEq

namespace ErrorInfo

/-- `retryable`. -/
def retryable (i : ErrorInfo) : Bool := i.kind ∈ ErrorKind.retryable

/-- `failover`. -/
def failover (i : ErrorInfo) : Bool := i.kind ∈ ErrorKind.failover

/-- `counts_against_breaker`. -/
def countsAgainstBreaker (i : ErrorInfo) : Bool := i.kind ∈ ErrorKind.breakerCounted

end ErrorInfo

/-- What `classify` reads off an exception that is none of the router's own:
the status, the Retry-After hint, whether its `code` is `insufficient_quota`,
the lower-case names of its classes joined by blanks, whether it is a
`TimeoutError` or a `ConnectionError`, and its text. -/
structure Facts where
  status : Option Nat := none
  retryAfter : Option ℚ := none
  quotaCode : Bool := false
  classNames : String := "exception baseexception object"
  isTimeout : Bool := false
  isConnection : Bool := false
  message : String := ""
  deriving DecidableEq

/-- The exceptions. `cancelled` and `generatorExit` are no `Exception`s in the
language's sense, only `BaseException`s. -/
inductive Exc where
  | cancelled
  | generatorExit
  | stopAsyncIteration
  | asyncTimeout
  | deadlineExceeded (message : String)
  | circuitOpen (provider : String) (retryAfter : Option ℚ)
  | rateLimited (provider : String) (retryAfter : Option ℚ)
  | providerTimeout (provider : String) (seconds : ℚ)
  | allProvidersUnavailable (failures : List (String × ErrorKind)) (retryAfter : Option ℚ)
  | valueError (message : String)
  | typeError (message : String)
  | keyError (key : String)
  | budgetExceeded (message : String) (retryAfter : ℚ)
  | upstream (f : Facts)
  deriving DecidableEq

namespace Exc

/-- `isinstance(exc, Exception)`. -/
def isException : Exc → Bool
  | cancelled => false
  | generatorExit => false
  | _ => true

/-- `isinstance(exc, RateLimited)`. -/
def isRateLimited : Exc → Bool
  | rateLimited _ _ => true
  | _ => false

/-- `isinstance(exc, KeyError)`. -/
def isKeyError : Exc → Bool
  | keyError _ => true
  | _ => false

/-- `AllProvidersUnavailable`: the text its constructor builds. -/
def unavailableText (failures : List (String × ErrorKind)) : String :=
  let detail := ", ".intercalate (failures.map fun f => f.1 ++ "=" ++ f.2.value)
  "all providers unavailable (" ++ (if detail = "" then "none configured" else detail) ++ ")"

/-- What `classify` reads off the exception. -/
def facts : Exc → Facts
  | cancelled => { classNames := "cancellederror baseexception object" }
  | generatorExit => { classNames := "generatorexit baseexception object" }
  | stopAsyncIteration => { classNames := "stopasynciteration exception baseexception object" }
  | asyncTimeout => { isTimeout := true }
  | deadlineExceeded m => { isTimeout := true, message := m }
  | circuitOpen p w => { retryAfter := w, message := "circuit open for provider '" ++ p ++ "'" }
  | rateLimited p w => { retryAfter := w, message := "rate limit reached for provider '" ++ p ++ "'" }
  | providerTimeout p _ => { isTimeout := true, message := p ++ " timed out" }
  | allProvidersUnavailable l w => { retryAfter := w, message := unavailableText l }
  | valueError m => { classNames := "valueerror exception baseexception object", message := m }
  | typeError m => { classNames := "typeerror exception baseexception object", message := m }
  | keyError k =>
    { classNames := "keyerror lookuperror exception baseexception object"
      message := "'" ++ k ++ "'" }
  | budgetExceeded m w => { retryAfter := some w, message := m }
  | upstream f => f

end Exc

/-- `needle in text`. -/
def occursIn (needle text : String) : Bool := decide (needle.toList <:+: text.toList)

/-- `_QUOTA_HINTS`. -/
def quotaHints : List String :=
  ["insufficient_quota", "exceeded your current quota", "billing", "credit balance"]

/-- The part of `classify` for an exception with an HTTP status. -/
def classifyStatus (f : Facts) (status : Nat) (message : String) : ErrorKind :=
  if status = 429 ∨ status = 402 then
    if status = 402 ∨ quotaHints.any (occursIn · message) ∨ f.quotaCode then .quota else .rateLimit
  else if status = 503 ∨ status = 529 then .overloaded
  else if status = 408 then .timeout
  else if 500 ≤ status then .serverError
  else if status = 401 ∨ status = 403 then .auth
  else if 400 ≤ status ∧ status < 500 then .badRequest
  else .unknown

/-- The part of `classify` for an exception without a status. -/
def classifyText (f : Facts) (message : String) : ErrorInfo :=
  if f.isTimeout ∨ occursIn "timeout" f.classNames then
    { kind := .timeout, retryAfter := f.retryAfter }
  else if f.isConnection ∨ occursIn "connect" f.classNames then
    { kind := .connection, retryAfter := f.retryAfter }
  else if occursIn "overloaded" message then { kind := .overloaded, retryAfter := f.retryAfter }
  else if quotaHints.any (occursIn · message) then { kind := .quota }
  else if ["rate limit", "429", "too many requests"].any (occursIn · message) then
    { kind := .rateLimit, retryAfter := f.retryAfter }
  else if ["timeout", "timed out"].any (occursIn · message) then
    { kind := .timeout, retryAfter := f.retryAfter }
  else if occursIn "connection" message then { kind := .connection, retryAfter := f.retryAfter }
  else { kind := .unknown, retryAfter := f.retryAfter }

/-- `classify`. -/
def classify (e : Exc) : ErrorInfo :=
  match e with
  | .deadlineExceeded _ => { kind := .deadline }
  | .circuitOpen _ w => { kind := .circuitOpen, retryAfter := w }
  | .rateLimited _ w => { kind := .rateLimit, retryAfter := w }
  | e =>
    let f := e.facts
    let message := f.message.toLower
    match f.status with
    | some status =>
      { kind := classifyStatus f status message, status := some status
        retryAfter := f.retryAfter }
    | none => classifyText f message

/-- `status_of`. -/
def statusOf (e : Exc) : Option Nat := e.facts.status

end Caips.Coreai
