/-
Caips.Protocols.Unseal — opening a received message, after
`AgentMessageRouter.unseal` and `MessageEnvelope.from_dict` of
`protocols/distributed_agent.py`.

`unseal` catches a wrong MAC and a replay. Everything else it meets, it passes on:
a string that is no frame, and a body that is no envelope (`safe_iff`). A body is
looked at after its number was recorded, so where it is no envelope the number is
gone (`number_recorded`).
-/
import Caips.Api.Compat
import Caips.Logic.Sync
import Caips.Protocols.AgentRouter
import Caips.Protocols.Session

namespace Caips.Protocols

open Caips.Logic Caips.Api

/-! ## Envelopes -/

/-- `json`: both functions raise on some inputs. -/
structure JsonModule where
  loads : Bytes → Option Json
  dumps : Json → Option Bytes

def MessageType.value : MessageType → String
  | taskAssign => "task.assign"
  | taskResult => "task.result"
  | taskCancel => "task.cancel"
  | heartbeat => "heartbeat"
  | capabilityAnnounce => "capability.announce"
  | capabilityQuery => "capability.query"
  | stateSync => "state.sync"
  | error => "error"
  | ack => "ack"

def MessageType.all : List MessageType :=
  [taskAssign, taskResult, taskCancel, heartbeat, capabilityAnnounce, capabilityQuery, stateSync, error, ack]

def DeliveryMode.value : DeliveryMode → String
  | atMostOnce => "at_most_once"
  | atLeastOnce => "at_least_once"
  | exactlyOnce => "exactly_once"

def DeliveryMode.all : List DeliveryMode := [atMostOnce, atLeastOnce, exactlyOnce]

/-- The fields of `MessageEnvelope`. -/
def envelopeFields : List String :=
  ["msg_id", "protocol_version", "msg_type", "sender_id", "recipient_id", "correlation_id", "delivery_mode",
    "created_at", "ttl_s", "hop_count", "payload", "checksum"]

/-- A `MessageEnvelope` made from a dictionary: its fields are not checked, but for
the two enumerations. -/
structure MessageEnvelope where
  msgType : MessageType
  deliveryMode : DeliveryMode
  given : Members
  checksum : Json

/-- What `from_dict` raises. -/
inductive EnvelopeError where
  | notSubscriptable
  | missing (key : String)
  | notAMember (key : String) (value : Json)
  | unexpected (key : List Char)
  | checksum

/-- `Enum(data[key])`. -/
def enumItem {α : Type} (all : List α) (value : α → String) (members : Members) (key : String) :
    Except EnvelopeError α :=
  match item? members key with
  | none => .error (.missing key)
  | some v => match all.find? fun a => isText (value a) v with
    | none => .error (.notAMember key v)
    | some a => .ok a

variable (P : JsonModule) (sha256 : Bytes → Digest)

/-- `_compute_checksum`. -/
def computeChecksum (payload : Json) : Except EnvelopeError Json :=
  match P.dumps payload with
  | none => .error .checksum
  | some raw => .ok (.str (hex ((sha256 raw).1.take 8)).toList)

/-- `MessageEnvelope(**data)`, with `__post_init__`. -/
def makeEnvelope (msgType : MessageType) (deliveryMode : DeliveryMode) (data : Members) :
    Except EnvelopeError MessageEnvelope :=
  match data.find? fun m => m.1 ∉ envelopeFields.map String.toList with
  | some m => .error (.unexpected m.1)
  | none =>
    let checksum := getD data "checksum" (text "")
    if truthy checksum then .ok ⟨msgType, deliveryMode, data, checksum⟩
    else do
      let checksum ← computeChecksum P sha256 (getD data "payload" (.obj []))
      return ⟨msgType, deliveryMode, data, checksum⟩

/-- `from_dict`. -/
def fromDict (data : Json) : Except EnvelopeError MessageEnvelope :=
  match dict? data with
  | none => .error .notSubscriptable
  | some members => do
      let msgType ← enumItem MessageType.all MessageType.value members "msg_type"
      let deliveryMode ← enumItem DeliveryMode.all DeliveryMode.value members "delivery_mode"
      makeEnvelope P sha256 msgType deliveryMode members

/-! ## unseal -/

/-- `_sessions`. -/
abbrev Sessions := Dict String SecureSession

/-- What `unseal` raises. -/
inductive UnsealError where
  | receive (e : ReceiveError)
  | json
  | envelope (e : EnvelopeError)

/-- `MessageEnvelope.from_dict(json.loads(raw))`. -/
def openBody (raw : Bytes) : Except UnsealError MessageEnvelope :=
  match P.loads raw with
  | none => .error .json
  | some data => match fromDict P sha256 data with
    | .error e => .error (.envelope e)
    | .ok envelope => .ok envelope

variable (hmac : Hmac)

/-- `unseal`. -/
def Sessions.unseal (r : Sessions) (now : Float) (agentId : String) (sealed : Bytes) :
    Sessions × Except UnsealError (Option MessageEnvelope) :=
  match r.get? agentId with
  | none => (r, .ok none)
  | some session => match session.receive hmac now sealed with
    | .error (.frame .macVerification) => (r, .ok none)
    | .error (.replay _) => (r, .ok none)
    | .error e => (r, .error (.receive e))
    | .ok (session, raw) => (r.set agentId session, (openBody P sha256 raw).map some)

/-! ## Which bodies are envelopes -/

/-- A value that makes an envelope. -/
structure IsEnvelope (data : Json) (members : Members) : Prop where
  dict : data = .obj members
  msgType : ∃ t : MessageType, item? members "msg_type" = some (text t.value)
  deliveryMode : ∃ m : DeliveryMode, item? members "delivery_mode" = some (text m.value)
  known : ∀ m ∈ members, m.1 ∈ envelopeFields.map String.toList
  checksum : truthy (getD members "checksum" (text "")) = true ∨
    (P.dumps (getD members "payload" (.obj []))).isSome = true

theorem isText_iff (s : String) (v : Json) : isText s v = true ↔ v = text s := by
  cases v with
  | str t => simp [isText, text]
  | _ => simp [isText, text]

theorem enumItem_ok_iff {α : Type} {all : List α} (value : α → String) (hall : ∀ a, a ∈ all) (members : Members)
    (key : String) :
    (∃ a, enumItem all value members key = .ok a) ↔ ∃ a, item? members key = some (text (value a)) := by
  unfold enumItem
  cases hitem : item? members key with
  | none => simp
  | some v =>
    cases hfind : all.find? fun a => isText (value a) v with
    | none =>
      have hne : ∀ a, ¬v = text (value a) := fun a ha =>
        List.find?_eq_none.mp hfind a (hall a) ((isText_iff _ _).mpr ha)
      simp [hfind, hne]
    | some a =>
      have ha := (isText_iff (value a) v).mp (List.find?_some (p := fun a => isText (value a) v) hfind)
      simp only [hfind, Except.ok.injEq, exists_eq', Option.some.injEq, true_iff]
      exact ⟨a, ha⟩

theorem MessageType.mem_all (t : MessageType) : t ∈ MessageType.all := by cases t <;> decide

theorem DeliveryMode.mem_all (m : DeliveryMode) : m ∈ DeliveryMode.all := by cases m <;> decide

theorem makeEnvelope_ok_iff (t : MessageType) (m : DeliveryMode) (data : Members) :
    (∃ e, makeEnvelope P sha256 t m data = .ok e) ↔ (∀ m ∈ data, m.1 ∈ envelopeFields.map String.toList) ∧
      (truthy (getD data "checksum" (text "")) = true ∨
        (P.dumps (getD data "payload" (.obj []))).isSome = true) := by
  unfold makeEnvelope
  cases hfind : data.find? fun m => m.1 ∉ envelopeFields.map String.toList with
  | some m =>
    have hunknown : m.1 ∉ envelopeFields.map String.toList := by simpa using List.find?_some hfind
    simp only [reduceCtorEq, exists_false, false_iff, not_and]
    exact fun hknown => absurd (hknown m (List.mem_of_find?_eq_some hfind)) hunknown
  | none =>
    have hknown : ∀ m ∈ data, m.1 ∈ envelopeFields.map String.toList := by
      simpa [List.find?_eq_none] using hfind
    rw [and_iff_right hknown]
    dsimp only
    by_cases hchecksum : truthy (getD data "checksum" (text "")) = true
    · simp [hchecksum]
    · rw [if_neg hchecksum, or_iff_right hchecksum]
      cases hdumps : P.dumps (getD data "payload" (.obj [])) with
      | none => simp [computeChecksum, hdumps, bind, Except.bind]
      | some raw => simp [computeChecksum, hdumps, bind, Except.bind, pure, Except.pure]

theorem fromDict_ok_iff (data : Json) :
    (∃ e, fromDict P sha256 data = .ok e) ↔ ∃ members, IsEnvelope P data members := by
  unfold fromDict
  cases hdict : dict? data with
  | none =>
    simp only [reduceCtorEq, exists_false, false_iff]
    rintro ⟨members, h⟩
    rw [h.dict] at hdict
    exact nomatch hdict
  | some members =>
    have hdata : data = .obj members := by
      cases data with
      | obj l => exact congrArg Json.obj (Option.some.inj hdict)
      | _ => exact nomatch hdict
    have hmembers : (∃ l, IsEnvelope P data l) ↔ IsEnvelope P data members := by
      constructor
      · rintro ⟨l, h⟩
        obtain rfl : members = l := by simpa [hdata] using h.dict
        exact h
      · intro h
        exact ⟨members, h⟩
    have htype := enumItem_ok_iff MessageType.value MessageType.mem_all members "msg_type"
    have hmode := enumItem_ok_iff DeliveryMode.value DeliveryMode.mem_all members "delivery_mode"
    rw [hmembers]
    simp only
    constructor
    · rintro ⟨e, he⟩
      obtain ⟨t, ht, he⟩ := bind_ok_iff.mp he
      obtain ⟨m, hm, he⟩ := bind_ok_iff.mp he
      obtain ⟨hknown, hchecksum⟩ := (makeEnvelope_ok_iff P sha256 t m members).mp ⟨e, he⟩
      exact ⟨hdata, htype.mp ⟨t, ht⟩, hmode.mp ⟨m, hm⟩, hknown, hchecksum⟩
    · intro h
      obtain ⟨t, ht⟩ := htype.mpr h.msgType
      obtain ⟨m, hm⟩ := hmode.mpr h.deliveryMode
      obtain ⟨e, he⟩ := (makeEnvelope_ok_iff P sha256 t m members).mpr ⟨h.known, h.checksum⟩
      exact ⟨e, bind_ok_iff.mpr ⟨t, ht, bind_ok_iff.mpr ⟨m, hm, he⟩⟩⟩

/-- A body that opens: JSON, and an envelope. -/
def Opens (raw : Bytes) : Prop := ∃ data members, P.loads raw = some data ∧ IsEnvelope P data members

theorem openBody_ok_iff (raw : Bytes) : (∃ e, openBody P sha256 raw = .ok e) ↔ Opens P raw := by
  unfold openBody Opens
  cases hloads : P.loads raw with
  | none => simp
  | some data =>
    have hdict := fromDict_ok_iff P sha256 data
    cases hfrom : fromDict P sha256 data with
    | error e =>
      rw [hfrom] at hdict
      simpa [hfrom] using hdict
    | ok envelope =>
      rw [hfrom] at hdict
      simpa [hfrom] using hdict

/-! ## When it is safe -/

/-- A session takes a frame. -/
def SecureSession.Accepts (s : SecureSession) (now : Float) (d : Bytes) : Prop :=
  ∃ t, s.receive hmac now d = .ok t

/-- `unseal` returns, and where it returns no envelope the agent's session takes
every frame it took before, at every time. -/
structure Safe (r : Sessions) (now : Float) (agentId : String) (sealed : Bytes) : Prop where
  returns : ∃ result, (Sessions.unseal P sha256 hmac r now agentId sealed).2 = .ok result
  kept : (∀ envelope, (Sessions.unseal P sha256 hmac r now agentId sealed).2 ≠ .ok (some envelope)) →
    ∀ s, r.get? agentId = some s → ∃ s', (Sessions.unseal P sha256 hmac r now agentId sealed).1.get? agentId = some s' ∧
      ∀ t d, s.Accepts hmac t d → s'.Accepts hmac t d

/-- What is received is a frame, and if the session takes it then its body is an
envelope. -/
structure Handled (s : SecureSession) (now : Float) (sealed : Bytes) : Prop where
  established : s.state = .established
  frame : ∃ f, Parsed sealed f ∧ (Authentic hmac s.macKey f →
    (∃ guard, s.replayGuard.check now f.sequenceNo (.ofBits f.timestamp) = .ok guard) → Opens P f.body)

variable {P sha256 hmac} {r : Sessions} {now : Float} {agentId : String} {sealed raw : Bytes} {s s' : SecureSession}

variable (P sha256 hmac) in
/-- What comes of a string for an agent with a session: `unseal` raises, or drops
the string and leaves the session, or takes the frame and opens its body. -/
theorem unseal_cases (hs : r.get? agentId = some s) (now : Float) (sealed : Bytes) :
    ((∃ e, Sessions.unseal P sha256 hmac r now agentId sealed = (r, .error e)) ∧ ¬Handled P hmac s now sealed) ∨
    (Sessions.unseal P sha256 hmac r now agentId sealed = (r, .ok none) ∧ Handled P hmac s now sealed) ∨
    ∃ s' body, Sessions.unseal P sha256 hmac r now agentId sealed =
      (r.set agentId s', (openBody P sha256 body).map some) ∧ (Handled P hmac s now sealed ↔ Opens P body) := by
  by_cases hstate : s.state = .established
  swap
  · left
    refine ⟨⟨.receive (.notEstablished s.state), ?_⟩, fun h => hstate h.established⟩
    simp [Sessions.unseal, hs, SecureSession.receive, hstate]
  by_cases hparsed : ∃ f, Parsed sealed f
  swap
  · left
    obtain ⟨e, hne, hdecode⟩ := decode_eq_of_not_parsed hmac s.macKey (not_exists.mp hparsed)
    refine ⟨⟨.receive (.frame e), ?_⟩, ?_⟩
    · cases e with
      | macVerification => exact absurd rfl hne
      | _ => simp [Sessions.unseal, hs, SecureSession.receive, hstate, hdecode]
    · rintro ⟨_, f, hf, _⟩
      exact hparsed ⟨f, hf⟩
  obtain ⟨f, hf⟩ := hparsed
  right
  rcases hf.decode_eq hmac s.macKey with ⟨hdecode, hauthentic⟩ | ⟨hdecode, hforged⟩
  swap
  · left
    refine ⟨?_, hstate, f, hf, fun h => absurd h hforged⟩
    simp [Sessions.unseal, hs, SecureSession.receive, hstate, hdecode]
  cases hguard : s.replayGuard.check now f.sequenceNo (.ofBits f.timestamp) with
  | error e =>
    left
    refine ⟨?_, hstate, f, hf, ?_⟩
    · simp [Sessions.unseal, hs, SecureSession.receive, hstate, hdecode, hguard]
    · rintro _ ⟨g, hg⟩
      cases hguard.symm.trans hg
  | ok guard =>
    right
    obtain ⟨s', hrecv⟩ : ∃ s', s.receive hmac now sealed = .ok (s', f.body) :=
      ⟨_, SecureSession.receive_ok_iff.mpr ⟨hstate, f, guard, hdecode, hguard, rfl, rfl⟩⟩
    refine ⟨s', f.body, ?_, ?_⟩
    · simp only [Sessions.unseal, hs, hrecv]
    · constructor
      · rintro ⟨_, f', hf', h⟩
        obtain rfl := hf.eq.trans hf'.eq.symm
        exact h hauthentic ⟨guard, hguard⟩
      · intro hopens
        exact ⟨hstate, f, hf, fun _ _ => hopens⟩

/-- **`unseal` is safe exactly for the agents without a session, and on the frames
with a wrong MAC, a replay or an envelope**: it raises on any string that is no
frame and on any genuine body that is no envelope. -/
theorem safe_iff (P : JsonModule) (sha256 : Bytes → Digest) (hmac : Hmac) (r : Sessions) (now : Float)
    (agentId : String) (sealed : Bytes) :
    Safe P sha256 hmac r now agentId sealed ↔
      ∀ s, r.get? agentId = some s → Handled P hmac s now sealed := by
  cases hsession : r.get? agentId with
  | none =>
    have hnone : Sessions.unseal P sha256 hmac r now agentId sealed = (r, .ok none) := by
      simp [Sessions.unseal, hsession]
    simp only [reduceCtorEq, false_implies, implies_true, iff_true]
    refine ⟨⟨none, by rw [hnone]⟩, fun _ s hs => ?_⟩
    cases hsession.symm.trans hs
  | some s =>
    simp only [Option.some.injEq, forall_eq']
    rcases unseal_cases P sha256 hmac hsession now sealed with
      ⟨⟨e, hraise⟩, hnot⟩ | ⟨hdrop, hhandled⟩ | ⟨s', body, htake, hhandled⟩
    · simp only [hnot, iff_false]
      rintro ⟨⟨result, hresult⟩, -⟩
      rw [hraise] at hresult
      cases hresult
    · simp only [hhandled, iff_true]
      refine ⟨⟨none, by rw [hdrop]⟩, fun _ s' hs' => ⟨s', by rw [hdrop]; exact hs', fun _ _ h => h⟩⟩
    · rw [hhandled, ← openBody_ok_iff P sha256]
      constructor
      · rintro ⟨⟨result, hresult⟩, -⟩
        rw [htake] at hresult
        obtain ⟨e, he, -⟩ := map_ok_iff.mp hresult
        exact ⟨e, he⟩
      · rintro ⟨e, he⟩
        have hopened : (Sessions.unseal P sha256 hmac r now agentId sealed).2 = .ok (some e) := by
          rw [htake, he]
          rfl
        exact ⟨⟨some e, hopened⟩, fun hnone => absurd hopened (hnone e)⟩

/-- A frame that a session takes and whose body is no envelope makes `unseal`
raise, and from then on the session takes no frame of its number that reaches it
while the entry is there. -/
theorem number_recorded (hs : r.get? agentId = some s) (hrecv : s.receive hmac now sealed = .ok (s', raw))
    (hbody : ¬Opens P raw) :
    (∃ e, (Sessions.unseal P sha256 hmac r now agentId sealed).2 = .error e) ∧
      (Sessions.unseal P sha256 hmac r now agentId sealed).1.get? agentId = some s' ∧
      ∀ f f' d t, Parsed sealed f → Parsed d f' → f'.sequenceNo = f.sequenceNo → ¬s'.Accepts hmac t d := by
  have heq : Sessions.unseal P sha256 hmac r now agentId sealed =
      (r.set agentId s', (openBody P sha256 raw).map some) := by
    simp only [Sessions.unseal, hs, hrecv]
  obtain ⟨-, g, guard, hdecode, hguard, rfl, rfl⟩ := SecureSession.receive_ok_iff.mp hrecv
  refine ⟨?_, by simp [heq], ?_⟩
  · rw [heq]
    cases hopen : openBody P sha256 g.body with
    | error e => exact ⟨e, rfl⟩
    | ok envelope => exact absurd ((openBody_ok_iff P sha256 g.body).mp ⟨envelope, hopen⟩) hbody
  · rintro f f' d t hf hf' hseq ⟨⟨u, body⟩, hu⟩
    obtain ⟨-, g', guard', hdecode', hguard', -, -⟩ := SecureSession.receive_ok_iff.mp hu
    obtain rfl := (decode_parsed hdecode).eq.trans hf.eq.symm
    obtain rfl := (decode_parsed hdecode').eq.trans hf'.eq.symm
    obtain ⟨e, he⟩ := ReplayGuard.check_recorded hguard t (.ofBits g'.timestamp)
    rw [← hseq] at he
    cases he.symm.trans hguard'

def zeroDigest : Digest := ⟨List.replicate 32 0, by simp⟩

/-- The empty string makes `unseal` raise for an agent with a session. -/
theorem empty_raises : ¬Safe ⟨fun _ => none, fun _ => none⟩ (fun _ => zeroDigest) (fun _ _ => zeroDigest)
    (Dict.empty.set "agent" { macKey := [] }) 0 "agent" [] := by
  intro hsafe
  obtain ⟨result, hresult⟩ := hsafe.returns
  have hraise : (Sessions.unseal ⟨fun _ => none, fun _ => none⟩ (fun _ => zeroDigest) (fun _ _ => zeroDigest)
      (Dict.empty.set "agent" { macKey := [] }) 0 "agent" []).2 = .error (.receive (.frame .tooShort)) := rfl
  exact nomatch hraise.symm.trans hresult

end Caips.Protocols
