/-
Caips.Protocols.Handshake — deriving session keys, after `derive_session_keys`
and `STPHandshake` of `protocols/secure_protocol.py`.

Two parties exchange hellos and each derives keys. The MAC and the hash are
functions; clocks, nonces and the identifier a party draws for its own keys are
given. `Meeting` runs the two parties against each other, in any order of their
steps.
-/
import Caips.Logic.Machine
import Caips.Protocols.Frame
import Mathlib.Algebra.Order.Field.Rat
import Mathlib.Algebra.Order.Group.Abs

namespace Caips.Protocols

open Caips.Logic

def sessionKeySize : ℕ := 32

/-- The seconds a hello may be away from the receiver's clock, `REPLAY_WINDOW_S`. -/
def helloWindowS : ℚ := 30

/-- `str.encode`. -/
def utf8 (s : String) : Bytes := s.toUTF8.toList

/-- `SessionKeys`. -/
structure SessionKeys where
  sessionId : String
  sendKey : Bytes
  recvKey : Bytes
  macKey : Bytes
  createdAt : ℚ
  rekeyAfterS : ℚ := 3600
  deriving DecidableEq

inductive HandshakeRole where
  | initiator
  | responder
  deriving DecidableEq, Repr

def HandshakeRole.other : HandshakeRole → HandshakeRole
  | initiator => responder
  | responder => initiator

/-- `HandshakeHello`. -/
structure HandshakeHello where
  nodeId : String
  nonce : Nonce
  protocolVersion : ℕ := stpVersion
  timestamp : ℚ
  supportedCiphers : List String := ["HMAC-SHA256", "AES-256-GCM"]
  deriving DecidableEq

/-- `HandshakeFinish`. -/
structure HandshakeFinish where
  nodeId : String
  sessionId : String
  keyFingerprint : String
  timestamp : ℚ
  verificationTag : Bytes
  deriving DecidableEq

variable (hmac : Hmac) (sha256 : Bytes → Digest)

/-- The blocks of `hkdf_expand` from the `i`-th on, until `length` bytes are there. -/
def hkdfBlocks (prk info : Bytes) (length : ℕ) : ℕ → ℕ → Bytes → Bytes → Bytes
  | 0, _, _, okm => okm
  | fuel + 1, i, t, okm =>
    if okm.length < length then
      let t := (hmac prk (t ++ info ++ [UInt8.ofNat i])).1
      hkdfBlocks prk info length fuel (i + 1) t (okm ++ t)
    else okm

/-- `hkdf_expand`; every block has 32 bytes, so `length` rounds are enough. -/
def hkdfExpand (prk info : Bytes) (length : ℕ) : Bytes :=
  (hkdfBlocks hmac prk info length length 1 [] []).take length

/-- `derive_session_keys`, with the identifier and the time of the new keys. -/
def deriveSessionKeys (sharedSecret initiatorNonce responderNonce : Bytes) (sessionId : String) (now : ℚ) :
    SessionKeys :=
  let prk := (hmac (initiatorNonce ++ responderNonce) sharedSecret).1
  { sessionId := sessionId, createdAt := now
    sendKey := hkdfExpand hmac prk (utf8 "coreai-stp-send") sessionKeySize
    recvKey := hkdfExpand hmac prk (utf8 "coreai-stp-recv") sessionKeySize
    macKey := hkdfExpand hmac prk (utf8 "coreai-stp-mac") sessionKeySize }

/-- `SessionKeys.fingerprint`. -/
def SessionKeys.fingerprint (k : SessionKeys) : String :=
  String.ofList ((hex (sha256 (k.sendKey ++ k.recvKey ++ k.macKey)).1).toList.take 16)

/-- What a handshake raises, by its message. -/
inductive HandshakeError where
  | outsideWindow
  | noHellos
  | noKeys
  deriving DecidableEq

def HandshakeError.text : HandshakeError → String
  | outsideWindow => "Remote hello timestamp outside acceptable window"
  | noHellos => "Cannot derive keys before both hellos are exchanged"
  | noKeys => "Keys not derived yet"

/-- `STPHandshake`. -/
structure STPHandshake where
  nodeId : String
  role : HandshakeRole
  localHello : Option HandshakeHello := none
  remoteHello : Option HandshakeHello := none
  sessionKeys : Option SessionKeys := none
  deriving DecidableEq

namespace STPHandshake

/-- `build_hello`. -/
def buildHello (h : STPHandshake) (nonce : Nonce) (now : ℚ) : STPHandshake :=
  { h with localHello := some { nodeId := h.nodeId, nonce := nonce, timestamp := now } }

/-- `receive_hello`. -/
def receiveHello (h : STPHandshake) (remote : HandshakeHello) (now : ℚ) : Except HandshakeError STPHandshake :=
  if |now - remote.timestamp| > helloWindowS then .error .outsideWindow
  else .ok { h with remoteHello := some remote }

/-- `derive_keys`. -/
def deriveKeys (h : STPHandshake) (sharedSecret : Bytes) (sessionId : String) (now : ℚ) :
    Except HandshakeError STPHandshake :=
  match h.localHello, h.remoteHello with
  | some mine, some theirs =>
    let (initiatorNonce, responderNonce) := match h.role with
      | .initiator => (mine.nonce, theirs.nonce)
      | .responder => (theirs.nonce, mine.nonce)
    .ok { h with
      sessionKeys := some (deriveSessionKeys hmac sharedSecret initiatorNonce responderNonce sessionId now) }
  | _, _ => .error .noHellos

/-- The tag of a node under keys with an identifier. -/
def tag (macKey : Bytes) (nodeId sessionId : String) : Bytes :=
  (hmac macKey (utf8 nodeId ++ utf8 sessionId)).1.take 16

/-- `build_finish`. -/
def buildFinish (h : STPHandshake) (now : ℚ) : Except HandshakeError HandshakeFinish :=
  match h.sessionKeys with
  | none => .error .noKeys
  | some keys => .ok
      { nodeId := h.nodeId, sessionId := keys.sessionId, keyFingerprint := keys.fingerprint sha256
        timestamp := now, verificationTag := tag hmac keys.macKey h.nodeId keys.sessionId }

/-- `verify_finish`. -/
def verifyFinish (h : STPHandshake) (remote : HandshakeFinish) : Bool :=
  match h.sessionKeys with
  | none => false
  | some keys => tag hmac keys.macKey remote.nodeId keys.sessionId = remote.verificationTag

end STPHandshake

/-! ## Two parties -/

/-- An initiator and a responder, and the clock. -/
structure Meeting where
  parties : HandshakeRole → STPHandshake
  now : ℚ

/-- A step of one of the parties: it builds its hello, gets the other's, or
derives keys, drawing an identifier for them. -/
inductive MeetingEvent where
  | tick (now : ℚ)
  | hello (r : HandshakeRole) (nonce : Nonce)
  | receive (r : HandshakeRole)
  | derive (r : HandshakeRole) (sessionId : String)

namespace Meeting

/-- A party in its new state. -/
def put (m : Meeting) (r : HandshakeRole) (h : STPHandshake) : Meeting :=
  { m with parties := fun r' => if r' = r then h else m.parties r' }

/-- Each party builds one hello and gets the one of the other; a call that
raises changes nothing. -/
def step (sharedSecret : Bytes) (m : Meeting) : MeetingEvent → Option Meeting
  | .tick now => if now < m.now then none else some { m with now := now }
  | .hello r nonce =>
    if (m.parties r).localHello = none then some (m.put r ((m.parties r).buildHello nonce m.now)) else none
  | .receive r => do
      let hello ← (m.parties r.other).localHello
      match (m.parties r).receiveHello hello m.now with
      | .error _ => some m
      | .ok h => some (m.put r h)
  | .derive r sessionId =>
    match (m.parties r).deriveKeys hmac sharedSecret sessionId m.now with
    | .error _ => some m
    | .ok h => some (m.put r h)

/-- Two parties that have not yet spoken. -/
def Start (m : Meeting) : Prop :=
  ∀ r, (m.parties r).role = r ∧ (m.parties r).localHello = none ∧ (m.parties r).remoteHello = none ∧
    (m.parties r).sessionKeys = none

/-- The runs of a handshake over a shared secret. -/
def machine (sharedSecret : Bytes) : Machine Meeting MeetingEvent := .ofFun Start (step hmac sharedSecret)

/-! ## Agreement -/

/-- What a party has derived, it has derived from the two hellos there are. -/
structure Inv (sharedSecret : Bytes) (m : Meeting) : Prop where
  role : ∀ r, (m.parties r).role = r
  remote : ∀ r hello, (m.parties r).remoteHello = some hello → (m.parties r.other).localHello = some hello
  keys : ∀ r k, (m.parties r).sessionKeys = some k → ∃ i p,
    (m.parties .initiator).localHello = some i ∧ (m.parties .responder).localHello = some p ∧
    ∃ sessionId now, k = deriveSessionKeys hmac sharedSecret i.nonce p.nonce sessionId now

variable {hmac} {sharedSecret : Bytes} {m u : Meeting}

@[simp] theorem put_self (m : Meeting) (r : HandshakeRole) (h : STPHandshake) : (m.put r h).parties r = h := by
  simp [put]

theorem put_ne (m : Meeting) {r r' : HandshakeRole} (h : STPHandshake) (hr : r' ≠ r) :
    (m.put r h).parties r' = m.parties r' := by
  simp [put, hr]

/-- A party may change what is its own: not its role, and not a hello it has. -/
theorem Inv.put (hm : m.Inv hmac sharedSecret) {r : HandshakeRole} {h : STPHandshake} (hrole : h.role = r)
    (hlocal : ∀ hello, (m.parties r).localHello = some hello → h.localHello = some hello)
    (hremote : ∀ hello, h.remoteHello = some hello → (m.parties r.other).localHello = some hello)
    (hkeys : ∀ k, h.sessionKeys = some k → ∃ i p, (m.parties .initiator).localHello = some i ∧
      (m.parties .responder).localHello = some p ∧
      ∃ sessionId now, k = deriveSessionKeys hmac sharedSecret i.nonce p.nonce sessionId now) :
    (m.put r h).Inv hmac sharedSecret := by
  have hhello : ∀ r' hello, (m.parties r').localHello = some hello →
      ((m.put r h).parties r').localHello = some hello := by
    intro r' hello heq
    by_cases hr : r' = r
    · subst hr
      rw [put_self]
      exact hlocal hello heq
    · rw [put_ne m h hr]
      exact heq
  refine ⟨fun r' => ?_, fun r' hello heq => ?_, fun r' k heq => ?_⟩
  · by_cases hr : r' = r
    · subst hr
      rw [put_self, hrole]
    · rw [put_ne m h hr, hm.role]
  · apply hhello
    by_cases hr : r' = r
    · subst hr
      rw [put_self] at heq
      exact hremote hello heq
    · rw [put_ne m h hr] at heq
      exact hm.remote r' hello heq
  · have hold : ∃ i p, (m.parties .initiator).localHello = some i ∧ (m.parties .responder).localHello = some p ∧
        ∃ sessionId now, k = deriveSessionKeys hmac sharedSecret i.nonce p.nonce sessionId now := by
      by_cases hr : r' = r
      · subst hr
        rw [put_self] at heq
        exact hkeys k heq
      · rw [put_ne m h hr] at heq
        exact hm.keys r' k heq
    obtain ⟨i, p, hi, hp, hk⟩ := hold
    exact ⟨i, p, hhello _ _ hi, hhello _ _ hp, hk⟩

theorem inv_step (hm : m.Inv hmac sharedSecret) {e : MeetingEvent} (h : m.step hmac sharedSecret e = some u) :
    u.Inv hmac sharedSecret := by
  cases e with
  | tick now =>
    simp only [step] at h
    split at h
    · exact nomatch h
    · obtain rfl := Option.some.inj h
      exact ⟨hm.role, hm.remote, hm.keys⟩
  | hello r nonce =>
    simp only [step] at h
    split at h
    · next hnone =>
        obtain rfl := Option.some.inj h
        refine hm.put (hm.role r) ?_ (hm.remote r) (hm.keys r)
        intro hello heq
        exact nomatch hnone.symm.trans heq
    · exact nomatch h
  | receive r =>
    obtain ⟨hello, hhello, h⟩ := Option.bind_eq_some_iff.mp h
    unfold STPHandshake.receiveHello at h
    split at h
    · obtain rfl := Option.some.inj h
      exact hm
    · next party hparty =>
        obtain rfl := Option.some.inj h
        split at hparty
        · exact nomatch hparty
        · obtain rfl := Except.ok.inj hparty
          refine hm.put (hm.role r) (fun _ heq => heq) ?_ (hm.keys r)
          intro hello' heq
          obtain rfl := Option.some.inj heq
          exact hhello
  | derive r sessionId =>
    simp only [step] at h
    split at h
    · obtain rfl := Option.some.inj h
      exact hm
    · next party hparty =>
        obtain rfl := Option.some.inj h
        unfold STPHandshake.deriveKeys at hparty
        split at hparty
        · next mine theirs hmine htheirs =>
            obtain rfl := Except.ok.inj hparty
            refine hm.put (hm.role r) (fun _ heq => heq) (hm.remote r) ?_
            intro k hk
            obtain rfl := Option.some.inj hk
            have htheirs' := hm.remote r theirs htheirs
            rw [hm.role r]
            cases r with
            | initiator => exact ⟨mine, theirs, hmine, htheirs', sessionId, m.now, rfl⟩
            | responder => exact ⟨theirs, mine, htheirs', hmine, sessionId, m.now, rfl⟩
        · exact nomatch hparty

theorem inv_reach (h : (machine hmac sharedSecret).Reach Machine.free m) : m.Inv hmac sharedSecret := by
  refine Machine.Reach.invariant (I := fun m => m.Inv hmac sharedSecret) ?_ ?_ h
  · intro m hstart
    refine ⟨fun r => (hstart r).1, fun r hello heq => ?_, fun r k heq => ?_⟩
    · exact nomatch (hstart r).2.2.1.symm.trans heq
    · exact nomatch (hstart r).2.2.2.symm.trans heq
  · intro m e u hm hstep _
    exact inv_step hm hstep

/-- The finish of one party, as the other sees it. -/
def FinishAccepted (hmac : Hmac) (sha256 : Bytes → Digest) (m : Meeting) (r : HandshakeRole) : Prop :=
  ∀ now f, (m.parties r.other).buildFinish hmac sha256 now = .ok f → (m.parties r).verifyFinish hmac f = true

/-- The two parties drew the same identifier, or the identifiers do not tell
their tags apart. -/
def SameSession (hmac : Hmac) (m : Meeting) (i p : SessionKeys) : Prop :=
  i.sessionId = p.sessionId ∨ ∀ r, STPHandshake.tag hmac i.macKey (m.parties r).nodeId i.sessionId =
    STPHandshake.tag hmac i.macKey (m.parties r).nodeId p.sessionId

theorem finishAccepted_iff (sha256 : Bytes → Digest) {r : HandshakeRole} {k k' : SessionKeys}
    (hk : (m.parties r).sessionKeys = some k) (hk' : (m.parties r.other).sessionKeys = some k') :
    FinishAccepted hmac sha256 m r ↔
      STPHandshake.tag hmac k.macKey (m.parties r.other).nodeId k.sessionId =
        STPHandshake.tag hmac k'.macKey (m.parties r.other).nodeId k'.sessionId := by
  simp [FinishAccepted, STPHandshake.buildFinish, STPHandshake.verifyFinish, hk, hk']

/-- **Agreement.** Whenever both parties have derived keys, the keys are the same,
and each accepts the finish of the other exactly if they are in the same session. -/
theorem agreement (sha256 : Bytes → Digest) (h : (machine hmac sharedSecret).Reach Machine.free m) {i p : SessionKeys}
    (hi : (m.parties .initiator).sessionKeys = some i) (hp : (m.parties .responder).sessionKeys = some p) :
    i.sendKey = p.sendKey ∧ i.recvKey = p.recvKey ∧ i.macKey = p.macKey ∧
      ((∀ r, FinishAccepted hmac sha256 m r) ↔ SameSession hmac m i p) := by
  have hm := inv_reach h
  obtain ⟨hi1, hp1, hil, hpl, sid, now, hik⟩ := hm.keys _ _ hi
  obtain ⟨hi2, hp2, hil2, hpl2, sid2, now2, hpk⟩ := hm.keys _ _ hp
  obtain rfl := Option.some.inj (hil.symm.trans hil2)
  obtain rfl := Option.some.inj (hpl.symm.trans hpl2)
  have hmac' : i.macKey = p.macKey := by rw [hik, hpk]; rfl
  refine ⟨by rw [hik, hpk]; rfl, by rw [hik, hpk]; rfl, hmac', ?_⟩
  have hacc : (∀ r, FinishAccepted hmac sha256 m r) ↔
      ∀ r, STPHandshake.tag hmac i.macKey (m.parties r).nodeId i.sessionId =
        STPHandshake.tag hmac i.macKey (m.parties r).nodeId p.sessionId := by
    constructor
    · intro h r
      cases r with
      | initiator =>
        have htag := (finishAccepted_iff (r := .responder) sha256 hp hi).mp (h .responder)
        rw [← hmac'] at htag
        exact htag.symm
      | responder =>
        have htag := (finishAccepted_iff (r := .initiator) sha256 hi hp).mp (h .initiator)
        rwa [← hmac'] at htag
    · intro h r
      cases r with
      | initiator =>
        refine (finishAccepted_iff (r := .initiator) sha256 hi hp).mpr ?_
        rw [← hmac']
        exact h .responder
      | responder =>
        refine (finishAccepted_iff (r := .responder) sha256 hp hi).mpr ?_
        rw [← hmac']
        exact (h .initiator).symm
  rw [hacc]
  unfold SameSession
  constructor
  · exact .inr
  · rintro (heq | heq)
    · intro r
      rw [heq]
    · exact heq

/-! ## Two identifiers -/

def lastByte : Hmac := fun _ m => ⟨m.getLast?.getD 0 :: List.replicate 31 0, by simp⟩

def meeting : Meeting where
  parties := fun r => { nodeId := if r = .initiator then "alpha" else "beta", role := r }
  now := 0

/-- Their hellos, and keys under the identifiers `a` and `b`. -/
def meetingEvents (b : String) : List MeetingEvent :=
  [.hello .initiator ⟨List.replicate 16 1, rfl⟩, .hello .responder ⟨List.replicate 16 2, rfl⟩,
    .receive .initiator, .receive .responder, .derive .responder b, .derive .initiator "a"]

theorem meeting_start : Start meeting := fun _ => ⟨rfl, rfl, rfl, rfl⟩

/-- `agreement` for two parties that happen to draw the same identifier. -/
theorem agreement_same : ∃ m i p, (m.parties .initiator).sessionKeys = some i ∧
    (m.parties .responder).sessionKeys = some p ∧ i.macKey = p.macKey ∧
      ∀ r, FinishAccepted lastByte (lastByte []) m r := by
  obtain ⟨m, hm, htest⟩ := Machine.exists_of_any
    (show (Machine.exec (step lastByte []) meeting (meetingEvents "a")).any
      (fun m => (m.parties .initiator).sessionKeys.isSome && (m.parties .responder).sessionKeys.isSome &&
        ((m.parties .initiator).sessionKeys.map (·.sessionId) = (m.parties .responder).sessionKeys.map (·.sessionId)))
        = true by decide +kernel)
  simp only [Bool.and_eq_true, Option.isSome_iff_exists] at htest
  obtain ⟨⟨⟨i, hi⟩, p, hp⟩, hsame⟩ := htest
  have hreach : (machine lastByte []).Reach Machine.free m := Machine.exec_reach (.start meeting_start) hm
  obtain ⟨-, -, hmac', hiff⟩ := agreement (lastByte []) hreach hi hp
  refine ⟨m, i, p, hi, hp, hmac', hiff.mpr (.inl ?_)⟩
  simpa [hi, hp] using hsame

/-- Each party draws its own identifier, and the initiator refuses the finish
of the responder. -/
theorem finish_refused : ∃ m, (machine lastByte []).Reach Machine.free m ∧
    (∃ i p, (m.parties .initiator).sessionKeys = some i ∧ (m.parties .responder).sessionKeys = some p) ∧
      ¬FinishAccepted lastByte (lastByte []) m .initiator := by
  obtain ⟨m, hm, htest⟩ := Machine.exists_of_any
    (show (Machine.exec (step lastByte []) meeting (meetingEvents "b")).any
      (fun m => (m.parties .initiator).sessionKeys.isSome && (m.parties .responder).sessionKeys.isSome &&
        match (m.parties .responder).buildFinish lastByte (lastByte []) 0 with
        | .ok f => !(m.parties .initiator).verifyFinish lastByte f
        | .error _ => false) = true by decide +kernel)
  simp only [Bool.and_eq_true, Option.isSome_iff_exists] at htest
  obtain ⟨⟨⟨i, hi⟩, p, hp⟩, hrefused⟩ := htest
  refine ⟨m, Machine.exec_reach (.start meeting_start) hm, ⟨i, p, hi, hp⟩, fun haccepted => ?_⟩
  split at hrefused
  · next f hf => simp [haccepted 0 f hf] at hrefused
  · exact nomatch hrefused

end Meeting

end Caips.Protocols
