/-
Caips.Protocols.Session — an established session on bytes, after `SecureSession`
of `protocols/secure_protocol.py`.

The guard of a session computes with doubles. A timestamp that is no number is at
no distance from any clock, so the window lets it in.
-/
import Caips.Protocols.FrameTheorems
import Caips.Protocols.ReplayGuard

namespace Caips.Protocols

open Caips.Logic

/-! ## The session -/

inductive SessionState where
  | new
  | handshaking
  | established
  | rekeying
  | closed
  | error
  deriving DecidableEq, Repr

/-- `SecureSession`, as far as it receives. -/
structure SecureSession where
  macKey : Bytes
  state : SessionState := .established
  replayGuard : ReplayGuard Float := { windowS := 30 }
  bytesReceived : ℕ := 0

/-- What `receive` raises. -/
inductive ReceiveError where
  | notEstablished (state : SessionState)
  | frame (e : FrameError)
  | replay (e : ReplayAttack Float)

variable (hmac : Hmac)

/-- `SecureSession.receive`; the session does not change where it raises. -/
def SecureSession.receive (s : SecureSession) (now : Float) (data : Bytes) :
    Except ReceiveError (SecureSession × Bytes) :=
  if s.state ≠ .established then .error (.notEstablished s.state)
  else match decode hmac s.macKey data with
    | .error e => .error (.frame e)
    | .ok frame => match s.replayGuard.check now frame.sequenceNo (.ofBits frame.timestamp) with
      | .error e => .error (.replay e)
      | .ok guard =>
        .ok ({ s with replayGuard := guard, bytesReceived := s.bytesReceived + data.length }, frame.body)

variable {hmac}

theorem SecureSession.receive_ok_iff {s s' : SecureSession} {now : Float} {data body : Bytes} :
    s.receive hmac now data = .ok (s', body) ↔ s.state = .established ∧ ∃ f guard, decode hmac s.macKey data = .ok f ∧
      s.replayGuard.check now f.sequenceNo (.ofBits f.timestamp) = .ok guard ∧ body = f.body ∧
      s' = { s with replayGuard := guard, bytesReceived := s.bytesReceived + data.length } := by
  unfold SecureSession.receive
  constructor
  · intro h
    split at h
    · exact nomatch h
    · next hstate =>
        split at h
        · exact nomatch h
        · next f hdecode =>
            split at h
            · exact nomatch h
            · next guard hguard =>
                obtain ⟨rfl, rfl⟩ := Prod.mk.inj (Except.ok.inj h)
                exact ⟨not_not.mp hstate, f, guard, hdecode, hguard, rfl, rfl⟩
  · rintro ⟨hstate, f, guard, hdecode, hguard, rfl, rfl⟩
    rw [if_neg (not_not.mpr hstate), hdecode]
    simp only [hguard]

/-! ## What is decoded -/

variable {key d : Bytes} {f : STPFrame}

/-- The MAC of a frame is the one `decode` computes. -/
def Authentic (hmac : Hmac) (key : Bytes) (f : STPFrame) : Prop :=
  ∃ header, f.headerBytes = .ok header ∧ (hmac key (header ++ f.body)).1 = f.mac

variable (hmac key) in
/-- A frame that was read is decoded if it is authentic, and a wrong MAC is the
only thing that can still be found. -/
theorem Parsed.decode_eq (h : Parsed d f) :
    decode hmac key d = .ok f ∧ Authentic hmac key f ∨
      decode hmac key d = .error .macVerification ∧ ¬Authentic hmac key f := by
  have hheader := h.header
  have hparse := fromBytes_ok_iff.mpr h
  by_cases hmac' : Authentic hmac key f
  · obtain ⟨header, hok, heq⟩ := hmac'
    left
    refine ⟨?_, header, hok, heq⟩
    simp only [decode, hparse, hok, bind, Except.bind]
    exact if_pos heq
  · right
    refine ⟨?_, hmac'⟩
    simp only [decode, hparse, hheader, bind, Except.bind]
    exact if_neg fun heq => hmac' ⟨_, hheader, heq⟩

variable (hmac key) in
theorem decode_eq_of_not_parsed (h : ∀ f, ¬Parsed d f) :
    ∃ e, e ≠ FrameError.macVerification ∧ decode hmac key d = .error e := by
  cases hparse : STPFrame.fromBytes d with
  | ok f => exact absurd (fromBytes_ok_iff.mp hparse) (h f)
  | error e =>
    refine ⟨e, ?_, ?_⟩
    · rintro rfl
      unfold STPFrame.fromBytes at hparse
      dsimp only at hparse
      split_ifs at hparse <;> simp at hparse
    · simp only [decode, hparse, bind, Except.bind]

theorem decode_parsed (h : decode hmac key d = .ok f) : Parsed d f := by
  by_cases hparsed : ∃ g, Parsed d g
  · obtain ⟨g, hg⟩ := hparsed
    rcases hg.decode_eq hmac key with ⟨hok, -⟩ | ⟨herror, -⟩
    · obtain rfl := Except.ok.inj (hok.symm.trans h)
      exact hg
    · exact nomatch herror.symm.trans h
  · obtain ⟨e, -, herror⟩ := decode_eq_of_not_parsed hmac key (not_exists.mp hparsed)
    exact nomatch herror.symm.trans h

end Caips.Protocols
