/-
Caips.Protocols.Frame — the frames of the secure transport, after `STPFrame`
and `FrameCodec` of `protocols/secure_protocol.py`.

A timestamp is a double, and a double is its eight bytes here. The MAC is a
function of a key and a message; the clock and the nonce of a new frame are
given.
-/
import Caips.Logic.Bytes

namespace Caips.Protocols

open Caips.Logic

/-- The 32 bytes of an HMAC-SHA256 or SHA256. -/
abbrev Digest := { b : Bytes // b.length = 32 }

/-- `hmac.new(key, message, "sha256").digest()`. -/
abbrev Hmac := Bytes → Bytes → Digest

/-- 16 bytes of `secrets.token_bytes`. -/
abbrev Nonce := { b : Bytes // b.length = 16 }

def stpVersion : ℕ := 2

def frameMagic : Bytes := [0xca, 0xfe, 0xc0, 0xde]

def macSize : ℕ := 32

def maxFrameBodyBytes : ℕ := 4 * 1024 * 1024

def frameHeaderSize : ℕ := 4 + 1 + 1 + 2 + 8 + 4 + 16 + 4

/-- What the codec raises. -/
inductive FrameError where
  | structError
  | frameTooLarge (length : ℕ)
  | tooShort
  | invalidMagic (magic : Bytes)
  | truncated
  | macVerification
  deriving DecidableEq

/-- `bytes.hex`. -/
def hex (b : Bytes) : String :=
  String.ofList (b.flatMap fun x => [Nat.digitChar (x.toNat / 16), Nat.digitChar (x.toNat % 16)])

def FrameError.text : FrameError → String
  | structError => "argument out of range"
  | frameTooLarge length => s!"Frame body {length} bytes exceeds limit {maxFrameBodyBytes}"
  | tooShort => "Frame too short"
  | invalidMagic magic => s!"Invalid frame magic: {hex magic}"
  | truncated => "Truncated frame"
  | macVerification => "Frame MAC verification failed — possible tampering"

/-- `STPFrame`. -/
structure STPFrame where
  version : ℕ := stpVersion
  flags : ℕ := 0
  timestamp : UInt64
  sequenceNo : ℕ := 0
  nonce : Bytes
  body : Bytes := []
  mac : Bytes := []
  deriving DecidableEq

/-- `struct.pack` of one unsigned field of `k` bytes. -/
def pack (k n : ℕ) : Except FrameError Bytes :=
  if n < 256 ^ k then .ok (beBytes k n) else .error .structError

namespace STPFrame

/-- `header_bytes`. -/
def headerBytes (f : STPFrame) : Except FrameError Bytes := do
  let version ← pack 1 f.version
  let flags ← pack 1 f.flags
  let sequenceNo ← pack 4 f.sequenceNo
  let length ← pack 4 f.body.length
  return frameMagic ++ version ++ flags ++ [0, 0] ++ beBytes 8 f.timestamp.toNat ++ sequenceNo ++ f.nonce ++ length

/-- `to_bytes`. -/
def toBytes (f : STPFrame) : Except FrameError Bytes :=
  if f.body.length > maxFrameBodyBytes then .error (.frameTooLarge f.body.length)
  else do
    let header ← f.headerBytes
    return header ++ f.body ++ f.mac

/-- `from_bytes`. -/
def fromBytes (data : Bytes) : Except FrameError STPFrame :=
  if data.length < frameHeaderSize + macSize then .error .tooShort
  else if slice data 0 4 ≠ frameMagic then .error (.invalidMagic (slice data 0 4))
  else
    let bodyLen := beValue (slice data 36 4)
    let expectedTotal := frameHeaderSize + bodyLen + macSize
    if data.length < expectedTotal then .error .truncated
    else .ok
      { version := beValue (slice data 4 1), flags := beValue (slice data 5 1)
        timestamp := .ofNat (beValue (slice data 8 8)), sequenceNo := beValue (slice data 16 4)
        nonce := slice data 20 16, body := slice data frameHeaderSize bodyLen
        mac := slice data (frameHeaderSize + bodyLen) macSize }

end STPFrame

variable (hmac : Hmac) (macKey : Bytes)

/-- `FrameCodec.encode`. -/
def encode (now : UInt64) (nonce : Nonce) (body : Bytes) (flags seq : ℕ) : Except FrameError Bytes := do
  let frame : STPFrame := { flags := flags, timestamp := now, sequenceNo := seq, nonce := nonce, body := body }
  let header ← frame.headerBytes
  STPFrame.toBytes { frame with mac := (hmac macKey (header ++ body)).1 }

/-- `FrameCodec.decode`. -/
def decode (data : Bytes) : Except FrameError STPFrame := do
  let frame ← STPFrame.fromBytes data
  let header ← frame.headerBytes
  if (hmac macKey (header ++ frame.body)).1 = frame.mac then return frame else .error .macVerification

end Caips.Protocols
