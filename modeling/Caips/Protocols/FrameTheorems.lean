/-
Caips.Protocols.FrameTheorems — what the frame codec accepts, and what of it is
written back.

A frame that `encode` made is decoded as it was. The other way, `decode`
computes the MAC over a header it writes anew, so the reserved bytes and
whatever follows the MAC are under no MAC: `canonical` says what a received
string must be for its frame to give it back.
-/
import Caips.Protocols.Frame

namespace Caips.Protocols

open Caips.Logic

variable {f : STPFrame} {d : Bytes}

/-! ## Headers -/

theorem pack_of_lt {k n : ℕ} (h : n < 256 ^ k) : pack k n = .ok (beBytes k n) := if_pos h

theorem headerBytes_ok (hv : f.version < 256) (hf : f.flags < 256) (hs : f.sequenceNo < 2 ^ 32)
    (hb : f.body.length < 2 ^ 32) :
    f.headerBytes = .ok (frameMagic ++ beBytes 1 f.version ++ beBytes 1 f.flags ++ [0, 0] ++
      beBytes 8 f.timestamp.toNat ++ beBytes 4 f.sequenceNo ++ f.nonce ++ beBytes 4 f.body.length) := by
  unfold STPFrame.headerBytes
  rw [pack_of_lt (k := 1) (by simpa using hv), pack_of_lt (k := 1) (by simpa using hf), pack_of_lt (k := 4) (by simpa using hs),
    pack_of_lt (k := 4) (by simpa using hb)]
  rfl

theorem beBytes_slice {i k : ℕ} (h : i + k ≤ d.length) : beBytes k (beValue (slice d i k)) = slice d i k := by
  have hb := beBytes_beValue (slice d i k)
  rwa [length_slice h] at hb

theorem beValue_slice_lt {i k : ℕ} (h : i + k ≤ d.length) : beValue (slice d i k) < 256 ^ k := by
  have hb := beValue_lt (slice d i k)
  rwa [length_slice h] at hb

theorem beBytes_timestamp {i : ℕ} (h : i + 8 ≤ d.length) :
    beBytes 8 (UInt64.ofNat (beValue (slice d i 8))).toNat = slice d i 8 := by
  have hlt := beValue_slice_lt h
  rw [UInt64.toNat_ofNat_of_lt' (by simpa using hlt), beBytes_slice h]

/-! ## Received frames -/

/-- The body length a header announces. -/
def bodyLength (d : Bytes) : ℕ := beValue (slice d 36 4)

/-- What is read of a frame that is read at all. -/
structure Parsed (d : Bytes) (f : STPFrame) : Prop where
  long : frameHeaderSize + bodyLength d + macSize ≤ d.length
  magic : slice d 0 4 = frameMagic
  eq : f =
    { version := beValue (slice d 4 1), flags := beValue (slice d 5 1)
      timestamp := .ofNat (beValue (slice d 8 8)), sequenceNo := beValue (slice d 16 4)
      nonce := slice d 20 16, body := slice d frameHeaderSize (bodyLength d)
      mac := slice d (frameHeaderSize + bodyLength d) macSize }

theorem fromBytes_ok_iff : STPFrame.fromBytes d = .ok f ↔ Parsed d f := by
  unfold STPFrame.fromBytes
  constructor
  · intro h
    split at h
    · exact nomatch h
    · split at h
      · exact nomatch h
      · next hmagic =>
          simp only at h
          split at h
          · exact nomatch h
          · next hlong => exact ⟨not_lt.mp hlong, not_not.mp hmagic, (Except.ok.inj h).symm⟩
  · intro h
    have hlong := h.long
    rw [if_neg (by simp only [frameHeaderSize, macSize] at hlong ⊢; omega), if_neg (not_not.mpr h.magic)]
    simp only
    rw [if_neg (by simpa [bodyLength] using hlong), h.eq]
    rfl

/-- The header of a frame that was read: the received one, but for the two
reserved bytes. -/
theorem Parsed.header (h : Parsed d f) :
    f.headerBytes = .ok (slice d 0 4 ++ slice d 4 1 ++ slice d 5 1 ++ [0, 0] ++ slice d 8 8 ++ slice d 16 4 ++
      slice d 20 16 ++ slice d 36 4) := by
  have hlong : 40 + bodyLength d + 32 ≤ d.length := h.long
  have hlen : f.body.length = bodyLength d := by
    rw [h.eq]
    exact length_slice (by simp only [frameHeaderSize]; omega)
  have hbody : bodyLength d < 2 ^ 32 := by simpa [bodyLength] using beValue_slice_lt (d := d) (i := 36) (k := 4) (by omega)
  rw [headerBytes_ok, hlen, h.eq, h.magic]
  · simp only [bodyLength]
    rw [beBytes_slice (by omega), beBytes_slice (by omega), beBytes_timestamp (by omega), beBytes_slice (by omega),
      beBytes_slice (by omega)]
  · rw [h.eq]
    simpa using beValue_slice_lt (d := d) (i := 4) (k := 1) (by omega)
  · rw [h.eq]
    simpa using beValue_slice_lt (d := d) (i := 5) (k := 1) (by omega)
  · rw [h.eq]
    simpa using beValue_slice_lt (d := d) (i := 16) (k := 4) (by omega)
  · rw [hlen]
    exact hbody

theorem Parsed.cut (h : Parsed d f) :
    d = (slice d 0 4 ++ slice d 4 1 ++ slice d 5 1) ++ (slice d 6 2 ++ ((slice d 8 8 ++ slice d 16 4 ++
      slice d 20 16 ++ slice d 36 4 ++ f.body ++ f.mac) ++ d.drop (frameHeaderSize + bodyLength d + macSize))) := by
  rw [h.eq]
  simp only [List.append_assoc]
  rw [slice_append_drop d (frameHeaderSize + bodyLength d) macSize, slice_append_drop d frameHeaderSize (bodyLength d)]
  simp only [frameHeaderSize]
  rw [slice_append_drop d 36 4, slice_append_drop d 20 16, slice_append_drop d 16 4, slice_append_drop d 8 8,
    slice_append_drop d 6 2, slice_append_drop d 5 1, slice_append_drop d 4 1, slice_append_drop d 0 4]
  rfl

/-- A string its frame gives back: the reserved bytes are zero, nothing follows
the MAC, and the body is not over the limit. -/
structure Canonical (d : Bytes) : Prop where
  reserved : slice d 6 2 = [0, 0]
  length : d.length = frameHeaderSize + bodyLength d + macSize
  limit : bodyLength d ≤ maxFrameBodyBytes

/-- A frame that was read is written as it was received exactly if that was
canonical. -/
theorem Parsed.toBytes_iff (h : Parsed d f) : f.toBytes = .ok d ↔ Canonical d := by
  have hlong : 40 + bodyLength d + 32 ≤ d.length := h.long
  have hlen : f.body.length = bodyLength d := by
    rw [h.eq]
    exact length_slice (by simp only [frameHeaderSize]; omega)
  unfold STPFrame.toBytes
  rw [hlen]
  by_cases hlimit : bodyLength d > maxFrameBodyBytes
  · rw [if_pos hlimit]
    exact ⟨nofun, fun hc => absurd hc.limit (by omega)⟩
  rw [if_neg hlimit, h.header]
  have hwritten : (slice d 0 4 ++ slice d 4 1 ++ slice d 5 1 ++ [0, 0] ++ slice d 8 8 ++ slice d 16 4 ++
      slice d 20 16 ++ slice d 36 4) ++ f.body ++ f.mac =
      (slice d 0 4 ++ slice d 4 1 ++ slice d 5 1) ++ ([0, 0] ++ (slice d 8 8 ++ slice d 16 4 ++
      slice d 20 16 ++ slice d 36 4 ++ f.body ++ f.mac)) := by
    simp only [List.append_assoc]
  constructor
  · intro heq
    have heq := (hwritten.symm.trans (Except.ok.inj heq)).trans h.cut
    obtain ⟨hreserved, hback⟩ := List.append_inj (List.append_cancel_left heq)
      (by rw [length_slice (by omega)]; rfl)
    have hrest := List.self_eq_append_right.mp hback
    refine ⟨hreserved.symm, le_antisymm ?_ h.long, by omega⟩
    exact List.drop_eq_nil_iff.mp hrest
  · intro hc
    have hrest : d.drop (frameHeaderSize + bodyLength d + macSize) = [] :=
      List.drop_eq_nil_of_le hc.length.le
    have hcut := h.cut
    rw [hc.reserved, hrest, List.append_nil] at hcut
    exact congrArg Except.ok (hwritten.trans hcut.symm)

theorem decode_ok_iff (hmac : Hmac) (macKey : Bytes) :
    decode hmac macKey d = .ok f ↔
      Parsed d f ∧ ∃ header, f.headerBytes = .ok header ∧ (hmac macKey (header ++ f.body)).1 = f.mac := by
  unfold decode
  constructor
  · intro h
    cases hparse : STPFrame.fromBytes d with
    | error e => simp [hparse, bind, Except.bind] at h
    | ok g =>
      have hg := fromBytes_ok_iff.mp hparse
      simp only [hparse, hg.header, bind, Except.bind] at h
      split at h
      · next hmatch =>
          obtain rfl := Except.ok.inj h
          exact ⟨hg, _, hg.header, hmatch⟩
      · exact nomatch h
  · rintro ⟨hparse, header, hheader, hmatch⟩
    simp only [fromBytes_ok_iff.mpr hparse, hheader, bind, Except.bind]
    rw [if_pos hmatch]
    rfl

/-! ## Encoded frames -/

/-- The header `encode` writes. -/
def writtenHeader (now : UInt64) (nonce : Nonce) (flags seq length : ℕ) : Bytes :=
  frameMagic ++ beBytes 1 stpVersion ++ beBytes 1 flags ++ [0, 0] ++ beBytes 8 now.toNat ++ beBytes 4 seq ++ nonce.1 ++
    beBytes 4 length

/-- A written frame is read as it was, whatever its MAC. -/
theorem parsed_written {now : UInt64} {nonce : Nonce} {body : Bytes} {flags seq : ℕ} (mac : Digest)
    (hflags : flags < 256) (hseq : seq < 2 ^ 32) (hlen : body.length < 2 ^ 32) :
    Parsed (writtenHeader now nonce flags seq body.length ++ body ++ mac.1)
      { flags := flags, timestamp := now, sequenceNo := seq, nonce := nonce, body := body, mac := mac.1 } := by
  set d := writtenHeader now nonce flags seq body.length ++ body ++ mac.1 with hd
  unfold writtenHeader at hd
  have hmagic : frameMagic.length = 4 := rfl
  have hmac := mac.2
  have hnonce := nonce.2
  -- each field stands where the ones before it end
  have field : ∀ {a b c : Bytes} {i k : ℕ}, d = a ++ (b ++ c) → a.length = i → b.length = k → slice d i k = b := by
    intro a b c i k hcut hi hk
    rw [hcut, slice_append hi hk]
  have hsplit : d = frameMagic ++ (beBytes 1 stpVersion ++ (beBytes 1 flags ++ ([0, 0] ++ (beBytes 8 now.toNat ++
      (beBytes 4 seq ++ (nonce.1 ++ (beBytes 4 body.length ++ (body ++ mac.1)))))))) := by
    simp only [hd, List.append_assoc]
  have h0 : slice d 0 4 = frameMagic := field (a := []) hsplit rfl rfl
  have h4 : slice d 4 1 = beBytes 1 stpVersion := field (a := frameMagic) hsplit rfl (by simp)
  have h5 : slice d 5 1 = beBytes 1 flags :=
    field (a := frameMagic ++ beBytes 1 stpVersion) (by simp only [hsplit, List.append_assoc]; rfl) (by simp [hmagic])
      (by simp)
  have h8 : slice d 8 8 = beBytes 8 now.toNat :=
    field (a := frameMagic ++ beBytes 1 stpVersion ++ beBytes 1 flags ++ [0, 0])
      (by simp only [hsplit, List.append_assoc]; rfl) (by simp [hmagic]) (by simp)
  have h16 : slice d 16 4 = beBytes 4 seq :=
    field (a := frameMagic ++ beBytes 1 stpVersion ++ beBytes 1 flags ++ [0, 0] ++ beBytes 8 now.toNat)
      (by simp only [hsplit, List.append_assoc]; rfl) (by simp [hmagic]) (by simp)
  have h20 : slice d 20 16 = nonce.1 :=
    field (a := frameMagic ++ beBytes 1 stpVersion ++ beBytes 1 flags ++ [0, 0] ++ beBytes 8 now.toNat ++ beBytes 4 seq)
      (by simp only [hsplit, List.append_assoc]; rfl) (by simp [hmagic]) hnonce
  have h36 : slice d 36 4 = beBytes 4 body.length :=
    field (a := frameMagic ++ beBytes 1 stpVersion ++ beBytes 1 flags ++ [0, 0] ++ beBytes 8 now.toNat ++ beBytes 4 seq ++
      nonce.1) (by simp only [hsplit, List.append_assoc]; rfl) (by simp [hmagic, hnonce]) (by simp)
  have h40 : slice d 40 body.length = body :=
    field (a := frameMagic ++ beBytes 1 stpVersion ++ beBytes 1 flags ++ [0, 0] ++ beBytes 8 now.toNat ++ beBytes 4 seq ++
      nonce.1 ++ beBytes 4 body.length) (by simp only [hsplit, List.append_assoc]; rfl) (by simp [hmagic, hnonce]) rfl
  have hend : slice d (40 + body.length) 32 = mac.1 :=
    field (a := frameMagic ++ beBytes 1 stpVersion ++ beBytes 1 flags ++ [0, 0] ++ beBytes 8 now.toNat ++ beBytes 4 seq ++
      nonce.1 ++ beBytes 4 body.length ++ body) (c := []) (by simp only [hd, List.append_nil])
      (by simp [hmagic, hnonce]; omega) hmac
  have hbodyLength : bodyLength d = body.length := by
    rw [bodyLength, h36, beValue_beBytes (by simpa using hlen)]
  refine ⟨?_, h0, ?_⟩
  · rw [hbodyLength, hd]
    simp [frameHeaderSize, macSize, hmagic, hnonce, hmac]
    omega
  · rw [hbodyLength, h4, h5, h8, h16, h20, beValue_beBytes (by decide), beValue_beBytes (by simpa using hflags),
      beValue_beBytes now.toNat_lt, beValue_beBytes (by simpa using hseq), UInt64.ofNat_toNat]
    simp only [frameHeaderSize, macSize, Nat.reduceAdd, h40, hend]

/-- What `encode` makes is decoded as the frame it was made of. -/
theorem decode_encode (hmac : Hmac) (macKey : Bytes) (now : UInt64) (nonce : Nonce) (body : Bytes) (flags seq : ℕ)
    (hbody : body.length ≤ maxFrameBodyBytes) (hflags : flags < 256) (hseq : seq < 2 ^ 32) :
    ∃ d f, encode hmac macKey now nonce body flags seq = .ok d ∧ decode hmac macKey d = .ok f ∧
      f.body = body ∧ f.flags = flags ∧ f.sequenceNo = seq ∧ f.timestamp = now ∧ f.nonce = nonce := by
  have hlen : body.length < 2 ^ 32 := by
    simp only [maxFrameBodyBytes] at hbody
    omega
  have hheader : ∀ mac : Bytes, STPFrame.headerBytes
      { flags := flags, timestamp := now, sequenceNo := seq, nonce := nonce, body := body, mac := mac } =
        .ok (writtenHeader now nonce flags seq body.length) :=
    fun mac => headerBytes_ok (show stpVersion < 256 by decide) hflags hseq hlen
  refine ⟨_, _, ?_, (decode_ok_iff hmac macKey).mpr ⟨parsed_written
    (hmac macKey (writtenHeader now nonce flags seq body.length ++ body)) hflags hseq hlen, _, hheader _, rfl⟩,
    rfl, rfl, rfl, rfl, rfl⟩
  unfold encode STPFrame.toBytes
  simp only [hheader, bind, Except.bind]
  rw [if_neg (not_lt.mpr hbody)]
  rfl

/-! ## The codec -/

/-- **The frame codec.** What is encoded is decoded as it was; what is decoded
is written back as it was received exactly if that was canonical. -/
theorem codec_bijective (hmac : Hmac) (macKey : Bytes) :
    (∀ (now : UInt64) (nonce : Nonce) (body : Bytes) (flags seq : ℕ), body.length ≤ maxFrameBodyBytes → flags < 256 →
        seq < 2 ^ 32 → ∃ d f, encode hmac macKey now nonce body flags seq = .ok d ∧ decode hmac macKey d = .ok f ∧
          f.body = body ∧ f.flags = flags ∧ f.sequenceNo = seq ∧ f.timestamp = now ∧ f.nonce = nonce) ∧
      ∀ d f, decode hmac macKey d = .ok f → (f.toBytes = .ok d ↔ Canonical d) :=
  ⟨fun now nonce body flags seq hbody hflags hseq => decode_encode hmac macKey now nonce body flags seq hbody hflags hseq,
    fun _ _ h => ((decode_ok_iff hmac macKey).mp h).1.toBytes_iff⟩

/-- Whatever the MAC, an accepted frame with more bytes after it is accepted as
the same frame. -/
theorem decode_append (hmac : Hmac) (macKey : Bytes) (e : Bytes) (h : decode hmac macKey d = .ok f) :
    decode hmac macKey (d ++ e) = .ok f := by
  obtain ⟨hparsed, hrest⟩ := (decode_ok_iff hmac macKey).mp h
  refine (decode_ok_iff hmac macKey).mpr ⟨?_, hrest⟩
  have hlong : 40 + bodyLength d + 32 ≤ d.length := hparsed.long
  have hslice : ∀ {i k}, i + k ≤ d.length → slice (d ++ e) i k = slice d i k := by
    intro i k hik
    rw [slice, slice, List.drop_append_of_le_length (by omega), List.take_append_of_le_length (by simp; omega)]
  have hlen : bodyLength (d ++ e) = bodyLength d := by rw [bodyLength, hslice (by omega), bodyLength]
  refine ⟨?_, ?_, ?_⟩
  · rw [hlen, List.length_append]
    exact Nat.le_add_right_of_le hparsed.long
  · rw [hslice (by omega), hparsed.magic]
  · rw [hlen, hparsed.eq]
    simp only [frameHeaderSize, macSize, Nat.reduceAdd]
    rw [hslice (by omega), hslice (by omega), hslice (by omega), hslice (by omega), hslice (by omega), hslice (by omega),
      hslice (by omega)]

def zeros : Hmac := fun _ _ => ⟨List.replicate 32 0, rfl⟩

/-- Two different strings are decoded as one frame, which gives back only one
of them: here one of them has a byte more. -/
theorem trailing_byte : ∃ d f, encode zeros [] 0 ⟨List.replicate 16 0, rfl⟩ [] 0 1 = .ok d ∧ decode zeros [] d = .ok f ∧
    decode zeros [] (d ++ [0]) = .ok f ∧ ¬(f.toBytes = .ok d ∧ f.toBytes = .ok (d ++ [0])) := by
  obtain ⟨d, f, hencode, hdecode, -⟩ := decode_encode zeros [] 0
    ⟨List.replicate 16 0, rfl⟩ [] 0 1 (by decide) (by decide) (by decide)
  refine ⟨d, f, hencode, hdecode, decode_append _ _ [0] hdecode, ?_⟩
  rintro ⟨hone, htwo⟩
  have hsame := Except.ok.inj (hone.symm.trans htwo)
  simp at hsame

end Caips.Protocols
