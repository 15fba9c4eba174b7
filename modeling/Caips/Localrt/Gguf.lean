/-
Caips.Localrt.Gguf — the header of a model file, after `localrt/gguf.py`.

A file is its bytes. How many calls may still be open when `read_metadata` is
called is given: an array is read by a call inside a call, so a file decides how
many are needed. `bytes.decode("utf-8", "replace")` and `repr` are given too.
-/
import Caips.Logic.Bytes
import Caips.Logic.Dict
import Caips.Logic.CallDepth

namespace Caips.Localrt

open Caips.Logic

/-- `GGUFError`. -/
inductive GGUFError where
  | truncated
  | stringTooLong
  | unknownType (t : ℕ)
  | notGGUF
  | version (v : ℕ)
  | metadataCount
  deriving DecidableEq

def GGUFError.text : GGUFError → String
  | truncated => "truncated GGUF file"
  | stringTooLong => "string too long"
  | unknownType t => s!"unknown value type {t}"
  | notGGUF => "not a GGUF file"
  | version v => s!"unsupported GGUF version {v}"
  | metadataCount => "implausible metadata count"

/-- What reading raises: the error of its own, or `RecursionError`. -/
inductive ReadError where
  | gguf (e : GGUFError)
  | recursion
  deriving DecidableEq

/-- A value of the metadata. -/
inductive GValue where
  | int (n : ℤ)
  | float (x : Float)
  | bool (b : Bool)
  | str (s : List Char)
  | list (items : List GValue)

/-- What Python does with the values. -/
structure Decoding where
  decode : Bytes → List Char
  /-- `str` of a value that is no string. -/
  repr : GValue → List Char

/-! ## Reading -/

/-- A reader of the rest of a file. -/
abbrev Read := StateT Bytes (Except ReadError)

def magic : Bytes := [0x47, 0x47, 0x55, 0x46]

def maxStr : ℕ := 16 * 1024 * 1024

def maxArrayKeep : ℕ := 64

/-- A format of `_SCALARS`. -/
inductive Scalar where
  | unsigned (size : ℕ)
  | signed (size : ℕ)
  | float
  | double
  | bool

def Scalar.size : Scalar → ℕ
  | unsigned size => size
  | signed size => size
  | float => 4
  | double => 8
  | bool => 1

/-- `_SCALARS`. -/
def scalar? : ℕ → Option Scalar
  | 0 => some (.unsigned 1)
  | 1 => some (.signed 1)
  | 2 => some (.unsigned 2)
  | 3 => some (.signed 2)
  | 4 => some (.unsigned 4)
  | 5 => some (.signed 4)
  | 6 => some .float
  | 7 => some .bool
  | 10 => some (.unsigned 8)
  | 11 => some (.signed 8)
  | 12 => some .double
  | _ => none

/-- The number a byte string spells, least significant byte first. -/
def leValue (b : Bytes) : ℕ := beValue b.reverse

/-- `struct.unpack` of one scalar. -/
def Scalar.unpack (s : Scalar) (b : Bytes) : GValue :=
  let n := leValue b
  match s with
  | unsigned _ => .int n
  | signed size => .int (if 2 * n < 256 ^ size then n else n - 256 ^ size)
  | float => .float (Float32.ofBits (.ofNat n)).toFloat
  | double => .float (Float.ofBits (.ofNat n))
  | bool => .bool (n ≠ 0)

variable (D : Decoding)

/-- `_read`. -/
def read : ℕ → ℕ → Read Bytes
  | 0, _ => throw .recursion
  | _ + 1, n => fun b => if b.length < n then .error (.gguf .truncated) else .ok (b.take n, b.drop n)

/-- `_str`. -/
def readStr : ℕ → Read (List Char)
  | 0 => throw .recursion
  | frames + 1 => do
      let n ← read frames 8
      if maxStr < leValue n then throw (.gguf .stringTooLong)
      let s ← read frames (leValue n)
      return D.decode s

/-- The items of an array from the `i`-th on; the first ones are kept. -/
def readItems (item : Read GValue) : ℕ → ℕ → Read (List GValue)
  | 0, _ => return []
  | n + 1, i => do
      let v ← item
      let out ← readItems item n (i + 1)
      return if i < maxArrayKeep then v :: out else out

/-- `_value`. -/
def readValue : ℕ → ℕ → Read GValue
  | 0, _ => throw .recursion
  | frames + 1, t =>
    match scalar? t with
    | some s => do
        let b ← read frames s.size
        return s.unpack b
    | none =>
      if t = 8 then do
        let s ← readStr D frames
        return .str s
      else if t = 9 then do
        let et ← read frames 4
        let n ← read frames 8
        let out ← readItems (readValue frames (leValue et)) (leValue n) 0
        return .list out
      else throw (.gguf (.unknownType t))

/-- What `read_metadata` returns. -/
abbrev Metadata := Dict (List Char) GValue

/-- The entries of the metadata, one after the other. -/
def readEntries (frames : ℕ) : ℕ → Metadata → Read Metadata
  | 0, m => return m
  | n + 1, m => do
      let key ← readStr D frames
      let t ← read frames 4
      let v ← readValue D frames (leValue t)
      readEntries frames n (m.set key v)

/-- `read_metadata` from the first byte on. -/
def readHeader (frames : ℕ) : Read Metadata := do
  let m ← read frames 4
  if m ≠ magic then throw (.gguf .notGGUF)
  let version ← read frames 4
  if leValue version ≠ 2 ∧ leValue version ≠ 3 then throw (.gguf (.version (leValue version)))
  let counts ← read frames 16
  let n := leValue (slice counts 8 8)
  if 100000 < n then throw (.gguf .metadataCount)
  readEntries D frames n (Dict.empty.set "_version".toList (.int (leValue version)))

/-- `read_metadata` of a file that was opened. -/
def readMetadata (frames : ℕ) (content : Bytes) : Except ReadError Metadata :=
  (readHeader D frames content).map Prod.fst

/-! ## describe -/

/-- `bool(value)`. -/
def GValue.truthy : GValue → Bool
  | int n => n ≠ 0
  | float x => !(x == 0)
  | bool b => b
  | str s => !s.isEmpty
  | list items => !items.isEmpty

/-- `str(value)`. -/
def GValue.text : GValue → List Char
  | str s => s
  | v => D.repr v

/-- `FILE_TYPES`. -/
def fileTypes : List (ℤ × String) :=
  [(0, "F32"), (1, "F16"), (2, "Q4_0"), (3, "Q4_1"), (7, "Q8_0"), (8, "Q5_0"), (9, "Q5_1"), (10, "Q2_K"),
    (11, "Q3_K_S"), (12, "Q3_K_M"), (13, "Q3_K_L"), (14, "Q4_K_S"), (15, "Q4_K_M"), (16, "Q5_K_S"), (17, "Q5_K_M"),
    (18, "Q6_K"), (32, "BF16")]

/-- `value == k`. -/
def GValue.equals (k : ℤ) : GValue → Bool
  | int n => n = k
  | float x => x == Float.ofInt k
  | bool b => (if b then 1 else 0) = k
  | _ => false

/-- A file of the models directory: its content and its size, if it can be opened
and looked at. -/
structure ModelFile where
  path : String
  name : String
  stem : String
  content : Option Bytes
  size : Option ℕ

/-- What `describe` raises. -/
inductive DescribeError where
  | read (e : ReadError)
  | os
  /-- A list is no key of a dictionary. -/
  | unhashable

/-- What `describe` returns. -/
structure ModelInfo where
  name : GValue
  file : String
  sizeBytes : ℕ
  architecture : GValue
  parameters : Option GValue
  quantization : Option (List Char)
  contextLength : Option GValue
  nLayers : Option GValue
  chatTemplate : Option GValue
  license : Option GValue
  source : Option GValue

/-- `m.get(key)`. -/
def Metadata.lookup (m : Metadata) (key : String) : Option GValue := m.get? key.toList

/-- `FILE_TYPES.get(ft, f"type{ft}")`. -/
def quantizationOf : GValue → Except DescribeError (List Char)
  | .list _ => .error .unhashable
  | ft => match fileTypes.find? fun entry => ft.equals entry.1 with
    | some (_, name) => .ok name.toList
    | none => .ok ("type".toList ++ ft.text D)

/-- The facts `describe` takes from the metadata. -/
def describeMetadata (f : ModelFile) (sizeBytes : ℕ) (m : Metadata) : Except DescribeError ModelInfo := do
  let architecture := (m.lookup "general.architecture").getD (.str "unknown".toList)
  let quantization ← match m.lookup "general.file_type" with
    | none => .ok none
    | some ft => (quantizationOf D ft).map some
  return {
    name := ((m.lookup "general.name").filter GValue.truthy).getD (.str f.stem.toList)
    file := f.name
    sizeBytes
    architecture
    parameters := m.lookup "general.size_label"
    quantization
    contextLength := m.get? (architecture.text D ++ ".context_length".toList)
    nLayers := m.get? (architecture.text D ++ ".block_count".toList)
    chatTemplate := m.lookup "tokenizer.chat_template"
    license := m.lookup "general.license"
    source := ((m.lookup "general.source.url").filter GValue.truthy).or (m.lookup "general.url") }

/-- `describe`. -/
def describe (frames : ℕ) (f : ModelFile) : Except DescribeError ModelInfo :=
  match f.content with
  | none => .error .os
  | some content => match readMetadata D frames content with
    | .error e => .error (.read e)
    | .ok m => match f.size with
      | none => .error .os
      | some size => describeMetadata D f size m

end Caips.Localrt
