/-
Caips.Rag.Store — the vector store, after `VectorStore` of `rag/store.py`.

The table is the list of its rows, by `id`. The connection opens a transaction
with the first statement that writes, and everything since the last commit
belongs to it. `ingest_text` is cut in two at its only await: `beginIngest` is
what it does before it waits for the vectors, and `finishIngest` what it does
with them. `search` only reads, and what it answers is left out. Sizes and
overlaps of chunks are not negative.
-/
import Caips.Logic.Commit
import Caips.Logic.Machine
import Caips.Rag.Chunks

namespace Caips.Rag

open Caips.Logic

/-- `MAX_CHUNKS_PER_COLLECTION`. -/
def maxChunks : ℕ := 100000

/-- A source of a collection. -/
structure Scope where
  owner : String
  coll : String
  source : String
  deriving DecidableEq, Repr

/-- A row of `chunks`. -/
structure Chunk (β δ : Type) where
  scope : Scope
  idx : ℕ
  text : List Char
  metadata : List Char
  vec : β
  hash : δ

/-- What building a row uses: `json.dumps(meta or {})` and `_pack(_norm(v))`, `none` where they raise, and
`hashlib.sha256`. -/
structure Library (μ ν β δ : Type) where
  dumps : μ → Option (List Char)
  pack : ν → Option β
  sha256 : List Char → δ

/-- The arguments of `ingest_text`. -/
structure Ingest (μ : Type) where
  scope : Scope
  text : List Char
  metadata : μ
  size : ℕ := 800
  overlap : ℕ := 100

inductive StoreError where
  /-- `RuntimeError` -/
  | runtime (message : String)
  /-- `ValueError` -/
  | value (message : String)
  /-- What `embed` raised. -/
  | embed
  /-- What `json.dumps` or `struct.pack` raised. -/
  | row
  deriving DecidableEq, Repr

/-- The rows as they are committed, and as the connection sees them. -/
abbrev Db (β δ : Type) : Type := Commit (List (Chunk β δ))

section Code

variable {μ ν β δ : Type} [DecidableEq δ] (L : Library μ ν β δ)

/-- `DELETE FROM chunks WHERE owner=? AND coll=? AND source=?`. -/
def deleteRows (scope : Scope) (rows : List (Chunk β δ)) : List (Chunk β δ) := rows.filter (·.scope ≠ scope)

/-- `SELECT COUNT(*) FROM chunks WHERE owner=? AND coll=?`. -/
def count (owner coll : String) (rows : List (Chunk β δ)) : ℕ :=
  rows.countP fun c => c.scope.owner = owner ∧ c.scope.coll = coll

/-- One row for each chunk and its vector. -/
def buildRows (call : Ingest μ) : ℕ → List (List Char) → List ν → Option (List (Chunk β δ))
  | i, c :: chunks, v :: vecs => do
      let metadata ← L.dumps call.metadata
      let vec ← L.pack v
      let rows ← buildRows call (i + 1) chunks vecs
      some ({ scope := call.scope, idx := i, text := c, metadata, vec, hash := L.sha256 call.text } :: rows)
  | _, _, _ => some []

/-- `ingest_text` up to the await: the chunks it needs vectors for, or `none` if the text is unchanged. -/
def beginIngest (embeds : Bool) (db : Db β δ) (call : Ingest μ) : Except StoreError (Option (List (List Char))) :=
  if !embeds then .error (.runtime "no embedding function configured")
  else
    match chunkText call.text call.size call.overlap with
    | none => .error (.value "size must exceed overlap")
    | some chunks =>
      if (db.working.find? (·.scope = call.scope)).map (·.hash) = some (L.sha256 call.text) then .ok none
      else if maxChunks < count call.scope.owner call.scope.coll db.working + chunks.length then
        .error (.value "collection size limit reached")
      else .ok (some chunks)

/-- `ingest_text` with the vectors, or with what `embed` raised. The rows are built when the old ones are
deleted already. -/
def finishIngest (db : Db β δ) (call : Ingest μ) (chunks : List (List Char)) (vecs : Option (List ν)) :
    Except StoreError ℕ × Db β δ :=
  match vecs with
  | none => (.error .embed, db)
  | some vecs =>
    if vecs.length ≠ chunks.length then (.error (.runtime "embedding count mismatch"), db)
    else
      let db := db.change (deleteRows call.scope)
      match buildRows L call 0 chunks vecs with
      | none => (.error .row, db)
      | some rows => (.ok chunks.length, (db.change (· ++ rows)).commit)

/-- `ingest_text`, with what `embed` answers; without chunks it is not asked. -/
def ingestText (embeds : Bool) (db : Db β δ) (call : Ingest μ) (embed : List (List Char) → Option (List ν)) :
    Except StoreError ℕ × Db β δ :=
  match beginIngest L embeds db call with
  | .error e => (.error e, db)
  | .ok none => (.ok 0, db)
  | .ok (some chunks) => finishIngest L db call chunks (if chunks = [] then some [] else embed chunks)

/-- `delete_source`. -/
def deleteSource (db : Db β δ) (scope : Scope) : ℕ × Db β δ :=
  (db.working.countP (·.scope = scope), (db.change (deleteRows scope)).commit)

end Code

/-! ## One call after the other -/

section Calls

variable {μ ν β δ : Type} [DecidableEq δ] (L : Library μ ν β δ) (embeds : Bool)

/-- A call, with what `embed` answers. -/
inductive StoreCall (μ ν : Type) where
  | ingest (call : Ingest μ) (embed : List (List Char) → Option (List ν))
  | delete (scope : Scope)
  | search

/-- The source a call is about. -/
def StoreCall.On (scope : Scope) : StoreCall μ ν → Prop
  | .ingest call _ => call.scope = scope
  | .delete s => s = scope
  | .search => False

def perform (db : Db β δ) : StoreCall μ ν → Db β δ
  | .ingest call embed => (ingestText L embeds db call embed).2
  | .delete scope => (deleteSource db scope).2
  | .search => db

/-- The chunks of a source, as the connection sees them. -/
def chunksOf (scope : Scope) (rows : List (Chunk β δ)) : List (Chunk β δ) := rows.filter (·.scope = scope)

/-- Everything `ingest_text` checks before it deletes the old chunks is as it should be. -/
structure Checked (db : Db β δ) (call : Ingest μ) (embed : List (List Char) → Option (List ν)) : Prop where
  embeds : embeds = true
  changed : ∀ c ∈ db.working.find? (·.scope = call.scope), c.hash ≠ L.sha256 call.text
  chunks : ∃ chunks, chunkText call.text call.size call.overlap = some chunks ∧
    count call.scope.owner call.scope.coll db.working + chunks.length ≤ maxChunks ∧
    (chunks ≠ [] → ∃ vecs, embed chunks = some vecs ∧ vecs.length = chunks.length)

end Calls

/-! ## Calls that wait for each other -/

section Tasks

variable {μ ν β δ : Type} [DecidableEq δ] (L : Library μ ν β δ) (embeds : Bool)

/-- The rows, and the calls that wait for their vectors. -/
structure Tasks (μ β δ : Type) where
  db : Db β δ
  waiting : List (Ingest μ × List (List Char))

inductive StoreEvent (μ ν : Type) where
  | start (call : Ingest μ)
  /-- `embed` answers the call that is the `i`-th of those waiting, or raises. -/
  | resume (i : ℕ) (vecs : Option (List ν))
  | delete (scope : Scope)

/-- What runs between two awaits. -/
def tasksStep (s : Tasks μ β δ) : StoreEvent μ ν → Option (Tasks μ β δ)
  | .start call =>
    match beginIngest L embeds s.db call with
    | .error _ => some s
    | .ok none => some s
    | .ok (some []) => some { s with db := (finishIngest L s.db call [] (some [])).2 }
    | .ok (some chunks) => some { s with waiting := s.waiting ++ [(call, chunks)] }
  | .resume i vecs => s.waiting[i]?.map fun p =>
    { db := (finishIngest L s.db p.1 p.2 vecs).2, waiting := s.waiting.eraseIdx i }
  | .delete scope => some { s with db := (deleteSource s.db scope).2 }

def tasks : Machine (Tasks μ β δ) (StoreEvent μ ν) :=
  .ofFun (fun s => s.db.committed = [] ∧ s.db.working = [] ∧ s.waiting = []) (tasksStep L embeds)

/-- No collection is over the limit. -/
def WithinLimit (s : Tasks μ β δ) : Prop := ∀ owner coll, count owner coll s.db.working ≤ maxChunks

/-- What a call writes fits in the collection as it is then, without the old chunks of the source. -/
def StillFits (s : Tasks μ β δ) : StoreEvent μ ν → Prop
  | .resume i (some vecs) => ∀ p ∈ s.waiting[i]?, vecs.length = p.2.length → buildRows L p.1 0 p.2 vecs ≠ none →
      count p.1.scope.owner p.1.scope.coll (deleteRows p.1.scope s.db.working) + p.2.length ≤ maxChunks
  | _ => True

/-- The rows are the chunks of that text, in order from 0 on. -/
def IndexOf (rows : List (Chunk β δ)) (call : Ingest μ) : Prop :=
  ∃ chunks, chunkText call.text call.size call.overlap = some chunks ∧
    rows.map (fun c => (c.text, c.idx)) = chunks.zipIdx

end Tasks

end Caips.Rag
